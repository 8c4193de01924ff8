import HobbyOS.CowFork
import HobbyOS.PageCount

/-!
# A fork with enough free frames succeeds

An allocation that does not find memory low succeeds as long as a frame is
free. A fork takes one frame for the new root and at most three tables for
each page of the parent.
-/

namespace HobbyOS.ForkTotal
open PageEntry PhysMem UserVm
  AddressSpace TableGrowth PageAlloc ForkSpace CowFork Function

def freeFrames (s : Mem) : Finset ℕ := (Finset.range s.totalPages).filter (s.bitmap · = false)

/-- At least `k` free frames to be had without an eviction; `log` is the record so far. -/
structure Roomy (log : List Eviction) (k : ℕ) (s : Mem) : Prop where
  quiet : Quiet k s
  log : s.evictions = log
  zero : s.bitmap 0 = true
  pages : 0 < s.totalPages
  free : k ≤ (freeFrames s).card

variable (log : List Eviction) (k : ℕ)

variable (c : Ctx) (s : Mem)

theorem take_page_total (h : Roomy log (k+1) s) :
    ∃ n, n ≠ 0 ∧ takePage s = (taken s n,n) ∧ Roomy log k (taken s n) := by
  have hlt := h.free
  obtain ⟨f,hf⟩ : ∃ f, f ∈ freeFrames s := Finset.card_pos.mp (by omega)
  obtain ⟨hfr,hfb⟩ := Finset.mem_filter.mp hf
  obtain ⟨n,hn,hnt,hnb,he⟩ := take_page_free h.zero (Finset.mem_range.mp hfr) hfb
  refine ⟨n,hn,he,quiet_taken s n h.quiet,h.log,?_,h.pages,?_⟩
  · change update s.bitmap n true 0 = true
    rw [update_of_ne hn.symm]
    exact h.zero
  · have herase : freeFrames (taken s n) = (freeFrames s).erase n := by
      ext g
      rw [freeFrames, freeFrames, Finset.mem_filter]
      by_cases hg : g = n
      · simp [taken, hg]
      · simp [taken, hg]
    have hmem : n ∈ freeFrames s := Finset.mem_filter.mpr ⟨Finset.mem_range.mpr hnt,hnb⟩
    rw [herase, Finset.card_erase_of_mem hmem]
    omega

theorem alloc_page_total (h : Roomy log (k+1) s) :
    ∃ n, n ≠ 0 ∧ pmmAllocPage c s = (taken s n,n) ∧ Roomy log k (taken s n) := by
  rw [quiet_alloc c h.quiet]
  exact take_page_total log k s h

theorem roomy_congr (s' : Mem) (h : Roomy log k s) (h1 : s'.swapReady = s.swapReady)
    (h2 : s'.evictions = s.evictions) (h3 : s'.bitmap = s.bitmap)
    (h4 : s'.totalPages = s.totalPages) (h5 : s'.freePages = s.freePages) : Roomy log k s' := by
  refine ⟨by rw [Quiet, h1, h5]; exact h.quiet,by rw [h2]; exact h.log,by rw [h3]; exact h.zero,
    by rw [h4]; exact h.pages,?_⟩
  unfold freeFrames
  rw [h3, h4]
  exact h.free

theorem roomy_mono (j : ℕ) (h : Roomy log k s) (hj : j ≤ k) : Roomy log j s :=
  ⟨quiet_less h.quiet hj,h.log,h.zero,h.pages,hj.trans h.free⟩

theorem free_card (h : PageCount.Ledger s) : s.freePages = (freeFrames s).card := by
  have hpred : (fun p => !s.bitmap p) = fun p => decide (s.bitmap p = false) := by
    funext p
    cases s.bitmap p <;> rfl
  rw [h.counted.count, PageCount.clearCount, hpred, List.countP_eq_length_filter]
  rfl

theorem next_table_total {s : Mem} (t i : ℕ) (h : Roomy log (k+1) s) :
    ∃ s' u, nextTable c s t i = (s',some u) ∧ Roomy log k s' := by
  unfold nextTable
  split_ifs
  · obtain ⟨n,hn,he,hr⟩ := alloc_page_total log k c s h
    obtain ⟨m,rfl⟩ := Nat.exists_eq_succ_of_ne_zero hn
    rw [allocZeroedPage, he]
    exact ⟨_,_,rfl,roomy_congr log k _ _ hr rfl rfl rfl rfl rfl⟩
  · exact ⟨_,_,rfl,roomy_congr log k _ _ (roomy_mono log (k+1) s k h (by omega)) rfl rfl rfl rfl rfl⟩

theorem map_page_total (a virt f : ℕ) (flags : Pte) (h : Roomy log (k+3) s) :
    ∃ s', userVmMapPage c s a virt f flags = (s',true) ∧ Roomy log k s' := by
  obtain ⟨s4,t4,e4,h4⟩ := next_table_total log (k+2) c a (pml4Index virt) h
  obtain ⟨s3,t3,e3,h3⟩ := next_table_total log (k+1) c t4 (pdptIndex virt) h4
  obtain ⟨s2,t2,e2,h2⟩ := next_table_total log k c t3 (pdIndex virt) h3
  refine ⟨recordMapping c { s2 with ram := setEntry s2.ram t2 (ptIndex virt) (leafEntry f flags) }
    virt f,?_,?_⟩
  · simp only [userVmMapPage, e4, e3, e2]
  · obtain ⟨m,hm⟩ := record_mapping_rmap c { s2 with
      ram := setEntry s2.ram t2 (ptIndex virt) (leafEntry f flags) } virt f
    rw [hm]
    exact roomy_congr log k _ _ h2 rfl rfl rfl rfl rfl

theorem fork_page_total (new virt t i : ℕ) {s : Mem} (h : Roomy log (k+3) s) :
    ∃ s', forkPage c new virt t i s = .next s' ∧ Roomy log k s' := by
  by_cases hp : bit (entry s.ram t i) 0 = true
  · have href : Roomy log (k+3)
        (pmmPageRef (sharedParent s t i) (pteFrame (entry s.ram t i))) := by
      unfold pmmPageRef sharedParent
      split_ifs <;> exact roomy_congr log (k+3) _ _ h rfl rfl rfl rfl rfl
    obtain ⟨s',he,hr⟩ := map_page_total log k c _ new virt (pteFrame (entry s.ram t i))
      (sharedFlags (entry s.ram t i)) href
    rw [fork_page_present c new virt hp, he]
    exact ⟨s',rfl,hr⟩
  · have : forkPage c new virt t i s = .next s := by
      unfold forkPage
      simp [hp]
    exact ⟨s,this,roomy_mono log (k+3) s k h (by omega)⟩

theorem create_total (h : Roomy log (k+1) s) :
    ∃ s' n, n ≠ 0 ∧ userVmCreateAddressSpace c s = (s',n) ∧ Roomy log k s' := by
  obtain ⟨n,hn,he,hr⟩ := alloc_page_total log k c s h
  exact ⟨_,n,hn,(create_cases c s).2.1 s n hn he,roomy_congr log k _ _ hr rfl rfl rfl rfl rfl⟩

noncomputable def pagesFrom (r : Ram) (a v : ℕ) : ℕ :=
  ((Finset.Ico v userPages).filter (fun w => bit (view r a w) 0 = true)).card

theorem pages_from_step (r : Ram) (a v : ℕ) (hv : v < userPages) :
    pagesFrom r a v = pagesFrom r a (v+1) + if bit (view r a v) 0 = true then 1 else 0 := by
  unfold pagesFrom
  rw [← Finset.insert_Ico_add_one_left_eq_Ico hv, Finset.filter_insert]
  split_ifs with h
  · simp
  · rfl

theorem pages_from_skip (r : Ram) (a v w : ℕ) (hvw : v ≤ w) :
    pagesFrom r a w ≤ pagesFrom r a v := by
  apply Finset.card_le_card
  apply Finset.filter_subset_filter
  exact Finset.Ico_subset_Ico_left hvw

theorem fork_total {parent : ℕ} (hS : Struct s) (hL : Live c s) (ha : parent ∈ s.spaces)
    (h : Roomy log (k+3*pagesFrom s.ram parent 0+1) s) :
    (userVmForkAddressSpace c s parent).2 ≠ 0 ∧
      Roomy log k (userVmForkAddressSpace c s parent).1 := by
  obtain ⟨s1,new,hn,he,hr1⟩ := create_total log (k+3*pagesFrom s.ram parent 0) c s h
  rw [fork_of_create c parent he hn]
  rcases create_carry _ _ (carry_grow c s hL) ⟨grow_refl s,hS⟩ with
    hE | ⟨-,h0⟩ | ⟨-,s3,n,-,-,⟨hG3,hS3⟩,-,-,hF,heq⟩
  · rw [he, logLength, logLength, hr1.log, h.log] at hE
    omega
  · rw [he] at h0
    exact absurd h0 hn
  · rw [he] at heq
    obtain ⟨rfl,rfl⟩ := Prod.mk.inj heq
    have ha3 : parent ∈ (withRoot s3 new).spaces :=
      List.mem_cons_of_mem _ (by rw [hG3.spaces]; exact ha)
    have hL3 : Live c (withRoot s3 new) := by
      intro p h1 h2 h3
      exact List.mem_cons_of_mem _ (by rw [hG3.spaces]; exact hL p h1 h2 h3)
    have hS4 := struct_with_root s3 hS3 new hF
    have hview : ∀ w < userPages, view (withRoot s3 new).ram parent w = view s.ram parent w :=
      hG3.views parent ha
    have hloop := fork_rule c parent new
      (fun v t => Shared (withRoot s3 new) parent new v t ∧
        Roomy log (k+3*pagesFrom s.ram parent v) t) (fun _ => False) (fun _ => False)
      (fun v t ht => ⟨ht.1.struct,by rw [ht.1.extend.spaces]; exact ha3⟩)
      (by
        rintro v w t ⟨hsh,hro⟩ hvw hw hskip
        refine ⟨shared_skip hsh hvw ?_,?_⟩
        · intro u h1 h2
          have hu := hskip u h1 h2
          rw [← view_bit _ _ _ _ (by omega) (by omega), hsh.ofParent u (by omega),
            if_neg (by omega)] at hu
          exact hu
        · have := pages_from_skip s.ram parent v w hvw
          exact roomy_mono log _ t _ hro (by omega))
      (by
        rintro v t pt hv ⟨hsh,hro⟩ hpt
        have hsat := fork_page_shared c _ parent new ha3 List.mem_cons_self hS4 hL3 hv
          hsh hpt
        have hbit : bit (entry t.ram pt (v % 512)) 0 = bit (view s.ram parent v) 0 := by
          rw [← leaf_of_table t.ram hpt, ← view_bit _ _ _ _ (by omega) (by omega),
            hsh.ofParent v hv, if_neg (by omega), hview v hv]
        have hstep := pages_from_step s.ram parent v hv
        obtain ⟨t',ht',hro'⟩ : ∃ t', forkPage c new (4096*v) pt (v % 512) t = .next t' ∧
            Roomy log (k+3*pagesFrom s.ram parent (v+1)) t' := by
          by_cases hp : bit (view s.ram parent v) 0 = true
          · rw [if_pos hp] at hstep
            exact fork_page_total log _ c new _ pt _ (roomy_mono log _ t _ hro (by omega))
          · refine ⟨t,?_,roomy_mono log _ t _ hro (by omega)⟩
            unfold forkPage
            simp [hbit, hp]
        rw [ht'] at hsat ⊢
        rcases hsat with ⟨h1,h2⟩ | hlt
        · exact Or.inl ⟨⟨h1,hro'⟩,h2⟩
        · rw [logLength, logLength, hr1.log, hro'.log] at hlt
          omega)
      (fun _ _ _ _ hf => hf.elim)
      ⟨⟨hS4,extend_refl _,fun _ _ _ _ _ _ => rfl,by simp,by
        intro v hv
        simpa [withRoot] using with_root_view s3 new hF v hv,by simp,fun _ _ _ => rfl⟩,hr1⟩
    cases hf : forkSpace c parent new (withRoot s3 new) with
    | next s' =>
      rw [hf] at hloop
      have hro := (hloop.resolve_right not_false).2
      exact ⟨hn,roomy_mono log _ s' k hro (by omega)⟩
    | ret s' _ =>
      rw [hf] at hloop
      exact hloop.elim

end HobbyOS.ForkTotal
