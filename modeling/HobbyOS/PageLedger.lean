import HobbyOS.RefCount

/-!
# The free-page count through the memory code

The count of free pages agrees with the bitmap, and a free page has no
references, in every state that address spaces can be brought into. Nothing
here depends on how many pages are evicted on the way.
-/

namespace HobbyOS.PageLedger
open ByteStore BoundedLoop PageEntry PhysMem Process UserVm AddressSpace
  TableGrowth PageAlloc ForkSpace CowFork DestroySpace Mmap
  PageCount RefCount Function

variable (c : Ctx) (s : Mem)

theorem ledger_ref (h : Ledger s) {p : ℕ} (hb : s.bitmap p = true) : Ledger (pmmPageRef s p) := by
  unfold pmmPageRef
  split_ifs
  · exact ledger_count s h p _ hb
  · exact h

theorem ledger_unref (h : Ledger s) (p : ℕ) : Ledger (pmmPageUnref s p) := by
  unfold pmmPageUnref
  split_ifs with hp
  · have hb : s.bitmap p = true := by
      by_contra hc
      have := h.idle p hp.1 (by simpa using hc)
      omega
    dsimp only
    split_ifs with hz
    · rw [hz]
      unfold releasePage
      split_ifs
      · exact ledger_count s h p 0 hb
      · exact ledger_release h hp.1 hb rfl
    · exact ledger_count s h p _ hb
  · exact h

theorem ledger_free_page (h : Ledger s) (p : ℕ) : Ledger (pmmFreePage s p) := by
  unfold pmmFreePage
  split_ifs with hp hk
  · exact h
  · rw [releasePage, if_neg hk]
    exact ledger_release h hp.1 hp.2 rfl
  · exact h

theorem ledger_rmap (h : Ledger s) (page pid virt : ℕ) : Ledger (rmapSet s page pid virt) := by
  obtain ⟨m,hm⟩ := rmap_set_shape s page pid virt
  rw [hm]
  exact ledger_congr s _ h rfl rfl rfl rfl

theorem ledger_take (h : Ledger s) : Ledger (takePage s).1 := by
  unfold takePage
  cases hf : (List.range s.totalPages).find? (fun j => !s.bitmap ((s.allocHint+j) % s.totalPages)) with
  | none => exact h
  | some j =>
    have hj := List.mem_range.mp (List.mem_of_find?_eq_some hf)
    have hb := List.find?_some hf
    rw [Bool.not_eq_true'] at hb
    have hlt := Nat.mod_lt (s.allocHint+j) (show 0 < s.totalPages by omega)
    exact ledger_taken s h hlt hb

theorem ledger_evict_page (h : Ledger s) (page pml4 virt t i slot : ℕ) :
    Ledger (evictPage s page pml4 virt t i slot) := by
  unfold evictPage
  refine ledger_congr _ _ (ledger_unref _ (ledger_rmap _ ?_ page 0 0) page) rfl rfl rfl rfl
  exact ledger_congr s _ h rfl rfl rfl rfl

theorem ledger_alloc (h : Ledger s) : Ledger (pmmAllocPage c s).1 :=
  ledger_take _ (swept_low c ⟨fun s _ _ h => ledger_congr s _ h rfl rfl rfl rfl,
    fun s _ h => ledger_congr s _ h rfl rfl rfl rfl,
    fun s page pml4 virt t i slot _ _ h => ledger_evict_page s h page pml4 virt t i slot⟩ 8 h)

theorem ledger_stable : Stable c Ledger :=
  ⟨ledger_alloc c,fun s _ h => ledger_congr s _ h rfl rfl rfl rfl,
    fun s _ h => ledger_congr s _ h rfl rfl rfl rfl⟩

theorem ledger_create (h : Ledger s) : Ledger (userVmCreateAddressSpace c s).1 := by
  have hz := stable_zeroed (ledger_stable c) h
  unfold userVmCreateAddressSpace
  split
  · rename_i hs
    rw [hs] at hz
    exact hz
  · rename_i hs
    rw [hs] at hz
    exact ledger_congr _ _ hz rfl rfl rfl rfl

theorem ledger_fork_page (parent new v : ℕ) {s : Mem} {pt : ℕ} (hv : v < userPages) (hS : Struct s)
    (ha : parent ∈ s.spaces) (hpt : leafTable s.ram parent v = some pt) (h : Ledger s) :
    (forkPage c new (4096*v) pt (v % 512) s).Sat Ledger (fun _ _ => True) := by
  by_cases hp : bit (entry s.ram pt (v % 512)) 0 = true
  · have hleaf := leaf_of_table s.ram hpt
    have hview : bit (view s.ram parent v) 0 = true := by
      rw [view_bit _ _ _ _ (by omega) (by omega), hleaf]
      exact hp
    have hused : s.bitmap (pteFrame (entry s.ram pt (v % 512))) = true := by
      have := (hS.frames parent ha v hv hview).2.1
      rwa [view_frame, hleaf] at this
    have hpar : Ledger (sharedParent s pt (v % 512)) ∧ (sharedParent s pt (v % 512)).bitmap = s.bitmap := by
      unfold sharedParent
      split_ifs
      · exact ⟨ledger_congr s _ h rfl rfl rfl rfl,rfl⟩
      · exact ⟨h,rfl⟩
    rw [fork_page_present c new _ hp]
    refine fork_mapped_sat _ _ (fun _ => ?_) (fun _ => trivial)
    exact stable_map_page (ledger_stable c) new (4096*v) _ _ (ledger_ref _ hpar.1 (by rw [hpar.2]; exact hused))
  · have hsame : forkPage c new (4096*v) pt (v % 512) s = .next s := by
      unfold forkPage
      simp [hp]
    rw [hsame]
    exact h

theorem ledger_destroy_table (pt : ℕ) {s : Mem} (h : Ledger s) : Ledger (destroyTable pt s) := by
  refine ledger_free_page _ (iterate_rule _ (fun _ => Ledger) 0 512 s h ?_) pt
  intro j t _ _ ht
  dsimp only
  split_ifs
  · exact ht
  · exact ledger_unref _ (ledger_rmap t ht _ 0 0) _

theorem ledger_destroy_directory (pd : ℕ) {s : Mem} (h : Ledger s) : Ledger (destroyDirectory pd s) := by
  refine ledger_free_page _ (iterate_rule _ (fun _ => Ledger) 0 512 s h ?_) pd
  intro j t _ _ ht
  dsimp only
  split_ifs
  · exact ht
  · exact ht
  · exact ledger_destroy_table _ ht

theorem ledger_destroy_pointers (pdpt : ℕ) {s : Mem} (h : Ledger s) : Ledger (destroyPointers pdpt s) := by
  refine ledger_free_page _ (iterate_rule _ (fun _ => Ledger) 0 512 s h ?_) pdpt
  intro j t _ _ ht
  dsimp only
  split_ifs
  · exact ht
  · exact ht
  · exact ledger_destroy_directory _ ht

theorem ledger_destroy (a : ℕ) (h : Ledger s) : Ledger (userVmDestroyAddressSpace s a) := by
  unfold userVmDestroyAddressSpace
  refine ledger_congr _ _ (ledger_free_page _ (iterate_rule _ (fun _ => Ledger) 0 256 s h ?_) a) rfl rfl rfl rfl
  intro j t _ _ ht
  dsimp only
  split_ifs
  · exact ht
  · exact ledger_destroy_pointers _ ht

theorem ledger_map_fresh (a virt : ℕ) (content : Store) (flags : Pte) (h : Ledger s) :
    Ledger (mapFresh c s a virt content flags).1 := by
  have ha := ledger_alloc c s h
  unfold mapFresh
  split
  · rename_i hs
    rw [hs] at ha
    exact ha
  · rename_i s1 f _ hs
    rw [hs] at ha
    have hm := stable_map_page (ledger_stable c) a virt f flags (ledger_congr s1
      { s1 with ram := update s1.ram f content } ha rfl rfl rfl rfl)
    unfold mapFilled
    split
    · rename_i hs
      rw [hs] at hm
      exact hm
    · rename_i hs
      rw [hs] at hm
      exact ledger_free_page _ hm f

theorem ledger_cow (a va : ℕ) (h : Ledger s) : Ledger (cowHandleFault c s a va).1 := by
  have ha := ledger_alloc c s h
  unfold cowHandleFault
  split
  · exact h
  · dsimp only
    split_ifs
    · exact h
    · exact ledger_congr s _ h rfl rfl rfl rfl
    · split
      · rename_i hs
        rw [hs] at ha
        exact ha
      · rename_i hs
        rw [hs] at ha
        refine ledger_congr _ _ (ledger_unref _ ?_ _) rfl rfl rfl rfl
        exact ledger_congr _ _ ha rfl rfl rfl rfl

theorem ledger_unmap_page (a virt : ℕ) {s : Mem} (h : Ledger s) : Ledger (unmapPage a virt s) := by
  unfold unmapPage
  split
  · exact h
  · dsimp only
    split_ifs
    · exact h
    · exact ledger_congr _ _ (ledger_unref s h _) rfl rfl rfl rfl

theorem ledger_vma_unmap (t : Process.Table) {s : Mem} (p addr len : ℕ) (h : Ledger s) :
    Ledger (vmaUnmap t s p addr len).1 := by
  refine iterate_rule _ (fun _ r => Ledger r.1) 0 vmaMax (s,t) h ?_
  intro i r _ _ hr
  dsimp only
  split_ifs
  · exact iterate_rule _ (fun _ => Ledger) 0 _ r.1 hr (fun j u _ _ hu => ledger_unmap_page _ _ hu)
  · exact hr

theorem ledger_fork {parent : ℕ} (hS : Struct s) (hL : Live c s) (ha : parent ∈ s.spaces)
    (hok : (userVmForkAddressSpace c s parent).2 ≠ 0)
    (hlog : logLength (userVmForkAddressSpace c s parent).1 = logLength s) (h : Ledger s) :
    Ledger (userVmForkAddressSpace c s parent).1 := by
  obtain ⟨s1,-,-,-,-,hk⟩ := fork_shared c hS hL ha hok hlog Ledger (ledger_create c s h)
    (fun new v t pt hv ht hp hpt hl => ledger_fork_page c parent new v hv ht hp hpt hl)
  exact hk

theorem step_ledger {op : RefCount.Op} (hs : Sound s) (h : Ledger s) (hst : Step c s op) :
    Ledger (RefCount.step c s op) := by
  have hlog : logLength (RefCount.step c s op) = logLength s := congrArg List.length hst.noEviction
  have ha := hst.allowed
  cases op with
  | create => exact ledger_create c s h
  | map a virt content flags => exact ledger_map_fresh c s a virt content flags h
  | fork parent => exact ledger_fork c s hs.counts.struct hst.live ha.1 ha.2 hlog h
  | cow a va => exact ledger_cow c s a va h
  | unmap t p addr len => exact ledger_vma_unmap t p addr len h
  | destroy a => exact ledger_destroy s a h

theorem reach_ledger {s0 s : Mem} (h0 : Booted s0) (hl : Ledger s0) (h : RefCount.Reach s0 s) : Ledger s := by
  induction h with
  | start => exact hl
  | step c s op h hs ih => exact step_ledger c s (reach_sound h0 h).1 ih hs

theorem fork_destroy_kept (parent x : ℕ) (h : Sound s) (hL : Live c s)
    (ha : parent ∈ s.spaces)
    (hok : (userVmForkAddressSpace c s parent).2 ≠ 0)
    (hlog : logLength (userVmForkAddressSpace c s parent).1 = logLength s) (f : ℕ) (hf : s.bitmap f = true) :
    (userVmDestroyAddressSpace { (userVmForkAddressSpace c s parent).1 with cr3 := x }
      (userVmForkAddressSpace c s parent).2).bitmap f = true := by
  have hS := h.counts.struct
  obtain ⟨s1,hG,hF,hfree,hsh,-⟩ := fork_shared c hS hL ha hok hlog (fun _ => True) trivial
    (fun new v t pt _ _ _ _ _ => (fork_page_log c new (4096*v) pt (v % 512) t).mono (fun _ _ => trivial)
      (fun _ _ _ => trivial))
  have hfork := forked_of_shared hS ha hfree hG hF hsh
  generalize hr : (userVmForkAddressSpace c s parent).2 = new at *
  generalize (userVmForkAddressSpace c s parent).1 = s' at *
  have hnew : new ∈ ({ s' with cr3 := x } : Mem).spaces := by
    rw [hfork.spaces]
    exact List.mem_cons_self
  have hS' : Struct { s' with cr3 := x } := struct_congr hfork.struct rfl rfl rfl rfl rfl hfork.struct.low
  obtain ⟨s2,hrel,heq⟩ := destroy_spec _ hS' new hnew
  rw [heq]
  have hkept : s'.bitmap f = true := hfork.kept f hf
  by_cases hmap : ∃ v < userPages, bit (view s'.ram new v) 0 = true ∧ pteFrame (view s'.ram new v) = f
  · obtain ⟨v,hv,hb,rfl⟩ := hmap
    rw [hrel.bitmap v hv hb, if_neg]
    · exact hkept
    · -- the parent still maps the frame, so it has two references at least
      rintro ⟨-,hone,-⟩
      have hview := hfork.ofNew v hv
      split_ifs at hview with hp
      · rw [hview, share_frame, hfork.counts v hv hp, h.counts.counts parent ha v hv hp, addRef] at hone
        have hpos := CowInvariant.owners_pos ha ((CowInvariant.maps_iff _ _ _ _).mpr ⟨hp,rfl⟩)
        split_ifs at hone <;> omega
      · rw [hview] at hb
        simp at hb
  · push Not at hmap
    rw [((hrel.rest f hmap).2 _).2]
    · exact hkept
    · intro ht
      have := fork_tables hG hF hfree hsh ht
      rw [hf] at this
      cases this

theorem clear_count_mono (n : ℕ) (b b' : ℕ → Bool) (h : ∀ p < n, b p = true → b' p = true) :
    clearCount n b' ≤ clearCount n b := by
  refine List.countP_mono_left fun p hp hb => ?_
  rw [Bool.not_eq_true'] at hb ⊢
  by_contra hc
  rw [Bool.not_eq_false] at hc
  rw [h p (List.mem_range.mp hp) hc] at hb
  cases hb

theorem alloc_fewer (hS : Struct s) (hL : Live c s) (h : Ledger s)
    (hok : (pmmAllocPage c s).2 ≠ 0) (hlog : logLength (pmmAllocPage c s).1 = logLength s) :
    (pmmAllocPage c s).1.freePages < s.freePages ∧ Grow s (pmmAllocPage c s).1 ∧
      Struct (pmmAllocPage c s).1 := by
  have hl := ledger_alloc c s h
  rcases alloc_page_carry c _ _ (carry_grow c s hL) ⟨grow_refl s,hS⟩ with
    hE | ⟨s1,⟨hG,hS1⟩,-,he | ⟨n,hn,hlt,hfree,he⟩⟩
  · rw [hlog] at hE
    exact absurd hE (lt_irrefl _)
  · rw [he] at hok
    exact absurd rfl hok
  · rw [he] at hl ⊢
    obtain ⟨hG2,hS2⟩ := grow_taken s1 hS1 n hfree hlt s1.ram (fun _ _ => rfl)
    refine ⟨?_,grow_trans hG hG2,hS2⟩
    have h1 : (taken s1 n).freePages = clearCount (taken s1 n).totalPages (taken s1 n).bitmap := hl.counted.count
    have htot : (taken s1 n).totalPages = s.totalPages := hG.total
    have hset := clear_count_set s1.totalPages s1.bitmap n true hlt
    have hmono := clear_count_mono s.totalPages s.bitmap s1.bitmap (fun p _ hp => (hG.kept p hp).1)
    rw [hfree] at hset
    rw [hG.total] at hset
    simp only [if_true, Bool.false_eq_true, if_false] at hset
    rw [h1, htot, h.counted.count]
    change clearCount s.totalPages (update s1.bitmap n true) < _
    omega

end HobbyOS.PageLedger
