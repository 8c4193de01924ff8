import HobbyOS.PageCount

/-!
# Mapping one page

`user_vm_map_page` goes down three levels and stores one leaf. Each level
raises flags in an entry or attaches a fresh table, and neither moves a
leaf. All of it is about the tables below one root, as long as no
allocation on the way looks for pages to evict.
-/

namespace HobbyOS.PageMapping
open RadixTree PageEntry PhysMem UserVm AddressSpace
  TableGrowth PageAlloc

variable (c : Ctx) (k : ℕ) (s : Mem) (a virt : ℕ)

/-- What one level of the way down below root `a` does to the state. -/
inductive Level (a : ℕ) (s : Mem) : Mem → Prop where
  -- frame 0 is taken and lost: its address reads as a failure
  | spent (h0 : s.bitmap 0 = false) : Level a s (taken s 0)
  | touch (p : List ℕ) (i t : ℕ) (hp : UserPath (p++[i])) (ht : walk (child s.ram) a p = some t)
      (h0 : bit (entry s.ram t i) 0 = true) : Level a s { s with
        ram := setEntry s.ram t i (entry s.ram t i ||| (pteUser ||| pteWritable)) }
  | attach (p : List ℕ) (i t n : ℕ) (hp : UserPath (p++[i]))
      (ht : walk (child s.ram) a p = some t) (h0 : bit (entry s.ram t i) 0 = false)
      (hn : s.bitmap n = false) (hlt : n < s.totalPages) : Level a s (attached s i t n)

abbrev Levels (a : ℕ) : Mem → Mem → Prop := Relation.ReflTransGen (Level a)

theorem touched_frame (e : Pte) : pteFrame (e ||| (pteUser ||| pteWritable)) = pteFrame e :=
  frame_congr _ _ (fun j h1 h2 => by simp [show j ≠ 1 by omega, show j ≠ 2 by omega])

theorem level_trees {s s' : Mem} (h : Level a s s') (hT : Trees s (· = a)) :
    Trees s' (· = a) ∧ ∀ w < userPages, leaf s'.ram a w = leaf s.ram a w := by
  cases h with
  | spent h0 =>
    refine ⟨⟨hT.pages,hT.forest,hT.plain,?_⟩,fun w _ => rfl⟩
    intro t ht
    obtain ⟨h1,h2⟩ := hT.tables t ht
    have ht0 : t ≠ 0 := by rintro rfl; rw [h0] at h2; cases h2
    exact ⟨h1,by simp [taken, Function.update_of_ne ht0, h2]⟩
  | touch p i t hp ht h0 =>
    refine ⟨trees_touch s hT a i t p rfl hp ht _ (by simp) (touched_frame _) ?_,
      fun w hw => touch_leaf s hT a i t p rfl hp ht _ (by simp) (touched_frame _) a w rfl hw⟩
    intro hne _
    simpa using hT.plain a rfl p i t hne hp ht h0
  | attach p i t n hp ht h0 hn hlt =>
    exact ⟨trees_attach s hT a i t n p rfl hp ht h0 hn hlt,
      fun w hw => attach_leaf s hT a i t n p rfl hp ht h0 hn hlt a w rfl hw⟩

theorem levels_trees (s s' : Mem) (h : Levels a s s') (hT : Trees s (· = a)) :
    Trees s' (· = a) ∧ ∀ w < userPages, leaf s'.ram a w = leaf s.ram a w := by
  induction h with
  | refl => exact ⟨hT,fun w _ => rfl⟩
  | tail _ hstep ih =>
    obtain ⟨h1,h2⟩ := level_trees a hstep ih.1
    exact ⟨h1,fun w hw => (h2 w hw).trans (ih.2 w hw)⟩

theorem take_any : takePage s = (s,0) ∨ ∃ n < s.totalPages, s.bitmap n = false ∧
    takePage s = (taken s n,n) := by
  unfold takePage
  cases hf : (List.range s.totalPages).find?
      (fun j => !s.bitmap ((s.allocHint+j) % s.totalPages)) with
  | none => exact Or.inl rfl
  | some j =>
    have hb := List.find?_some hf
    have hj := List.mem_range.mp (List.mem_of_find?_eq_some hf)
    exact Or.inr ⟨_,Nat.mod_lt _ (by omega),by simpa using hb,rfl⟩

theorem next_table_level (i t : ℕ) (p : List ℕ) (hT : Trees s (· = a)) (hq : Quiet (k+1) s) (hp : UserPath (p++[i]))
    (ht : walk (child s.ram) a p = some t) : ∃ s' o, nextTable c s t i = (s',o) ∧
      Levels a s s' ∧ Quiet k s' ∧ ∀ u ∈ o, walk (child s'.ram) a (p++[i]) = some u := by
  unfold nextTable
  cases h0 : bit (entry s.ram t i) 0 with
  | true =>
    have hlev : Level a s _ := .touch p i t hp ht h0
    simp only [has_present, h0]
    refine ⟨_,_,rfl,.single hlev,quiet_less hq k.le_succ,?_⟩
    rintro u ⟨⟩
    rw [touch_child s i t _ (by simp) (touched_frame _), touched_frame, walk_snoc, ht]
    simp [child, h0]
  | false =>
    simp only [has_present, h0, allocZeroedPage, quiet_alloc c hq]
    rcases take_any s with he | ⟨n,hlt,hn,he⟩
    · rw [he]
      exact ⟨s,none,rfl,.refl,quiet_less hq k.le_succ,by simp⟩
    · rw [he]
      cases n with
      | zero => exact ⟨_,none,rfl,.single (.spent hn),quiet_taken s 0 hq,by simp⟩
      | succ n =>
        have hfr := table_entry_frame (n+1) (by have := hT.pages; omega)
        refine ⟨attached s i t (n+1),some (n+1),?_,.single (.attach p i t (n+1) hp ht h0 hn hlt),
          quiet_taken s (n+1) hq,?_⟩
        · exact Prod.ext rfl (congrArg some hfr)
        · rintro u ⟨⟩
          rw [attach_walk s hT a i t (n+1) p rfl hp ht h0 hn hlt a _ rfl hp, if_pos ⟨rfl,rfl⟩]

/-- The whole way down: a failure leaves levels behind, a success stores the
leaf below them. -/
theorem map_page_levels {s : Mem} {a virt : ℕ} (frame : ℕ) (flags : Pte) (hT : Trees s (· = a)) (hq : Quiet 3 s)
    (hv : virt < 2^47) :
    (∃ s1, Levels a s s1 ∧ userVmMapPage c s a virt frame flags = (s1,false)) ∨
    ∃ s1 t, Levels a s s1 ∧ leafTable s1.ram a (virt/4096) = some t ∧
      userVmMapPage c s a virt frame flags = (recordMapping c { s1 with
        ram := setEntry s1.ram t (virt/4096 % 512) (leafEntry frame flags) } virt frame,true) := by
  have hu := path_user (virt/4096) (by unfold userPages; omega)
  rcases map_page_rule (c := c) (B := fun _ => False) ⟨fun _ => id,fun _ _ => id,fun _ _ => id⟩
    (fun k x => Levels a s x ∧ Quiet k x) frame flags (fun k x t i p hx hp ht => .inr (by
      obtain ⟨x',o,he,hl,hq',hw⟩ := next_table_level c k x a i t p (levels_trees a _ _ hx.1 hT).1 hx.2
        (user_path_closed _ _ hp hu) ht
      rw [he]
      exact ⟨⟨hx.1.trans hl,hq'⟩,hw⟩)) (.inr ⟨.refl,hq⟩) with ⟨⟨⟩⟩ | ⟨_,s1,h1,he⟩ | ⟨s1,t,h1,ht,he⟩
  · exact .inl ⟨s1,h1.1,he⟩
  · exact .inr ⟨s1,t,h1.1,ht,he⟩

@[simp] theorem record_mapping_ram (frame : ℕ) : (recordMapping c s virt frame).ram = s.ram := by
  obtain ⟨m,hm⟩ := record_mapping_rmap c s virt frame
  rw [hm]

theorem map_page_trees (frame : ℕ) (flags : Pte) (hT : Trees s (· = a)) (hq : Quiet 3 s) (hv : virt < 2^47) :
    Trees (userVmMapPage c s a virt frame flags).1 (· = a) := by
  rcases map_page_levels c frame flags hT hq hv with ⟨s1,hl,he⟩ | ⟨s1,t,hl,ht,he⟩
  · rw [he]
    exact (levels_trees a s s1 hl hT).1
  · have hT2 := trees_set_leaf s1 (levels_trees a s s1 hl hT).1 a (virt/4096) t rfl
      (by unfold userPages; omega) ht (leafEntry frame flags)
    obtain ⟨m,hm⟩ := record_mapping_rmap c { s1 with
      ram := setEntry s1.ram t (virt/4096 % 512) (leafEntry frame flags) } virt frame
    rw [he, hm]
    exact ⟨hT2.pages,hT2.forest,hT2.plain,hT2.tables⟩

/-- What `user_vm_get_pte` points at, zero where it returns no pointer. -/
def pteAt (r : Ram) (a virt : ℕ) : Pte :=
  match userVmGetPte r a virt with
  | none => 0#64
  | some (t,i) => entry r t i

theorem pte_at_leaf {s : Mem} {a va : ℕ} (hT : Trees s (· = a)) (hva : va < 2^47) :
    pteAt s.ram a va = leaf s.ram a (va/4096) := by
  rw [pteAt, get_pte s hT rfl hva, leaf]
  cases leafTable s.ram a (va/4096) <;> rfl

theorem leaf_entry_parts (frame : ℕ) (flags : Pte) (hf : frame < 2^40)
    (hflags : flags &&& pteAddrMask = 0#64) : pteFrame (leafEntry frame flags) = frame ∧
      leafEntry frame flags &&& ~~~pteAddrMask = flags ||| ptePresent := by
  have hclear : ∀ i, 12 ≤ i → i < 52 → bit flags i = false := by
    intro i h1 h2
    have := congrArg (fun e => bit e i) hflags
    simpa [h1, h2] using this
  constructor
  · rw [leaf_entry_frame frame hclear, Nat.mod_eq_of_lt hf]
  · apply eq_of_bits
    intro i hi
    by_cases hm : 12 ≤ i ∧ i < 52
    · simp [hm.1, hm.2, hclear i hm.1 hm.2, show i ≠ 0 by omega]
    · rw [bit_and, bit_not, leafEntry, BitVec.or_assoc, compose_bit _ _ (by omega)]
      have hout : (decide (12 ≤ i) && decide (i < 52)) = false := by
        rw [← Bool.decide_and]
        exact decide_eq_false hm
      simp [hi, hout]

/-- A successful call maps exactly the page it names; a failed call maps
nothing; the tables below the root stay a tree of allocated frames. -/
theorem mapping_law (c : Ctx) (s : Mem) (a virt frame : ℕ) (flags : Pte)
    (hT : Trees s (· = a)) (hq : Quiet 3 s) (hv : virt < 2^47) :
    ∃ s' ok, userVmMapPage c s a virt frame flags = (s',ok) ∧ Trees s' (· = a) ∧
      (ok = true →
        (∃ t i, userVmGetPte s'.ram a virt = some (t,i) ∧
          entry s'.ram t i = frameWord frame ||| flags ||| ptePresent ∧
          (frame < 2^40 → flags &&& pteAddrMask = 0#64 →
            pteFrame (entry s'.ram t i) = frame ∧
            entry s'.ram t i &&& ~~~pteAddrMask = flags ||| ptePresent)) ∧
        ∀ va < 2^47, va/4096 ≠ virt/4096 → pteAt s'.ram a va = pteAt s.ram a va) ∧
      (ok = false → ∀ va < 2^47, pteAt s'.ram a va = pteAt s.ram a va) := by
  have hpage : ∀ va, va < 2^47 → va/4096 < userPages := by
    intro va hva
    unfold userPages
    omega
  rcases map_page_levels c frame flags hT hq hv with ⟨s1,hl,he⟩ | ⟨s1,t,hl,ht,he⟩
  · obtain ⟨hT1,hleaf⟩ := levels_trees a s s1 hl hT
    refine ⟨s1,false,he,hT1,by simp,?_⟩
    intro _ va hva
    rw [pte_at_leaf hT1 hva, pte_at_leaf hT hva, hleaf _ (hpage va hva)]
  · obtain ⟨hT1,hleaf⟩ := levels_trees a s s1 hl hT
    have hset := set_leaf s1 hT1 a (virt/4096) t rfl (hpage virt hv) ht (leafEntry frame flags) a
    have hT2 := trees_set_leaf s1 hT1 a (virt/4096) t rfl (hpage virt hv) ht (leafEntry frame flags)
    have htable := set_leaf_walk s1 hT1 a (virt/4096) t rfl (hpage virt hv) ht
      (leafEntry frame flags) a (path (virt/4096)) rfl (path_user _ (hpage virt hv))
    have hT3 := map_page_trees c s a virt frame flags hT hq hv
    rw [he] at hT3
    refine ⟨_,true,he,hT3,fun _ => ⟨?_,?_⟩,by simp⟩
    · refine ⟨t,virt/4096 % 512,?_,?_,?_⟩
      · rw [record_mapping_ram, get_pte _ hT2 rfl hv, leafTable, htable]
        rw [leafTable] at ht
        rw [ht]
        rfl
      · rw [record_mapping_ram, entry_set_same]
        rfl
      · intro hf hflags
        rw [record_mapping_ram, entry_set_same]
        exact leaf_entry_parts frame flags hf hflags
    · intro va hva hne
      have hother := hset (va/4096) rfl (hpage va hva)
      rw [if_neg (fun h => hne h.2)] at hother
      have hat := pte_at_leaf hT2 hva
      rw [record_mapping_ram, hat, pte_at_leaf hT hva, ← hleaf _ (hpage va hva)]
      exact hother

theorem bare_trees (hp : s.totalPages ≤ 2^40) (ha : a < s.totalPages) (hb : s.bitmap a = true)
    (he : ∀ i < 256, bit (entry s.ram a i) 0 = false) : Trees s (· = a) := by
  have hwalk : ∀ q t, UserPath q → walk (child s.ram) a q = some t → q = [] ∧ t = a := by
    intro q t hq ht
    cases q with
    | nil => exact ⟨rfl,by simpa [walk] using ht.symm⟩
    | cons i q =>
      have hi := hq.2.2 i (by simp)
      simp [walk, child, he i hi] at ht
  refine ⟨hp,?_,?_,?_⟩
  · rintro _ _ p q t rfl rfl hpu hqu ht ht'
    exact ⟨rfl,(hwalk p t hpu ht).1.trans (hwalk q t hqu ht').1.symm⟩
  · rintro _ rfl p i t hne hpi ht _
    exact absurd (hwalk p t (user_path_closed _ _ (List.prefix_append p [i]) hpi) ht).1 hne
  · rintro t ⟨_,q,rfl,hq,ht⟩
    rw [(hwalk q t hq ht).2]
    exact ⟨ha,hb⟩

theorem bare_leaf {w : ℕ} (he : ∀ i < 256, bit (entry s.ram a i) 0 = false) (hw : w < userPages) : leaf s.ram a w = 0#64 := by
  have hi : w/2^27 % 512 < 256 := by unfold userPages at hw; omega
  have hc : child s.ram a (w/2^27 % 512) = none := by rw [child, he _ hi]; rfl
  rw [leaf, leafTable, path, walk, hc]
  rfl

/-- Eight frames: the empty root in frame 1, data in frames 5 and 6. -/
def bare : Mem := { PageCount.powerOn with
  totalPages := 8
  bitmap := fun p => p == 0 || p == 1 || p == 5 || p == 6
  pageRefcount := fun p => if p = 1 ∨ p = 5 ∨ p = 6 then 1 else 0
  freePages := 4 }

theorem entry_bare (i : ℕ) : bit (entry bare.ram 1 i) 0 = false := by
  rw [entry_congr bare.ram (zeroPage bare.ram 1) 1 i rfl, entry_zero_page]
  rfl

theorem trees_bare : Trees bare (· = 1) :=
  bare_trees bare 1 (by decide) (by decide) rfl (fun i _ => entry_bare i)

def oneProcess : Ctx where
  table := fun i => if i = 0 then { pid := 1, cr3 := 1, state := .running } else {}
  current := some 0

theorem mapping_law_bare : ∃ s', userVmMapPage oneProcess bare 1 0x400000 5 pteUser = (s',true) ∧
    ∃ t i, userVmGetPte s'.ram 1 0x400000 = some (t,i) ∧ pteFrame (entry s'.ram t i) = 5 := by
  obtain ⟨s',ok,he,-,hok,-⟩ := mapping_law oneProcess bare 1 0x400000 5 pteUser trees_bare
    (Or.inl rfl) (by decide)
  have htrue : (userVmMapPage oneProcess bare 1 0x400000 5 pteUser).2 = true := by decide +kernel
  rw [he] at htrue
  dsimp only at htrue
  obtain ⟨⟨t,i,hget,-,hframe⟩,-⟩ := hok htrue
  exact ⟨s',by rw [he, htrue],t,i,hget,(hframe (by decide) (by decide)).1⟩

def swapping : Mem :=
  { (userVmMapPage oneProcess bare 1 0 5 (pteUser ||| pteWritable)).1 with swapReady := true }

/-- Mapping the page at 2 MB needs a table, and the allocation of the table
evicts page 0. -/
theorem mapping_evicts : Trees swapping (· = 1) ∧
    (userVmMapPage oneProcess swapping 1 0x200000 6 pteUser).2 = true ∧
    pteAt swapping.ram 1 0 = leafEntry 5 (pteUser ||| pteWritable) ∧
    pteAt (userVmMapPage oneProcess swapping 1 0x200000 6 pteUser).1.ram 1 0 = swappedEntry 0 := by
  have hT := map_page_trees oneProcess bare 1 0 5 (pteUser ||| pteWritable) trees_bare (Or.inl rfl)
    (by decide)
  have hrun : (userVmMapPage oneProcess swapping 1 0x200000 6 pteUser).2 = true ∧
      pteAt swapping.ram 1 0 = leafEntry 5 (pteUser ||| pteWritable) ∧
      pteAt (userVmMapPage oneProcess swapping 1 0x200000 6 pteUser).1.ram 1 0 =
        swappedEntry 0 := by decide +kernel
  exact ⟨⟨hT.pages,hT.forest,hT.plain,hT.tables⟩,hrun⟩

end HobbyOS.PageMapping
