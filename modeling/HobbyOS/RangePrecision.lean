import HobbyOS.DestroySpace
import HobbyOS.PageMapping
import HobbyOS.VmaTable

/-!
# The range of an unmapping

`vma_unmap` and `vma_protect` pick the areas that meet the rounded range and
then work on whole areas. Both loops are one scheme: the present entries of
the pages of the picked areas are rewritten, and the picked slots change.
-/

namespace HobbyOS.RangePrecision
open BoundedLoop PageEntry PhysMem UserVm AddressSpace
  DestroySpace Process Mmap VmaTable Function

structure Space (s : Mem) (a : ℕ) : Prop where
  trees : Trees s (· = a)
  apart : ∀ w < userPages, bit (leaf s.ram a w) 0 = true →
    ¬TableOf s.ram a (pteFrame (leaf s.ram a w))

/-- The present entries of the pages in `P` are rewritten by `f`. -/
structure Rewritten (f : Pte → Pte) (P : ℕ → Prop) (a : ℕ) (s s' : Mem) : Prop where
  space : Space s' a
  inside : ∀ w < userPages, P w → bit (leaf s.ram a w) 0 = true →
    leaf s'.ram a w = f (leaf s.ram a w)
  outside : ∀ w < userPages, ¬P w ∨ bit (leaf s.ram a w) 0 = false →
    leaf s'.ram a w = leaf s.ram a w
  tables : ∀ g, TableOf s'.ram a g ↔ TableOf s.ram a g
  data : ∀ g, ¬TableOf s.ram a g → s'.ram g = s.ram g

def Steady (f : Pte → Pte) : Prop :=
  ∀ e, bit (f e) 0 = true → f (f e) = f e ∧ pteFrame (f e) = pteFrame e

section rewriting
variable (f : Pte → Pte) (a : ℕ)

theorem rewritten_refl (P : ℕ → Prop) (hP : ∀ w, ¬P w) {s : Mem} (hS : Space s a) :
    Rewritten f P a s s :=
  ⟨hS,fun w _ h => absurd h (hP w),fun _ _ _ => rfl,fun _ => Iff.rfl,fun _ _ => rfl⟩

theorem rewritten_trans (hf : Steady f) (P Q R : ℕ → Prop) (hR : ∀ w, R w ↔ P w ∨ Q w)
    {s s' s'' : Mem} (h : Rewritten f P a s s') (h' : Rewritten f Q a s' s'') :
    Rewritten f R a s s'' := by
  refine ⟨h'.space,?_,?_,fun g => (h'.tables g).trans (h.tables g),?_⟩
  · intro w hw hr hb
    by_cases hp : P w
    · have h1 := h.inside w hw hp hb
      cases h2 : bit (leaf s'.ram a w) 0 with
      | false => rw [h'.outside w hw (Or.inr h2), h1]
      | true =>
        by_cases hq : Q w
        · rw [h'.inside w hw hq h2, h1]
          rw [h1] at h2
          exact (hf _ h2).1
        · rw [h'.outside w hw (Or.inl hq), h1]
    · have h1 := h.outside w hw (Or.inl hp)
      have hq := ((hR w).mp hr).resolve_left hp
      rw [h'.inside w hw hq (by rw [h1]; exact hb), h1]
  · intro w hw hr
    rw [hR w, not_or] at hr
    have h1 := h.outside w hw (hr.imp_left And.left)
    rw [h'.outside w hw (by rw [h1]; exact hr.imp_left And.right), h1]
  · intro g hg
    rw [h'.data g (by rw [h.tables]; exact hg), h.data g hg]

theorem rewritten_entry (hf : Steady f) {s s' : Mem} {v t : ℕ} (hS : Space s a)
    (hv : v < userPages) (ht : leafTable s.ram a v = some t) (hb0 : bit (leaf s.ram a v) 0 = true)
    (hram : s'.ram = setEntry s.ram t (v % 512) (f (leaf s.ram a v)))
    (htot : s'.totalPages = s.totalPages)
    (hbit : ∀ g, TableOf s.ram a g → s'.bitmap g = true) : Rewritten f (· = v) a s s' := by
  have hT := trees_set_leaf s hS.trees a v t rfl hv ht (f (leaf s.ram a v))
  have hw := set_leaf_walk s hS.trees a v t rfl hv ht (f (leaf s.ram a v)) a
  have hl : ∀ w < userPages, leaf s'.ram a w = if w = v then f (leaf s.ram a v) else leaf s.ram a w := by
    intro w hw
    rw [hram, set_leaf s hS.trees a v t rfl hv ht _ a w rfl hw]
    simp
  have htab : ∀ g, TableOf s'.ram a g ↔ TableOf s.ram a g := by
    intro g
    rw [hram]
    exact exists_congr (fun q => and_congr_right (fun hq => by rw [hw q rfl hq]))
  refine ⟨⟨⟨by rw [htot]; exact hT.pages,by rw [hram]; exact hT.forest,by rw [hram]; exact hT.plain,?_⟩,?_⟩,
    ?_,?_,htab,?_⟩
  · rintro g ⟨_,q,rfl,hq,hg⟩
    have hg' : TableOf s.ram _ g := (htab g).mp ⟨q,hq,hg⟩
    obtain ⟨q',hq',hw'⟩ := hg'
    exact ⟨by rw [htot]; exact (hS.trees.tables g ⟨_,q',rfl,hq',hw'⟩).1,hbit g ⟨q',hq',hw'⟩⟩
  · intro w hw' hb
    rw [htab]
    rw [hl w hw'] at hb ⊢
    split_ifs at hb ⊢ with hwv
    · rw [(hf _ hb).2]
      exact hS.apart v hv hb0
    · exact hS.apart w hw' hb
  · intro w hw' hwv _
    rw [hl w hw', if_pos hwv, hwv]
  · intro w hw' hout
    rw [hl w hw']
    split_ifs with hwv
    · rcases hout with h | h
      · exact absurd hwv h
      · rw [hwv, hb0] at h
        cases h
    · rfl
  · intro g hg
    rw [hram]
    apply set_entry_frame
    rintro rfl
    exact hg ⟨path v,path_user v hv,ht⟩

theorem rewritten_area (hf : Steady f) (page : ℕ → Mem → Mem)
    (hpage : ∀ virt < 2^47, ∀ s, Space s a → Rewritten f (· = virt/4096) a s (page virt s))
    {v : Vma} (hv : Proper v) {s : Mem} (hS : Space s a) :
    Rewritten f (fun w => v.start ≤ w*pageSize ∧ w*pageSize < v.stop) a s
      (iterate (fun j => page (v.start+pageSize*j)) 0
        ((v.stop-v.start+(pageSize-1))/pageSize) s) := by
  obtain ⟨n,hn⟩ := hv.startAligned
  obtain ⟨m,hm⟩ := hv.stopAligned
  have htop := hv.user
  unfold userTop at htop
  unfold pageSize at *
  have hcount : (v.stop-v.start+(4096-1))/4096 = m-n := by omega
  rw [hcount]
  have hloop := iterate_rule (fun j => page (v.start+4096*j))
    (fun j s' => Rewritten f (fun w => n ≤ w ∧ w < n+j) a s s') 0 (m-n) s
    (rewritten_refl f a _ (fun w h => by omega) hS) (by
      intro j s' _ hj h
      have hvirt : (v.start+4096*j)/4096 = n+j := by omega
      have hone := hpage (v.start+4096*j) (by omega) s' h.space
      exact rewritten_trans f a hf _ _ _ (fun w => by omega) h hone)
  have hset : (fun w => n ≤ w ∧ w < n+(0+(m-n))) =
      fun w => v.start ≤ w*4096 ∧ w*4096 < v.stop := by
    funext w
    apply propext
    omega
  rw [hset] at hloop
  exact hloop

end rewriting

theorem unref_bit (s : Mem) {f g : ℕ} (h : g ≠ f) : (pmmPageUnref s f).bitmap g = s.bitmap g := by
  unfold pmmPageUnref releasePage
  dsimp only
  split_ifs <;> simp [h]

theorem steady_clear : Steady (fun _ => 0#64) := fun _ h => by simp at h

theorem protected_bit (prot : BitVec 32) (e : Pte) (i : ℕ) (h1 : 12 ≤ i) (h2 : i < 52) :
    bit (protectedEntry prot e) i = bit e i := by
  unfold protectedEntry
  split_ifs <;> simp [h1, h2, show i ≠ 0 by omega, show i ≠ 1 by omega, show i ≠ 2 by omega]

theorem steady_protect (prot : BitVec 32) : Steady (protectedEntry prot) := by
  intro e _
  refine ⟨?_,frame_congr _ _ (protected_bit prot e)⟩
  have hmask : protectedEntry prot e &&& pteAddrMask = e &&& pteAddrMask := by
    apply eq_of_bits
    intro i _
    by_cases hi : 12 ≤ i ∧ i < 52
    · rw [bit_and, bit_and, protected_bit prot e i hi.1 hi.2]
    · have hout : (decide (12 ≤ i) && decide (i < 52)) = false := by
        rw [← Bool.decide_and]
        exact decide_eq_false hi
      simp [hout]
  rw [protectedEntry, hmask]
  rfl

theorem unmap_page (a virt : ℕ) (hva : virt < 2^47) (s : Mem) (hS : Space s a) :
    Rewritten (fun _ => 0#64) (· = virt/4096) a s (unmapPage a virt s) := by
  have hv : virt/4096 < userPages := by unfold userPages; omega
  have hstay : bit (leaf s.ram a (virt/4096)) 0 = false →
      Rewritten (fun _ => 0#64) (· = virt/4096) a s s := by
    intro h0
    refine ⟨hS,?_,fun _ _ _ => rfl,fun _ => Iff.rfl,fun _ _ => rfl⟩
    rintro w _ rfl hb
    rw [h0] at hb
    cases hb
  unfold unmapPage
  rw [get_pte s hS.trees rfl hva]
  cases ht : leafTable s.ram a (virt/4096) with
  | none => exact hstay (by simp [leaf, ht])
  | some t =>
    have hleaf := leaf_of_table s.ram ht
    simp only [Option.map_some, has_present, ← hleaf]
    split_ifs with h0
    · exact hstay h0
    · have hb : bit (leaf s.ram a (virt/4096)) 0 = true := by simpa using h0
      refine rewritten_entry _ a steady_clear hS hv ht hb rfl (by simp) ?_
      intro g hg
      have hne : g ≠ pteFrame (leaf s.ram a (virt/4096)) := by
        rintro rfl
        exact hS.apart _ hv hb hg
      obtain ⟨q,hq,hw⟩ := hg
      exact (unref_bit s hne).trans (hS.trees.tables g ⟨a,q,rfl,hq,hw⟩).2

theorem protect_page (prot : BitVec 32) {a virt : ℕ} (hva : virt < 2^47) {s : Mem}
    (hS : Space s a) :
    Rewritten (protectedEntry prot) (· = virt/4096) a s (protectPage a prot virt s) := by
  have hv : virt/4096 < userPages := by unfold userPages; omega
  have hstay : bit (leaf s.ram a (virt/4096)) 0 = false →
      Rewritten (protectedEntry prot) (· = virt/4096) a s s := by
    intro h0
    refine ⟨hS,?_,fun _ _ _ => rfl,fun _ => Iff.rfl,fun _ _ => rfl⟩
    rintro w _ rfl hb
    rw [h0] at hb
    cases hb
  unfold protectPage
  rw [get_pte s hS.trees rfl hva]
  cases ht : leafTable s.ram a (virt/4096) with
  | none => exact hstay (by simp [leaf, ht])
  | some t =>
    have hleaf := leaf_of_table s.ram ht
    simp only [Option.map_some, has_present, ← hleaf]
    split_ifs with h0
    · exact hstay h0
    · refine rewritten_entry _ a (steady_protect prot) hS hv ht (by simpa using h0)
        rfl rfl ?_
      rintro g ⟨q,hq,hw⟩
      exact (hS.trees.tables g ⟨a,q,rfl,hq,hw⟩).2

def hit (x : Proc) (addr len i : ℕ) : Bool :=
  vmaOverlaps (x.vmas i) (pageBase addr) (pageUp (addr+len))

def covers (v : Vma) (w : ℕ) : Bool :=
  v.inUse && decide (v.start ≤ w*pageSize) && decide (w*pageSize < v.stop)

def changed (x : Proc) (addr len : ℕ) (g : Vma → Vma) (n : ℕ) : Proc :=
  { x with vmas := fun i => if i < n ∧ hit x addr len i = true then g (x.vmas i) else x.vmas i }

theorem hit_in_use {x : Proc} {addr len i : ℕ} (h : hit x addr len i = true) :
    (x.vmas i).inUse = true := by
  simp only [hit, vmaOverlaps, Bool.and_eq_true] at h
  exact h.1.1

section areas
variable (t : Table) (p addr len : ℕ) (hproper : ∀ i < vmaMax, ((t p).vmas i).inUse = true →
  Proper ((t p).vmas i))
include hproper

theorem over_areas (f : Pte → Pte) (hf : Steady f) (g : Vma → Vma) (area : ℕ → Vma → Mem → Mem)
    (change : Table → ℕ → Table)
    (hchange : ∀ t' i, change t' i = update t' p { t' p with
      vmas := update (t' p).vmas i (g ((t' p).vmas i)) })
    (harea : ∀ v, Proper v → ∀ s, Space s (t p).cr3 →
      Rewritten f (fun w => v.start ≤ w*pageSize ∧ w*pageSize < v.stop) (t p).cr3 s
        (area (t p).cr3 v s)) {s : Mem} (hS : Space s (t p).cr3) {r : Mem × Table}
    (hr : r = iterate (fun i (r : Mem × Table) =>
      let v := (r.2 p).vmas i
      if vmaOverlaps v (pageBase addr) (pageUp (addr+len)) then
        (area (r.2 p).cr3 v r.1,change r.2 i)
      else r) 0 vmaMax (s,t)) :
    Rewritten f (fun w => ∃ i < vmaMax, hit (t p) addr len i = true ∧
      covers ((t p).vmas i) w = true) (t p).cr3 s r.1 ∧ r.2 p = changed (t p) addr len g vmaMax := by
  have hloop := iterate_rule (fun i (r : Mem × Table) =>
      let v := (r.2 p).vmas i
      if vmaOverlaps v (pageBase addr) (pageUp (addr+len)) then
        (area (r.2 p).cr3 v r.1,change r.2 i)
      else r)
    (fun n r => Rewritten f (fun w => ∃ i < n, hit (t p) addr len i = true ∧
      covers ((t p).vmas i) w = true) (t p).cr3 s r.1 ∧ r.2 p = changed (t p) addr len g n)
    0 vmaMax (s,t) ⟨rewritten_refl f _ _ (by simp) hS,by simp [changed]⟩ (by
      rintro i ⟨s',t'⟩ - hi ⟨h,ht⟩
      dsimp only at h ht ⊢
      have hv : (t' p).vmas i = (t p).vmas i := by rw [ht]; simp [changed]
      have ha : (t' p).cr3 = (t p).cr3 := by rw [ht]; rfl
      rw [hv, ha]
      -- slot `i` is as it was, so its own test decides
      by_cases hh : vmaOverlaps ((t p).vmas i) (pageBase addr) (pageUp (addr+len)) = true
      · rw [if_pos hh]
        have hh' : hit (t p) addr len i = true := hh
        have hu := hit_in_use hh
        refine ⟨rewritten_trans f _ hf _ _ _ ?_ h
          (harea _ (hproper i (by omega) hu) s' h.space),?_⟩
        · intro w
          have hone : covers ((t p).vmas i) w = true ↔
              ((t p).vmas i).start ≤ w*pageSize ∧ w*pageSize < ((t p).vmas i).stop := by
            simp [covers, hu]
          rw [← hone]
          constructor
          · rintro ⟨j,hj,h1,h2⟩
            rcases Nat.lt_succ_iff_lt_or_eq.mp hj with hj | rfl
            · exact Or.inl ⟨j,hj,h1,h2⟩
            · exact Or.inr h2
          · rintro (⟨j,hj,h1,h2⟩ | h2)
            · exact ⟨j,by omega,h1,h2⟩
            · exact ⟨i,by omega,hh',h2⟩
        · have hvmas : update (changed (t p) addr len g i).vmas i
              (g ((changed (t p) addr len g i).vmas i)) = (changed (t p) addr len g (i+1)).vmas := by
            funext j
            by_cases hj : j = i
            · subst hj
              simp [changed, hh']
            · have hlt : j < i+1 ↔ j < i := by omega
              simp only [changed, update_of_ne hj, hlt]
          dsimp only
          rw [hchange, update_self, ht, hvmas]
          rfl
      · rw [if_neg hh]
        have hh' : hit (t p) addr len i = false := by simpa [hit] using hh
        refine ⟨rewritten_trans f _ hf _ (fun _ => False) _ ?_ h
          (rewritten_refl f _ _ (by simp) h.space),?_⟩
        · intro w
          rw [or_false]
          constructor
          · rintro ⟨j,hj,h1,h2⟩
            have hji : j ≠ i := by rintro rfl; rw [hh'] at h1; cases h1
            exact ⟨j,by omega,h1,h2⟩
          · rintro ⟨j,hj,h1,h2⟩
            exact ⟨j,by omega,h1,h2⟩
        · dsimp only
          rw [ht]
          unfold changed
          congr 1
          funext j
          by_cases hj : j = i
          · subst hj
            simp [hh']
          · have hlt : j < i+1 ↔ j < i := by omega
            simp [hlt])
  rw [hr]
  rwa [Nat.zero_add] at hloop

theorem unmap_areas {s : Mem} (hS : Space s (t p).cr3) :
    Rewritten (fun _ => 0#64) (fun w => ∃ i < vmaMax, hit (t p) addr len i = true ∧
      covers ((t p).vmas i) w = true) (t p).cr3 s (vmaUnmap t s p addr len).1 ∧
    (vmaUnmap t s p addr len).2 p =
      changed (t p) addr len (fun v => { v with inUse := false }) vmaMax :=
  over_areas t p addr len hproper _ steady_clear _ unmapArea (fun t' i => dropVma t' p i)
    (fun _ _ => rfl) (fun _ hv _ hS => rewritten_area _ _ steady_clear (unmapPage _)
      (unmap_page _) hv hS) hS rfl

theorem protect_areas (prot : BitVec 32) {s : Mem} (hS : Space s (t p).cr3) :
    Rewritten (protectedEntry prot) (fun w => ∃ i < vmaMax, hit (t p) addr len i = true ∧
      covers ((t p).vmas i) w = true) (t p).cr3 s (vmaProtect t s p addr len prot).1 ∧
    (vmaProtect t s p addr len prot).2 p =
      changed (t p) addr len (fun v => { v with prot := prot }) vmaMax :=
  over_areas t p addr len hproper _ (steady_protect prot) _ (fun a => protectArea a prot)
    (fun t' i => setProt t' p i prot) (fun _ _ => rfl)
    (fun _ hv _ hS => rewritten_area _ _ (steady_protect prot) (protectPage _ prot)
      (fun _ hva _ hS => protect_page prot hva hS) hv hS) hS rfl

end areas

def InRange (addr len w : ℕ) : Prop :=
  addr/pageSize ≤ w ∧ w < (addr+len+(pageSize-1))/pageSize

def cutTo (v : Vma) (w : ℕ) : Vma := { v with
  start := w*pageSize
  stop := (w+1)*pageSize
  fileOffset := v.fileOffset+(w*pageSize-v.start)
  devPhysBase := v.devPhysBase+(w*pageSize-v.start) }

/-- The areas at a page, as far as the page goes; a fault is served from the
first. -/
def areasAt (vmas : ℕ → Vma) (w : ℕ) : List Vma :=
  ((List.range vmaMax).filter (fun i => covers (vmas i) w)).map (fun i => cutTo (vmas i) w)

def Absent (e : Pte) : Prop := bit e 0 = false ∧ bit e 10 = false

/-- The page has the same areas, the same entry and the same bytes. -/
structure PageKept (x x' : Proc) (s s' : Mem) (w : ℕ) : Prop where
  areas : areasAt x'.vmas w = areasAt x.vmas w
  entry : leaf s'.ram x.cr3 w = leaf s.ram x.cr3 w
  bytes : bit (leaf s.ram x.cr3 w) 0 = true →
    s'.ram (pteFrame (leaf s.ram x.cr3 w)) = s.ram (pteFrame (leaf s.ram x.cr3 w))

structure UnmapsExactly (t : Table) (s : Mem) (p addr len : ℕ) : Prop where
  inside : ∀ w < userPages, InRange addr len w →
    areasAt ((vmaUnmap t s p addr len).2 p).vmas w = [] ∧
      Absent (leaf (vmaUnmap t s p addr len).1.ram (t p).cr3 w)
  outside : ∀ w < userPages, ¬InRange addr len w →
    PageKept (t p) ((vmaUnmap t s p addr len).2 p) s (vmaUnmap t s p addr len).1 w

structure ProtectsExactly (t : Table) (s : Mem) (p addr len : ℕ) (prot : BitVec 32) : Prop where
  inside : ∀ w < userPages, InRange addr len w →
    areasAt ((vmaProtect t s p addr len prot).2 p).vmas w =
        (areasAt (t p).vmas w).map (fun v => { v with prot := prot }) ∧
      (bit (leaf s.ram (t p).cr3 w) 0 = true →
        bit (leaf (vmaProtect t s p addr len prot).1.ram (t p).cr3 w) 0 = true ∧
        bit (leaf (vmaProtect t s p addr len prot).1.ram (t p).cr3 w) 1 =
          decide (prot &&& protWrite ≠ 0) ∧
        pteFrame (leaf (vmaProtect t s p addr len prot).1.ram (t p).cr3 w) =
          pteFrame (leaf s.ram (t p).cr3 w))
  outside : ∀ w < userPages, ¬InRange addr len w →
    PageKept (t p) ((vmaProtect t s p addr len prot).2 p) s (vmaProtect t s p addr len prot).1 w

/-- Every picked area lies in the range and every other one beside it, and
the pages of the range are present pages of areas or not there at all. -/
structure Fits (x : Proc) (s : Mem) (addr len : ℕ) : Prop where
  picked : ∀ i < vmaMax, hit x addr len i = true → ∀ w, covers (x.vmas i) w = true →
    InRange addr len w
  other : ∀ i < vmaMax, hit x addr len i = false → ∀ w, covers (x.vmas i) w = true →
    ¬InRange addr len w
  pages : ∀ w < userPages, InRange addr len w → ¬Absent (leaf s.ram x.cr3 w) →
    bit (leaf s.ram x.cr3 w) 0 = true ∧ ∃ i < vmaMax, covers (x.vmas i) w = true

section exactly
variable (x : Proc) (addr len w : ℕ)

theorem covers_user {v : Vma} (hv : v.inUse = true → Proper v) (h : covers v w = true) :
    w < userPages := by
  simp only [covers, Bool.and_eq_true, decide_eq_true_eq] at h
  have := (hv h.1.1).user
  unfold userTop at this
  unfold pageSize at h
  unfold userPages
  omega

theorem areas_dropped : areasAt (changed x addr len (fun v => { v with inUse := false }) vmaMax).vmas w =
    ((List.range vmaMax).filter (fun i => covers (x.vmas i) w && !hit x addr len i)).map
      (fun i => cutTo (x.vmas i) w) := by
  have hfilter : (List.range vmaMax).filter (fun i => covers
      ((changed x addr len (fun v => { v with inUse := false }) vmaMax).vmas i) w) =
      (List.range vmaMax).filter (fun i => covers (x.vmas i) w && !hit x addr len i) := by
    apply List.filter_congr
    intro i hi
    have hi' := List.mem_range.mp hi
    cases hh : hit x addr len i with
    | true => simp [changed, hi', hh, covers]
    | false => simp [changed, hh]
  rw [areasAt, hfilter]
  apply List.map_congr_left
  intro i hi
  have hh : hit x addr len i = false := by
    have := (List.mem_filter.mp hi).2
    simp only [Bool.and_eq_true, Bool.not_eq_true'] at this
    exact this.2
  simp [changed, hh]

theorem areas_protected (prot : BitVec 32) {b : Bool}
    (hall : ∀ i < vmaMax, covers (x.vmas i) w = true → hit x addr len i = b) :
    areasAt (changed x addr len (fun v => { v with prot := prot }) vmaMax).vmas w =
      if b then (areasAt x.vmas w).map (fun v => { v with prot := prot }) else areasAt x.vmas w := by
  have hfilter : (List.range vmaMax).filter (fun i => covers
      ((changed x addr len (fun v => { v with prot := prot }) vmaMax).vmas i) w) =
      (List.range vmaMax).filter (fun i => covers (x.vmas i) w) := by
    apply List.filter_congr
    intro i _
    unfold changed
    dsimp only
    split_ifs <;> rfl
  rw [areasAt, hfilter, areasAt, List.map_map, ← apply_ite (fun g => List.map g _)]
  apply List.map_congr_left
  intro i hi
  obtain ⟨h1,h2⟩ := List.mem_filter.mp hi
  have hi' := List.mem_range.mp h1
  cases b with
  | true => simp [changed, hi', hall i hi' h2, cutTo]
  | false => simp [changed, hall i hi' h2]

end exactly

/-- Both calls are precise on a range, for every protection, exactly when
the range fits the areas. -/
theorem precise_iff (t : Table) (s : Mem) (p addr len : ℕ) (hS : Space s (t p).cr3)
    (hproper : ∀ i < vmaMax, ((t p).vmas i).inUse = true → Proper ((t p).vmas i)) :
    (UnmapsExactly t s p addr len ∧ ∀ prot, ProtectsExactly t s p addr len prot) ↔
      Fits (t p) s addr len := by
  obtain ⟨hun,hut⟩ := unmap_areas t p addr len hproper hS
  constructor
  · rintro ⟨⟨hin,hout⟩,-⟩
    rw [hut] at hin hout
    refine ⟨?_,?_,?_⟩
    · intro i hi hh w hc
      by_contra hr
      -- the dropped area is missing from the list at this page
      have heq := (hout w (covers_user w (hproper i hi) hc) hr).areas
      rw [areas_dropped, areasAt] at heq
      have hsub : ((List.range vmaMax).filter
          (fun i => covers ((t p).vmas i) w && !hit (t p) addr len i)).Sublist
          ((List.range vmaMax).filter (fun i => covers ((t p).vmas i) w)) :=
        List.monotone_filter_right _ (fun j hj => by
          simp only [Bool.and_eq_true] at hj
          exact hj.1)
      have hlen := congrArg List.length heq
      rw [List.length_map, List.length_map] at hlen
      have hmem : i ∈ (List.range vmaMax).filter (fun i => covers ((t p).vmas i) w) :=
        List.mem_filter.mpr ⟨List.mem_range.mpr hi,hc⟩
      rw [← hsub.eq_of_length hlen] at hmem
      have := (List.mem_filter.mp hmem).2
      simp [hh] at this
    · intro i hi hh w hc hr
      have heq := (hin w (covers_user w (hproper i hi) hc) hr).1
      rw [areas_dropped, List.map_eq_nil_iff, List.filter_eq_nil_iff] at heq
      exact heq i (List.mem_range.mpr hi) (by simp [hc, hh])
    · intro w hw hr hab
      have hgone := (hin w hw hr).2
      by_contra hcon
      apply hab
      rw [hun.outside w hw] at hgone
      · exact hgone
      · by_contra h
        rw [not_or, not_not, Bool.not_eq_false] at h
        obtain ⟨⟨i,hi,-,hc⟩,hb⟩ := h
        exact hcon ⟨hb,i,hi,hc⟩
  · intro hfit
    have hhit : ∀ w, InRange addr len w → ∀ i < vmaMax, covers ((t p).vmas i) w = true →
        hit (t p) addr len i = true := by
      intro w hr i hi hc
      by_contra hh
      exact hfit.other i hi (by simpa using hh) w hc hr
    have hmiss : ∀ w, ¬InRange addr len w → ∀ i < vmaMax, covers ((t p).vmas i) w = true →
        hit (t p) addr len i = false := by
      intro w hr i hi hc
      by_contra hh
      exact hr (hfit.picked i hi (by simpa using hh) w hc)
    have hnone : ∀ w, ¬InRange addr len w → ¬∃ i < vmaMax, hit (t p) addr len i = true ∧
        covers ((t p).vmas i) w = true := by
      rintro w hr ⟨i,hi,hh,hc⟩
      rw [hmiss w hr i hi hc] at hh
      cases hh
    refine ⟨⟨?_,?_⟩,fun prot => ?_⟩
    · intro w hw hr
      rw [hut, areas_dropped]
      constructor
      · rw [List.map_eq_nil_iff, List.filter_eq_nil_iff]
        intro i hi hc
        simp only [Bool.and_eq_true] at hc
        rw [hhit w hr i (List.mem_range.mp hi) hc.1] at hc
        cases hc.2
      · by_cases hab : Absent (leaf s.ram (t p).cr3 w)
        · rw [hun.outside w hw (Or.inr hab.1)]
          exact hab
        · obtain ⟨hb,i,hi,hc⟩ := hfit.pages w hw hr hab
          rw [hun.inside w hw ⟨i,hi,hhit w hr i hi hc,hc⟩ hb]
          exact ⟨rfl,rfl⟩
    · intro w hw hr
      rw [hut]
      refine ⟨?_,hun.outside w hw (Or.inl (hnone w hr)),fun hb => hun.data _ (hS.apart w hw hb)⟩
      have hfilter : (List.range vmaMax).filter
          (fun i => covers ((t p).vmas i) w && !hit (t p) addr len i) =
          (List.range vmaMax).filter (fun i => covers ((t p).vmas i) w) := by
        apply List.filter_congr
        intro i hi
        cases hc : covers ((t p).vmas i) w with
        | false => rfl
        | true => simp [hmiss w hr i (List.mem_range.mp hi) hc]
      rw [areas_dropped, hfilter, areasAt]
    · obtain ⟨hpr,hpt⟩ := protect_areas t p addr len hproper prot hS
      constructor
      · intro w hw hr
        rw [hpt, areas_protected (t p) addr len w prot (hhit w hr)]
        refine ⟨rfl,fun hb => ?_⟩
        obtain ⟨-,i,hi,hc⟩ := hfit.pages w hw hr (fun hab => by rw [hab.1] at hb; cases hb)
        rw [hpr.inside w hw ⟨i,hi,hhit w hr i hi hc,hc⟩ hb]
        refine ⟨?_,?_,frame_congr _ _ (protected_bit prot _)⟩
        · unfold protectedEntry
          split_ifs <;> simp
        · unfold protectedEntry
          split_ifs with h0
          · simp [h0]
          · rw [decide_eq_true h0]
            simp
      · intro w hw hr
        rw [hpt]
        refine ⟨?_,hpr.outside w hw (Or.inl (hnone w hr)),fun hb => hpr.data _ (hS.apart w hw hb)⟩
        rw [areas_protected (t p) addr len w prot (hmiss w hr)]
        rfl

/-- One process with an area of two pages, the second of which is mapped. -/
def twoPageArea : Vma := { start := 0x10000000, stop := 0x10002000, prot := 3, inUse := true }

def twoPageTable : Table := fun i =>
  if i = 0 then { pid := 1, cr3 := 1, vmas := fun j => if j = 0 then twoPageArea else {} } else {}

def twoPageMem : Mem := (userVmMapPage { table := twoPageTable, current := none } PageMapping.bare 1
  0x10001000 5 (pteUser ||| pteWritable)).1

/-- Unmapping or protecting the first page alone takes the second along. -/
theorem second_page_lost :
    ¬InRange 0x10000000 4096 0x10001 ∧
    (areasAt (twoPageTable 0).vmas 0x10001).length = 1 ∧
    leaf twoPageMem.ram 1 0x10001 = leafEntry 5 (pteUser ||| pteWritable) ∧
    areasAt ((vmaUnmap twoPageTable twoPageMem 0 0x10000000 4096).2 0).vmas 0x10001 = [] ∧
    leaf (vmaUnmap twoPageTable twoPageMem 0 0x10000000 4096).1.ram 1 0x10001 = 0#64 ∧
    bit (leaf (vmaProtect twoPageTable twoPageMem 0 0x10000000 4096 1).1.ram 1 0x10001) 1 = false := by
  refine ⟨by unfold InRange; decide,?_⟩
  decide +kernel

/-- Both pages together fit. -/
theorem precise_iff_both : UnmapsExactly twoPageTable PageMapping.bare 0 0x10000000 0x2000 := by
  have hleaf : ∀ w < userPages, leaf PageMapping.bare.ram 1 w = 0#64 := fun w hw =>
    PageMapping.bare_leaf _ 1 (fun i _ => PageMapping.entry_bare i) hw
  have hused : ∀ i, ((twoPageTable 0).vmas i).inUse = true → (twoPageTable 0).vmas i = twoPageArea := by
    intro i hu
    by_cases hi : i = 0
    · simp [twoPageTable, hi]
    · simp [twoPageTable, hi] at hu
  have hcov : ∀ i w, covers ((twoPageTable 0).vmas i) w = true →
      InRange 0x10000000 0x2000 w ∧ hit (twoPageTable 0) 0x10000000 0x2000 i = true := by
    intro i w hc
    have hu : ((twoPageTable 0).vmas i).inUse = true := by
      simp only [covers, Bool.and_eq_true] at hc
      exact hc.1.1
    have hv := hused i hu
    have harea : covers twoPageArea w = true := hv ▸ hc
    simp only [covers, Bool.and_eq_true, decide_eq_true_eq] at harea
    have hc' : 0x10000000 ≤ w*4096 ∧ w*4096 < 0x10002000 := ⟨harea.1.2,harea.2⟩
    refine ⟨by unfold InRange pageSize; omega,?_⟩
    rw [hit, hv]
    decide
  refine ((precise_iff twoPageTable PageMapping.bare 0 0x10000000 0x2000 ⟨PageMapping.trees_bare,?_⟩
    ?_).mpr ⟨?_,?_,?_⟩).1
  · intro w hw hb
    rw [show (twoPageTable 0).cr3 = 1 from rfl, hleaf w hw] at hb
    simp at hb
  · intro i _ hu
    rw [hused i hu]
    exact ⟨by decide,by decide,by decide,by decide⟩
  · exact fun i _ _ w hc => (hcov i w hc).1
  · intro i _ hh w hc
    rw [(hcov i w hc).2] at hh
    cases hh
  · intro w hw _ hab
    rw [show (twoPageTable 0).cr3 = 1 from rfl, hleaf w hw] at hab
    exact absurd ⟨by simp,by simp⟩ hab

end HobbyOS.RangePrecision
