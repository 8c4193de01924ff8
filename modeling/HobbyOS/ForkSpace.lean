import HobbyOS.PageAlloc

/-!
# Making and forking an address space

A new space is one fresh table with the kernel's half of the page table in
use. The fork visits the parent's pages in ascending order and skips what
no table covers. `fork_rule` reduces the four nested loops to one page.
-/

namespace HobbyOS.ForkSpace
open RadixTree BoundedLoop PageEntry PhysMem UserVm
  AddressSpace TableGrowth PageAlloc

theorem copy_kernel_entries (r : Ram) (n cr3 : ℕ) :
    (∀ f, f ≠ n → copyKernelEntries r n cr3 f = r f) ∧
      ∀ j < 256, entry (copyKernelEntries r n cr3) n j = entry r n j := by
  unfold copyKernelEntries
  refine iterate_rule _ (fun _ r' => (∀ f, f ≠ n → r' f = r f) ∧
    ∀ j < 256, entry r' n j = entry r n j) 256 256 r ⟨fun _ _ => rfl,fun _ _ => rfl⟩ ?_
  rintro i r' hi - ⟨h1,h2⟩
  constructor
  · intro f hf
    rw [set_entry_frame _ _ _ _ _ hf, h1 f hf]
  · intro j hj
    rw [entry_set_other _ _ _ _ _ _ (Or.inr (by omega)), h2 j hj]

/-- An allocated frame outside every space, empty in its user half. -/
structure FreshRoot (s : Mem) (n : ℕ) : Prop where
  bound : n < s.totalPages
  used : s.bitmap n = true
  apart : ¬Table s n
  empty : ∀ j < 256, child s.ram n j = none
  unmapped : ∀ a ∈ s.spaces, ∀ v < userPages, bit (view s.ram a v) 0 = true →
    pteFrame (view s.ram a v) ≠ n

section root
variable (s : Mem) (hS : Struct s) (n : ℕ) (hn : FreshRoot s n)

def withRoot : Mem := { s with spaces := n :: s.spaces }

include hn

theorem with_root_walk {q : List ℕ} (hq : UserPath q) :
    walk (child s.ram) n q = if q = [] then some n else none :=
  walk_new_root (child s.ram) n user_path_closed
    (fun j hj => hn.empty j (hj.2.2 j (by simp))) hq

theorem with_root_view (v : ℕ) (hv : v < userPages) : view s.ram n v = 0#64 := by
  have hw := with_root_walk s n hn (path_user v hv)
  rw [if_neg (by simp [path])] at hw
  rw [view, leaf, leafTable, hw]
  simp

theorem with_root_table (t : ℕ) : Table (withRoot s n) t ↔ t = n ∨ Table s t := by
  constructor
  · rintro ⟨a,q,ha,hq,ht⟩
    rcases List.mem_cons.mp ha with rfl | ha
    · rw [show walk (child (withRoot s a).ram) a q = if q = [] then some a else none from
        with_root_walk s a hn hq] at ht
      split_ifs at ht
      cases ht
      exact Or.inl rfl
    · exact Or.inr ⟨a,q,ha,hq,ht⟩
  · rintro (rfl | ⟨a,q,ha,hq,ht⟩)
    · exact root_table (withRoot s t) (List.mem_cons_self)
    · exact ⟨a,q,List.mem_cons_of_mem n ha,hq,ht⟩

include hS

theorem struct_with_root : Struct (withRoot s n) := by
  have hnew : ∀ a ∈ (withRoot s n).spaces, ∀ v < userPages, bit (view s.ram a v) 0 = true →
      a ∈ s.spaces := by
    intro a ha v hv hb
    rcases List.mem_cons.mp ha with rfl | ha
    · rw [with_root_view s a hn v hv] at hb
      simp at hb
    · exact ha
  refine ⟨hS.pages,hS.zero,hS.kernel,?_,?_,?_,?_,?_,?_,hS.low⟩
  · exact List.nodup_cons.mpr ⟨fun h => hn.apart (root_table s h),hS.nodup⟩
  · have hF := forest_new_root (child s.ram) (child s.ram) n hS.forest user_path_closed hn.apart
      (fun j hj => hn.empty j (hj.2.2 j (by simp))) (fun _ _ _ => rfl)
    intro a b p q u ha hb
    exact hF a b p q u (List.mem_cons.mp ha) (List.mem_cons.mp hb)
  · intro a ha p i t hp hpi ht hb
    rcases List.mem_cons.mp ha with rfl | ha
    · have hpp := user_path_closed _ _ (List.prefix_append p [i]) hpi
      rw [show walk (child (withRoot s a).ram) a p = if p = [] then some a else none from
        with_root_walk s a hn hpp, if_neg hp] at ht
      cases ht
    · exact hS.plain a ha p i t hp hpi ht hb
  · intro t ht
    rcases (with_root_table s n hn t).mp ht with rfl | ht
    · exact ⟨hn.bound,hn.used⟩
    · exact hS.tables t ht
  · intro a ha v hv hb
    have ha' := hnew a ha v hv hb
    obtain ⟨h1,h2,h3⟩ := hS.frames a ha' v hv hb
    refine ⟨h1,h2,?_⟩
    intro ht
    rcases (with_root_table s n hn _).mp ht with h | h
    · exact hn.unmapped a ha' v hv hb h
    · exact h3 h
  · intro a ha b hb v hv w hw h1 h2 h3
    exact hS.place a (hnew a ha v hv h1) b (hnew b hb w hw h2) v hv w hw h1 h2 h3

end root

/-- A page taken, zeroed and given the kernel's half: not yet a space. -/
def prepared (s : Mem) (n : ℕ) : Mem :=
  { taken s n with ram := copyKernelEntries (zeroPage s.ram n) n s.cr3 }

theorem prepared_out (s : Mem) (n f : ℕ) (hf : f ≠ n) : (prepared s n).ram f = s.ram f := by
  have h := (copy_kernel_entries (zeroPage s.ram n) n s.cr3).1 f hf
  rw [zeroPage, Function.update_of_ne hf] at h
  exact h

theorem prepared_low (s : Mem) (n j : ℕ) (hj : j < 256) : child (prepared s n).ram n j = none := by
  have h := (copy_kernel_entries (zeroPage s.ram n) n s.cr3).2 j hj
  rw [entry_zero_page] at h
  have h' : entry (prepared s n).ram n j = 0#64 := h
  rw [child, h']
  simp

theorem create_cases (c : Ctx) (s : Mem) :
    (∀ s1, pmmAllocPage c s = (s1,0) → userVmCreateAddressSpace c s = (s1,0)) ∧
    (∀ s1 n, n ≠ 0 → pmmAllocPage c s = (taken s1 n,n) →
      userVmCreateAddressSpace c s = (withRoot (prepared s1 n) n,n)) ∧
    logLength (userVmCreateAddressSpace c s).1 = logLength (pmmAllocPage c s).1 := by
  unfold userVmCreateAddressSpace allocZeroedPage
  refine ⟨?_,?_,?_⟩
  · intro s1 h
    rw [h]
    rfl
  · intro s1 n hn h
    obtain ⟨m,rfl⟩ := Nat.exists_eq_succ_of_ne_zero hn
    rw [h]
    rfl
  · cases hr : pmmAllocPage c s with
    | mk s1 n => cases n <;> rfl

theorem fresh_prepared {s : Mem} (hS : Struct s) {n : ℕ} (hfree : s.bitmap n = false)
    (hlt : n < s.totalPages) :
    Grow s (prepared s n) ∧ Struct (prepared s n) ∧ FreshRoot (prepared s n) n := by
  have hnt := free_not_table s hS.trees n hfree
  have hout := prepared_out s n
  obtain ⟨hG,hS'⟩ := grow_taken s hS n hfree hlt (prepared s n).ram hout
  refine ⟨hG,hS',hlt,by simp [prepared, taken],?_,prepared_low s n,?_⟩
  · intro ht
    rcases hG.tables n ht with h | h
    · exact hnt h
    · obtain ⟨a,q,ha,hq,ht⟩ := ht
      have hw : walk (child (prepared s n).ram) a q = walk (child s.ram) a q := by
        apply walk_same (child s.ram) _ user_path_closed _ a q ha hq
        intro u j hu
        have hun : u ≠ n := by rintro rfl; exact hnt hu
        rw [child, child, entry_congr _ s.ram u j (hout u hun)]
      exact hnt ⟨a,q,ha,hq,hw ▸ ht⟩
  · intro a ha v hv hb heq
    have hview := hG.views a ha v hv
    have hb' : bit (view s.ram a v) 0 = true := by rw [← hview]; exact hb
    have hf := (hS.frames a ha v hv hb').2.1
    have heq' : pteFrame (view s.ram a v) = n := by rw [← hview]; exact heq
    rw [heq', hfree] at hf
    cases hf

theorem create_carry {c : Ctx} (J : Mem → Prop) (E : ℕ → Prop) (hC : Carry c J E) {s : Mem}
    (h : J s) :
    E (logLength (userVmCreateAddressSpace c s).1) ∨
    (J (userVmCreateAddressSpace c s).1 ∧ (userVmCreateAddressSpace c s).2 = 0) ∨
    ∃ s2 s1 n, J s2 ∧ s2.bitmap n = false ∧ J s1 ∧ s1.spaces = s.spaces ∧ n ≠ 0 ∧
      FreshRoot s1 n ∧ userVmCreateAddressSpace c s = (withRoot s1 n,n) := by
  obtain ⟨hfail,hok,hlog⟩ := create_cases c s
  rcases alloc_page_carry c J E hC h with he | ⟨s1,h1,hw,he | ⟨n,hn,hlt,hfree,he⟩⟩
  · rw [hlog]
    exact Or.inl he
  · rw [hfail s1 he]
    exact Or.inr (Or.inl ⟨h1,rfl⟩)
  · obtain ⟨hG,hS,hF⟩ := fresh_prepared (hC.struct s1 h1) hfree hlt
    exact Or.inr (Or.inr ⟨s1,prepared s1 n,n,h1,hfree,hC.grow s1 _ h1 hG hS,hw.spaces,hn,hF,
      hok s1 n hn he⟩)

def Keeps (a : ℕ) (s s' : Mem) : Prop :=
  ∀ p t, UserPath p → walk (child s.ram) a p = some t → walk (child s'.ram) a p = some t

theorem keeps_refl (a : ℕ) (s : Mem) : Keeps a s s := fun _ _ _ h => h

theorem keeps_trans {a : ℕ} {s s' s'' : Mem} (h : Keeps a s s') (h' : Keeps a s' s'') :
    Keeps a s s'' := fun p t hp ht => h' p t hp (h p t hp ht)

theorem path_of_indices (i4 i3 i2 k : ℕ) (h4 : i4 < 256) (h3 : i3 < 512) (h2 : i2 < 512)
    (hk : k < 512) : path (i4*2^27+i3*2^18+i2*2^9+k) = [i4,i3,i2] := by
  simp only [path, List.cons.injEq, and_true]
  omega

theorem absent_below (r : Ram) (a v : ℕ) (p q : List ℕ) (hp : path v = p++q)
    (hw : walk (child r) a p = none) : bit (leaf r a v) 0 = false := by
  rw [leaf, leafTable, hp, walk_append, hw]
  simp

section rule
variable (c : Ctx) (parent new : ℕ) (G : ℕ → Mem → Prop) (E R : Mem → Prop)
  (hspace : ∀ v s, G v s → Struct s ∧ parent ∈ s.spaces)
  (hskip : ∀ v w s, G v s → v ≤ w → w ≤ userPages →
    (∀ u, v ≤ u → u < w → bit (leaf s.ram parent u) 0 = false) → G w s)
  (hpage : ∀ v s pt, v < userPages → G v s → leafTable s.ram parent v = some pt →
    (forkPage c new (4096*v) pt (v % 512) s).Sat
      (fun s' => (G (v+1) s' ∧ Keeps parent s s') ∨ E s') (fun s' _ => R s'))
  (hstay : ∀ s virt pt i, E s → (forkPage c new virt pt i s).Sat E (fun s' _ => R s'))

include hspace hskip

theorem fork_entry_cases (s : Mem) (v w j t : ℕ) (p : List ℕ) (h : G v s) (hp : p ≠ [])
    (hpj : UserPath (p++[j])) (ht : walk (child s.ram) parent p = some t) (hvw : v ≤ w)
    (hwu : w ≤ userPages) (hr : ∀ u, v ≤ u → u < w → ∃ q, path u = p++[j]++q) :
    (bit (entry s.ram t j) 0 = false ∧ G w s) ∨
      (bit (entry s.ram t j) 0 = true ∧ bit (entry s.ram t j) 7 = false ∧
        walk (child s.ram) parent (p++[j]) = some (pteFrame (entry s.ram t j))) := by
  cases hb : bit (entry s.ram t j) 0 with
  | false =>
    left
    refine ⟨rfl,hskip v w s h hvw hwu ?_⟩
    intro u h1 h2
    obtain ⟨q,hq⟩ := hr u h1 h2
    apply absent_below s.ram parent u (p++[j]) q hq
    rw [walk_snoc, ht]
    simp [child, hb]
  | true =>
    right
    obtain ⟨hS,ha⟩ := hspace v s h
    refine ⟨rfl,hS.plain parent ha p j t hp hpj ht hb,?_⟩
    rw [walk_snoc, ht]
    simp [child, hb]

omit hspace hskip

include hstay

theorem fork_table_stay (i4 i3 i2 pt : ℕ) {s : Mem} (h : E s) :
    (forkTable c new i4 i3 i2 pt s).Sat E (fun s' _ => R s') :=
  forUp_rule _ (fun _ => E) _ 0 512 s h (fun _ t _ _ ht => hstay t _ _ _ ht)

theorem fork_directory_stay (i4 i3 pd : ℕ) {s : Mem} (h : E s) :
    (forkDirectory c new i4 i3 pd s).Sat E (fun s' _ => R s') := by
  refine forUp_rule _ (fun _ => E) _ 0 512 s h ?_
  intro j t _ _ ht
  dsimp only
  split_ifs
  · exact ht
  · exact ht
  · exact fork_table_stay c new E R hstay i4 i3 j _ ht

theorem fork_pointers_stay (i4 pdpt : ℕ) {s : Mem} (h : E s) :
    (forkPointers c new i4 pdpt s).Sat E (fun s' _ => R s') := by
  refine forUp_rule _ (fun _ => E) _ 0 512 s h ?_
  intro j t _ _ ht
  dsimp only
  split_ifs
  · exact ht
  · exact ht
  · exact fork_directory_stay c new E R hstay i4 j _ ht

theorem fork_space_stay {s : Mem} (h : E s) :
    (forkSpace c parent new s).Sat E (fun s' _ => R s') := by
  refine forUp_rule _ (fun _ => E) _ 0 256 s h ?_
  intro j t _ _ ht
  dsimp only
  split_ifs
  · exact ht
  · exact fork_pointers_stay c new E R hstay j _ ht

include hpage

theorem fork_table_rule {i4 i3 i2 pt : ℕ} (h4 : i4 < 256) (h3 : i3 < 512) (h2 : i2 < 512)
    {s : Mem} (h : G (i4*2^27+i3*2^18+i2*2^9) s)
    (hw : walk (child s.ram) parent [i4,i3,i2] = some pt) :
    (forkTable c new i4 i3 i2 pt s).Sat
      (fun s' => (G (i4*2^27+i3*2^18+(i2+1)*2^9) s' ∧ Keeps parent s s') ∨ E s')
      (fun s' _ => R s') := by
  have hloop := forUp_rule (fun i1 => forkPage c new (virtOf i4 i3 i2 i1) pt i1)
    (fun i1 s' => (G (i4*2^27+i3*2^18+i2*2^9+i1) s' ∧ Keeps parent s s') ∨ E s')
    (fun s' _ => R s') 0 512 s (Or.inl ⟨by simpa using h,keeps_refl parent s⟩) (by
      intro i1 t _ hi ht
      rcases ht with ⟨hG,hk⟩ | hE
      · have hpath := path_of_indices i4 i3 i2 i1 h4 h3 h2 (by omega)
        have hleaf : leafTable t.ram parent (i4*2^27+i3*2^18+i2*2^9+i1) = some pt := by
          rw [leafTable, hpath]
          exact hk _ _ (hpath ▸ path_user _ (by unfold userPages; omega)) hw
        have := hpage _ t pt (by unfold userPages; omega) hG hleaf
        rw [show (i4*2^27+i3*2^18+i2*2^9+i1) % 512 = i1 by omega,
          show 4096*(i4*2^27+i3*2^18+i2*2^9+i1) = virtOf i4 i3 i2 i1 by
            unfold virtOf; omega] at this
        refine this.mono ?_ (fun _ _ h => h)
        rintro u (⟨hu,hk'⟩ | hu)
        · rw [Nat.add_assoc _ i1 1] at hu
          exact Or.inl ⟨hu,keeps_trans hk hk'⟩
        · exact Or.inr hu
      · exact (hstay t _ _ _ hE).mono (fun _ h => Or.inr h) (fun _ _ h => h))
  rw [show i4*2^27+i3*2^18+(i2+1)*2^9 = i4*2^27+i3*2^18+i2*2^9+(0+512) by omega]
  exact hloop

include hspace hskip

theorem fork_directory_rule {i4 i3 pd : ℕ} (h4 : i4 < 256) (h3 : i3 < 512)
    {s : Mem} (h : G (i4*2^27+i3*2^18) s) (hw : walk (child s.ram) parent [i4,i3] = some pd) :
    (forkDirectory c new i4 i3 pd s).Sat
      (fun s' => (G (i4*2^27+(i3+1)*2^18) s' ∧ Keeps parent s s') ∨ E s')
      (fun s' _ => R s') := by
  have hloop := forUp_rule (fun i2 s =>
      let e := entry s.ram pd i2
      if !has e ptePresent then Flow.next s else
      if has e pteHuge then Flow.next s else
      forkTable c new i4 i3 i2 (pteFrame e) s)
    (fun i2 s' => (G (i4*2^27+i3*2^18+i2*2^9) s' ∧ Keeps parent s s') ∨ E s')
    (fun s' _ => R s') 0 512 s (Or.inl ⟨by simpa using h,keeps_refl parent s⟩) (by
      intro i2 t _ hi ht
      simp only [has_present, has_huge]
      rcases ht with ⟨hG,hk⟩ | hE
      · have hpath := path_of_indices i4 i3 i2 0 h4 h3 (by omega) (by omega)
        have hu : UserPath [i4,i3,i2] := hpath ▸ path_user _ (by unfold userPages; omega)
        rcases fork_entry_cases parent G hspace hskip t _
            (i4*2^27+i3*2^18+(i2+1)*2^9) i2 pd [i4,i3] hG (by simp) hu
            (hk _ _ (user_path_closed _ _ ⟨[i2],rfl⟩ hu) hw) (by omega)
            (by unfold userPages; omega) (by
              intro u h1 h2
              refine ⟨[],?_⟩
              rw [show u = i4*2^27+i3*2^18+i2*2^9+(u-(i4*2^27+i3*2^18+i2*2^9)) by omega]
              exact path_of_indices i4 i3 i2 _ h4 h3 (by omega) (by omega)) with ⟨hb,hG'⟩ | ⟨hb,hb7,hw'⟩
        · rw [hb]
          exact Or.inl ⟨hG',hk⟩
        · rw [hb, hb7]
          refine (fork_table_rule c parent new G E R hpage hstay h4 h3
            (by omega) hG hw').mono ?_ (fun _ _ h => h)
          rintro u (⟨hu,hk'⟩ | hu)
          · exact Or.inl ⟨hu,keeps_trans hk hk'⟩
          · exact Or.inr hu
      · split_ifs
        · exact Or.inr hE
        · exact Or.inr hE
        · exact (fork_table_stay c new E R hstay i4 i3 i2 _ hE).mono (fun _ h => Or.inr h)
            (fun _ _ h => h))
  rw [show i4*2^27+(i3+1)*2^18 = i4*2^27+i3*2^18+(0+512)*2^9 by omega]
  exact hloop

theorem fork_pointers_rule {i4 pdpt : ℕ} (h4 : i4 < 256) {s : Mem} (h : G (i4*2^27) s)
    (hw : walk (child s.ram) parent [i4] = some pdpt) :
    (forkPointers c new i4 pdpt s).Sat
      (fun s' => (G ((i4+1)*2^27) s' ∧ Keeps parent s s') ∨ E s') (fun s' _ => R s') := by
  have hloop := forUp_rule (fun i3 s =>
      let e := entry s.ram pdpt i3
      if !has e ptePresent then Flow.next s else
      if has e pteHuge then Flow.next s else
      forkDirectory c new i4 i3 (pteFrame e) s)
    (fun i3 s' => (G (i4*2^27+i3*2^18) s' ∧ Keeps parent s s') ∨ E s')
    (fun s' _ => R s') 0 512 s (Or.inl ⟨by simpa using h,keeps_refl parent s⟩) (by
      intro i3 t _ hi ht
      simp only [has_present, has_huge]
      rcases ht with ⟨hG,hk⟩ | hE
      · have hpath := path_of_indices i4 i3 0 0 h4 (by omega) (by omega) (by omega)
        have hu3 : UserPath [i4,i3,0] := hpath ▸ path_user _ (by unfold userPages; omega)
        have hu : UserPath [i4,i3] := user_path_closed _ _ ⟨[0],rfl⟩ hu3
        rcases fork_entry_cases parent G hspace hskip t _
            (i4*2^27+(i3+1)*2^18) i3 pdpt [i4] hG (by simp) hu
            (hk _ _ (user_path_closed _ _ ⟨[i3],rfl⟩ hu) hw) (by omega)
            (by unfold userPages; omega) (by
              intro u h1 h2
              refine ⟨[u/2^9 % 512],?_⟩
              simp only [path, List.cons_append, List.nil_append, List.cons.injEq, and_true]
              omega) with ⟨hb,hG'⟩ | ⟨hb,hb7,hw'⟩
        · rw [hb]
          exact Or.inl ⟨hG',hk⟩
        · rw [hb, hb7]
          refine (fork_directory_rule c parent new G E R hspace hskip hpage hstay h4
            (by omega) hG hw').mono ?_ (fun _ _ h => h)
          rintro u (⟨hu,hk'⟩ | hu)
          · exact Or.inl ⟨hu,keeps_trans hk hk'⟩
          · exact Or.inr hu
      · split_ifs
        · exact Or.inr hE
        · exact Or.inr hE
        · exact (fork_directory_stay c new E R hstay i4 i3 _ hE).mono (fun _ h => Or.inr h)
            (fun _ _ h => h))
  rw [show (i4+1)*2^27 = i4*2^27+(0+512)*2^18 by omega]
  exact hloop

theorem fork_rule {s : Mem} (h : G 0 s) :
    (forkSpace c parent new s).Sat (fun s' => G userPages s' ∨ E s') (fun s' _ => R s') := by
  have hloop := forUp_rule (fun i4 s =>
      let e := entry s.ram parent i4
      if !has e ptePresent then Flow.next s else
      forkPointers c new i4 (pteFrame e) s)
    (fun i4 s' => G (i4*2^27) s' ∨ E s') (fun s' _ => R s') 0 256 s
    (Or.inl (by simpa using h)) (by
      intro i4 t _ hi ht
      simp only [has_present]
      rcases ht with hG | hE
      · have hpath := path_of_indices i4 0 0 0 (by omega) (by omega) (by omega) (by omega)
        have hu3 : UserPath [i4,0,0] := hpath ▸ path_user _ (by unfold userPages; omega)
        cases hb : bit (entry t.ram parent i4) 0 with
        | false =>
          left
          apply hskip _ _ t hG (by omega) (by unfold userPages; omega)
          intro u h1 h2
          apply absent_below t.ram parent u [i4] [u/2^18 % 512,u/2^9 % 512]
          · simp only [path, List.cons_append, List.nil_append, List.cons.injEq, and_true]
            omega
          · simp [walk, child, hb]
        | true =>
          refine (fork_pointers_rule c parent new G E R hspace hskip hpage hstay (by omega)
            hG (by simp [walk, child, hb])).mono ?_ (fun _ _ h => h)
          rintro u (⟨hu,-⟩ | hu)
          · exact Or.inl hu
          · exact Or.inr hu
      · split_ifs
        · exact Or.inr hE
        · exact (fork_pointers_stay c new E R hstay i4 _ hE).mono (fun _ h => Or.inr h)
            (fun _ _ h => h))
  exact hloop

end rule

end HobbyOS.ForkSpace
