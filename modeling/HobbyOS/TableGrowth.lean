import HobbyOS.AddressSpace

/-!
# Growing the tables

Steps which allocate and attach tables, or touch flag bits, without moving
any page. `Grow` lists what such a step keeps: allocated frames and their
counts, slots of the swap area in use, every walk that succeeded, the bytes
of data frames, every view.
-/

namespace HobbyOS.TableGrowth
open RadixTree PageEntry PhysMem UserVm AddressSpace Function

structure Grow (s s' : Mem) : Prop where
  total : s'.totalPages = s.totalPages
  limit : s'.kernelPageLimit = s.kernelPageLimit
  spaces : s'.spaces = s.spaces
  rmap : s'.rmapTable = s.rmapTable
  log : s'.evictions = s.evictions
  swap : ∀ i, s.swapSlots i = true → s'.swapSlots i = true ∧ s'.swapArea i = s.swapArea i
  kept : ∀ g, s.bitmap g = true → s'.bitmap g = true ∧ s'.pageRefcount g = s.pageRefcount g
  walks : ∀ a ∈ s.spaces, ∀ p t, UserPath p →
    walk (child s.ram) a p = some t → walk (child s'.ram) a p = some t
  tables : ∀ t, Table s' t → Table s t ∨ s.bitmap t = false
  data : ∀ g, s.bitmap g = true → ¬Table s g → s'.ram g = s.ram g
  views : ∀ a ∈ s.spaces, ∀ v < userPages, view s'.ram a v = view s.ram a v

/-- Tables are added and never moved; frames in use keep their bytes. -/
structure Extend (s s' : Mem) : Prop where
  total : s'.totalPages = s.totalPages
  limit : s'.kernelPageLimit = s.kernelPageLimit
  spaces : s'.spaces = s.spaces
  log : s'.evictions = s.evictions
  kept : ∀ g, s.bitmap g = true → s'.bitmap g = true
  walks : ∀ a ∈ s.spaces, ∀ p t, UserPath p →
    walk (child s.ram) a p = some t → walk (child s'.ram) a p = some t
  tables : ∀ t, Table s' t → Table s t ∨ s.bitmap t = false
  data : ∀ g, s.bitmap g = true → ¬Table s g → s'.ram g = s.ram g

theorem extend_of_grow {s s' : Mem} (h : Grow s s') : Extend s s' :=
  ⟨h.total,h.limit,h.spaces,h.log,fun g hg => (h.kept g hg).1,h.walks,h.tables,h.data⟩

theorem extend_not_table {s s' : Mem} (h : Extend s s') {g : ℕ} (hg : s.bitmap g = true)
    (hn : ¬Table s g) : ¬Table s' g := by
  intro ht
  rcases h.tables g ht with h1 | h1
  · exact hn h1
  · rw [hg] at h1
    cases h1

theorem extend_trans {s s' s'' : Mem} (h : Extend s s') (h' : Extend s' s'') : Extend s s'' where
  total := h'.total.trans h.total
  limit := h'.limit.trans h.limit
  spaces := h'.spaces.trans h.spaces
  log := h'.log.trans h.log
  kept g hg := h'.kept g (h.kept g hg)
  walks a ha p t hp ht := h'.walks a (h.spaces ▸ ha) p t hp (h.walks a ha p t hp ht)
  tables t ht := by
    rcases h'.tables t ht with h1 | h1
    · exact h.tables t h1
    · right
      by_contra hb
      rw [Bool.not_eq_false] at hb
      rw [h.kept t hb] at h1
      cases h1
  data g hg hn := by
    rw [h'.data g (h.kept g hg) (extend_not_table h hg hn), h.data g hg hn]

theorem grow_refl (s : Mem) : Grow s s :=
  ⟨rfl,rfl,rfl,rfl,rfl,fun _ h => ⟨h,rfl⟩,fun _ h => ⟨h,rfl⟩,fun _ _ _ _ _ h => h,fun _ h => Or.inl h,
    fun _ _ _ => rfl,fun _ _ _ _ => rfl⟩

theorem grow_trans {s s' s'' : Mem} (h : Grow s s') (h' : Grow s' s'') : Grow s s'' where
  __ := extend_trans (extend_of_grow h) (extend_of_grow h')
  rmap := h'.rmap.trans h.rmap
  swap i hi := ⟨(h'.swap i (h.swap i hi).1).1,
    (h'.swap i (h.swap i hi).1).2.trans (h.swap i hi).2⟩
  kept g hg := ⟨(h'.kept g (h.kept g hg).1).1,
    (h'.kept g (h.kept g hg).1).2.trans (h.kept g hg).2⟩
  views a ha v hv := (h'.views a (h.spaces ▸ ha) v hv).trans (h.views a ha v hv)

theorem struct_of_grow (s s' : Mem) (hS : Struct s) (h : Grow s s')
    (hF : Forest (child s'.ram) (· ∈ s'.spaces) UserPath)
    (hplain : ∀ a ∈ s'.spaces, ∀ p i t, p ≠ [] → UserPath (p++[i]) →
      walk (child s'.ram) a p = some t →
      bit (entry s'.ram t i) 0 = true → bit (entry s'.ram t i) 7 = false)
    (htab : ∀ t, Table s' t → t < s'.totalPages ∧ s'.bitmap t = true) : Struct s' where
  pages := by rw [h.total]; exact hS.pages
  zero := (h.kept 0 hS.zero).1
  kernel := by rw [h.limit]; exact hS.kernel
  nodup := by rw [h.spaces]; exact hS.nodup
  forest := hF
  plain := hplain
  tables := htab
  frames a ha v hv hp := by
    rw [h.spaces] at ha
    rw [h.views a ha v hv] at hp ⊢
    obtain ⟨h1,h2,h3⟩ := hS.frames a ha v hv hp
    exact ⟨by rw [h.total]; exact h1,(h.kept _ h2).1,extend_not_table (extend_of_grow h) h2 h3⟩
  place a ha b hb v hv w hw hp hq := by
    rw [h.spaces] at ha hb
    rw [h.views a ha v hv] at hp ⊢
    rw [h.views b hb w hw] at hq ⊢
    exact hS.place a ha b hb v hv w hw hp hq
  low f := by rw [h.rmap]; exact hS.low f

theorem free_not_table (s : Mem) {Root : ℕ → Prop} (hS : Trees s Root) (n : ℕ) (hn : s.bitmap n = false) :
    ¬Node (child s.ram) Root UserPath n := by
  intro ht
  rw [(hS.tables n ht).2] at hn
  cases hn

theorem take_page_cases {s : Mem} (h0 : s.bitmap 0 = true) (hp : 0 < s.totalPages) :
    takePage s = (s,0) ∨ ∃ n, n ≠ 0 ∧ n < s.totalPages ∧ s.bitmap n = false ∧
      takePage s = ({ s with
        bitmap := update s.bitmap n true
        freePages := dec64 s.freePages
        pageRefcount := update s.pageRefcount n 1
        allocHint := n+1 },n) := by
  unfold takePage
  cases hf : (List.range s.totalPages).find?
      (fun j => !s.bitmap ((s.allocHint+j) % s.totalPages)) with
  | none => exact Or.inl rfl
  | some j =>
    right
    have hb := List.find?_some hf
    simp only [Bool.not_eq_true'] at hb
    refine ⟨(s.allocHint+j) % s.totalPages,?_,Nat.mod_lt _ hp,hb,rfl⟩
    intro hz
    rw [hz, h0] at hb
    cases hb

def taken (s : Mem) (n : ℕ) : Mem := { s with
  bitmap := update s.bitmap n true
  freePages := dec64 s.freePages
  pageRefcount := update s.pageRefcount n 1
  allocHint := n+1 }

/-- The scan meets every page, so it meets a free one. -/
theorem take_page_free {s : Mem} (h0 : s.bitmap 0 = true) {q : ℕ} (hq : q < s.totalPages)
    (hb : s.bitmap q = false) : ∃ n, n ≠ 0 ∧ n < s.totalPages ∧ s.bitmap n = false ∧
      takePage s = (taken s n,n) := by
  rcases take_page_cases h0 (by omega) with heq | hex
  · exfalso
    unfold takePage at heq
    cases hf : (List.range s.totalPages).find?
        (fun j => !s.bitmap ((s.allocHint+j) % s.totalPages)) with
    | some j =>
      rw [hf] at heq
      have hz := congrArg Prod.snd heq
      have hbit := List.find?_some hf
      dsimp only at hz
      rw [hz, h0] at hbit
      cases hbit
    | none =>
      rw [List.find?_eq_none] at hf
      have hj := hf ((q+s.totalPages-s.allocHint % s.totalPages) % s.totalPages)
        (List.mem_range.mpr (Nat.mod_lt _ (by omega)))
      have hmod : (s.allocHint+(q+s.totalPages-s.allocHint % s.totalPages) % s.totalPages) %
          s.totalPages = q := by
        have hlt := Nat.mod_lt s.allocHint (show s.totalPages > 0 by omega)
        rw [Nat.add_mod_mod, ← Nat.mod_add_mod,
          show s.allocHint % s.totalPages+(q+s.totalPages-s.allocHint % s.totalPages) =
            q+s.totalPages by omega, Nat.add_mod_right, Nat.mod_eq_of_lt hq]
      rw [hmod] at hj
      simp [hb] at hj
  · exact hex

theorem grow_taken (s : Mem) (hS : Struct s) (n : ℕ) (hn : s.bitmap n = false)
    (hlt : n < s.totalPages) (r : Ram) (hr : ∀ f, f ≠ n → r f = s.ram f) :
    Grow s { taken s n with ram := r } ∧ Struct { taken s n with ram := r } := by
  have hnt := free_not_table s hS.trees n hn
  have hchild : ∀ u j, Table s u → child r u j = child s.ram u j := by
    intro u j hu
    rw [child, child, entry_congr r s.ram u j (hr u (by rintro rfl; exact hnt hu))]
  have hw : ∀ b q, b ∈ s.spaces → UserPath q → walk (child r) b q = walk (child s.ram) b q :=
    fun b q hb hq => walk_same (child s.ram) (child r) user_path_closed hchild b q hb hq
  have htab : ∀ t, Table { taken s n with ram := r } t ↔ Table s t := by
    intro t
    constructor
    · rintro ⟨a,p,ha,hp,ht⟩
      exact ⟨a,p,ha,hp,by rwa [← hw a p ha hp]⟩
    · rintro ⟨a,p,ha,hp,ht⟩
      exact ⟨a,p,ha,hp,by rw [← ht]; exact hw a p ha hp⟩
  have hkept : ∀ g, s.bitmap g = true → (taken s n).bitmap g = true ∧
      (taken s n).pageRefcount g = s.pageRefcount g := by
    intro g hg
    have hgn : g ≠ n := by rintro rfl; rw [hg] at hn; cases hn
    simp [taken, update_of_ne hgn, hg]
  have hleaf : ∀ a ∈ s.spaces, ∀ v < userPages, leaf r a v = leaf s.ram a v := by
    intro a ha v hv
    rw [leaf, leaf, leafTable, leafTable, hw a (path v) ha (path_user v hv)]
    cases ht : walk (child s.ram) a (path v) with
    | none => rfl
    | some t =>
      have htt := leaf_table_table s ha hv ht
      exact entry_congr r s.ram t _ (hr t (by rintro rfl; exact hnt htt))
  have hG : Grow s { taken s n with ram := r } := by
    refine ⟨rfl,rfl,rfl,rfl,rfl,fun _ h => ⟨h,rfl⟩,hkept,?_,fun t ht => Or.inl ((htab t).mp ht),?_,?_⟩
    · intro a ha p t hp ht
      rw [← ht]
      exact hw a p ha hp
    · intro g hg _
      exact hr g (by rintro rfl; rw [hg] at hn; cases hn)
    · intro a ha v hv
      rw [view, view, hleaf a ha v hv]
  refine ⟨hG,struct_of_grow s _ hS hG ?_ ?_ ?_⟩
  · exact forest_same (child s.ram) (child r) hS.forest user_path_closed hchild
  · intro a ha p i t hpn hp ht h0
    have ht' : walk (child s.ram) a p = some t := by
      rw [← hw a p ha (user_path_closed _ _ (List.prefix_append p [i]) hp)]
      exact ht
    have htt : Table s t := ⟨a,p,ha,user_path_closed _ _ (List.prefix_append p [i]) hp,ht'⟩
    have he := entry_congr r s.ram t i (hr t (by rintro rfl; exact hnt htt))
    simp only [he] at h0 ⊢
    exact hS.plain a ha p i t hpn hp ht' h0
  · intro t ht
    have := hS.tables t ((htab t).mp ht)
    exact ⟨this.1,(hkept t this.2).1⟩

section touch
variable (s : Mem) {Root : ℕ → Prop} (hS : Trees s Root) (a i t : ℕ) (p : List ℕ) (ha : Root a)
  (hp : UserPath (p++[i])) (ht : walk (child s.ram) a p = some t) (e : Pte)
  (h0 : bit e 0 = bit (entry s.ram t i) 0) (hf : pteFrame e = pteFrame (entry s.ram t i))

include h0 hf in
theorem touch_child : child (setEntry s.ram t i e) = child s.ram := by
  funext u j
  by_cases huj : u = t ∧ j = i
  · obtain ⟨rfl,rfl⟩ := huj
    rw [child, child, entry_set_same, h0, hf]
  · rw [child, child, entry_set_other _ _ _ _ _ _ (by tauto)]

include hS ha hp ht h0 hf

theorem touch_leaf (b w : ℕ) (hb : Root b) (hw : w < userPages) :
    leaf (setEntry s.ram t i e) b w = leaf s.ram b w := by
  rw [leaf, leaf, leafTable, leafTable, touch_child s i t e h0 hf]
  cases hu : walk (child s.ram) b (path w) with
  | none => rfl
  | some u =>
    apply entry_set_other
    left
    rintro rfl
    exact inner_not_leaf s hS ha hb hw hp ht hu

theorem trees_touch (h7 : p ≠ [] → bit e 0 = true → bit e 7 = false) :
    Trees { s with ram := setEntry s.ram t i e } Root := by
  have hpp := user_path_closed _ _ (List.prefix_append p [i]) hp
  have hchild := touch_child s i t e h0 hf
  refine ⟨hS.pages,?_,?_,?_⟩
  · simp only [hchild]
    exact hS.forest
  · intro b hb q j u hqn hq hu hbit
    simp only [hchild] at hu
    by_cases huj : u = t ∧ j = i
    · obtain ⟨rfl,rfl⟩ := huj
      simp only [entry_set_same] at hbit ⊢
      have hqq := user_path_closed _ _ (List.prefix_append q [j]) hq
      obtain ⟨-,rfl⟩ := hS.forest a b p q u ha hb hpp hqq ht hu
      exact h7 hqn hbit
    · simp only [entry_set_other s.ram t i e u j (by tauto)] at hbit ⊢
      exact hS.plain b hb q j u hqn hq hu hbit
  · simp only [hchild]
    exact hS.tables

end touch

theorem grow_touch {s : Mem} (hS : Struct s) {a i t : ℕ} {p : List ℕ} (ha : a ∈ s.spaces)
    (hp : UserPath (p++[i])) (ht : walk (child s.ram) a p = some t) {e : Pte}
    (h0 : bit e 0 = bit (entry s.ram t i) 0) (hf : pteFrame e = pteFrame (entry s.ram t i))
    (h7 : p ≠ [] → bit e 0 = true → bit e 7 = false) :
    Grow s { s with ram := setEntry s.ram t i e } ∧
      Struct { s with ram := setEntry s.ram t i e } := by
  have hpp := user_path_closed _ _ (List.prefix_append p [i]) hp
  have htt : Table s t := ⟨a,p,ha,hpp,ht⟩
  have hchild := touch_child s i t e h0 hf
  have htree := trees_touch s hS.trees a i t p ha hp ht e h0 hf h7
  have htab : Table { s with ram := setEntry s.ram t i e } = Table s := by
    unfold Table
    rw [hchild]
  have hG : Grow s { s with ram := setEntry s.ram t i e } := by
    refine ⟨rfl,rfl,rfl,rfl,rfl,fun _ h => ⟨h,rfl⟩,fun g hg => ⟨hg,rfl⟩,?_,?_,?_,?_⟩
    · intro b hb q u hq hu
      simpa only [hchild] using hu
    · intro u hu
      rw [htab] at hu
      exact Or.inl hu
    · intro g hg hgt
      exact set_entry_frame _ _ _ _ _ (by rintro rfl; exact hgt htt)
    · intro b hb w hw
      rw [view, view, touch_leaf s hS.trees a i t p ha hp ht e h0 hf b w hb hw]
  exact ⟨hG,struct_of_grow s _ hS hG htree.forest htree.plain htree.tables⟩

theorem grow_mark {s : Mem} (hS : Struct s) {a v t : ℕ} (ha : a ∈ s.spaces) (hv : v < userPages)
    (ht : leafTable s.ram a v = some t) {e : Pte}
    (he : e &&& ~~~pteAccessed = view s.ram a v) :
    Grow s { s with ram := setEntry s.ram t (v % 512) e } ∧
      Struct { s with ram := setEntry s.ram t (v % 512) e } := by
  have htab := set_leaf_tables s hS ha hv ht e
  have h0 : bit e 0 = bit (view s.ram a v) 0 := by
    rw [← he, clean_bit e (by omega) (by omega)]
  have hf : pteFrame e = pteFrame (view s.ram a v) := by
    rw [← he]
    exact frame_congr _ _ (fun i h1 h2 => (clean_bit e (by omega) (by omega)).symm)
  constructor
  · refine ⟨rfl,rfl,rfl,rfl,rfl,fun _ h => ⟨h,rfl⟩,fun g hg => ⟨hg,rfl⟩,?_,fun u hu => Or.inl ((htab u).mp hu),?_,?_⟩
    · intro b hb q u hq hu
      rw [← hu]
      exact set_leaf_walk s hS.trees a v t ha hv ht e b q hb hq
    · intro g hg hgt
      have hgt' : g ≠ t := by
        rintro rfl
        exact hgt (leaf_table_table s ha hv ht)
      exact set_entry_frame _ _ _ _ _ hgt'
    · intro b hb w hw
      rw [set_leaf_view s hS a v t ha hv ht e b w hb hw]
      split_ifs with h
      · rw [h.1, h.2, he]
      · rfl
  · apply struct_set_leaf s hS a v t ha hv ht e
    · rw [h0, hf]
      exact hS.frames a ha v hv
    · rw [h0, hf]
      intro hp b hb w hw hb0 hfr
      exact hS.place b hb a ha w hw v hv hb0 hp hfr

def tableEntry (n : ℕ) : Pte :=
  BitVec.ofNat 64 (pageSize*n) ||| ptePresent ||| pteWritable ||| pteUser

theorem table_entry_frame (n : ℕ) (hn : n < 2^40) : pteFrame (tableEntry n) = n := by
  apply frame_of_bits n hn
  intro i hi
  simp [tableEntry, address_bit, show i+12 < 64 by omega]

theorem table_entry_present (n : ℕ) : bit (tableEntry n) 0 = true := by
  simp [tableEntry]

theorem table_entry_plain (n : ℕ) : bit (tableEntry n) 7 = false := by
  simp [tableEntry, address_bit]

section attach
variable (s : Mem) {Root : ℕ → Prop} (hS : Trees s Root) (a i t n : ℕ) (p : List ℕ) (ha : Root a)
  (hp : UserPath (p++[i])) (ht : walk (child s.ram) a p = some t)
  (hti : bit (entry s.ram t i) 0 = false) (hn : s.bitmap n = false) (hlt : n < s.totalPages)

def attached : Mem := { taken s n with ram := setEntry (zeroPage s.ram n) t i (tableEntry n) }

theorem attach_entry {u j : ℕ} (hu : u ≠ n) (h : u ≠ t ∨ j ≠ i) :
    entry (attached s i t n).ram u j = entry s.ram u j := by
  rw [attached, entry_set_other _ _ _ _ _ _ h]
  exact entry_congr _ _ u j (by rw [zeroPage, update_of_ne hu])

include hS ha hp ht hn in
theorem attach_not_new : t ≠ n := by
  rintro rfl
  exact free_not_table s hS t hn ⟨a,p,ha,user_path_closed _ _ (List.prefix_append p [i]) hp,ht⟩

include hS ha hp ht hti hn hlt

theorem attach_walk (b : ℕ) (q : List ℕ) (hb : Root b) (hq : UserPath q) :
    walk (child (attached s i t n).ram) b q =
      if b = a ∧ q = p++[i] then some n else walk (child s.ram) b q := by
  have hpp := user_path_closed _ _ (List.prefix_append p [i]) hp
  have hnt := free_not_table s hS n hn
  have hne := attach_not_new s hS a i t n p ha hp ht hn
  apply walk_grow (child s.ram) _ a t n p i hS.forest user_path_closed ha hpp ht
  · simp [child, hti]
  · rw [child, attached, entry_set_same, table_entry_present,
      table_entry_frame n (by have := hS.pages; omega)]
    rfl
  · intro j _
    rw [child, attached, entry_set_other _ _ _ _ _ _ (Or.inl hne.symm), entry_zero_page]
    simp
  · intro u j hu huj
    rw [child, child, attach_entry s i t n
      (by rintro rfl; exact hnt hu) huj]
  · exact hb
  · exact hq

theorem attach_leaf (b w : ℕ) (hb : Root b) (hw : w < userPages) :
    leaf (attached s i t n).ram b w = leaf s.ram b w := by
  have hnt := free_not_table s hS n hn
  have hne := attach_not_new s hS a i t n p ha hp ht hn
  rw [leaf, leaf, leafTable, leafTable,
    attach_walk s hS a i t n p ha hp ht hti hn hlt b (path w) hb (path_user w hw)]
  split_ifs with h
  · have hold : walk (child s.ram) b (path w) = none := by
      rw [h.1, h.2, walk_snoc, ht]
      simp [child, hti]
    rw [hold]
    change entry (attached s i t n).ram n (w % 512) = 0#64
    rw [attached, entry_set_other _ _ _ _ _ _ (Or.inl hne.symm), entry_zero_page]
  · cases hu : walk (child s.ram) b (path w) with
    | none => rfl
    | some u =>
      apply attach_entry s i t n
      · rintro rfl
        exact hnt ⟨b,path w,hb,path_user w hw,hu⟩
      · left
        rintro rfl
        exact inner_not_leaf s hS ha hb hw hp ht hu

theorem attach_tables (u : ℕ) (hu : Node (child (attached s i t n).ram) Root UserPath u) :
    u = n ∨ Node (child s.ram) Root UserPath u := by
  obtain ⟨b,q,hb,hq,hu⟩ := hu
  rw [attach_walk s hS a i t n p ha hp ht hti hn hlt b q hb hq] at hu
  split_ifs at hu with h
  · cases hu
    exact Or.inl rfl
  · exact Or.inr ⟨b,q,hb,hq,hu⟩

theorem trees_attach : Trees (attached s i t n) Root := by
  have hnt := free_not_table s hS n hn
  have hne := attach_not_new s hS a i t n p ha hp ht hn
  have hw := attach_walk s hS a i t n p ha hp ht hti hn hlt
  refine ⟨hS.pages,?_,?_,?_⟩
  · intro b b' q q' u hb hb' hq hq' hu hu'
    rw [hw b q hb hq] at hu
    rw [hw b' q' hb' hq'] at hu'
    split_ifs at hu hu' with h1 h2 h2
    · exact ⟨h1.1.trans h2.1.symm,h1.2.trans h2.2.symm⟩
    · cases hu
      exact absurd ⟨b',q',hb',hq',hu'⟩ hnt
    · cases hu'
      exact absurd ⟨b,q,hb,hq,hu⟩ hnt
    · exact hS.forest b b' q q' u hb hb' hq hq' hu hu'
  · intro b hb q j u hqn hq hu hbit
    have hqq := user_path_closed _ _ (List.prefix_append q [j]) hq
    rw [hw b q hb hqq] at hu
    split_ifs at hu with h
    · cases hu
      rw [attached, entry_set_other _ _ _ _ _ _ (Or.inl hne.symm), entry_zero_page] at hbit
      simp at hbit
    · by_cases huj : u = t ∧ j = i
      · obtain ⟨rfl,rfl⟩ := huj
        rw [attached, entry_set_same]
        exact table_entry_plain n
      · have hun : u ≠ n := by rintro rfl; exact hnt ⟨b,q,hb,hqq,hu⟩
        have he := attach_entry s i t n hun (by tauto)
        rw [he] at hbit ⊢
        exact hS.plain b hb q j u hqn hq hu hbit
  · intro u hu
    rcases attach_tables s hS a i t n p ha hp ht hti hn hlt u hu with rfl | h
    · exact ⟨hlt,by simp [attached, taken]⟩
    · obtain ⟨h1,h2⟩ := hS.tables u h
      refine ⟨h1,?_⟩
      have hun : u ≠ n := by rintro rfl; exact hnt h
      simp [attached, taken, update_of_ne hun, h2]

end attach

theorem grow_attach {s : Mem} (hS : Struct s) {a i t n : ℕ} {p : List ℕ} (ha : a ∈ s.spaces)
    (hp : UserPath (p++[i])) (ht : walk (child s.ram) a p = some t)
    (hti : bit (entry s.ram t i) 0 = false) (hn : s.bitmap n = false) (hlt : n < s.totalPages) :
    Grow s (attached s i t n) ∧ Struct (attached s i t n) ∧
      walk (child (attached s i t n).ram) a (p++[i]) = some n := by
  have hpp := user_path_closed _ _ (List.prefix_append p [i]) hp
  have htt : Table s t := ⟨a,p,ha,hpp,ht⟩
  have hw := attach_walk s hS.trees a i t n p ha hp ht hti hn hlt
  have htree := trees_attach s hS.trees a i t n p ha hp ht hti hn hlt
  have hG : Grow s (attached s i t n) := by
    refine ⟨rfl,rfl,rfl,rfl,rfl,fun _ h => ⟨h,rfl⟩,?_,?_,?_,?_,?_⟩
    · intro g hg
      have hgn : g ≠ n := by rintro rfl; rw [hg] at hn; cases hn
      simp [attached, taken, update_of_ne hgn, hg]
    · intro b hb q u hq hu
      rw [hw b q hb hq]
      split_ifs with h
      · rw [h.1, h.2, walk_snoc, ht] at hu
        simp [child, hti] at hu
      · exact hu
    · intro u hu
      rcases attach_tables s hS.trees a i t n p ha hp ht hti hn hlt u hu with rfl | h
      · exact Or.inr hn
      · exact Or.inl h
    · intro g hg hgt
      have hgn : g ≠ n := by rintro rfl; rw [hg] at hn; cases hn
      have hgt' : g ≠ t := by rintro rfl; exact hgt htt
      change setEntry (zeroPage s.ram n) t i (tableEntry n) g = s.ram g
      rw [set_entry_frame _ _ _ _ _ hgt', zeroPage, update_of_ne hgn]
    · intro b hb w hw'
      rw [view, view, attach_leaf s hS.trees a i t n p ha hp ht hti hn hlt b w hb hw']
  refine ⟨hG,struct_of_grow s _ hS hG htree.forest htree.plain htree.tables,?_⟩
  rw [hw a (p++[i]) ha hp, if_pos ⟨rfl,rfl⟩]

end HobbyOS.TableGrowth
