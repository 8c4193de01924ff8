import HobbyOS.RadixTree
import HobbyOS.UserVm

/-!
# What an address space maps

The tables below a PML4 form a forest over all live spaces. A page number
has one leaf entry, zero where no table exists. The view of a page is its
leaf entry without the accessed bit, which the processor and the clock
hand change behind the kernel's back.
-/

namespace HobbyOS.AddressSpace
open RadixTree PageEntry PhysMem UserVm

variable (s : Mem) (r : Ram)

def child (t i : ℕ) : Option ℕ :=
  if bit (entry r t i) 0 then some (pteFrame (entry r t i)) else none

def UserPath (p : List ℕ) : Prop := p.length ≤ 3 ∧ (∀ i ∈ p, i < 512) ∧ ∀ i ∈ p.head?, i < 256

theorem user_path_closed : Closed UserPath := by
  rintro p q ⟨r,rfl⟩ ⟨hl,hb,hh⟩
  refine ⟨?_,fun i hi => hb i (List.mem_append_left r hi),?_⟩
  · rw [List.length_append] at hl
    omega
  · intro i hi
    cases p with
    | nil => simp at hi
    | cons j p => exact hh i (by simpa using hi)

def userPages : ℕ := 2^35

def path (v : ℕ) : List ℕ := [v/2^27 % 512,v/2^18 % 512,v/2^9 % 512]

theorem path_user (v : ℕ) (hv : v < userPages) : UserPath (path v) := by
  unfold userPages at hv
  refine ⟨by simp [path],?_,?_⟩
  · intro i hi
    simp only [path, List.mem_cons, List.not_mem_nil, or_false] at hi
    omega
  · intro i hi
    simp only [path, List.head?_cons, Option.mem_def, Option.some.injEq] at hi
    omega

theorem path_injective {v w : ℕ} (hv : v < userPages) (hw : w < userPages)
    (h : path v = path w) (hi : v % 512 = w % 512) : v = w := by
  unfold userPages at hv hw
  simp only [path, List.cons.injEq] at h
  omega

def leafTable (a v : ℕ) : Option ℕ := walk (child r) a (path v)

def leaf (a v : ℕ) : Pte :=
  match leafTable r a v with
  | none => 0#64
  | some t => entry r t (v % 512)

def view (a v : ℕ) : Pte := leaf r a v &&& ~~~pteAccessed

def Table : ℕ → Prop := Node (child s.ram) (· ∈ s.spaces) UserPath

theorem clean_bit (e : Pte) {i : ℕ} (hi : i ≠ 5) (h64 : i < 64) :
    bit (e &&& ~~~pteAccessed) i = bit e i := by
  simp [hi, h64]

theorem view_bit (a v i : ℕ) (hi : i ≠ 5) (h64 : i < 64) :
    bit (view r a v) i = bit (leaf r a v) i := clean_bit _ hi h64

theorem view_frame (a v : ℕ) : pteFrame (view r a v) = pteFrame (leaf r a v) :=
  frame_congr _ _ (fun i h1 h2 => view_bit r a v i (by omega) (by omega))

theorem leaf_of_table {a v t : ℕ} (h : leafTable r a v = some t) :
    leaf r a v = entry r t (v % 512) := by rw [leaf, h]

theorem leaf_present_table {a v : ℕ} (h : bit (view r a v) 0 = true) :
    ∃ t, leafTable r a v = some t := by
  rw [view_bit _ _ _ _ (by decide) (by decide)] at h
  cases ht : leafTable r a v with
  | none => simp [leaf, ht] at h
  | some t => exact ⟨t,rfl⟩

structure Struct (s : Mem) : Prop where
  pages : 0 < s.totalPages ∧ s.totalPages ≤ 2^40
  zero : s.bitmap 0 = true
  kernel : 0 < s.kernelPageLimit
  nodup : s.spaces.Nodup
  forest : Forest (child s.ram) (· ∈ s.spaces) UserPath
  plain : ∀ a ∈ s.spaces, ∀ p i t, p ≠ [] → UserPath (p++[i]) →
    walk (child s.ram) a p = some t →
    bit (entry s.ram t i) 0 = true → bit (entry s.ram t i) 7 = false
  tables : ∀ t, Table s t → t < s.totalPages ∧ s.bitmap t = true
  frames : ∀ a ∈ s.spaces, ∀ v < userPages, bit (view s.ram a v) 0 = true →
    pteFrame (view s.ram a v) < s.totalPages ∧ s.bitmap (pteFrame (view s.ram a v)) = true ∧
      ¬Table s (pteFrame (view s.ram a v))
  place : ∀ a ∈ s.spaces, ∀ b ∈ s.spaces, ∀ v < userPages, ∀ w < userPages,
    bit (view s.ram a v) 0 = true → bit (view s.ram b w) 0 = true →
    pteFrame (view s.ram a v) = pteFrame (view s.ram b w) → v = w
  low : ∀ f, (s.rmapTable f).virtAddr < 2^47

/-- The tables below the roots are distinct allocated frames, and no inner
entry maps a large page. -/
structure Trees (s : Mem) (Root : ℕ → Prop) : Prop where
  pages : s.totalPages ≤ 2^40
  forest : Forest (child s.ram) Root UserPath
  plain : ∀ a, Root a → ∀ p i t, p ≠ [] → UserPath (p++[i]) → walk (child s.ram) a p = some t →
    bit (entry s.ram t i) 0 = true → bit (entry s.ram t i) 7 = false
  tables : ∀ t, Node (child s.ram) Root UserPath t → t < s.totalPages ∧ s.bitmap t = true

theorem Struct.trees {s : Mem} (hS : Struct s) : Trees s (· ∈ s.spaces) :=
  ⟨hS.pages.2,hS.forest,hS.plain,hS.tables⟩

theorem root_table {a : ℕ} (ha : a ∈ s.spaces) : Table s a :=
  ⟨a,[],ha,⟨by simp,by simp,by simp⟩,rfl⟩

theorem leaf_table_table {a v t : ℕ} (ha : a ∈ s.spaces) (hv : v < userPages)
    (ht : leafTable s.ram a v = some t) : Table s t :=
  ⟨a,path v,ha,path_user v hv,ht⟩

variable {Root : ℕ → Prop}

theorem get_pte (hS : Trees s Root) {a va : ℕ} (ha : Root a) (hva : va < 2^47) :
    userVmGetPte s.ram a va = (leafTable s.ram a (va/4096)).map (fun t => (t,va/4096 % 512)) := by
  have hv : va/4096 < userPages := by unfold userPages; omega
  have hu := path_user (va/4096) hv
  have h4 : pml4Index va = va/4096/2^27 % 512 := by unfold pml4Index; omega
  have h3 : pdptIndex va = va/4096/2^18 % 512 := by unfold pdptIndex; omega
  have h2 : pdIndex va = va/4096/2^9 % 512 := by unfold pdIndex; omega
  have h1 : ptIndex va = va/4096 % 512 := by unfold ptIndex; omega
  simp only [userVmGetPte, leafTable, path, walk, h4, h3, h2, h1]
  unfold path at hu
  generalize va/4096/2^27 % 512 = i4 at *
  generalize va/4096/2^18 % 512 = i3 at *
  generalize va/4096/2^9 % 512 = i2 at *
  cases e4 : bit (entry s.ram a i4) 0 with
  | false => simp [child, e4]
  | true =>
    have w4 : walk (child s.ram) a [i4] = some (pteFrame (entry s.ram a i4)) := by
      simp [walk, child, e4]
    generalize hd : pteFrame (entry s.ram a i4) = t3 at *
    cases e3 : bit (entry s.ram t3 i3) 0 with
    | false => simp [child, e4, hd, e3]
    | true =>
      have n3 := hS.plain a ha [i4] i3 t3 (by simp)
        (user_path_closed _ _ ⟨[i2],rfl⟩ hu) w4 e3
      have w3 : walk (child s.ram) a [i4,i3] = some (pteFrame (entry s.ram t3 i3)) := by
        simp [walk, child, e4, hd, e3]
      generalize hd' : pteFrame (entry s.ram t3 i3) = t2 at *
      cases e2 : bit (entry s.ram t2 i2) 0 with
      | false => simp [child, e4, hd, e3, hd', e2]
      | true =>
        have n2 := hS.plain a ha [i4,i3] i2 t2 (by simp) hu w3 e2
        simp [child, e4, hd, e3, hd', e2, n3, n2]

/-- Only frames that are no tables change. -/
theorem trees_same (hS : Trees s Root) (r : Ram)
    (hr : ∀ t, Node (child s.ram) Root UserPath t → r t = s.ram t) :
    Trees { s with ram := r } Root ∧ (∀ a q, Root a → UserPath q →
      walk (child r) a q = walk (child s.ram) a q) ∧
      ∀ a v, Root a → v < userPages → leaf r a v = leaf s.ram a v := by
  have hc : ∀ u j, Node (child s.ram) Root UserPath u → child r u j = child s.ram u j := by
    intro u j hu
    rw [child, child, entry_congr r s.ram u j (hr u hu)]
  have hw : ∀ a q, Root a → UserPath q → walk (child r) a q = walk (child s.ram) a q :=
    fun a q ha hq => walk_same (child s.ram) (child r) user_path_closed hc a q ha hq
  refine ⟨⟨hS.pages,forest_same (child s.ram) (child r) hS.forest user_path_closed hc,?_,?_⟩,hw,?_⟩
  · intro a ha p i t hne hp ht hb
    have hpp := user_path_closed _ _ (List.prefix_append p [i]) hp
    have ht' := (hw a p ha hpp).symm.trans ht
    have he := entry_congr r s.ram t i (hr t ⟨a,p,ha,hpp,ht'⟩)
    simp only [he] at hb ⊢
    exact hS.plain a ha p i t hne hp ht' hb
  · rintro t ⟨a,q,ha,hq,ht⟩
    exact hS.tables t ⟨a,q,ha,hq,(hw a q ha hq).symm.trans ht⟩
  · intro a v ha hv
    rw [leaf, leaf, leafTable, leafTable, hw a _ ha (path_user v hv)]
    cases ht : walk (child s.ram) a (path v) with
    | none => rfl
    | some t => exact entry_congr r s.ram t _ (hr t ⟨a,_,ha,path_user v hv,ht⟩)

theorem set_leaf_walk (hS : Trees s Root) (a v t : ℕ) (ha : Root a) (hv : v < userPages)
    (ht : leafTable s.ram a v = some t) (e : Pte) (b : ℕ) (q : List ℕ) (hb : Root b) (hq : UserPath q) :
    walk (child (setEntry s.ram t (v % 512) e)) b q = walk (child s.ram) b q := by
  apply walk_off_edge (child s.ram) _ hS.forest user_path_closed ha
    (path_user v hv) ht
  · intro u j _ huj
    rw [child, child, entry_set_other _ _ _ _ _ _ huj]
  · exact hb
  · exact hq
  · rintro ⟨-,hpre⟩
    have := hpre.length_le
    have := hq.1
    simp [path] at *
    omega

theorem set_leaf (hS : Trees s Root) (a v t : ℕ) (ha : Root a) (hv : v < userPages)
    (ht : leafTable s.ram a v = some t) (e : Pte) (b w : ℕ) (hb : Root b) (hw : w < userPages) :
    leaf (setEntry s.ram t (v % 512) e) b w =
      if b = a ∧ w = v then e else leaf s.ram b w := by
  have hwalk := set_leaf_walk s hS a v t ha hv ht e b (path w) hb (path_user w hw)
  rw [leaf, leaf, leafTable, leafTable, hwalk]
  by_cases heq : b = a ∧ w = v
  · obtain ⟨rfl,rfl⟩ := heq
    rw [leafTable] at ht
    rw [ht]
    simp only
    exact entry_set_same _ _ _ _
  · rw [if_neg heq]
    cases hu : walk (child s.ram) b (path w) with
    | none => rfl
    | some u =>
      apply entry_set_other
      by_contra hcon
      push Not at hcon
      obtain ⟨rfl,hi⟩ := hcon
      obtain ⟨hab,hp⟩ := hS.forest b a (path w) (path v) u hb ha (path_user w hw)
        (path_user v hv) hu ht
      exact heq ⟨hab,path_injective hw hv hp hi⟩

theorem set_leaf_tables (hS : Struct s) {a v t : ℕ} (ha : a ∈ s.spaces)
    (hv : v < userPages) (ht : leafTable s.ram a v = some t) (e : Pte) (u : ℕ) :
    Table { s with ram := setEntry s.ram t (v % 512) e } u ↔ Table s u := by
  have hw := set_leaf_walk s hS.trees a v t ha hv ht e
  constructor
  · rintro ⟨b,q,hb,hq,hu⟩
    exact ⟨b,q,hb,hq,by rw [← hw b q hb hq]; exact hu⟩
  · rintro ⟨b,q,hb,hq,hu⟩
    exact ⟨b,q,hb,hq,by rw [← hu]; exact hw b q hb hq⟩

theorem inner_not_leaf (hS : Trees s Root) {a b w i t : ℕ} {p : List ℕ} (ha : Root a) (hb : Root b)
    (hw : w < userPages) (hp : UserPath (p++[i])) (ht : walk (child s.ram) a p = some t) : leafTable s.ram b w ≠ some t := by
  intro h
  have hpp := user_path_closed _ _ (List.prefix_append p [i]) hp
  have he := (hS.forest a b p (path w) t ha hb hpp (path_user w hw) ht h).2
  have hl := hp.1
  rw [he] at hl
  simp [path] at hl

theorem set_leaf_view (hS : Struct s) (a v t : ℕ) (ha : a ∈ s.spaces)
    (hv : v < userPages) (ht : leafTable s.ram a v = some t) (e : Pte)
    (b w : ℕ) (hb : b ∈ s.spaces) (hw : w < userPages) :
    view (setEntry s.ram t (v % 512) e) b w =
      if b = a ∧ w = v then e &&& ~~~pteAccessed else view s.ram b w := by
  rw [view, set_leaf s hS.trees a v t ha hv ht e b w hb hw]
  split_ifs <;> rfl

theorem trees_set_leaf (hS : Trees s Root) (a v t : ℕ) (ha : Root a) (hv : v < userPages)
    (ht : leafTable s.ram a v = some t) (e : Pte) : Trees { s with ram := setEntry s.ram t (v % 512) e } Root := by
  have hw := set_leaf_walk s hS a v t ha hv ht e
  refine ⟨hS.pages,?_,?_,?_⟩
  · intro b b' q q' u hb hb' hq hq' hu hu'
    rw [hw b q hb hq] at hu
    rw [hw b' q' hb' hq'] at hu'
    exact hS.forest b b' q q' u hb hb' hq hq' hu hu'
  · intro b hb q j u hqn hq hu hbit
    have hqq := user_path_closed _ _ (List.prefix_append q [j]) hq
    have hu' : walk (child s.ram) b q = some u := by
      rw [← hw b q hb hqq]
      exact hu
    have hut : u ≠ t := by
      rintro rfl
      exact inner_not_leaf s hS hb ha hv hq hu' ht
    simp only [entry_set_other s.ram t (v % 512) e u j (Or.inl hut)] at hbit ⊢
    exact hS.plain b hb q j u hqn hq hu' hbit
  · rintro u ⟨b,q,hb,hq,hu⟩
    exact hS.tables u ⟨b,q,hb,hq,by rw [← hw b q hb hq]; exact hu⟩

/-- The new word of a leaf is absent, or names an allocated frame which is
no table and is mapped at this page only. -/
theorem struct_set_leaf (hS : Struct s) (a v t : ℕ) (ha : a ∈ s.spaces)
    (hv : v < userPages) (ht : leafTable s.ram a v = some t) (e : Pte)
    (hf : bit e 0 = true → pteFrame e < s.totalPages ∧ s.bitmap (pteFrame e) = true ∧
      ¬Table s (pteFrame e))
    (hp : bit e 0 = true → ∀ b ∈ s.spaces, ∀ w < userPages, bit (view s.ram b w) 0 = true →
      pteFrame (view s.ram b w) = pteFrame e → w = v) :
    Struct { s with ram := setEntry s.ram t (v % 512) e } := by
  have htree := trees_set_leaf s hS.trees a v t ha hv ht e
  have htab := set_leaf_tables s hS ha hv ht e
  have hview := set_leaf_view s hS a v t ha hv ht e
  have hclean : pteFrame (e &&& ~~~pteAccessed) = pteFrame e :=
    frame_congr _ _ (fun i h1 h2 => clean_bit e (by omega) (by omega))
  refine ⟨hS.pages,hS.zero,hS.kernel,hS.nodup,htree.forest,htree.plain,htree.tables,?_,?_,hS.low⟩
  · intro b hb w hw' hbit
    simp only [htab]
    simp only [hview b w hb hw'] at hbit ⊢
    split_ifs at hbit ⊢ with h
    · rw [clean_bit e (by omega) (by omega)] at hbit
      rw [hclean]
      exact hf hbit
    · exact hS.frames b hb w hw' hbit
  · intro b hb b' hb' w hw' w' hw'' h1 h2 h3
    simp only [hview b w hb hw', hview b' w' hb' hw''] at h1 h2 h3
    split_ifs at h1 h2 h3 with c1 c2 c2
    · rw [c1.2, c2.2]
    · rw [clean_bit e (by omega) (by omega)] at h1
      rw [hclean] at h3
      rw [c1.2, hp h1 b' hb' w' hw'' h2 h3.symm]
    · rw [clean_bit e (by omega) (by omega)] at h2
      rw [hclean] at h3
      rw [c2.2, hp h2 b hb w hw' h1 h3]
    · exact hS.place b hb b' hb' w hw' w' hw'' h1 h2 h3

theorem struct_congr {s s' : Mem} (hS : Struct s) (h1 : s'.totalPages = s.totalPages)
    (h2 : s'.bitmap = s.bitmap) (hk : s'.kernelPageLimit = s.kernelPageLimit)
    (h3 : s'.spaces = s.spaces) (h4 : s'.ram = s.ram) (h5 : ∀ f, (s'.rmapTable f).virtAddr < 2^47) : Struct s' := by
  have htab : Table s' = Table s := by
    unfold Table
    rw [h3, h4]
  constructor
  · rw [h1]; exact hS.pages
  · rw [h2]; exact hS.zero
  · rw [hk]; exact hS.kernel
  · rw [h3]; exact hS.nodup
  · rw [h3, h4]; exact hS.forest
  · rw [h3, h4]; exact hS.plain
  · rw [htab, h1, h2]; exact hS.tables
  · rw [htab, h1, h2, h3, h4]; exact hS.frames
  · rw [h3, h4]; exact hS.place
  · exact h5

end HobbyOS.AddressSpace
