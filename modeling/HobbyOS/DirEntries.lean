import HobbyOS.Ext2

/-!
# The records of a directory block

A directory block is tiled by records. Splitting a record, merging it into
the one before or clearing its inode number replaces a few records in the
middle and leaves the others where they are.
-/

namespace HobbyOS.DirEntries
open ByteStore Ext2

structure Rec where
  ino : ℕ
  len : ℕ
  name : Name
  deriving DecidableEq

structure RecAt (m : Store) (o : ℕ) (r : Rec) : Prop where
  ino : deInode m o = r.ino
  len : deRecLen m o = r.len
  nameLen : deNameLen m o = r.name.length
  name : deName m o r.name.length = r.name

variable (m : Store) (r : Rec) (rs : List Rec) (o : ℕ)

def Fits : Prop := r.len % 4 = 0 ∧ 8+r.name.length ≤ r.len

def span : ℕ := (rs.map Rec.len).sum

/-- The records lie one after the other from `o` on. -/
def Tiled (m : Store) : ℕ → List Rec → Prop
  | _, [] => True
  | o, r::rs => RecAt m o r ∧ Fits r ∧ Tiled m (o+r.len) rs

theorem span_cons : span (r::rs) = r.len+span rs := by simp [span]

theorem span_append (rs ss : List Rec) : span (rs++ss) = span rs+span ss := by simp [span]

theorem tiled_append (rs ss : List Rec) :
    Tiled m o (rs++ss) ↔ Tiled m o rs ∧ Tiled m (o+span rs) ss := by
  induction rs generalizing o with
  | nil => simp [Tiled, span]
  | cons r rs ih => rw [List.cons_append, Tiled, Tiled, ih, span_cons, Nat.add_assoc, and_assoc, and_assoc]

theorem tiled_length (rs : List Rec) (h : Tiled m o rs) : 8*rs.length ≤ span rs := by
  induction rs generalizing o with
  | nil => simp
  | cons r rs ih =>
    have h1 := ih _ h.2.2
    have h2 := h.2.1.2
    rw [span_cons, List.length_cons]
    omega

theorem de_name_congr {m m' : Store} {o o' len : ℕ} (h : ∀ i < len, m' (o'+8+i) = m (o+8+i)) :
    deName m' o' len = deName m o len :=
  List.map_congr_left fun i hi => h i (List.mem_range.mp hi)

theorem rec_at_congr (m m' : Store) (o : ℕ) (r : Rec) (h : ∀ i, o ≤ i → i < o+8+r.name.length → m' i = m i)
    (hr : RecAt m o r) : RecAt m' o r where
  ino := (load_congr m' m 4 o fun i h1 h2 => h i (by omega) (by omega)).trans hr.ino
  len := (load_congr m' m 2 (o+4) fun i h1 h2 => h i (by omega) (by omega)).trans hr.len
  nameLen := (load_congr m' m 1 (o+6) fun i h1 h2 => h i (by omega) (by omega)).trans hr.nameLen
  name := (de_name_congr fun i hi => h _ (by omega) (by omega)).trans hr.name

theorem tiled_congr (m m' : Store) (o : ℕ) (rs : List Rec) (h : ∀ i, o ≤ i → i < o+span rs → m' i = m i)
    (hr : Tiled m o rs) : Tiled m' o rs := by
  induction rs generalizing o with
  | nil => trivial
  | cons r rs ih =>
    obtain ⟨h1,h2,h3⟩ := hr
    rw [span_cons] at h
    have hfit := h2.2
    exact ⟨rec_at_congr m m' o r (fun i hi hi' => h i hi (by omega)) h1,h2,
      ih _ (fun i hi hi' => h i (by omega) (by omega)) h3⟩

theorem tiled_replace (m m' : Store) (o : ℕ) (rs mid mid' ss : List Rec) (h : Tiled m o (rs++mid++ss))
    (hspan : span mid' = span mid) (hmid : Tiled m' (o+span rs) mid')
    (hout : ∀ i, i < o+span rs ∨ o+span rs+span mid ≤ i → m' i = m i) : Tiled m' o (rs++mid'++ss) := by
  rw [tiled_append, tiled_append, span_append] at h ⊢
  obtain ⟨⟨h1,-⟩,h3⟩ := h
  refine ⟨⟨tiled_congr m m' o rs (fun i _ hi => hout i (.inl hi)) h1,hmid⟩,?_⟩
  rw [hspan]
  exact tiled_congr m m' _ ss (fun i hi _ => hout i (.inr (by omega))) h3

variable (es fs : List (Name × ℕ)) (name : Name) (size : ℕ)

theorem is_entry_eq {r : Rec} (h : RecAt m o r) : isEntry m o name = (r.ino != 0 && r.name == name) := by
  unfold isEntry
  rw [h.ino, h.nameLen]
  by_cases hlen : r.name.length = name.length
  · rw [← hlen, h.name]
    simp
  · have hne : (r.name == name) = false := by
      rw [beq_eq_false_iff_ne]
      rintro rfl
      exact hlen rfl
    rw [hne, beq_eq_false_iff_ne.mpr hlen, Bool.and_false, Bool.false_and]

theorem put_entry_outside (o ino len : ℕ) {name : Name} (ft i : ℕ)
    (h : i < o ∨ o+8+name.length ≤ i) : putEntry m o ino len name ft i = m i := by
  unfold putEntry copy store
  rw [if_neg (by omega), if_neg (by omega), if_neg (by omega), if_neg (by omega), if_neg (by omega)]

theorem put_entry_rec (o ino len : ℕ) (name : Name) (ft : ℕ) (hname : name.length < 256) :
    RecAt (putEntry m o ino len name ft) o ⟨ino % 2^32,len % 2^16,name⟩ := by
  unfold putEntry
  refine ⟨?_,?_,?_,?_⟩
  · rw [deInode, load_copy_disjoint _ _ _ (by omega), load_store_disjoint _ _ _ _ _ _ (by omega),
      load_store_disjoint _ _ _ _ _ _ (by omega), load_store_disjoint _ _ _ _ _ _ (by omega), load_store_same]
    norm_num
  · rw [deRecLen, load_copy_disjoint _ _ _ (by omega), load_store_disjoint _ _ _ _ _ _ (by omega),
      load_store_disjoint _ _ _ _ _ _ (by omega), load_store_same]
    norm_num
  · rw [deNameLen, load_copy_disjoint _ _ _ (by omega), load_store_disjoint _ _ _ _ _ _ (by omega),
      load_store_of_lt _ 1 _ _ (by omega)]
  · apply List.ext_getElem
    · simp [deName]
    · intro i h1 h2
      have hi : i < name.length := h2
      simp only [deName, List.getElem_map, List.getElem_range, copy]
      simp [hi]

theorem actual_size_le (h : Fits r) : actualSize r.name.length ≤ r.len := by
  obtain ⟨h1,h2⟩ := h
  unfold actualSize
  omega

theorem actual_size_bounds (n : ℕ) : actualSize n % 4 = 0 ∧ 8+n ≤ actualSize n := by
  unfold actualSize
  omega

theorem free_space_eq {r : Rec} (hr : RecAt m o r) (hf : Fits r) :
    freeSpace m o = r.len-actualSize r.name.length := by
  have hlen : r.len < 256^2 := by
    rw [← hr.len]
    exact load_lt _ 2 _
  have hle := actual_size_le r hf
  unfold freeSpace
  rw [hr.len, hr.nameLen]
  omega

theorem split_tiled {o ino : ℕ} {r : Rec} {name : Name} (ft : ℕ) (hr : RecAt m o r) (hf : Fits r)
    (hroom : actualSize name.length ≤ r.len-actualSize r.name.length) (hino : ino < 2^32) (hname : name.length < 256) :
    Tiled (splitEntry m o ino name ft) o
      [⟨r.ino,actualSize r.name.length,r.name⟩,⟨ino,r.len-actualSize r.name.length,name⟩] ∧
    ∀ i, i < o ∨ o+r.len ≤ i → splitEntry m o ino name ft i = m i := by
  have hlen : r.len < 256^2 := by
    rw [← hr.len]
    exact load_lt _ 2 _
  obtain ⟨hmod,hge⟩ := actual_size_bounds r.name.length
  obtain ⟨-,hge'⟩ := actual_size_bounds name.length
  have hfit := hf.1
  unfold splitEntry
  rw [hr.len, hr.nameLen]
  generalize actualSize r.name.length = a at *
  have hcut : RecAt (store m 2 (o+4) a) o ⟨r.ino,a,r.name⟩ := by
    refine ⟨?_,?_,?_,?_⟩
    · rw [deInode, load_store_disjoint _ _ _ _ _ _ (by omega)]
      exact hr.ino
    · rw [deRecLen, load_store_of_lt _ 2 _ _ (by omega)]
    · rw [deNameLen, load_store_disjoint _ _ _ _ _ _ (by omega)]
      exact hr.nameLen
    · refine (de_name_congr fun i hi => ?_).trans hr.name
      rw [store, if_neg (by omega)]
  refine ⟨⟨rec_at_congr _ _ o _ (fun i h1 h2 => put_entry_outside _ _ _ _ _ _ (.inl ?_)) hcut,⟨hmod,hge⟩,?_,
    ⟨by dsimp only; omega,by dsimp only; omega⟩,trivial⟩,fun i hi => ?_⟩
  · have h2 : i < o+8+r.name.length := h2
    omega
  · have hput := put_entry_rec (store m 2 (o+4) a) (o+a) ino (r.len+(2^32-a)) name ft hname
    rw [Nat.mod_eq_of_lt hino, show (r.len+(2^32-a)) % 2^16 = r.len-a by omega] at hput
    exact hput
  · rw [put_entry_outside _ _ _ _ _ _ (by omega), store, if_neg (by omega)]

theorem merge_tiled {p r : Rec} (h : Tiled m o [p,r]) (hlen : p.len+r.len < 2^16) :
    Tiled (store m 2 (o+4) (p.len+r.len)) o [⟨p.ino,p.len+r.len,p.name⟩] ∧
    ∀ i, i < o ∨ o+p.len+r.len ≤ i → store m 2 (o+4) (p.len+r.len) i = m i := by
  obtain ⟨hp,hfp,-,hfr,-⟩ := h
  have h1 := hfp.1
  have h2 := hfr.1
  have h3 := hfp.2
  refine ⟨⟨⟨?_,?_,?_,?_⟩,⟨by dsimp only; omega,by dsimp only; omega⟩,trivial⟩,fun i hi => ?_⟩
  · rw [deInode, load_store_disjoint _ _ _ _ _ _ (by omega)]
    exact hp.ino
  · rw [deRecLen, load_store_of_lt _ 2 _ _ (by omega)]
  · rw [deNameLen, load_store_disjoint _ _ _ _ _ _ (by omega)]
    exact hp.nameLen
  · refine (de_name_congr fun i hi => ?_).trans hp.name
    rw [store, if_neg (by omega)]
  · rw [store, if_neg (by omega)]

theorem cleared_tiled {r : Rec} (h : Tiled m o [r]) :
    Tiled (store m 4 o 0) o [⟨0,r.len,r.name⟩] ∧ ∀ i, i < o ∨ o+r.len ≤ i → store m 4 o 0 i = m i := by
  obtain ⟨hr,hf,-⟩ := h
  have h3 := hf.2
  refine ⟨⟨⟨?_,?_,?_,?_⟩,hf,trivial⟩,fun i hi => ?_⟩
  · rw [deInode, load_store_same, Nat.zero_mod]
  · rw [deRecLen, load_store_disjoint _ _ _ _ _ _ (by omega)]
    exact hr.len
  · rw [deNameLen, load_store_disjoint _ _ _ _ _ _ (by omega)]
    exact hr.nameLen
  · refine (de_name_congr fun i hi => ?_).trans hr.name
    rw [store, if_neg (by omega)]
  · rw [store, if_neg (by omega)]

def entries : List (Name × ℕ) := (rs.filter fun r => r.ino != 0).map fun r => (r.name,r.ino)

theorem entries_append (rs ss : List Rec) : entries (rs++ss) = entries rs++entries ss := by simp [entries]

theorem entries_cons : entries (r::rs) = entries [r]++entries rs := entries_append [r] rs

theorem entries_dead (h : r.ino = 0) : entries [r] = [] := by
  simp [entries, h]

theorem entries_live (h : r.ino ≠ 0) : entries [r] = [(r.name,r.ino)] := by
  simp [entries, h]

theorem entries_len (len : ℕ) : entries [⟨r.ino,len,r.name⟩] = entries [r] := by
  by_cases h : r.ino = 0
  · simp [entries, h]
  · simp [entries, h]

/-- What a list of entries says about a name; 0 if nothing. -/
def resolve (es : List (Name × ℕ)) (name : Name) : ℕ := ((es.find? fun e => e.1 == name).map Prod.snd).getD 0

theorem resolve_append (h : name ∉ es.map Prod.fst) : resolve (es++fs) name = resolve fs name := by
  have hnone : es.find? (fun e => e.1 == name) = none := by
    rw [List.find?_eq_none]
    intro e he heq
    exact h (List.mem_map.mpr ⟨e,he,by simpa using heq⟩)
  rw [resolve, resolve, List.find?_append, hnone, Option.none_or]

theorem resolve_found (ino : ℕ) (h : name ∉ es.map Prod.fst) : resolve (es++(name,ino)::fs) name = ino := by
  rw [resolve_append es _ name h, resolve]
  simp

theorem resolve_skip {e : Name × ℕ} {name : Name} (h : e.1 ≠ name) :
    resolve (es++e::fs) name = resolve (es++fs) name := by
  have hne : (e.1 == name) = false := beq_eq_false_iff_ne.mpr h
  rw [resolve, resolve, List.find?_append, List.find?_append, List.find?_cons, hne]

theorem resolve_absent (h : name ∉ es.map Prod.fst) : resolve es name = 0 := by
  have := resolve_append es [] name h
  rw [List.append_nil] at this
  exact this

theorem resolve_zero (h : resolve (entries rs) name = 0) : name ∉ (entries rs).map Prod.fst := by
  intro hmem
  obtain ⟨e,he,rfl⟩ := List.mem_map.mp hmem
  have hsome : ((entries rs).find? fun x => x.1 == e.1).isSome = true := by
    rw [List.find?_isSome]
    exact ⟨e,he,by simp⟩
  obtain ⟨x,hx⟩ := Option.isSome_iff_exists.mp hsome
  rw [resolve, hx] at h
  have hx := List.mem_of_find?_eq_some hx
  obtain ⟨r,hr,rfl⟩ := List.mem_map.mp hx
  have hlive := (List.mem_filter.mp hr).2
  simp only [Option.map_some, Option.getD_some] at h
  simp [h] at hlive

def Matches (name : Name) (r : Rec) : Prop := r.ino ≠ 0 ∧ r.name = name

/-- The block without the record of length `len` at `o`. -/
def withoutRec (prev : Option ℕ) (o len : ℕ) : Store :=
  match prev with
  | some p => store m 2 (p+4) (deRecLen m p+len)
  | none => store m 4 o 0

/-- The offset of the record before, after the records `rs` from `o` on. -/
def prevOf (prev : Option ℕ) : Option ℕ :=
  if rs = [] then prev else some (o+span rs.dropLast)

theorem prev_of_cons (prev : Option ℕ) :
    prevOf rs (o+r.len) (some o) = prevOf (r::rs) o prev := by
  unfold prevOf
  rw [if_neg (List.cons_ne_nil r rs)]
  split_ifs with h
  · simp [h, span]
  · rw [List.dropLast_cons_of_ne_nil h, span_cons, Nat.add_assoc]

theorem remove_from_succ (m : Store) (name : Name) (fuel o : ℕ) (prev : Option ℕ) :
    removeFrom size m name (fuel+1) o prev =
      if size ≤ o then none
      else if deRecLen m o = 0 then none
      else if isEntry m o name then
        some (withoutRec m prev o (deRecLen m o))
      else removeFrom size m name fuel (o+deRecLen m o) (some o) := rfl

theorem remove_from_cases (m : Store) (name : Name) (rs : List Rec) (fuel o : ℕ) (prev : Option ℕ) (h : Tiled m o rs)
    (hend : o+span rs = size) (hfuel : rs.length < fuel) :
    ((∀ r ∈ rs, ¬Matches name r) ∧ removeFrom size m name fuel o prev = none) ∨
      ∃ rs1 r rs2, rs = rs1++r::rs2 ∧ Matches name r ∧ (∀ q ∈ rs1, ¬Matches name q) ∧
        removeFrom size m name fuel o prev = some (withoutRec m (prevOf rs1 o prev) (o+span rs1) r.len) := by
  induction rs generalizing fuel o prev with
  | nil =>
    obtain ⟨k,rfl⟩ := Nat.exists_eq_add_one_of_ne_zero (show fuel ≠ 0 by simp at hfuel; omega)
    left
    simp only [span, List.map_nil, List.sum_nil] at hend
    refine ⟨by simp,?_⟩
    rw [remove_from_succ, if_pos (by omega)]
  | cons r rs ih =>
    obtain ⟨hr,hf,hrest⟩ := h
    rw [span_cons] at hend
    have hlen := hf.2
    obtain ⟨k,rfl⟩ := Nat.exists_eq_add_one_of_ne_zero (show fuel ≠ 0 by omega)
    rw [List.length_cons] at hfuel
    have hstep : removeFrom size m name (k+1) o prev = if isEntry m o name then
        some (withoutRec m prev o r.len) else removeFrom size m name k (o+r.len) (some o) := by
      rw [remove_from_succ, if_neg (by omega), hr.len, if_neg (by omega)]
    by_cases hmatch : Matches name r
    · right
      refine ⟨[],r,rs,rfl,hmatch,by simp,?_⟩
      rw [hstep, is_entry_eq m o name hr, if_pos (by simp [hmatch.1, hmatch.2])]
      rfl
    · have hno : ¬(isEntry m o name = true) := by
        rw [is_entry_eq m o name hr]
        intro hx
        simp only [Bool.and_eq_true, bne_iff_ne, beq_iff_eq] at hx
        exact hmatch hx
      rw [if_neg hno] at hstep
      rcases ih k (o+r.len) (some o) hrest (by omega) (by omega) with ⟨hnone,heq⟩ | ⟨rs1,q,rs2,rfl,hq,hbefore,heq⟩
      · left
        refine ⟨fun x hx => ?_,hstep.trans heq⟩
        rcases List.mem_cons.mp hx with rfl | hx
        · exact hmatch
        · exact hnone x hx
      · right
        refine ⟨r::rs1,q,rs2,rfl,hq,fun x hx => ?_,?_⟩
        · rcases List.mem_cons.mp hx with rfl | hx
          · exact hmatch
          · exact hbefore x hx
        · rw [hstep, heq, prev_of_cons r rs1 o prev, span_cons, Nat.add_assoc]

theorem remove_from_tiled {m : Store} {rs1 rs2 : List Rec} {r : Rec} (h : Tiled m 0 (rs1++r::rs2))
    (hend : span (rs1++r::rs2) = size) (hsize : size < 2^16) {m' : Store}
    (hm : m' = withoutRec m (prevOf rs1 0 none) (0+span rs1) r.len) :
    ∃ ss, Tiled m' 0 ss ∧ span ss = size ∧ entries ss = entries rs1++entries rs2 := by
  rcases List.eq_nil_or_concat rs1 with rfl | ⟨rs0,p,rfl⟩
  · -- the first record is cleared
    have hm : m' = store m 4 0 0 := hm
    have hr : Tiled m 0 [r] := ((tiled_append m 0 [r] rs2).mp h).1
    obtain ⟨hnew,hout⟩ := cleared_tiled m 0 hr
    rw [← hm] at hnew hout
    refine ⟨[⟨0,r.len,r.name⟩]++rs2,?_,?_,?_⟩
    · refine tiled_replace m m' 0 [] [r] _ rs2 h rfl (by simpa [span] using hnew) fun i hi => hout i ?_
      simpa [span] using hi
    · rw [← hend]
      rfl
    · rfl
  · -- the record before takes it over
    rw [List.concat_eq_append] at *
    have hsplit : (rs0++[p])++r::rs2 = rs0++[p,r]++rs2 := by simp
    rw [hsplit] at h hend
    have hpr : Tiled m (0+span rs0) [p,r] :=
      ((tiled_append m 0 rs0 [p,r]).mp ((tiled_append m 0 (rs0++[p,r]) rs2).mp h).1).2
    have hp : prevOf (rs0++[p]) 0 none = some (0+span rs0) := by
      simp [prevOf]
    have hm : m' = store m 2 (0+span rs0+4) (p.len+r.len) := by
      rw [hm, hp, withoutRec, hpr.1.len]
    have hspan : span [p,r] = p.len+r.len := by simp [span]
    have hle : p.len+r.len ≤ size := by
      rw [← hend, span_append, span_append]
      omega
    obtain ⟨hnew,hout⟩ := merge_tiled m (0+span rs0) hpr (by omega)
    rw [← hm] at hnew hout
    refine ⟨rs0++[⟨p.ino,p.len+r.len,p.name⟩]++rs2,?_,?_,?_⟩
    · refine tiled_replace m m' 0 rs0 [p,r] _ rs2 h (by simp [span]) hnew fun i hi => hout i ?_
      omega
    · rw [← hend, span_append, span_append, span_append, span_append]
      simp [span]
    · simp only [entries_append]
      rw [entries_len p]

end HobbyOS.DirEntries
