import HobbyOS.VolumeLayout

/-!
# Bitmaps and free counts

Allocating and freeing blocks and inodes as changes of single bits. The
counters of group descriptors and superblock follow the bits as long as every
freed bit was set.
-/

namespace HobbyOS.VolumeMaps
open ByteStore Ext2 VolumeLayout

variable (v : Volume) (k : Kind) (g : ℕ)

def bit (g i : ℕ) : Bool := bitAt (ext2ReadBlock v (bitmapBlock v (pool k) g)) i

def per : ℕ := perGroup v (pool k)

theorem home_map : home v (mapPlace k g) = bitmapBlock v (pool k) g := by
  cases k <;> rfl

theorem present_map : Present v (mapPlace k g) ↔ g < v.numBlockGroups := by
  cases k <;> rfl

theorem map_place_inj {k k' : Kind} {g g' : ℕ} (h : mapPlace k g = mapPlace k' g') : k = k' ∧ g = g' := by
  cases k <;> cases k' <;> simp_all [mapPlace]

theorem per_bounds {v : Volume} (lay : Layout v) (k : Kind) : 0 < per v k ∧ per v k ≤ 8*v.blockSize := by
  cases k with
  | block => exact lay.blocks
  | inode => exact lay.inodes

theorem per_shape {v w : Volume} (h : SameShape v w) (k : Kind) : per w k = per v k := by
  cases k with
  | block => exact h.blocks
  | inode => exact h.inodes

theorem bit_clip {n : ℕ} (m : Store) {i : ℕ} (h : i < 8*n) : bitAt (clip n m) i = bitAt m i := by
  unfold bitAt clip
  rw [if_pos (by omega)]

variable {T : ℕ → Prop}

theorem bit_touch {v w : Volume} (lay : Layout v) (ht : Touch v w T) {k : Kind} (g i : ℕ) (hg : g < v.numBlockGroups)
    (hT : ¬T (home v (mapPlace k g))) : bit w k g i = bit v k g i := by
  unfold bit
  rw [ht.shape.maps, ← home_map, ht.read _ (lay.inside _ ((present_map v k g).mpr hg)) hT]

/-- The volume with another bitmap for group `g` and other counts. -/
def withMap (m : Store) (count total : ℕ) : Volume :=
  setCounts (ext2WriteBlock v (bitmapBlock v (pool k) g) m) (pool k) g count total

theorem take_bit_eq (g i : ℕ) :
    takeBit v (pool k) g i = withMap v k g (setBit (ext2ReadBlock v (bitmapBlock v (pool k) g)) i)
      (freeCount v (pool k) g-1) (freeTotal v (pool k)+(2^32-1)) := rfl

theorem release_bit_eq (g i : ℕ) (hg : g < v.numBlockGroups) :
    releaseBit v (pool k) g i = withMap v k g (clearBit (ext2ReadBlock v (bitmapBlock v (pool k) g)) i)
      (freeCount v (pool k) g+1) (freeTotal v (pool k)+1) := by
  unfold releaseBit
  rw [if_neg (by omega)]
  rfl

theorem with_map_count (m : Store) (count total : ℕ) (k' : Kind) (g' : ℕ)
    (hc : count < 2^16) :
    freeCount (withMap v k g m count total) (pool k') g' =
      if k' = k ∧ g' = g then count else freeCount v (pool k') g' := by
  unfold withMap setCounts freeCount
  by_cases h : k' = k ∧ g' = g
  · obtain ⟨rfl,rfl⟩ := h
    rw [if_pos ⟨rfl,rfl⟩]
    exact load_store_of_lt _ 2 _ _ (by simpa using hc)
  · rw [if_neg h]
    apply load_store_disjoint
    cases k <;> cases k' <;> simp only [pool, blockPool, inodePool] <;>
      simp only [reduceCtorEq, true_and] at h <;> omega

theorem with_map_total (m : Store) (count total : ℕ) (k' : Kind) :
    freeTotal (withMap v k g m count total) (pool k') = if k' = k then total % 2^32 else freeTotal v (pool k') := by
  unfold withMap setCounts freeTotal
  by_cases h : k' = k
  · subst h
    rw [if_pos rfl]
    exact load_store_same _ 4 _ _
  · rw [if_neg h]
    apply load_store_disjoint
    cases k <;> cases k' <;> simp only [pool, blockPool, inodePool] <;> first | omega | exact absurd rfl h

section
variable {v : Volume} (lay : Layout v) (k : Kind) (g : ℕ) (m : Store) (count total : ℕ)
  (hg : g < v.numBlockGroups)
include lay hg

theorem with_map_touch : Touch v (withMap v k g m count total) (· = home v (mapPlace k g)) := by
  have hb : InRange v (bitmapBlock v (pool k) g) := by
    rw [← home_map]
    exact lay.inside _ ((present_map v k g).mpr hg)
  have hw := touch_write lay (bitmapBlock v (pool k) g) m hb
  rw [home_map]
  exact touch_trans hw (set_counts_touch _ k g count total _)

theorem with_map_bit (k' : Kind) {g' i' : ℕ} (hg' : g' < v.numBlockGroups) (hi' : i' < 8*v.blockSize) :
    bit (withMap v k g m count total) k' g' i' = if k' = k ∧ g' = g then bitAt m i' else bit v k' g' i' := by
  by_cases h : k' = k ∧ g' = g
  · obtain ⟨rfl,rfl⟩ := h
    rw [if_pos ⟨rfl,rfl⟩]
    unfold bit
    rw [(with_map_touch lay k' g' m count total hg).shape.maps]
    have hread : ext2ReadBlock (withMap v k' g' m count total) (bitmapBlock v (pool k') g') = clip v.blockSize m :=
      read_write_self v _ m
    rw [hread, bit_clip _ hi']
  · rw [if_neg h]
    apply bit_touch lay (with_map_touch lay k g m count total hg) g' i' hg'
    intro heq
    have := lay.apart _ _ ((present_map v k' g').mpr hg') ((present_map v k g).mpr hg) heq
    exact h (map_place_inj this)

end

def clearBits : ℕ :=
  ((Finset.range (per v k)).filter fun i => bit v k g i = false).card

structure Agree (v : Volume) : Prop where
  count : ∀ k g, g < v.numBlockGroups → freeCount v (pool k) g = clearBits v k g
  total : ∀ k, freeTotal v (pool k) = ∑ g ∈ Finset.range v.numBlockGroups, clearBits v k g

theorem clear_bits_le : clearBits v k g ≤ per v k :=
  (Finset.card_filter_le _ _).trans (by simp)

theorem agree_touch {v w : Volume} (lay : Layout v) (ht : Touch v w T)
    (hT : ∀ k g, g < v.numBlockGroups → ¬T (home v (mapPlace k g)))
    (hcount : ∀ k g, freeCount w (pool k) g = freeCount v (pool k) g)
    (htotal : ∀ k, freeTotal w (pool k) = freeTotal v (pool k)) (ha : Agree v) : Agree w := by
  have hclear : ∀ k g, g < v.numBlockGroups → clearBits w k g = clearBits v k g := by
    intro k g hg
    unfold clearBits
    rw [per_shape ht.shape]
    simp only [bit_touch lay ht g _ hg (hT k g hg)]
  refine ⟨fun k g hg => ?_,fun k => ?_⟩
  · rw [ht.shape.numBlockGroups] at hg
    rw [hcount, ha.count k g hg, hclear k g hg]
  · rw [htotal, ha.total, ht.shape.numBlockGroups]
    exact Finset.sum_congr rfl fun g hg => (hclear k g (Finset.mem_range.mp hg)).symm

theorem card_clear_change {n i : ℕ} (f f' : ℕ → Bool) (hi : i < n) (h : ∀ j < n, j ≠ i → f' j = f j) :
    ((Finset.range n).filter fun j => f' j = false).card+(if f i = false then 1 else 0) =
      ((Finset.range n).filter fun j => f j = false).card+(if f' i = false then 1 else 0) := by
  have hsum : ∀ g : ℕ → Bool, ((Finset.range n).filter fun j => g j = false).card =
      ∑ j ∈ Finset.range n, if g j = false then 1 else 0 := fun g => Finset.card_filter _ _
  have hmem : i ∈ Finset.range n := Finset.mem_range.mpr hi
  rw [hsum, hsum, ← Finset.sum_erase_add _ _ hmem, ← Finset.sum_erase_add _ _ hmem]
  have hrest : ∑ j ∈ (Finset.range n).erase i, (if f' j = false then 1 else 0) =
      ∑ j ∈ (Finset.range n).erase i, if f j = false then 1 else 0 := by
    apply Finset.sum_congr rfl
    intro j hj
    rw [h j (Finset.mem_range.mp (Finset.mem_of_mem_erase hj)) (Finset.ne_of_mem_erase hj)]
  omega

section
variable {v : Volume} (lay : Layout v) (k : Kind) (g i : ℕ) (m : Store) (count total : ℕ)
  (hg : g < v.numBlockGroups) (hi : i < per v k)
include lay hg hi

theorem clear_bits_with (hm : ∀ j < per v k, j ≠ i → bitAt m j = bit v k g j) (k' : Kind) (g' : ℕ)
    (hg' : g' < v.numBlockGroups) :
    clearBits (withMap v k g m count total) k' g'+(if (k' = k ∧ g' = g) ∧ bit v k g i = false then 1 else 0) =
      clearBits v k' g'+if (k' = k ∧ g' = g) ∧ bitAt m i = false then 1 else 0 := by
  have hper := per_shape (with_map_touch lay k g m count total hg).shape
  have hle := (per_bounds lay k').2
  unfold clearBits
  rw [hper]
  by_cases h : k' = k ∧ g' = g
  · obtain ⟨rfl,rfl⟩ := h
    simp only [true_and]
    have hself : bit (withMap v k' g' m count total) k' g' i = bitAt m i := by
      rw [with_map_bit lay k' g' m count total hg k' hg' (by omega), if_pos ⟨rfl,rfl⟩]
    rw [← hself]
    apply card_clear_change _ _ hi
    intro j hj hji
    rw [with_map_bit lay k' g' m count total hg k' hg' (by omega), if_pos ⟨rfl,rfl⟩]
    exact hm j hj hji
  · simp only [h, false_and, if_false, Nat.add_zero]
    apply congrArg
    apply Finset.filter_congr
    intro j hj
    have hj := Finset.mem_range.mp hj
    rw [with_map_bit lay k g m count total hg k' hg' (by omega), if_neg h]

end

theorem total_change {v w : Volume} (k : Kind) (g a b : ℕ) (hg : g < v.numBlockGroups)
    (hn : w.numBlockGroups = v.numBlockGroups) (hself : clearBits w k g+a = clearBits v k g+b)
    (hother : ∀ g' < v.numBlockGroups, g' ≠ g → clearBits w k g' = clearBits v k g') :
    ∑ g' ∈ Finset.range w.numBlockGroups, clearBits w k g'+a =
      ∑ g' ∈ Finset.range v.numBlockGroups, clearBits v k g'+b := by
  have hmem : g ∈ Finset.range v.numBlockGroups := Finset.mem_range.mpr hg
  rw [hn, ← Finset.sum_erase_add _ _ hmem, ← Finset.sum_erase_add (Finset.range v.numBlockGroups) _ hmem]
  have hrest : ∑ g' ∈ (Finset.range v.numBlockGroups).erase g, clearBits w k g' =
      ∑ g' ∈ (Finset.range v.numBlockGroups).erase g, clearBits v k g' :=
    Finset.sum_congr rfl fun g' hg' =>
      hother g' (Finset.mem_range.mp (Finset.mem_of_mem_erase hg')) (Finset.ne_of_mem_erase hg')
  omega

theorem total_small {v : Volume} (lay : Layout v) (k : Kind) :
    ∑ g ∈ Finset.range v.numBlockGroups, clearBits v k g < 2^23 := by
  have hle : ∑ g ∈ Finset.range v.numBlockGroups, clearBits v k g ≤ v.numBlockGroups*per v k := by
    have := Finset.sum_le_card_nsmul (Finset.range v.numBlockGroups) (clearBits v k) (per v k)
      (fun g _ => clear_bits_le v k g)
    simpa using this
  have hmul : v.numBlockGroups*per v k ≤ v.blockSize/32*(8*v.blockSize) :=
    Nat.mul_le_mul (by have := lay.groups; omega) (per_bounds lay k).2
  rcases lay.size with h | h | h <;> rw [h] at hmul <;> omega

theorem take_agree {v : Volume} (lay : Layout v) {k : Kind} {g i : ℕ} (hg : g < v.numBlockGroups)
    (hi : i < per v k) (hclear : bit v k g i = false) (ha : Agree v) : Agree (takeBit v (pool k) g i) := by
  have hm : ∀ j < per v k, j ≠ i →
      bitAt (setBit (ext2ReadBlock v (bitmapBlock v (pool k) g)) i) j = bit v k g j := by
    intro j _ hji
    rw [bit_set, decide_eq_false (Ne.symm hji), Bool.or_false]
    rfl
  have hself : bitAt (setBit (ext2ReadBlock v (bitmapBlock v (pool k) g)) i) i = true := by
    rw [bit_set]
    simp
  have hper := (per_bounds lay k).2
  have hsize : v.blockSize ≤ 4096 := by rcases lay.size with h | h | h <;> omega
  have hcount := ha.count k g hg
  have hle := clear_bits_le v k g
  rw [take_bit_eq]
  have hchange := clear_bits_with lay k g i _ (freeCount v (pool k) g-1) (freeTotal v (pool k)+(2^32-1)) hg hi hm
  have hgroups := (with_map_touch lay k g (setBit (ext2ReadBlock v (bitmapBlock v (pool k) g)) i)
    (freeCount v (pool k) g-1) (freeTotal v (pool k)+(2^32-1)) hg).shape.numBlockGroups
  simp only [hclear, hself, and_true, Bool.true_eq_false, and_false, if_false, Nat.add_zero] at hchange
  refine ⟨fun k' g' hg' => ?_,fun k' => ?_⟩
  · have hc := hchange k' g' hg'
    rw [with_map_count v k g _ _ _ k' g' (by omega)]
    by_cases h : k' = k ∧ g' = g
    · rw [if_pos h] at hc ⊢
      obtain ⟨rfl,rfl⟩ := h
      omega
    · rw [if_neg h] at hc ⊢
      rw [ha.count k' g' hg']
      omega
  · rw [with_map_total v k g _ _ _ k']
    by_cases h : k' = k
    · subst h
      have hc := hchange k' g hg
      rw [if_pos ⟨rfl,rfl⟩] at hc
      have ht := total_change k' g 1 0 hg hgroups hc (fun g' hg' hne => by
        have := hchange k' g' hg'
        rwa [if_neg (fun hh => hne hh.2)] at this)
      have hsmall := total_small lay k'
      have hold := ha.total k'
      rw [if_pos rfl]
      omega
    · rw [if_neg h, ha.total k']
      apply Finset.sum_congr rfl
      intro g' hg'
      have := hchange k' g' (Finset.mem_range.mp hg')
      rw [if_neg (fun hh => h hh.1)] at this
      exact this.symm

theorem release_agree_iff {v : Volume} (lay : Layout v) {k : Kind} {g i : ℕ} (hg : g < v.numBlockGroups)
    (hi : i < per v k) (ha : Agree v) : Agree (releaseBit v (pool k) g i) ↔ bit v k g i = true := by
  have hm : ∀ j < per v k, j ≠ i →
      bitAt (clearBit (ext2ReadBlock v (bitmapBlock v (pool k) g)) i) j = bit v k g j := by
    intro j _ hji
    rw [bit_clear, decide_eq_false (Ne.symm hji), Bool.not_false, Bool.and_true]
    rfl
  have hself : bitAt (clearBit (ext2ReadBlock v (bitmapBlock v (pool k) g)) i) i = false := by
    rw [bit_clear]
    simp
  have hper := (per_bounds lay k).2
  have hsize : v.blockSize ≤ 4096 := by rcases lay.size with h | h | h <;> omega
  have hcount := ha.count k g hg
  have hle := clear_bits_le v k g
  rw [release_bit_eq v k g i hg]
  have hchange := clear_bits_with lay k g i _ (freeCount v (pool k) g+1) (freeTotal v (pool k)+1) hg hi hm
  have hgroups := (with_map_touch lay k g (clearBit (ext2ReadBlock v (bitmapBlock v (pool k) g)) i)
    (freeCount v (pool k) g+1) (freeTotal v (pool k)+1) hg).shape.numBlockGroups
  simp only [hself, and_true] at hchange
  constructor
  · intro h'
    have hc := hchange k g hg
    have hx := h'.count k g (by rw [hgroups]; exact hg)
    rw [with_map_count v k g _ _ _ k g (by omega), if_pos ⟨rfl,rfl⟩] at hx
    by_contra hb
    rw [Bool.not_eq_true] at hb
    simp only [hb, and_self] at hc
    omega
  · intro hset
    simp only [hset, Bool.true_eq_false, and_false, if_false, Nat.add_zero] at hchange
    refine ⟨fun k' g' hg' => ?_,fun k' => ?_⟩
    · have hc := hchange k' g' hg'
      rw [with_map_count v k g _ _ _ k' g' (by omega)]
      by_cases h : k' = k ∧ g' = g
      · rw [if_pos h] at hc ⊢
        obtain ⟨rfl,rfl⟩ := h
        omega
      · rw [if_neg h] at hc ⊢
        rw [ha.count k' g' hg']
        omega
    · rw [with_map_total v k g _ _ _ k']
      by_cases h : k' = k
      · subst h
        have hc := hchange k' g hg
        rw [if_pos ⟨rfl,rfl⟩] at hc
        have ht := total_change k' g 0 1 hg hgroups hc (fun g' hg' hne => by
          have := hchange k' g' hg'
          rwa [if_neg (fun hh => hne hh.2)] at this)
        have hsmall := total_small lay k'
        have hold := ha.total k'
        rw [if_pos rfl]
        omega
      · rw [if_neg h, ha.total k']
        apply Finset.sum_congr rfl
        intro g' hg'
        have := hchange k' g' (Finset.mem_range.mp hg')
        rw [if_neg (fun hh => h hh.1)] at this
        exact this.symm

def base : Kind → ℕ
  | .block => sFirstDataBlock v
  | .inode => 1

def Numbered (x : ℕ) : Prop := base v k ≤ x ∧ x < base v k+v.numBlockGroups*per v k

def marked (x : ℕ) : Bool := bit v k ((x-base v k)/per v k) ((x-base v k) % per v k)

def used (b : ℕ) : Bool := marked v .block b

def Live (ino : ℕ) : Prop := ValidIno v ino ∧ marked v .inode ino = true

theorem numbered_inode (ino : ℕ) : Numbered v .inode ino ↔ ValidIno v ino := by
  change 1 ≤ ino ∧ ino < 1+v.numBlockGroups*sInodesPerGroup v ↔ _
  unfold ValidIno
  omega

theorem numbered_place {v : Volume} (lay : Layout v) {k : Kind} {x : ℕ} (h : Numbered v k x) :
    (x-base v k)/per v k < v.numBlockGroups ∧ (x-base v k) % per v k < per v k := by
  have hp := (per_bounds lay k).1
  have h2 := h.2
  have h1 := h.1
  refine ⟨?_,Nat.mod_lt _ hp⟩
  apply Nat.div_lt_of_lt_mul
  rw [Nat.mul_comm]
  omega

def number (g i : ℕ) : ℕ := base v k+(g*per v k+i)

theorem number_place {v : Volume} (lay : Layout v) {k : Kind} {g i : ℕ} (hg : g < v.numBlockGroups)
    (hi : i < per v k) :
    Numbered v k (number v k g i) ∧ (number v k g i-base v k)/per v k = g ∧
      (number v k g i-base v k) % per v k = i := by
  have hp := (per_bounds lay k).1
  have hmul := Nat.mul_le_mul_right (per v k) hg
  rw [Nat.succ_mul] at hmul
  have hsub : number v k g i-base v k = i+per v k*g := by
    rw [number, Nat.mul_comm]
    omega
  refine ⟨⟨by rw [number]; omega,by rw [number]; omega⟩,?_,?_⟩
  · rw [hsub, Nat.add_mul_div_left _ _ hp, Nat.div_eq_of_lt hi, Nat.zero_add]
  · rw [hsub, Nat.add_mul_mod_self_left, Nat.mod_eq_of_lt hi]

theorem number_inj {v : Volume} {k : Kind} {x y : ℕ} (hx : Numbered v k x)
    (hy : Numbered v k y) (hg : (x-base v k)/per v k = (y-base v k)/per v k)
    (hi : (x-base v k) % per v k = (y-base v k) % per v k) : x = y := by
  have h1 := Nat.div_add_mod (x-base v k) (per v k)
  have h2 := Nat.div_add_mod (y-base v k) (per v k)
  rw [hg] at h1
  have h3 := hx.1
  have h4 := hy.1
  omega

theorem numbered_lt {v : Volume} (lay : Layout v) {k : Kind} {x : ℕ} (h : Numbered v k x) : x < 2^23 := by
  cases k with
  | block => exact (in_range_lt lay x h).2
  | inode =>
    have h2 := h.2
    have hb : base v .inode = 1 := rfl
    have hmul : v.numBlockGroups*per v .inode ≤ v.blockSize/32*(8*v.blockSize) :=
      Nat.mul_le_mul (by have := lay.groups; omega) (per_bounds lay .inode).2
    rcases lay.size with hs | hs | hs <;> rw [hs] at hmul <;> omega

theorem base_shape {v w : Volume} (h : SameShape v w) (k : Kind) : base w k = base v k := by
  cases k with
  | block => exact h.first
  | inode => rfl

theorem valid_ino_shape {v w : Volume} (h : SameShape v w) (ino : ℕ) : ValidIno w ino ↔ ValidIno v ino := by
  rw [ValidIno, ValidIno, h.inodes, h.numBlockGroups]

theorem marked_touch {v w : Volume} (lay : Layout v) (ht : Touch v w T) (k : Kind) (x : ℕ) (hx : Numbered v k x)
    (hT : ∀ g < v.numBlockGroups, ¬T (home v (mapPlace k g))) : marked w k x = marked v k x := by
  have hg := (numbered_place lay hx).1
  unfold marked
  rw [base_shape ht.shape, per_shape ht.shape, bit_touch lay ht _ _ hg (hT _ hg)]

def MapBlock (b : ℕ) : Prop := ∃ g, g < v.numBlockGroups ∧ b = home v (mapPlace k g)

/-- The object `x` was free and is taken; nothing else changes. -/
structure Taken (v w : Volume) (k : Kind) (x : ℕ) : Prop where
  numbered : Numbered v k x
  clear : marked v k x = false
  touch : Touch v w (MapBlock v k)
  marked : ∀ k' y, Numbered v k' y → marked w k' y = (marked v k' y || decide (k' = k ∧ y = x))
  total : freeTotal w (pool k) = (freeTotal v (pool k)+(2^32-1)) % 2^32
  agree : Agree v → Agree w

structure Freed (v w : Volume) (k : Kind) (x : ℕ) : Prop where
  touch : Touch v w (MapBlock v k)
  marked : ∀ k' y, Numbered v k' y → marked w k' y = (marked v k' y && !decide (k' = k ∧ y = x))
  agree : Agree v → (Agree w ↔ VolumeMaps.marked v k x = true)

section
variable {v : Volume} (lay : Layout v) (k : Kind) (g i : ℕ) (m : Store) (count total : ℕ)
  (hg : g < v.numBlockGroups) (hi : i < per v k)
include lay hg hi

omit hi in
theorem with_map_touch_kind : Touch v (withMap v k g m count total) (MapBlock v k) :=
  touch_mono (with_map_touch lay k g m count total hg) fun _ hb => ⟨g,hg,hb⟩

theorem with_map_marked (f : Bool → Bool → Bool) (hf : ∀ x, f x false = x)
    (hm : ∀ j, bitAt m j = f (bit v k g j) (decide (i = j))) (k' : Kind) (y : ℕ) (hy : Numbered v k' y) :
    marked (withMap v k g m count total) k' y =
      f (marked v k' y) (decide (k' = k ∧ y = number v k g i)) := by
  have hs := (with_map_touch lay k g m count total hg).shape
  obtain ⟨hyg,hyi⟩ := numbered_place lay hy
  have hle := (per_bounds lay k').2
  unfold marked
  rw [base_shape hs, per_shape hs, with_map_bit lay k g m count total hg k' hyg (by omega)]
  obtain ⟨hn,hng,hni⟩ := number_place lay hg hi
  by_cases h : k' = k ∧ (y-base v k')/per v k' = g
  · obtain ⟨rfl,rfl⟩ := h
    rw [if_pos ⟨rfl,rfl⟩, hm]
    congr 1
    rw [decide_eq_decide]
    constructor
    · intro he
      exact ⟨rfl,number_inj hy hn hng.symm (by rw [hni, he])⟩
    · rintro ⟨-,he⟩
      rw [he, hni]
  · rw [if_neg h, decide_eq_false, hf]
    rintro ⟨rfl,rfl⟩
    exact h ⟨rfl,hng⟩

end

theorem take_taken {v : Volume} (lay : Layout v) {k : Kind} {g i : ℕ} (hg : g < v.numBlockGroups)
    (hi : i < per v k) (hclear : bit v k g i = false) :
    Taken v (takeBit v (pool k) g i) k (number v k g i) := by
  obtain ⟨hn,hng,hni⟩ := number_place lay hg hi
  refine ⟨hn,?_,?_,?_,?_,take_agree lay hg hi hclear⟩
  · unfold marked
    rw [hng, hni, hclear]
  · exact with_map_touch_kind lay k g _ _ _ hg
  · exact with_map_marked lay k g i _ _ _ hg hi (fun x y => x || y) (fun x => Bool.or_false x)
      (fun j => bit_set _ i j)
  · rw [take_bit_eq, with_map_total, if_pos rfl]

theorem release_freed {v : Volume} (lay : Layout v) (k : Kind) (x : ℕ) (hx : Numbered v k x) :
    Freed v (releaseBit v (pool k) ((x-base v k)/per v k) ((x-base v k) % per v k)) k x := by
  obtain ⟨hg,hi⟩ := numbered_place lay hx
  obtain ⟨hn,hng,hni⟩ := number_place lay hg hi
  have hxn : number v k ((x-base v k)/per v k) ((x-base v k) % per v k) = x :=
    number_inj hn hx hng hni
  refine ⟨?_,?_,fun ha => release_agree_iff lay hg hi ha⟩
  · rw [release_bit_eq v k _ _ hg]
    exact with_map_touch_kind lay k _ _ _ _ hg
  · rw [release_bit_eq v k _ _ hg]
    have h := with_map_marked lay k _ _ _ (freeCount v (pool k) ((x-base v k)/per v k)+1)
      (freeTotal v (pool k)+1) hg hi (fun x y => x && !y) (fun x => Bool.and_true x) (fun j => bit_clear _ _ j)
    rw [hxn] at h
    exact h

theorem find_clear_some {v : Volume} {k : Kind} {g i : ℕ} (h : findClear v (pool k) = some (g,i)) :
    g < v.numBlockGroups ∧ i < per v k ∧ bit v k g i = false := by
  obtain ⟨g',hg',hf⟩ := List.exists_of_findSome?_eq_some h
  split_ifs at hf with hc
  obtain ⟨i',hi',heq⟩ := Option.map_eq_some_iff.mp hf
  obtain ⟨rfl,rfl⟩ := Prod.mk.inj heq
  refine ⟨List.mem_range.mp hg',List.mem_range.mp (List.mem_of_find?_eq_some hi'),?_⟩
  simpa [bit] using List.find?_some hi'

theorem find_clear_none {v : Volume} (k : Kind) (ha : Agree v) :
    findClear v (pool k) = none ↔ freeTotal v (pool k) = 0 := by
  rw [ha.total, Finset.sum_eq_zero_iff, findClear, List.findSome?_eq_none_iff]
  refine forall_congr' fun g => ?_
  rw [List.mem_range, Finset.mem_range]
  refine imp_congr_right fun hg => ?_
  rw [ha.count k g hg]
  split_ifs with h0
  · simp [h0]
  · simp only [h0, iff_false]
    rw [Option.map_eq_none_iff, firstClear, List.find?_eq_none]
    intro hall
    apply h0
    rw [clearBits, Finset.card_eq_zero, Finset.filter_eq_empty_iff]
    intro i hi hbit
    have := hall i (List.mem_range.mpr (Finset.mem_range.mp hi))
    rw [bit] at hbit
    simp [hbit] at this

def alloc : Volume × ℕ :=
  match findClear v (pool k) with
  | none => (v,0)
  | some (g,i) => (takeBit v (pool k) g i,number v k g i)

theorem alloc_cases {v : Volume} (lay : Layout v) (k : Kind) :
    (findClear v (pool k) = none ∧ alloc v k = (v,0)) ∨ Taken v (alloc v k).1 k (alloc v k).2 := by
  unfold alloc
  cases hf : findClear v (pool k) with
  | none => exact .inl ⟨rfl,rfl⟩
  | some r =>
    obtain ⟨hg,hi,hclear⟩ := find_clear_some hf
    exact .inr (take_taken lay hg hi hclear)

theorem alloc_block_eq {v : Volume} (lay : Layout v) : ext2AllocBlock v = alloc v .block := by
  unfold ext2AllocBlock alloc
  change (match findClear v (pool .block) with | none => _ | some (g,i) => _) = _
  cases hf : findClear v (pool .block) with
  | none => rfl
  | some r =>
    obtain ⟨hg,hi,-⟩ := find_clear_some hf
    have hlt := numbered_lt lay (number_place lay hg hi).1
    have hno : blockNo v r.1 r.2 = number v .block r.1 r.2 := by
      have hb : number v .block r.1 r.2 = sFirstDataBlock v+(r.1*sBlocksPerGroup v+r.2) := rfl
      unfold blockNo
      omega
    exact congrArg (Prod.mk _) hno

theorem alloc_inode_eq {v : Volume} (lay : Layout v) : ext2AllocInode v = alloc v .inode := by
  unfold ext2AllocInode alloc
  change (match findClear v (pool .inode) with | none => _ | some (g,i) => _) = _
  cases hf : findClear v (pool .inode) with
  | none => rfl
  | some r =>
    obtain ⟨hg,hi,-⟩ := find_clear_some hf
    have hlt := numbered_lt lay (number_place lay hg hi).1
    have hno : inodeNo v r.1 r.2 = number v .inode r.1 r.2 := by
      have hb : number v .inode r.1 r.2 = 1+(r.1*sInodesPerGroup v+r.2) := rfl
      unfold inodeNo
      omega
    exact congrArg (Prod.mk _) hno

theorem free_block_freed {v : Volume} (lay : Layout v) {b : ℕ} (h0 : b ≠ 0) (hb : InRange v b) :
    Freed v (ext2FreeBlock v b) .block b := by
  have hlt := (in_range_lt lay b hb).2
  have hadj : adjusted v b = b-sFirstDataBlock v := by
    have := hb.1
    unfold adjusted
    omega
  unfold ext2FreeBlock
  rw [if_neg h0, hadj]
  exact release_freed lay .block b hb

theorem free_inode_freed {v : Volume} (lay : Layout v) {ino : ℕ} (h : ValidIno v ino) :
    Freed v (ext2FreeInode v ino) .inode ino := by
  unfold ext2FreeInode
  rw [if_neg (by have := h.1; omega)]
  exact release_freed lay .inode ino ((numbered_inode v ino).mpr h)

end HobbyOS.VolumeMaps
