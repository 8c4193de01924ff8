import HobbyOS.Ext2

/-!
# What `ext2_flush_metadata` changes on the disk

The superblock takes 1024 bytes on the disk and 204 in memory. The rest is
written as zeros, so that it survives only if it was zero before.
-/

namespace HobbyOS.MetadataFlush
open ByteStore Ext2 Function

variable (v : Volume)

def area (j : ℕ) : UInt8 := v.disk (1024/v.blockSize) (1024 % v.blockSize+j)

def tableSize : ℕ := min (v.numBlockGroups*32) v.blockSize

def IsTotal (j : ℕ) : Prop := 12 ≤ j ∧ j < 20

def IsCount (i : ℕ) : Prop := 12 ≤ i % 32 ∧ i % 32 < 18

/-- `ext2_init` has copied superblock and first block of descriptors, and only
counters have changed in memory since. -/
structure Mounted : Prop where
  size : v.blockSize = 1024 ∨ v.blockSize = 2048 ∨ v.blockSize = 4096
  super : ∀ j < 204, ¬IsTotal j → v.sb j = area v j
  table : ∀ i < tableSize v, ¬IsCount i → v.bgdt i = v.disk (bgdtBlock v) i

theorem mounted_counts (h : Mounted v) (p : Pool) (hp : p = blockPool ∨ p = inodePool) (g count total : ℕ) :
    Mounted (setCounts v p g count total) where
  size := h.size
  super j hj ht := by
    refine Eq.trans ?_ (h.super j hj ht)
    unfold IsTotal at ht
    rcases hp with rfl | rfl <;> exact if_neg (by dsimp only [blockPool, inodePool]; omega)
  table i hi hc := by
    refine Eq.trans ?_ (h.table i hi hc)
    unfold IsCount at hc
    rcases hp with rfl | rfl <;> exact if_neg (by dsimp only [blockPool, inodePool]; omega)

theorem super_apart (h : Mounted v) : 1024/v.blockSize ≠ bgdtBlock v := by
  unfold bgdtBlock
  rcases h.size with hs | hs | hs <;> rw [hs] <;> decide

theorem flush_byte (h : Mounted v) (b i : ℕ) (hi : i < v.blockSize) : (ext2FlushMetadata v).disk b i =
    if b = bgdtBlock v then if i < tableSize v then v.bgdt i else v.disk b i
    else if b = 1024/v.blockSize ∧ 1024 % v.blockSize ≤ i ∧ i < 1024 % v.blockSize+1024 then
      if i-1024 % v.blockSize < 204 then v.sb (i-1024 % v.blockSize) else 0
    else v.disk b i := by
  have hdb : diskBlock (writeSuperblock v) (bgdtBlock (writeSuperblock v)) = bgdtBlock v := by
    change bgdtBlock v % (2^28/(v.blockSize/512)) = bgdtBlock v
    unfold bgdtBlock
    rcases h.size with hs | hs | hs <;> rw [hs] <;> decide
  have hsuper : ∀ b, b ≠ 1024/v.blockSize → (writeSuperblock v).disk b = v.disk b :=
    fun b hb => update_of_ne hb ..
  rw [ext2FlushMetadata, ext2WriteBlock]
  dsimp only
  rw [hdb]
  by_cases hb : b = bgdtBlock v
  · subst hb
    rw [update_self, if_pos rfl, copy, ext2ReadBlock, hdb, hsuper _ (super_apart v h).symm]
    change (if 0 ≤ i ∧ i < 0+tableSize v then v.bgdt (0+(i-0)) else if i < v.blockSize then _ else _) = _
    simp only [Nat.zero_le, true_and, Nat.zero_add, Nat.sub_zero, if_pos hi]
  · rw [update_of_ne hb, if_neg hb]
    by_cases hs : b = 1024/v.blockSize
    · subst hs
      rw [writeSuperblock]
      dsimp only
      rw [update_self, copy, copy]
      simp only [true_and, Nat.zero_le, Nat.zero_add, Nat.sub_zero]
      rfl
    · rw [hsuper b hs, if_neg fun hx => hs hx.1]

def Frame : Prop :=
  ∀ b i, i < v.blockSize → (ext2FlushMetadata v).disk b i ≠ v.disk b i →
    (∃ j, IsTotal j ∧ b = 1024/v.blockSize ∧ i = 1024 % v.blockSize+j) ∨
    (b = bgdtBlock v ∧ i < tableSize v ∧ IsCount i)

/-- Counters and descriptors on the disk get the values in memory; nothing
else changes exactly if the superblock is zero past the fields kept in
memory. -/
theorem flush_frame_iff (h : Mounted v) :
    (∀ j, IsTotal j → area (ext2FlushMetadata v) j = v.sb j) ∧
    (∀ i < tableSize v, (ext2FlushMetadata v).disk (bgdtBlock v) i = v.bgdt i) ∧
    (Frame v ↔ ∀ j, 204 ≤ j → j < 1024 → area v j = 0) := by
  have hne := super_apart v h
  have hfit : 1024 % v.blockSize+1024 ≤ v.blockSize := by
    rcases h.size with hs | hs | hs <;> rw [hs]
    decide
  have harea : ∀ j < 1024, area (ext2FlushMetadata v) j = if j < 204 then v.sb j else 0 := by
    intro j hj
    change (ext2FlushMetadata v).disk (1024/v.blockSize) (1024 % v.blockSize+j) = _
    rw [flush_byte v h _ _ (by omega), if_neg hne, if_pos ⟨rfl,by omega,by omega⟩, Nat.add_sub_cancel_left]
  refine ⟨fun j hj => ?_,fun i hi => ?_,fun hf j hlo hhi => ?_,fun hz b i hi hch => ?_⟩
  · rw [harea j (hj.2.trans (by decide)), if_pos (hj.2.trans (by decide))]
  · rw [flush_byte v h _ _ (lt_of_lt_of_le hi (min_le_right _ _)), if_pos rfl, if_pos hi]
  · by_contra hnz
    have hnew := harea j hhi
    rw [if_neg (by omega)] at hnew
    rcases hf _ (1024 % v.blockSize+j) (by omega) (fun heq => hnz (heq.symm.trans hnew)) with ⟨k,hk,-,he⟩ | ⟨hb,-⟩
    · unfold IsTotal at hk
      omega
    · exact hne hb
  · rw [flush_byte v h b i hi] at hch
    split_ifs at hch with hb ht hs hj
    · subst hb
      exact .inr ⟨rfl,ht,by_contra fun hc => hch (h.table i ht hc)⟩
    · exact absurd rfl hch
    · obtain ⟨rfl,hlo,-⟩ := hs
      refine .inl ⟨i-1024 % v.blockSize,by_contra fun hc => hch ?_,rfl,by omega⟩
      rw [h.super _ hj hc, area, Nat.add_sub_cancel' hlo]
    · obtain ⟨rfl,hlo,hhi⟩ := hs
      refine absurd ?_ hch
      rw [← hz (i-1024 % v.blockSize) (by omega) (by omega), area, Nat.add_sub_cancel' hlo]
    · exact absurd rfl hch

/-- A volume with default mount options in its superblock, at byte 256. -/
def optionsVolume : Volume :=
  ⟨true,fun b i => if b = 1 ∧ i = 256 then 1 else 0,zeros,zeros,1024,1,128⟩

theorem options_mounted : Mounted optionsVolume where
  size := .inl rfl
  super j hj _ := by
    have hne : j ≠ 256 := by omega
    simp [optionsVolume, area, zeros, hne]
  table _ _ _ := rfl

theorem options_cleared : Mounted optionsVolume ∧ area optionsVolume 256 = 1 ∧
    area (ext2FlushMetadata optionsVolume) 256 = 0 := ⟨options_mounted,by decide,by decide⟩

theorem flush_frame_iff_options : ¬Frame optionsVolume :=
  fun hf => absurd ((flush_frame_iff optionsVolume options_mounted).2.2.mp hf 256 (by decide) (by decide)) (by decide)

end HobbyOS.MetadataFlush
