import HobbyOS.VolumeCheck

/-!
# Writing one file leaves the others

On a consistent volume a write to inode `A` changes no other inode, no byte
that can be read from it and no entry of another directory. The entries of `A`
itself, when it is a directory, are bytes like any others.
-/

namespace HobbyOS.FileIsolation
open ByteStore Ext2 VolumeLayout VolumeMaps FileBlocks FileWrite
  VolumeCheck

/-- Inode `n` has the same blocks with the same bytes on both volumes. -/
structure SameFile (v w : Volume) (n : Inode) : Prop where
  blockSize : w.blockSize = v.blockSize
  block : ∀ idx, ext2GetBlock w n idx = ext2GetBlock v n idx
  read : ∀ idx, ext2GetBlock v n idx ≠ 0 → ext2ReadBlock w (ext2GetBlock v n idx) = ext2ReadBlock v (ext2GetBlock v n idx)

section
variable {v w : Volume} {n : Inode} (h : SameFile v w n)
include h

theorem read_file_from_same (offset size fuel done : ℕ) (buf : Store) :
    readFileFrom w n offset size fuel done buf = readFileFrom v n offset size fuel done buf := by
  induction fuel generalizing done buf with
  | zero => rfl
  | succ fuel ih =>
    unfold readFileFrom
    dsimp only
    rw [h.blockSize, h.block]
    split_ifs with hdone h0
    · rfl
    · exact ih _ _
    · rw [h.read _ h0]
      exact ih _ _

theorem read_file_same (offset size : ℕ) (buf : Store) :
    ext2ReadFile w n offset size buf = ext2ReadFile v n offset size buf := by
  unfold ext2ReadFile
  dsimp only
  rw [read_file_from_same h]

theorem dir_block_same {offset : ℕ} (h0 : ext2GetBlock v n (offset/v.blockSize) ≠ 0) :
    dirBlock w n offset = dirBlock v n offset := by
  rw [dirBlock, dirBlock, h.blockSize, h.block, h.read _ h0]

theorem lookup_from_same (name : Name) (fuel offset : ℕ) :
    lookupFrom w n name fuel offset = lookupFrom v n name fuel offset := by
  induction fuel generalizing offset with
  | zero => rfl
  | succ fuel ih =>
    unfold lookupFrom
    dsimp only
    rw [h.blockSize, h.block]
    by_cases h0 : ext2GetBlock v n (offset/v.blockSize) = 0
    · rw [if_pos h0, if_pos h0]
    · rw [dir_block_same h h0, ih]

end

theorem same_file_touch {v w : Volume} {T : ℕ → Prop} (hc : Consistent v) (ht : Touch v w T) {B : ℕ} (hB : Live v B)
    (hT : ∀ s, Valid v s → blockAt v (inodeOf v B) s ≠ 0 → ¬T (blockAt v (inodeOf v B) s)) :
    SameFile v w (inodeOf v B) := by
  have hslots := block_at_touch ht (inodeOf v B) fun s hs _ h0 => ⟨(hc.own B hB s hs h0).1,hT s hs h0⟩
  refine ⟨ht.shape.blockSize,fun idx => ?_,fun idx h0 => ?_⟩
  · rw [get_block_eq, get_block_eq, slot_shape ht.shape]
    cases hslot : slotOf v idx with
    | none => rfl
    | some s => exact hslots s (slot_valid v idx s hslot).1
  · rw [get_block_eq] at h0 ⊢
    cases hslot : slotOf v idx with
    | none => simp [hslot] at h0
    | some s =>
      rw [hslot] at h0
      have hs := (slot_valid v idx s hslot).1
      exact ht.read _ (hc.own B hB s hs h0).1 (hT s hs h0)

/-- The inode on disk, the bytes that can be read and the entries are those of before. -/
structure Unchanged (v w : Volume) (B : ℕ) : Prop where
  inode : ext2ReadInode w B = ext2ReadInode v B
  bytes : ∀ n, ext2ReadInode v B = some n → ∀ offset size buf,
    ext2ReadFile w n offset size buf = ext2ReadFile v n offset size buf
  records : ∀ n, ext2ReadInode v B = some n → ∀ offset, ext2GetBlock v n (offset/v.blockSize) ≠ 0 →
    ext2GetBlock w n (offset/v.blockSize) = ext2GetBlock v n (offset/v.blockSize) ∧ dirBlock w n offset = dirBlock v n offset
  entries : ∀ name, ext2Lookup w B name = ext2Lookup v B name

theorem unchanged_of {v w : Volume} {B : ℕ} (hB : B ≠ 0) (hm : v.mounted = true) (hm' : w.mounted = true)
    (hi : inodeOf w B = inodeOf v B) (h : SameFile v w (inodeOf v B)) : Unchanged v w B := by
  have hv := read_inode_eq hm B hB
  have hw := read_inode_eq hm' B hB
  rw [hi] at hw
  refine ⟨hw.trans hv.symm,fun n hn => ?_,fun n hn => ?_,fun name => ?_⟩
  · obtain rfl : inodeOf v B = n := by simpa [hv] using hn
    exact read_file_same h
  · obtain rfl : inodeOf v B = n := by simpa [hv] using hn
    exact fun offset h0 => ⟨h.block _,dir_block_same h h0⟩
  · unfold ext2Lookup
    rw [hv, hw]
    dsimp only
    rw [lookup_from_same h]

theorem footprint_not_other {v : Volume} (hc : Consistent v) {A B : ℕ} (hA : Live v A) (hB : Live v B) (hne : B ≠ A)
    (s : Slot) (hs : Valid v s) (h0 : blockAt v (inodeOf v B) s ≠ 0) :
    ¬Footprint v A (blockAt v (inodeOf v B) s) := by
  have hplain := (hc.own B hB s hs h0).2.2
  rintro (hscope | heq | heq | heq)
  · exact scope_not_other hc hA hB hne hs h0 hscope
  · exact hplain ⟨.super,trivial,heq.symm⟩
  · exact hplain ⟨.desc,trivial,heq.symm⟩
  · exact hplain ⟨_,inode_place_present hc.layout hA.1,heq.symm⟩

theorem wrote_unchanged {v w : Volume} (hc : Consistent v) {A B : ℕ} (hA : Live v A) (hB : Live v B) (hne : B ≠ A)
    (hw : Wrote v A w) : Unchanged v w B :=
  unchanged_of (by have := hB.1.1; omega) hc.layout.mounted hw.consistent.layout.mounted (hw.others B hB.1 hne)
    (same_file_touch hc hw.touch hB (footprint_not_other hc hA hB hne))

/-- A write through `ext2_write_file` to one inode leaves every other one. -/
theorem write_file_isolated (v : Volume) (hc : Consistent v) (A : ℕ) (hA : Live v A) (n : Inode)
    (hn : ext2ReadInode v A = some n) (offset size : ℕ) (buf : Store) (B : ℕ) (hB : Live v B) (hne : B ≠ A) :
    Unchanged v (ext2WriteFile v A n offset size buf).1 B := by
  obtain rfl : inodeOf v A = n := by
    have := read_inode_eq hc.layout.mounted A (by have := hA.1.1; omega)
    exact Option.some.inj (this.symm.trans hn)
  exact wrote_unchanged hc hA hB hne (write_file_wrote hc hA offset size buf)

def rootWithFile : Volume :=
  small 16 [zeros,fileInode 0x41ED 2 1024 [6],fileInode 0x81A4 1 0 []]
    [putEntry (putEntry (putEntry zeros 0 2 12 [dot] ext2FtDir) 12 2 12 [dot,dot] ext2FtDir) 24 3 1000 [102] ext2FtRegFile]

theorem root_with_file_consistent : Consistent rootWithFile := check_consistent _ (by decide +kernel)

theorem root_with_file_live : Live rootWithFile 2 ∧ Live rootWithFile 3 := by
  rw [← mem_live_inodes, ← mem_live_inodes]
  decide +kernel

/-- The file is not touched by a write to the root directory. -/
theorem file_isolated_from_root :
    Unchanged rootWithFile (ext2WriteFile rootWithFile 2 (inodeOf rootWithFile 2) 24 4 zeros).1 3 :=
  write_file_isolated rootWithFile root_with_file_consistent 2 root_with_file_live.1 _
    (read_inode_eq rfl 2 (by decide)) 24 4 zeros 3 root_with_file_live.2 (by decide)

/-- A write to the root directory itself takes its entry away. -/
theorem directory_write_changes_entry :
    Consistent rootWithFile ∧ Live rootWithFile 2 ∧ ext2ReadInode rootWithFile 2 = some (inodeOf rootWithFile 2) ∧
      ext2Lookup rootWithFile 2 [102] = some 3 ∧
      ext2Lookup (ext2WriteFile rootWithFile 2 (inodeOf rootWithFile 2) 24 4 zeros).1 2 [102] = some 0 :=
  ⟨root_with_file_consistent,root_with_file_live.1,read_inode_eq rfl 2 (by decide),by decide +kernel,by decide +kernel⟩

end HobbyOS.FileIsolation
