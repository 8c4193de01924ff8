import HobbyOS.FileIsolation

/-!
# The block map of a file

`ext2_set_block` enters a block under an index and leaves every other index
alone, also where it has to make the indirect block first.
-/

namespace HobbyOS.BlockMap
open Ext2 VolumeLayout FileBlocks FileWrite FileIsolation

variable {v0 v w : Volume} {A idx b : ℕ} {n n' : Inode}

theorem set_block_slots (h : Work v0 A v n) (hA : A ∈ Files v0) (hb : b < 2^32)
    (hset : ext2SetBlock v n idx b = (w,n',true)) : SameShape v w ∧ ∃ t, slotOf v idx = some t ∧
      ∀ s, Valid v s → s ≠ .indirect → blockAt w n' s = if s = t then b else blockAt v n s := by
  unfold ext2SetBlock at hset
  split_ifs at hset with h1 h2
  · cases hset
    exact ⟨shape_refl v,.direct idx,if_pos h1,fun s _ _ => block_at_direct v n idx b h1 hb s⟩
  · have hslot : slotOf v idx = some (.leaf (idx-12)) := by
      unfold slotOf
      rw [if_neg h1, if_pos h2]
    rcases indirect_block_cases h hA with ⟨-,-,heq⟩ | ⟨u,n1,heq,hwork,h0,-,-,-,hsame,-⟩
    · rw [heq] at hset
      cases hset
    · rw [heq] at hset
      cases hset
      have hself := inodes_with_self v0 A n'
      have hleaf := (leaf_slots hwork.good b hb (idx-12) hA (by rw [hself]; exact h0)).2
      rw [hself] at hleaf
      have hshape := shape_trans (shape_symm h.touch.shape) hwork.touch.shape
      refine ⟨shape_trans hshape (write_shape _ _ _),_,hslot,fun s hs hne => ?_⟩
      rw [hleaf s ((valid_shape hshape s).mpr hs), hsame s hs hne]
  · cases hset

/-- For every file of a consistent volume, also in the middle of a write. -/
theorem block_map (h : Work v0 A v n) (hA : A ∈ Files v0) (hb : b < 2^32)
    (hset : ext2SetBlock v n idx b = (w,n',true)) (j : ℕ) :
    ext2GetBlock w n' j = if j = idx then b else ext2GetBlock v n j := by
  obtain ⟨hshape,t,ht,hslots⟩ := set_block_slots h hA hb hset
  rw [get_block_eq, get_block_eq, slot_shape hshape]
  cases hj : slotOf v j with
  | none =>
    have hne : j ≠ idx := by
      rintro rfl
      rw [ht] at hj
      cases hj
    rw [if_neg hne]
    rfl
  | some s =>
    obtain ⟨hs,hp⟩ := slot_valid v j s hj
    change blockAt w n' s = _
    rw [hslots s hs (by rintro rfl; exact hp trivial)]
    by_cases heq : j = idx
    · rw [heq, ht] at hj
      rw [if_pos (Option.some.inj hj).symm, if_pos heq]
    · rw [if_neg heq, if_neg (by rintro rfl; exact heq (slot_inj v j idx s hj ht))]
      rfl

theorem block_map_file : ext2GetBlock rootWithFile (setBlock (inodeOf rootWithFile 3) 4 9) 4 = 9 := by
  have hset : ext2SetBlock rootWithFile (inodeOf rootWithFile 3) 4 9 =
    (rootWithFile,setBlock (inodeOf rootWithFile 3) 4 9,true) := rfl
  exact block_map (work_start root_with_file_consistent 3) root_with_file_live.2 (by decide) hset 4

end HobbyOS.BlockMap
