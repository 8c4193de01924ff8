import HobbyOS.VolumeCalls
import HobbyOS.VolumeCheck

/-!
# Free counts over whole runs

The counters of free blocks and inodes agree with the bitmaps as long as no
call works on an entry whose inode is not allocated. Such entries come from
`ext2_rename`, which cuts long names: a file gets two entries with one link,
and freeing it twice counts its number twice.
-/

namespace HobbyOS.FreeCounts
open ByteStore Ext2 VolumeLayout VolumeMaps FileWrite VolumeSteps
  VolumeCalls VolumeCheck

inductive Call where
  | create (parent : ℕ) (name : Name) (mode : ℕ)
  | mkdir (parent : ℕ) (name : Name)
  | write (ino offset size : ℕ) (buf : Store)
  | unlink (parent : ℕ) (name : Name)
  | rename (oldPath newPath : Name)

def step (v : Volume) : Call → Option Volume
  | .create parent name mode => (ext2Create v parent name mode).map Prod.fst
  | .mkdir parent name => (ext2Mkdir v parent name).map Prod.fst
  | .write ino offset size buf =>
    match ext2ReadInode v ino with
    | none => some v
    | some n => some (ext2WriteFile v ino n offset size buf).1
  | .unlink parent name => (ext2Unlink v parent name).map Prod.fst
  | .rename oldPath newPath => (ext2Rename v oldPath newPath).map Prod.fst

/-- Directories and files that a call is given are allocated, and so is the
inode of an entry that it takes away. -/
def Sound (v : Volume) : Call → Prop
  | .create parent _ _ => Live v parent
  | .mkdir parent _ => Live v parent
  | .write ino _ _ _ => Live v ino
  | .unlink parent name => Live v parent ∧ EntryLive v parent name
  | .rename oldPath newPath => ∀ oldDir newDir, ext2PathLookup v (ext2PathSplit oldPath).1 = some oldDir →
    ext2PathLookup v (ext2PathSplit newPath).1 = some newDir → oldDir ≠ 0 → newDir ≠ 0 →
    RenameSound v oldPath newPath oldDir newDir

inductive SoundRun : Volume → Volume → Prop
  | start (v : Volume) : SoundRun v v
  | call (v u w : Volume) (c : Call) (hr : SoundRun v u) (hs : Sound u c) (h : step u c = some w) : SoundRun v w

theorem gone_holds {v w : Volume} {parent : ℕ} {name : Name} (h : Gone v w parent name) :
    ∃ S, Holds v w S S := by
  rcases h with hall | ⟨ino,-,-,-,hrest⟩
  · exact ⟨_,hall⟩
  · exact ⟨_,hrest⟩

theorem born_holds {v w : Volume} {ino : ℕ} (h : Born v w ino) : ∃ S, Holds v w S S := by
  rcases h with ⟨-,hall⟩ | ⟨-,-,hmore⟩
  · exact ⟨_,hall⟩
  · exact ⟨_,hmore⟩

theorem step_holds {v w : Volume} (hc : Consistent v) {c : Call} (hs : Sound v c) (h : step v c = some w) :
    ∃ S, Holds v w S S := by
  cases c with
  | create parent name mode =>
    obtain ⟨⟨u,ino⟩,hu,rfl⟩ := Option.map_eq_some_iff.mp h
    exact born_holds (create_born hc hs hu)
  | mkdir parent name =>
    obtain ⟨⟨u,ino⟩,hu,rfl⟩ := Option.map_eq_some_iff.mp h
    exact born_holds (mkdir_born hc hs hu)
  | write ino offset size buf =>
    have hlive : Live v ino := hs
    rw [step, read_inode_eq hc.layout.mounted ino (by have := hlive.1.1; omega)] at h
    obtain rfl := Option.some.inj h
    exact ⟨_,holds_wrote (holds_start hc) (write_file_wrote hc hs offset size buf)⟩
  | unlink parent name =>
    obtain ⟨⟨u,ok⟩,hu,rfl⟩ := Option.map_eq_some_iff.mp h
    exact gone_holds (unlink_gone hc hs.1 hs.2 hu)
  | rename oldPath newPath =>
    obtain ⟨⟨u,ok⟩,hu,rfl⟩ := Option.map_eq_some_iff.mp h
    rcases rename_gone hc hs hu with hall | ⟨newDir,-,hgone⟩
    · exact ⟨_,hall⟩
    · exact gone_holds hgone

theorem run_holds {v w : Volume} (hc : Consistent v) (h : SoundRun v w) :
    Consistent w ∧ SameShape v w ∧ (Agree v → Agree w) := by
  induction h with
  | start => exact ⟨hc,shape_refl v,id⟩
  | call u w c hr hs hstep ih =>
    obtain ⟨hu,hshape,hagree⟩ := ih
    obtain ⟨S,hw⟩ := step_holds hu hs hstep
    exact ⟨(holds_end hw).1,shape_trans hshape hw.shape,fun ha => hw.agree (hagree ha)⟩

def HandsOutFree (v : Volume) : Prop :=
  ((ext2AllocBlock v).2 ≠ 0 → used v (ext2AllocBlock v).2 = false) ∧
    ((ext2AllocInode v).2 ≠ 0 → marked v .inode (ext2AllocInode v).2 = false)

theorem hands_out_free {v : Volume} (lay : Layout v) : HandsOutFree v := by
  have hkind : ∀ k, (alloc v k).2 ≠ 0 → marked v k (alloc v k).2 = false := by
    intro k h0
    rcases alloc_cases lay k with ⟨-,heq⟩ | ht
    · rw [heq] at h0
      exact absurd rfl h0
    · exact ht.clear
  unfold HandsOutFree
  rw [alloc_block_eq lay, alloc_inode_eq lay]
  exact ⟨hkind .block,hkind .inode⟩

/-- In a run of sound calls the counts agree in every state, and whatever an
allocator hands out, then or in the course of a call, was free. -/
theorem free_counts_agree (v w : Volume) (hc : Consistent v) (ha : Agree v) (hr : SoundRun v w) :
    Agree w ∧ ∀ u, SameShape w u → HandsOutFree u := by
  obtain ⟨hw,-,hagree⟩ := run_holds hc hr
  exact ⟨hagree ha,fun u hu => hands_out_free (shape_layout hu hw.layout)⟩

def longName (n : ℕ) : Name := List.replicate n 97

/-- A full volume: the names of inodes 3 and 4 are 128 and 127 times the same
letter, inode 5 has two long names. -/
def fullRoot : Volume :=
  small 6 [zeros,fileInode 0x41ED 2 1024 [6],fileInode 0x81A4 1 0 [],fileInode 0x81A4 1 0 [],fileInode 0x81A4 2 0 []]
    [putEntry (putEntry (putEntry (putEntry (putEntry (putEntry zeros 0 2 12 [dot] ext2FtDir) 12 2 12 [dot,dot] ext2FtDir)
      24 3 136 (longName 128) ext2FtRegFile) 160 4 136 (longName 127) ext2FtRegFile)
      296 5 264 (98::longName 254) ext2FtRegFile) 560 5 464 (99::longName 254) ext2FtRegFile]

theorem full_root_checked : checked fullRoot = true ∧ countsChecked fullRoot = true ∧
    (2 ∈ liveInodes fullRoot ∧ 3 ∈ liveInodes fullRoot) ∧ ext2Lookup fullRoot 2 (longName 128) = some 3 ∧
    (step fullRoot (.unlink 2 (longName 128))).isSome = true := by
  decide +kernel

theorem full_root_consistent : Consistent fullRoot := check_consistent _ full_root_checked.1

theorem full_root_agree : Agree fullRoot := check_agree _ full_root_checked.2.1

/-- A link to the long name goes: a sound call. -/
theorem full_root_unlinked :
    ∃ w, step fullRoot (.unlink 2 (longName 128)) = some w ∧ Agree w := by
  obtain ⟨-,-,hlive,hlook,hstep⟩ := full_root_checked
  rw [mem_live_inodes, mem_live_inodes] at hlive
  obtain ⟨w,hw⟩ := Option.isSome_iff_exists.mp hstep
  refine ⟨w,hw,(free_counts_agree fullRoot w full_root_consistent full_root_agree
    (.call _ _ w (.unlink 2 (longName 128)) (.start _) ⟨hlive.1,fun ino hi _ => ?_⟩ hw)).1⟩
  obtain rfl : 3 = ino := Option.some.inj (hlook.symm.trans hi)
  exact hlive.2

/-- The file of the 128 letters is renamed, which takes the entry of the 127
letters away. Then the new name is unlinked, a file cannot be created for want
of room, and the old name is unlinked: inode 3 is freed a second time. -/
def doubleFree : List Call :=
  [.rename (slash::longName 128) [slash,122],.unlink 2 [122],.create 2 (100::longName 254) 0x81A4,
    .unlink 2 (longName 128)]

theorem counts_disagree :
    Consistent fullRoot ∧ Agree fullRoot ∧
      (doubleFree.foldlM step fullRoot).map (fun w => (freeCount w inodePool 0,clearBits w .inode 0)) = some (5,4) :=
  ⟨full_root_consistent,full_root_agree,by decide +kernel⟩

end HobbyOS.FreeCounts
