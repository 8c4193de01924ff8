import HobbyOS.FileCalls
import HobbyOS.FileIsolation
import HobbyOS.FreeCounts

/-!
# A descriptor and the file it was opened for

A descriptor keeps an inode number. As long as the file has a name the number
is taken, and no file made later can get it. `ext2_unlink` of the last name
frees the number at once, and the next file made gets it.
-/

namespace HobbyOS.DescriptorIdentity
open Ext2 VolumeLayout VolumeMaps FileWrite
  VolumeSteps VolumeCalls VolumeCheck FileIsolation FreeCounts FileCalls

def Makes (v : Volume) (c : Call) (g : ℕ) : Prop :=
  g ≠ 0 ∧ match c with
    | .create parent name mode => ∃ w, ext2Create v parent name mode = some (w,g)
    | .mkdir parent name => ∃ w, ext2Mkdir v parent name = some (w,g)
    | _ => False

def KeepsName (v : Volume) (ino : ℕ) : Call → Prop
  | .unlink parent name => ext2Lookup v parent name = some ino → iLinksCount (inodeOf v ino) ≠ 1
  | .rename _ newPath => ∀ newDir, ext2PathLookup v (ext2PathSplit newPath).1 = some newDir →
    ext2Lookup v newDir (ext2PathSplit newPath).2 = some ino → iLinksCount (inodeOf v ino) ≠ 1
  | _ => True

/-- From the open in `v` sound calls lead to `w`, none of which takes the last
name of `ino`; `B` are the numbers of the files made on the way. -/
inductive NamedRun (ino : ℕ) (v : Volume) : Volume → Set ℕ → Prop
  | start : NamedRun ino v v ∅
  | call (u w : Volume) (B : Set ℕ) (c : Call) (hr : NamedRun ino v u B) (hs : Sound u c) (hk : KeepsName u ino c)
    (h : step u c = some w) : NamedRun ino v w (B ∪ {g | Makes u c g})

/-- Reads through the descriptor see no block of file `g`, and writes leave its
inode, with its size, and its bytes. -/
structure ActsApart (v : Volume) (fd : Fd) (g : ℕ) : Prop where
  other : g ≠ fd.ino
  reads : ∀ n m, ext2ReadInode v fd.ino = some n → ext2ReadInode v g = some m → ∀ i j, ext2GetBlock v n i ≠ 0 →
    ext2GetBlock v n i ≠ ext2GetBlock v m j
  writes : ∀ len buf, Unchanged v (sysWrite v fd len buf).1 g

theorem acts_apart {v : Volume} (hc : Consistent v) (fd : Fd) (hf : Live v fd.ino) (g : ℕ) (hg : Live v g)
    (hne : g ≠ fd.ino) : ActsApart v fd g := by
  have hm := hc.layout.mounted
  have hfd := read_inode_eq hm fd.ino (by have := hf.1.1; omega)
  have hgi := read_inode_eq hm g (by have := hg.1.1; omega)
  refine ⟨hne,fun n m hn hm i j h0 heq => ?_,fun len buf => ?_⟩
  · obtain rfl : inodeOf v fd.ino = n := Option.some.inj (hfd.symm.trans hn)
    obtain rfl : inodeOf v g = m := Option.some.inj (hgi.symm.trans hm)
    rw [get_block_eq] at h0 heq
    rw [get_block_eq] at heq
    cases hi : slotOf v i with
    | none => simp [hi] at h0
    | some s =>
      cases hj : slotOf v j with
      | none =>
        simp only [hi, hj] at h0 heq
        exact h0 heq
      | some t =>
        rw [hi] at h0 heq
        rw [hj] at heq
        exact hne (hc.once fd.ino hf g hg s t (slot_valid v i s hi).1 (slot_valid v j t hj).1 h0 heq).1.symm
  · unfold sysWrite
    rw [hfd]
    exact wrote_unchanged hc hf hg hne (write_file_wrote hc hf fd.offset len buf)

/-- A sound call that keeps a name of `ino` keeps it allocated, and makes no
file with its number. -/
theorem step_keeps {v w : Volume} (hc : Consistent v) {ino : ℕ} (hi : Live v ino) {c : Call} (hs : Sound v c)
    (hk : KeepsName v ino c) (h : step v c = some w) :
    (Consistent w ∧ Live w ino) ∧ ∀ g, Makes v c g → g ≠ ino := by
  have hborn : ∀ {u : Volume} {x : ℕ}, Born v u x → (Consistent u ∧ Live u ino) ∧ (x ≠ 0 → x ≠ ino) := by
    rintro u x (⟨rfl,hall⟩ | ⟨-,hnew,hmore⟩)
    · exact ⟨⟨(holds_end hall).1,(hall.live ino).mpr hi⟩,fun h0 => absurd rfl h0⟩
    · exact ⟨⟨(holds_end hmore).1,(hmore.live ino).mpr (Set.mem_insert_of_mem _ hi)⟩,
        fun _ heq => hnew (heq ▸ hi)⟩
  have hgone : ∀ {u : Volume} {parent : ℕ} {name : Name}, Gone v u parent name →
      (ext2Lookup v parent name = some ino → iLinksCount (inodeOf v ino) ≠ 1) → Consistent u ∧ Live u ino := by
    rintro u parent name (hall | ⟨x,-,hlook,hlast,hrest⟩) hkeep
    · exact ⟨(holds_end hall).1,(hall.live ino).mpr hi⟩
    · refine ⟨(holds_end hrest).1,(hrest.live ino).mpr ⟨hi,fun heq => ?_⟩⟩
      obtain rfl : ino = x := heq
      exact hkeep hlook hlast
  cases c with
  | create parent name mode =>
    obtain ⟨⟨u,x⟩,hu,rfl⟩ := Option.map_eq_some_iff.mp h
    obtain ⟨hw,hx⟩ := hborn (create_born hc hs hu)
    refine ⟨hw,fun g hg => ?_⟩
    obtain ⟨h0,u',hu'⟩ := hg
    obtain ⟨-,rfl⟩ := Prod.mk.inj (Option.some.inj (hu.symm.trans hu'))
    exact hx h0
  | mkdir parent name =>
    obtain ⟨⟨u,x⟩,hu,rfl⟩ := Option.map_eq_some_iff.mp h
    obtain ⟨hw,hx⟩ := hborn (mkdir_born hc hs hu)
    refine ⟨hw,fun g hg => ?_⟩
    obtain ⟨h0,u',hu'⟩ := hg
    obtain ⟨-,rfl⟩ := Prod.mk.inj (Option.some.inj (hu.symm.trans hu'))
    exact hx h0
  | write x offset size buf =>
    have hlive : Live v x := hs
    rw [step, read_inode_eq hc.layout.mounted x (by have := hlive.1.1; omega)] at h
    obtain rfl := Option.some.inj h
    have hw := write_file_wrote hc hs offset size buf
    exact ⟨⟨hw.consistent,(hw.live ino).mpr hi⟩,fun _ hg => hg.2.elim⟩
  | unlink parent name =>
    obtain ⟨⟨u,ok⟩,hu,rfl⟩ := Option.map_eq_some_iff.mp h
    exact ⟨hgone (unlink_gone hc hs.1 hs.2 hu) hk,fun _ hg => hg.2.elim⟩
  | rename oldPath newPath =>
    obtain ⟨⟨u,ok⟩,hu,rfl⟩ := Option.map_eq_some_iff.mp h
    refine ⟨?_,fun _ hg => hg.2.elim⟩
    rcases rename_gone hc hs hu with hall | ⟨newDir,hnd,hg⟩
    · exact ⟨(holds_end hall).1,(hall.live ino).mpr hi⟩
    · exact hgone hg (hk newDir hnd)

theorem run_keeps {v w : Volume} {B : Set ℕ} (hc : Consistent v) {ino : ℕ} (hi : Live v ino)
    (h : NamedRun ino v w B) : (Consistent w ∧ Live w ino) ∧ ∀ g ∈ B, g ≠ ino := by
  induction h with
  | start => exact ⟨⟨hc,hi⟩,fun g hg => hg.elim⟩
  | call u w B c hr hs hk hstep ih =>
    obtain ⟨⟨hu,hlive⟩,hB⟩ := ih
    obtain ⟨hw,hmade⟩ := step_keeps hu hlive hs hk hstep
    refine ⟨hw,fun g hg => ?_⟩
    rcases hg with hg | hg
    · exact hB g hg
    · exact hmade g hg

/-- While the file keeps a name, its descriptor acts on no file made after the open. -/
theorem descriptor_keeps_file (v : Volume) (hc : Consistent v) (fd : Fd) (hf : Live v fd.ino) (w : Volume) (B : Set ℕ)
    (hr : NamedRun fd.ino v w B) (offset : ℕ) (g : ℕ) (hg : g ∈ B) (hlive : Live w g) :
    ActsApart w ⟨fd.ino,offset⟩ g := by
  obtain ⟨⟨hw,hfd⟩,hne⟩ := run_keeps hc hf hr
  exact acts_apart hw ⟨fd.ino,offset⟩ hfd g hlive (hne g hg)

/-- A file `g` is made while `f` is open. -/
theorem descriptor_of_file_apart :
    ∃ w, step rootWithFile (.create 2 [103] 0x81A4) = some w ∧ ActsApart w ⟨3,0⟩ 4 := by
  obtain ⟨w,hw⟩ := Option.isSome_iff_exists.mp
    (show (ext2Create rootWithFile 2 [103] 0x81A4).isSome = true by decide +kernel)
  have hino : (ext2Create rootWithFile 2 [103] 0x81A4).map Prod.snd = some 4 := by decide +kernel
  have hw4 : w.2 = 4 := by
    rw [hw] at hino
    exact Option.some.inj hino
  have hcall : ext2Create rootWithFile 2 [103] 0x81A4 = some (w.1,4) := by
    rw [hw, ← hw4]
  have hstep : step rootWithFile (.create 2 [103] 0x81A4) = some w.1 := by
    rw [step, hcall]
    rfl
  have hlive : Live w.1 4 := by
    rcases create_born root_with_file_consistent root_with_file_live.1 hcall with
      ⟨h0,-⟩ | ⟨-,-,hmore⟩
    · cases h0
    · exact (hmore.live 4).mpr (Set.mem_insert _ _)
  exact ⟨w.1,hstep,descriptor_keeps_file rootWithFile root_with_file_consistent ⟨3,0⟩ root_with_file_live.2 w.1 _
    (.call _ _ _ (.create 2 [103] 0x81A4) .start root_with_file_live.1 trivial hstep) 0 4
    (.inr ⟨by decide,w.1,hcall⟩) hlive⟩

/-- `f` is opened and unlinked, `g` is made, and a byte is written through the
descriptor of `f`: `g` has inode 3 and is one byte long then. -/
theorem descriptor_writes_new_file :
    Consistent rootWithFile ∧
      (sysOpen rootWithFile ⟨1,1,1,1⟩ [slash,102] 0 true).map Prod.snd = some (some ⟨3,0⟩) ∧
      ((sysOpen rootWithFile ⟨1,1,1,1⟩ [slash,102] 0 true).bind fun o =>
        (ext2Unlink o.1 2 [102]).bind fun r =>
          (ext2Create r.1 2 [103] 0x81A4).map fun s =>
            (s.2,(ext2ReadInode s.1 3).map iSize,
              (ext2ReadInode (sysWrite s.1 ⟨3,0⟩ 1 zeros).1 3).map iSize)) = some (3,some 0,some 1) :=
  ⟨root_with_file_consistent,by decide +kernel,by decide +kernel⟩

end HobbyOS.DescriptorIdentity
