import HobbyOS.VolumeMaps

/-!
# Which blocks belong to which file

An inode names its blocks through slots: twelve direct ones, one block of
pointers and one block of blocks of pointers. On a consistent volume every
block named is marked, is not metadata and is named once. This file has what
each kind of write does to that.
-/

namespace HobbyOS.FileBlocks
open ByteStore Ext2 VolumeLayout VolumeMaps Function

inductive Slot where
  | direct (k : ℕ)
  | indirect
  | leaf (j : ℕ)
  | double
  | middle (j : ℕ)
  | deep (i j : ℕ)
  deriving DecidableEq

def Valid (v : Volume) : Slot → Prop
  | .direct k => k < 12
  | .indirect => True
  | .leaf j => j < ptrsPerBlock v
  | .double => True
  | .middle j => j < ptrsPerBlock v
  | .deep i j => i < ptrsPerBlock v ∧ j < ptrsPerBlock v

def Pointers : Slot → Prop
  | .indirect => True
  | .double => True
  | .middle _ => True
  | _ => False

def blockAt (v : Volume) (n : Inode) : Slot → ℕ
  | .direct k => iBlock n k
  | .indirect => iBlock n 12
  | .leaf j => pointer v (iBlock n 12) j
  | .double => iBlock n 13
  | .middle j => pointer v (iBlock n 13) j
  | .deep i j => pointer v (pointer v (iBlock n 13) i) j

theorem valid_shape {v w : Volume} (h : SameShape v w) (s : Slot) : Valid w s ↔ Valid v s := by
  have hp : ptrsPerBlock w = ptrsPerBlock v := by rw [ptrsPerBlock, ptrsPerBlock, h.blockSize]
  cases s <;> simp only [Valid, hp]

theorem block_at_congr (v : Volume) (n n' : Inode) (h : ∀ k < 14, iBlock n' k = iBlock n k) (s : Slot)
    (hs : Valid v s) : blockAt v n' s = blockAt v n s := by
  cases s with
  | direct k =>
    have hk : k < 12 := hs
    exact h k (by omega)
  | indirect => exact h 12 (by omega)
  | leaf j => rw [blockAt, blockAt, h 12 (by omega)]
  | double => exact h 13 (by omega)
  | middle | deep => rw [blockAt, blockAt, h 13 (by omega)]

theorem pointer_touch {v w : Volume} {T : ℕ → Prop} (ht : Touch v w T) {b : ℕ} (i : ℕ)
    (hb : b ≠ 0 → InRange v b ∧ ¬T b) : pointer w b i = pointer v b i := by
  unfold pointer
  split_ifs with h0
  · rfl
  · rw [ht.read b (hb h0).1 (hb h0).2]

theorem block_at_touch {v w : Volume} {T : ℕ → Prop} (ht : Touch v w T) (n : Inode)
    (h : ∀ s, Valid v s → Pointers s → blockAt v n s ≠ 0 → InRange v (blockAt v n s) ∧ ¬T (blockAt v n s))
    (s : Slot) (hs : Valid v s) : blockAt w n s = blockAt v n s := by
  cases s with
  | direct | indirect => rfl
  | leaf j => exact pointer_touch ht j (h .indirect trivial trivial)
  | double => rfl
  | middle j => exact pointer_touch ht j (h .double trivial trivial)
  | deep i j =>
    have hm : pointer w (iBlock n 13) i = pointer v (iBlock n 13) i :=
      pointer_touch ht i (h .double trivial trivial)
    rw [blockAt, hm]
    exact pointer_touch ht j (h (.middle i) hs.1 trivial)

/-- The volume is in order for the files of `S`, whose inodes are those of `I`:
the ones on disk, or the copy in memory of a file that is being written. -/
structure Good (v : Volume) (S : Set ℕ) (I : ℕ → Inode) : Prop where
  layout : Layout v
  reserved : ∀ p, Present v p → used v (home v p) = true
  own : ∀ ino ∈ S, ∀ s, Valid v s → blockAt v (I ino) s ≠ 0 →
    InRange v (blockAt v (I ino) s) ∧ used v (blockAt v (I ino) s) = true ∧ ¬Meta v (blockAt v (I ino) s)
  once : ∀ ino ∈ S, ∀ ino' ∈ S, ∀ s s', Valid v s → Valid v s' → blockAt v (I ino) s ≠ 0 →
    blockAt v (I ino) s = blockAt v (I ino') s' → ino = ino' ∧ s = s'

def Unnamed (v : Volume) (S : Set ℕ) (I : ℕ → Inode) (b : ℕ) : Prop :=
  ∀ ino ∈ S, ∀ s, Valid v s → blockAt v (I ino) s ≠ b

structure Spare (v : Volume) (S : Set ℕ) (I : ℕ → Inode) (b : ℕ) : Prop where
  inRange : InRange v b
  marked : used v b = true
  plain : ¬Meta v b
  unnamed : Unnamed v S I b
  nonzero : b ≠ 0

theorem good_mono {v : Volume} {S S' : Set ℕ} {I : ℕ → Inode} (h : Good v S I) (hS : S' ⊆ S) : Good v S' I :=
  ⟨h.layout,h.reserved,fun ino hi => h.own ino (hS hi),fun ino hi ino' hi' => h.once ino (hS hi) ino' (hS hi')⟩

theorem good_congr {v : Volume} {S : Set ℕ} {I I' : ℕ → Inode} (h : Good v S I)
    (hI : ∀ ino ∈ S, ∀ s, Valid v s → blockAt v (I' ino) s = blockAt v (I ino) s) : Good v S I' where
  layout := h.layout
  reserved := h.reserved
  own := fun ino hi s hs h0 => by
    rw [hI ino hi s hs] at h0 ⊢
    exact h.own ino hi s hs h0
  once := fun ino hi ino' hi' s s' hs hs' h0 heq => by
    rw [hI ino hi s hs] at h0 heq
    rw [hI ino' hi' s' hs'] at heq
    exact h.once ino hi ino' hi' s s' hs hs' h0 heq

theorem map_block_meta {v : Volume} (k : Kind) (b : ℕ) (hb : MapBlock v k b) : Meta v b := by
  obtain ⟨g,hg,rfl⟩ := hb
  exact ⟨mapPlace k g,(present_map v k g).mpr hg,rfl⟩

theorem inode_map_not_block {v : Volume} (b : ℕ) (hb : MapBlock v .inode b) :
    ∃ p, Present v p ∧ home v p = b ∧ ∀ g, p ≠ .blockMap g := by
  obtain ⟨g,hg,rfl⟩ := hb
  exact ⟨.inodeMap g,hg,rfl,fun g' => by simp⟩

theorem zero_meta {v : Volume} (lay : Layout v) (h : InRange v 0) : Meta v 0 := by
  have hfirst := lay.first
  have h1 : sFirstDataBlock v ≤ 0 := h.1
  refine ⟨.super,trivial,?_⟩
  rcases lay.size with hz | hz | hz
  · rw [if_pos hz] at hfirst
    omega
  · rw [home, hz]
  · rw [home, hz]

section
variable {v w : Volume} {S : Set ℕ} {I : ℕ → Inode} {T : ℕ → Prop} (h : Good v S I)
include h

theorem slots_touch (ht : Touch v w T)
    (hT : ∀ ino ∈ S, ∀ s, Valid v s → Pointers s → blockAt v (I ino) s ≠ 0 → ¬T (blockAt v (I ino) s))
    (ino : ℕ) (hi : ino ∈ S) (s : Slot) (hs : Valid v s) : blockAt w (I ino) s = blockAt v (I ino) s :=
  block_at_touch ht (I ino) (fun s hs hp h0 => ⟨(h.own ino hi s hs h0).1,hT ino hi s hs hp h0⟩) s hs

theorem good_touch (ht : Touch v w T)
    (hT : ∀ ino ∈ S, ∀ s, Valid v s → Pointers s → blockAt v (I ino) s ≠ 0 → ¬T (blockAt v (I ino) s))
    (hm : ∀ p, Present v p → used w (home v p) = true)
    (hu : ∀ ino ∈ S, ∀ s, Valid v s → blockAt v (I ino) s ≠ 0 → used w (blockAt v (I ino) s) = true) :
    Good w S I := by
  have hslots := slots_touch h ht hT
  refine ⟨shape_layout ht.shape h.layout,fun p hp => ?_,fun ino hi s hs h0 => ?_,
    fun ino hi ino' hi' s s' hs hs' h0 heq => ?_⟩
  · rw [shape_home ht.shape]
    exact hm p ((shape_present ht.shape p).mp hp)
  · have hs := (valid_shape ht.shape s).mp hs
    rw [hslots ino hi s hs] at h0 ⊢
    obtain ⟨h1,-,h3⟩ := h.own ino hi s hs h0
    exact ⟨(shape_in_range ht.shape _).mpr h1,hu ino hi s hs h0,fun hmeta => h3 ((shape_meta ht.shape _).mp hmeta)⟩
  · have hs := (valid_shape ht.shape s).mp hs
    have hs' := (valid_shape ht.shape s').mp hs'
    rw [hslots ino hi s hs] at h0 heq
    rw [hslots ino' hi' s' hs'] at heq
    exact h.once ino hi ino' hi' s s' hs hs' h0 heq

theorem meta_in_range {b : ℕ} (hb : Meta v b) : InRange v b ∧ used v b = true := by
  obtain ⟨p,hp,rfl⟩ := hb
  exact ⟨h.layout.inside p hp,h.reserved p hp⟩

theorem unnamed_touch (ht : Touch v w T)
    (hT : ∀ ino ∈ S, ∀ s, Valid v s → Pointers s → blockAt v (I ino) s ≠ 0 → ¬T (blockAt v (I ino) s))
    (b : ℕ) (hb : Unnamed v S I b) : Unnamed w S I b := by
  intro ino hi s hs
  have hs := (valid_shape ht.shape s).mp hs
  rw [slots_touch h ht hT ino hi s hs]
  exact hb ino hi s hs

theorem meta_not_pointer (hT : ∀ b, T b → Meta v b) :
    ∀ ino ∈ S, ∀ s, Valid v s → Pointers s → blockAt v (I ino) s ≠ 0 → ¬T (blockAt v (I ino) s) :=
  fun ino hi s hs _ h0 ht => (h.own ino hi s hs h0).2.2 (hT _ ht)

theorem good_meta (ht : Touch v w T) (hT : ∀ b, T b → ∃ p, Present v p ∧ home v p = b ∧ ∀ g, p ≠ .blockMap g) :
    Good w S I := by
  have hmeta : ∀ b, T b → Meta v b := fun b hb => by
    obtain ⟨p,hp,hh,-⟩ := hT b hb
    exact ⟨p,hp,hh⟩
  have hused : ∀ b, InRange v b → used w b = used v b := by
    intro b hb
    apply marked_touch h.layout ht .block b hb
    intro g hg htb
    obtain ⟨p,hp,hh,hne⟩ := hT _ htb
    exact hne g (h.layout.apart p (.blockMap g) hp hg hh)
  refine good_touch h ht (meta_not_pointer h hmeta) (fun p hp => ?_) (fun ino hi s hs h0 => ?_)
  · rw [hused _ (h.layout.inside p hp)]
    exact h.reserved p hp
  · obtain ⟨h1,h2,-⟩ := h.own ino hi s hs h0
    rw [hused _ h1]
    exact h2

theorem meta_not_clear (b : ℕ) (hb : used v b = false) : ¬Meta v b := by
  intro hm
  rw [(meta_in_range h hm).2] at hb
  exact Bool.noConfusion hb

omit h in
theorem used_taken (k : Kind) (x : ℕ) (ht : Taken v w k x) (b : ℕ) (hb : InRange v b) (hu : used v b = true) :
    used w b = true := by
  rw [used] at hu ⊢
  rw [ht.marked .block b hb, hu]
  rfl

theorem good_taken {b : ℕ} (ht : Taken v w .block b) : Good w S I ∧ Spare w S I b := by
  have hplain : ¬Meta v b := meta_not_clear h b ht.clear
  have hnonzero : b ≠ 0 := by
    rintro rfl
    exact hplain (zero_meta h.layout ht.numbered)
  have hunnamed : Unnamed v S I b := by
    rintro ino hi s hs rfl
    have h2 := (h.own ino hi s hs hnonzero).2.1
    rw [used, ht.clear] at h2
    exact Bool.noConfusion h2
  have hnp := meta_not_pointer h (map_block_meta .block)
  have hstay := used_taken .block b ht
  refine ⟨good_touch h ht.touch hnp (fun p hp => hstay _ (h.layout.inside p hp) (h.reserved p hp))
    (fun ino hi s hs h0 => hstay _ (h.own ino hi s hs h0).1 (h.own ino hi s hs h0).2.1),
    (shape_in_range ht.touch.shape b).mpr ht.numbered,?_,?_,?_,hnonzero⟩
  · rw [used, ht.marked .block b ht.numbered]
    simp
  · exact fun hb => hplain ((shape_meta ht.touch.shape b).mp hb)
  · exact unnamed_touch h ht.touch hnp b hunnamed

theorem good_freed {b : ℕ} (ht : Freed v w .block b) (hplain : ¬Meta v b)
    (hb : ∀ ino ∈ S, ∀ s, Valid v s → blockAt v (I ino) s ≠ 0 → blockAt v (I ino) s ≠ b) : Good w S I := by
  have hstay : ∀ c, InRange v c → c ≠ b → used v c = true → used w c = true := by
    intro c hc hne hu
    rw [used, ht.marked .block c hc, decide_eq_false (by rintro ⟨-,rfl⟩; exact hne rfl)]
    rw [used] at hu
    rw [hu]
    rfl
  refine good_touch h ht.touch (meta_not_pointer h (map_block_meta .block)) (fun p hp => ?_)
    (fun ino hi s hs h0 => ?_)
  · exact hstay _ (h.layout.inside p hp) (fun heq => hplain ⟨p,hp,heq⟩) (h.reserved p hp)
  · obtain ⟨h1,h2,-⟩ := h.own ino hi s hs h0
    exact hstay _ h1 (hb ino hi s hs h0) h2

theorem good_write_inode {ino : ℕ} (n : Inode) (hv : ValidIno v ino) : Good (ext2WriteInode v ino n) S I := by
  refine good_meta h (touch_write_inode h.layout n hv) fun b hb => ?_
  exact ⟨inodePlace v ino,inode_place_present h.layout hv,hb.symm,fun g => by simp [inodePlace]⟩

theorem good_flush : Good (ext2FlushMetadata v) S I := by
  refine good_meta h (touch_flush h.layout) fun b hb => ?_
  rcases hb with rfl | rfl
  · exact ⟨.super,trivial,rfl,fun g => by simp⟩
  · exact ⟨.desc,trivial,rfl,fun g => by simp⟩

theorem spare_touch (ht : Touch v w T)
    (hT : ∀ ino ∈ S, ∀ s, Valid v s → Pointers s → blockAt v (I ino) s ≠ 0 → ¬T (blockAt v (I ino) s))
    {b : ℕ} (hb : Spare v S I b) (hu : used w b = true) : Spare w S I b where
  inRange := (shape_in_range ht.shape b).mpr hb.inRange
  marked := hu
  plain := fun hm => hb.plain ((shape_meta ht.shape b).mp hm)
  unnamed := unnamed_touch h ht hT b hb.unnamed
  nonzero := hb.nonzero

theorem spare_taken {b c : ℕ} (ht : Taken v w .block c) (hb : Spare v S I b) : Spare w S I b :=
  spare_touch h ht.touch (meta_not_pointer h (map_block_meta .block)) hb
    (used_taken .block c ht b hb.inRange hb.marked)

end

/-- A block of the volume that holds neither metadata nor pointers. -/
structure Writable (v : Volume) (S : Set ℕ) (I : ℕ → Inode) (b : ℕ) : Prop where
  inRange : InRange v b
  plain : ¬Meta v b
  bytes : ∀ ino ∈ S, ∀ s, Valid v s → Pointers s → blockAt v (I ino) s ≠ 0 → blockAt v (I ino) s ≠ b

theorem spare_writable {v : Volume} {S : Set ℕ} {I : ℕ → Inode} {b : ℕ} (hb : Spare v S I b) : Writable v S I b :=
  ⟨hb.inRange,hb.plain,fun ino hi s hs _ _ => hb.unnamed ino hi s hs⟩

section
variable {v w : Volume} {S : Set ℕ} {I : ℕ → Inode} (h : Good v S I)
include h

theorem data_writable {A : ℕ} (hA : A ∈ S) {s : Slot} (hs : Valid v s) (hd : ¬Pointers s)
    (h0 : blockAt v (I A) s ≠ 0) : Writable v S I (blockAt v (I A) s) := by
  obtain ⟨h1,-,h3⟩ := h.own A hA s hs h0
  refine ⟨h1,h3,fun ino hi s' hs' hp h0' heq => ?_⟩
  obtain ⟨-,rfl⟩ := h.once ino hi A hA s' s hs' hs h0' heq
  exact hd hp

theorem used_write (b : ℕ) (m : Store) (hr : InRange v b) (hplain : ¬Meta v b) (c : ℕ) (hc : InRange v c) :
    used (ext2WriteBlock v b m) c = used v c := by
  apply marked_touch h.layout (touch_write h.layout b m hr) .block c hc
  intro g hg heq
  exact hplain ⟨.blockMap g,hg,heq⟩

theorem good_write {b : ℕ} (m : Store) (hb : Writable v S I b) : Good (ext2WriteBlock v b m) S I := by
  have hused := used_write h b m hb.inRange hb.plain
  refine good_touch h (touch_write h.layout b m hb.inRange) hb.bytes (fun p hp => ?_) (fun ino hi s hs h0 => ?_)
  · rw [hused _ (h.layout.inside p hp)]
    exact h.reserved p hp
  · rw [hused _ (h.own ino hi s hs h0).1]
    exact (h.own ino hi s hs h0).2.1

theorem spare_write {b c : ℕ} (m : Store) (hc : Writable v S I c) (hb : Spare v S I b) :
    Spare (ext2WriteBlock v c m) S I b := by
  apply spare_touch h (touch_write h.layout c m hc.inRange) hc.bytes hb
  rw [used_write h c m hc.inRange hc.plain b hb.inRange]
  exact hb.marked

theorem writable_write {b c : ℕ} (m : Store) (hc : Writable v S I c) (hb : Writable v S I b) :
    Writable (ext2WriteBlock v c m) S I b := by
  have ht := touch_write h.layout c m hc.inRange
  refine ⟨hb.inRange,fun hm => hb.plain ((shape_meta ht.shape b).mp hm),fun ino hi s hs hp h0 => ?_⟩
  rw [slots_touch h ht hc.bytes ino hi s hs] at h0 ⊢
  exact hb.bytes ino hi s hs hp h0

/-- One slot of the file `A` gets a spare block, and the others stay or are
empty. Blocks that were spare otherwise still are. -/
theorem good_entered (hshape : SameShape v w) (hused : ∀ c, InRange v c → used w c = used v c) (b : ℕ)
    (hb : Spare v S I b) (A : ℕ) (s0 : Slot) (J : ℕ → Inode)
    (hJ : ∀ ino ∈ S, ∀ s, Valid v s → blockAt w (J ino) s ≠ 0 →
      (ino = A ∧ s = s0 ∧ blockAt w (J ino) s = b) ∨ blockAt w (J ino) s = blockAt v (I ino) s) :
    Good w S J ∧ ∀ c, c ≠ b → Spare v S I c → Spare w S J c := by
  refine ⟨⟨shape_layout hshape h.layout,fun p hp => ?_,fun ino hi s hs h0 => ?_,
    fun ino hi ino' hi' s s' hs hs' h0 heq => ?_⟩,fun c hne hc => ⟨?_,?_,?_,fun ino hi s hs heq => ?_,hc.nonzero⟩⟩
  · have hp := (shape_present hshape p).mp hp
    rw [shape_home hshape, hused _ (h.layout.inside p hp)]
    exact h.reserved p hp
  · have hs := (valid_shape hshape s).mp hs
    rw [shape_in_range hshape, shape_meta hshape]
    rcases hJ ino hi s hs h0 with ⟨-,-,hx⟩ | hx
    · rw [hx, hused b hb.inRange]
      exact ⟨hb.inRange,hb.marked,hb.plain⟩
    · rw [hx] at h0 ⊢
      rw [hused _ (h.own ino hi s hs h0).1]
      exact h.own ino hi s hs h0
  · have hs := (valid_shape hshape s).mp hs
    have hs' := (valid_shape hshape s').mp hs'
    have h0' : blockAt w (J ino') s' ≠ 0 := heq ▸ h0
    rcases hJ ino hi s hs h0 with ⟨rfl,rfl,hx⟩ | hx
    · rcases hJ ino' hi' s' hs' h0' with ⟨rfl,rfl,-⟩ | hy
      · exact ⟨rfl,rfl⟩
      · exact absurd (hy.symm.trans (heq.symm.trans hx)) (hb.unnamed ino' hi' s' hs')
    · rcases hJ ino' hi' s' hs' h0' with ⟨rfl,rfl,hy⟩ | hy
      · exact absurd (hx.symm.trans (heq.trans hy)) (hb.unnamed ino hi s hs)
      · rw [hx] at h0 heq
        rw [hy] at heq
        exact h.once ino hi ino' hi' s s' hs hs' h0 heq
  · exact (shape_in_range hshape c).mpr hc.inRange
  · rw [hused c hc.inRange]
    exact hc.marked
  · exact fun hm => hc.plain ((shape_meta hshape c).mp hm)
  · have hs := (valid_shape hshape s).mp hs
    have h0 : blockAt w (J ino) s ≠ 0 := by
      rw [heq]
      exact hc.nonzero
    rcases hJ ino hi s hs h0 with ⟨-,-,hx⟩ | hx
    · exact hne (heq.symm.trans hx)
    · exact hc.unnamed ino hi s hs (hx.symm.trans heq)

end

theorem block_set_block (n : Inode) (k b j : ℕ) (hb : b < 2^32) :
    iBlock (setBlock n k b) j = if j = k then b else iBlock n j := by
  split_ifs with h
  · rw [h]
    exact load_store_of_lt _ 4 _ _ (by simpa using hb)
  · exact load_store_disjoint _ _ _ _ _ _ (by omega)

theorem block_at_direct (v : Volume) (n : Inode) (k b : ℕ) (hk : k < 12) (hb : b < 2^32) (s : Slot) :
    blockAt v (setBlock n k b) s = if s = .direct k then b else blockAt v n s := by
  have hblock := block_set_block n k b
  cases s with
  | direct j => simp only [blockAt, hblock j hb, Slot.direct.injEq]
  | indirect | leaf => simp [blockAt, hblock 12 hb, show 12 ≠ k by omega]
  | double | middle | deep => simp [blockAt, hblock 13 hb, show 13 ≠ k by omega]

theorem block_at_indirect {v : Volume} {n : Inode} {b : ℕ} (hb : b < 2^32) (h0 : iBlock n 12 = 0)
    (hzero : ∀ j < ptrsPerBlock v, pointer v b j = 0) (s : Slot) (hs : Valid v s) :
    blockAt v (setBlock n 12 b) s = if s = .indirect then b else blockAt v n s := by
  have hblock := block_set_block n 12 b
  cases s with
  | direct j =>
    have hj : j < 12 := hs
    simp [blockAt, hblock j hb, show j ≠ 12 by omega]
  | indirect => simp [blockAt, hblock 12 hb]
  | leaf j =>
    have hold : pointer v (iBlock n 12) j = 0 := if_pos h0
    simp [blockAt, hblock 12 hb, hzero j hs, hold]
  | double | middle | deep => simp [blockAt, hblock 13 hb]

/-- One entry of the indirect block of `A` is stored: all other slots stay. -/
theorem leaf_slots {v : Volume} {S : Set ℕ} {I : ℕ → Inode} (h : Good v S I) (b : ℕ) (hb : b < 2^32) {A : ℕ} (j : ℕ)
    (hA : A ∈ S) (h0 : iBlock (I A) 12 ≠ 0) :
    let w := ext2WriteBlock v (iBlock (I A) 12) (store (ext2ReadBlock v (iBlock (I A) 12)) 4 (4*j) b)
    (∀ ino ∈ S, ino ≠ A → ∀ s, Valid v s → blockAt w (I ino) s = blockAt v (I ino) s) ∧
      ∀ s, Valid v s → blockAt w (I A) s = if s = .leaf j then b else blockAt v (I A) s := by
  intro w
  have ht : Touch v w (· = iBlock (I A) 12) := touch_write h.layout _ _ (h.own A hA .indirect trivial h0).1
  have hsize : ptrsPerBlock v*4 ≤ v.blockSize := Nat.div_mul_le_self _ _
  -- within the indirect block only entry `j` differs
  have hentry : ∀ i < ptrsPerBlock v, pointer w (iBlock (I A) 12) i =
      if i = j then b else pointer v (iBlock (I A) 12) i := by
    intro i hi
    unfold pointer
    rw [if_neg h0, read_write_self]
    have hclip : load (clip v.blockSize (store (ext2ReadBlock v (iBlock (I A) 12)) 4 (4*j) b)) 4 (4*i) =
        load (store (ext2ReadBlock v (iBlock (I A) 12)) 4 (4*j) b) 4 (4*i) := by
      apply load_congr
      intro x hx hx'
      rw [clip, if_pos (by omega)]
    rw [hclip]
    split_ifs with hij
    · rw [hij]
      exact load_store_of_lt _ 4 _ _ (by omega)
    · exact load_store_disjoint _ _ _ _ _ _ (by omega)
  -- no other block of pointers is that block
  have hother : ∀ ino ∈ S, ∀ s, Valid v s → (ino = A → s ≠ .indirect) → blockAt v (I ino) s ≠ 0 →
      blockAt v (I ino) s ≠ iBlock (I A) 12 := by
    intro ino hi s hs hne hs0 heq
    obtain ⟨hx,hy⟩ := h.once ino hi A hA s .indirect hs trivial hs0 heq
    exact hne hx hy
  have hkept : ∀ ino ∈ S, ∀ s, Valid v s → (ino = A → ∀ i, s ≠ .leaf i) → blockAt w (I ino) s = blockAt v (I ino) s := by
    intro ino hi s hs hleaf
    have hp : ∀ s', Valid v s' → (ino = A → s' ≠ .indirect) → blockAt v (I ino) s' ≠ 0 →
        InRange v (blockAt v (I ino) s') ∧ ¬blockAt v (I ino) s' = iBlock (I A) 12 := fun s' hs' hne hs0 =>
      ⟨(h.own ino hi s' hs' hs0).1,hother ino hi s' hs' hne hs0⟩
    cases s with
    | direct | indirect => rfl
    | leaf i =>
      have hne : ino ≠ A := fun heq => hleaf heq i rfl
      exact pointer_touch ht i (hp .indirect trivial (fun heq => absurd heq hne))
    | double => rfl
    | middle i => exact pointer_touch ht i (hp .double trivial (by simp))
    | deep i k =>
      have hm : pointer w (iBlock (I ino) 13) i = pointer v (iBlock (I ino) 13) i :=
        pointer_touch ht i (hp .double trivial (by simp))
      rw [blockAt, hm]
      exact pointer_touch ht k (hp (.middle i) hs.1 (by simp))
  refine ⟨fun ino hi hne s hs => hkept ino hi s hs (fun heq => absurd heq hne),fun s hs => ?_⟩
  by_cases hleaf : ∃ i, s = .leaf i
  · obtain ⟨i,rfl⟩ := hleaf
    rw [blockAt, hentry i hs]
    simp only [Slot.leaf.injEq]
    rfl
  · rw [hkept A hA s hs (fun _ i hi => hleaf ⟨i,hi⟩), if_neg (fun heq => hleaf ⟨j,heq⟩)]

section
variable {v : Volume} {S : Set ℕ} {I : ℕ → Inode} (h : Good v S I) (b : ℕ) (hb : Spare v S I b) (A : ℕ) (s0 : Slot)
include h hb

theorem good_pointer {n : Inode}
    (hn : ∀ s, Valid v s → blockAt v n s = if s = s0 then b else blockAt v (I A) s) :
    Good v S (update I A n) ∧ ∀ c, c ≠ b → Spare v S I c → Spare v S (update I A n) c := by
  refine good_entered h (shape_refl v) (fun _ _ => rfl) b hb A s0 _ fun ino hi s hs h0 => ?_
  by_cases hA : ino = A
  · subst hA
    rw [update_self, hn s hs]
    by_cases heq : s = s0
    · exact .inl ⟨rfl,heq,if_pos heq⟩
    · exact .inr (if_neg heq)
  · rw [update_of_ne hA]
    exact .inr rfl

theorem good_leaf (j : ℕ) (hA : A ∈ S) (h0 : iBlock (I A) 12 ≠ 0) :
    let w := ext2WriteBlock v (iBlock (I A) 12) (store (ext2ReadBlock v (iBlock (I A) 12)) 4 (4*j) b)
    (Good w S I ∧ ∀ c, c ≠ b → Spare v S I c → Spare w S I c) ∧
      ∀ s, Valid v s → blockAt w (I A) s = if s = .leaf j then b else blockAt v (I A) s := by
  intro w
  obtain ⟨hr,-,hplain⟩ := h.own A hA .indirect trivial h0
  have ht : Touch v w (· = iBlock (I A) 12) := touch_write h.layout _ _ hr
  have hlt := (in_range_lt h.layout b hb.inRange).2
  obtain ⟨hkept,hself⟩ := leaf_slots h b (by omega) j hA h0
  refine ⟨good_entered h ht.shape (used_write h _ _ hr hplain) b hb A (.leaf j) I fun ino hi s hs hs0 => ?_,hself⟩
  by_cases hino : ino = A
  · subst hino
    rw [hself s hs]
    by_cases heq : s = .leaf j
    · exact .inl ⟨rfl,heq,if_pos heq⟩
    · exact .inr (if_neg heq)
  · exact .inr (hkept ino hi hino s hs)

end

end HobbyOS.FileBlocks
