import HobbyOS.FileWrite

/-!
# What the calls of ext2.c do to a volume

Each call keeps a consistent volume consistent and its free counts right, and
changes the set of allocated inodes in a known way. In between a file may be
allocated and not yet in order, or no longer a file and not yet freed, so the
two sets are kept apart.
-/

namespace HobbyOS.VolumeSteps
open ByteStore Ext2 VolumeLayout VolumeMaps FileBlocks FileWrite Function

structure Holds (v0 v : Volume) (S L : Set ℕ) : Prop where
  good : Good v S (inodeOf v)
  valid : ∀ ino ∈ S, ValidIno v ino
  live : ∀ ino, Live v ino ↔ ino ∈ L
  shape : SameShape v0 v
  agree : Agree v0 → Agree v

theorem holds_start {v : Volume} (h : Consistent v) : Holds v v (Files v) (Files v) :=
  ⟨h,fun _ hi => hi.1,fun _ => Iff.rfl,shape_refl v,id⟩

theorem holds_end {v0 v : Volume} {S : Set ℕ} (h : Holds v0 v S S) : Consistent v ∧ Files v = S := by
  have hS : Files v = S := Set.ext h.live
  refine ⟨?_,hS⟩
  rw [Consistent, hS]
  exact h.good

theorem holds_wrote {v0 v w : Volume} {S : Set ℕ} {A : ℕ} (h : Holds v0 v S S) (hw : Wrote v A w) : Holds v0 w S S := by
  have hS := (holds_end h).2
  have hfiles := files_eq hw.live
  refine ⟨?_,fun ino hi => ?_,fun ino => ?_,shape_trans h.shape hw.touch.shape,fun ha => hw.agree (h.agree ha)⟩
  · have := hw.consistent
    rw [Consistent, hfiles, hS] at this
    exact this
  · exact (valid_ino_shape hw.touch.shape ino).mpr (h.valid ino hi)
  · rw [hw.live]
    exact h.live ino

variable {b x : ℕ}

section
variable {v0 v w : Volume} {S L : Set ℕ} (h : Holds v0 v S L)
include h

theorem frame_inode {T : ℕ → Prop} (ht : Touch v w T) (hT : ∀ p, Present v p → T (home v p) → ∃ g, p = .blockMap g)
    (ino : ℕ) (hi : ino ∈ S) : inodeOf w ino = inodeOf v ino := by
  refine inode_of_touch h.good.layout ht (h.valid ino hi) fun hx => ?_
  obtain ⟨g,hg⟩ := hT _ (inode_place_present h.good.layout (h.valid ino hi)) hx
  exact Place.noConfusion hg

theorem holds_frame {T : ℕ → Prop} (ht : Touch v w T)
    (hT : ∀ p, Present v p → T (home v p) → ∃ g, p = .blockMap g) (hgood : Good w S (inodeOf v))
    (ha : Agree v → Agree w) : Holds v0 w S L := by
  have hinode := frame_inode h ht hT
  refine ⟨good_congr hgood fun ino hi s _ => by rw [hinode ino hi],
    fun ino hi => (valid_ino_shape ht.shape ino).mpr (h.valid ino hi),fun ino => ?_,shape_trans h.shape ht.shape,
    fun h0 => ha (h.agree h0)⟩
  rw [← h.live, Live, valid_ino_shape ht.shape]
  refine and_congr_right fun hv => ?_
  rw [marked_touch h.good.layout ht .inode ino ((numbered_inode v ino).mpr hv)]
  intro g hg hx
  obtain ⟨g',hg'⟩ := hT (.inodeMap g) hg hx
  exact Place.noConfusion hg'

omit h in
theorem spare_congr {I J : ℕ → Inode} (hJ : ∀ ino ∈ S, J ino = I ino) (hb : Spare v S I b) : Spare v S J b :=
  ⟨hb.inRange,hb.marked,hb.plain,fun ino hi s hs => by rw [hJ ino hi]; exact hb.unnamed ino hi s hs,hb.nonzero⟩

omit h in
theorem block_map_frame (lay : Layout v) (p : Place) (hp : Present v p) (hx : MapBlock v .block (home v p)) :
    ∃ g, p = .blockMap g := by
  obtain ⟨g,hg,heq⟩ := hx
  exact ⟨g,lay.apart p (.blockMap g) hp hg heq⟩

theorem holds_taken (ht : Taken v w .block b) : Holds v0 w S L ∧ Spare w S (inodeOf w) b := by
  obtain ⟨hgood,hspare⟩ := good_taken h.good ht
  have hplace := block_map_frame h.good.layout
  exact ⟨holds_frame h ht.touch hplace hgood ht.agree,spare_congr (frame_inode h ht.touch hplace) hspare⟩

theorem holds_freed (ht : Freed v w .block b) (hb : Spare v S (inodeOf v) b) :
    Holds v0 w S L ∧ ∀ c, c ≠ b → Spare v S (inodeOf v) c → Spare w S (inodeOf w) c := by
  have hgood := good_freed h.good ht hb.plain fun ino hi s hs _ => hb.unnamed ino hi s hs
  have hplace := block_map_frame h.good.layout
  refine ⟨holds_frame h ht.touch hplace hgood fun ha => (ht.agree ha).mpr hb.marked,fun c hne hc => ?_⟩
  have hused : used w c = true := by
    rw [used, ht.marked .block c hc.inRange, decide_eq_false (by rintro ⟨-,rfl⟩; exact hne rfl)]
    have := hc.marked
    rw [used] at this
    rw [this]
    rfl
  exact spare_congr (frame_inode h ht.touch hplace)
    (spare_touch h.good ht.touch (meta_not_pointer h.good (map_block_meta .block)) hc hused)

theorem holds_write_spare (m : Store) (hb : Spare v S (inodeOf v) b) :
    Holds v0 (ext2WriteBlock v b m) S L ∧ Spare (ext2WriteBlock v b m) S (inodeOf (ext2WriteBlock v b m)) b := by
  have hw := spare_writable hb
  have ht := touch_write h.good.layout b m hb.inRange
  have hplace : ∀ p, Present v p → home v p = b → ∃ g, p = .blockMap g := fun p hp heq => absurd ⟨p,hp,heq⟩ hb.plain
  refine ⟨holds_frame h ht hplace (good_write h.good m hw) fun ha => ?_,
    spare_congr (frame_inode h ht hplace) (spare_write h.good m hw hb)⟩
  exact agree_touch h.good.layout ht (fun k g hg heq => hb.plain ⟨mapPlace k g,(present_map v k g).mpr hg,heq⟩)
    (fun _ _ => rfl) (fun _ => rfl) ha

theorem holds_inode_map {L' : Set ℕ} (ht : Touch v w (MapBlock v .inode)) (hlive : ∀ ino, Live w ino ↔ ino ∈ L')
    (ha : Agree v → Agree w) : Holds v0 w S L' := by
  have hinode : ∀ ino ∈ S, inodeOf w ino = inodeOf v ino := by
    intro ino hi
    refine inode_of_touch h.good.layout ht (h.valid ino hi) ?_
    rintro ⟨g,hg,heq⟩
    exact Place.noConfusion (h.good.layout.apart _ (.inodeMap g)
      (inode_place_present h.good.layout (h.valid ino hi)) hg heq)
  exact ⟨good_congr (good_meta h.good ht inode_map_not_block) fun ino hi s _ => by rw [hinode ino hi],
    fun ino hi => (valid_ino_shape ht.shape ino).mpr (h.valid ino hi),hlive,shape_trans h.shape ht.shape,
    fun h0 => ha (h.agree h0)⟩

theorem holds_taken_inode (ht : Taken v w .inode x) : Holds v0 w S (insert x L) ∧ x ∉ L ∧ ValidIno w x := by
  have hx := (numbered_inode v x).mp ht.numbered
  refine ⟨holds_inode_map h ht.touch (fun ino => ?_) ht.agree,fun hmem => ?_,(valid_ino_shape ht.touch.shape x).mpr hx⟩
  · rw [Live, valid_ino_shape ht.touch.shape, Set.mem_insert_iff, ← h.live, Live]
    by_cases hv : ValidIno v ino
    · rw [ht.marked .inode ino ((numbered_inode v ino).mpr hv)]
      simp [hv, or_comm]
    · have hne : ino ≠ x := by
        rintro rfl
        exact hv hx
      simp [hv, hne]
  · have := ((h.live x).mpr hmem).2
    rw [ht.clear] at this
    exact Bool.noConfusion this

theorem holds_freed_inode {x : ℕ} (ht : Freed v w .inode x) (hx : x ∈ L) : Holds v0 w S (L \ {x}) := by
  have hlive := (h.live x).mpr hx
  refine holds_inode_map h ht.touch (fun ino => ?_) fun ha => (ht.agree ha).mpr hlive.2
  rw [Live, valid_ino_shape ht.touch.shape, Set.mem_sdiff, ← h.live, Live]
  by_cases hv : ValidIno v ino
  · rw [ht.marked .inode ino ((numbered_inode v ino).mpr hv)]
    simp [hv]
  · simp [hv]

theorem holds_record {S' : Set ℕ} {n : Inode} (hx : ValidIno v x) (hS : ∀ ino ∈ S', ino = x ∨ ino ∈ S)
    (hgood : Good v S' (update (inodeOf v) x n)) : Holds v0 (ext2WriteInode v x n) S' L := by
  have lay := h.good.layout
  have ht := touch_write_inode lay n hx
  have hvalid : ∀ ino ∈ S', ValidIno v ino := by
    intro ino hi
    rcases hS ino hi with rfl | hi
    · exact hx
    · exact h.valid ino hi
  refine ⟨good_congr (good_write_inode hgood n hx) fun ino hi s hs => ?_,
    fun ino hi => (valid_ino_shape ht.shape ino).mpr (hvalid ino hi),fun ino => ?_,shape_trans h.shape ht.shape,
    fun h0 => ?_⟩
  · by_cases hino : ino = x
    · subst hino
      rw [inode_of_write_self lay n hx, update_self]
      exact block_at_congr _ n (trim n) (block_trim n) s hs
    · rw [inode_of_write_other lay n hx (hvalid ino hi) hino, update_of_ne hino]
  · rw [← h.live, Live, valid_ino_shape ht.shape]
    refine and_congr_right fun hv => ?_
    rw [marked_touch lay ht .inode ino ((numbered_inode v ino).mpr hv)]
    intro g hg heq
    exact Place.noConfusion (lay.apart (.inodeMap g) _ hg (inode_place_present lay hx) heq)
  · have hsame : ext2WriteInode v x n = ext2WriteBlock v (blockContaining v x)
        (copy (ext2ReadBlock v (blockContaining v x)) 128 (offsetInBlock v x) n 0) :=
      write_inode_eq lay.mounted n (by have := hx.1; omega)
    refine agree_touch lay ht (fun k g hg heq => ?_) (fun k g => by rw [hsame]; rfl) (fun k => by rw [hsame]; rfl)
      (h.agree h0)
    have := lay.apart (mapPlace k g) _ ((present_map v k g).mpr hg) (inode_place_present lay hx) heq
    cases k <;> exact Place.noConfusion this

theorem holds_rewritten {n : Inode} (hx : ValidIno v x) (hn : x ∈ S → ∀ k < 14, iBlock n k = iBlock (inodeOf v x) k) : Holds v0 (ext2WriteInode v x n) S L := by
  refine holds_record h hx (fun ino hi => .inr hi) (good_congr h.good fun ino hi s hs => ?_)
  by_cases hino : ino = x
  · subst hino
    rw [update_self]
    exact block_at_congr v _ n (hn hi) s hs
  · rw [update_of_ne hino]

theorem holds_born (x : ℕ) (n : Inode) (hx : ValidIno v x) (hnew : x ∉ S) (s0 : Slot) (b : ℕ)
    (hn : ∀ s, Valid v s → blockAt v n s ≠ 0 → s = s0 ∧ blockAt v n s = b ∧ Spare v S (inodeOf v) b) :
    Holds v0 (ext2WriteInode v x n) (insert x S) L := by
  have hJ : ∀ ino ∈ S, update (inodeOf v) x n ino = inodeOf v ino := fun ino hi =>
    update_of_ne (by rintro rfl; exact hnew hi) ..
  refine holds_record h hx (fun ino hi => hi) ⟨h.good.layout,h.good.reserved,fun ino hi s hs h0 => ?_,
    fun ino hi ino' hi' s s' hs hs' h0 heq => ?_⟩
  · rcases hi with rfl | hi
    · rw [update_self] at h0 ⊢
      obtain ⟨-,hb,hspare⟩ := hn s hs h0
      rw [hb]
      exact ⟨hspare.inRange,hspare.marked,hspare.plain⟩
    · rw [hJ ino hi] at h0 ⊢
      exact h.good.own ino hi s hs h0
  · have h0' : blockAt v (update (inodeOf v) x n ino') s' ≠ 0 := heq ▸ h0
    rcases hi with rfl | hi
    · rw [update_self] at h0 heq
      obtain ⟨hs0,hb,hspare⟩ := hn s hs h0
      rcases hi' with rfl | hi'
      · rw [update_self] at h0'
        exact ⟨rfl,hs0.trans (hn s' hs' h0').1.symm⟩
      · rw [hJ ino' hi', hb] at heq
        exact absurd heq.symm (hspare.unnamed ino' hi' s' hs')
    · rw [hJ ino hi] at h0 heq
      rcases hi' with rfl | hi'
      · rw [update_self] at h0' heq
        obtain ⟨-,hb,hspare⟩ := hn s' hs' h0'
        exact absurd (heq.trans hb) (hspare.unnamed ino hi s hs)
      · rw [hJ ino' hi'] at heq
        exact h.good.once ino hi ino' hi' s s' hs hs' h0 heq

theorem holds_dropped (hx : x ∈ S) :
    Holds v0 v (S \ {x}) L ∧ ∀ s, Valid v s → blockAt v (inodeOf v x) s ≠ 0 →
      Spare v (S \ {x}) (inodeOf v) (blockAt v (inodeOf v x) s) := by
  refine ⟨⟨good_mono h.good Set.sdiff_subset,fun ino hi => h.valid ino hi.1,h.live,h.shape,h.agree⟩,fun s hs h0 => ?_⟩
  obtain ⟨h1,h2,h3⟩ := h.good.own x hx s hs h0
  refine ⟨h1,h2,h3,fun ino hi s' hs' heq => ?_,h0⟩
  exact hi.2 (h.good.once x hx ino hi.1 s s' hs hs' h0 heq.symm).1.symm

theorem holds_flush : Holds v0 (ext2FlushMetadata v) S L := by
  have lay := h.good.layout
  have ht := touch_flush lay
  have hnot : ∀ p, Present v p → p ≠ .super → p ≠ .desc → ¬(home v p = home v .super ∨ home v p = home v .desc) := by
    rintro p hp h1 h2 (heq | heq)
    · exact h1 (lay.apart p .super hp trivial heq)
    · exact h2 (lay.apart p .desc hp trivial heq)
  have hinode : ∀ ino ∈ S, inodeOf (ext2FlushMetadata v) ino = inodeOf v ino := fun ino hi =>
    inode_of_touch lay ht (h.valid ino hi)
      (hnot _ (inode_place_present lay (h.valid ino hi)) (by simp [inodePlace]) (by simp [inodePlace]))
  refine ⟨good_congr (good_flush h.good) fun ino hi s _ => by rw [hinode ino hi],
    fun ino hi => (valid_ino_shape ht.shape ino).mpr (h.valid ino hi),fun ino => ?_,shape_trans h.shape ht.shape,
    fun h0 => ?_⟩
  · rw [← h.live]
    refine and_congr_right fun hv => ?_
    rw [marked_touch lay ht .inode ino ((numbered_inode v ino).mpr hv)]
    exact fun g hg => hnot (.inodeMap g) hg (by simp) (by simp)
  · refine agree_touch lay ht (fun k g hg => ?_) (fun _ _ => rfl) (fun _ => rfl) (h.agree h0)
    exact hnot _ ((present_map v k g).mpr hg) (by cases k <;> simp [mapPlace]) (by cases k <;> simp [mapPlace])

theorem holds_used_dir (g : ℕ) : Holds v0 (addUsedDir v g) S L := by
  have hbg : ∀ o g' k, k = 2 ∧ (o = 12 ∨ o = 14) ∨ k = 4 ∧ (o = 0 ∨ o = 4 ∨ o = 8) →
      load (addUsedDir v g).bgdt k (32*g'+o) = load v.bgdt k (32*g'+o) := by
    intro o g' k hk
    apply load_store_disjoint
    omega
  have hshape : SameShape v (addUsedDir v g) :=
    ⟨rfl,rfl,rfl,rfl,rfl,rfl,rfl,
      fun k g' => by cases k <;> exact hbg _ g' 4 (by simp [pool, blockPool, inodePool]),
      fun g' => hbg 8 g' 4 (by simp)⟩
  have ht : Touch v (addUsedDir v g) (fun _ => False) := ⟨hshape,fun _ _ _ => rfl⟩
  refine holds_frame h ht (fun _ _ hx => hx.elim) (good_touch h.good ht (fun _ _ _ _ _ _ hx => hx) ?_ ?_) fun ha => ?_
  · intro p hp
    rw [used, marked_touch h.good.layout ht .block _ (h.good.layout.inside p hp) fun _ _ hx => hx]
    exact h.good.reserved p hp
  · intro ino hi s hs h0
    obtain ⟨h1,h2,-⟩ := h.good.own ino hi s hs h0
    rw [used, marked_touch h.good.layout ht .block _ h1 fun _ _ hx => hx]
    exact h2
  · exact agree_touch h.good.layout ht (fun _ _ _ hx => hx)
      (fun k g' => by cases k <;> exact hbg _ g' 2 (by simp [pool, blockPool, inodePool])) (fun _ => rfl) ha

end

end HobbyOS.VolumeSteps
