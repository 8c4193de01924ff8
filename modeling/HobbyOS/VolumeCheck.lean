import HobbyOS.FileWrite

/-!
# Checking a volume

A check that runs on any volume whose files have direct blocks only. What it
accepts is consistent.
-/

namespace HobbyOS.VolumeCheck
open ByteStore Ext2 VolumeLayout VolumeMaps FileBlocks FileWrite

variable (v : Volume)

def places : List Place :=
  .super::.desc::(List.range v.numBlockGroups).flatMap fun g =>
    .blockMap g::.inodeMap g::(List.range (tableBlocks v)).map (.table g)

instance decidableInRange (v : Volume) (b : ℕ) : Decidable (InRange v b) := inferInstanceAs (Decidable (_ ∧ _))

def liveInodes : List ℕ :=
  ((List.range (v.numBlockGroups*sInodesPerGroup v)).map (·+1)).filter fun ino => marked v .inode ino

def named : List (ℕ × ℕ) :=
  (List.product (liveInodes v) (List.range 12)).filter fun p => iBlock (inodeOf v p.1) p.2 ≠ 0

def namedBlock (p : ℕ × ℕ) : ℕ := iBlock (inodeOf v p.1) p.2

def layoutChecked : Bool :=
  v.mounted && (v.blockSize == 1024 || v.blockSize == 2048 || v.blockSize == 4096) &&
  decide (v.numBlockGroups*32 ≤ v.blockSize) &&
  decide (0 < sBlocksPerGroup v ∧ sBlocksPerGroup v ≤ 8*v.blockSize) &&
  decide (0 < sInodesPerGroup v ∧ sInodesPerGroup v ≤ 8*v.blockSize) &&
  decide (128 ≤ v.inodeSize ∧ v.inodeSize ∣ v.blockSize) &&
  (sFirstDataBlock v == if v.blockSize = 1024 then 1 else 0) &&
  decide ((places v).map (home v)).Nodup

def placesChecked : Bool :=
  (places v).all fun p => decide (InRange v (home v p)) && used v (home v p)

def filesChecked : Bool :=
  decide ((named v).map (namedBlock v)).Nodup &&
  (named v).all (fun p => decide (InRange v (namedBlock v p)) && used v (namedBlock v p) &&
    !((places v).map (home v)).contains (namedBlock v p)) &&
  (liveInodes v).all fun ino => iBlock (inodeOf v ino) 12 == 0 && iBlock (inodeOf v ino) 13 == 0

def checked : Bool := layoutChecked v && placesChecked v && filesChecked v

theorem mem_places (p : Place) : p ∈ places v ↔ Present v p := by
  unfold places
  cases p <;> simp [Present]

theorem mem_live_inodes (ino : ℕ) : ino ∈ liveInodes v ↔ Live v ino := by
  unfold liveInodes Live ValidIno
  rw [List.mem_filter, List.mem_map]
  refine and_congr_left fun _ => ⟨?_,fun h => ⟨ino-1,List.mem_range.mpr (by omega),by omega⟩⟩
  rintro ⟨i,hi,rfl⟩
  have := List.mem_range.mp hi
  omega

theorem meta_mem (b : ℕ) : Meta v b ↔ b ∈ (places v).map (home v) := by
  simp only [Meta, List.mem_map, mem_places]

theorem layout_of_checked (hl : layoutChecked v = true) (hp : placesChecked v = true) : Layout v := by
  simp only [layoutChecked, Bool.and_eq_true, Bool.or_eq_true, beq_iff_eq, decide_eq_true_eq] at hl
  obtain ⟨⟨⟨⟨⟨⟨⟨hm,hsize⟩,hg⟩,hb⟩,hi⟩,his⟩,hfirst⟩,hnodup⟩ := hl
  refine ⟨hm,or_assoc.mp hsize,hg,hb,hi,his,hfirst,fun p q hp hq heq => ?_,fun p hpres => ?_⟩
  · exact List.inj_on_of_nodup_map hnodup ((mem_places v p).mpr hp) ((mem_places v q).mpr hq) heq
  · have h := List.all_eq_true.mp hp p ((mem_places v p).mpr hpres)
    simp only [Bool.and_eq_true, decide_eq_true_eq] at h
    exact h.1

theorem direct_only {n : Inode} (h12 : iBlock n 12 = 0) (h13 : iBlock n 13 = 0) {s : Slot}
    (h0 : blockAt v n s ≠ 0) : ∃ k, s = .direct k := by
  cases s with
  | direct k => exact ⟨k,rfl⟩
  | indirect => exact absurd h12 h0
  | leaf j => exact absurd (if_pos h12) h0
  | double => exact absurd h13 h0
  | middle j => exact absurd (if_pos h13) h0
  | deep i j =>
    have hm : pointer v (iBlock n 13) i = 0 := if_pos h13
    exact absurd (if_pos hm) h0

theorem check_consistent (h : checked v = true) : Consistent v := by
  simp only [checked, Bool.and_eq_true] at h
  obtain ⟨⟨hl,hp⟩,hf⟩ := h
  simp only [filesChecked, Bool.and_eq_true, decide_eq_true_eq] at hf
  obtain ⟨⟨hnodup,hnamed⟩,hdirect⟩ := hf
  have hslot : ∀ ino ∈ Files v, ∀ s, Valid v s → blockAt v (inodeOf v ino) s ≠ 0 →
      ∃ k, s = .direct k ∧ (ino,k) ∈ named v := by
    intro ino hi s hs h0
    have hlive := (mem_live_inodes v ino).mpr hi
    have hz := List.all_eq_true.mp hdirect ino hlive
    simp only [Bool.and_eq_true, beq_iff_eq] at hz
    obtain ⟨k,rfl⟩ := direct_only v hz.1 hz.2 h0
    exact ⟨k,rfl,List.mem_filter.mpr ⟨List.pair_mem_product.mpr ⟨hlive,List.mem_range.mpr hs⟩,
      decide_eq_true h0⟩⟩
  refine ⟨layout_of_checked v hl hp,fun p hpres => ?_,fun ino hi s hs h0 => ?_,
    fun ino hi ino' hi' s s' hs hs' h0 heq => ?_⟩
  · have h := List.all_eq_true.mp hp p ((mem_places v p).mpr hpres)
    simp only [Bool.and_eq_true] at h
    exact h.2
  · obtain ⟨k,rfl,hmem⟩ := hslot ino hi s hs h0
    have h := List.all_eq_true.mp hnamed (ino,k) hmem
    simp only [Bool.and_eq_true, decide_eq_true_eq, Bool.not_eq_true', List.contains_eq_mem, decide_eq_false_iff_not] at h
    exact ⟨h.1.1,h.1.2,fun hm => h.2 ((meta_mem v _).mp hm)⟩
  · obtain ⟨k,rfl,hmem⟩ := hslot ino hi s hs h0
    obtain ⟨k',rfl,hmem'⟩ := hslot ino' hi' s' hs' (heq ▸ h0)
    obtain ⟨rfl,rfl⟩ := Prod.mk.inj (List.inj_on_of_nodup_map hnodup hmem hmem' heq)
    exact ⟨rfl,rfl⟩

def countsChecked : Bool :=
  [Kind.block,Kind.inode].all fun k =>
    (List.range v.numBlockGroups).all (fun g => freeCount v (pool k) g == clearBits v k g) &&
    freeTotal v (pool k) == ∑ g ∈ Finset.range v.numBlockGroups, clearBits v k g

theorem check_agree (h : countsChecked v = true) : Agree v := by
  have hkind : ∀ k, (∀ g < v.numBlockGroups, freeCount v (pool k) g = clearBits v k g) ∧
      freeTotal v (pool k) = ∑ g ∈ Finset.range v.numBlockGroups, clearBits v k g := by
    intro k
    have hk := List.all_eq_true.mp h k (by cases k <;> simp)
    simp only [Bool.and_eq_true, List.all_eq_true, List.mem_range, beq_iff_eq] at hk
    exact hk
  exact ⟨fun k => (hkind k).1,fun k => (hkind k).2⟩

/-! ## Small volumes

One group with blocks of 1024 bytes: superblock, descriptors, the bitmaps and
one block of inodes are blocks 1 to 5, data follows. -/

def lowBits (n : ℕ) : Store :=
  fun i => if 8*(i+1) ≤ n then 255 else if 8*i < n then UInt8.ofNat (2^(n-8*i)-1) else 0

def fileInode (mode links size : ℕ) (blocks : List ℕ) : Inode :=
  blocks.zipIdx.foldl (fun n p => setBlock n p.2 p.1) (setSize (setLinksCount (setMode zeros mode) links) size)

/-- A volume with `blocks` blocks, of which the inodes and the data given use
the first, and eight inodes. -/
def small (blocks : ℕ) (inodes : List Inode) (data : List Store) : Volume where
  mounted := true
  disk := fun b =>
    if b = 3 then lowBits (5+data.length) else if b = 4 then lowBits inodes.length
    else if b = 5 then fun i => inodes.getD (i/128) zeros (i % 128) else if b < 6 then zeros
    else data.getD (b-6) zeros
  sb := store (store (store (store (store zeros 4 12 (blocks-5-data.length)) 4 16 (8-inodes.length)) 4 20 1) 4 32 blocks) 4 40 8
  bgdt := store (store (store (store (store zeros 4 0 3) 4 4 4) 4 8 5) 2 12 (blocks-5-data.length)) 2 14 (8-inodes.length)
  blockSize := 1024
  numBlockGroups := 1
  inodeSize := 128

end HobbyOS.VolumeCheck
