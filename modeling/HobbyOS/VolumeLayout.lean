import HobbyOS.Ext2

/-!
# Where a volume keeps what

The metadata of a mounted volume has its places: superblock, descriptors, the
two bitmaps of each group and the inode tables. A well laid out volume has
them in different blocks of its range. The functions of `ext2.c` leave the
places where they are; what they change is said block by block.
-/

namespace HobbyOS.VolumeLayout
open ByteStore Ext2 Function

inductive Place where
  | super
  | desc
  | blockMap (g : ℕ)
  | inodeMap (g : ℕ)
  | table (g j : ℕ)
  deriving DecidableEq

/-- Blocks and inodes: the two kinds of objects with a bitmap. -/
inductive Kind where
  | block
  | inode
  deriving DecidableEq

def pool : Kind → Pool
  | .block => blockPool
  | .inode => inodePool

def mapPlace : Kind → ℕ → Place
  | .block, g => .blockMap g
  | .inode, g => .inodeMap g

variable (v : Volume)

def tableBlocks : ℕ := (sInodesPerGroup v*v.inodeSize+v.blockSize-1)/v.blockSize

def home : Place → ℕ
  | .super => 1024/v.blockSize
  | .desc => bgdtBlock v
  | .blockMap g => bitmapBlock v blockPool g
  | .inodeMap g => bitmapBlock v inodePool g
  | .table g j => bgInodeTable v g+j

def Present : Place → Prop
  | .super => True
  | .desc => True
  | .blockMap g => g < v.numBlockGroups
  | .inodeMap g => g < v.numBlockGroups
  | .table g j => g < v.numBlockGroups ∧ j < tableBlocks v

def InRange (b : ℕ) : Prop :=
  sFirstDataBlock v ≤ b ∧ b < sFirstDataBlock v+v.numBlockGroups*sBlocksPerGroup v

structure Layout (v : Volume) : Prop where
  mounted : v.mounted = true
  size : v.blockSize = 1024 ∨ v.blockSize = 2048 ∨ v.blockSize = 4096
  groups : v.numBlockGroups*32 ≤ v.blockSize
  blocks : 0 < sBlocksPerGroup v ∧ sBlocksPerGroup v ≤ 8*v.blockSize
  inodes : 0 < sInodesPerGroup v ∧ sInodesPerGroup v ≤ 8*v.blockSize
  inodeSize : 128 ≤ v.inodeSize ∧ v.inodeSize ∣ v.blockSize
  first : sFirstDataBlock v = if v.blockSize = 1024 then 1 else 0
  apart : ∀ p q, Present v p → Present v q → home v p = home v q → p = q
  inside : ∀ p, Present v p → InRange v (home v p)

def Meta (b : ℕ) : Prop := ∃ p, Present v p ∧ home v p = b

structure SameShape (v w : Volume) : Prop where
  mounted : w.mounted = v.mounted
  blockSize : w.blockSize = v.blockSize
  numBlockGroups : w.numBlockGroups = v.numBlockGroups
  inodeSize : w.inodeSize = v.inodeSize
  first : sFirstDataBlock w = sFirstDataBlock v
  blocks : sBlocksPerGroup w = sBlocksPerGroup v
  inodes : sInodesPerGroup w = sInodesPerGroup v
  maps : ∀ k g, bitmapBlock w (pool k) g = bitmapBlock v (pool k) g
  table : ∀ g, bgInodeTable w g = bgInodeTable v g

theorem shape_refl : SameShape v v :=
  ⟨rfl,rfl,rfl,rfl,rfl,rfl,rfl,fun _ _ => rfl,fun _ => rfl⟩

theorem shape_symm {v w : Volume} (h : SameShape v w) : SameShape w v where
  mounted := h.mounted.symm
  blockSize := h.blockSize.symm
  numBlockGroups := h.numBlockGroups.symm
  inodeSize := h.inodeSize.symm
  first := h.first.symm
  blocks := h.blocks.symm
  inodes := h.inodes.symm
  maps := fun k g => (h.maps k g).symm
  table := fun g => (h.table g).symm

theorem shape_trans {u v w : Volume} (h1 : SameShape u v) (h2 : SameShape v w) : SameShape u w where
  mounted := h2.mounted.trans h1.mounted
  blockSize := h2.blockSize.trans h1.blockSize
  numBlockGroups := h2.numBlockGroups.trans h1.numBlockGroups
  inodeSize := h2.inodeSize.trans h1.inodeSize
  first := h2.first.trans h1.first
  blocks := h2.blocks.trans h1.blocks
  inodes := h2.inodes.trans h1.inodes
  maps := fun k g => (h2.maps k g).trans (h1.maps k g)
  table := fun g => (h2.table g).trans (h1.table g)

section
variable {v w : Volume} (h : SameShape v w)
include h

theorem shape_table_blocks : tableBlocks w = tableBlocks v := by
  rw [tableBlocks, tableBlocks, h.inodes, h.inodeSize, h.blockSize]

theorem shape_home (p : Place) : home w p = home v p := by
  cases p with
  | super => rw [home, home, h.blockSize]
  | desc => rw [home, home, bgdtBlock, bgdtBlock, h.blockSize]
  | blockMap g => exact h.maps .block g
  | inodeMap g => exact h.maps .inode g
  | table g j => rw [home, home, h.table]

theorem shape_present (p : Place) : Present w p ↔ Present v p := by
  cases p with
  | super | desc => rfl
  | blockMap | inodeMap => rw [Present, Present, h.numBlockGroups]
  | table g j => rw [Present, Present, h.numBlockGroups, shape_table_blocks h]

theorem shape_in_range (b : ℕ) : InRange w b ↔ InRange v b := by
  rw [InRange, InRange, h.first, h.numBlockGroups, h.blocks]

theorem shape_meta (b : ℕ) : Meta w b ↔ Meta v b := by
  unfold Meta
  simp only [shape_present h, shape_home h]

theorem shape_layout (lay : Layout v) : Layout w where
  mounted := h.mounted.trans lay.mounted
  size := by rw [h.blockSize]; exact lay.size
  groups := by rw [h.numBlockGroups, h.blockSize]; exact lay.groups
  blocks := by rw [h.blocks, h.blockSize]; exact lay.blocks
  inodes := by rw [h.inodes, h.blockSize]; exact lay.inodes
  inodeSize := by rw [h.inodeSize, h.blockSize]; exact lay.inodeSize
  first := by rw [h.first, h.blockSize]; exact lay.first
  apart := fun p q hp hq heq => by
    rw [shape_home h, shape_home h] at heq
    exact lay.apart p q ((shape_present h p).mp hp) ((shape_present h q).mp hq) heq
  inside := fun p hp => by
    rw [shape_home h, shape_in_range h]
    exact lay.inside p ((shape_present h p).mp hp)

theorem shape_disk_block (b : ℕ) : diskBlock w b = diskBlock v b := by
  rw [diskBlock, diskBlock, h.blockSize]

theorem shape_inode_group (ino : ℕ) : inodeGroup w ino = inodeGroup v ino := by
  rw [inodeGroup, inodeGroup, h.inodes]

theorem shape_offset_in_table (ino : ℕ) : offsetInTable w ino = offsetInTable v ino := by
  rw [offsetInTable, offsetInTable, h.inodes, h.inodeSize]

theorem shape_offset_in_block (ino : ℕ) : offsetInBlock w ino = offsetInBlock v ino := by
  rw [offsetInBlock, offsetInBlock, shape_offset_in_table h, h.blockSize]

theorem shape_block_containing (ino : ℕ) : blockContaining w ino = blockContaining v ino := by
  rw [blockContaining, blockContaining, shape_inode_group h, shape_offset_in_table h, h.table, h.blockSize]

end

theorem block_size_pos {v : Volume} (lay : Layout v) : 1024 ≤ v.blockSize := by
  rcases lay.size with h | h | h <;> omega

theorem in_range_lt {v : Volume} (lay : Layout v) (b : ℕ) (hb : InRange v b) :
    b < 2^28/(v.blockSize/512) ∧ b < 2^23 := by
  have h1 := hb.2
  have hg := lay.groups
  have hp := lay.blocks.2
  have hf : sFirstDataBlock v ≤ 1 := by
    rw [lay.first]
    split_ifs <;> omega
  have hmul : v.numBlockGroups*sBlocksPerGroup v ≤ v.blockSize/32*(8*v.blockSize) :=
    Nat.mul_le_mul (by omega) hp
  rcases lay.size with h | h | h <;> rw [h] at hmul ⊢ <;> constructor <;> omega

theorem disk_block_eq {v : Volume} (lay : Layout v) {b : ℕ} (hb : InRange v b) : diskBlock v b = b :=
  Nat.mod_eq_of_lt (in_range_lt lay b hb).1

/-- The bytes of a buffer that belong to a block. -/
def clip (n : ℕ) (m : Store) : Store := fun i => if i < n then m i else 0

theorem write_shape (b : ℕ) (m : Store) : SameShape v (ext2WriteBlock v b m) :=
  ⟨rfl,rfl,rfl,rfl,rfl,rfl,rfl,fun _ _ => rfl,fun _ => rfl⟩

theorem read_write_self (b : ℕ) (m : Store) :
    ext2ReadBlock (ext2WriteBlock v b m) b = clip v.blockSize m := by
  funext i
  have h : (ext2WriteBlock v b m).disk (diskBlock v b) = m := update_self ..
  unfold ext2ReadBlock
  rw [shape_disk_block (write_shape v b m), h]
  rfl

theorem read_write_other {v : Volume} (lay : Layout v) {b c : ℕ} (m : Store) (hb : InRange v b)
    (hc : InRange v c) (hne : c ≠ b) : ext2ReadBlock (ext2WriteBlock v b m) c = ext2ReadBlock v c := by
  have hd : diskBlock v c ≠ diskBlock v b := by
    rw [disk_block_eq lay hb, disk_block_eq lay hc]
    exact hne
  funext i
  have h : (ext2WriteBlock v b m).disk (diskBlock v c) = v.disk (diskBlock v c) := update_of_ne hd ..
  unfold ext2ReadBlock
  rw [shape_disk_block (write_shape v b m), h]
  rfl

structure Touch (v w : Volume) (T : ℕ → Prop) : Prop where
  shape : SameShape v w
  read : ∀ b, InRange v b → ¬T b → ext2ReadBlock w b = ext2ReadBlock v b

theorem touch_refl (T : ℕ → Prop) : Touch v v T := ⟨shape_refl v,fun _ _ _ => rfl⟩

theorem touch_trans {u v w : Volume} {T : ℕ → Prop} (h1 : Touch u v T) (h2 : Touch v w T) : Touch u w T where
  shape := shape_trans h1.shape h2.shape
  read := fun b hb ht => (h2.read b ((shape_in_range h1.shape b).mpr hb) ht).trans (h1.read b hb ht)

theorem touch_mono {v w : Volume} {T U : ℕ → Prop} (h : Touch v w T) (hsub : ∀ b, T b → U b) : Touch v w U where
  shape := h.shape
  read := fun b hb ht => h.read b hb (fun hT => ht (hsub b hT))

theorem touch_mono_in {v w : Volume} {T U : ℕ → Prop} (h : Touch v w T) (hsub : ∀ b, InRange v b → T b → U b) :
    Touch v w U where
  shape := h.shape
  read := fun b hb ht => h.read b hb (fun hT => ht (hsub b hb hT))

theorem touch_write {v : Volume} (lay : Layout v) (b : ℕ) (m : Store) (hb : InRange v b) :
    Touch v (ext2WriteBlock v b m) (· = b) where
  shape := write_shape v b m
  read := fun c hc hne => read_write_other lay m hb hc hne

theorem set_counts_shape (k : Kind) (g count total : ℕ) :
    SameShape v (setCounts v (pool k) g count total) := by
  have hsb : ∀ o, o = 20 ∨ o = 32 ∨ o = 40 → load (store v.sb 4 (pool k).total total) 4 o = load v.sb 4 o := by
    intro o ho
    apply load_store_disjoint
    cases k <;> simp only [pool, blockPool, inodePool] <;> omega
  have hbg : ∀ o g', o = 0 ∨ o = 4 ∨ o = 8 →
      load (store v.bgdt 2 (32*g+(pool k).count) count) 4 (32*g'+o) = load v.bgdt 4 (32*g'+o) := by
    intro o g' ho
    apply load_store_disjoint
    cases k <;> simp only [pool, blockPool, inodePool] <;> omega
  exact ⟨rfl,rfl,rfl,rfl,hsb 20 (.inl rfl),hsb 32 (.inr (.inl rfl)),hsb 40 (.inr (.inr rfl)),
    fun k' g' => by cases k' <;> exact hbg _ g' (by simp [pool, blockPool, inodePool]),
    fun g' => hbg 8 g' (.inr (.inr rfl))⟩

theorem set_counts_touch (k : Kind) (g count total : ℕ) (T : ℕ → Prop) :
    Touch v (setCounts v (pool k) g count total) T :=
  ⟨set_counts_shape v k g count total,fun _ _ _ => rfl⟩

theorem super_shape : SameShape v (writeSuperblock v) :=
  ⟨rfl,rfl,rfl,rfl,rfl,rfl,rfl,fun _ _ => rfl,fun _ => rfl⟩

theorem touch_super {v : Volume} (lay : Layout v) : Touch v (writeSuperblock v) (· = home v .super) where
  shape := super_shape v
  read := fun b hb hne => by
    funext i
    have hd : diskBlock v b ≠ 1024/v.blockSize := by
      rw [disk_block_eq lay hb]
      exact hne
    have h : (writeSuperblock v).disk (diskBlock v b) = v.disk (diskBlock v b) := update_of_ne hd ..
    unfold ext2ReadBlock
    rw [shape_disk_block (super_shape v), h]
    rfl

theorem touch_flush {v : Volume} (lay : Layout v) :
    Touch v (ext2FlushMetadata v) (fun b => b = home v .super ∨ b = home v .desc) := by
  have hs := touch_mono (touch_super lay) (fun b (hb : b = home v .super) =>
    (Or.inl hb : b = home v .super ∨ b = home v .desc))
  have lay' := shape_layout (super_shape v) lay
  have hd := touch_write lay' (bgdtBlock (writeSuperblock v))
    (copy (ext2ReadBlock (writeSuperblock v) (bgdtBlock (writeSuperblock v)))
      (min ((writeSuperblock v).numBlockGroups*32) (writeSuperblock v).blockSize) 0 (writeSuperblock v).bgdt 0)
    (lay'.inside .desc trivial)
  exact touch_trans hs (touch_mono hd fun b hb => .inr hb)

def ValidIno (ino : ℕ) : Prop := 0 < ino ∧ ino ≤ v.numBlockGroups*sInodesPerGroup v

def inodePlace (ino : ℕ) : Place := .table (inodeGroup v ino) (offsetInTable v ino/v.blockSize)

def inodeOf (ino : ℕ) : Inode :=
  copy zeros 128 0 (ext2ReadBlock v (blockContaining v ino)) (offsetInBlock v ino)

theorem valid_group {v : Volume} {ino : ℕ} (h : ValidIno v ino) : inodeGroup v ino < v.numBlockGroups := by
  have h2 := h.2
  have h1 := h.1
  apply Nat.div_lt_of_lt_mul
  rw [Nat.mul_comm]
  omega

theorem offset_in_table_eq {v : Volume} (lay : Layout v) (ino : ℕ) :
    offsetInTable v ino = (ino-1) % sInodesPerGroup v*v.inodeSize ∧
      offsetInTable v ino+v.inodeSize ≤ sInodesPerGroup v*v.inodeSize := by
  have hlt : (ino-1) % sInodesPerGroup v < sInodesPerGroup v := Nat.mod_lt _ lay.inodes.1
  have hle : v.inodeSize ≤ v.blockSize := Nat.le_of_dvd (by have := block_size_pos lay; omega) lay.inodeSize.2
  have hmul : ((ino-1) % sInodesPerGroup v+1)*v.inodeSize ≤ sInodesPerGroup v*v.inodeSize :=
    Nat.mul_le_mul_right _ hlt
  have hbound : sInodesPerGroup v*v.inodeSize ≤ 8*v.blockSize*v.blockSize :=
    Nat.mul_le_mul lay.inodes.2 hle
  have hsmall : 8*v.blockSize*v.blockSize < 2^32 := by
    rcases lay.size with h | h | h <;> rw [h] <;> norm_num
  rw [Nat.add_mul] at hmul
  have heq : offsetInTable v ino = (ino-1) % sInodesPerGroup v*v.inodeSize :=
    Nat.mod_eq_of_lt (by omega)
  exact ⟨heq,by omega⟩

theorem inode_place_present {v : Volume} (lay : Layout v) {ino : ℕ} (h : ValidIno v ino) :
    Present v (inodePlace v ino) := by
  obtain ⟨-,hle⟩ := offset_in_table_eq lay ino
  have hb := block_size_pos lay
  have hi := lay.inodeSize.1
  refine ⟨valid_group h,?_⟩
  unfold tableBlocks
  rw [Nat.div_lt_iff_lt_mul (by omega)]
  have hd := Nat.div_add_mod (sInodesPerGroup v*v.inodeSize+v.blockSize-1) v.blockSize
  have hm := Nat.mod_lt (sInodesPerGroup v*v.inodeSize+v.blockSize-1) (show 0 < v.blockSize by omega)
  rw [Nat.mul_comm] at hd
  omega

theorem block_containing_eq {v : Volume} (lay : Layout v) {ino : ℕ} (h : ValidIno v ino) :
    blockContaining v ino = home v (inodePlace v ino) := by
  have hr := (in_range_lt lay _ (lay.inside _ (inode_place_present lay h))).2
  exact Nat.mod_eq_of_lt (lt_trans hr (by norm_num))

theorem offset_in_block_le {v : Volume} (lay : Layout v) (ino : ℕ) : offsetInBlock v ino+128 ≤ v.blockSize := by
  obtain ⟨heq,-⟩ := offset_in_table_eq lay ino
  obtain ⟨hle,c,hc⟩ := lay.inodeSize
  have hb := block_size_pos lay
  unfold offsetInBlock
  rw [heq, hc, Nat.mul_comm, Nat.mul_mod_mul_left]
  have hcpos : 0 < c := by
    rcases Nat.eq_zero_or_pos c with h0 | h0
    · rw [h0] at hc
      omega
    · exact h0
  have hlt := Nat.mod_lt ((ino-1) % sInodesPerGroup v) hcpos
  have := Nat.mul_le_mul_left v.inodeSize (show (ino-1) % sInodesPerGroup v % c+1 ≤ c by omega)
  rw [Nat.mul_add] at this
  omega

theorem read_inode_eq {v : Volume} (hm : v.mounted = true) (ino : ℕ) (h : ino ≠ 0) :
    ext2ReadInode v ino = some (inodeOf v ino) := by
  unfold ext2ReadInode
  rw [if_neg (by simp [hm, h])]
  rfl

theorem inode_of_touch {v w : Volume} {T : ℕ → Prop} (lay : Layout v) (ht : Touch v w T) {ino : ℕ}
    (h : ValidIno v ino) (hT : ¬T (home v (inodePlace v ino))) : inodeOf w ino = inodeOf v ino := by
  unfold inodeOf
  rw [shape_block_containing ht.shape, shape_offset_in_block ht.shape, block_containing_eq lay h,
    ht.read _ (lay.inside _ (inode_place_present lay h)) hT]

def trim (n : Inode) : Inode := copy zeros 128 0 n 0

theorem write_inode_eq {v : Volume} (hm : v.mounted = true) {ino : ℕ} (n : Inode) (h : ino ≠ 0) :
    ext2WriteInode v ino n = ext2WriteBlock v (blockContaining v ino)
      (copy (ext2ReadBlock v (blockContaining v ino)) 128 (offsetInBlock v ino) n 0) := by
  unfold ext2WriteInode
  rw [if_neg (by simp [hm, h])]

theorem touch_write_inode {v : Volume} (lay : Layout v) {ino : ℕ} (n : Inode) (h : ValidIno v ino) :
    Touch v (ext2WriteInode v ino n) (· = home v (inodePlace v ino)) := by
  rw [write_inode_eq lay.mounted n (by have := h.1; omega), block_containing_eq lay h]
  exact touch_write lay _ _ (lay.inside _ (inode_place_present lay h))

theorem inode_of_write_self {v : Volume} (lay : Layout v) {ino : ℕ} (n : Inode) (h : ValidIno v ino) :
    inodeOf (ext2WriteInode v ino n) ino = trim n := by
  have hs := (touch_write_inode lay n h).shape
  have hle := offset_in_block_le lay ino
  unfold inodeOf
  rw [shape_block_containing hs, shape_offset_in_block hs,
    write_inode_eq lay.mounted n (by have := h.1; omega), read_write_self]
  funext i
  simp only [copy, trim, clip]
  by_cases hi : i < 128
  · rw [if_pos (by omega), if_pos (by omega), if_pos (by omega), if_pos (by omega)]
    congr 1
    omega
  · rw [if_neg (by omega), if_neg (by omega)]

theorem inode_offsets_apart {v : Volume} (lay : Layout v) {a b : ℕ} (ha : ValidIno v a) (hb : ValidIno v b)
    (hne : a ≠ b) (hp : inodePlace v a = inodePlace v b) :
    offsetInBlock v a+128 ≤ offsetInBlock v b ∨ offsetInBlock v b+128 ≤ offsetInBlock v a := by
  obtain ⟨hg,hj⟩ := Place.table.inj hp
  obtain ⟨hea,-⟩ := offset_in_table_eq lay a
  obtain ⟨heb,-⟩ := offset_in_table_eq lay b
  have hi := lay.inodeSize.1
  have hmod : (a-1) % sInodesPerGroup v ≠ (b-1) % sInodesPerGroup v := by
    intro hm
    have h1 := Nat.div_add_mod (a-1) (sInodesPerGroup v)
    have h2 := Nat.div_add_mod (b-1) (sInodesPerGroup v)
    unfold inodeGroup at hg
    rw [hg] at h1
    have h3 := ha.1
    have h4 := hb.1
    omega
  have hda := Nat.div_add_mod (offsetInTable v a) v.blockSize
  have hdb := Nat.div_add_mod (offsetInTable v b) v.blockSize
  have happ : offsetInTable v a+v.inodeSize ≤ offsetInTable v b ∨
      offsetInTable v b+v.inodeSize ≤ offsetInTable v a := by
    rw [hea, heb]
    rcases Nat.lt_or_gt_of_ne hmod with hlt | hlt
    · left
      have := Nat.mul_le_mul_right v.inodeSize hlt
      rw [Nat.succ_mul] at this
      exact this
    · right
      have := Nat.mul_le_mul_right v.inodeSize hlt
      rw [Nat.succ_mul] at this
      exact this
  unfold offsetInBlock
  rw [hj] at hda
  omega

theorem inode_of_write_other {v : Volume} (lay : Layout v) {ino other : ℕ} (n : Inode) (h : ValidIno v ino)
    (ho : ValidIno v other) (hne : other ≠ ino) : inodeOf (ext2WriteInode v ino n) other = inodeOf v other := by
  by_cases hp : inodePlace v other = inodePlace v ino
  · have hs := (touch_write_inode lay n h).shape
    have happ := inode_offsets_apart lay ho h hne hp
    have hle := offset_in_block_le lay other
    have hbc : blockContaining v other = blockContaining v ino := by
      rw [block_containing_eq lay ho, block_containing_eq lay h, hp]
    unfold inodeOf
    rw [shape_block_containing hs, shape_offset_in_block hs, hbc,
      write_inode_eq lay.mounted n (by have := h.1; omega), read_write_self]
    funext i
    simp only [copy, clip]
    by_cases hi : i < 128
    · rw [if_pos (by omega), if_pos (by omega), if_neg (by omega), if_pos (by omega)]
    · rw [if_neg (by omega), if_neg (by omega)]
  · apply inode_of_touch lay (touch_write_inode lay n h) ho
    intro heq
    exact hp (lay.apart _ _ (inode_place_present lay ho) (inode_place_present lay h) heq)

end HobbyOS.VolumeLayout
