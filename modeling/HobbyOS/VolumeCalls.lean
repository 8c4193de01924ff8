import HobbyOS.VolumeSteps

/-!
# The calls

`ext2_create`, `ext2_mkdir`, `ext2_unlink` and `ext2_rename` as sequences of
the steps of a volume.
-/

namespace HobbyOS.VolumeCalls
open ByteStore Ext2 VolumeLayout VolumeMaps FileBlocks FileWrite
  VolumeSteps

variable {w v0 : Volume} {name : Name} {ok : Bool} {S : Set ℕ} {parent x k : ℕ}

theorem alloc_block_cases {v : Volume} {I : ℕ → Inode} (h : Good v S I) :
    (findClear v blockPool = none ∧ ext2AllocBlock v = (v,0)) ∨
      ∃ u k, ext2AllocBlock v = (u,k+1) ∧ Taken v u .block (k+1) := by
  rw [alloc_block_eq h.layout]
  rcases alloc_cases h.layout .block with hnone | ht
  · exact .inl hnone
  · obtain ⟨k,hk⟩ := Nat.exists_eq_add_one_of_ne_zero (good_taken h ht).2.nonzero
    rw [hk] at ht
    exact .inr ⟨_,k,Prod.ext rfl hk,ht⟩

theorem alloc_inode_cases {v : Volume} (lay : Layout v) :
    ext2AllocInode v = (v,0) ∨ ∃ u k, ext2AllocInode v = (u,k+1) ∧ Taken v u .inode (k+1) := by
  rw [alloc_inode_eq lay]
  rcases alloc_cases lay .inode with ⟨-,hnone⟩ | ht
  · exact .inl hnone
  · have hv := (numbered_inode v _).mp ht.numbered
    obtain ⟨k,hk⟩ := Nat.exists_eq_add_one_of_ne_zero (show (alloc v .inode).2 ≠ 0 by have := hv.1; omega)
    rw [hk] at ht
    exact .inr ⟨_,k,Prod.ext rfl hk,ht⟩

variable (v : Volume) (n : Inode)

def grownDir (blockSize : ℕ) : Inode :=
  setSize (setBlocks n (iBlocks n+blockSize/512)) (iSize (setBlocks n (iBlocks n+blockSize/512))+blockSize)

theorem append_entry_eq (d : ℕ) (n : Inode) (ino : ℕ) (name : Name) (fileType : ℕ) {u : Volume}
    (halloc : ext2AllocBlock v = (u,k+1)) :
    appendEntry v d n ino name fileType =
      (ext2FlushMetadata (ext2WriteInode (ext2WriteBlock (ext2SetBlock u n (iSize n/u.blockSize) (k+1)).1 (k+1)
        (putEntry zeros 0 ino u.blockSize name fileType)) d
        (grownDir (ext2SetBlock u n (iSize n/u.blockSize) (k+1)).2.1 u.blockSize)),true) := by
  unfold appendEntry
  rw [halloc]
  rfl

theorem block_grown_dir (blockSize k : ℕ) : iBlock (grownDir n blockSize) k = iBlock n k := by
  rw [grownDir, block_set_size, block_set_blocks]

section
variable {v : Volume} (hc : Consistent v) (A : ℕ) (hA : Live v A)
include hc hA

theorem wrote_refl : Wrote v A v :=
  (work_stopped hc hA (work_start hc A) (grown_congr _ _ fun _ _ => rfl)).1

theorem data_wrote {idx : ℕ} (m : Store) (h0 : ext2GetBlock v (inodeOf v A) idx ≠ 0) :
    Wrote v A (ext2WriteBlock v (ext2GetBlock v (inodeOf v A) idx) m) ∧
      inodeOf (ext2WriteBlock v (ext2GetBlock v (inodeOf v A) idx) m) A = inodeOf v A := by
  rw [get_block_eq] at h0 ⊢
  cases hslot : slotOf v idx with
  | none => simp [hslot] at h0
  | some s =>
    rw [hslot] at h0
    obtain ⟨hv,hd⟩ := slot_valid v idx s hslot
    have hwork := work_write (work_start hc A) hA _ m
      (by rw [inodesWith, Function.update_eq_self]; exact data_writable hc hA hv hd h0)
      (.inr (.inr ⟨s,hv,h0,rfl⟩))
    exact work_stopped hc hA hwork (grown_congr _ _ fun _ _ => rfl)

theorem append_entry_wrote (ino : ℕ) (name : Name) (fileType : ℕ) :
    Wrote v A (appendEntry v A (inodeOf v A) ino name fileType).1 ∧
      ((appendEntry v A (inodeOf v A) ino name fileType).2 = false →
        (appendEntry v A (inodeOf v A) ino name fileType).1 = v) := by
  rcases alloc_block_cases hc with ⟨-,heq⟩ | ⟨u,k,heq,ht⟩
  · unfold appendEntry
    rw [heq]
    exact ⟨wrote_refl hc A hA,fun _ => rfl⟩
  · obtain ⟨hwork,hspare,hscope⟩ := work_taken (work_start hc A) hA (k+1) u ht
    obtain ⟨hset,hwritable,-⟩ := set_block_writable hwork hA hspare hscope (iSize (inodeOf v A)/u.blockSize)
    have hput := work_write hset hA (k+1) (putEntry zeros 0 ino u.blockSize name fileType) hwritable hscope
    rw [append_entry_eq v A _ ino name fileType heq]
    exact ⟨(work_finished hc hA (work_congr hput fun j _ => block_grown_dir _ _ j)).1,fun hx => Bool.noConfusion hx⟩

end

theorem room_from_some (dir : Inode) (needed fuel offset o : ℕ)
    (h : roomFrom v dir needed fuel offset = some (some o)) :
    o < iSize dir ∧ ext2GetBlock v dir (o/v.blockSize) ≠ 0 ∧ needed ≤ freeSpace (dirBlock v dir o) (o % v.blockSize) := by
  induction fuel generalizing offset with
  | zero => cases h
  | succ fuel ih =>
    unfold roomFrom at h
    dsimp only at h
    split_ifs at h with h1 h2 h3 h4
    · simp at h
    · simp at h
    · obtain rfl : offset = o := by simpa using h
      exact ⟨by omega,h2,h4⟩
    · exact ih _ h

section
variable {v : Volume} (hc : Consistent v) (A : ℕ) (hA : Live v A)
include hc hA

theorem add_dir_entry_wrote {ino : ℕ} {fileType : ℕ} (h : ext2AddDirEntry v A ino name fileType = some (w,ok)) : Wrote v A w ∧ (ok = false → w = v) := by
  unfold ext2AddDirEntry at h
  rw [read_inode_eq hc.layout.mounted A (by have := hA.1.1; omega)] at h
  dsimp only at h
  cases hroom : roomFrom v (inodeOf v A) (actualSize name.length) (iSize (inodeOf v A)+1) 0 with
  | none => simp [hroom] at h
  | some r =>
    rw [hroom] at h
    cases r with
    | none =>
      have happ := append_entry_wrote hc A hA ino name fileType
      rw [Option.some.inj h] at happ
      exact happ
    | some o =>
      obtain ⟨rfl,rfl⟩ := Prod.mk.inj (Option.some.inj h)
      exact ⟨(data_wrote hc A hA _ (room_from_some v _ _ _ _ o hroom).2.1).1,fun hx => absurd hx (by simp)⟩

theorem remove_blocks_wrote (name : Name) (fuel idx : ℕ) :
    Wrote v A (removeBlocks v (inodeOf v A) name fuel idx).1 ∧
      inodeOf (removeBlocks v (inodeOf v A) name fuel idx).1 A = inodeOf v A := by
  induction fuel generalizing idx with
  | zero => exact ⟨wrote_refl hc A hA,rfl⟩
  | succ fuel ih =>
    unfold removeBlocks
    dsimp only
    split_ifs with h1 h2
    · exact ⟨wrote_refl hc A hA,rfl⟩
    · exact ⟨wrote_refl hc A hA,rfl⟩
    · cases removeFrom v.blockSize (ext2ReadBlock v (ext2GetBlock v (inodeOf v A) idx)) name v.blockSize 0 none with
      | none => exact ih (idx+1)
      | some m => exact data_wrote hc A hA m h2

theorem remove_dir_entry_wrote (name : Name) :
    Wrote v A (ext2RemoveDirEntry v A name).1 ∧ inodeOf (ext2RemoveDirEntry v A name).1 A = inodeOf v A := by
  unfold ext2RemoveDirEntry
  rw [read_inode_eq hc.layout.mounted A (by have := hA.1.1; omega)]
  exact remove_blocks_wrote hc A hA name _ 0

end

theorem block_set_links (x k : ℕ) : iBlock (setLinksCount n x) k = iBlock n k :=
  load_store_disjoint _ _ _ _ _ _ (by omega)

theorem block_set_mode (x k : ℕ) : iBlock (setMode n x) k = iBlock n k :=
  load_store_disjoint _ _ _ _ _ _ (by omega)

theorem block_zeros (k : ℕ) : iBlock zeros k = 0 := load_zero 4 _

theorem first_only (hn : ∀ k < 14, k ≠ 0 → iBlock n k = 0) (s : Slot) (hs : Valid v s)
    (h0 : blockAt v n s ≠ 0) : s = .direct 0 ∧ blockAt v n s = iBlock n 0 := by
  cases s with
  | direct k =>
    by_cases hk : k = 0
    · subst hk
      exact ⟨rfl,rfl⟩
    · exact absurd (hn k (by have : k < 12 := hs; omega) hk) h0
  | indirect => exact absurd (hn 12 (by omega) (by omega)) h0
  | leaf j => exact absurd (if_pos (hn 12 (by omega) (by omega))) h0
  | double => exact absurd (hn 13 (by omega) (by omega)) h0
  | middle j => exact absurd (if_pos (hn 13 (by omega) (by omega))) h0
  | deep i j =>
    have hm : pointer v (iBlock n 13) i = 0 := if_pos (hn 13 (by omega) (by omega))
    exact absurd (if_pos hm) h0

/-- What a call that makes a file does: nothing, or one inode more. -/
def Born (v w : Volume) (ino : ℕ) : Prop :=
  (ino = 0 ∧ Holds v w (Files v) (Files v)) ∨
    (ino ≠ 0 ∧ ino ∉ Files v ∧ Holds v w (insert ino (Files v)) (insert ino (Files v)))

theorem holds_given_up {v : Volume} (hx : x ∉ S) (hv : ValidIno v x) (h : Holds v0 v S (insert x S)) :
    Holds v0 (ext2FreeInode v x) S S := by
  have hfreed := holds_freed_inode h (free_inode_freed h.good.layout hv) (Set.mem_insert x S)
  have hS : insert x S \ {x} = S := by
    rw [Set.insert_sdiff_of_mem _ (Set.mem_singleton x), Set.sdiff_singleton_eq_self hx]
  rw [hS] at hfreed
  exact hfreed

theorem create_eq (mode : ℕ) {u : Volume} (hm : v.mounted = true) (hlook : ext2Lookup v parent name = some 0)
    (halloc : ext2AllocInode v = (u,k+1)) :
    ext2Create v parent name mode =
      (ext2AddDirEntry (ext2WriteInode u (k+1) (setLinksCount (setMode zeros mode) 1)) parent (k+1) name
        (fileTypeOf mode)).map fun r => if r.2 then (ext2FlushMetadata r.1,k+1) else (ext2FreeInode r.1 (k+1),0) := by
  cases hadd : ext2AddDirEntry (ext2WriteInode u (k+1) (setLinksCount (setMode zeros mode) 1)) parent (k+1) name
      (fileTypeOf mode) with
  | none => simp [ext2Create, hm, hlook, halloc, hadd]
  | some r =>
    obtain ⟨w,ok⟩ := r
    cases ok <;> simp [ext2Create, hm, hlook, halloc, hadd]

theorem create_born {v : Volume} (hc : Consistent v) {parent : ℕ} (hp : Live v parent) {name : Name} {mode : ℕ}
    {w : Volume} {ino : ℕ} (h : ext2Create v parent name mode = some (w,ino)) : Born v w ino := by
  have hstart := holds_start hc
  have hm := hc.layout.mounted
  cases hlook : ext2Lookup v parent name with
  | none => simp [ext2Create, hm, hlook] at h
  | some found =>
    cases found with
    | succ k =>
      simp only [ext2Create, hm, hlook] at h
      obtain ⟨rfl,rfl⟩ := h
      exact .inl ⟨rfl,hstart⟩
    | zero =>
      rcases alloc_inode_cases hc.layout with heq | ⟨u,k,heq,ht⟩
      · simp only [ext2Create, hm, hlook, heq] at h
        obtain ⟨rfl,rfl⟩ := h
        exact .inl ⟨rfl,hstart⟩
      · rw [create_eq v mode hm hlook heq] at h
        obtain ⟨htaken,hnew,hvalid⟩ := holds_taken_inode hstart ht
        have hblocks : ∀ j < 14, iBlock (setLinksCount (setMode zeros mode) 1) j = 0 := fun j _ => by
          rw [block_set_links, block_set_mode, block_zeros]
        have hborn := holds_born htaken (k+1) (setLinksCount (setMode zeros mode) 1) hvalid hnew (.direct 0) 0
          fun s hs h0 => absurd ((first_only u _ (fun j hj _ => hblocks j hj) s hs h0).2.trans (hblocks 0 (by omega))) h0
        generalize ext2WriteInode u (k+1) (setLinksCount (setMode zeros mode) 1) = u' at hborn h
        have hp' : Live u' parent := (hborn.live parent).mpr (Set.mem_insert_of_mem _ hp)
        obtain ⟨⟨u'',ok⟩,hadd,hres⟩ := Option.map_eq_some_iff.mp h
        obtain ⟨hwrote,hsame⟩ := add_dir_entry_wrote (holds_end hborn).1 parent hp' hadd
        cases ok with
        | false =>
          obtain ⟨rfl,rfl⟩ := Prod.mk.inj hres
          rw [hsame rfl]
          have hdrop := (holds_dropped hborn (Set.mem_insert _ _)).1
          rw [Set.insert_sdiff_of_mem _ (Set.mem_singleton (k+1)), Set.sdiff_singleton_eq_self hnew] at hdrop
          exact .inl ⟨rfl,holds_given_up hnew (hborn.valid _ (Set.mem_insert _ _)) hdrop⟩
        | true =>
          obtain ⟨rfl,rfl⟩ := Prod.mk.inj hres
          exact .inr ⟨by omega,hnew,holds_flush (holds_wrote hborn hwrote)⟩

theorem mkdir_eq {u1 u2 : Volume} {j : ℕ} (hm : v.mounted = true) (hlook : ext2Lookup v parent name = some 0)
    (hino : ext2AllocInode v = (u1,k+1)) (hblock : ext2AllocBlock u1 = (u2,j+1)) :
    ext2Mkdir v parent name =
      (ext2AddDirEntry (ext2WriteInode (ext2WriteBlock u2 (j+1) (dotBlock u2 (k+1) parent)) (k+1) (newDir u2 (j+1)))
        parent (k+1) name ext2FtDir).map fun r =>
          if r.2 then (ext2FlushMetadata (addUsedDir (addLink r.1 parent) (k/sInodesPerGroup (addLink r.1 parent))),k+1)
          else (ext2FreeInode (ext2FreeBlock r.1 (j+1)) (k+1),0) := by
  cases hadd : ext2AddDirEntry (ext2WriteInode (ext2WriteBlock u2 (j+1) (dotBlock u2 (k+1) parent)) (k+1)
      (newDir u2 (j+1))) parent (k+1) name ext2FtDir with
  | none => simp [ext2Mkdir, hm, hlook, hino, hblock, hadd]
  | some r =>
    obtain ⟨w,ok⟩ := r
    cases ok <;> simp [ext2Mkdir, hm, hlook, hino, hblock, hadd]

theorem block_new_dir (b k : ℕ) (hb : b < 2^32) : iBlock (newDir v b) k = if k = 0 then b else 0 := by
  rw [newDir, block_set_block _ 0 b k hb, block_set_blocks, block_set_size, block_set_links, block_set_mode, block_zeros]

theorem holds_add_link {v : Volume} {L : Set ℕ} (h : Holds v0 v S L) (hx : ValidIno v x) :
    Holds v0 (addLink v x) S L := by
  unfold addLink
  rw [read_inode_eq h.good.layout.mounted x (by have := hx.1; omega)]
  exact holds_rewritten h hx fun _ k _ => block_set_links _ _ k

theorem mkdir_born {v : Volume} (hc : Consistent v) (hp : Live v parent) {ino : ℕ}
    (h : ext2Mkdir v parent name = some (w,ino)) : Born v w ino := by
  have hstart := holds_start hc
  have hm := hc.layout.mounted
  cases hlook : ext2Lookup v parent name with
  | none => simp [ext2Mkdir, hm, hlook] at h
  | some found =>
    cases found with
    | succ k =>
      simp only [ext2Mkdir, hm, hlook] at h
      obtain ⟨rfl,rfl⟩ := h
      exact .inl ⟨rfl,hstart⟩
    | zero =>
      rcases alloc_inode_cases hc.layout with heq | ⟨u1,k,heq,ht⟩
      · simp only [ext2Mkdir, hm, hlook, heq] at h
        obtain ⟨rfl,rfl⟩ := h
        exact .inl ⟨rfl,hstart⟩
      obtain ⟨htaken,hnew,hvalid⟩ := holds_taken_inode hstart ht
      rcases alloc_block_cases htaken.good with ⟨-,hnone⟩ | ⟨u2,j,hblock,ht2⟩
      · simp only [ext2Mkdir, hm, hlook, heq, hnone] at h
        obtain ⟨rfl,rfl⟩ := h
        exact .inl ⟨rfl,holds_given_up hnew hvalid htaken⟩
      rw [mkdir_eq v hm hlook heq hblock] at h
      obtain ⟨h2,hspare⟩ := holds_taken htaken ht2
      obtain ⟨h3,hspare3⟩ := holds_write_spare h2 (dotBlock u2 (k+1) parent) hspare
      generalize ext2WriteBlock u2 (j+1) (dotBlock u2 (k+1) parent) = u3 at h3 hspare3 h
      have hlt := (in_range_lt h3.good.layout (j+1) hspare3.inRange).2
      have hblocks := fun k => block_new_dir u2 (j+1) k (by omega)
      have hvalid3 : ValidIno u3 (k+1) :=
        (valid_ino_shape h3.shape _).mpr ((valid_ino_shape htaken.shape _).mp hvalid)
      have hborn := holds_born h3 (k+1) (newDir u2 (j+1)) hvalid3 hnew (.direct 0) (j+1) fun s hs h0 => by
        obtain ⟨hs0,hb⟩ := first_only u3 _ (fun i _ hi => by rw [hblocks i, if_neg hi]) s hs h0
        rw [hblocks 0] at hb
        exact ⟨hs0,hb,hspare3⟩
      have hrecord := inode_of_write_self h3.good.layout (newDir u2 (j+1)) hvalid3
      generalize ext2WriteInode u3 (k+1) (newDir u2 (j+1)) = u4 at hborn hrecord h
      have hp' : Live u4 parent := (hborn.live parent).mpr (Set.mem_insert_of_mem _ hp)
      obtain ⟨⟨u5,ok⟩,hadd,hres⟩ := Option.map_eq_some_iff.mp h
      obtain ⟨hwrote,hsame⟩ := add_dir_entry_wrote (holds_end hborn).1 parent hp' hadd
      cases ok with
      | false =>
        obtain ⟨rfl,rfl⟩ := Prod.mk.inj hres
        rw [hsame rfl]
        obtain ⟨hdrop,hloose⟩ := holds_dropped hborn (Set.mem_insert _ _)
        rw [Set.insert_sdiff_of_mem _ (Set.mem_singleton (k+1)), Set.sdiff_singleton_eq_self hnew] at hdrop hloose
        have hfirst : blockAt u4 (inodeOf u4 (k+1)) (.direct 0) = j+1 := by
          rw [blockAt, hrecord, block_trim _ 0 (by omega), hblocks 0, if_pos rfl]
        have hb := hloose (.direct 0) (show 0 < 12 by omega)
        rw [hfirst] at hb
        have hb := hb (by omega)
        have hfreed := (holds_freed hdrop (free_block_freed hdrop.good.layout (by omega) hb.inRange) hb).1
        have hvalid5 := (valid_ino_shape hfreed.shape _).mpr ((valid_ino_shape htaken.shape _).mp hvalid)
        exact .inl ⟨rfl,holds_given_up hnew hvalid5 hfreed⟩
      | true =>
        obtain ⟨rfl,rfl⟩ := Prod.mk.inj hres
        have h5 := holds_wrote hborn hwrote
        have hvp := h5.valid parent (Set.mem_insert_of_mem _ hp)
        exact .inr ⟨by omega,hnew,holds_flush (holds_used_dir (holds_add_link h5 hvp) _)⟩

theorem free_slots {v : Volume} {L : Set ℕ} (h : Holds v0 v S L) (f : Slot → ℕ) {ss : List Slot} (hnodup : ss.Nodup)
    (hinj : ∀ s ∈ ss, ∀ s' ∈ ss, f s ≠ 0 → f s = f s' → s = s')
    (hspare : ∀ s ∈ ss, f s ≠ 0 → Spare v S (inodeOf v) (f s)) :
    Holds v0 (freeBlocks v (ss.map f)) S L ∧ Touch v (freeBlocks v (ss.map f)) (MapBlock v .block) := by
  induction ss generalizing v with
  | nil => exact ⟨h,touch_refl v _⟩
  | cons s ss ih =>
    have hinj' : ∀ a ∈ ss, ∀ b ∈ ss, f a ≠ 0 → f a = f b → a = b := fun a ha b hb =>
      hinj a (List.mem_cons_of_mem _ ha) b (List.mem_cons_of_mem _ hb)
    by_cases h0 : f s = 0
    · have hskip : freeBlocks v ((s::ss).map f) = freeBlocks v (ss.map f) := by
        rw [List.map_cons, freeBlocks, List.foldl_cons, ext2FreeBlock, if_pos h0]
        rfl
      rw [hskip]
      exact ih h hnodup.of_cons hinj' (fun a ha => hspare a (List.mem_cons_of_mem _ ha))
    · have hs := hspare s List.mem_cons_self h0
      have ht := free_block_freed h.good.layout h0 hs.inRange
      obtain ⟨hfreed,hkept⟩ := holds_freed h ht hs
      have hrest := ih hfreed hnodup.of_cons hinj' fun a ha ha0 => by
        refine hkept (f a) (fun heq => ?_) (hspare a (List.mem_cons_of_mem _ ha) ha0)
        have := hinj a (List.mem_cons_of_mem _ ha) s List.mem_cons_self ha0 heq
        exact (List.nodup_cons.mp hnodup).1 (this ▸ ha)
      refine ⟨hrest.1,touch_trans ht.touch (touch_mono hrest.2 fun b hb => ?_)⟩
      obtain ⟨g,hg,rfl⟩ := hb
      rw [ht.touch.shape.numBlockGroups] at hg
      exact ⟨g,hg,shape_home ht.touch.shape _⟩

/-- The slots whose blocks `ext2_unlink` frees, in its order. -/
def directSlots : List Slot :=
  (List.range (min ((iSize n+v.blockSize-1) % 2^32/v.blockSize) 12)).map .direct

def indirectSlots : List Slot :=
  if iBlock n 12 = 0 then [] else (List.range (ptrsPerBlock v)).map .leaf++[.indirect]

theorem direct_blocks_eq : directBlocks v n = (directSlots v n).map (blockAt v n) := by
  unfold directBlocks directSlots
  rw [List.map_map]
  rfl

theorem indirect_blocks_eq : indirectBlocks v n = (indirectSlots v n).map (blockAt v n) := by
  unfold indirectBlocks indirectSlots
  split_ifs
  · rfl
  · rw [List.map_append, List.map_map]
    rfl

theorem unlink_slots_nodup : (directSlots v n++indirectSlots v n).Nodup := by
  unfold directSlots indirectSlots
  have hd : ((List.range (min ((iSize n+v.blockSize-1) % 2^32/v.blockSize) 12)).map Slot.direct).Nodup :=
    List.nodup_range.map fun _ _ h => Slot.direct.inj h
  have hl : ((List.range (ptrsPerBlock v)).map Slot.leaf).Nodup := List.nodup_range.map fun _ _ h => Slot.leaf.inj h
  split_ifs
  · rw [List.append_nil]
    exact hd
  · refine hd.append (hl.append (List.nodup_singleton _) ?_) ?_
    · simp
    · intro s hs hs'
      obtain ⟨k,-,rfl⟩ := List.mem_map.mp hs
      simp at hs'

theorem unlink_slots_valid (s : Slot) (hs : s ∈ directSlots v n++indirectSlots v n) :
    Valid v s := by
  unfold directSlots indirectSlots at hs
  rcases List.mem_append.mp hs with hd | hi
  · obtain ⟨k,hk,rfl⟩ := List.mem_map.mp hd
    have := List.mem_range.mp hk
    exact show k < 12 by omega
  · split_ifs at hi
    · cases hi
    · rcases List.mem_append.mp hi with hl | hx
      · obtain ⟨j,hj,rfl⟩ := List.mem_map.mp hl
        exact List.mem_range.mp hj
      · obtain rfl := List.mem_singleton.mp hx
        trivial

theorem holds_erased {v : Volume} (h : Holds v0 v S S) (hx : x ∈ S) {n : Inode}
    (hn : ∀ k < 14, iBlock n k = iBlock (inodeOf v x) k) :
    Holds v0 (ext2WriteInode (ext2FreeInode (freeBlocks (freeBlocks v (directBlocks v n))
      (indirectBlocks (freeBlocks v (directBlocks v n)) n)) x) x zeros) (S \ {x}) (S \ {x}) := by
  obtain ⟨hdrop,hloose⟩ := holds_dropped h hx
  have hslots : ∀ s, Valid v s → blockAt v n s = blockAt v (inodeOf v x) s := block_at_congr v _ n hn
  have hspare : ∀ s, Valid v s → blockAt v n s ≠ 0 → Spare v (S \ {x}) (inodeOf v) (blockAt v n s) := by
    intro s hs h0
    rw [hslots s hs] at h0 ⊢
    exact hloose s hs h0
  have hinj : ∀ s s', Valid v s → Valid v s' → blockAt v n s ≠ 0 → blockAt v n s = blockAt v n s' → s = s' := by
    intro s s' hs hs' h0 heq
    rw [hslots s hs] at h0 heq
    rw [hslots s' hs'] at heq
    exact (h.good.once x hx x hx s s' hs hs' h0 heq).2
  have hvalid := unlink_slots_valid v n
  -- freeing the direct blocks leaves the indirect block
  have hsame : indirectBlocks (freeBlocks v (directBlocks v n)) n = indirectBlocks v n := by
    have ht := (free_slots hdrop (blockAt v n) (unlink_slots_nodup v n).of_append_left
      (fun s hs s' hs' => hinj s s' (hvalid s (List.mem_append_left _ hs)) (hvalid s' (List.mem_append_left _ hs')))
      (fun s hs => hspare s (hvalid s (List.mem_append_left _ hs)))).2
    rw [← direct_blocks_eq] at ht
    unfold indirectBlocks
    have hp : ptrsPerBlock (freeBlocks v (directBlocks v n)) = ptrsPerBlock v := by
      rw [ptrsPerBlock, ptrsPerBlock, ht.shape.blockSize]
    rw [hp]
    split_ifs with h12
    · rfl
    · congr 1
      apply List.map_congr_left
      intro j _
      refine pointer_touch ht j fun h0 => ?_
      have hs := hspare .indirect trivial h0
      exact ⟨hs.inRange,fun hm => hs.plain (map_block_meta .block _ hm)⟩
  have hall : freeBlocks (freeBlocks v (directBlocks v n)) (indirectBlocks (freeBlocks v (directBlocks v n)) n) =
      freeBlocks v ((directSlots v n++indirectSlots v n).map (blockAt v n)) := by
    rw [hsame, List.map_append, ← direct_blocks_eq, ← indirect_blocks_eq]
    unfold freeBlocks
    rw [List.foldl_append]
  rw [hall]
  have hfree := (free_slots hdrop (blockAt v n) (unlink_slots_nodup v n)
    (fun s hs s' hs' => hinj s s' (hvalid s hs) (hvalid s' hs')) (fun s hs => hspare s (hvalid s hs))).1
  generalize freeBlocks v ((directSlots v n++indirectSlots v n).map (blockAt v n)) = u at hfree
  have hvx : ValidIno u x := ((hfree.live x).mpr hx).1
  have hgone := holds_freed_inode hfree (free_inode_freed hfree.good.layout hvx) hx
  have hvx' : ValidIno (ext2FreeInode u x) x :=
    (valid_ino_shape hgone.shape x).mpr ((valid_ino_shape hfree.shape x).mp hvx)
  exact holds_rewritten hgone hvx' fun hmem => absurd rfl hmem.2

theorem links_less :
    iLinksCount (setLinksCount n (iLinksCount n+(2^16-1))) = 0 ↔ iLinksCount n = 1 := by
  have hlt : iLinksCount n < 2^16 := load_lt n 2 26
  have h : iLinksCount (setLinksCount n (iLinksCount n+(2^16-1))) = (iLinksCount n+(2^16-1)) % 256^2 :=
    load_store_same _ 2 _ _
  omega

/-- What an entry, if there is one, leads to is allocated. -/
def EntryLive (parent : ℕ) (name : Name) : Prop :=
  ∀ ino, ext2Lookup v parent name = some ino → ino ≠ 0 → Live v ino

/-- What a call that takes an entry away does: all inodes stay, or the one of
the entry goes with its last link. -/
def Gone (v w : Volume) (parent : ℕ) (name : Name) : Prop :=
  Holds v w (Files v) (Files v) ∨ ∃ ino ∈ Files v, ext2Lookup v parent name = some ino ∧
    iLinksCount (inodeOf v ino) = 1 ∧ Holds v w (Files v \ {ino}) (Files v \ {ino})

theorem unlink_gone {v : Volume} (hc : Consistent v) (hp : Live v parent) (he : EntryLive v parent name)
    (h : ext2Unlink v parent name = some (w,ok)) : Gone v w parent name := by
  have hstart := holds_start hc
  have hm := hc.layout.mounted
  unfold ext2Unlink at h
  rw [if_neg (by simp [hm])] at h
  cases hlook : ext2Lookup v parent name with
  | none => simp [hlook] at h
  | some found =>
    rw [hlook] at h
    cases found with
    | zero =>
      obtain ⟨rfl,rfl⟩ := Prod.mk.inj (Option.some.inj h)
      exact .inl hstart
    | succ k =>
      have hlive := he (k+1) hlook (by omega)
      obtain ⟨hwrote,hself⟩ := remove_dir_entry_wrote hc parent hp name
      generalize ext2RemoveDirEntry v parent name = r at hwrote hself h
      obtain ⟨u,removed⟩ := r
      have hu := holds_wrote hstart hwrote
      cases removed with
      | false =>
        obtain ⟨rfl,rfl⟩ := Prod.mk.inj (Option.some.inj h)
        exact .inl hu
      | true =>
        have hinode : inodeOf u (k+1) = inodeOf v (k+1) := by
          by_cases heq : k+1 = parent
          · rw [heq]
            exact hself
          · exact hwrote.others (k+1) hlive.1 heq
        have hvalid : ValidIno u (k+1) := hu.valid (k+1) hlive
        have hblocks : ∀ j < 14, iBlock (setLinksCount (inodeOf u (k+1)) (iLinksCount (inodeOf u (k+1))+(2^16-1))) j =
            iBlock (inodeOf u (k+1)) j := fun j _ => block_set_links _ _ j
        dsimp only at h
        rw [read_inode_eq hu.good.layout.mounted (k+1) (by omega)] at h
        dsimp only at h
        split_ifs at h with hlast
        · obtain ⟨rfl,rfl⟩ := Prod.mk.inj (Option.some.inj h)
          refine .inr ⟨k+1,hlive,hlook,?_,holds_flush (holds_erased hu hlive hblocks)⟩
          rw [← hinode]
          exact (links_less _).mp hlast
        · obtain ⟨rfl,rfl⟩ := Prod.mk.inj (Option.some.inj h)
          exact .inl (holds_flush (holds_rewritten hu hvalid fun _ => hblocks))

theorem replace_entry_holds {v : Volume} (h : Holds v0 v S S) {oldIno oldDir newDir fileType : ℕ} (ho : oldDir ∈ S)
    (hn : newDir ∈ S) {oldName newName : Name}
    (heq : replaceEntry v oldIno oldDir newDir fileType oldName newName = some (w,ok)) : Holds v0 w S S := by
  unfold replaceEntry at heq
  have hlive : ∀ {u : Volume}, Holds v0 u S S → ∀ d ∈ S, Live u d := fun hu d hd => (hu.live d).mpr hd
  cases hadd : ext2AddDirEntry v newDir oldIno newName fileType with
  | none => simp [hadd] at heq
  | some r =>
    obtain ⟨u,added⟩ := r
    rw [hadd] at heq
    have hu := holds_wrote h (add_dir_entry_wrote (holds_end h).1 newDir (hlive h _ hn) hadd).1
    cases added with
    | false =>
      obtain ⟨rfl,rfl⟩ := Prod.mk.inj (Option.some.inj heq)
      exact hu
    | true =>
      have hx := holds_wrote hu (remove_dir_entry_wrote (holds_end hu).1 oldDir (hlive hu _ ho) oldName).1
      dsimp only at heq
      generalize ext2RemoveDirEntry u oldDir oldName = r at hx heq
      obtain ⟨x,removed⟩ := r
      cases removed with
      | false =>
        obtain ⟨rfl,rfl⟩ := Prod.mk.inj (Option.some.inj heq)
        exact holds_wrote hx (remove_dir_entry_wrote (holds_end hx).1 newDir (hlive hx _ hn) newName).1
      | true =>
        obtain ⟨rfl,rfl⟩ := Prod.mk.inj (Option.some.inj heq)
        exact holds_flush hx

theorem remove_destination_gone {v : Volume} (hc : Consistent v) {dir : ℕ} (hd : Live v dir)
    (he : EntryLive v dir name) (h : removeDestination v dir name = some w) : Gone v w dir name := by
  unfold removeDestination at h
  cases hlook : ext2Lookup v dir name with
  | none => simp [hlook] at h
  | some found =>
    rw [hlook] at h
    cases found with
    | zero =>
      obtain rfl := Option.some.inj h
      exact .inl (holds_start hc)
    | succ k =>
      obtain ⟨⟨u,ok⟩,hu,rfl⟩ := Option.map_eq_some_iff.mp h
      exact unlink_gone hc hd he hu

/-- The directories of a rename are allocated, and so is what the new name led
to; that is no directory of the rename in its last link. -/
structure RenameSound (v : Volume) (oldPath newPath : Name) (oldDir newDir : ℕ) : Prop where
  oldLive : Live v oldDir
  newLive : Live v newDir
  entry : EntryLive v newDir (ext2PathSplit newPath).2
  last : ∀ ino, ext2Lookup v newDir (ext2PathSplit newPath).2 = some ino → iLinksCount (inodeOf v ino) = 1 →
    ino ≠ oldDir ∧ ino ≠ newDir

theorem rename_cases {oldPath newPath : Name} (h : ext2Rename v oldPath newPath = some (w,ok)) :
    w = v ∨ ∃ oldIno oldDir newDir n u, ext2PathLookup v oldPath = some oldIno ∧
      ext2PathLookup v (ext2PathSplit oldPath).1 = some oldDir ∧
      ext2PathLookup v (ext2PathSplit newPath).1 = some newDir ∧ oldIno ≠ 0 ∧ oldDir ≠ 0 ∧ newDir ≠ 0 ∧
      ext2ReadInode v oldIno = some n ∧ removeDestination v newDir (ext2PathSplit newPath).2 = some u ∧
      replaceEntry u oldIno oldDir newDir (fileTypeOf (iMode n)) (ext2PathSplit oldPath).2 (ext2PathSplit newPath).2 =
        some (w,ok) := by
  unfold ext2Rename at h
  split_ifs at h with hm
  · exact .inl (Prod.mk.inj (Option.some.inj h)).1.symm
  obtain ⟨oldIno,hold,h⟩ := Option.bind_eq_some_iff.mp h
  split_ifs at h with h0
  · exact .inl (Prod.mk.inj (Option.some.inj h)).1.symm
  obtain ⟨oldDir,hod,h⟩ := Option.bind_eq_some_iff.mp h
  obtain ⟨newDir,hnd,h⟩ := Option.bind_eq_some_iff.mp h
  split_ifs at h with hd
  · exact .inl (Prod.mk.inj (Option.some.inj h)).1.symm
  rw [not_or] at hd
  cases hn : ext2ReadInode v oldIno with
  | none =>
    rw [hn] at h
    exact .inl (Prod.mk.inj (Option.some.inj h)).1.symm
  | some n =>
    rw [hn] at h
    obtain ⟨u,hu,h⟩ := Option.bind_eq_some_iff.mp h
    exact .inr ⟨oldIno,oldDir,newDir,n,u,hold,hod,hnd,h0,hd.1,hd.2,hn,hu,h⟩

theorem rename_gone {v : Volume} (hc : Consistent v) {oldPath newPath : Name}
    (hs : ∀ oldDir newDir, ext2PathLookup v (ext2PathSplit oldPath).1 = some oldDir → ext2PathLookup v (ext2PathSplit newPath).1 = some newDir → oldDir ≠ 0 → newDir ≠ 0 → RenameSound v oldPath newPath oldDir newDir)
    (h : ext2Rename v oldPath newPath = some (w,ok)) :
    Holds v w (Files v) (Files v) ∨ ∃ newDir, ext2PathLookup v (ext2PathSplit newPath).1 = some newDir ∧
      Gone v w newDir (ext2PathSplit newPath).2 := by
  rcases rename_cases v h with
    rfl | ⟨oldIno,oldDir,newDir,n,u,-,hod,hnd,-,hod0,hnd0,-,hu,hw⟩
  · exact .inl (holds_start hc)
  · have hsound := hs oldDir newDir hod hnd hod0 hnd0
    refine .inr ⟨newDir,hnd,?_⟩
    rcases remove_destination_gone hc hsound.newLive hsound.entry hu with hall | ⟨ino,hi,hlook,hlast,hrest⟩
    · exact .inl (replace_entry_holds hall hsound.oldLive hsound.newLive hw)
    · obtain ⟨h1,h2⟩ := hsound.last ino hlook hlast
      exact .inr ⟨ino,hi,hlook,hlast,replace_entry_holds hrest ⟨hsound.oldLive,fun hx => h1 hx.symm⟩
        ⟨hsound.newLive,fun hx => h2 hx.symm⟩ hw⟩

end HobbyOS.VolumeCalls
