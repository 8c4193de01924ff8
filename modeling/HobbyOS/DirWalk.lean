import HobbyOS.DirEntries
import HobbyOS.VolumeLayout

/-!
# Walking over a directory

The blocks of a well-formed directory are tiled by records with distinct
names. The walks of `ext2_lookup` and `ext2_add_dir_entry` go over these
records, block by block; looking a name up reads the map of the records.
-/

namespace HobbyOS.DirWalk
open ByteStore Ext2 VolumeLayout DirEntries

/-- Block `k` of a directory is there and the records tile it. -/
def BlockTiled (v : Volume) (dir : Inode) (k : ℕ) (rs : List Rec) : Prop :=
  ext2GetBlock v dir k ≠ 0 ∧ Tiled (ext2ReadBlock v (ext2GetBlock v dir k)) 0 rs ∧ span rs = v.blockSize

structure Tiles (v : Volume) (d : ℕ) (rss : List (List Rec)) : Prop where
  dir : isDir (inodeOf v d) = true
  size : iSize (inodeOf v d) = rss.length*v.blockSize
  block : ∀ k rs, rss[k]? = some rs → BlockTiled v (inodeOf v d) k rs
  beyond : ∀ k, rss.length ≤ k → ext2GetBlock v (inodeOf v d) k = 0
  distinct : ((entries rss.flatten).map Prod.fst).Nodup

def WellFormed (v : Volume) (d : ℕ) : Prop := ∃ rss, Tiles v d rss

theorem lookup_from_succ (v : Volume) (dir : Inode) (name : Name) (fuel offset : ℕ) :
    lookupFrom v dir name (fuel+1) offset =
      if iSize dir ≤ offset then some 0
      else if ext2GetBlock v dir (offset/v.blockSize) = 0 then some 0
      else if deRecLen (dirBlock v dir offset) (offset % v.blockSize) = 0 then none
      else if isEntry (dirBlock v dir offset) (offset % v.blockSize) name then
        some (deInode (dirBlock v dir offset) (offset % v.blockSize))
      else lookupFrom v dir name fuel ((offset+deRecLen (dirBlock v dir offset) (offset % v.blockSize)) % 2^32) := rfl

theorem room_from_succ (v : Volume) (dir : Inode) (needed fuel offset : ℕ) :
    roomFrom v dir needed (fuel+1) offset =
      if iSize dir ≤ offset then some none
      else if ext2GetBlock v dir (offset/v.blockSize) = 0 then some none
      else if deRecLen (dirBlock v dir offset) (offset % v.blockSize) = 0 then none
      else if needed ≤ freeSpace (dirBlock v dir offset) (offset % v.blockSize) then some (some offset)
      else roomFrom v dir needed fuel ((offset+deRecLen (dirBlock v dir offset) (offset % v.blockSize)) % 2^32) := rfl

def HasRoom (needed : ℕ) (r : Rec) : Prop := needed ≤ r.len-actualSize r.name.length

section
variable {v : Volume} {dir : Inode} (idx : ℕ) (hb : ext2GetBlock v dir idx ≠ 0) (hsize : (idx+1)*v.blockSize ≤ iSize dir)
include hb hsize

omit hb in
theorem walk_position {o : ℕ} {r : Rec} (hf : Fits r) (ho : o+r.len ≤ v.blockSize) :
    ¬iSize dir ≤ idx*v.blockSize+o ∧ (idx*v.blockSize+o)/v.blockSize = idx ∧ (idx*v.blockSize+o) % v.blockSize = o ∧
      dirBlock v dir (idx*v.blockSize+o) = ext2ReadBlock v (ext2GetBlock v dir idx) ∧
      (idx*v.blockSize+o+r.len) % 2^32 = idx*v.blockSize+(o+r.len) := by
  have hlen := hf.2
  have hlt : iSize dir < 2^32 := load_lt dir 4 4
  rw [Nat.add_mul] at hsize
  have hdiv : (idx*v.blockSize+o)/v.blockSize = idx := by
    rw [Nat.mul_comm, Nat.mul_add_div (by omega), Nat.div_eq_of_lt (by omega), Nat.add_zero]
  refine ⟨by omega,hdiv,?_,?_,?_⟩
  · rw [Nat.mul_comm, Nat.mul_add_mod, Nat.mod_eq_of_lt (by omega)]
  · rw [dirBlock, hdiv]
  · rw [Nat.mod_eq_of_lt (by omega), Nat.add_assoc]

theorem lookup_record (name : Name) (fuel o : ℕ) (r : Rec)
    (hr : RecAt (ext2ReadBlock v (ext2GetBlock v dir idx)) o r) (hf : Fits r) (ho : o+r.len ≤ v.blockSize) :
    lookupFrom v dir name (fuel+1) (idx*v.blockSize+o) =
      if r.ino != 0 && r.name == name then some r.ino else lookupFrom v dir name fuel (idx*v.blockSize+(o+r.len)) := by
  obtain ⟨h1,h2,h3,h4,h5⟩ := walk_position idx hsize hf ho
  have hlen := hf.2
  rw [lookup_from_succ, if_neg h1, h2, if_neg hb, h3, h4, hr.len, if_neg (by omega), is_entry_eq _ o name hr, hr.ino, h5]

theorem room_record (needed fuel o : ℕ) (r : Rec) (hr : RecAt (ext2ReadBlock v (ext2GetBlock v dir idx)) o r)
    (hf : Fits r) (ho : o+r.len ≤ v.blockSize) :
    roomFrom v dir needed (fuel+1) (idx*v.blockSize+o) =
      if needed ≤ r.len-actualSize r.name.length then some (some (idx*v.blockSize+o))
      else roomFrom v dir needed fuel (idx*v.blockSize+(o+r.len)) := by
  obtain ⟨h1,h2,h3,h4,h5⟩ := walk_position idx hsize hf ho
  have hlen := hf.2
  rw [room_from_succ, if_neg h1, h2, if_neg hb, h3, h4, hr.len, if_neg (by omega), free_space_eq _ o hr hf, h5]

theorem lookup_block (name : Name) (fuel : ℕ) (rs : List Rec) (o : ℕ)
    (ht : Tiled (ext2ReadBlock v (ext2GetBlock v dir idx)) o rs) (hend : o+span rs = v.blockSize) :
    lookupFrom v dir name (rs.length+fuel) (idx*v.blockSize+o) =
      if name ∈ (entries rs).map Prod.fst then some (resolve (entries rs) name)
      else lookupFrom v dir name fuel ((idx+1)*v.blockSize) := by
  induction rs generalizing o with
  | nil =>
    simp only [span, List.map_nil, List.sum_nil, Nat.add_zero] at hend
    simp [entries, hend, Nat.add_mul]
  | cons r rs ih =>
    obtain ⟨hr,hf,hrest⟩ := ht
    rw [span_cons] at hend
    rw [List.length_cons, Nat.add_right_comm, lookup_record idx hb hsize name _ o r hr hf (by omega),
      ih (o+r.len) hrest (by omega), entries_cons]
    by_cases hlive : r.ino = 0
    · rw [entries_dead r hlive]
      simp [hlive]
    · rw [entries_live r hlive]
      by_cases hname : r.name = name
      · subst hname
        simp [hlive, resolve]
      · have hskip : resolve ([(r.name,r.ino)]++entries rs) name = resolve (entries rs) name :=
          resolve_skip [] (entries rs) hname
        have hmem : name ∈ ([(r.name,r.ino)]++entries rs).map Prod.fst ↔ name ∈ (entries rs).map Prod.fst := by
          simp [Ne.symm hname]
        have hno : (r.ino != 0 && r.name == name) = false := by simp [hname]
        rw [hno, if_neg (by simp)]
        simp only [hmem]
        rw [hskip]

theorem room_block (needed fuel : ℕ) (rs : List Rec) (o : ℕ)
    (ht : Tiled (ext2ReadBlock v (ext2GetBlock v dir idx)) o rs) (hend : o+span rs = v.blockSize) :
    ((∀ r ∈ rs, ¬HasRoom needed r) ∧
      roomFrom v dir needed (rs.length+fuel) (idx*v.blockSize+o) = roomFrom v dir needed fuel ((idx+1)*v.blockSize)) ∨
      ∃ rs1 r rs2, rs = rs1++r::rs2 ∧ HasRoom needed r ∧
        roomFrom v dir needed (rs.length+fuel) (idx*v.blockSize+o) = some (some (idx*v.blockSize+(o+span rs1))) := by
  induction rs generalizing o with
  | nil =>
    simp only [span, List.map_nil, List.sum_nil, Nat.add_zero] at hend
    left
    simp [hend, Nat.add_mul]
  | cons r rs ih =>
    obtain ⟨hr,hf,hrest⟩ := ht
    rw [span_cons] at hend
    rw [List.length_cons, Nat.add_right_comm, room_record idx hb hsize needed _ o r hr hf (by omega)]
    by_cases hroom : HasRoom needed r
    · right
      refine ⟨[],r,rs,rfl,hroom,?_⟩
      rw [HasRoom] at hroom
      rw [if_pos hroom]
      rfl
    · have hno : ¬needed ≤ r.len-actualSize r.name.length := hroom
      rw [if_neg hno]
      rcases ih (o+r.len) hrest (by omega) with ⟨hnone,heq⟩ | ⟨rs1,q,rs2,rfl,hq,heq⟩
      · left
        refine ⟨fun x hx => ?_,heq⟩
        rcases List.mem_cons.mp hx with rfl | hx
        · exact hroom
        · exact hnone x hx
      · right
        refine ⟨r::rs1,q,rs2,rfl,hq,?_⟩
        rw [heq, span_cons, Nat.add_assoc]

end

section
variable (v : Volume) (dir : Inode)

theorem lookup_blocks (name : Name) (fuel : ℕ) (rss : List (List Rec)) (k : ℕ)
    (hblock : ∀ j rs, rss[j]? = some rs → BlockTiled v dir (k+j) rs) (hsize : iSize dir = (k+rss.length)*v.blockSize) :
    lookupFrom v dir name (rss.flatten.length+(fuel+1)) (k*v.blockSize) = some (resolve (entries rss.flatten) name) := by
  induction rss generalizing k with
  | nil =>
    simp [lookup_from_succ, hsize, entries, resolve]
  | cons rs rss ih =>
    obtain ⟨hb,ht,hspan⟩ := hblock 0 rs rfl
    have hle : (k+1)*v.blockSize ≤ iSize dir := by
      rw [hsize, List.length_cons]
      exact Nat.mul_le_mul_right _ (by omega)
    have hwalk := lookup_block k hb hle name (rss.flatten.length+(fuel+1)) rs 0 ht (by omega)
    simp only [Nat.add_zero] at hwalk
    rw [List.flatten_cons, List.length_append, Nat.add_assoc, hwalk, entries_append]
    split_ifs with hmem
    · congr 1
      rw [resolve, resolve, List.find?_append]
      have hsome : ((entries rs).find? fun e => e.1 == name).isSome = true := by
        rw [List.find?_isSome]
        obtain ⟨e,he,heq⟩ := List.mem_map.mp hmem
        exact ⟨e,he,by simp [heq]⟩
      rw [Option.or_of_isSome hsome]
    · rw [resolve_append _ _ _ hmem]
      apply ih (k+1)
      · intro j ss hj
        have := hblock (j+1) ss (by simpa using hj)
        rw [show k+(j+1) = k+1+j by omega] at this
        exact this
      · rw [hsize, List.length_cons]
        congr 1
        omega

theorem room_blocks (needed fuel : ℕ) (rss : List (List Rec)) (k : ℕ)
    (hblock : ∀ j rs, rss[j]? = some rs → BlockTiled v dir (k+j) rs) (hsize : iSize dir = (k+rss.length)*v.blockSize) :
    ((∀ r ∈ rss.flatten, ¬HasRoom needed r) ∧
      roomFrom v dir needed (rss.flatten.length+(fuel+1)) (k*v.blockSize) = some none) ∨
      ∃ j rs1 r rs2, rss[j]? = some (rs1++r::rs2) ∧ HasRoom needed r ∧
        roomFrom v dir needed (rss.flatten.length+(fuel+1)) (k*v.blockSize) =
          some (some ((k+j)*v.blockSize+span rs1)) := by
  induction rss generalizing k with
  | nil =>
    left
    simp [room_from_succ, hsize]
  | cons rs rss ih =>
    obtain ⟨hb,ht,hspan⟩ := hblock 0 rs rfl
    have hle : (k+1)*v.blockSize ≤ iSize dir := by
      rw [hsize, List.length_cons]
      exact Nat.mul_le_mul_right _ (by omega)
    have hwalk := room_block k hb hle needed (rss.flatten.length+(fuel+1)) rs 0 ht (by omega)
    simp only [Nat.add_zero] at hwalk
    rw [List.flatten_cons, List.length_append, Nat.add_assoc]
    rcases hwalk with ⟨hnone,heq⟩ | ⟨rs1,r,rs2,rfl,hroom,heq⟩
    · rw [heq]
      have hnext := ih (k+1) (fun j ss hj => by
        have := hblock (j+1) ss (by simpa using hj)
        rw [show k+(j+1) = k+1+j by omega] at this
        exact this) (by rw [hsize, List.length_cons]; congr 1; omega)
      rcases hnext with ⟨hrest,hend⟩ | ⟨j,rs1,r,rs2,hj,hroom,hfound⟩
      · left
        refine ⟨fun r hr => ?_,hend⟩
        rcases List.mem_append.mp hr with hr | hr
        · exact hnone r hr
        · exact hrest r hr
      · right
        refine ⟨j+1,rs1,r,rs2,by simpa using hj,hroom,?_⟩
        rw [hfound, show k+1+j = k+(j+1) by omega]
    · right
      refine ⟨0,rs1,r,rs2,rfl,hroom,?_⟩
      rw [heq, Nat.add_zero, Nat.zero_add]

end

theorem flatten_length_le {v : Volume} {d : ℕ} {rss : List (List Rec)} (h : Tiles v d rss) :
    rss.flatten.length ≤ iSize (inodeOf v d) := by
  rw [h.size]
  have hblock : ∀ rs ∈ rss, rs.length ≤ v.blockSize := by
    intro rs hrs
    obtain ⟨k,hk⟩ := List.mem_iff_getElem?.mp hrs
    obtain ⟨-,ht,hspan⟩ := h.block k rs hk
    have := tiled_length _ _ _ ht
    omega
  clear h
  induction rss with
  | nil => simp
  | cons rs rss ih =>
    have h1 := hblock rs List.mem_cons_self
    have h2 := ih fun x hx => hblock x (List.mem_cons_of_mem _ hx)
    rw [List.flatten_cons, List.length_append, List.length_cons, Nat.add_mul]
    omega

theorem lookup_eq {v : Volume} (hm : v.mounted = true) {d : ℕ} (hd : d ≠ 0) {rss : List (List Rec)} (h : Tiles v d rss)
    (name : Name) : ext2Lookup v d name = some (resolve (entries rss.flatten) name) := by
  have hlen := flatten_length_le h
  have hwalk := lookup_blocks v (inodeOf v d) name (iSize (inodeOf v d)-rss.flatten.length) rss 0
    (fun j rs hj => by rw [Nat.zero_add]; exact h.block j rs hj) (by rw [Nat.zero_add]; exact h.size)
  rw [Nat.zero_mul, show rss.flatten.length+(iSize (inodeOf v d)-rss.flatten.length+1) = iSize (inodeOf v d)+1 by omega]
    at hwalk
  unfold ext2Lookup
  rw [read_inode_eq hm d hd]
  dsimp only
  rw [h.dir, if_neg (by simp), hwalk]

end HobbyOS.DirWalk
