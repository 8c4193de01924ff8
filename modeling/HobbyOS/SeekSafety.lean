import HobbyOS.FileCalls
import HobbyOS.ProcfsRead
import HobbyOS.VolumeCheck

/-!
# Positions in files

`syscall_lseek` adds in 64 bits and looks at the sign for `SEEK_SET` only, and
`ext2_write_file` stores a 64-bit end in the 32 bits of `i_size`.
-/

namespace HobbyOS.SeekSafety
open ByteStore Ext2 FileCalls
open Process (FdType)

/-- What a descriptor of type `FD_VFS` reads: a file of the RAM file system, a
text of procfs as long as it is at the call, or a node without a file. None of
them can be written. -/
inductive Node where
  | ramfs (size : ℕ) (h : size < 2^63)
  | procfs (len : ℕ) (h : len < 2^31)
  | other

/-- What a call on a descriptor finds behind it. -/
inductive Object where
  | ext2 (v : Volume)
  | vfs (node : Node)

def Object.type : Object → FdType
  | .ext2 _ => .ext2
  | .vfs _ => .vfs

variable (v : Volume) (fd : Fd) (offset whence : ℤ)

/-- `syscall_lseek` on a descriptor of type `FD_VFS`. -/
def vfsLseek : Fd × ℤ :=
  if whence = 0 then if offset < 0 then (fd,-1) else seekTo fd 0 offset
  else if whence = 1 then seekTo fd fd.offset offset
  else (fd,-1)

def vfsRet (node : Node) (count : ℕ) : ℤ :=
  match node with
  | .ramfs size _ => if size ≤ fd.offset then 0 else toInt (min count (size-fd.offset))
  | .procfs len _ => ProcfsRead.procfsRead len fd.offset count
  | .other => -1

def seek : Object → Fd × ℤ
  | .ext2 v => syscallLseek v fd offset whence
  | .vfs _ => vfsLseek fd offset whence

/-- The position is the answer, or the call fails and the position stays. -/
def Safe (r : Fd × ℤ) : Prop := 0 ≤ r.2 ∧ (r.1.offset : ℤ) = r.2 ∨ r.2 = -1 ∧ r.1.offset = fd.offset

def InRange (p : ℤ) : Prop := 0 ≤ p ∧ p < 2^63

theorem seek_to_safe_iff (base : ℕ) (hfd : fd.offset < 2^63) (hb : base < 2^63)
    (ho : -2^63 ≤ offset ∧ offset < 2^63) :
    Safe fd (seekTo fd base offset) ↔ InRange (base+offset) := by
  unfold Safe InRange seekTo
  dsimp only
  split_ifs <;> omega

/-- The positions that relative seeks of a readable file ask for. -/
def Ext2Ok : Prop := ∀ n, ext2ReadInode v fd.ino = some n →
  (whence = 1 → InRange (fd.offset+offset)) ∧ (whence = 2 → InRange (iSize n+offset))

def SeekOk : Object → Prop
  | .ext2 v => Ext2Ok v fd offset whence
  | .vfs _ => whence = 1 → InRange (fd.offset+offset)

section
variable (hfd : fd.offset < 2^63) (ho : -2^63 ≤ offset ∧ offset < 2^63)
include hfd ho

theorem vfs_safe_iff :
    Safe fd (vfsLseek fd offset whence) ↔ (whence = 1 → InRange (fd.offset+offset)) := by
  have h0 := seek_to_safe_iff fd offset 0 hfd (by decide) ho
  have h1 := seek_to_safe_iff fd offset fd.offset hfd hfd ho
  unfold vfsLseek
  split_ifs with hz hneg hone
  · exact iff_of_true (.inr ⟨rfl,rfl⟩) (by omega)
  · exact iff_of_true (h0.mpr ⟨by omega,by omega⟩) (by omega)
  · rw [h1]
    exact ⟨fun h _ => h,fun h => h hone⟩
  · exact iff_of_true (.inr ⟨rfl,rfl⟩) fun h => absurd h hone

theorem ext2_safe_iff : Safe fd (syscallLseek v fd offset whence) ↔ Ext2Ok v fd offset whence := by
  unfold syscallLseek Ext2Ok
  cases hn : ext2ReadInode v fd.ino with
  | none => exact iff_of_true (.inr ⟨rfl,rfl⟩) fun n h => by cases h
  | some n =>
    have hsize : iSize n < 2^32 := load_lt n 4 4
    have h2 := seek_to_safe_iff fd offset (iSize n) hfd (by omega) ho
    have hvfs := vfs_safe_iff fd offset whence hfd ho
    unfold vfsLseek at hvfs
    simp only [Option.some.injEq, forall_eq']
    split_ifs at hvfs ⊢ with hz hneg hone htwo
    · exact iff_of_true (.inr ⟨rfl,rfl⟩) (by omega)
    · exact iff_of_true (hvfs.mpr (by omega)) (by omega)
    · rw [hvfs]
      exact ⟨fun h => ⟨h,by omega⟩,And.left⟩
    · rw [h2]
      exact ⟨fun h => ⟨by omega,fun _ => h⟩,fun h => h.2 htwo⟩
    · exact iff_of_true (.inr ⟨rfl,rfl⟩) ⟨fun h => absurd h hone,fun h => absurd h htwo⟩

theorem seek_safe_iff (o : Object) :
    Safe fd (seek fd offset whence o) ↔ SeekOk fd offset whence o := by
  cases o with
  | ext2 v => exact ext2_safe_iff v fd offset whence hfd ho
  | vfs node => exact vfs_safe_iff fd offset whence hfd ho

end

/-- `SYS_GETDENTS` leaves the index of the next name in a directory of the VFS. -/
inductive Call where
  | lseek (offset whence : ℤ)
  | read (count : ℕ) (buf : Store)
  | write (len : ℕ) (buf : Store)
  | getdents (idx : ℕ)

def act : Object → Call → Fd
  | o, .lseek offset whence => (seek fd offset whence o).1
  | .ext2 v, .read count buf => (sysRead v fd count buf).2.1
  | .vfs node, .read count _ => advance fd (vfsRet fd node count)
  | .ext2 v, .write len buf => (sysWrite v fd len buf).2.1
  | .vfs _, .write _ _ => fd
  | .ext2 _, .getdents _ => fd
  | .vfs _, .getdents idx => ⟨fd.ino,idx % 2^32⟩

def Fine (o : Object) : Call → Prop
  | .lseek offset whence => (-2^63 ≤ offset ∧ offset < 2^63) ∧ SeekOk fd offset whence o
  | .write len _ => fd.offset+len < 2^63
  | .read _ _ | .getdents _ => True

/-- The volume or node at each call is any of the descriptor's type. -/
inductive Reach (type : FdType) : Fd → Prop
  | opened (ino offset : ℕ) (h : offset < 2^32) : Reach type ⟨ino,offset⟩
  | call (o : Object) (fd : Fd) (c : Call) (h : Reach type fd) (ho : o.type = type)
      (hc : Fine fd o c) : Reach type (act fd o c)

theorem seek_lt (o : Object) : (seek fd offset whence o).2 < 2^63 := by
  have hseek : ∀ base, (seekTo fd base offset).2 < 2^63 := by
    intro base
    unfold seekTo
    dsimp only
    split_ifs <;> omega
  have hfail : (fd,(-1 : ℤ)).2 < 2^63 := by norm_num
  cases o with
  | ext2 v =>
    unfold seek syscallLseek
    dsimp only
    split
    · exact hfail
    · split_ifs
      exacts [hfail,hseek _,hseek _,hseek _,hfail]
  | vfs node =>
    unfold seek vfsLseek
    dsimp only
    split_ifs
    exacts [hfail,hseek _,hseek _,hfail]

theorem to_int_le (n : ℕ) : toInt n ≤ n := by
  unfold toInt
  split_ifs <;> omega

theorem advance_le (n : ℕ) (ret : ℤ) (h : ret ≤ n) : (advance fd ret).offset ≤ fd.offset+n := by
  unfold advance
  split_ifs
  · exact (Nat.mod_le _ _).trans (by omega)
  · exact Nat.le_add_right _ _

theorem bytes_written_le (off size : ℕ) (buf : Store) (fuel : ℕ) (w : Written)
    (hw : w.bytesWritten ≤ size) : (writeFileFrom off size buf fuel w).bytesWritten ≤ size := by
  induction fuel generalizing w with
  | zero => exact hw
  | succ fuel ih =>
    rw [writeFileFrom]
    split_ifs
    · exact hw
    · dsimp only
      split
      · exact hw
      · exact ih _ (by dsimp only; omega)

theorem write_file_le (ino : ℕ) (n : Inode) (off size : ℕ) (buf : Store) :
    (ext2WriteFile v ino n off size buf).2 ≤ size := by
  have hle := bytes_written_le off size buf size ⟨v,n,0,true⟩ (Nat.zero_le _)
  have hint := to_int_le (writeFileFrom off size buf size ⟨v,n,0,true⟩).bytesWritten
  unfold ext2WriteFile
  split_ifs
  · dsimp only
    omega
  · dsimp only
    split_ifs <;> dsimp only <;> omega

theorem vfs_ret_le (node : Node) (count : ℕ) (h : fd.offset < 2^63) :
    fd.offset+vfsRet fd node count < 2^63 := by
  unfold vfsRet
  cases node with
  | ramfs size hs =>
    dsimp only
    split_ifs
    · omega
    · have := to_int_le (min count (size-fd.offset))
      omega
  | procfs len hl =>
    have hle := ProcfsRead.procfs_read_le len fd.offset count hl h
    dsimp only
    omega
  | other =>
    dsimp only
    omega

theorem reach_offset {type : FdType} (h : Reach type fd) : fd.offset < 2^63 := by
  induction h with
  | opened ino offset h => exact h.trans (by decide)
  | call o fd c _ _ hc ih =>
    cases c with
    | lseek offset whence =>
      have hsafe := (seek_safe_iff fd offset whence ih hc.1 o).mpr hc.2
      have hret := seek_lt fd offset whence o
      change (seek fd offset whence o).1.offset < 2^63
      rcases hsafe with ⟨-,he⟩ | ⟨-,he⟩ <;> omega
    | read count buf =>
      cases o with
      | ext2 v =>
        change (sysRead v fd count buf).2.1.offset < 2^63
        unfold sysRead
        cases hn : ext2ReadInode v fd.ino with
        | none => exact ih
        | some n =>
          have hsize : iSize n < 2^32 := load_lt n 4 4
          dsimp only
          unfold ext2ReadFile
          split_ifs with hend
          · exact (advance_le fd 0 0 le_rfl).trans_lt ih
          · have hle := advance_le fd (min count (iSize n-fd.offset)) _ (to_int_le _)
            dsimp only
            omega
      | vfs node =>
        have hret := vfs_ret_le fd node count ih
        have hle := advance_le fd (vfsRet fd node count).toNat _ (Int.self_le_toNat _)
        change (advance fd (vfsRet fd node count)).offset < 2^63
        omega
    | write len buf =>
      cases o with
      | ext2 v =>
        change (sysWrite v fd len buf).2.1.offset < 2^63
        unfold sysWrite
        cases hn : ext2ReadInode v fd.ino with
        | none => exact ih
        | some n =>
          have hle := advance_le fd len _ (write_file_le v fd.ino n fd.offset len buf)
          exact hle.trans_lt hc
      | vfs node => exact ih
    | getdents idx =>
      cases o with
      | ext2 v => exact ih
      | vfs node => exact (Nat.mod_lt idx (by decide)).trans (by decide)

def inodeAfter (off : ℕ) (w : Written) : Inode :=
  let newEnd := (off+w.bytesWritten) % 2^64
  if iSize w.inode < newEnd then setSize w.inode newEnd else w.inode

/-- The state in which the loop of `ext2_write_file` ends. -/
def written (n : Inode) (off size : ℕ) (buf : Store) : Written :=
  writeFileFrom off size buf size ⟨v,n,0,true⟩

/-- The inode that the call writes back; one that stops early writes none. -/
def storedInode (n : Inode) (off size : ℕ) (buf : Store) : Option Inode :=
  if v.mounted = true ∧ (written v n off size buf).complete = true then
    some (inodeAfter off (written v n off size buf))
  else none

theorem write_file_eq (ino : ℕ) (n : Inode) (off size : ℕ) (buf : Store) :
    (ext2WriteFile v ino n off size buf).1 = (storedInode v n off size buf).elim
      (if v.mounted then (written v n off size buf).volume else v)
      fun m => ext2FlushMetadata (ext2WriteInode (written v n off size buf).volume ino m) := by
  unfold ext2WriteFile storedInode
  cases hm : v.mounted with
  | false => rfl
  | true =>
    cases hc : (written v n off size buf).complete with
    | false =>
      unfold written at hc ⊢
      simp [hc]
    | true =>
      unfold written at hc ⊢
      simp [hc, inodeAfter]

/-- The size stored is the end of the write, or the old size if that is larger. -/
def EndKept (n : Inode) (off size : ℕ) (buf : Store) : Prop :=
  ∀ m ∈ storedInode v n off size buf, iSize m =
    max (iSize (written v n off size buf).inode) (off+(written v n off size buf).bytesWritten)

theorem block_for_write_size {v w : Volume} {n m : Inode} {idx b : ℕ}
    (h : blockForWrite v n idx = some (w,m,b)) : w.blockSize = v.blockSize := by
  have halloc : ∀ v, (ext2AllocBlock v).1.blockSize = v.blockSize := by
    intro v
    unfold ext2AllocBlock
    split <;> rfl
  have hind : ∀ v n w m, indirectBlock v n = some (w,m) → w.blockSize = v.blockSize := by
    intro v n w m h
    unfold indirectBlock at h
    split_ifs at h
    · cases h
      rfl
    · split at h <;> cases h
      next u _ _ hu => exact (congrArg (·.1.blockSize) hu).symm.trans (halloc v)
  have hset : ∀ v n b, (ext2SetBlock v n idx b).1.blockSize = v.blockSize := by
    intro v n b
    unfold ext2SetBlock
    split_ifs
    · rfl
    · split
      · rfl
      · next w m hw => exact hind v n w m hw
    · rfl
  unfold blockForWrite at h
  split_ifs at h
  · cases h
    rfl
  · split at h <;> cases h
    next u _ hu => exact (hset u n b).trans ((congrArg (·.1.blockSize) hu).symm.trans (halloc v))

/-- A write that does not stop early has written all its bytes. -/
theorem complete_written (off size : ℕ) (buf : Store) (fuel : ℕ) (w : Written)
    (hb : 0 < w.volume.blockSize) (hle : w.bytesWritten ≤ size) (hf : size ≤ w.bytesWritten+fuel)
    (h : (writeFileFrom off size buf fuel w).complete = true) :
    (writeFileFrom off size buf fuel w).bytesWritten = size := by
  induction fuel generalizing w with
  | zero =>
    rw [writeFileFrom]
    omega
  | succ fuel ih =>
    rw [writeFileFrom] at h ⊢
    split_ifs at h ⊢
    · omega
    · dsimp only at h ⊢
      split at h
      · cases h
      · next v n b hv =>
        have hpos := Nat.mod_lt ((off+w.bytesWritten) % 2^64) hb
        exact ih _ (by rw [← block_for_write_size hv] at hb; exact hb) (by dsimp only; omega)
          (by dsimp only; omega) h

theorem size_stored_iff (off : ℕ) (w : Written) (h : off+w.bytesWritten < 2^64) :
    iSize (inodeAfter off w) = max (iSize w.inode) (off+w.bytesWritten) ↔
      off+w.bytesWritten < 2^32 := by
  have hlt : iSize (inodeAfter off w) < 2^32 := load_lt _ 4 4
  refine ⟨fun he => by omega,fun hend => ?_⟩
  unfold inodeAfter
  dsimp only
  rw [Nat.mod_eq_of_lt h]
  split_ifs with hgrow
  · rw [max_eq_right hgrow.le]
    exact load_store_of_lt w.inode 4 4 _ hend
  · rw [max_eq_left (by omega)]

theorem end_kept_iff (n : Inode) (off size : ℕ) (buf : Store) (hb : 0 < v.blockSize)
    (h : off+size < 2^64) :
    EndKept v n off size buf ↔ ((storedInode v n off size buf).isSome → off+size < 2^32) := by
  have hall := complete_written off size buf size ⟨v,n,0,true⟩ hb (Nat.zero_le _) (by omega)
  unfold EndKept storedInode
  split_ifs with hs
  · have hsize : (written v n off size buf).bytesWritten = size := hall hs.2
    have hiff := size_stored_iff off (written v n off size buf) (by omega)
    rw [hsize] at hiff ⊢
    simpa using hiff
  · simp

/-- Positions stay in range, `lseek` is safe exactly on requests in range, and
a write keeps its end exactly if it stops early or is to end below `2^32`. -/
theorem seek_safety (type : FdType) (h : Reach type fd) (o : Object)
    (ho : -2^63 ≤ offset ∧ offset < 2^63) :
    fd.offset < 2^63 ∧ (Safe fd (seek fd offset whence o) ↔ SeekOk fd offset whence o) ∧
    ∀ n len buf, 0 < v.blockSize → fd.offset+len < 2^64 →
      (ext2WriteFile v fd.ino n fd.offset len buf).1 = (storedInode v n fd.offset len buf).elim
        (if v.mounted then (written v n fd.offset len buf).volume else v)
        (fun m => ext2FlushMetadata
          (ext2WriteInode (written v n fd.offset len buf).volume fd.ino m)) ∧
      (EndKept v n fd.offset len buf ↔
        ((storedInode v n fd.offset len buf).isSome → fd.offset+len < 2^32)) := by
  have hfd := reach_offset fd h
  exact ⟨hfd,seek_safe_iff fd offset whence hfd ho o,fun n len buf hb hend =>
    ⟨write_file_eq v fd.ino n fd.offset len buf,end_kept_iff v n fd.offset len buf hb hend⟩⟩

/-- An empty file, inode 3, on a volume with room. -/
def emptyFile : Volume :=
  VolumeCheck.small 16 [zeros,zeros,VolumeCheck.fileInode 0x81A4 1 0 []] []

/-- Ten bytes of a file in memory are read, and a seek goes back eleven. -/
theorem seek_safety_back : (act ⟨2,0⟩ (.vfs (.ramfs 10 (by decide))) (.read 64 zeros)).offset = 10 ∧
    ¬Safe ⟨2,10⟩ (vfsLseek ⟨2,10⟩ (-11) 1) := by
  have hread : act ⟨2,0⟩ (.vfs (.ramfs 10 (by decide))) (.read 64 zeros) = ⟨2,10⟩ := rfl
  have hreach : Reach .vfs ⟨2,10⟩ :=
    hread ▸ .call (.vfs (.ramfs 10 (by decide))) ⟨2,0⟩ (.read 64 zeros) (.opened 2 0 (by decide))
      rfl trivial
  refine ⟨by rw [hread],fun hs => ?_⟩
  have hok := (seek_safety emptyFile ⟨2,10⟩ (-11) 1 .vfs hreach (.vfs .other) (by decide)).2.1.mp hs
  exact absurd (hok rfl).1 (by decide)

/-- A seek before the start of a file of either kind, and a byte written at
4 GiB, after which the file has one byte. -/
theorem seek_before_start : vfsLseek ⟨3,0⟩ (-1) 1 = (⟨3,2^64-1⟩,-1) ∧
    syscallLseek emptyFile ⟨3,0⟩ (-1) 1 = (⟨3,2^64-1⟩,-1) ∧
    syscallLseek emptyFile ⟨3,0⟩ (2^32) 0 = (⟨3,2^32⟩,2^32) ∧
    (sysWrite emptyFile ⟨3,2^32⟩ 1 zeros).2 = (⟨3,2^32+1⟩,1) ∧
    (ext2ReadInode (sysWrite emptyFile ⟨3,2^32⟩ 1 zeros).1 3).map iSize = some 1 := by
  decide +kernel

end HobbyOS.SeekSafety
