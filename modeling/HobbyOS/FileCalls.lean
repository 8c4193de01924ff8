import HobbyOS.Exec

/-!
# System calls on ext2 files

What `syscall_handler` does for read, write, lseek and open between its
arguments and `ext2.c`: the path is cut, the permission to read is looked at
when a file is opened, and a descriptor is no more than an inode number with
an offset. Paths are those that no device, mount or node of the virtual file
system takes first.
-/

namespace HobbyOS.FileCalls
open ByteStore Ext2 Exec

def oCreat : ℕ := 0x40
def oTrunc : ℕ := 0x200
def oAppend : ℕ := 0x400

structure Fd where
  ino : ℕ
  offset : ℕ
  deriving DecidableEq, Repr

variable (v : Volume) (cr : Cred) (path : Name) (fd : Fd)

def advance (ret : ℤ) : Fd := if 0 < ret then ⟨fd.ino,(fd.offset+ret.toNat) % 2^64⟩ else fd

def sysRead (count : ℕ) (buf : Store) : Store × Fd × ℤ :=
  match ext2ReadInode v fd.ino with
  | none => (buf,fd,-1)
  | some n =>
    let r := ext2ReadFile v n fd.offset count buf
    (r.1,advance fd r.2,r.2)

def sysWrite (len : ℕ) (buf : Store) : Volume × Fd × ℤ :=
  match ext2ReadInode v fd.ino with
  | none => (v,fd,-1)
  | some n =>
    let r := ext2WriteFile v fd.ino n fd.offset len buf
    (r.1,advance fd r.2,r.2)

/-- The new offset is kept in 64 bits and returned as a signed number. -/
def seekTo (base : ℕ) (offset : ℤ) : Fd × ℤ :=
  let off := ((base : ℤ)+offset) % 2^64
  (⟨fd.ino,off.toNat⟩,if off < 2^63 then off else off-2^64)

def syscallLseek (offset : ℤ) (whence : ℤ) : Fd × ℤ :=
  match ext2ReadInode v fd.ino with
  | none => (fd,-1)
  | some n =>
    if whence = 0 then if offset < 0 then (fd,-1) else seekTo fd 0 offset
    else if whence = 1 then seekTo fd fd.offset offset
    else if whence = 2 then seekTo fd (iSize n) offset
    else (fd,-1)

/-- Directory and last component of a path in a buffer of 256 bytes; without a
directory the root is meant. -/
def splitPath : Option Name × Name :=
  let buf := path.take 255
  let name := (buf.reverse.takeWhile (· ≠ slash)).reverse
  let len := buf.length-name.length-1
  if len = 0 then (none,name) else (some (buf.take len),name)

def parentInode : Option ℕ :=
  match (splitPath path).1 with
  | none => some ext2RootInode
  | some dir => ext2PathLookup v dir

/-- `SYS_OPEN` from `ext2_is_mounted` on; `free` says whether the process has
an unused descriptor. -/
def sysOpen (flags : ℕ) (free : Bool) : Option (Volume × Option Fd) :=
  if v.mounted = false then some (v,none)
  else
    match ext2PathLookup v path with
    | none => none
    | some 0 =>
      if flags &&& oCreat = 0 then some (v,none)
      else
        match parentInode v path with
        | none => none
        | some parent =>
          if parent = 0 ∨ (splitPath path).2 = [] then some (v,none)
          else
            match ext2Create v parent (splitPath path).2 (ext2SIfreg ||| 0o644) with
            | none => none
            | some (v,0) => some (v,none)
            | some (v,ino) => some (v,if free then some ⟨ino,0⟩ else none)
    | some (k+1) =>
      match ext2ReadInode v (k+1) with
      | none => some (v,none)
      | some n =>
        if credCheckRead cr (iMode n) (iUid n) (iGid n) = false then some (v,none)
        else
          let n := if flags &&& oTrunc ≠ 0 then setSize n 0 else n
          let v := if flags &&& oTrunc ≠ 0 then ext2WriteInode v (k+1) n else v
          some (v,if free then some ⟨k+1,if flags &&& oAppend ≠ 0 then iSize n else 0⟩ else none)

end HobbyOS.FileCalls
