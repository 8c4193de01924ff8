import HobbyOS.Process

/-!
# Which addresses the kernel touches for a user pointer

The range checks of `user_access.c` and of the system calls that take a
buffer or a path, on 64-bit pointers and lengths, with the addresses that the
code behind each check goes on to read or write. All checks compare with
`KERNEL_VMA`; the direct map of physical memory lies below it.
-/

namespace HobbyOS.UserAccess
open Process

abbrev Addr := BitVec 64

def kernelVma : Addr := 0xFFFFFFFF80000000
def userTop : ℕ := 2^47

def touched (p : Addr) (n : ℕ) : List Addr := (List.range n).map fun i => p+BitVec.ofNat 64 i

def rangeOk (start len : Addr) : Bool :=
  !(decide (kernelVma ≤ start) || decide (kernelVma ≤ start+len) || decide (start+len < start))

/-- The check of `SYS_READ`, `SYS_WRITE` and `SYS_GETDENTS`. -/
def bufferOk (buf len : Addr) : Bool :=
  !(decide (kernelVma ≤ buf) || decide (kernelVma ≤ buf+len))

def copyUser (start len : Addr) : Option (List Addr) :=
  if rangeOk start len then some (touched start len.toNat) else none

def copyFromUser (src len : Addr) : Option (List Addr) := copyUser src len

def copyToUser (dst len : Addr) : Option (List Addr) := copyUser dst len

/-- How much of the buffer `SYS_WRITE` hands on, when the object behind the
descriptor has room for `room` bytes. The terminal takes everything; most
callees get the length cut to 32 bits. -/
def written (type : FdType) (len : Addr) (room : ℕ) : ℕ :=
  match type with
  | .console => len.toNat % 2^32
  | .pipeWrite | .device | .socket => min (len.toNat % 2^32) room
  | .vfs | .ext2 => min len.toNat room
  | .none | .pipeRead | .epoll => 0

/-- How much of the buffer `SYS_READ` fills, when the object has `avail`
bytes to give. -/
def filled (type : FdType) (len : Addr) (avail : ℕ) : ℕ :=
  match type with
  | .console | .pipeRead | .device | .socket => min (len.toNat % 2^32) avail
  | .vfs | .ext2 => min len.toNat avail
  | .none | .pipeWrite | .epoll => 0

def sysWrite (buf len : Addr) (type : FdType) (room : ℕ) : Option (List Addr) :=
  if bufferOk buf len then some (touched buf (written type len room)) else none

def sysRead (buf len : Addr) (type : FdType) (avail : ℕ) : Option (List Addr) :=
  if bufferOk buf len then some (touched buf (filled type len avail)) else none

/-- The entries for names of these lengths, packed behind `written` bytes as
long as the next one fits. The loop over the nodes of the VFS also asks for
room for an entry of the largest size, 5 bytes and a name of 32. -/
def packEntries (nodes : Bool) (size : ℕ) : ℕ → List ℕ → ℕ
  | written, [] => written
  | written, n::ns =>
    if nodes ∧ size ≤ written+37 ∨ size < written+(5+n) then written
    else packEntries nodes size (written+(5+n)) ns

/-- How much of the buffer `SYS_GETDENTS` fills. Behind a VFS descriptor there
are `nodes`, and for the root directory also the `files` of the volume's root. -/
def listed (type : FdType) (len : Addr) (nodes files : List ℕ) : ℕ :=
  match type with
  | .vfs => packEntries false len.toNat (packEntries true len.toNat 0 nodes) files
  | .ext2 => packEntries false len.toNat 0 files
  | _ => 0

def sysGetdents (buf len : Addr) (type : FdType) (nodes files : List ℕ) : Option (List Addr) :=
  if bufferOk buf len then some (touched buf (listed type len nodes files)) else none

/-- A string is read up to its terminator or up to `limit` bytes. -/
def stringBytes (mem : Addr → UInt8) (p : Addr) : ℕ → ℕ
  | 0 => 0
  | limit+1 => if mem p = 0 then 1 else stringBytes mem (p+1) limit+1

def pathArgument (mem : Addr → UInt8) (path : Addr) (limit : ℕ) : Option (List Addr) :=
  if kernelVma ≤ path then none else some (touched path (stringBytes mem path limit))

inductive Request where
  | copyFromUser (src len : Addr)
  | copyToUser (dst len : Addr)
  | write (buf len : Addr) (type : FdType) (room : ℕ)
  | read (buf len : Addr) (type : FdType) (avail : ℕ)
  | getdents (buf len : Addr) (type : FdType) (nodes files : List ℕ)
  | path (mem : Addr → UInt8) (path : Addr) (limit : ℕ)

def access : Request → Option (List Addr)
  | .copyFromUser src len => copyFromUser src len
  | .copyToUser dst len => copyToUser dst len
  | .write buf len type room => sysWrite buf len type room
  | .read buf len type avail => sysRead buf len type avail
  | .getdents buf len type nodes files => sysGetdents buf len type nodes files
  | .path mem path limit => pathArgument mem path limit

/-- The range whose end the call computes; a path has none. -/
def range : Request → Option (Addr × Addr)
  | .copyFromUser p len | .copyToUser p len | .write p len _ _ | .read p len _ _
  | .getdents p len _ _ _ => some (p,len)
  | .path _ _ _ => none

/-- If the call accepts its range and touches it, every byte lies in the lower
half and the end of the range is the true sum. -/
def Confined (r : Request) : Prop :=
  ∀ as, access r = some as → as ≠ [] →
    (∀ a ∈ as, a.toNat < userTop) ∧ ∀ p len, range r = some (p,len) → p.toNat+len.toNat < 2^64

def Request.count : Request → ℕ
  | .copyFromUser _ len | .copyToUser _ len => len.toNat
  | .write _ len type room => written type len room
  | .read _ len type avail => filled type len avail
  | .getdents _ len type nodes files => listed type len nodes files
  | .path mem p limit => stringBytes mem p limit

def Request.start : Request → Addr
  | .copyFromUser p _ | .copyToUser p _ | .write p _ _ _ | .read p _ _ _ | .getdents p _ _ _ _
  | .path _ p _ => p

end HobbyOS.UserAccess
