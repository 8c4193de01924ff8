import HobbyOS.ForkTotal
import HobbyOS.PageMapping
import HobbyOS.UserAccess

/-!
# Faults of the kernel on user pointers

A system call uses its pointer directly once the range check has passed. A
fault in kernel mode goes through the same handlers as one in user mode, but
where they give up a user process is killed and the kernel panics. The bytes
of a call are used one after the other, each in the state that the faults
before it have left; what the call stores in them is not modelled.
-/

namespace HobbyOS.KernelFault
open RadixTree PageEntry PhysMem Process UserVm Mmap AddressSpace
  TableGrowth PageAlloc PageMapping ForkTotal UserAccess Function

/-- The page is on the swap disk and can be read back. -/
def Stored (c : Ctx) (s : Mem) (e : Pte) : Prop :=
  s.swapReady = true ∧ bit e 10 = true ∧ c.ataReadOk (e.toNat/pageSize % 2^32) = true

/-- The area around the address allows the access. -/
def Granted (x : Proc) (write : Bool) (a : ℕ) : Prop :=
  ∃ i, vmaFind x a = some i ∧ (write = true → (x.vmas i).prot &&& protWrite ≠ 0)

/-- The page is there with the right it takes, or copy-on-write, or lies in
an area that allows the access, or is swapped out. -/
def Served (p : ℕ) (kernelMaps : ℕ → Bool → Bool) (write : Bool) (c : Ctx) (s : Mem)
    (a : ℕ) : Prop :=
  if userTop ≤ a then kernelMaps a write = true
  else if bit (pteAt s.ram (c.table p).cr3 a) 0 = true then
    write = false ∨ bit (pteAt s.ram (c.table p).cr3 a) 1 = true ∨
      bit (pteAt s.ram (c.table p).cr3 a) 9 = true
  else Granted (c.table p) write a ∨ Stored c s (pteAt s.ram (c.table p).cr3 a)

/-! ## What a fault leaves behind -/

section states
variable {log : List Eviction} {k root : ℕ} {s s1 s' : Mem}

/-- Frames have been taken, and no page of the space has moved. -/
structure Kept (log : List Eviction) (k root : ℕ) (s s' : Mem) : Prop where
  trees : Trees s' (· = root)
  roomy : Roomy log k s'
  swap : s'.swapReady = s.swapReady
  tables : ∀ v < userPages, leafTable s'.ram root v = leafTable s.ram root v
  leaves : ∀ v < userPages, leaf s'.ram root v = leaf s.ram root v

end states

section handlers
variable {log : List Eviction} {k : ℕ} (c : Ctx) {s : Mem} (p : ℕ) (write : Bool) {a : ℕ}

section areas
variable (hT : Trees s (· = (c.table p).cr3)) (hR : Roomy log (k+4) s)
include hT hR

end areas

variable {root : ℕ}

end handlers

/-! ## The bytes of a call -/

section bytes
variable (p : ℕ) (kernelMaps : ℕ → Bool → Bool) (write : Bool)

/-- Areas begin and end on pages, as `syscall_mmap` and the ELF loader leave them. -/
def Paged (x : Proc) : Prop := ∀ i, pageSize ∣ (x.vmas i).start ∧ pageSize ∣ (x.vmas i).stop

variable {c : Ctx} {s : Mem}

end bytes

/-- One use of a pointer by a call: a checked range or path, the result of
`SYS_PIPE`, a record of which only the start is compared (as in `SYS_STAT` and
`SYS_MMAP`) and which may be optional (`SYS_WAIT`, `SYS_WAITPID` and
`SYS_SENDFILE` leave a null pointer alone), or a buffer of `SYS_SEND`,
`SYS_RECV` and `SYS_IOCTL`, which compare nothing. -/
inductive Call where
  | request (r : Request)
  | pipe (fds : Addr)
  | record (write optional : Bool) (p : Addr) (size : ℕ)
  | buffer (write : Bool) (p : Addr) (count : ℕ)

/-- The bytes the call uses, if it does not turn the pointer down. -/
def Call.access : Call → Option (List Addr)
  | .request r => UserAccess.access r
  | .pipe fds => if bufferOk fds 8 then some (touched fds 8) else none
  | .record _ optional p size =>
    if optional = true ∧ p = 0 then some []
    else if UserAccess.kernelVma ≤ p then none
    else some (touched p size)
  | .buffer _ p count => some (touched p count)

def Call.bytes : Call → List Addr
  | .request r => touched r.start r.count
  | .pipe fds => touched fds 8
  | .record _ optional p n => if optional = true ∧ p = 0 then [] else touched p n
  | .buffer _ p n => touched p n

def Call.writes : Call → Bool
  | .request (.copyToUser _ _) | .request (.read _ _ _ _) | .request (.getdents _ _ _ _ _) => true
  | .request (.copyFromUser _ _) | .request (.write _ _ _ _) | .request (.path _ _ _) => false
  | .pipe _ => true
  | .record write _ _ _ | .buffer write _ _ => write

/-- How many pages the bytes of the call lie on. -/
def Call.pages (r : Call) : ℕ := (r.bytes.map (·.toNat/4096)).toFinset.card

/-- A process with one writable page that it has not used yet. -/
def oneArea : Ctx where
  table := fun _ => { pid := 1, cr3 := 1, isUser := true, vmas := fun i =>
    if i = 0 then { inUse := true, start := 0x400000, stop := 0x401000, prot := 3 } else {} }
  current := some 0

end HobbyOS.KernelFault
