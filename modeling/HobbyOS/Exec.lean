import HobbyOS.Elf
import HobbyOS.CowIsolation

/-!
# exec and execv

`syscall_exec` and `syscall_execv` with every resource they take, and the
permission checks of `cred.c`. The two calls differ in the length of the name
buffer, the arguments and the names tried in the RAM file system.
-/

namespace HobbyOS.Exec
open ByteStore BlockList PageEntry PhysMem UserVm AddressSpace Process
open KHeap VmaTable Ext2 Elf

structure Cred where
  uid : ℕ
  gid : ℕ
  euid : ℕ
  egid : ℕ
  deriving DecidableEq, Repr

def credCheck (owner group other : ℕ) (cr : Cred) (mode uid gid : ℕ) : Bool :=
  if cr.euid = 0 then true
  else if cr.euid = uid then mode &&& owner != 0
  else if cr.egid = gid then mode &&& group != 0
  else mode &&& other != 0

def credCheckRead : Cred → ℕ → ℕ → ℕ → Bool := credCheck 0o400 0o040 0o004
def credCheckExec : Cred → ℕ → ℕ → ℕ → Bool := credCheck 0o100 0o010 0o001

def sIsuid : ℕ := 0x0800
def sIsgid : ℕ := 0x0400

def execCred (cr : Cred) : Option Inode → Cred
  | none => cr
  | some n =>
    let cr := if iMode n &&& sIsuid ≠ 0 then { cr with euid := iUid n } else cr
    if iMode n &&& sIsgid ≠ 0 then { cr with egid := iGid n } else cr

/-- What does not change during the call: the volume, the files of the RAM
file system and the root of the kernel. -/
structure World where
  ctx : Ctx
  volume : Volume
  ramfs : Name → Option Image
  kernelCr3 : ℕ

structure Caller where
  mem : Mem
  heap : Heap
  proc : Proc
  mmapNext : ℕ
  cred : Cred

def binDir : Name := [47,98,105,110,47]

def execPath (name : Name) : Name := if name.head? = some slash then name else binDir++name

inductive Program where
  | denied
  | found (heap : Heap) (inode : Option Inode) (image : Option Image)

def ext2File (v : Volume) (name : Name) : Option (Option Inode) :=
  if v.mounted = false then some none
  else (ext2PathLookup v (execPath name)).map fun ino =>
    (if ino = 0 then none else ext2ReadInode v ino).filter fun n => iSize n != 0

def ext2Program (v : Volume) (h : Heap) (cr : Cred) : Option Inode → Program
  | none => .found h none none
  | some n =>
    if credCheckExec cr (iMode n) (iUid n) (iGid n) = false then .denied
    else .found (readProgram v h n).1 (some n) (readProgram v h n).2.2

/-- The RAM file system is asked if no bytes came from the volume. -/
def withRamfs (ramfs : Name → Option Image) (names : List Name) : Program → Program
  | .denied => .denied
  | .found h n img => .found h n (img <|> names.findSome? ramfs)

def findProgram (w : World) (s : Caller) (name : Name) (names : List Name) : Option Program :=
  (ext2File w.volume name).map fun file =>
    withRamfs w.ramfs names (ext2Program w.volume s.heap s.cred file)

def userStackTop : ℕ := 0x800000000
def userStackPages : ℕ := 64
def userStackBottom : ℕ := userStackTop-userStackPages*pageSize

def freePages (ps : List ℕ) (s : Mem) : Mem := ps.foldl pmmFreePage s

def allocStack (c : Ctx) : ℕ → List ℕ → Mem → Mem × Option (List ℕ)
  | 0, ps, s => (s,some ps)
  | k+1, ps, s =>
    match allocZeroedPage c s with
    | (s,0) => (freePages ps s,none)
    | (s,p) => allocStack c k (ps++[p]) s

def mapStack (c : Ctx) (root : ℕ) : ℕ → List ℕ → Mem → Mem × Bool
  | _, [], s => (s,true)
  | i, p::ps, s =>
    match userVmMapPage c s root (userStackBottom+i*pageSize) p (ptePresent ||| pteWritable ||| pteUser) with
    | (s,false) => (s,false)
    | (s,true) => mapStack c root (i+1) ps s

/-- The page at the top of the new stack. If a page cannot be mapped all of
them are freed, also those the new address space maps already. -/
def buildStack (c : Ctx) (root : ℕ) (s : Mem) : Mem × Option ℕ :=
  match allocStack c userStackPages [] s with
  | (s,none) => (s,none)
  | (s,some ps) =>
    match mapStack c root 0 ps s with
    | (s,false) => (freePages ps s,none)
    | (s,true) => (s,ps.getLast?)

structure Entry where
  rip : ℕ
  rsp : ℕ
  rdi : ℕ
  rsi : ℕ

/-- The call fails after the old areas are gone: the new address space is
destroyed, table and heap stay as the loader left them. -/
def abandon (s : Caller) (l : Loading) (h : Heap) (root : ℕ) (m : Mem) : Caller :=
  { s with
    mem := userVmDestroyAddressSpace m root
    heap := h
    proc := { s.proc with vmas := l.areas.vmas }
    mmapNext := l.areas.mmapNext }

def commit (w : World) (s : Caller) (l : Loading) (h : Heap) (root : ℕ) (m : Mem) (n : Option Inode)
    (r : ElfLoadResult) : Caller where
  mem :=
    let m := { m with cr3 := w.kernelCr3 }
    { (if s.proc.cr3 = 0 then m else userVmDestroyAddressSpace m s.proc.cr3) with cr3 := root }
  heap := h
  proc := { s.proc with
    cr3 := root
    vmas := l.areas.vmas
    sigHandlers := fun i => if i < 32 ∧ 1 < s.proc.sigHandlers i then 0 else s.proc.sigHandlers i
    sigPending := 0
    inSignalHandler := false
    brkStart := r.loadEnd
    brkCurrent := r.loadEnd }
  mmapNext := mmapBase
  cred := execCred s.cred n

/-- The heap part of `vma_destroy_all`: the images that the areas own. -/
def freeImages (vmas : ℕ → Vma) (h : Heap) : Heap :=
  (List.range vmaMax).foldl (fun h i =>
    if (vmas i).inUse = true ∧ (vmas i).type = .elf ∧ (vmas i).elfDataOwned = true ∧ (vmas i).elfData ≠ 0
    then kfree h (vmas i).elfData else h) h

/-- The new address space is there and the image is known to be valid. -/
def loadInto (w : World) (s : Caller) (h : Heap) (root : ℕ) (n : Option Inode) (img : Image) (argv : List Name) :
    Option (Caller × Option Entry) :=
  (elfLoad w.ctx root w.volume 0 img s.mem (vmaDestroyAll ⟨s.proc.vmas,s.mmapNext⟩)
    (freeImages s.proc.vmas h)).map fun
    | (l,h,none) => (abandon s l h root l.mem,none)
    | (l,h,some r) =>
      match buildStack w.ctx root l.mem with
      | (m,none) => (abandon s l h root m,none)
      | (m,some top) =>
        match elfSetupStack (userStackTop-pageSize) argv r with
        | none => (abandon s l h root m,none)
        | some (page,rsp,argvPtr) =>
          (commit w s l h root { m with ram := Function.update m.ram top page } n r,
            some ⟨r.entryPoint,rsp,argv.length,argvPtr⟩)

/-- The answer `none` in the second place is -1; the call as a whole has no
answer if a path lookup does not return. -/
def execProgram (w : World) (s : Caller) (name : Name) (argv names : List Name) :
    Option (Caller × Option Entry) :=
  match findProgram w s name names with
  | none => none
  | some .denied => some (s,none)
  | some (.found h _ none) => some ({ s with heap := h },none)
  | some (.found h n (some img)) =>
    if elfValidate img = false then some ({ s with heap := h },none)
    else
      match userVmCreateAddressSpace w.ctx s.mem with
      | (m,0) => some ({ s with heap := h, mem := m },none)
      | (m,root) => loadInto w { s with mem := m } h root n img argv

def basename (name : Name) : Name := (name.reverse.takeWhile (· ≠ slash)).reverse

/-- The arguments of `execv`: the name and what the user's vector holds from
its second element on, up to the first pointer that is refused. -/
def execvArgv (base : Name) (argc : ℤ) (args : ℕ → Option Name) : List Name :=
  let argc := if argc < 0 ∨ 32 < argc then 32 else argc.toNat
  base.take 255::(((List.range' 1 (argc-1)).map args).takeWhile Option.isSome).filterMap
    (Option.map (List.take 255))

inductive ExecCall where
  | exec (ptr : ℕ) (path : Name)
  | execv (ptr argvPtr : ℕ) (path : Name) (argc : ℤ) (args : ℕ → Option Name)

/-- The name the call works with; `none` for a pointer into the kernel. -/
def callName : ExecCall → Option Name
  | .exec ptr path => if kernelVma ≤ ptr then none else some (path.take 31)
  | .execv ptr argvPtr path _ _ => if kernelVma ≤ ptr ∨ kernelVma ≤ argvPtr then none else some (path.take 63)

def callArgv (name : Name) : ExecCall → List Name
  | .exec _ _ => [name]
  | .execv _ _ _ argc args => execvArgv (basename name) argc args

def callNames (name : Name) : ExecCall → List Name
  | .exec _ _ => [name]
  | .execv _ _ _ _ _ => [name,basename name]

def syscallExec (w : World) (s : Caller) (call : ExecCall) : Option (Caller × Option Entry) :=
  match callName call with
  | none => some (s,none)
  | some name => execProgram w s name (callArgv name call) (callNames name call)

def liveBlocks (h : Heap) : ℕ :=
  tally blockHdrSize h.block (fun m => m == blockMagicAlloc) h.heapEnd (h.heapEnd-h.heapStart) h.heapStart

/-- What has to be as before: the areas, the address space, the credentials,
the count of free pages and the number of live blocks of the heap. -/
structure Unchanged (s s' : Caller) : Prop where
  vmas : ∀ i < vmaMax, s'.proc.vmas i = s.proc.vmas i
  root : s'.proc.cr3 = s.proc.cr3
  pages : ∀ v < userPages, view s'.mem.ram s.proc.cr3 v = view s.mem.ram s.proc.cr3 v
  bytes : ∀ v < userPages, bit (view s.mem.ram s.proc.cr3 v) 0 = true →
    s'.mem.ram (pteFrame (view s.mem.ram s.proc.cr3 v)) = s.mem.ram (pteFrame (view s.mem.ram s.proc.cr3 v))
  cred : s'.cred = s.cred
  freePages : s'.mem.freePages = s.mem.freePages
  blocks : liveBlocks s'.heap = liveBlocks s.heap

variable {w : World} {call : ExecCall} {s : Caller} {h : Heap}

/-- What the kernel keeps of its pages: the process table names live address
spaces only, the caller's among them, and no page of the kernel is recorded for swap. -/
structure Paged (w : World) (s : Caller) : Prop where
  struct : Struct s.mem
  live : PageAlloc.Live w.ctx s.mem
  root : s.proc.cr3 ∈ s.mem.spaces
  reserved : ∀ p < s.mem.kernelPageLimit, rmapGet s.mem p = none

def shortBytes : Store := fun i =>
  ([0x7F,0x45,0x4C,0x46,2,1,1,0,0,0,0,0,0,0,0,0,2,0,62] : List UInt8).getD i
    (if i = 32 then 64 else if i = 54 then 56 else if i = 56 then 1 else if i = 64 then 1
      else if i = 97 then 1 else 0)

/-- A valid header with one segment of 256 bytes, in a file of 120. -/
def shortImage : Image := ⟨0x200000,shortBytes,120⟩

def smallMem : Mem where
  totalPages := 8
  bitmap f := decide (f < 2)
  pageRefcount _ := 0
  freePages := 6
  allocHint := 2
  kernelPageLimit := 1
  ram _ _ := 0
  rmapTable _ := {}
  swapSlots _ := false
  swapUsed := 0
  swapReady := false
  clockHand := 0
  swapArea _ _ := 0
  cr3 := 1
  spaces := []
  evictions := []

def anonVma : Vma := { start := 0x10000000, stop := 0x10001000, prot := 3, flags := mapPrivate, inUse := true }

def oneArea : Caller where
  mem := smallMem
  heap := kheapInit (fun _ => ⟨0,0,0⟩) 1024
  proc := { pid := 2, state := .running, isUser := true, vmas := fun i => if i = 0 then anonVma else {} }
  mmapNext := mmapBase
  cred := ⟨1000,1000,1000,1000⟩

/-- No volume is mounted; the RAM file system has the image cut short as "x". -/
def ramWorld : World where
  ctx := { table := fun _ => {}, current := none }
  volume := ⟨false,fun _ => zeros,zeros,zeros,1024,0,128⟩
  ramfs name := if name = [120] then some shortImage else none
  kernelCr3 := 1

end HobbyOS.Exec
