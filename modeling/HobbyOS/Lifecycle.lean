import HobbyOS.PageLedger
import HobbyOS.KHeap
import HobbyOS.ReadyQueue

/-!
# fork, exit and wait with everything they allocate

`syscall_fork`, `syscall_exit` and `process_wait_for` over the process table,
the physical pages, the kernel heap and the kernel stacks. The half of the
page tables that all address spaces share is the map `kernelMap` from pages to
frames: the heap was mapped when the kernel started, so mapping and unmapping
a page of a kernel stack needs no new table.
-/

namespace HobbyOS.Lifecycle
open PageEntry PhysMem Process UserVm AddressSpace
  TableGrowth PageAlloc CowFork RefCount PageLedger Function
open PageCount (Ledger ledger_congr)
open Mmap KHeap KernelFrame
open Scheduler (Kernel Reply setProc setCall setPipe setWaiter schedulerAdd schedule wake wakeBlocked
  signalSend reparent wakeParent becomeZombie exitProcess findZombie freeSlot freshProc createFails pipeIncRef
  pipeCloseRead pipeCloseWrite popHead switchTo)

def processStackSize : ℕ := 16384
def kstackAllocSize : ℕ := pageSize+processStackSize

/-- `guard` is the `kernel_stack_guard` of each slot of the table. -/
structure Machine where
  kernel : Kernel
  mem : Mem
  heap : Heap
  kstackFreeList : List ℕ
  guard : ℕ → ℕ
  kernelMap : ℕ → Option ℕ
  kernelCr3 : ℕ

variable (k : Kernel) (io : Ctx) (m : Machine) (parent : Proc)

/-- What the memory code sees of the machine; `io` is the world outside. -/
def ctx : Ctx :=
  { io with table := m.kernel.table, current := some m.kernel.current }

/-- The entry is cleared; the frame it held is not given back. -/
def vmmUnmapPage (virt : ℕ) : Machine :=
  { m with kernelMap := update m.kernelMap virt none }

def vmmMapPage (virt frame : ℕ) : Machine :=
  { m with kernelMap := update m.kernelMap virt (some frame) }

def processAllocKernelStack : Machine × ℕ :=
  match m.kstackFreeList with
  | g::gs => ({ m with kstackFreeList := gs },g)
  | [] => ({ m with heap := (kmallocPageAligned m.heap kstackAllocSize).1 },
      (kmallocPageAligned m.heap kstackAllocSize).2)

def remapGuard (guard : ℕ) : Machine :=
  match pmmAllocPage (ctx io m) m.mem with
  | (s,0) => { m with mem := s }
  | (s,f) => vmmMapPage { m with mem := s } guard f

def freeKernelStack (guard : ℕ) : Machine :=
  let m := remapGuard io m guard
  if m.kstackFreeList.length < maxProcesses then { m with kstackFreeList := guard::m.kstackFreeList }
  else { m with heap := kfree m.heap guard }

def processAlloc (slot : ℕ) : Machine :=
  { m with kernel := createFails m.kernel {} true, guard := update m.guard slot 0 }

def incRef (fd : Fd) : Kernel :=
  match fd.type with
  | .pipeRead | .pipeWrite => if fd.data = 0 then k else pipeIncRef k fd.data fd.type
  | _ => k

def incRefs (fds : ℕ → Fd) : Kernel :=
  (List.range processMaxFds).foldl (fun k i => incRef k (fds i)) k

def setUpChild (slot guard cr3 : ℕ) : Machine :=
  let init := { parent with cr3 := cr3, isUser := true, ppid := parent.pid }
  let k := setProc m.kernel slot fun x => freshProc init x.pid
  { m with
    kernel := schedulerAdd (incRefs (setCall k slot .none) parent.fdTable) slot
    guard := update m.guard slot guard }

/-- From the point where the child has a slot and a kernel stack. -/
def forkSpaceOf (slot guard : ℕ) : Machine × Option ℕ :=
  match userVmForkAddressSpace (ctx io m) m.mem parent.cr3 with
  | (s,0) => ({ m with mem := s },none)
  | (s,cr3) => (setUpChild { m with mem := s } parent slot guard cr3,some (m.kernel.table slot).pid)

/-- The answer is the pid of the child; `none` is -1. -/
def syscallFork : Machine × Option ℕ :=
  match freeSlot m.kernel.table with
  | none => (m,none)
  | some slot =>
    match processAllocKernelStack (processAlloc m slot) with
    | (m1,0) => (m1,none)
    | (m1,guard) =>
      forkSpaceOf io (vmmUnmapPage m1 guard) (m.kernel.table m.kernel.current) slot guard

def closeFd (i : ℕ) : Kernel :=
  let fd := (k.table k.current).fdTable i
  let clear := fun k : Kernel => setProc k k.current fun x =>
    { x with fdTable := update x.fdTable i { fd with type := .none } }
  match fd.type with
  | .pipeRead => clear (pipeCloseRead k fd.data)
  | .pipeWrite => clear (pipeCloseWrite k fd.data)
  | .socket => clear k
  | _ => k

def closeFds : Kernel := (List.range processMaxFds).foldl closeFd k

def dropSpace : Machine :=
  if (m.kernel.table m.kernel.current).cr3 = 0 then m
  else { m with
    kernel := setProc m.kernel m.kernel.current fun x => { x with cr3 := 0 }
    mem := userVmDestroyAddressSpace { m.mem with cr3 := m.kernelCr3 } (m.kernel.table m.kernel.current).cr3 }

def syscallExit (code : ℤ) : Machine :=
  let m := dropSpace { m with kernel := closeFds m.kernel }
  { m with kernel := exitProcess m.kernel code }

def reapZombie (z : ℕ) : Machine :=
  let m1 := if m.guard z = 0 then m else
    { freeKernelStack io m (m.guard z) with guard := update m.guard z 0 }
  { m1 with kernel := (Scheduler.reap m.kernel z).1 }

def processWaitFor (childPid : ℕ) : Machine × Option Reply :=
  match findZombie m.kernel.table (m.kernel.table m.kernel.current).pid childPid with
  | some z => (reapZombie io m z,some (Scheduler.reap m.kernel z).2)
  | none => ({ m with kernel := (Scheduler.processWaitFor m.kernel childPid).1 },
      (Scheduler.processWaitFor m.kernel childPid).2)

/-- What a failed fork has to leave as it was; `a` is the root of the parent. -/
structure Restored (a : ℕ) (m m' : Machine) : Prop where
  refcounts : m'.mem.pageRefcount = m.mem.pageRefcount
  freePages : m'.mem.freePages = m.mem.freePages
  table : m'.kernel.table = m.kernel.table
  freeStacks : m'.kstackFreeList = m.kstackFreeList
  heap : m'.heap = m.heap
  kernelMap : m'.kernelMap = m.kernelMap
  pages : ∀ v < userPages, bit (view m.mem.ram a v) 0 = true → bit (view m'.mem.ram a v) 0 = true ∧
    m'.mem.ram (pteFrame (view m'.mem.ram a v)) = m.mem.ram (pteFrame (view m.mem.ram a v)) ∧
    (bit (view m.mem.ram a v) 1 = true →
      bit (view m'.mem.ram a v) 1 = true ∨ bit (view m'.mem.ram a v) 9 = true)

/-- The call gets a slot and a kernel stack, and then a page allocation for
the address space of the child fails. -/
def PageFails : Prop :=
  ∃ slot m1 guard, freeSlot m.kernel.table = some slot ∧
    processAllocKernelStack (processAlloc m slot) = (m1,guard) ∧ guard ≠ 0 ∧
    (userVmForkAddressSpace (ctx io (vmmUnmapPage m1 guard)) m1.mem
      (m.kernel.table m.kernel.current).cr3).2 = 0

theorem page_up_le_add (n : ℕ) : pageUp n ≤ n+4095 := by
  have h1 := (page_base_spec ((n+(pageSize-1)) % 2^64)).2.1
  have h2 := Nat.mod_le (n+(pageSize-1)) (2^64)
  exact h1.trans h2

theorem stack_taken {h : Heap} (hn : (kmallocPageAligned h kstackAllocSize).2 ≠ 0) :
    (kmallocPageAligned h kstackAllocSize).1 ≠ h := by
  rw [kmallocPageAligned, if_neg (by decide)] at hn ⊢
  have hup : pageUp kstackAllocSize = 20480 := by decide
  rw [hup] at hn ⊢
  cases hf : findFit h (fun cur => fitsAligned h 20480 cur || fitsCarved h 20480 cur) (rounds h) 0 h.freeList with
  | none =>
    rw [hf] at hn
    exact absurd rfl hn
  | some r =>
    obtain ⟨prev,cur⟩ := r
    obtain ⟨hmark,hfit⟩ := find_fit_found h _ _ _ _ _ _ hf
    dsimp only
    split_ifs with hc
    · intro he
      have hcell := congrArg (fun g : Heap => (g.block cur).mark) he
      rw [take_block_mark, hmark] at hcell
      cases hcell
    · intro he
      have hcell := congrArg (fun g : Heap => (g.block cur).size) he
      rw [carve_size] at hcell
      rw [Bool.not_eq_true] at hc
      rw [hc, Bool.false_or, fitsCarved, decide_eq_true_eq] at hfit
      have hw : waste cur ≤ 8191 := by
        have hle := page_up_le_add (cur+blockHdrSize)
        have hP : pageSize = 4096 := rfl
        unfold waste alignedData
        split_ifs <;> omega
      omega

theorem fork_of_stack {m m1 : Machine} {slot guard : ℕ} (hslot : freeSlot m.kernel.table = some slot)
    (halloc : processAllocKernelStack (processAlloc m slot) = (m1,guard)) (hg : guard ≠ 0) :
    syscallFork io m =
      forkSpaceOf io (vmmUnmapPage m1 guard) (m.kernel.table m.kernel.current) slot guard := by
  rw [syscallFork, hslot]
  dsimp only
  rw [halloc]
  obtain ⟨k,rfl⟩ := Nat.exists_eq_succ_of_ne_zero hg
  rfl

theorem fork_space_done (slot guard : ℕ) {s : Mem} {cr3 : ℕ}
    (hr : userVmForkAddressSpace (ctx io m) m.mem parent.cr3 = (s,cr3)) (h0 : cr3 ≠ 0) :
    forkSpaceOf io m parent slot guard =
      (setUpChild { m with mem := s } parent slot guard cr3,some (m.kernel.table slot).pid) := by
  rw [forkSpaceOf, hr]
  obtain ⟨k,rfl⟩ := Nat.exists_eq_succ_of_ne_zero h0
  rfl

theorem fork_stack_gone (h : PageFails io m) : (syscallFork io m).2 = none ∧
    ((syscallFork io m).1.kstackFreeList ≠ m.kstackFreeList ∨ (syscallFork io m).1.heap ≠ m.heap) := by
  obtain ⟨slot,m1,guard,hslot,halloc,hg,hfail⟩ := h
  have hout : (syscallFork io m).2 = none ∧ (syscallFork io m).1.kstackFreeList = m1.kstackFreeList ∧
      (syscallFork io m).1.heap = m1.heap := by
    rw [fork_of_stack io hslot halloc hg, forkSpaceOf]
    change (userVmForkAddressSpace (ctx io (vmmUnmapPage m1 guard)) (vmmUnmapPage m1 guard).mem
      (m.kernel.table m.kernel.current).cr3).2 = 0 at hfail
    cases hr : userVmForkAddressSpace (ctx io (vmmUnmapPage m1 guard)) (vmmUnmapPage m1 guard).mem
        (m.kernel.table m.kernel.current).cr3 with
    | mk s cr3 =>
      rw [hr] at hfail
      subst hfail
      exact ⟨rfl,rfl,rfl⟩
  refine ⟨hout.1,?_⟩
  rw [hout.2.1, hout.2.2]
  unfold processAllocKernelStack at halloc
  cases hlist : (processAlloc m slot).kstackFreeList with
  | nil =>
    rw [hlist] at halloc
    obtain ⟨rfl,rfl⟩ := Prod.mk.inj halloc
    exact .inr (stack_taken hg)
  | cons g gs =>
    rw [hlist] at halloc
    obtain ⟨rfl,rfl⟩ := Prod.mk.inj halloc
    left
    change gs ≠ (processAlloc m slot).kstackFreeList
    rw [hlist]
    exact (List.cons_ne_self g gs).symm

/-- No fork that fails for lack of a page leaves things as they were. -/
theorem failed_fork_leaks (h : PageFails io m) :
    (syscallFork io m).2 = none ∧
      ¬Restored (m.kernel.table m.kernel.current).cr3 m (syscallFork io m).1 := by
  obtain ⟨hnone,hgone⟩ := fork_stack_gone io m h
  refine ⟨hnone,?_⟩
  intro hr
  rcases hgone with hl | hh
  · exact hl hr.freeStacks
  · exact hh hr.heap

def oneProcess (s : Mem) (cr3 : ℕ) : Machine where
  kernel := { Scheduler.boot with
    table := fun i => if i = 1 then { pid := 2, state := .running, cr3 := cr3, isUser := true, ppid := 1 }
      else Scheduler.boot.table i
    current := 1
    nextPid := 3 }
  mem := s
  heap := kheapInit (fun _ => ⟨0,0,0⟩) 1024
  kstackFreeList := [kheapStart+4096]
  guard := fun _ => 0
  kernelMap := fun _ => some 1
  kernelCr3 := 1

def fullMachine : Machine := oneProcess CowIsolation.fullMem 1

theorem full_fails : PageFails CowIsolation.idle fullMachine := by
  refine ⟨2,_,kheapStart+4096,by decide,rfl,by decide,?_⟩
  change (userVmForkAddressSpace _ CowIsolation.fullMem _).2 = 0
  rw [userVmForkAddressSpace, userVmCreateAddressSpace, allocZeroedPage,
    CowIsolation.full_take]
  rfl

theorem failed_fork_leaks_full : (syscallFork CowIsolation.idle fullMachine).2 = none ∧
    ¬Restored (fullMachine.kernel.table fullMachine.kernel.current).cr3 fullMachine
      (syscallFork CowIsolation.idle fullMachine).1 :=
  failed_fork_leaks CowIsolation.idle fullMachine full_fails

/-- The stack in the free list is lost. -/
theorem full_stack_lost : PageFails CowIsolation.idle fullMachine ∧
    ¬Restored 1 fullMachine (syscallFork CowIsolation.idle fullMachine).1 := by
  refine ⟨full_fails,?_⟩
  intro hr
  rcases (fork_stack_gone CowIsolation.idle fullMachine full_fails).2 with hl | hh
  · exact hl hr.freeStacks
  · exact hh hr.heap

/-- Other processes or none run: only the scheduler's fields of the records
and the page-table register change. -/
structure Switch (m m' : Machine) : Prop where
  rest : m' = { m with kernel := m'.kernel, mem := { m.mem with cr3 := m'.mem.cr3 } }
  records : ∀ j, ∃ s n, m'.kernel.table j = { m.kernel.table j with state := s, next := n }

theorem switch_guard {m m' : Machine} (h : Switch m m') : m'.guard = m.guard := by rw [h.rest]

theorem switch_root {m m' : Machine} (h : Switch m m') (j : ℕ) :
    (m'.kernel.table j).cr3 = (m.kernel.table j).cr3 := by
  obtain ⟨_,_,hrec⟩ := h.records j
  rw [hrec]

/-- A fork, the exit of the child, and the wait that reaps it. Every
allocation succeeds and nothing is evicted. -/
inductive Round (io : Ctx) (m : Machine) : Machine → Prop
  | mk (m1 a b : Machine) (pid slot : ℕ) (code : ℤ)
      (user : (m.kernel.table m.kernel.current).cr3 ≠ 0)
      (hslot : freeSlot m.kernel.table = some slot) (hfork : syscallFork io m = (m1,some pid))
      (hchild : Switch m1 a) (hrun : a.kernel.current = slot) (hparent : Switch (syscallExit a code) b)
      (hzombie : findZombie b.kernel.table (b.kernel.table b.kernel.current).pid pid = some slot)
      (hpage : (pmmAllocPage (ctx io b) b.mem).2 ≠ 0)
      (quiet : m1.mem.evictions = m.mem.evictions)
      (quiet' : (pmmAllocPage (ctx io b) b.mem).1.evictions = b.mem.evictions) :
      Round io m (processWaitFor io b pid).1

inductive Rounds (io : Ctx) : ℕ → Machine → Machine → Prop
  | none (m : Machine) : Rounds io 0 m m
  | more (k : ℕ) (m m1 m2 : Machine) (h : Rounds io k m m1) (hr : Round io m1 m2) : Rounds io (k+1) m m2

def Rooted : Prop :=
  ∀ j, (m.kernel.table j).cr3 ≠ 0 → (m.kernel.table j).cr3 ∈ m.mem.spaces

/-- The memory is as in `RefCount` and the count agrees with the bitmap. -/
structure Fit (m : Machine) : Prop where
  sound : Sound m.mem
  ledger : Ledger m.mem
  rooted : Rooted m
  few : m.mem.spaces.length < maxProcesses

def SameSpace (k k' : Kernel) : Prop :=
  ∀ j, (k'.table j).cr3 = (k.table j).cr3 ∧ (k'.table j).vmas = (k.table j).vmas

theorem space_of {k k' : Kernel} (h : Settled k k') : SameSpace k k' :=
  fun j => ⟨congrArg (·.1) (h.still j),congrArg (·.2.1) (h.still j)⟩

theorem space_refl : SameSpace k k := fun _ => ⟨rfl,rfl⟩

theorem space_trans (k k' k'' : Kernel) (h : SameSpace k k') (h' : SameSpace k' k'') : SameSpace k k'' :=
  fun j => ⟨(h' j).1.trans (h j).1,(h' j).2.trans (h j).2⟩

theorem space_set_proc (i : ℕ) (f : Proc → Proc) (hf : ∀ x, (f x).cr3 = x.cr3 ∧ (f x).vmas = x.vmas) :
    SameSpace k (setProc k i f) := by
  intro j
  by_cases hj : j = i
  · subst hj
    simp [setProc, hf]
  · simp [setProc, hj]

theorem space_close_fd (i : ℕ) : SameSpace k (closeFd k i) := by
  unfold closeFd
  dsimp only
  split
  · refine space_trans k (pipeCloseRead k _) _ ?_ (space_set_proc _ _ _ (fun _ => ⟨rfl,rfl⟩))
    unfold pipeCloseRead
    dsimp only
    split_ifs
    · exact space_trans k (setPipe k _ _) _ (space_refl k) (space_of (gentle_wake _ _).toSettled)
    · exact space_refl k
  · refine space_trans k (pipeCloseWrite k _) _ ?_ (space_set_proc _ _ _ (fun _ => ⟨rfl,rfl⟩))
    unfold pipeCloseWrite
    dsimp only
    split_ifs
    · exact space_trans k (setPipe k _ _) _ (space_refl k) (space_of (gentle_wake _ _).toSettled)
    · exact space_refl k
  · exact space_set_proc k _ _ (fun _ => ⟨rfl,rfl⟩)
  · exact space_refl k

theorem space_fold {α : Type} (f : Kernel → α → Kernel) (hf : ∀ k x, SameSpace k (f k x)) (xs : List α)
    (k : Kernel) : SameSpace k (xs.foldl f k) := by
  induction xs generalizing k with
  | nil => exact space_refl k
  | cons x xs ih => exact space_trans k (f k x) _ (hf k x) (ih (f k x))

theorem space_inc_ref (fd : Fd) : SameSpace k (incRef k fd) := by
  unfold incRef
  split
  · split_ifs <;> exact fun _ => ⟨rfl,rfl⟩
  · split_ifs <;> exact fun _ => ⟨rfl,rfl⟩
  · exact space_refl k

theorem close_fd_current (i : ℕ) : (closeFd k i).current = k.current := by
  have hwake : ∀ (k : Kernel) w, (wake k w).current = k.current := by
    intro k w
    unfold wake
    split
    · rfl
    · unfold schedulerAdd
      dsimp only [setWaiter]
      split <;> rfl
  unfold closeFd
  dsimp only
  split
  · unfold pipeCloseRead
    dsimp only
    split_ifs
    · exact hwake _ _
    · rfl
  · unfold pipeCloseWrite
    dsimp only
    split_ifs
    · exact hwake _ _
    · rfl
  · rfl
  · rfl

theorem close_fds_current : (closeFds k).current = k.current := by
  unfold closeFds
  generalize List.range processMaxFds = xs
  induction xs generalizing k with
  | nil => rfl
  | cons x xs ih => exact (ih (closeFd k x)).trans (close_fd_current k x)

theorem child_root (slot guard cr3 j : ℕ) :
    ((setUpChild m parent slot guard cr3).kernel.table j).cr3 =
      if j = slot then cr3 else (m.kernel.table j).cr3 := by
  unfold setUpChild incRefs
  rw [(space_of (gentle_add _ slot).toSettled j).1, (space_fold _ (fun k i => space_inc_ref k _) _ _ j).1]
  by_cases hj : j = slot
  · subst hj
    simp [setProc, setCall, freshProc]
  · simp [setProc, setCall, hj]

theorem fork_machine {m m1 : Machine} {pid slot : ℕ} (hslot : freeSlot m.kernel.table = some slot)
    (h : syscallFork io m = (m1,some pid)) :
    ∃ c : Ctx, (∀ j, (c.table j).cr3 = if j = slot then 0 else (m.kernel.table j).cr3) ∧
      m1.mem = (userVmForkAddressSpace c m.mem (m.kernel.table m.kernel.current).cr3).1 ∧
      (userVmForkAddressSpace c m.mem (m.kernel.table m.kernel.current).cr3).2 ≠ 0 ∧
      (∀ j, (m1.kernel.table j).cr3 = if j = slot
        then (userVmForkAddressSpace c m.mem (m.kernel.table m.kernel.current).cr3).2
        else (m.kernel.table j).cr3) ∧ m1.guard slot ≠ 0 := by
  cases halloc : processAllocKernelStack (processAlloc m slot) with
  | mk m2 guard =>
  have hm2 : m2.mem = m.mem ∧ m2.kernel = (processAlloc m slot).kernel := by
    unfold processAllocKernelStack at halloc
    split at halloc <;> obtain ⟨rfl,-⟩ := Prod.mk.inj halloc <;> exact ⟨rfl,rfl⟩
  cases guard with
  | zero =>
    rw [syscallFork, hslot] at h
    dsimp only at h
    rw [halloc] at h
    cases h
  | succ g =>
  rw [fork_of_stack io hslot halloc (Nat.succ_ne_zero g)] at h
  have hmem : (vmmUnmapPage m2 (g+1)).mem = m.mem := hm2.1
  have hroots : ∀ j, ((ctx io (vmmUnmapPage m2 (g+1))).table j).cr3 =
      if j = slot then 0 else (m.kernel.table j).cr3 := by
    intro j
    change (m2.kernel.table j).cr3 = _
    rw [hm2.2, processAlloc]
    simp only [createFails, hslot, setProc]
    by_cases hj : j = slot
    · subst hj
      simp
    · simp [hj]
  cases hr : userVmForkAddressSpace (ctx io (vmmUnmapPage m2 (g+1))) m.mem
      (m.kernel.table m.kernel.current).cr3 with
  | mk s cr3 =>
  cases cr3 with
  | zero =>
    rw [forkSpaceOf, hmem, hr] at h
    cases h
  | succ r =>
  rw [fork_space_done io _ _ slot (g+1) (by rw [hmem]; exact hr) (Nat.succ_ne_zero r)] at h
  obtain ⟨rfl,-⟩ := Prod.mk.inj h
  refine ⟨_,hroots,by rw [hr]; rfl,by rw [hr]; exact Nat.succ_ne_zero r,?_,?_⟩
  · intro j
    rw [hr]
    rw [child_root]
    split_ifs with hj
    · rfl
    · have hj' := hroots j
      rw [if_neg hj] at hj'
      exact hj'
  · change update m2.guard slot (g+1) slot ≠ 0
    rw [update_self]
    exact Nat.succ_ne_zero g

theorem exit_machine (code : ℤ) (slot r : ℕ) (hslot : m.kernel.current = slot)
    (hr : (m.kernel.table slot).cr3 = r) (hr0 : r ≠ 0) :
    (syscallExit m code).mem = userVmDestroyAddressSpace { m.mem with cr3 := m.kernelCr3 } r ∧
      (syscallExit m code).guard = m.guard ∧
      ∀ j, ((syscallExit m code).kernel.table j).cr3 = if j = slot then 0 else (m.kernel.table j).cr3 := by
  have hspace : SameSpace m.kernel (closeFds m.kernel) := space_fold closeFd space_close_fd _ m.kernel
  have hcur := close_fds_current m.kernel
  have hcr3 : ((closeFds m.kernel).table (closeFds m.kernel).current).cr3 = r := by
    rw [hcur, (hspace _).1, hslot, hr]
  have hdrop : dropSpace { m with kernel := closeFds m.kernel } = { m with
      kernel := setProc (closeFds m.kernel) slot fun x => { x with cr3 := 0 }
      mem := userVmDestroyAddressSpace { m.mem with cr3 := m.kernelCr3 } r } := by
    unfold dropSpace
    rw [if_neg (by rw [hcr3]; exact hr0), hcr3, hcur, hslot]
  unfold syscallExit
  rw [hdrop]
  refine ⟨rfl,rfl,?_⟩
  intro j
  rw [(space_of (settled_exit _ code) j).1]
  by_cases hj : j = slot
  · subst hj
    simp [setProc]
  · simp only [setProc, update_of_ne hj, if_neg hj]
    exact (hspace j).1

theorem wait_machine {pid slot : ℕ}
    (hz : findZombie m.kernel.table (m.kernel.table m.kernel.current).pid pid = some slot)
    (hg : m.guard slot ≠ 0) :
    (processWaitFor io m pid).1.mem = (pmmAllocPage (ctx io m) m.mem).1 ∧
      SameSpace m.kernel (processWaitFor io m pid).1.kernel := by
  have hguard : (remapGuard io m (m.guard slot)).mem = (pmmAllocPage (ctx io m) m.mem).1 := by
    unfold remapGuard
    cases hr : pmmAllocPage (ctx io m) m.mem with
    | mk s f => cases f <;> rfl
  rw [processWaitFor, hz]
  refine ⟨?_,?_⟩
  rotate_left
  · exact space_set_proc m.kernel slot (fun x => { x with state := .unused }) (fun _ => ⟨rfl,rfl⟩)
  change (reapZombie io m slot).mem = _
  unfold reapZombie
  rw [if_neg hg, ← hguard]
  unfold freeKernelStack
  dsimp only
  split_ifs <;> rfl

theorem sound_cr3 {s : Mem} (r : ℕ) (h : Sound s) : Sound { s with cr3 := r } :=
  ⟨⟨struct_congr h.counts.struct rfl rfl rfl rfl rfl h.counts.struct.low,
    h.counts.counts⟩,h.reserved,h.user⟩

theorem round_leaks {m m' : Machine} (h : Fit m) (hr : Round io m m') :
    m'.mem.freePages < m.mem.freePages ∧ Fit m' := by
  obtain ⟨m1,a,b,pid,slot,code,user,hslot,hfork,hchild,hrun,hparent,hzombie,hpage,quiet,quiet'⟩ := hr
  obtain ⟨c,hcroots,hmem1,hok,hroots1,hguard⟩ := fork_machine io hslot hfork
  have hS := h.sound.counts.struct
  have ha := h.rooted _ user
  have hL : PageAlloc.Live c m.mem := by
    intro p _ _ hp
    rw [hcroots] at hp ⊢
    split_ifs at hp ⊢ with hps
    · exact absurd rfl hp
    · exact h.rooted p hp
  rw [hmem1] at quiet
  have hlog := congrArg List.length quiet
  have hF := fork_spec c hS hL ha hok hlog
  have hled := ledger_fork c m.mem hS hL ha hok hlog h.ledger
  have hkept := fork_destroy_kept c m.mem _ a.kernelCr3 h.sound hL ha hok hlog
  have hsound1 := (fork_sound h.sound ha hF (by
    rw [hF.spaces]
    exact le_trans h.few (by decide))).1
  generalize userVmForkAddressSpace c m.mem (m.kernel.table m.kernel.current).cr3 = r at *
  obtain ⟨s1,new⟩ := r
  -- the child runs with the same pages and its own root
  have hamem : ({ a.mem with cr3 := a.kernelCr3 } : Mem) = { s1 with cr3 := a.kernelCr3 } := by
    rw [hchild.rest, hmem1]
  have hanew : (a.kernel.table slot).cr3 = new := by
    rw [switch_root hchild, hroots1, if_pos rfl]
  obtain ⟨hmem2,hguard2,hroots2⟩ := exit_machine a code slot new hrun hanew hok
  rw [hamem] at hmem2
  have hnew : new ∈ ({ s1 with cr3 := a.kernelCr3 } : Mem).spaces := by
    rw [hF.spaces]
    exact List.mem_cons_self
  have hsound1' := sound_cr3 a.kernelCr3 hsound1
  have hsound2 := (destroy_sound _ hsound1' hnew).1
  have hled2 := ledger_destroy _ new (ledger_congr s1 { s1 with cr3 := a.kernelCr3 } hled rfl rfl rfl rfl)
  have hshape := CowInvariant.destroyed_shape _ new hsound1'.counts hnew
  have htotal2 : (userVmDestroyAddressSpace { s1 with cr3 := a.kernelCr3 } new).totalPages = m.mem.totalPages := by
    obtain ⟨t,hrel,heq⟩ := DestroySpace.destroy_spec _ hsound1'.counts.struct new hnew
    obtain ⟨_,_,_,_,hs⟩ := hrel.shape
    rw [heq, hs]
    exact hF.total
  have hspaces2 : (userVmDestroyAddressSpace { s1 with cr3 := a.kernelCr3 } new).spaces = m.mem.spaces := by
    rw [hshape.1]
    rw [hF.spaces]
    exact List.erase_cons_head new m.mem.spaces
  generalize userVmDestroyAddressSpace { s1 with cr3 := a.kernelCr3 } new = s2 at *
  -- the parent reaps: one more page is taken
  have hbmem : b.mem = { s2 with cr3 := b.mem.cr3 } := by
    have := congrArg Machine.mem hparent.rest
    rw [hmem2] at this
    exact this
  have hbguard : b.guard slot ≠ 0 := by
    rw [switch_guard hparent, hguard2, switch_guard hchild]
    exact hguard
  have hbroots : ∀ j, (b.kernel.table j).cr3 = if j = slot then 0 else (m.kernel.table j).cr3 := by
    intro j
    rw [switch_root hparent, hroots2]
    split_ifs with hj
    · rfl
    · rw [switch_root hchild, hroots1, if_neg hj]
  obtain ⟨hmem3,hspace3⟩ := wait_machine io b hzombie hbguard
  have hsoundb : Sound b.mem := hbmem ▸ sound_cr3 b.mem.cr3 hsound2
  have hledb : Ledger b.mem := hbmem ▸ ledger_congr s2 { s2 with cr3 := b.mem.cr3 } hled2 rfl rfl rfl rfl
  have hspacesb : b.mem.spaces = m.mem.spaces := by
    rw [hbmem]
    exact hspaces2
  have hrootedb : ∀ j, (b.kernel.table j).cr3 ≠ 0 → (b.kernel.table j).cr3 ∈ b.mem.spaces := by
    intro j hj
    rw [hbroots] at hj ⊢
    rw [hspacesb]
    split_ifs at hj ⊢ with hjs
    · exact absurd rfl hj
    · exact h.rooted j hj
  have hLb : PageAlloc.Live (ctx io b) b.mem := fun p _ _ hp => hrootedb p hp
  obtain ⟨hless,hG,hS3⟩ := alloc_fewer (ctx io b) b.mem hsoundb.counts.struct hLb hledb hpage
    (congrArg List.length quiet')
  have hle : b.mem.freePages ≤ m.mem.freePages := by
    rw [hledb.counted.count, h.ledger.counted.count]
    have hbt : b.mem.totalPages = m.mem.totalPages := by
      rw [hbmem]
      exact htotal2
    have hbb : b.mem.bitmap = s2.bitmap := by rw [hbmem]
    rw [hbt, hbb]
    exact clear_count_mono _ _ _ fun p _ hp => hkept p hp
  refine ⟨by rw [hmem3]; omega,?_,?_,?_,?_⟩
  · rw [hmem3]
    exact sound_grow _ _ hG hsoundb hS3
  · rw [hmem3]
    exact ledger_alloc (ctx io b) b.mem hledb
  · intro j hj
    rw [hmem3, hG.spaces]
    rw [(hspace3 j).1] at hj ⊢
    exact hrootedb j hj
  · rw [hmem3, hG.spaces, hspacesb]
    exact h.few

theorem rounds_fit {m m' : Machine} {k : ℕ} (h : Fit m) (hr : Rounds io k m m') :
    m'.mem.freePages+k ≤ m.mem.freePages ∧ Fit m' := by
  induction hr with
  | none m => exact ⟨le_refl _,h⟩
  | more k m m1 m2 _ hround ih =>
    obtain ⟨hle,hfit⟩ := ih h
    obtain ⟨hlt,hfit'⟩ := round_leaks io hfit hround
    exact ⟨by omega,hfit'⟩

/-- Every round of fork, exit and wait costs a page, so their number is
bounded by the pages that were free. -/
theorem rounds_leak (s0 : Mem) (h0 : Booted s0) (hl : Ledger s0) (m m' : Machine) (k : ℕ)
    (hm : RefCount.Reach s0 m.mem) (hroots : Rooted m) (hfew : m.mem.spaces.length < maxProcesses)
    (h : Rounds io k m m') : m'.mem.freePages+k ≤ m.mem.freePages := by
  have hfit : Fit m := ⟨(reach_sound h0 hm).1,reach_ledger h0 hl hm,hroots,hfew⟩
  exact (rounds_fit io hfit h).1

theorem roomy_cr3 {log : List Eviction} {k : ℕ} {s : Mem} (r : ℕ) (h : ForkTotal.Roomy log k s) :
    ForkTotal.Roomy log k { s with cr3 := r } := ForkTotal.roomy_congr log k s _ h rfl rfl rfl rfl rfl

theorem roomy_destroy {log : List Eviction} {k : ℕ} {s : Mem} {a : ℕ} (hS : Struct s)
    (ha : a ∈ s.spaces) (hl : Ledger s) (h : ForkTotal.Roomy log k s) : ForkTotal.Roomy log k (userVmDestroyAddressSpace s a) := by
  obtain ⟨t,hrel,heq⟩ := DestroySpace.destroy_spec s hS a ha
  obtain ⟨b,r,n,w,ht⟩ := hrel.shape
  have hsub : ForkTotal.freeFrames s ⊆ ForkTotal.freeFrames (userVmDestroyAddressSpace s a) := by
    intro f hf
    obtain ⟨hlt,hb⟩ := Finset.mem_filter.mp hf
    have hmap : ∀ v < userPages, bit (view s.ram a v) 0 = true → pteFrame (view s.ram a v) ≠ f := by
      rintro v hv hp rfl
      rw [(hS.frames a ha v hv hp).2.1] at hb
      cases hb
    have htab : ¬DestroySpace.TableOf s.ram a f := by
      rintro ⟨p,hp,hw⟩
      rw [(hS.tables f ⟨a,p,ha,hp,hw⟩).2] at hb
      cases hb
    refine Finset.mem_filter.mpr ⟨?_,?_⟩
    · rw [heq, ht]
      exact hlt
    · rw [heq]
      exact ((hrel.rest f hmap).2 htab).2.trans hb
  refine ⟨?_,?_,?_,?_,h.free.trans (Finset.card_le_card hsub)⟩
  · have hle := Finset.card_le_card hsub
    have hl' := ledger_destroy s a hl
    rw [← ForkTotal.free_card s hl, ← ForkTotal.free_card _ hl'] at hle
    have hlt := PageCount.clear_count_le (userVmDestroyAddressSpace s a).totalPages
      (userVmDestroyAddressSpace s a).bitmap
    have htotal := hl'.counted.total
    rw [← hl'.counted.count] at hlt
    rcases h.quiet with hs | ⟨hk,-⟩
    · refine .inl ?_
      rw [heq, ht]
      exact hs
    · exact .inr ⟨by omega,by omega⟩
  · rw [heq, ht]
    exact h.log
  · rw [heq]
    exact (hrel.kernel 0 ⟨hS.kernel.ne',hS.kernel⟩).trans h.zero
  · rw [heq, ht]
    exact h.pages

def stackGuard : ℕ := kheapStart+4096

def halfForked (s : Mem) (n : ℕ) : Machine :=
  vmmUnmapPage { processAlloc (oneProcess s n) 2 with kstackFreeList := [] } stackGuard

theorem one_process_fork (s : Mem) (n : ℕ) : syscallFork io (oneProcess s n) =
    forkSpaceOf io (halfForked s n) ((oneProcess s n).kernel.table 1) 2 stackGuard := rfl

theorem inc_refs_none (fds : ℕ → Fd) (h : ∀ i, (fds i).type = .none) : incRefs k fds = k := by
  unfold incRefs
  generalize List.range processMaxFds = xs
  induction xs with
  | nil => rfl
  | cons x xs ih =>
    rw [List.foldl_cons, incRef, h x]
    exact ih

theorem close_fds_none (h : ∀ i, ((k.table k.current).fdTable i).type = .none) :
    closeFds k = k := by
  unfold closeFds
  generalize List.range processMaxFds = xs
  induction xs with
  | nil => rfl
  | cons x xs ih =>
    rw [List.foldl_cons, closeFd, h x]
    exact ih

/-- A parent in slot 1 and its child in slot 2; at most one of them waits to run. -/
def family (parent child : Proc) (queue : Option ℕ) (cur : ℕ) : Kernel :=
  { Scheduler.boot with
    table := fun i => if i = 2 then child else if i = 1 then parent else Scheduler.boot.table i
    head := queue
    tail := queue
    current := cur
    nextPid := 4 }

section family
variable (p c : Proc) (q : Option ℕ) (cur : ℕ)

theorem family_parent (f : Proc → Proc) : setProc (family p c q cur) 1 f = family (f p) c q cur := by
  unfold setProc family
  congr 1
  funext i
  by_cases hi : i = 1
  · subst hi
    simp
  · simp [hi]

theorem family_child (f : Proc → Proc) : setProc (family p c q cur) 2 f = family p (f c) q cur := by
  unfold setProc family
  congr 1
  funext i
  by_cases hi : i = 2
  · subst hi
    simp
  · simp [hi]

theorem family_schedule (hp : p.state = .running) (hn : c.next = none) : schedule (family p c (some 2) 1) =
    family { p with state := .ready, next := none } { c with state := .running } (some 1) 2 := by
  have hpop : popHead (family p c (some 2) 1) 2 = family p c none 1 := by
    change { family p c (some 2) 1 with head := c.next, tail := if c.next = none then none else some 2 } = _
    rw [hn]
    rfl
  have hadd : schedulerAdd (family p c none 1) 1 =
      family { p with state := .ready, next := none } c (some 1) 1 := by
    unfold schedulerAdd
    rw [family_parent]
    rfl
  change switchTo (if ((popHead (family p c (some 2) 1) 2).table (popHead (family p c (some 2) 1) 2).current).state
    = .running then schedulerAdd (popHead (family p c (some 2) 1) 2) (popHead (family p c (some 2) 1) 2).current
    else popHead (family p c (some 2) 1) 2) 2 = _
  rw [hpop]
  change switchTo (if p.state = .running then schedulerAdd (family p c none 1) 1 else family p c none 1) 2 = _
  rw [if_pos hp, hadd, switchTo, family_child]
  rfl

theorem family_parent_pid (hp : p.pid = 2) (hs : p.state ≠ .unused) :
    processGetByPid (family p c q cur).table 2 = some 1 := by
  have hrange : List.range maxProcesses = 0::1::List.range' 2 62 := by decide
  have h0 : ((family p c q cur).table 0).pid = 1 := rfl
  have h1 : (family p c q cur).table 1 = p := rfl
  rw [processGetByPid, hrange, List.find?_cons_of_neg]
  · simp [h1, hp, hs]
  · simp [h0]

theorem family_child_pid (hp : p.pid = 2) (hc : c.pid = 3) (hs : c.state ≠ .unused) :
    processGetByPid (family p c q cur).table 3 = some 2 := by
  have hrange : List.range maxProcesses = 0::1::2::List.range' 3 61 := by decide
  have h0 : ((family p c q cur).table 0).pid = 1 := rfl
  have h1 : (family p c q cur).table 1 = p := rfl
  have h2 : (family p c q cur).table 2 = c := rfl
  rw [processGetByPid, hrange, List.find?_cons_of_neg, List.find?_cons_of_neg]
  · simp [h2, hc, hs]
  · simp [h1, hp]
  · simp [h0]

theorem family_exit (hp : p.pid = 2) (hs : p.state = .ready) (hn : p.next = none) (hpp : p.ppid = 1)
    (hc : c.pid = 3) (hcp : c.ppid = 2) : ∃ p', p'.pid = 2 ∧ exitProcess (family p c (some 1) 2) 0 =
      family p' { c with state := .zombie, exitCode := 0 } none 1 := by
  have hdead : becomeZombie (family p c (some 1) 2) 2 0 =
      family p { c with state := .zombie, exitCode := 0 } (some 1) 2 := family_child p c (some 1) 2 _
  generalize hz : ({ c with state := .zombie, exitCode := 0 } : Proc) = z at *
  have hzpid : z.pid = 3 ∧ z.ppid = 2 ∧ z.state = .zombie := by
    rw [← hz]
    exact ⟨hc,hcp,rfl⟩
  have hsig : signalSend (family p z (some 1) 2) 2 Scheduler.sigchld =
      family { p with sigPending := p.sigPending ||| Scheduler.sigBit Scheduler.sigchld } z (some 1) 2 := by
    rw [signalSend, family_parent_pid p z (some 1) 2 hp (by rw [hs]; decide)]
    change (if p.state = .terminated then _ else wakeBlocked (setProc (family p z (some 1) 2) 1 _) 1) = _
    rw [if_neg (by rw [hs]; decide), family_parent, wakeBlocked, if_neg]
    change p.state ≠ .blocked
    rw [hs]
    decide
  generalize hp' : ({ p with sigPending := p.sigPending ||| Scheduler.sigBit Scheduler.sigchld } : Proc) = p' at *
  have hp'' : p'.pid = 2 ∧ p'.state = .ready ∧ p'.next = none ∧ p'.ppid = 1 := by
    rw [← hp']
    exact ⟨hp,hs,hn,hpp⟩
  have hrep : reparent (family p' z (some 1) 2) 3 = family p' z (some 1) 2 := by
    unfold reparent family
    congr 1
    funext i
    rw [if_neg]
    rintro ⟨-,hpar,-⟩
    dsimp only at hpar
    split_ifs at hpar with h2 h1
    · omega
    · omega
    · unfold Scheduler.boot at hpar
      dsimp only at hpar
      split_ifs at hpar
  have hwake : wakeParent (family p' z (some 1) 2) 3 2 = family p' z (some 1) 2 := by
    rw [wakeParent, family_parent_pid p' z (some 1) 2 hp''.1 (by rw [hp''.2.1]; decide)]
    dsimp only
    split_ifs
    · rw [wakeBlocked, if_neg]
      change p'.state ≠ .blocked
      rw [hp''.2.1]
      decide
    · rfl
  have hsched : schedule (family p' z (some 1) 2) = family { p' with state := .running } z none 1 := by
    have hpop : popHead (family p' z (some 1) 2) 1 = family p' z none 2 := by
      change { family p' z (some 1) 2 with head := p'.next, tail := if p'.next = none then none else some 1 } = _
      rw [hp''.2.2.1]
      rfl
    change switchTo (if ((popHead (family p' z (some 1) 2) 1).table (popHead (family p' z (some 1) 2) 1).current).state
      = .running then schedulerAdd (popHead (family p' z (some 1) 2) 1) (popHead (family p' z (some 1) 2) 1).current
      else popHead (family p' z (some 1) 2) 1) 1 = _
    rw [hpop]
    change switchTo (if z.state = .running then schedulerAdd (family p' z none 2) 2 else family p' z none 2) 1 = _
    rw [if_neg (by rw [hzpid.2.2]; decide), switchTo, family_parent]
    rfl
  refine ⟨{ p' with state := .running },hp''.1,?_⟩
  change schedule (wakeParent (reparent (signalSend (becomeZombie (family p c (some 1) 2) 2 0) c.ppid
    Scheduler.sigchld) c.pid) c.pid
    ((reparent (signalSend (becomeZombie (family p c (some 1) 2) 2 0) c.ppid Scheduler.sigchld) c.pid).table 2).ppid) = _
  rw [hdead, hcp, hc, hsig, hrep]
  change schedule (wakeParent (family p' z (some 1) 2) 3 z.ppid) = _
  rw [hzpid.2.1, hwake, hsched]

end family

def childProc (r : ℕ) : Proc := { pid := 3, state := .ready, cr3 := r, isUser := true, ppid := 2 }

def parentProc (n : ℕ) : Proc := { pid := 2, state := .running, cr3 := n, isUser := true, ppid := 1 }

theorem half_forked_kernel (s : Mem) (n : ℕ) :
    (halfForked s n).kernel = family (parentProc n) { pid := 3 } none 1 := by
  change { setProc (oneProcess s n).kernel 2 (fun _ => { pid := 3 }) with nextPid := 4 } = _
  unfold setProc family
  dsimp only
  congr 1
  funext i
  by_cases h2 : i = 2
  · subst h2
    rfl
  · simp [h2, oneProcess, parentProc]

theorem half_forked_mem (s : Mem) (n : ℕ) : (halfForked s n).mem = s := rfl

theorem forked_kernel (s s' : Mem) (n r : ℕ) :
    (setUpChild { halfForked s n with mem := s' } (parentProc n) 2 stackGuard r).kernel =
      family (parentProc n) (childProc r) (some 2) 1 := by
  have hcall : ∀ c, setCall (family (parentProc n) c none 1) 2 .none = family (parentProc n) c none 1 := by
    intro c
    unfold setCall family
    congr 1
    funext i
    by_cases h2 : i = 2
    · subst h2
      rfl
    · simp [h2]
  unfold setUpChild
  dsimp only
  rw [half_forked_kernel, family_child, hcall, inc_refs_none _ _ (fun _ => rfl)]
  unfold schedulerAdd
  rw [family_child]
  rfl

theorem one_process_exit {m1 : Machine} {n r : ℕ} (hr : r ≠ 0)
    (hk : m1.kernel = schedule (family (parentProc n) (childProc r) (some 2) 1)) :
    (syscallExit m1 0).mem = userVmDestroyAddressSpace { m1.mem with cr3 := m1.kernelCr3 } r ∧
    findZombie (syscallExit m1 0).kernel.table
      ((syscallExit m1 0).kernel.table (syscallExit m1 0).kernel.current).pid 3 = some 2 := by
  rw [family_schedule _ _ rfl rfl] at hk
  refine ⟨(exit_machine m1 0 2 r (by rw [hk]; rfl) (by rw [hk]; rfl) hr).1,?_⟩
  have hclose : closeFds m1.kernel = m1.kernel := close_fds_none _ (by rw [hk]; exact fun _ => rfl)
  have hdrop : (dropSpace m1).kernel = setProc m1.kernel 2 fun x => { x with cr3 := 0 } := by
    unfold dropSpace
    rw [if_neg (by rw [hk]; exact hr), hk]
    rfl
  unfold syscallExit
  rw [hclose]
  dsimp only
  rw [hdrop, hk, family_child]
  obtain ⟨p,hp,he⟩ := family_exit { parentProc n with state := .ready, next := none }
    { childProc r with state := .running, cr3 := 0 } rfl rfl rfl rfl rfl rfl
  rw [he]
  change findZombie _ p.pid 3 = some 2
  rw [findZombie, if_neg (by decide), family_child_pid p _ none 1 hp rfl
    (show State.zombie ≠ .unused by decide), hp]
  rfl

/-- Another process runs, or the same one again, with its own root. -/
def resume (k : Kernel) (cr3 : ℕ) : Machine :=
  { m with kernel := k, mem := { m.mem with cr3 := cr3 } }

theorem add_record (k : Kernel) (p i : ℕ) :
    ∃ s n, (schedulerAdd k p).table i = { k.table i with state := s, next := n } := by
  have hset : ∃ s n, (setProc k p fun x => { x with state := .ready, next := none }).table i =
      { k.table i with state := s, next := n } := by
    by_cases hi : i = p
    · subst hi
      exact ⟨.ready,none,by simp [setProc]⟩
    · exact ⟨(k.table i).state,(k.table i).next,by simp [setProc, hi]⟩
  unfold schedulerAdd
  dsimp only
  split
  · exact hset
  · exact hset
  · rename_i t _ _
    obtain ⟨s,n,h⟩ := hset
    by_cases hi : i = t
    · subst hi
      refine ⟨s,some p,?_⟩
      simp only [setProc, update_self] at h ⊢
      rw [h]
    · refine ⟨s,n,?_⟩
      rw [← h]
      simp [setProc, hi]

theorem schedule_record (k : Kernel) (i : ℕ) :
    ∃ s n, (schedule k).table i = { k.table i with state := s, next := n } := by
  cases hh : k.head with
  | none =>
    simp only [schedule, hh]
    exact ⟨_,_,rfl⟩
  | some n =>
    rw [ReadyQueue.schedule_head k n hh]
    have hmid : ∃ s m, (if (k.table k.current).state = .running
        then schedulerAdd (popHead k n) k.current else popHead k n).table i =
        { k.table i with state := s, next := m } := by
      split_ifs
      · exact add_record (popHead k n) k.current i
      · exact ⟨_,_,rfl⟩
    obtain ⟨s,m,h⟩ := hmid
    by_cases hi : i = n
    · subst hi
      exact ⟨.running,m,by simp [switchTo, setProc, h]⟩
    · exact ⟨s,m,by simp [switchTo, setProc, hi, h]⟩

theorem switch_resume {k : Kernel} (cr3 : ℕ)
    (h : ∀ j, ∃ s n, k.table j = { m.kernel.table j with state := s, next := n }) :
    Switch m (resume m k cr3) := ⟨rfl,h⟩

theorem switch_same (cr3 : ℕ) : ∃ m', Switch m m' ∧ m'.kernel = m.kernel ∧
    m'.mem = { m.mem with cr3 := cr3 } :=
  ⟨resume m m.kernel cr3,switch_resume m cr3 fun _ => ⟨_,_,rfl⟩,rfl,rfl⟩

theorem bare_clear_count (n : ℕ) (hn : 5 < n) : PageCount.clearCount n CowIsolation.bareMem.bitmap = n-3 := by
  have hbits : CowIsolation.bareMem.bitmap = update (update (update (fun _ => false)
      0 true) 1 true) 5 true := by
    funext p
    simp only [CowIsolation.bareMem, update_apply]
    split_ifs <;> simp <;> omega
  have h0 : PageCount.clearCount n (fun _ => false) = n := by
    have hall : ∀ p ∈ List.range n, (fun p : ℕ => !(fun _ => false) p) p = true := fun _ _ => rfl
    exact (List.countP_eq_length.mpr hall).trans List.length_range
  rw [hbits]
  have h1 := PageCount.clear_count_set n (fun _ => false) 0 true (by omega)
  have h2 := PageCount.clear_count_set n (update (fun _ => false) 0 true) 1 true (by omega)
  have h3 := PageCount.clear_count_set n (update (update (fun _ => false) 0 true) 1 true) 5 true hn
  simp at h1 h2 h3
  omega

theorem bare_ledger : Ledger CowIsolation.bareMem := by
  refine ⟨⟨by decide,(bare_clear_count CowIsolation.bareMem.totalPages (by decide)).symm⟩,?_⟩
  intro p _ hp
  have : p ≠ 5 := by
    rintro rfl
    cases hp
  exact if_neg this

theorem one_process_round : ∃ m m', RefCount.Reach CowIsolation.bareMem m.mem ∧ Rooted m ∧
    m.mem.spaces.length < maxProcesses ∧ Round CowIsolation.idle m m' := by
  obtain ⟨s,n,hreach,hn,hsp,hroomy,hview⟩ := created_space
  have hsound := (reach_sound bare_booted hreach).1
  have hmem : n ∈ s.spaces := by
    rw [hsp]
    exact List.mem_singleton_self n
  have hpages : ForkTotal.pagesFrom s.ram n 0 = 0 := by
    rw [ForkTotal.pagesFrom, Finset.card_eq_zero, Finset.filter_eq_empty_iff]
    intro v hv
    rw [hview v (Finset.mem_Ico.mp hv).2]
    simp
  have hrooted : Rooted (oneProcess s n) := by
    intro j hj
    change (if j = 1 then parentProc n else Scheduler.boot.table j).cr3 ≠ 0 at hj
    change (if j = 1 then parentProc n else Scheduler.boot.table j).cr3 ∈ s.spaces
    split_ifs at hj ⊢ with h1
    · exact hmem
    · refine absurd ?_ hj
      unfold Scheduler.boot
      dsimp only
      split_ifs <;> rfl
  have hL : PageAlloc.Live (ctx CowIsolation.idle (halfForked s n)) s := by
    intro j _ _ hj
    change ((halfForked s n).kernel.table j).cr3 ≠ 0 at hj
    change ((halfForked s n).kernel.table j).cr3 ∈ s.spaces
    rw [half_forked_kernel] at hj ⊢
    by_cases h2 : j = 2
    · subst h2
      exact absurd rfl hj
    · have h := hrooted j
      unfold family at hj ⊢
      dsimp only at hj ⊢
      rw [if_neg h2] at hj ⊢
      exact h hj
  obtain ⟨hok,hroomy1⟩ := ForkTotal.fork_total [] 3 _ s hsound.counts.struct hL hmem (by
    rw [hpages]
    exact hroomy)
  have hF := fork_spec _ hsound.counts.struct hL hmem hok (by
    rw [logLength, logLength, hroomy1.log, hroomy.log])
  cases hfork : userVmForkAddressSpace (ctx CowIsolation.idle (halfForked s n)) s n with
  | mk s' r =>
  rw [hfork] at hok hroomy1 hF
  have hsys : syscallFork CowIsolation.idle (oneProcess s n) =
      (setUpChild { halfForked s n with mem := s' } (parentProc n) 2 stackGuard r,some 3) := by
    have hparent : (oneProcess s n).kernel.table 1 = parentProc n := rfl
    have hpid : ((halfForked s n).kernel.table 2).pid = 3 := by
      rfl
    rw [one_process_fork, hparent, fork_space_done CowIsolation.idle (halfForked s n) (parentProc n) 2 stackGuard
      (by rw [half_forked_mem]; exact hfork) hok, hpid]
  generalize hm1 : setUpChild { halfForked s n with mem := s' } (parentProc n) 2 stackGuard r = m1 at hsys
  have hkernel : m1.kernel = family (parentProc n) (childProc r) (some 2) 1 := by
    rw [← hm1, forked_kernel]
  have hmem1 : m1.mem = s' := by
    rw [← hm1]
    rfl
  -- the timer lets the child run, and its exit brings the parent back
  obtain ⟨a,hchild,hka,hma⟩ : ∃ a, Switch m1 a ∧ a.kernel = schedule m1.kernel ∧ a.mem = { s' with cr3 := r } := by
    refine ⟨resume m1 (schedule m1.kernel) r,switch_resume m1 r (schedule_record m1.kernel),rfl,?_⟩
    rw [resume, hmem1]
  rw [hkernel] at hka
  obtain ⟨hexit,hzombie⟩ := one_process_exit hok hka
  obtain ⟨b,hparent,hkb,hmb⟩ := switch_same (syscallExit a 0) n
  rw [← hkb] at hzombie
  have hroomy2 : ForkTotal.Roomy [] 3 b.mem := by
    have hledger : Ledger { s' with cr3 := a.kernelCr3 } := by
      have hl := ledger_fork _ s hsound.counts.struct hL hmem (by rw [hfork]; exact hok)
        (by rw [hfork, logLength, logLength, hroomy1.log, hroomy.log])
        (reach_ledger bare_booted bare_ledger hreach)
      rw [hfork] at hl
      exact ledger_congr s' _ hl rfl rfl rfl rfl
    have hS : Struct { s' with cr3 := a.kernelCr3 } :=
      struct_congr hF.struct rfl rfl rfl rfl rfl hF.struct.low
    have h := roomy_destroy hS (by
      rw [hF.spaces]
      exact List.mem_cons_self) hledger (roomy_cr3 a.kernelCr3 hroomy1)
    rw [hmb, hexit, hma]
    exact roomy_cr3 n h
  obtain ⟨f,hf,htake,hroomy3⟩ := ForkTotal.alloc_page_total [] 2 (ctx CowIsolation.idle b) b.mem hroomy2
  refine ⟨oneProcess s n,_,hreach,hrooted,?_,
    .mk m1 a b 3 2 0 hn rfl hsys hchild ?_ hparent hzombie ?_ ?_ ?_⟩
  · change s.spaces.length < maxProcesses
    rw [hsp]
    exact (by decide : 1 < maxProcesses)
  · rw [hka]
    rfl
  · rw [htake]
    exact hf
  · rw [hmem1, hroomy1.log]
    exact hroomy.log.symm
  · rw [htake, hroomy3.log, hroomy2.log]

theorem rounds_leak_one : ∃ m m', Rounds CowIsolation.idle 1 m m' ∧ m'.mem.freePages+1 ≤ m.mem.freePages := by
  obtain ⟨m,m',hreach,hrooted,hfew,hround⟩ := one_process_round
  have hrounds := Rounds.more 0 m m m' (.none m) hround
  exact ⟨m,m',hrounds,rounds_leak CowIsolation.idle CowIsolation.bareMem bare_booted bare_ledger m m' 1
    hreach hrooted hfew hrounds⟩

/-- One round on a machine with a single process. -/
theorem round_costs_page : ∃ m m', RefCount.Reach CowIsolation.bareMem m.mem ∧ Rooted m ∧
    Round CowIsolation.idle m m' ∧ m'.mem.freePages ≠ m.mem.freePages := by
  obtain ⟨m,m',hreach,hrooted,hfew,hround⟩ := one_process_round
  have hfit : Fit m := ⟨(reach_sound bare_booted hreach).1,
    reach_ledger bare_booted bare_ledger hreach,hrooted,hfew⟩
  exact ⟨m,m',hreach,hrooted,hround,(round_leaks CowIsolation.idle hfit hround).1.ne⟩

end HobbyOS.Lifecycle
