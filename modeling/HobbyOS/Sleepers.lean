import HobbyOS.WaitFor

/-!
# Who can wake a sleeping process

Every wait channel of the kernel keeps one process pointer. This module adds
to the scheduler's machine where each blocked process expects to be woken
from: the pointer of the object it waits for, the end of a child, the scan
of `scheduler_tick` over the processes in `epoll_wait`, the network worker's
own pointer. A process is recorded if that source is in place and what it
waits for is still to come. `SYS_SELECT` blocks without leaving any of these,
and the loop of `arp_resolve` blocks again without setting its pointer again.
-/

namespace HobbyOS.Sleepers
open Process Scheduler KernelFrame ReadyQueue ProcessFamily Function
open WaitFor (EndsNoticed Proper)

inductive Source where
  | pointer (w : Waiter)
  | childExit (childPid : ℕ)
  /-- the epoll instance, and the ticks that are left if there is a timeout -/
  | epoll (inst : ℕ) (ticks : Option ℕ)
  | worker
  | nothing
  deriving DecidableEq, Repr

def Source.single : Source → Bool
  | .pointer _ | .worker => true
  | _ => false

inductive Step where
  | base (a : Action)
  | arpRetry
  | select
  | epollCreate (inst : ℕ)
  | epollDestroy (inst : ℕ)
  | epollWait (inst : ℕ) (ticks : Option ℕ)
  /-- the loop of `scheduler_tick` at one slot; `ready` says whether a
  descriptor watched by the instance is ready -/
  | epollScan (i : ℕ) (ready : Bool)

structure Sys where
  k : Kernel
  source : ℕ → Source
  /-- the epoll instances in use -/
  inUse : ℕ → Bool

variable (inUse : ℕ → Bool) (k : Kernel) (s : Sys) (source : ℕ → Source) (i : ℕ)

/-- What the step puts the current process to sleep on, if it does. -/
def sleepsOn : Step → Option Source
  | .base (.waitFor c) => if (processWaitFor k c).2 = none then some (.childExit c) else none
  | .base (.pipeRead p n) =>
    if (pipeRead k p n).2 = none then some (.pointer (.pipeReader p)) else none
  | .base (.pipeWrite p buf) =>
    if (pipeWrite k p buf).2 = none then some (.pointer (.pipeWriter p)) else none
  | .base (.sleep (some w)) => some (.pointer w)
  | .base .netWorkerWait => some .worker
  | .base .resume =>
    match k.call k.current with
    | .pipeRead p n =>
      if (pipeRead (setCall k k.current .none) p n).2 = none then some (.pointer (.pipeReader p))
      else none
    | .pipeWrite p buf =>
      if (pipeWriteLoop (setCall k k.current .none) p buf).2 = none then
        some (.pointer (.pipeWriter p))
      else none
    | _ => none
  | .arpRetry => some (.pointer .arpWaiter)
  | .select => some .nothing
  | .epollWait inst ticks => some (.epoll inst ticks)
  | _ => none

/-- One tick less, if there is a timeout. -/
def Source.count : Source → Source
  | .epoll inst ticks => .epoll inst (ticks.map (·-1))
  | x => x

/-- The timeout is over, or a descriptor of an instance in use is ready. -/
def due (ready : Bool) : Source → Bool
  | .epoll inst ticks => ticks == some 0 || inUse inst && ready
  | _ => false

def kernelStep : Step → Kernel
  | .base a => act s.k a
  | .arpRetry | .select => block s.k .other
  | .epollCreate _ | .epollDestroy _ => s.k
  | .epollWait _ _ => act s.k .epollWait
  | .epollScan i ready =>
    if due s.inUse ready (s.source i).count then act s.k (.epollWake i) else s.k

/-- `epoll_wait` and the wake-ups of `epoll` are steps of their own here. -/
def enabledStep : Step → Bool
  | .base (.sleep none) | .base .epollWait | .base (.epollWake _) => false
  | .base a => enabled s.k a
  | .arpRetry | .select | .epollDestroy _ => enabled s.k (.sleep none)
  | .epollCreate inst => !s.inUse inst && enabled s.k (.sleep none)
  | .epollWait inst ticks => s.inUse inst && ticks != some 0 && enabled s.k .epollWait
  | .epollScan i _ => i < maxProcesses

def note : Option Source → ℕ → Source
  | none => source
  | some x => update source i x

def next (st : Step) : Sys where
  k := kernelStep s st
  source :=
    match st with
    | .epollScan i _ =>
      if (s.k.table i).state = .blocked ∧ s.k.call i = .epollWait then
        update s.source i (s.source i).count
      else s.source
    | st => note s.source s.k.current (sleepsOn s.k st)
  inUse :=
    match st with
    | .epollCreate inst => update s.inUse inst true
    | .epollDestroy inst => update s.inUse inst false
    | _ => s.inUse

/-- Slot `j` holds a child of the process in slot `i` that a wait for `c` means. -/
def Child (t : Table) (i c j : ℕ) : Prop :=
  j < maxProcesses ∧ (t j).ppid = (t i).pid ∧ (c = 0 ∨ (t j).pid = c)

/-- The process waits for a child, none that it means has ended, and one lives. -/
structure Awaits (k : Kernel) (i c : ℕ) : Prop where
  field : (k.table i).waitForPid = c
  call : k.call i = .waitFor c
  pid : 1 < (k.table i).pid
  pending : ∀ j, Child k.table i c j → (k.table j).state ≠ .zombie
  child : ∃ j, Child k.table i c j ∧ Living (k.table j)

/-- A pipe has what its sleeper waits for only once it has been woken. What
happens to the other objects is not modelled here. -/
def Pending : Waiter → Prop
  | .pipeReader p => (k.pipes p).count = 0 ∧ (k.pipes p).writers ≠ 0
  | .pipeWriter p => (k.pipes p).count = pipeBufSize ∧ (k.pipes p).readers ≠ 0
  | _ => True

def Holds : Source → Prop
  | .pointer w => k.waiters w = some i ∧ Pending k w
  | .childExit c => Awaits k i c
  | .epoll inst ticks => k.call i = .epollWait ∧ (inUse inst = true ∨ ticks ≠ none)
  | .worker => k.netWorker = some i
  | .nothing => False

def boot : Sys where
  k := Scheduler.boot
  source := fun _ => .nothing
  inUse := fun _ => false

def Alone (x : Source) : Prop :=
  ∀ j, j ≠ s.k.current → (s.k.table j).state = .blocked → s.source j ≠ x

/-- Pids do not wrap around; a process that waits has an own pid above that of
the idle process and names a child or any child; and a signal that tells no
parent ends no child that somebody waits for. -/
def Told (a : Action) : Prop :=
  Proper s.k a ∧ (∀ c, a = .waitFor c → 1 < (s.k.table s.k.current).pid) ∧
    (a = .signalCheck → ∀ i c, (s.k.table i).state = .blocked → s.source i = .childExit c →
      Child s.k.table i c s.k.current → EndsNoticed (s.k.table s.k.current))

/-- A process blocks only where no other process sleeps, `arp_resolve` blocks
again only while the pointer still holds the process and clears it only when
nobody else waits, and no process blocks in `select`. The process that goes
on after a `schedule()` has been woken, parents are told of the end of the
children they wait for, and an epoll instance in which a process sleeps
without a timeout is not closed. -/
def Meets : Step → Prop
  | .base a =>
    (∀ x, sleepsOn s.k (.base a) = some x → x.single = true → Alone s x) ∧
      (a = .arpDone → Alone s (.pointer .arpWaiter)) ∧
      (a = .resume ∨ a = .arpDone → (s.k.table s.k.current).state ≠ .blocked) ∧ Told s a
  | .arpRetry => s.k.waiters .arpWaiter = some s.k.current
  | .select => False
  | .epollDestroy inst => ∀ i, (s.k.table i).state = .blocked → s.source i ≠ .epoll inst none
  | .epollCreate _ | .epollWait _ _ | .epollScan _ _ => True

inductive Reach (P : Sys → Step → Prop) : Sys → Prop where
  | boot : Reach P boot
  | step (s : Sys) (st : Step) (hs : Reach P s) (he : enabledStep s st = true) (hp : P s st) :
      Reach P (next s st)

/-- Nobody falls asleep, and a pointer is only taken from a process that has
been woken, which is also told when what it waits for is there. -/
structure Frame (k k' : Kernel) : Prop where
  blocked : ∀ i, (k'.table i).state = .blocked → (k.table i).state = .blocked ∧
    (k'.table i).waitForPid = (k.table i).waitForPid ∧ k'.call i = k.call i
  pointer : ∀ w i, k.waiters w = some i → Pending k w →
    (k'.waiters w = some i ∧ Pending k' w) ∨ (k'.table i).state ≠ .blocked
  worker : k'.netWorker = k.netWorker
  known : Known k → Known k'

/-- Nobody ends or gets another parent either. -/
structure Calm (k k' : Kernel) : Prop extends Mild k k' where
  pointer : ∀ w i, k.waiters w = some i → Pending k w →
    (k'.waiters w = some i ∧ Pending k' w) ∨ (k'.table i).state ≠ .blocked
  worker : k'.netWorker = k.netWorker

theorem pending_congr {k k' : Kernel} (h : k'.pipes = k.pipes) {w : Waiter} (hw : Pending k w) :
    Pending k' w := by
  cases w with
  | pipeReader p | pipeWriter p => simpa only [Pending, h] using hw
  | _ => trivial

variable (d : Call) (pid c p : ℕ)

/-- A call that either blocks on `w` or returns. -/
def Waits (w : Waiter) {α : Type} (r : Kernel × Option α) : Prop :=
  (Pending k w ∧ ∃ d, r = (block (setWaiter k w (some k.current)) d,none)) ∨
    ∃ k' a, r = (k',some a) ∧ Calm k k'

section ending
variable {k} {i e : ℕ} {c : ℕ} (code : ℤ)

end ending

def runFrom (s : Sys) : List Step → Sys
  | [] => s
  | st::sts => runFrom (next s st) sts

def Runs (P : Sys → Step → Prop) (s : Sys) : List Step → Prop
  | [] => True
  | st::sts => enabledStep s st = true ∧ P s st ∧ Runs P (next s st) sts

theorem reach_run (P : Sys → Step → Prop) (s : Sys) (sts : List Step) (hs : Reach P s)
    (h : Runs P s sts) : Reach P (runFrom s sts) := by
  induction sts generalizing s with
  | nil => exact hs
  | cons st sts ih => exact ih (next s st) (Reach.step s st hs h.1 h.2.1) h.2.2

def waitsFor3 : List Step :=
  [.base (.create userProc), .base .tick, .base (.create WaitFor.childProc), .base (.waitFor 3)]

/-- The child 3 gets signal 10, which has no case of its own. -/
def childSignalled : List Step :=
  waitsFor3++[.base (.signalSend 3 10), .base .tick, .base .signalCheck]

end HobbyOS.Sleepers
