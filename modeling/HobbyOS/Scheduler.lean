import HobbyOS.Process

/-!
# Processes, the ready queue and who wakes whom

The process side of the kernel between two calls of `schedule()`:
`scheduler.c`, `signal.c`, `pipe.c`, `process_wait_for`, the process part of
`syscall_exit` and `kill_user_process`, and the wake-ups of the network and
terminal code. A function that blocks stops at its `schedule()`; `call`
remembers where the process goes on when it next runs. Interrupts are off
from the entry of a system call to its `schedule()`, so such a stretch is one
step.
-/

namespace HobbyOS.Scheduler
open Process Function

def pipeBufSize : ℕ := 4096

/-- `struct pipe` without the blocked pointers, which are kept in `waiters`. -/
structure Pipe where
  buffer : ℕ → UInt8 := fun _ => 0
  readPos : ℕ := 0
  writePos : ℕ := 0
  count : ℕ := 0
  readers : ℕ := 1
  writers : ℕ := 1

/-- The pointers to a blocked process that some event wakes without looking
at the state of the process. -/
inductive Waiter where
  | pipeReader (p : ℕ)
  | pipeWriter (p : ℕ)
  | tcpReader (i : ℕ)
  | tcpWriter (i : ℕ)
  | tcpAccepter (i : ℕ)
  | udpReader (i : ℕ)
  | ttyReader
  | arpWaiter
  | pingWaiter
  deriving DecidableEq, Repr

/-- What a process does when it next returns from `schedule()`. -/
inductive Call where
  | none
  | waitFor (childPid : ℕ)
  | pipeRead (p count : ℕ)
  | pipeWrite (p : ℕ) (buf : List UInt8)
  | epollWait
  | other
  deriving DecidableEq, Repr

structure Kernel where
  table : Table
  head : Option ℕ
  tail : Option ℕ
  current : ℕ
  nextPid : ℕ
  pipes : ℕ → Pipe
  waiters : Waiter → Option ℕ
  netWorker : Option ℕ
  call : ℕ → Call

variable (k : Kernel) (p : ℕ) (t : Table)

def setProc (i : ℕ) (f : Proc → Proc) : Kernel :=
  { k with table := update k.table i (f (k.table i)) }

def setWaiter (w : Waiter) (o : Option ℕ) : Kernel :=
  { k with waiters := update k.waiters w o }

def setPipe (f : Pipe → Pipe) : Kernel :=
  { k with pipes := update k.pipes p (f (k.pipes p)) }

def setCall (i : ℕ) (c : Call) : Kernel :=
  { k with call := update k.call i c }

def schedulerAdd : Kernel :=
  let k := setProc k p fun x => { x with state := .ready, next := none }
  match k.head, k.tail with
  | none, _ => { k with head := some p, tail := some p }
  -- a queue with a head always has a tail; the source follows it unchecked
  | some _, none => k
  | some _, some t => { setProc k t fun x => { x with next := some p } with tail := some p }

def popHead (n : ℕ) : Kernel :=
  { k with head := (k.table n).next, tail := if (k.table n).next = none then none else k.tail }

def switchTo (n : ℕ) : Kernel :=
  { setProc k n fun x => { x with state := .running } with current := n }

def schedule : Kernel :=
  match k.head with
  | none => k
  | some n =>
    let k := popHead k n
    let k := if (k.table k.current).state = .running then schedulerAdd k k.current else k
    switchTo k n

def block (c : Call) : Kernel :=
  schedule (setCall (setProc k k.current fun x => { x with state := .blocked }) k.current c)

/-- Wake-up without a look at the state: `pipe.c`, `wake_process` of `tcp.c`,
`socket_udp_deliver`, `arp_receive`, `icmp_receive` and the terminal. -/
def wake (w : Waiter) : Kernel :=
  match k.waiters w with
  | none => k
  | some p => setWaiter (schedulerAdd k p) w none

/-- Wake-up of a process that is looked at first: `net_rx_enqueue`,
`scheduler_tick` and `signal_send`. -/
def wakeBlocked : Kernel :=
  if (k.table p).state = .blocked then schedulerAdd k p else k

def sigint : ℕ := 2
def sigkill : ℕ := 9
def sigpipe : ℕ := 13
def sigterm : ℕ := 15
def sigchld : ℕ := 17
def sigtstp : ℕ := 20

def sigDfl : ℕ := 0
def sigIgn : ℕ := 1

def sigBit (sig : ℕ) : BitVec 32 := 1#32 <<< sig

def signalSend (pid sig : ℕ) : Kernel :=
  if sig < 1 ∨ 32 ≤ sig then k
  else
    match processGetByPid k.table pid with
    | none => k
    | some t =>
      if (k.table t).state = .terminated then k
      else wakeBlocked (setProc k t fun x => { x with sigPending := x.sigPending ||| sigBit sig }) t

/-- A parent blocked on the process `pid` or on any child is woken. -/
def wakeParent (pid ppid : ℕ) : Kernel :=
  match processGetByPid k.table ppid with
  | none => k
  | some q =>
    if (k.table q).waitForPid = 0 ∨ (k.table q).waitForPid = pid then wakeBlocked k q else k

def becomeZombie (i : ℕ) (code : ℤ) : Kernel :=
  setProc k i fun x => { x with state := .zombie, exitCode := code }

/-- The named cases of the switch in `signal_check`. -/
def killSignals : List ℕ := [sigkill, sigterm, sigint, sigpipe, sigtstp]

def signalCheckFrom (k : Kernel) (i : ℕ) : List ℕ → Kernel
  | [] => k
  | sig::sigs =>
    if (k.table i).sigPending &&& sigBit sig = 0 then signalCheckFrom k i sigs
    else
      let k := setProc k i fun x => { x with sigPending := x.sigPending &&& ~~~sigBit sig }
      let handler := (k.table i).sigHandlers sig
      if handler = sigIgn then signalCheckFrom k i sigs
      else if handler = sigDfl then
        if sig = sigchld then signalCheckFrom k i sigs
        else if sig ∈ killSignals then
          schedule (wakeParent (becomeZombie k i (128+sig)) (k.table i).pid (k.table i).ppid)
        else schedule (becomeZombie k i (128+sig))
      else setProc k i fun x => { x with inSignalHandler := true }

def signals : List ℕ := (List.range 31).map (· + 1)

def signalCheck (i : ℕ) : Kernel :=
  if (k.table i).isUser = false ∨ (k.table i).inSignalHandler = true then k
  else signalCheckFrom k i signals

def killUserProcess (i sig : ℕ) : Kernel :=
  let pid := (k.table i).pid
  let ppid := (k.table i).ppid
  schedule (wakeParent (signalSend (becomeZombie k i (128+sig)) ppid sigchld) pid ppid)

def reparent (pid : ℕ) : Kernel :=
  { k with table := fun j =>
      if j < maxProcesses ∧ (k.table j).ppid = pid ∧
          (k.table j).state ≠ .unused ∧ (k.table j).state ≠ .terminated
      then { k.table j with ppid := 1 } else k.table j }

/-- `syscall_exit` from the point where descriptors and address space are
gone. The descriptors are closed one at a time before it. -/
def exitProcess (code : ℤ) : Kernel :=
  let i := k.current
  let pid := (k.table i).pid
  let k := signalSend (becomeZombie k i code) (k.table i).ppid sigchld
  let k := reparent k pid
  schedule (wakeParent k pid (k.table i).ppid)

/-- What the call returns: the pid or -1, and the status word if written. -/
structure Reply where
  ret : ℤ
  status : Option ℤ := none
  deriving DecidableEq, Repr

def processFindZombieChild (parentPid : ℕ) : Option ℕ :=
  (List.range maxProcesses).find? fun i => (t i).state == .zombie && (t i).ppid == parentPid

def processHasChildren (parentPid : ℕ) : Bool :=
  (List.range maxProcesses).any fun i =>
    (t i).ppid == parentPid && (t i).state != .unused && (t i).state != .terminated

def findZombie (curPid childPid : ℕ) : Option ℕ :=
  if childPid = 0 then processFindZombieChild t curPid
  else (processGetByPid t childPid).filter fun c =>
    (t c).ppid == curPid && (t c).state == .zombie

def reap (z : ℕ) : Kernel × Reply :=
  (setProc k z fun x => { x with state := .unused },
    ⟨(k.table z).pid,some (k.table z).exitCode⟩)

/-- `none` as an answer: the caller is blocked. -/
def processWaitFor (childPid : ℕ) : Kernel × Option Reply :=
  let cur := k.table k.current
  match findZombie k.table cur.pid childPid with
  | some z => ((reap k z).1,some (reap k z).2)
  | none =>
    if processHasChildren k.table cur.pid = false then (k,some ⟨-1,none⟩)
    else
      let k := setProc k k.current fun x => { x with waitForPid := childPid }
      (block k (.waitFor childPid),none)

/-- The second half of the call, after `schedule()` has come back. -/
def processWaitResume (childPid : ℕ) : Kernel × Reply :=
  match findZombie k.table (k.table k.current).pid childPid with
  | some z => reap k z
  | none => (k,⟨-1,none⟩)

def takeBytes (x : Pipe) (n : ℕ) : List UInt8 :=
  (List.range n).map fun i => x.buffer ((x.readPos+i) % pipeBufSize)

def putBytes (x : Pipe) (buf : List UInt8) : Pipe :=
  buf.foldl (fun x b => { x with
    buffer := update x.buffer x.writePos b
    writePos := (x.writePos+1) % pipeBufSize }) x

/-- `none` as an answer: the caller is blocked. -/
def pipeRead (p count : ℕ) : Kernel × Option (List UInt8) :=
  let x := k.pipes p
  if x.count = 0 then
    if x.writers = 0 then (k,some [])
    else (block (setWaiter k (.pipeReader p) (some k.current)) (.pipeRead p count),none)
  else
    let n := min count x.count
    let k := setPipe k p fun x => { x with
      readPos := (x.readPos+n) % pipeBufSize, count := x.count-n }
    (wake k (.pipeWriter p),some (takeBytes x n))

/-- `pipe_write` from its loop on, which is where it also resumes. -/
def pipeWriteLoop (buf : List UInt8) : Kernel × Option ℤ :=
  let x := k.pipes p
  if x.count = pipeBufSize then
    if x.readers = 0 then (k,some (-1))
    else (block (setWaiter k (.pipeWriter p) (some k.current)) (.pipeWrite p buf),none)
  else
    let n := min buf.length (pipeBufSize-x.count)
    let k := setPipe k p fun x => { putBytes x (buf.take n) with count := x.count+n }
    (wake k (.pipeReader p),some n)

def pipeWrite (buf : List UInt8) : Kernel × Option ℤ :=
  if (k.pipes p).readers = 0 then (k,some (-1)) else pipeWriteLoop k p buf

def pipeCloseRead : Kernel :=
  let k := setPipe k p fun x => { x with readers := x.readers-1 }
  if (k.pipes p).readers = 0 then wake k (.pipeWriter p) else k

def pipeCloseWrite : Kernel :=
  let k := setPipe k p fun x => { x with writers := x.writers-1 }
  if (k.pipes p).writers = 0 then wake k (.pipeReader p) else k

def pipeIncRef (type : FdType) : Kernel :=
  setPipe k p fun x =>
    match type with
    | .pipeRead => { x with readers := x.readers+1 }
    | .pipeWrite => { x with writers := x.writers+1 }
    | _ => x

def freeSlot : Option ℕ :=
  (List.range maxProcesses).find? fun i => (t i).state == .unused

/-- A new process record: `init` supplies what the caller of
`process_create` or `fork` passes on. -/
def freshProc (init : Proc) (pid : ℕ) : Proc :=
  { init with
    pid := pid, state := .ready, next := none, exitCode := 0, waitForPid := 0
    sigPending := 0, inSignalHandler := false }

def create (init : Proc) : Kernel :=
  match freeSlot k.table with
  | none => k
  | some i =>
    let k := setCall (setProc k i fun _ => freshProc init k.nextPid) i .none
    schedulerAdd { k with nextPid := (k.nextPid+1) % 2^32 } i

/-- A creation that runs out of memory: `process_create` has set the record
up and `user_process_create` gives it up as terminated, `fork` has only
cleared it. -/
def createFails (init : Proc) (fork : Bool) : Kernel :=
  match freeSlot k.table with
  | none => k
  | some i =>
    let x : Proc :=
      if fork then { pid := k.nextPid }
      else { freshProc init k.nextPid with state := .terminated, ppid := 0 }
    { setProc k i fun _ => x with nextPid := (k.nextPid+1) % 2^32 }

inductive Action where
  | tick
  | create (init : Proc)
  | createFails (init : Proc) (fork : Bool)
  | signalSend (pid sig : ℕ)
  | sigaction (sig handler : ℕ)
  | sigreturn
  | signalCheck
  | fault (sig : ℕ)
  | exit (code : ℤ)
  | waitFor (childPid : ℕ)
  | pipeRead (p count : ℕ)
  | pipeWrite (p : ℕ) (buf : List UInt8)
  | pipeCloseRead (p : ℕ)
  | pipeCloseWrite (p : ℕ)
  | pipeIncRef (p : ℕ) (type : FdType)
  /-- block in the socket, terminal, ARP or `select` code -/
  | sleep (w : Option Waiter)
  | epollWait
  | netWorkerWait
  /-- `ping_state.waiter` is set by a process that goes on running -/
  | pingStart
  | arpDone
  | resume
  | wake (w : Waiter)
  | netReceive
  | epollWake (i : ℕ)

/-- A process comes back from `schedule()` inside a system call. -/
def resumeCall : Kernel :=
  let i := k.current
  match k.call i with
  | .waitFor c => (processWaitResume (setCall k i .none) c).1
  | .pipeRead p n => (pipeRead (setCall k i .none) p n).1
  | .pipeWrite p buf => (pipeWriteLoop (setCall k i .none) p buf).1
  | _ => setCall k i .none

def act : Action → Kernel
  | .tick => schedule k
  | .create init => create k init
  | .createFails init fork => createFails k init fork
  | .signalSend pid sig => signalSend k pid sig
  | .sigaction sig handler =>
    if sig < 1 ∨ 32 ≤ sig ∨ sig = sigkill then k
    else setProc k k.current fun x =>
      { x with sigHandlers := update x.sigHandlers sig handler }
  | .sigreturn => setProc k k.current fun x => { x with inSignalHandler := false }
  | .signalCheck => signalCheck k k.current
  | .fault sig => killUserProcess k k.current sig
  | .exit code => exitProcess k code
  | .waitFor c => (processWaitFor k c).1
  | .pipeRead p n => (pipeRead k p n).1
  | .pipeWrite p buf => (pipeWrite k p buf).1
  | .pipeCloseRead p => pipeCloseRead k p
  | .pipeCloseWrite p => pipeCloseWrite k p
  | .pipeIncRef p type => pipeIncRef k p type
  | .sleep none => block k .other
  | .sleep (some w) => block (setWaiter k w (some k.current)) .other
  | .epollWait => block k .epollWait
  | .netWorkerWait => block { k with netWorker := some k.current } .other
  | .pingStart => setWaiter k .pingWaiter (some k.current)
  | .arpDone => setWaiter k .arpWaiter none
  | .resume => resumeCall k
  | .wake w => wake k w
  | .netReceive =>
    match k.netWorker with
    | none => k
    | some p => wakeBlocked k p
  | .epollWake i => if k.call i = .epollWait then wakeBlocked k i else k

def idle : ℕ := 0

/-- The pointers of the socket, terminal and ARP code. -/
def Waiter.device : Waiter → Bool
  | .pipeReader _ | .pipeWriter _ | .pingWaiter => false
  | _ => true

/-- Interrupts and kernel events come at any time; a system call is made by
a process that is not inside another one. -/
def enabled : Action → Bool
  | .tick | .create _ | .createFails _ _ | .signalSend _ _ | .netReceive => true
  | .wake w => w.device || w == .pingWaiter
  | .epollWake i => i < maxProcesses
  | .resume => k.current != idle && k.call k.current != .none
  | .sleep (some w) => w.device && k.current != idle && k.call k.current == .none
  | _ => k.current != idle && k.call k.current == .none

/-- The kernel after `scheduler_init`; every pipe is as `pipe_create` leaves it. -/
def boot : Kernel where
  table := fun i => if i = idle then { pid := 1, state := .running } else {}
  head := none
  tail := none
  current := idle
  nextPid := 2
  pipes := fun _ => {}
  waiters := fun _ => none
  netWorker := none
  call := fun _ => .none

inductive Reach (P : Kernel → Action → Prop) : Kernel → Prop where
  | boot : Reach P boot
  | step (k : Kernel) (a : Action) (hk : Reach P k) (he : enabled k a = true) (hp : P k a) :
      Reach P (act k a)

theorem reach_invariant (P : Kernel → Action → Prop) (I : Kernel → Prop) (h0 : I boot)
    (hstep : ∀ k a, I k → enabled k a = true → P k a → I (act k a)) {k : Kernel} (h : Reach P k) : I k := by
  induction h with
  | boot => exact h0
  | step k a _ he hp ih => exact hstep k a ih he hp

end HobbyOS.Scheduler
