import HobbyOS.SignalFrame

/-!
# One process between a kill and its end

A process with every place where it can sleep, seen from the process: the
rest of the system appears as the signals it sends, the wake-ups it makes and
what the shared objects hold whenever the process gets to run. Each blocking
function is cut at its `schedule()`. `signal_check` runs when a system call or
an interrupt from user mode is left, and nowhere else; the first entry of a
new process into user mode does not pass it.
-/

namespace HobbyOS.KillSignal
open Process Scheduler SignalFrame Function

/-- The functions that block. `select` counts the polls it has left and
`arp_resolve` its attempts. -/
inductive Site where
  | pipeRead (p : ℕ)
  | pipeWrite (p : ℕ)
  | ttyRead
  | udpRecv (i : ℕ)
  | tcpRecv (i : ℕ)
  | tcpAccept (i : ℕ)
  | tcpConnect (i : ℕ)
  | waitFor
  | epollWait
  | select (polls : ℕ)
  | arpResolve (tries : ℕ)
  deriving DecidableEq, Repr

/-- What the process reads of the rest of the kernel when it runs. -/
structure Shared where
  pipes : ℕ → Pipe := fun _ => {}
  ttyReadLen : ℕ := 0
  ttyReadPos : ℕ := 0
  udpCount : ℕ → ℕ := fun _ => 0
  rxCount : ℕ → ℕ := fun _ => 0
  eof : ℕ → Bool := fun _ => false
  /-- the connection is `TCP_CLOSED` or `TCP_CLOSE_WAIT` -/
  closed : ℕ → Bool := fun _ => false
  acceptCount : ℕ → ℕ := fun _ => 0
  /-- `process_wait_for` has a zombie to reap or no child at all -/
  waitAnswered : Bool := false
  /-- a watched descriptor is ready, or the timeout is zero -/
  fdReady : Bool := false
  arpCached : Bool := false
  /-- some process is in the ready queue -/
  othersReady : Bool := true

/-- The condition under which the function at `s` does not wait. -/
def Site.ready (e : Shared) : Site → Bool
  | .pipeRead p => (e.pipes p).count != 0 || (e.pipes p).writers == 0
  | .pipeWrite p => (e.pipes p).count != pipeBufSize || (e.pipes p).readers == 0
  | .ttyRead => !(e.ttyReadLen == 0 || decide (e.ttyReadLen ≤ e.ttyReadPos))
  | .udpRecv i => e.udpCount i != 0
  | .tcpRecv i => e.rxCount i != 0 || e.eof i || e.closed i
  | .tcpAccept i => e.acceptCount i != 0
  | .tcpConnect _ => false
  | .waitFor => e.waitAnswered
  | .epollWait => e.fdReady
  | .select polls => polls == 0 || e.fdReady
  | .arpResolve _ => e.arpCached

/-- The loops that give up when `signal_has_fatal` says so. -/
def Site.checksFatal : Site → Bool
  | .udpRecv _ | .tcpRecv _ | .tcpAccept _ => true
  | _ => false

/-- The pointer that the function leaves to the sleeping process. -/
def Site.waiter : Site → Option Waiter
  | .pipeRead p => some (.pipeReader p)
  | .pipeWrite p => some (.pipeWriter p)
  | .ttyRead => some .ttyReader
  | .udpRecv i => some (.udpReader i)
  | .tcpRecv i => some (.tcpReader i)
  | .tcpAccept i => some (.tcpAccepter i)
  | .tcpConnect i => some (.tcpWriter i)
  | .arpResolve _ => some .arpWaiter
  | .waitFor | .epollWait | .select _ => none

inductive Move where
  | pass
  | sleep (s : Site)
  deriving DecidableEq, Repr

def enter (e : Shared) (fatal : Bool) (s : Site) : Move :=
  if s.ready e || (s.checksFatal && fatal) then .pass
  else
    match s with
    | .select polls => .sleep (.select (polls-1))
    | s => .sleep s

/-- The function goes on after its `schedule()`. -/
def resume (e : Shared) (fatal : Bool) : Site → Move
  -- no loop: the call returns whatever has woken it
  | .tcpConnect _ | .waitFor | .epollWait => .pass
  | .arpResolve tries =>
    if e.arpCached || tries == 0 then .pass else .sleep (.arpResolve (tries-1))
  | s => enter e fatal s

/-- Where the process is. In the kernel it has the blocking functions of its
system call before it; with none left it is about to leave through
`signal_check`. -/
inductive Point where
  | user
  | kernel (inside : Bool) (sites : List Site)
  /-- in a `schedule()` that a dead process does not come back from -/
  | stopped

structure Victim where
  user : UserProc
  point : Point
  /-- the wake-up pointers that hold this process -/
  pointers : Waiter → Bool := fun _ => false

def setState (v : Victim) (s : State) : Victim :=
  { v with user.proc.state := s }

def signalHasFatal (x : Proc) : Bool :=
  x.sigPending &&& (sigBit sigint ||| sigBit sigkill ||| sigBit sigterm) != 0

/-- How a system call or an exception enters the kernel from user mode. -/
inductive Trap where
  | interrupt
  | call (sites : List Site)
  | sigaction (sig handler : ℕ)
  | sigreturn
  | exec
  | exit

inductive Event where
  | send (sig : ℕ)
  /-- the object with this pointer wakes its process -/
  | wake (w : Waiter)
  /-- another process takes over or clears the pointer -/
  | forget (w : Waiter)
  | childExit
  | tick
  | reap
  | run (e : Shared)
  | trap (t : Trap)

def send (v : Victim) (sig : ℕ) : Victim :=
  if sig < 1 ∨ 32 ≤ sig ∨ v.user.proc.state = .unused ∨ v.user.proc.state = .terminated then v
  else
    { v with
      user.proc.sigPending := v.user.proc.sigPending ||| sigBit sig
      user.proc.state := if v.user.proc.state = .blocked then .ready else v.user.proc.state }

def wakeBlocked (v : Victim) : Victim :=
  if v.user.proc.state = .blocked then setState v .ready else v

def sleepAt (v : Victim) (s : Site) (rest : List Site) : Victim :=
  { v with
    user.proc.state := .blocked
    point := .kernel true (s::rest)
    pointers := fun w => v.pointers w || s.waiter == some w }

def passOn (v : Victim) (s : Site) (inside : Bool) (rest : List Site) : Victim :=
  { v with
    point := .kernel false rest
    -- `arp_resolve` clears the pointer on its way out
    pointers := fun w =>
      v.pointers w && !(inside && s.waiter == some .arpWaiter && w == .arpWaiter) }

def moveOn (v : Victim) (s : Site) (inside : Bool) (rest : List Site) : Move → Victim
  | .pass => passOn v s inside rest
  | .sleep s => sleepAt v s rest

/-- `signal_check`. A `schedule()` that finds the queue empty returns, and
the process goes on to user mode all the same. -/
def leave (v : Victim) (e : Shared) : Victim :=
  match check v.user {} with
  | .returns u _ => { v with user := u, point := .user }
  | .dies _ => { setState v .zombie with point := if e.othersReady then .stopped else .user }

def proceed (e : Shared) (fatal inside : Bool) (s : Site) : Move :=
  if inside then resume e fatal s else enter e fatal s

def run (v : Victim) (e : Shared) : Victim :=
  match v.point with
  | .user => v
  | .kernel inside (s::rest) =>
    moveOn v s inside rest (proceed e (signalHasFatal v.user.proc) inside s)
  | .kernel _ [] => leave v e
  -- `schedule()` has come back: the way out of `signal_check` leads to user mode
  | .stopped => { v with point := .user }

def trap (v : Victim) : Trap → Victim
  | .interrupt => { v with point := .kernel false [] }
  | .call sites => { v with point := .kernel false sites }
  | .sigaction sig handler =>
    if sig < 1 ∨ 32 ≤ sig ∨ sig = sigkill then { v with point := .kernel false [] }
    else
      { v with
        user.proc.sigHandlers := update v.user.proc.sigHandlers sig handler
        point := .kernel false [] }
  | .sigreturn => { v with user := (sigreturn v.user {}).1, point := .kernel false [] }
  | .exec =>
    { v with
      user.proc.sigHandlers := fun sig =>
        if sigIgn < v.user.proc.sigHandlers sig then sigDfl else v.user.proc.sigHandlers sig
      user.proc.sigPending := 0
      user.proc.inSignalHandler := false
      point := .kernel false [] }
  | .exit => { setState v .zombie with point := .stopped }

def act (v : Victim) : Event → Victim
  | .send sig => send v sig
  | .wake w => { setState v .ready with pointers := update v.pointers w false }
  | .forget w => { v with pointers := update v.pointers w false }
  | .childExit => wakeBlocked v
  | .tick => wakeBlocked v
  | .reap => setState v .unused
  | .run e => run v e
  | .trap t => trap v t

def Runnable (v : Victim) : Prop := v.user.proc.state = .ready ∨ v.user.proc.state = .running

def Enabled (v : Victim) : Event → Prop
  | .send _ | .forget _ | .childExit => True
  | .wake w => v.pointers w = true
  | .tick => ∃ rest, v.point = .kernel true (.epollWait::rest)
  | .reap => v.user.proc.state = .zombie
  | .run _ => Runnable v ∧ v.point ≠ .user
  | .trap _ => Runnable v ∧ v.point = .user

/-- A process as `user_process_create` leaves it. -/
def created (pid : ℕ) : Victim where
  user := { proc := { pid := pid, state := .ready, isUser := true } }
  point := .user

def forked (v : Victim) (pid : ℕ) : Victim where
  user :=
    { proc := { v.user.proc with
        pid := pid, ppid := v.user.proc.pid, state := .ready, sigPending := 0
        inSignalHandler := false } }
  point := .user

inductive Reach : Victim → Prop where
  | create (pid : ℕ) : Reach (created pid)
  | fork (v : Victim) (pid : ℕ) (hv : Reach v) : Reach (forked v pid)
  | step (v : Victim) (ev : Event) (hv : Reach v) (he : Enabled v ev) : Reach (act v ev)

def Default (x : Proc) : Prop := x.isUser = true ∧ x.sigHandlers sigkill = sigDfl

theorem check_from_default (sigs : List ℕ) (u v : UserProc) (f g : Frame) (h : checkFrom u f sigs = .returns v g)
    (hd : Default u.proc) : Default v.proc := by
  induction sigs generalizing u with
  | nil =>
    rw [checkFrom, Outcome.returns.injEq] at h
    rw [← h.1]
    exact hd
  | cons sig sigs ih =>
    rw [checkFrom] at h
    split_ifs at h
    · exact ih u h hd
    · exact ih ⟨clearPending u.proc sig,u.saved⟩ h hd
    · exact ih ⟨clearPending u.proc sig,u.saved⟩ h hd
    · rw [Outcome.returns.injEq] at h
      rw [← h.1]
      exact hd

variable (sig : ℕ) (v : Victim) (ev : Event) (e : Shared)

theorem leave_default (hd : Default v.user.proc) : Default (leave v e).user.proc := by
  rw [leave]
  split
  case h_1 u f h =>
    rw [check] at h
    split_ifs at h
    · rw [Outcome.returns.injEq] at h
      rw [← h.1]
      exact hd
    · exact check_from_default signals v.user u {} f h hd
  case h_2 => exact hd

theorem move_default (s : Site) (inside : Bool) (rest : List Site) (m : Move) (hd : Default v.user.proc) : Default (moveOn v s inside rest m).user.proc := by
  cases m <;> exact hd

theorem run_default (hd : Default v.user.proc) : Default (run v e).user.proc := by
  rw [run]
  split
  case h_1 => exact hd
  case h_2 => exact move_default v _ _ _ _ hd
  case h_3 => exact leave_default v e hd
  case h_4 => exact hd

theorem trap_default (t : Trap) (hd : Default v.user.proc) : Default (trap v t).user.proc := by
  cases t with
  | sigaction sig handler =>
    rw [trap]
    split_ifs with h
    · exact hd
    · have hne : sigkill ≠ sig := fun hk => h (.inr (.inr hk.symm))
      exact ⟨hd.1,by simp [update_of_ne hne, hd.2]⟩
  | sigreturn =>
    simp only [trap, sigreturn]
    split_ifs <;> exact hd
  | exec => exact ⟨hd.1,by simp [trap, hd.2]⟩
  | interrupt | call _ | exit => exact hd

theorem act_default (hd : Default v.user.proc) : Default (act v ev).user.proc := by
  cases ev with
  | send sig =>
    simp only [act, send]
    split_ifs <;> exact hd
  | childExit | tick =>
    simp only [act, wakeBlocked]
    split_ifs <;> exact hd
  | wake w | forget w | reap => exact hd
  | run e => exact run_default v e hd
  | trap t => exact trap_default v t hd

theorem reach_default (h : Reach v) : Default v.user.proc := by
  induction h with
  | create pid => exact ⟨rfl,rfl⟩
  | fork v pid hv ih => exact ih
  | step v ev hv he ih => exact act_default v ev ih

theorem pending_iff (x : BitVec 32) (sig : ℕ) (h : sig < 32) :
    x &&& sigBit sig = 0 ↔ x.getLsbD sig = false := by
  have hb : x &&& sigBit sig = if x.getLsbD sig then BitVec.twoPow 32 sig else 0 := BitVec.and_twoPow x sig
  rw [hb]
  cases x.getLsbD sig with
  | false => simp
  | true =>
    have : BitVec.twoPow 32 sig ≠ 0 := by
      intro h0
      have := congrArg (BitVec.getLsbD · sig) h0
      simp [h] at this
    simpa using this

/-- The kill is pending and nothing stands between it and its default action
except lower signals. -/
structure Doomed (x : Proc) : Prop where
  default : Default x
  outside : x.inSignalHandler = false
  pending : x.sigPending.getLsbD sigkill = true

/-- No signal below `SIGKILL` is pending for a handler of the process. -/
def NoneBefore (x : Proc) : Prop :=
  ∀ sig, sig < sigkill → x.sigPending.getLsbD sig = true → x.sigHandlers sig ≤ sigIgn

theorem clear_doomed {x : Proc} {sig : ℕ} (hsig : sig < sigkill) (h : Doomed x) :
    Doomed (clearPending x sig) := by
  refine ⟨h.default,h.outside,?_⟩
  have hother : (sigBit sig).getLsbD sigkill = false := by
    have hne : sigkill-sig ≠ 0 := by omega
    simp [sigBit, hne]
  rw [clearPending, BitVec.getLsbD_and, h.pending, BitVec.getLsbD_not, hother]
  rfl

theorem clear_none_before {x : Proc} (h : NoneBefore x) : NoneBefore (clearPending x sig) := by
  intro i hi hp
  simp only [clearPending, BitVec.getLsbD_and, Bool.and_eq_true] at hp
  exact h i hi hp.1

/-- The check goes through the lower signals, which it can only ignore or
die of, and then dies of the kill. -/
theorem check_from_dies (low high : List ℕ) (u : UserProc) (f : Frame) (hl : ∀ sig ∈ low, sig < sigkill)
    (hd : Doomed u.proc) (hn : NoneBefore u.proc) :
    ∃ code, checkFrom u f (low++sigkill::high) = .dies code := by
  induction low generalizing u with
  | nil =>
    have hp : ¬u.proc.sigPending &&& sigBit sigkill = 0 := by
      rw [pending_iff _ _ (by decide), hd.pending]
      decide
    refine ⟨128+sigkill,?_⟩
    rw [List.nil_append, checkFrom, if_neg hp, if_neg (by rw [hd.default.2]; decide),
      if_pos hd.default.2, if_neg (by decide)]
  | cons sig low ih =>
    have hsig := hl sig (by simp)
    have hlow : ∀ i ∈ low, i < sigkill := fun i hi => hl i (by simp [hi])
    have hrec := ih ⟨clearPending u.proc sig,u.saved⟩ hlow (clear_doomed hsig hd)
      (clear_none_before sig hn)
    rw [List.cons_append, checkFrom]
    split_ifs with hp hi hdf hc
    · exact ih u hlow hd hn
    · exact hrec
    · exact hrec
    · exact ⟨_,rfl⟩
    · have hle := hn sig hsig (by
        rw [pending_iff _ _ (hsig.trans (by decide))] at hp
        simpa using hp)
      have hcases : u.proc.sigHandlers sig = sigIgn ∨ u.proc.sigHandlers sig = sigDfl := by
        simp only [sigIgn, sigDfl] at hle ⊢
        omega
      exact absurd hcases (by simp [hi, hdf])

theorem check_dies {u : UserProc} (f : Frame) (hd : Doomed u.proc) (hn : NoneBefore u.proc) :
    ∃ code, check u f = .dies code := by
  have hs : signals = [1, 2, 3, 4, 5, 6, 7, 8]++sigkill::(signals.drop 9) := by decide
  rw [check, if_neg (by simp [hd.default.1, hd.outside]), hs]
  exact check_from_dies _ _ u f (by decide) hd hn

theorem doomed_fatal {x : Proc} (h : Doomed x) : signalHasFatal x = true := by
  rw [signalHasFatal, bne_iff_ne]
  intro h0
  have := congrArg (BitVec.getLsbD · sigkill) h0
  simp only [BitVec.getLsbD_and, h.pending] at this
  revert this
  decide

/-- The function at `s` finds what it waits for, or does not wait again. -/
def Passes (e : Shared) (inside : Bool) : Site → Prop
  | .udpRecv _ | .tcpRecv _ | .tcpAccept _ => True
  | .tcpConnect i => inside = true ∨ Site.ready e (.tcpConnect i) = true
  | .waitFor => inside = true ∨ Site.ready e .waitFor = true
  | .epollWait => inside = true ∨ Site.ready e .epollWait = true
  | .arpResolve tries => e.arpCached = true ∨ (inside = true ∧ tries = 0)
  | s => s.ready e = true

/-- What the steps after the kill have to keep to: no pointer left over from
an earlier sleep is woken, every blocking function the process comes to lets
it through, the check finds no lower signal with a handler and another
process to run, and the process does not reach `exec` before the check. -/
def Meets (v : Victim) : Event → Prop
  | .wake _ => v.user.proc.state = .blocked
  | .run e =>
    match v.point with
    | .kernel inside (s::_) => Passes e inside s
    | .kernel _ [] => NoneBefore v.user.proc ∧ e.othersReady = true
    | _ => True
  | .trap .exec => False
  | _ => True

def Checks (v : Victim) : Event → Bool
  | .run _ => match v.point with
    | .kernel _ [] => true
    | _ => false
  | _ => false

/-- The states after a kill that has succeeded, with whether the process has
passed `signal_check` since. -/
inductive Killed : Bool → Victim → Prop where
  | sent (v : Victim) (hv : Reach v) (hu : v.user.proc.state ≠ .unused)
      (ht : v.user.proc.state ≠ .terminated) (hout : v.user.proc.inSignalHandler = false) :
      Killed false (send v sigkill)
  | step (c : Bool) (v : Victim) (ev : Event) (hk : Killed c v) (he : Enabled v ev) (hm : Meets v ev) :
      Killed (c || Checks v ev) (act v ev)

def Gone (v : Victim) : Prop :=
  (v.user.proc.state = .zombie ∨ v.user.proc.state = .unused) ∧ v.point = .stopped

theorem enter_pass {e : Shared} {s : Site} (h : s.ready e = true ∨ s.checksFatal = true) :
    enter e true s = .pass := by
  unfold enter
  rw [if_pos (by simpa using h)]

theorem passes_proceed {e : Shared} {inside : Bool} {s : Site} (h : Passes e inside s) :
    proceed e true inside s = .pass := by
  cases inside with
  | false =>
    refine enter_pass ?_
    cases s with
    | udpRecv _ | tcpRecv _ | tcpAccept _ => exact .inr rfl
    | pipeRead _ | pipeWrite _ | ttyRead | select _ => exact .inl h
    | tcpConnect _ | waitFor | epollWait => exact .inl (by simpa [Passes] using h)
    | arpResolve tries => exact .inl (by simpa [Passes, Site.ready] using h)
  | true =>
    cases s with
    | udpRecv _ | tcpRecv _ | tcpAccept _ => exact enter_pass (.inr rfl)
    | pipeRead _ | pipeWrite _ | ttyRead | select _ => exact enter_pass (.inl h)
    | tcpConnect _ | waitFor | epollWait => rfl
    | arpResolve tries =>
      have : (e.arpCached || tries == 0) = true := by simpa [Passes] using h
      simp [proceed, resume, this]

/-- Either the process is gone, or it has not passed the check and the kill
is still to come; in neither case does it sleep. -/
structure Final (c : Bool) (v : Victim) : Prop where
  awake : v.user.proc.state ≠ .blocked
  fate : Gone v ∨ c = false ∧ Doomed v.user.proc

theorem send_doomed {x : Proc} (b : BitVec 32) (s : State) (h : Doomed x) :
    Doomed { x with sigPending := x.sigPending ||| b, state := s } :=
  ⟨h.default,h.outside,by simp [h.pending]⟩

theorem send_final {c : Bool} {v : Victim} (h : Final c v) : Final c (send v sig) := by
  rw [send]
  split_ifs with hs hb
  · exact h
  · exact absurd hb h.awake
  · refine ⟨h.awake,?_⟩
    obtain hg | ⟨hc,hd⟩ := h.fate
    · exact .inl hg
    · exact .inr ⟨hc,send_doomed _ _ hd⟩

theorem sent_final (hd : Default v.user.proc) (hu : v.user.proc.state ≠ .unused)
    (ht : v.user.proc.state ≠ .terminated) (hout : v.user.proc.inSignalHandler = false) :
    Final false (send v sigkill) := by
  have hnot : ¬(sigkill < 1 ∨ 32 ≤ sigkill ∨ v.user.proc.state = .unused ∨ v.user.proc.state = .terminated) := by
    rintro (h | h | h | h)
    · exact absurd h (by decide)
    · exact absurd h (by decide)
    · exact hu h
    · exact ht h
  rw [send, if_neg hnot]
  refine ⟨?_,.inr ⟨rfl,hd,hout,?_⟩⟩
  · split_ifs with hb
    · simp
    · exact hb
  · have : (sigBit sigkill).getLsbD sigkill = true := by decide
    rw [BitVec.getLsbD_or, this, Bool.or_true]

theorem gone_step (h : Gone v) (he : Enabled v ev) (hm : Meets v ev) : Gone (act v ev) := by
  obtain ⟨hs,hp⟩ := h
  have hrun : ¬Runnable v := by
    rintro (hr | hr) <;> rw [hr] at hs <;> simp at hs
  have hb : v.user.proc.state ≠ .blocked := by
    intro hr
    rw [hr] at hs
    simp at hs
  cases ev with
  | send sig =>
    simp only [act, send]
    split_ifs with h1
    · exact ⟨hs,hp⟩
    · exact ⟨hs,hp⟩
  | wake w => exact absurd hm hb
  | forget w => exact ⟨hs,hp⟩
  | childExit | tick =>
    simp only [act, wakeBlocked, if_neg hb]
    exact ⟨hs,hp⟩
  | reap => exact ⟨.inr rfl,hp⟩
  | run | trap => exact absurd he.1 hrun

theorem doomed_leave (hd : Doomed v.user.proc) (hn : NoneBefore v.user.proc) (hr : e.othersReady = true) : Final true (leave v e) := by
  obtain ⟨code,hc⟩ := check_dies {} hd hn
  rw [leave, hc]
  exact ⟨by simp [setState],.inl ⟨.inl rfl,by simp [hr]⟩⟩

theorem doomed_run (hb : v.user.proc.state ≠ .blocked) (hd : Doomed v.user.proc) (hm : Meets v (.run e)) : Final (Checks v (.run e)) (run v e) := by
  simp only [Meets] at hm
  simp only [Checks, run]
  cases hp : v.point with
  | user | stopped => exact ⟨hb,.inr ⟨rfl,hd⟩⟩
  | kernel inside sites =>
    rw [hp] at hm
    cases sites with
    | nil => exact doomed_leave v e hd hm.1 hm.2
    | cons s rest =>
      have hpass := passes_proceed hm
      simp only [doomed_fatal hd, hpass]
      exact ⟨hb,.inr ⟨rfl,hd⟩⟩

theorem doomed_trap {t : Trap} (hb : v.user.proc.state ≠ .blocked) (hd : Doomed v.user.proc) (hm : Meets v (.trap t)) : Final false (trap v t) := by
  have hdef := trap_default v t hd.default
  cases t with
  | interrupt | call _ => exact ⟨hb,.inr ⟨rfl,hd⟩⟩
  | sigaction sig handler =>
    simp only [trap] at hdef ⊢
    split_ifs at hdef ⊢
    · exact ⟨hb,.inr ⟨rfl,hd⟩⟩
    · exact ⟨hb,.inr ⟨rfl,hdef,hd.outside,hd.pending⟩⟩
  | sigreturn =>
    simp only [trap, sigreturn, hd.outside]
    exact ⟨hb,.inr ⟨rfl,hd⟩⟩
  | exec => exact absurd hm id
  | exit => exact ⟨by simp [trap, setState],.inl ⟨.inl rfl,rfl⟩⟩

theorem doomed_step (hb : v.user.proc.state ≠ .blocked) (hd : Doomed v.user.proc) (he : Enabled v ev)
    (hm : Meets v ev) : Final (Checks v ev) (act v ev) := by
  have hsame : Final false v := ⟨hb,.inr ⟨rfl,hd⟩⟩
  cases ev with
  | send sig => exact send_final sig hsame
  | wake w => exact absurd hm hb
  | forget w => exact ⟨hb,.inr ⟨rfl,hd⟩⟩
  | childExit | tick =>
    simp only [act, wakeBlocked, if_neg hb]
    exact hsame
  | reap =>
    exact ⟨by simp [act, setState],.inr ⟨rfl,hd.default,hd.outside,hd.pending⟩⟩
  | run e => exact doomed_run v e hb hd hm
  | trap t => exact doomed_trap v hb hd hm

theorem killed_final {c : Bool} {v : Victim} (h : Killed c v) : Final c v := by
  induction h with
  | sent v hv hu ht hout => exact sent_final v (reach_default v hv) hu ht hout
  | step c v ev hk he hm ih =>
    obtain hg | ⟨rfl,hd⟩ := ih.fate
    · have hgone := gone_step v ev hg he hm
      refine ⟨?_,.inl hgone⟩
      obtain hz | hu := hgone.1
      · simp [hz]
      · simp [hu]
    · exact doomed_step v ev ih.awake hd he hm

/-- After a kill that finds the process outside its handlers, in every run
that meets the conditions the process does not sleep again, and once it has
passed the check it is dead and never back in user mode. -/
theorem kill_is_final (c : Bool) (v : Victim) (h : Killed c v) :
    v.user.proc.state ≠ .blocked ∧ (c = true → Gone v ∧ v.point ≠ .user) := by
  have hf := killed_final h
  refine ⟨hf.awake,?_⟩
  rintro rfl
  obtain hg | ⟨hc,-⟩ := hf.fate
  · exact ⟨hg,by simp [hg.2]⟩
  · cases hc

def waiting : Victim :=
  act (act (created 2) (.trap (.call [.waitFor]))) (.run {})

theorem waiting_reach : Reach waiting :=
  .step _ _ (.step _ _ (.create 2) ⟨.inl rfl,rfl⟩) ⟨.inl rfl,by simp [act, trap]⟩

theorem kill_is_final_waiting :
    waiting.user.proc.state = .blocked ∧ Gone (act (act (send waiting sigkill) (.run {})) (.run {})) := by
  have h0 : Killed false (send waiting sigkill) := .sent waiting waiting_reach (by decide) (by decide) rfl
  have h1 : Killed false (act (send waiting sigkill) (.run {})) :=
    .step false _ (.run {}) h0 ⟨.inl rfl,Point.noConfusion⟩ (.inl rfl)
  have hpend : ∀ sig, sig < sigkill → (act (send waiting sigkill) (.run {})).user.proc.sigPending.getLsbD sig ≠ true := by
    decide
  have h2 : Killed true (act (act (send waiting sigkill) (.run {})) (.run {})) :=
    .step false _ (.run {}) h1 ⟨.inl rfl,Point.noConfusion⟩ ⟨fun sig hs hp => absurd hp (hpend sig hs),rfl⟩
  exact ⟨rfl,((kill_is_final true _ h2).2 rfl).1⟩

/-- A reader of an empty pipe sleeps again with the kill pending. -/
theorem killed_reader_sleeps :
    let v := act (act (created 2) (.trap (.call [.pipeRead 0]))) (.run {})
    Reach v ∧ v.user.proc.inSignalHandler = false ∧ v.user.proc.state = .blocked ∧
      (send v sigkill).user.proc.state = .ready ∧
      (act (send v sigkill) (.run {})).user.proc.state = .blocked := by
  refine ⟨.step _ _ (.step _ _ (.create 2) ⟨.inl rfl,rfl⟩) ⟨.inl rfl,by simp [act, trap]⟩,rfl,rfl,rfl,rfl⟩

end HobbyOS.KillSignal
