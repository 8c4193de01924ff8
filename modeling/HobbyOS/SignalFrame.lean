import HobbyOS.Scheduler

/-!
# Signal delivery and the interrupted frame

`signal_check` and `SYS_SIGRETURN` with the registers they move. The check
runs on the frame that the return to user mode pops; a handler is entered by
rewriting that frame, after seven of its registers have been put into the
process record. `Scheduler` has the same check without the frame.
-/

namespace HobbyOS.SignalFrame
open Process Scheduler

def sysSigreturn : BitVec 64 := 13

structure Frame where
  r15 : BitVec 64 := 0
  r14 : BitVec 64 := 0
  r13 : BitVec 64 := 0
  r12 : BitVec 64 := 0
  r11 : BitVec 64 := 0
  r10 : BitVec 64 := 0
  r9 : BitVec 64 := 0
  r8 : BitVec 64 := 0
  rbp : BitVec 64 := 0
  rdi : BitVec 64 := 0
  rsi : BitVec 64 := 0
  rdx : BitVec 64 := 0
  rcx : BitVec 64 := 0
  rbx : BitVec 64 := 0
  rax : BitVec 64 := 0
  intNo : BitVec 64 := 0
  errCode : BitVec 64 := 0
  rip : BitVec 64 := 0
  cs : BitVec 64 := 0
  rflags : BitVec 64 := 0
  rsp : BitVec 64 := 0
  ss : BitVec 64 := 0
  deriving DecidableEq, Repr

structure Saved where
  rip : BitVec 64 := 0
  rsp : BitVec 64 := 0
  rflags : BitVec 64 := 0
  rax : BitVec 64 := 0
  rdi : BitVec 64 := 0
  rsi : BitVec 64 := 0
  rdx : BitVec 64 := 0
  deriving DecidableEq, Repr

def Frame.context (f : Frame) : Saved where
  rip := f.rip
  rsp := f.rsp
  rflags := f.rflags
  rax := f.rax
  rdi := f.rdi
  rsi := f.rsi
  rdx := f.rdx

/-- The general registers that have no `sig_saved_*` field. -/
def Frame.unsaved (f : Frame) : List (BitVec 64) :=
  [f.rbx, f.rcx, f.rbp, f.r8, f.r9, f.r10, f.r11, f.r12, f.r13, f.r14, f.r15]

/-- All general registers, `rip`, `rsp` and `rflags`. -/
def Frame.registers (f : Frame) : List (BitVec 64) :=
  [f.rax, f.rbx, f.rcx, f.rdx, f.rsi, f.rdi, f.rbp, f.r8, f.r9, f.r10, f.r11, f.r12, f.r13,
    f.r14, f.r15, f.rip, f.rsp, f.rflags]

theorem registers_iff (f g : Frame) :
    g.registers = f.registers ↔ g.context = f.context ∧ g.unsaved = f.unsaved := by
  simp only [Frame.registers, Frame.context, Frame.unsaved, List.cons.injEq, Saved.mk.injEq]
  tauto

structure UserProc where
  proc : Proc
  saved : Saved := {}

inductive Outcome where
  | returns (u : UserProc) (f : Frame)
  | dies (code : ℤ)

/-- The handler is entered with the signal number; `rsp` makes room for a
return address that is never written. -/
def enterHandler (f : Frame) (sig handler : ℕ) : Frame :=
  { f with rip := BitVec.ofNat 64 handler, rdi := BitVec.ofNat 64 sig, rsp := f.rsp-8 }

def clearPending (x : Proc) (sig : ℕ) : Proc :=
  { x with sigPending := x.sigPending &&& ~~~sigBit sig }

def checkFrom (u : UserProc) (f : Frame) : List ℕ → Outcome
  | [] => .returns u f
  | sig::sigs =>
    if u.proc.sigPending &&& sigBit sig = 0 then checkFrom u f sigs
    else if u.proc.sigHandlers sig = sigIgn then checkFrom ⟨clearPending u.proc sig,u.saved⟩ f sigs
    else if u.proc.sigHandlers sig = sigDfl then
      if sig = sigchld then checkFrom ⟨clearPending u.proc sig,u.saved⟩ f sigs else .dies (128+sig)
    else
      .returns ⟨{ clearPending u.proc sig with inSignalHandler := true },f.context⟩
        (enterHandler f sig (u.proc.sigHandlers sig))

def check (u : UserProc) (f : Frame) : Outcome :=
  if u.proc.isUser = false ∨ u.proc.inSignalHandler = true then .returns u f
  else checkFrom u f signals

def sigreturn (u : UserProc) (f : Frame) : UserProc × Frame :=
  if u.proc.inSignalHandler = false then (u,{ f with rax := -1 })
  else
    ({ u with proc.inSignalHandler := false },
      { f with
        rip := u.saved.rip, rsp := u.saved.rsp, rflags := u.saved.rflags, rax := u.saved.rax
        rdi := u.saved.rdi, rsi := u.saved.rsi, rdx := u.saved.rdx })

theorem sigreturn_frame {u : UserProc} (f : Frame) (h : u.proc.inSignalHandler = true) :
    (sigreturn u f).2.context = u.saved ∧ (sigreturn u f).2.unsaved = f.unsaved ∧
      (sigreturn u f).1.proc.inSignalHandler = false := by
  simp [sigreturn, h, Frame.context, Frame.unsaved]

/-- A check that returns either leaves the frame alone or has put the saved
part of it into the process record and entered a handler. -/
theorem check_from_returns (sigs : List ℕ) (u v : UserProc) (f g : Frame)
    (h : checkFrom u f sigs = .returns v g) :
    (g = f ∧ v.proc.inSignalHandler = u.proc.inSignalHandler) ∨
      (v.proc.inSignalHandler = true ∧ v.saved = f.context) := by
  induction sigs generalizing u with
  | nil =>
    rw [checkFrom, Outcome.returns.injEq] at h
    exact .inl ⟨h.2.symm,by rw [← h.1]⟩
  | cons sig sigs ih =>
    rw [checkFrom] at h
    split_ifs at h
    · exact ih u h
    · exact ih ⟨clearPending u.proc sig,u.saved⟩ h
    · exact ih ⟨clearPending u.proc sig,u.saved⟩ h
    · rw [Outcome.returns.injEq] at h
      exact .inr ⟨by rw [← h.1],by rw [← h.1]⟩

theorem check_returns {u v : UserProc} {f g : Frame} (h : check u f = .returns v g) :
    (g = f ∧ v.proc.inSignalHandler = u.proc.inSignalHandler) ∨
      (v.proc.inSignalHandler = true ∧ v.saved = f.context) := by
  rw [check] at h
  split_ifs at h with hu
  · rw [Outcome.returns.injEq] at h
    exact .inl ⟨h.2.symm,by rw [← h.1]⟩
  · exact check_from_returns signals u v f g h

theorem check_none_pending {u : UserProc} (f : Frame) (h : u.proc.sigPending = 0) :
    check u f = .returns u f := by
  have hfrom : ∀ sigs, checkFrom u f sigs = .returns u f := by
    intro sigs
    induction sigs with
    | nil => rfl
    | cons sig sigs ih => rw [checkFrom, if_pos (by simp [h]), ih]
  rw [check, hfrom, ite_self]

/-- What reaches a process between the entry of a handler and its
`SYS_SIGRETURN`: signals from anyone, its own `SYS_SIGACTION` calls, and
entries into the kernel, each followed by the check on the way back. -/
inductive Event where
  | send (sig : ℕ)
  | sigaction (sig handler : ℕ)
  | enter (f : Frame)

def during (u : UserProc) : Event → Outcome
  | .send sig =>
    if sig < 1 ∨ 32 ≤ sig then .returns u {}
    else .returns { u with proc.sigPending := u.proc.sigPending ||| sigBit sig } {}
  | .sigaction sig handler =>
    if sig < 1 ∨ 32 ≤ sig ∨ sig = sigkill then .returns u {}
    else .returns { u with proc.sigHandlers := Function.update u.proc.sigHandlers sig handler } {}
  | .enter f => check u f

inductive Handles : UserProc → List Event → UserProc → Prop where
  | nil (u : UserProc) : Handles u [] u
  | cons (u v w : UserProc) (e : Event) (es : List Event) (g : Frame)
      (h : during u e = .returns v g) (hs : Handles v es w) : Handles u (e::es) w

theorem during_saved {u v : UserProc} {e : Event} {g : Frame} (h : during u e = .returns v g)
    (hin : u.proc.inSignalHandler = true) : v.proc.inSignalHandler = true ∧ v.saved = u.saved := by
  cases e with
  | send | sigaction =>
    rw [during] at h
    split_ifs at h <;> rw [Outcome.returns.injEq] at h <;> simp [← h.1, hin]
  | enter f =>
    rw [during, check, if_pos (Or.inr hin), Outcome.returns.injEq] at h
    simp [← h.1, hin]

theorem handles_saved {u w : UserProc} {es : List Event} (h : Handles u es w)
    (hin : u.proc.inSignalHandler = true) : w.proc.inSignalHandler = true ∧ w.saved = u.saved := by
  induction h with
  | nil u => exact ⟨hin,rfl⟩
  | cons u v w e es g h _ ih =>
    obtain ⟨hv,hs⟩ := during_saved h hin
    obtain ⟨hw,hws⟩ := ih hv
    exact ⟨hw,hws.trans hs⟩

/-- A process about to return to user mode with the frame `f` comes to run
with the frame `g` after the handlers whose frames at their `SYS_SIGRETURN`
are `ends`. More than one when a second signal is found on the way back from
the first. -/
inductive Resumes : UserProc → Frame → List Frame → Frame → Prop where
  | plain (u v : UserProc) (f g : Frame) (h : check u f = .returns v g)
      (hv : v.proc.inSignalHandler = false) : Resumes u f [] g
  | handler (u v w : UserProc) (f e h g : Frame) (es : List Event) (ends : List Frame)
      (hc : check u f = .returns v e) (hv : v.proc.inSignalHandler = true) (hs : Handles v es w)
      (hcall : h.rax = sysSigreturn)
      (hr : Resumes (sigreturn w h).1 (sigreturn w h).2 ends g) : Resumes u f (h::ends) g

/-- The seven saved registers come back; the others are what the last handler
left in them. -/
theorem resumes_frame {u : UserProc} {f g : Frame} {ends : List Frame} (h : Resumes u f ends g)
    (hout : u.proc.inSignalHandler = false) :
    g.context = f.context ∧ g.unsaved = (ends.map Frame.unsaved).getLastD f.unsaved := by
  induction h with
  | plain u v f g hc hv =>
    obtain ⟨rfl,-⟩ | ⟨hin,-⟩ := check_returns hc
    · exact ⟨rfl,rfl⟩
    · rw [hv] at hin
      cases hin
  | handler u v w f e h g es ends hc hv hs hcall hr ih =>
    obtain ⟨-,hsame⟩ | ⟨-,hsaved⟩ := check_returns hc
    · rw [hv, hout] at hsame
      cases hsame
    · obtain ⟨hw,hws⟩ := handles_saved hs hv
      obtain ⟨hctx,hun,hoff⟩ := sigreturn_frame h hw
      obtain ⟨ihc,ihu⟩ := ih hoff
      refine ⟨by rw [ihc, hctx, hws, hsaved],?_⟩
      rw [ihu, hun, List.map_cons, List.getLastD_cons]

/-- The interrupted code finds its registers again exactly when the last
handler to run left the eleven unsaved ones as the interruption found them. -/
theorem registers_restored (u : UserProc) (f g : Frame) (ends : List Frame) (h : Frame)
    (hr : Resumes u f (ends++[h]) g) (hout : u.proc.inSignalHandler = false) :
    g.registers = f.registers ↔ h.unsaved = f.unsaved := by
  obtain ⟨hc,hu⟩ := resumes_frame hr hout
  rw [List.map_append, List.map_singleton, List.getLastD_concat] at hu
  rw [registers_iff, hc, hu]
  exact and_iff_right rfl

/-- A process with a handler for `SIGINT` and that signal pending. -/
def interrupted : UserProc where
  proc :=
    { pid := 2, state := .running, isUser := true, sigPending := sigBit sigint
      sigHandlers := fun sig => if sig = sigint then 0x400000 else sigDfl }

def userFrame : Frame := { rbx := 5, rcx := 6, rip := 0x401000, rsp := 0x7fff0000, cs := 0x23 }

/-- The frame at the end of a handler that has used `rax`, `rdi` and `rbx`. -/
def handlerEnd (rbx : BitVec 64) : Frame :=
  { userFrame with rax := sysSigreturn, rdi := 2, rip := 0x400020, rbx := rbx }

def handling : UserProc where
  proc := { interrupted.proc with sigPending := 0, inSignalHandler := true }
  saved := userFrame.context

theorem interrupted_resumes (rbx : BitVec 64) :
    Resumes interrupted userFrame [handlerEnd rbx] { userFrame with rbx := rbx } := by
  refine .handler interrupted handling handling userFrame (enterHandler userFrame 2 0x400000) _ _ [] []
    ?_ rfl (.nil _) rfl ?_
  · rfl
  · exact .plain _ _ _ _ (check_none_pending _ rfl) rfl

theorem registers_restored_kept :
    (handlerEnd 5).unsaved = userFrame.unsaved ∧
      ({ userFrame with rbx := 5 } : Frame).registers = userFrame.registers :=
  ⟨rfl,(registers_restored interrupted userFrame _ [] (handlerEnd 5) (interrupted_resumes 5) rfl).mpr rfl⟩

/-- A handler that uses `rbx` and does not put it back. -/
theorem rbx_lost :
    Resumes interrupted userFrame [handlerEnd 7] { userFrame with rbx := 7 } ∧
      ({ userFrame with rbx := 7 } : Frame).registers ≠ userFrame.registers :=
  ⟨interrupted_resumes 7,by decide⟩

end HobbyOS.SignalFrame
