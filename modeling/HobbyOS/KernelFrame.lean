import HobbyOS.Scheduler

/-!
# What waking and ending processes leaves alone

The wake-ups, the signals and the end of a process change who is ready and
who runs. Nobody falls asleep in them, a wait pointer is only taken from a
process that has been woken, and pipes, pids, pending calls and address
spaces stay as they are.
-/

namespace HobbyOS.KernelFrame
open Process Scheduler Function

def still (x : Proc) : ℕ × (ℕ → Vma) × ℕ × ℕ := (x.cr3,x.vmas,x.waitForPid,x.pid)

structure Settled (k k' : Kernel) : Prop where
  blocked : ∀ i, (k'.table i).state = .blocked → (k.table i).state = .blocked
  used : ∀ i, (k.table i).state ≠ .unused → (k'.table i).state ≠ .unused
  still : ∀ i, still (k'.table i) = still (k.table i)
  pointer : ∀ w i, k.waiters w = some i → k'.waiters w = some i ∨ (k'.table i).state ≠ .blocked
  worker : k'.netWorker = k.netWorker
  call : k'.call = k.call
  pipes : k'.pipes = k.pipes
  nextPid : k'.nextPid = k.nextPid

/-- The process has not ended. -/
def Living (x : Proc) : Prop := x.state = .ready ∨ x.state = .running ∨ x.state = .blocked

/-- Besides, nobody ends or gets another parent. -/
structure Gentle (k k' : Kernel) : Prop extends Settled k k' where
  ppid : ∀ i, (k'.table i).ppid = (k.table i).ppid
  zombie : ∀ i, (k'.table i).state = .zombie → (k.table i).state = .zombie
  living : ∀ i, Living (k.table i) → Living (k'.table i)

theorem settled_pid {k k' : Kernel} (h : Settled k k') (i : ℕ) :
    (k'.table i).pid = (k.table i).pid := congrArg (·.2.2.2) (h.still i)

theorem settled_field {k k' : Kernel} (h : Settled k k') (i : ℕ) :
    (k'.table i).waitForPid = (k.table i).waitForPid := congrArg (·.2.2.1) (h.still i)

variable (k : Kernel) (i p pid sig : ℕ)

theorem settled_trans {k k1 k2 : Kernel} (h1 : Settled k k1) (h2 : Settled k1 k2) :
    Settled k k2 where
  blocked i hb := h1.blocked i (h2.blocked i hb)
  used i hu := h2.used i (h1.used i hu)
  still i := (h2.still i).trans (h1.still i)
  pointer w i hw := by
    obtain hw1 | hn := h1.pointer w i hw
    · exact h2.pointer w i hw1
    · exact .inr fun hb => hn (h2.blocked i hb)
  worker := h2.worker.trans h1.worker
  call := h2.call.trans h1.call
  pipes := h2.pipes.trans h1.pipes
  nextPid := h2.nextPid.trans h1.nextPid

theorem gentle_refl : Gentle k k :=
  ⟨⟨fun _ => id,fun _ => id,fun _ => rfl,fun _ _ => .inl,rfl,rfl,rfl,rfl⟩,fun _ => rfl,
    fun _ => id,fun _ => id⟩

theorem gentle_trans {k k1 k2 : Kernel} (h1 : Gentle k k1) (h2 : Gentle k1 k2) : Gentle k k2 where
  toSettled := settled_trans h1.toSettled h2.toSettled
  ppid i := (h2.ppid i).trans (h1.ppid i)
  zombie i hz := h1.zombie i (h2.zombie i hz)
  living i hl := h2.living i (h1.living i hl)

/-- The state stays, or the process can run. -/
theorem gentle_set_proc (f : Proc → Proc)
    (hs : (f (k.table i)).state = (k.table i).state ∨ (f (k.table i)).state = .ready ∨
      (f (k.table i)).state = .running)
    (hr : still (f (k.table i)) = still (k.table i) ∧ (f (k.table i)).ppid = (k.table i).ppid) :
    Gentle k (setProc k i f) := by
  refine ⟨⟨?_,?_,?_,fun _ _ => .inl,rfl,rfl,rfl,rfl⟩,?_,?_,?_⟩ <;> intro j <;>
    by_cases hj : j = i
  all_goals first
    | (subst hj; simp only [setProc, update_self]; rcases hs with h | h | h <;>
        simp [h, hr.1, hr.2, Living])
    | simp [setProc, hj]

theorem gentle_add : Gentle k (schedulerAdd k p) := by
  have h1 : Gentle k (setProc k p fun x => { x with state := .ready, next := none }) :=
    gentle_set_proc k p _ (.inr (.inl rfl)) ⟨rfl,rfl⟩
  unfold schedulerAdd
  dsimp only
  split
  · exact { h1 with }
  · exact h1
  · exact { gentle_trans h1 (gentle_set_proc _ _ (fun x => { x with next := some p }) (.inl rfl)
      ⟨rfl,rfl⟩) with }

theorem gentle_schedule : Gentle k (schedule k) := by
  unfold schedule
  split
  · exact gentle_refl k
  · rename_i n _
    have hpop : Gentle k (popHead k n) := { gentle_refl k with }
    have hrun : ∀ k1, Gentle k1 (switchTo k1 n) := fun k1 =>
      { gentle_set_proc k1 n (fun x => { x with state := .running }) (.inr (.inr rfl))
        ⟨rfl,rfl⟩ with }
    dsimp only
    split_ifs
    · exact gentle_trans hpop (gentle_trans (gentle_add _ _) (hrun _))
    · exact gentle_trans hpop (hrun _)

theorem add_ready : ((schedulerAdd k p).table p).state = .ready := by
  unfold schedulerAdd
  dsimp only
  split
  · simp [setProc]
  · simp [setProc]
  · rename_i t _ _
    by_cases ht : p = t <;> simp [setProc, ht]

theorem add_waiters : (schedulerAdd k p).waiters = k.waiters := by
  unfold schedulerAdd
  dsimp only
  split <;> rfl

theorem gentle_wake (w : Waiter) : Gentle k (wake k w) := by
  unfold wake
  split
  · exact gentle_refl k
  · rename_i p hp
    refine { gentle_add k p with pointer := ?_ }
    intro v i hi
    by_cases hv : v = w
    · subst hv
      rw [hp] at hi
      cases hi
      refine .inr fun hb => ?_
      have := (add_ready k p).symm.trans hb
      cases this
    · refine .inl ?_
      simp only [setWaiter, update_of_ne hv, add_waiters]
      exact hi

theorem gentle_wake_blocked : Gentle k (wakeBlocked k p) := by
  unfold wakeBlocked
  split_ifs
  · exact gentle_add k p
  · exact gentle_refl k

theorem wake_blocked_ready (h : (k.table p).state = .blocked) :
    ((wakeBlocked k p).table p).state = .ready := by
  rw [wakeBlocked, if_pos h]
  exact add_ready k p

theorem gentle_signal_send : Gentle k (signalSend k pid sig) := by
  unfold signalSend
  split_ifs
  · exact gentle_refl k
  split
  · exact gentle_refl k
  split_ifs
  · exact gentle_refl k
  · exact gentle_trans (gentle_set_proc k _ _ (.inl rfl) ⟨rfl,rfl⟩) (gentle_wake_blocked _ _)

theorem gentle_wake_parent (ppid : ℕ) : Gentle k (wakeParent k pid ppid) := by
  unfold wakeParent
  split
  · exact gentle_refl k
  split_ifs
  · exact gentle_wake_blocked k _
  · exact gentle_refl k

theorem settled_zombie (code : ℤ) : Settled k (becomeZombie k i code) := by
  refine ⟨?_,?_,?_,fun _ _ => .inl,rfl,rfl,rfl,rfl⟩ <;> intro j <;>
  · by_cases hj : j = i
    · subst hj
      simp [becomeZombie, setProc, still]
    · simp [becomeZombie, setProc, hj]

theorem settled_reparent : Settled k (reparent k pid) := by
  refine ⟨?_,?_,?_,fun _ _ => .inl,rfl,rfl,rfl,rfl⟩ <;>
  · intro i
    simp only [reparent]
    split_ifs <;> simp [still]

theorem pending_of_cleared {x b d : BitVec 32} (h : (x &&& ~~~b) &&& d ≠ 0) : x &&& d ≠ 0 := by
  intro h0
  apply h
  rw [BitVec.and_assoc, BitVec.and_comm (~~~b) d, ← BitVec.and_assoc, h0]
  simp

def marked (b : BitVec 32) (h : Bool) : Kernel :=
  setProc k i fun x => { x with sigPending := b, inSignalHandler := h }

theorem gentle_marked (b : BitVec 32) (h : Bool) : Gentle k (marked k i b h) :=
  gentle_set_proc k i _ (.inl rfl) ⟨rfl,rfl⟩

/-- One of the signals ends the process in slot `i`. Its parent is told, unless
the signal has no case of its own. -/
def Dies (sigs : List ℕ) (k' : Kernel) : Prop :=
  ∃ (b : BitVec 32) (h : Bool) (sig : ℕ),
    k' = schedule (wakeParent (becomeZombie (marked k i b h) i (128+sig)) (k.table i).pid
      (k.table i).ppid) ∨
    k' = schedule (becomeZombie (marked k i b h) i (128+sig)) ∧ sig ∈ sigs ∧
      (k.table i).sigPending &&& sigBit sig ≠ 0 ∧ (k.table i).sigHandlers sig = sigDfl ∧
      sig ≠ sigchld ∧ sig ∉ killSignals

theorem signal_check_cases (sigs : List ℕ) :
    (∃ b h, signalCheckFrom k i sigs = marked k i b h) ∨
      Dies k i sigs (signalCheckFrom k i sigs) := by
  have hagain : ∀ k b h b' h', marked (marked k i b h) i b' h' = marked k i b' h' :=
    fun k b h b' h' => by simp [marked, setProc]
  induction sigs generalizing k with
  | nil => exact .inl ⟨(k.table i).sigPending,(k.table i).inSignalHandler,by
      simp [signalCheckFrom, marked, setProc]⟩
  | cons sig sigs ih =>
    obtain ⟨b,hb⟩ : ∃ b, b = (k.table i).sigPending &&& ~~~sigBit sig := ⟨_,rfl⟩
    have hk1 : (setProc k i fun x => { x with sigPending := x.sigPending &&& ~~~sigBit sig }) =
        marked k i b (k.table i).inSignalHandler := by
      simp [marked, setProc, hb]
    have hrec : (marked k i b (k.table i).inSignalHandler).table i =
        { k.table i with sigPending := b } := by
      simp [marked, setProc]
    rw [signalCheckFrom, hk1]
    dsimp only
    -- what a later signal finds pending was pending before
    have hskip := ih (marked k i b (k.table i).inSignalHandler)
    simp only [Dies, hagain, hrec] at hskip
    have hskip' : (∃ b' h', signalCheckFrom (marked k i b (k.table i).inSignalHandler) i sigs =
        marked k i b' h') ∨ Dies k i (sig::sigs)
          (signalCheckFrom (marked k i b (k.table i).inSignalHandler) i sigs) := by
      refine hskip.imp_right ?_
      rintro ⟨b',h',s,hend⟩
      refine ⟨b',h',s,hend.imp_right ?_⟩
      rintro ⟨he,hm,hp,hrest⟩
      exact ⟨he,List.mem_cons_of_mem _ hm,pending_of_cleared (hb ▸ hp),hrest⟩
    split_ifs with hp hign hdfl hchld hkill
    · refine (ih k).imp_right ?_
      rintro ⟨b',h',s,hend⟩
      refine ⟨b',h',s,hend.imp_right ?_⟩
      rintro ⟨he,hm,hrest⟩
      exact ⟨he,List.mem_cons_of_mem _ hm,hrest⟩
    · exact hskip'
    · exact hskip'
    · rw [hrec]
      exact .inr ⟨_,_,sig,.inl rfl⟩
    · rw [hrec] at hdfl
      exact .inr ⟨_,_,sig,.inr ⟨rfl,List.mem_cons_self,hp,hdfl,hchld,hkill⟩⟩
    · exact .inl ⟨b,true,by simp [marked, setProc]⟩

theorem settled_signal_check : Settled k (signalCheck k i) := by
  unfold signalCheck
  split_ifs
  · exact (gentle_refl k).toSettled
  · obtain ⟨b,h,he⟩ | ⟨b,h,sig,he | ⟨he,-⟩⟩ := signal_check_cases k i signals
    · rw [he]
      exact (gentle_marked k i b h).toSettled
    · rw [he]
      exact settled_trans (gentle_marked k i b h).toSettled (settled_trans (settled_zombie _ i _)
        (gentle_trans (gentle_wake_parent _ _ _) (gentle_schedule _)).toSettled)
    · rw [he]
      exact settled_trans (gentle_marked k i b h).toSettled (settled_trans (settled_zombie _ i _)
        (gentle_schedule _).toSettled)

theorem settled_fault : Settled k (killUserProcess k i sig) :=
  settled_trans (settled_zombie k i _) (gentle_trans (gentle_signal_send _ _ _)
    (gentle_trans (gentle_wake_parent _ _ _) (gentle_schedule _))).toSettled

theorem settled_exit (code : ℤ) : Settled k (exitProcess k code) :=
  settled_trans (settled_zombie k k.current code)
    (settled_trans (gentle_signal_send _ _ _).toSettled (settled_trans (settled_reparent _ _)
      (gentle_trans (gentle_wake_parent _ _ _) (gentle_schedule _)).toSettled))

end HobbyOS.KernelFrame
