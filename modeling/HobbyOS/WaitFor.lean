import HobbyOS.ProcessFamily

/-!
# Waiting for one child

`process_wait_for` looks for its zombie once before it blocks and once after
it is woken. It returns the right child in every run in which nothing else
wakes the waiting process. The exit of a sibling does: it signals the parent
whatever the parent waits for, and the call then gives up with -1.
-/

namespace HobbyOS.WaitFor
open Process Scheduler KernelFrame ReadyQueue ProcessFamily Function

/-- Process `j` is a child of `i` under the pid `c` that is not yet reaped. -/
def IsChild (k : Kernel) (i j c : ℕ) : Prop :=
  j < maxProcesses ∧ (k.table j).pid = c ∧ (k.table j).ppid = (k.table i).pid ∧
    (k.table j).state ≠ .unused ∧ (k.table j).state ≠ .terminated

/-- Every pending signal that takes its default action is ignored or one of
those whose case in `signal_check` wakes the parent. -/
def EndsNoticed (x : Proc) : Prop :=
  ∀ sig ∈ signals, x.sigPending &&& sigBit sig ≠ 0 → x.sigHandlers sig = sigDfl →
    sig = sigchld ∨ sig ∈ killSignals

/-- The step does not wake `i`, which sleeps in `process_wait_for(c)`, other
than by the end of `c`, and does not end `c` without waking `i`. -/
def Leaves (k : Kernel) (i c : ℕ) : Action → Prop
  | .signalSend pid _ => pid ≠ (k.table i).pid
  | .exit _ | .fault _ =>
    (k.table k.current).ppid = (k.table i).pid → (k.table k.current).pid = c
  | .signalCheck => (k.table k.current).pid = c → EndsNoticed (k.table k.current)
  | .netReceive => k.netWorker ≠ some i
  | a => ∀ w, woken k a = some w → k.waiters w ≠ some i

/-- Pids do not wrap around, and a wait names a child or any child. -/
def Proper (k : Kernel) : Action → Prop
  | .create _ | .createFails _ _ => k.nextPid+1 < 2^32
  | .waitFor c => c = 0 ∨ ∃ j, IsChild k k.current j c
  | _ => True

structure Quiet (k : Kernel) (a : Action) : Prop where
  fresh : Fresh k a
  leaves : ∀ i c, k.call i = .waitFor c → c ≠ 0 → (k.table i).state = .blocked → Leaves k i c a
  proper : Proper k a

def Able (x : Proc) : Prop := x.state = .ready ∨ x.state = .running

/-- The caller sleeps exactly as long as the child it names has not ended. -/
structure Waiting (k : Kernel) (i b : ℕ) : Prop where
  field : (k.table i).waitForPid = b
  child : ∃ j, IsChild k i j b ∧ ((k.table i).state = .blocked ∧ (k.table j).state ≠ .zombie ∨
    Able (k.table i) ∧ (k.table j).state = .zombie)

structure Fam (k : Kernel) : Prop where
  known : Known k
  named : ∀ i, (k.table i).state ≠ .unused → (k.table i).pid ≠ 0
  waits : ∀ i b, k.call i = .waitFor b → b ≠ 0 → Waiting k i b

variable {o k k' k1 : Kernel} {el : Option ℕ} {R : ℕ → Prop} {i j b c e : ℕ} {s : State}

theorem waiting_living (h : Waiting k i b) : Living (k.table i) := by
  obtain ⟨-,j,-,⟨hb,-⟩ | ⟨ha | ha,-⟩⟩ := h
  · exact .inr (.inr hb)
  · exact .inl ha
  · exact .inr (.inl ha)

theorem able_not_blocked {x : Proc} (h : Able x) : x.state ≠ .blocked ∧ x.state ≠ .zombie := by
  rcases h with h | h <;> simp [h]

theorem child_kin (hk : Kin k k') (hi : (k.table i).state ≠ .unused) (h : IsChild k i j b)
    (hu : (k'.table j).state ≠ .unused) (ht : (k'.table j).state ≠ .terminated) :
    IsChild k' i j b := by
  obtain ⟨hlt,hp,hpp,hju,-⟩ := h
  obtain ⟨hp',hpp'⟩ := hk.same j hju
  exact ⟨hlt,hp'.trans hp,by rw [hpp', (hk.same i hi).1, hpp],hu,ht⟩

theorem waiting_kin (h : Waiting k i b) (hk : Kin k k')
    (hw : (k'.table i).waitForPid = (k.table i).waitForPid)
    (hb : (k.table i).state = .blocked → (k'.table i).state = .blocked)
    (ha : Able (k.table i) → Able (k'.table i))
    (hz : ∀ j, IsChild k i j b → (k.table j).state = .zombie → (k'.table j).state = .zombie) :
    Waiting k' i b := by
  have hi := living_used (waiting_living h)
  obtain ⟨hf,j,hj,⟨hs,hn⟩ | ⟨hs,hn⟩⟩ := h
  · have hl := living_iff.mp (hk.living j (living_iff.mpr ⟨hj.2.2.2.1,hj.2.2.2.2,hn⟩))
    exact ⟨hw.trans hf,j,child_kin hk hi hj hl.1 hl.2.1,.inl ⟨hb hs,hl.2.2⟩⟩
  · have hjz := hz j hj hn
    exact ⟨hw.trans hf,j,child_kin hk hi hj (by simp [hjz]) (by simp [hjz]),.inr ⟨ha hs,hjz⟩⟩

/-- Every process keeps its state, up to its turn; those in `R` may be woken. -/
def Keeps (R : ℕ → Prop) (k k' : Kernel) : Prop :=
  ∀ i, (k'.table i).state = (k.table i).state ∨
    Able (k'.table i) ∧ (Able (k.table i) ∨ (k.table i).state = .blocked ∧ R i)

theorem keeps_blocked (h : Keeps R k k') (hb : (k.table i).state = .blocked) (hR : ¬R i) :
    (k'.table i).state = .blocked := by
  obtain he | ⟨-,ha | ⟨-,hr⟩⟩ := h i
  · exact he.trans hb
  · exact absurd hb (able_not_blocked ha).1
  · exact absurd hr hR

theorem keeps_zombie (h : Keeps R k k') (hz : (k.table i).state = .zombie) :
    (k'.table i).state = .zombie := by
  obtain he | ⟨-,ha | ⟨hb,-⟩⟩ := h i
  · exact he.trans hz
  · exact absurd hz (able_not_blocked ha).2
  · rw [hz] at hb
    cases hb

theorem keeps_able (h : Keeps R k k') (ha : Able (k.table i)) : Able (k'.table i) := by
  obtain he | ⟨ha',-⟩ := h i
  · unfold Able
    rwa [he]
  · exact ha'

theorem keeps_trans (h1 : Keeps R k k1) (h2 : Keeps R k1 k') : Keeps R k k' := by
  intro i
  obtain h1 | ⟨ha,hr⟩ := h1 i
  · have h2 := h2 i
    unfold Able at h2 ⊢
    rwa [h1] at h2
  · exact .inr ⟨keeps_able h2 ha,hr⟩

theorem keeps_add {p : ℕ} (hp : (k.table p).state = .blocked) (hR : R p) :
    Keeps R k (schedulerAdd k p) := by
  intro i
  by_cases hi : i = p
  · subst hi
    exact .inr ⟨.inl (add_ready k i),.inr ⟨hp,hR⟩⟩
  · rw [add_state, if_neg hi]
    exact .inl rfl

theorem keeps_wake_blocked {p : ℕ} (hR : (k.table p).state = .blocked → R p) :
    Keeps R k (wakeBlocked k p) := by
  unfold wakeBlocked
  split_ifs with hb
  · exact keeps_add hb (hR hb)
  · exact fun _ => .inl rfl

theorem keeps_wake {w : Waiter} (hw : Waits k w) (hR : ∀ p, k.waiters w = some p → R p) :
    Keeps R k (wake k w) := by
  unfold wake
  split
  · exact fun _ => .inl rfl
  · rename_i p hp
    exact keeps_add (hw p hp) (hR p hp)

theorem keeps_signal_send (pid sig : ℕ)
    (hR : ∀ i, (k.table i).state = .blocked → (k.table i).pid = pid → R i) :
    Keeps R k (signalSend k pid sig) := by
  unfold signalSend
  split_ifs
  · exact fun _ => .inl rfl
  split
  · exact fun _ => .inl rfl
  rename_i t ht
  split_ifs
  · exact fun _ => .inl rfl
  · have hset := fun j => set_proc_state k t j
      (fun x => { x with sigPending := x.sigPending ||| sigBit sig }) fun _ => rfl
    refine keeps_trans (fun j => .inl (hset j)) (keeps_wake_blocked fun hb => ?_)
    exact hR t ((hset t).symm.trans hb) (get_by_pid_some ht).2.2

theorem keeps_wake_parent (pid ppid : ℕ)
    (hR : ∀ i, (k.table i).state = .blocked → (k.table i).pid = ppid →
      (k.table i).waitForPid = 0 ∨ (k.table i).waitForPid = pid → R i) :
    Keeps R k (wakeParent k pid ppid) := by
  unfold wakeParent
  split
  · exact fun _ => .inl rfl
  · rename_i q hq
    split_ifs with hw
    · exact keeps_wake_blocked fun hb => hR q hb (get_by_pid_some hq).2.2 hw
    · exact fun _ => .inl rfl

theorem keeps_schedule (h : Live o el c s k) : Keeps R k (schedule k) := by
  obtain ⟨q,hq,-⟩ := h
  cases q with
  | nil =>
    rw [schedule_empty hq]
    exact fun _ => .inl rfl
  | cons n q =>
    intro i
    rw [schedule_head k n hq.queue.linked.1]
    unfold Able
    rw [switch_state]
    by_cases hin : i = n
    · exact .inr ⟨by simp [hin],.inl (.inl (hin ▸ (first_ready hq).2))⟩
    rw [if_neg hin]
    split_ifs with hrun
    · rw [add_state]
      by_cases hic : i = k.current
      · exact .inr ⟨by simp [hic],.inl (.inr (hic ▸ hrun))⟩
      · exact .inl (if_neg hic)
    · exact .inl rfl

theorem waiting_keeps (h : Waiting k i b) (hg : Gentle k k') (hk : Keeps R k k')
    (hR : (k.table i).state = .blocked → ¬R i) : Waiting k' i b :=
  waiting_kin h (mild_of hg).toKin (settled_field hg.toSettled i)
    (fun hb => keeps_blocked hk hb (hR hb)) (keeps_able hk) fun _ _ => keeps_zombie hk

theorem named_keeps (h : ∀ i, (k.table i).state ≠ .unused → (k.table i).pid ≠ 0)
    (hg : Settled k k') (hk : Keeps R k k') (hu : (k'.table i).state ≠ .unused) :
    (k'.table i).pid ≠ 0 := by
  rw [settled_pid hg]
  refine h i fun h0 => hu ?_
  obtain he | ⟨-,ha | ⟨hb,-⟩⟩ := hk i
  · exact he.trans h0
  · rcases ha with ha | ha <;> rw [h0] at ha <;> cases ha
  · rw [h0] at hb
    cases hb

/-- Nobody is woken who waits for a child. -/
theorem fam_keeps (h : Fam k) (hg : Gentle k k') (hk : Keeps R k k')
    (hR : ∀ i b, k.call i = .waitFor b → b ≠ 0 → (k.table i).state = .blocked → ¬R i) : Fam k' where
  known := known_settled hg.toSettled h.known
  named _ := named_keeps h.named hg.toSettled hk
  waits i b hc h0 := by
    rw [hg.call] at hc
    exact waiting_keeps (h.waits i b hc h0) hg hk (hR i b hc h0)

theorem fam_schedule (hl : Live o el c s k) (h : Fam k) : Fam (schedule k) :=
  fam_keeps h (gentle_schedule k) (keeps_schedule (R := fun _ => False) hl) fun _ _ _ _ _ => id

/-- Only the calls, the pipes or the pointers change. -/
theorem fam_congr (h : Fam k) (ht : k'.table = k.table) (hn : k'.nextPid = k.nextPid)
    (hc : ∀ i b, k'.call i = .waitFor b → k.call i = .waitFor b) : Fam k' where
  known := known_congr h.known (fun i => by rw [ht]) hn
  named i := by
    rw [ht]
    exact h.named i
  waits i b hb h0 := by
    obtain ⟨hf,hj⟩ := h.waits i b (hc i b hb) h0
    unfold IsChild at hj
    exact ⟨by rw [ht]; exact hf,by unfold IsChild; rw [ht]; exact hj⟩

/-- A slot is filled or given back that no waiting process means. -/
theorem fam_mild (h : Fam k) (hm : Mild k k')
    (hu : ∀ i, (k'.table i).state ≠ .unused → (k.table i).state ≠ .unused ∨ (k'.table i).pid ≠ 0)
    (hb : ∀ i, (k.table i).state = .blocked → (k'.table i).state = .blocked)
    (hz : ∀ i j b, k.call i = .waitFor b → b ≠ 0 → IsChild k i j b → (k.table j).state = .zombie →
      (k'.table j).state = .zombie) : Fam k' where
  known := hm.known h.known
  named i hi := (hu i hi).elim (fun h0 => by rw [(hm.same i h0).1]; exact h.named i h0) id
  waits i b hc h0 := by
    have hw := h.waits i b (hm.call i b hc) h0
    refine waiting_kin hw hm.toKin (hm.field i (living_used (waiting_living hw))) (hb i) (fun ha => ?_)
      fun j hj => hz i j b (hm.call i b hc) h0 hj
    -- a process that could run has not ended, and nobody falls asleep
    rcases hm.living i (waiting_living hw) with h' | h' | h'
    · exact .inl h'
    · exact .inr h'
    · exact absurd (hm.blocked i h').1 (able_not_blocked ha).1

theorem live_state (hl : Live o el c s k) : (k.table c).state = s := by
  obtain ⟨q,-,-,hs⟩ := hl
  exact hs

/-- The current process goes to sleep. If it waits for a child, that child has
not ended. -/
theorem fam_block {d : Call} (hl : Live o el k.current .running k) (hK : Known k)
    (hN : ∀ i, (k.table i).state ≠ .unused → (k.table i).pid ≠ 0)
    (ho : ∀ i b, i ≠ k.current → k.call i = .waitFor b → b ≠ 0 → Waiting k i b)
    (hd : ∀ b, d = .waitFor b → b ≠ 0 → Waiting (asleep k d) k.current b) : Fam (block k d) := by
  have hrun := live_state hl
  have hstop := live_stop hl (fun x => { x with state := .blocked }) rfl
    (fun _ => rfl) (by simp) (by simp)
  refine fam_schedule (live_set_call hstop k.current d) (k := asleep k d)
    ⟨asleep_known k d hK,fun i => ?_,fun i b hc h0 => ?_⟩
  · rw [asleep_table]
    split_ifs with hi
    · exact fun _ => hN i (by rw [hi, hrun]; simp)
    · exact hN i
  · by_cases hi : i = k.current
    · subst hi
      exact hd b (by simpa [asleep, setCall] using hc) h0
    · have hrec : (asleep k d).table i = k.table i := by rw [asleep_table, if_neg hi]
      have hc' : k.call i = .waitFor b := by simpa [asleep, setCall, setProc, hi] using hc
      refine waiting_kin (ho i b hi hc' h0) (kin_asleep k d) (by rw [hrec]) (by rw [hrec]; exact id)
        (by rw [hrec]; exact id) fun j _ hz => ?_
      rw [asleep_table, if_neg (by rintro rfl; rw [hrun] at hz; cases hz)]
      exact hz

theorem fam_sleep {d : Call} (hl : Live o el k.current .running k) (h : Fam k)
    (hd : ∀ b, d ≠ .waitFor b) : Fam (block k d) :=
  fam_block hl h.known h.named (fun i b _ => h.waits i b) fun b hb => absurd hb (hd b)

theorem fam_wait_on (hl : Live o el k.current .running k) (h : Fam k) (w : Waiter) {d : Call}
    (hd : ∀ b, d ≠ .waitFor b) : Fam (block (setWaiter k w (some k.current)) d) :=
  fam_sleep (k := setWaiter k w (some k.current)) (live_set_waiter hl w (Or.inr rfl))
    (fam_congr h rfl rfl fun _ _ => id) hd

/-- A process in no wait ends, and whoever is woken then waited for it. -/
theorem fam_end (h : Fam k) (hrun : (k.table e).state = .running) (code : ℤ)
    (hcall : ∀ b, k.call e ≠ .waitFor b) (hg : Gentle (becomeZombie k e code) k')
    (hk : Keeps R (becomeZombie k e code) k')
    (hR : ∀ i b, k.call i = .waitFor b → b ≠ 0 → (k.table i).state = .blocked → R i →
      (k.table e).pid = b)
    (ht : ∀ i, k.call i = .waitFor (k.table e).pid → (k.table i).state = .blocked →
      (k.table e).ppid = (k.table i).pid → (k'.table i).state ≠ .blocked) : Fam k' := by
  have hset := settled_zombie k e code
  have hother : ∀ j, j ≠ e → (becomeZombie k e code).table j = k.table j :=
    fun j hj => by rw [zombie_table, if_neg hj]
  have hself : ((becomeZombie k e code).table e).pid = (k.table e).pid ∧
      ((becomeZombie k e code).table e).ppid = (k.table e).ppid ∧
      ((becomeZombie k e code).table e).state = .zombie := by
    rw [zombie_table, if_pos rfl]
    exact ⟨rfl,rfl,rfl⟩
  have hnamed : ∀ i, ((becomeZombie k e code).table i).state ≠ .unused →
      ((becomeZombie k e code).table i).pid ≠ 0 := by
    intro i
    by_cases hi : i = e
    · subst hi
      rw [hself.1]
      exact fun _ => h.named i (by rw [hrun]; simp)
    · rw [hother i hi]
      exact h.named i
  refine ⟨known_settled (settled_trans hset hg.toSettled) h.known,
    fun _ => named_keeps hnamed hg.toSettled hk,fun i b hc h0 => ?_⟩
  rw [hg.call] at hc
  have hc : k.call i = .waitFor b := hc
  have hie : i ≠ e := by
    rintro rfl
    exact hcall b hc
  have hi := hother i hie
  obtain ⟨hf,j,hj,hcase⟩ := h.waits i b hc h0
  by_cases hje : j = e
  · subst hje
    obtain ⟨hlt,hp,hpp,-⟩ := hj
    have hb : (k.table i).state = .blocked := by
      obtain ⟨hb,-⟩ | ⟨-,hz⟩ := hcase
      · exact hb
      · rw [hrun] at hz
        cases hz
    have hz := keeps_zombie hk hself.2.2
    refine ⟨?_,j,⟨hlt,?_,?_,by simp [hz],by simp [hz]⟩,.inr ⟨?_,hz⟩⟩
    · rw [settled_field hg.toSettled, hi]
      exact hf
    · rw [settled_pid hg.toSettled, hself.1]
      exact hp
    · rw [hg.ppid, hself.2.1, settled_pid hg.toSettled, hi]
      exact hpp
    · obtain he | ⟨ha,-⟩ := hk i
      · exact absurd (he.trans (by rw [hi]; exact hb)) (ht i (hp ▸ hc) hb hpp)
      · exact ha
  · have hj' := hother j hje
    refine waiting_keeps (k := becomeZombie k e code) ⟨by rw [hi]; exact hf,j,?_,?_⟩ hg hk ?_
    · unfold IsChild
      rw [hi, hj']
      exact hj
    · rw [hi, hj']
      exact hcase
    · rw [hi]
      intro hb hr
      exact hje (h.known.unique j e (h.named j hj.2.2.2.1) (hj.2.1.trans (hR i b hc h0 hb hr).symm))

theorem waiting_pid (h : Fam k) (hw : Waiting k i b) : (k.table i).pid ≠ 0 :=
  h.named i (living_used (waiting_living hw))

/-- `syscall_exit` and `kill_user_process`: SIGCHLD wakes the parent. Nobody
but a process that waits for `e` may be the parent and sleep in a wait. -/
theorem fam_end_signal (h : Fam k) (hrun : (k.table e).state = .running) (code : ℤ)
    (hcall : ∀ b, k.call e ≠ .waitFor b)
    (hq : ∀ i b, k.call i = .waitFor b → b ≠ 0 → (k.table i).state = .blocked →
      (k.table e).ppid = (k.table i).pid → (k.table e).pid = b) :
    Fam (signalSend (becomeZombie k e code) (k.table e).ppid sigchld) := by
  have hset := settled_zombie k e code
  have hpid := settled_pid hset
  refine fam_end h hrun code hcall (gentle_signal_send _ _ _)
    (keeps_signal_send (R := fun i => (k.table i).pid = (k.table e).ppid) _ _
      fun i _ hp => (hpid i).symm.trans hp) (fun i b hc h0 hb hr => hq i b hc h0 hb hr.symm) ?_
  intro i hc hb hpp
  have h0 := h.named e (by rw [hrun]; simp)
  have hie : i ≠ e := by
    rintro rfl
    exact hcall _ hc
  have hsend := send_wakes (k := becomeZombie k e code) (i := i) (known_settled hset h.known)
    (by rw [hpid]; exact waiting_pid h (h.waits i _ hc h0))
    (by rw [zombie_table, if_neg hie]; exact hb)
  rwa [hpid, ← hpp] at hsend

theorem fam_end_parent (h : Fam k) (hrun : (k.table e).state = .running) (code : ℤ)
    (hcall : ∀ b, k.call e ≠ .waitFor b) :
    Fam (wakeParent (becomeZombie k e code) (k.table e).pid (k.table e).ppid) := by
  have hset := settled_zombie k e code
  have hpid : ∀ i, ((becomeZombie k e code).table i).pid = (k.table i).pid ∧
      ((becomeZombie k e code).table i).waitForPid = (k.table i).waitForPid :=
    fun i => ⟨settled_pid hset i,settled_field hset i⟩
  refine fam_end h hrun code hcall (gentle_wake_parent _ _ _) (keeps_wake_parent
    (R := fun i => (k.table i).waitForPid = 0 ∨ (k.table i).waitForPid = (k.table e).pid) _ _
      fun i _ _ hw => (hpid i).2 ▸ hw) ?_ ?_
  · intro i b hc h0 _ hr
    rw [(h.waits i b hc h0).field] at hr
    exact (hr.resolve_left h0).symm
  · intro i hc hb hpp
    have hw := h.waits i _ hc (h.named e (by rw [hrun]; simp))
    have hie : i ≠ e := by
      rintro rfl
      exact hcall _ hc
    have hwake := parent_wakes (k := becomeZombie k e code) (i := i) _ (known_settled hset h.known)
      (by rw [(hpid i).1]; exact waiting_pid h hw) (by rw [zombie_table, if_neg hie]; exact hb)
      (.inr ((hpid i).2.trans hw.field))
    rw [(hpid i).1, ← hpp] at hwake
    rw [hwake]
    simp

theorem fam_wake_parent (h : Fam k) (hz : (k.table e).state = .zombie) (ppid : ℕ) :
    Fam (wakeParent k (k.table e).pid ppid) := by
  refine fam_keeps h (gentle_wake_parent _ _ _)
    (keeps_wake_parent _ _ fun _ _ _ hw => hw) fun i b hc h0 hb hr => ?_
  obtain ⟨hf,j,hj,hcase⟩ := h.waits i b hc h0
  rw [hf] at hr
  have hje := h.known.unique j e (h.named j hj.2.2.2.1) (hj.2.1.trans (hr.resolve_left h0))
  subst hje
  obtain ⟨-,hn⟩ | ⟨ha,-⟩ := hcase
  · exact hn hz
  · exact (able_not_blocked ha).1 hb

theorem fam_reparent (h : Fam k) (hz : (k.table e).state = .zombie) :
    Fam (reparent k (k.table e).pid) := by
  have hrec := reparent_record (k := k) (k.table e).pid
  refine ⟨known_settled (settled_reparent k _) h.known,fun i hi => ?_,fun i b hc h0 => ?_⟩
  · rw [(hrec i).2.1] at hi
    rw [(hrec i).1]
    exact h.named i hi
  · obtain ⟨hf,j,⟨hlt,hp,hpp,hu,ht⟩,hcase⟩ := h.waits i b hc h0
    have hw := waiting_living (h.waits i b hc h0)
    have hne : (k.table j).ppid ≠ (k.table e).pid := by
      rw [hpp]
      intro he
      have hie := h.known.unique i e (h.named i (living_used hw)) he
      exact (living_iff.mp hw).2.2 (hie ▸ hz)
    refine ⟨(hrec i).2.2.1.trans hf,j,⟨hlt,(hrec j).1.trans hp,?_,?_,?_⟩,?_⟩
    · rw [(hrec j).2.2.2.resolve_right fun hr => hne hr.1, (hrec i).1]
      exact hpp
    · rwa [(hrec j).2.1]
    · rwa [(hrec j).2.1]
    · unfold Able
      rw [(hrec i).2.1, (hrec j).2.1]
      exact hcase

section ending
variable (hl : Live o el e .running k) (h : Fam k) (hcall : ∀ b, k.call e ≠ .waitFor b)
include hl h hcall

theorem fam_signal_check (hq : ∀ i, k.call i = .waitFor (k.table e).pid →
    (k.table i).state = .blocked → EndsNoticed (k.table e)) : Fam (signalCheck k e) := by
  have hrun := live_state hl
  have hlive : ∀ b f, Live o el e .running (marked k e b f) :=
    fun b f => live_set_proc hl e _ (fun _ => rfl) (fun _ => rfl)
  have hfam : ∀ b f, Fam (marked k e b f) := fun b f =>
    fam_keeps h (gentle_marked k e b f)
      (R := fun _ => False) (fun i => .inl (set_proc_state k e i _ fun _ => rfl)) fun _ _ _ _ _ => id
  have hrec : ∀ b f, ((marked k e b f).table e).pid = (k.table e).pid ∧
      ((marked k e b f).table e).ppid = (k.table e).ppid := fun b f => by simp [marked, setProc]
  unfold signalCheck
  split_ifs
  · exact h
  obtain ⟨b,f,he⟩ | ⟨b,f,sig,he | ⟨he,hsig,hp,hd,hchld,hkill⟩⟩ := signal_check_cases k e signals
  · rw [he]
    exact hfam b f
  · have hend := fam_end_parent (hfam b f) (live_state (hlive b f)) (128+sig) hcall
    rw [(hrec b f).1, (hrec b f).2] at hend
    rw [he]
    exact fam_schedule (live_wake_parent (live_zombie (hlive b f) rfl _) (by simp) _ _) hend
  · rw [he]
    refine fam_schedule (live_zombie (hlive b f) rfl _) (fam_end (hfam b f)
      (live_state (hlive b f)) _ hcall (gentle_refl _) (R := fun _ => False) (fun _ => .inl rfl)
      (fun _ _ _ _ _ => False.elim) fun i hc hb _ => ?_)
    rw [(hrec b f).1] at hc
    exact ((hq i hc ((gentle_marked k e b f).blocked i hb) sig hsig hp hd).elim hchld hkill).elim

variable (hq : ∀ i b, k.call i = .waitFor b → b ≠ 0 → (k.table i).state = .blocked →
  (k.table e).ppid = (k.table i).pid → (k.table e).pid = b)
include hq

theorem fam_fault (sig : ℕ) : Fam (killUserProcess k e sig) := by
  have hl2 := live_signal_send (live_zombie hl rfl (128+sig)) (by simp) (k.table e).ppid sigchld
  have hset := settled_trans (settled_zombie k e (128+sig))
    (gentle_signal_send (becomeZombie k e (128+sig)) (k.table e).ppid sigchld).toSettled
  have h3 := fam_wake_parent (fam_end_signal h (live_state hl) (128+sig) hcall hq)
    (live_state hl2) (k.table e).ppid
  rw [settled_pid hset] at h3
  exact fam_schedule (live_wake_parent hl2 (by simp) _ _) h3

theorem fam_exit (code : ℤ) (hk : k.current = e) : Fam (exitProcess k code) := by
  subst hk
  have hl2 := live_signal_send (live_zombie hl rfl code) (by simp)
    (k.table k.current).ppid sigchld
  have h2 := fam_end_signal h (live_state hl) code hcall hq
  have hpid := settled_pid (settled_trans (settled_zombie k k.current code) (gentle_signal_send
    (becomeZombie k k.current code) (k.table k.current).ppid sigchld).toSettled) k.current
  unfold exitProcess
  dsimp only
  generalize signalSend (becomeZombie k k.current code) (k.table k.current).ppid sigchld = k2
    at hl2 h2 hpid ⊢
  obtain ⟨hp3,hs3,-⟩ := reparent_record (k := k2) (k2.table k.current).pid k.current
  have h4 := fam_wake_parent (fam_reparent h2 (live_state hl2)) (hs3.trans (live_state hl2))
    ((reparent k2 (k2.table k.current).pid).table k.current).ppid
  rw [hp3, hpid] at h4
  exact fam_schedule (live_wake_parent (live_reparent hl2 _) (by simp) _ _) h4

end ending

theorem fam_reap (h : Fam k) (hcall : ∀ b, k.call c ≠ .waitFor b) {z : ℕ} (hz : (k.table z).state = .zombie)
    (hp : (k.table z).ppid = (k.table c).pid) : Fam (reap k z).1 := by
  have hst : ∀ j, j ≠ z → (reap k z).1.table j = k.table j := fun j hj => by
    simp [reap, setProc, hj]
  refine fam_mild h (mild_reap k z hz) (fun i hi => ?_) (fun i hb => ?_) fun i j b hc h0 hj hjz => ?_
  · by_cases hiz : i = z
    · simp [reap, setProc, hiz] at hi
    · exact .inl (by rwa [hst i hiz] at hi)
  · rwa [hst i (by rintro rfl; rw [hz] at hb; cases hb)]
  · rw [hst j ?_]
    · exact hjz
    · rintro rfl
      have hw := h.waits i b hc h0
      have hic := h.known.unique i c (waiting_pid h hw) (hj.2.2.1.symm.trans hp)
      exact hcall b (hic ▸ hc)

theorem find_zombie_child (h : Fam k) (hc : IsChild k i j b) :
    findZombie k.table (k.table i).pid b =
      if (k.table j).state = .zombie then some j else none := by
  obtain ⟨hj,hpid,hpp,hu,ht⟩ := hc
  have h0 := h.named j hu
  rw [findZombie, if_neg (hpid ▸ h0), ← hpid, known_found k j h.known h0 hu]
  by_cases hz : (k.table j).state = .zombie
  · simp [hpp, hz]
  · simp [hz]

theorem has_children (hc : IsChild k i j b) :
    processHasChildren k.table (k.table i).pid = true := by
  obtain ⟨hj,-,hpp,hu,ht⟩ := hc
  rw [processHasChildren, List.any_eq_true]
  exact ⟨j,List.mem_range.mpr hj,by simp [hpp, hu, ht]⟩

theorem fam_wait_for (hl : Live o el k.current .running k) (h : Fam k)
    (hcall : ∀ b, k.call k.current ≠ .waitFor b) (b : ℕ)
    (hb : b = 0 ∨ ∃ j, IsChild k k.current j b) : Fam (processWaitFor k b).1 := by
  have hrun := live_state hl
  cases hz : findZombie k.table (k.table k.current).pid b with
  | some z =>
    obtain ⟨-,hzs,hpp,-⟩ := find_zombie_state hz
    simp only [processWaitFor, hz]
    exact fam_reap h hcall hzs hpp
  | none =>
    by_cases hch : processHasChildren k.table (k.table k.current).pid = false
    · simp only [processWaitFor, hz, if_pos hch]
      exact h
    simp only [processWaitFor, hz, if_neg hch]
    have hkin : Kin k (setProc k k.current fun x => { x with waitForPid := b }) :=
      kin_set_proc k k.current _ ⟨rfl,rfl⟩ id id
    have hst : ∀ j, ((setProc k k.current fun x => { x with waitForPid := b }).table j).state =
        (k.table j).state := fun j => set_proc_state k k.current j _ fun _ => rfl
    have hpid : ∀ j, ((setProc k k.current fun x => { x with waitForPid := b }).table j).pid =
        (k.table j).pid := by
      intro j
      by_cases hj : j = k.current <;> simp [setProc, hj]
    refine fam_block (k := setProc k k.current fun x => { x with waitForPid := b })
      (live_set_proc hl k.current _ (fun _ => rfl) fun _ => rfl) (known_congr h.known hpid rfl)
      (fun i => ?_) (fun i d hi hc h0 => ?_) fun d hd h0 => ?_
    · rw [hst, hpid]
      exact h.named i
    · have hi' : i ≠ k.current := hi
      exact waiting_kin (h.waits i d hc h0) hkin (by simp [setProc, hi']) (by rw [hst]; exact id)
        (by unfold Able; rw [hst]; exact id) fun j _ => by rw [hst]; exact id
    · cases hd
      obtain ⟨j,hj⟩ := hb.resolve_left h0
      -- the child has not ended, or it would have been found
      have hnz : (k.table j).state ≠ .zombie := by
        intro hjz
        simp [find_zombie_child h hj, hjz] at hz
      have hl' := living_iff.mp ((kin_asleep _ (.waitFor b)).living j
        (hkin.living j (living_iff.mpr ⟨hj.2.2.2.1,hj.2.2.2.2,hnz⟩)))
      have hcu : (k.table k.current).state ≠ .unused := by simp [hrun]
      have hj1 := child_kin hkin hcu hj (by rw [hst]; exact hj.2.2.2.1) (by rw [hst]; exact hj.2.2.2.2)
      exact ⟨by simp [asleep, setCall, setProc],j,child_kin (kin_asleep _ _)
        (by rw [hst]; exact hcu) hj1 hl'.1 hl'.2.1,
        .inl ⟨by simp [asleep, setCall, setProc],hl'.2.2⟩⟩

theorem fam_wait_resume (h : Fam k) (hcall : ∀ b, k.call k.current ≠ .waitFor b) (b : ℕ) : Fam (processWaitResume k b).1 := by
  unfold processWaitResume
  cases hz : findZombie k.table (k.table k.current).pid b with
  | some z =>
    obtain ⟨-,hzs,hpp,-⟩ := find_zombie_state hz
    exact fam_reap h hcall hzs hpp
  | none => exact h

/-- The pointer `w` is null or names a process asleep in no wait for a child. -/
structure Idle (k : Kernel) (w : Waiter) : Prop where
  waits : Waits k w
  free : ∀ i b, k.call i = .waitFor b → b ≠ 0 → (k.table i).state = .blocked → k.waiters w ≠ some i

theorem fam_wake {w : Waiter} (h : Fam k) (hw : Idle k w) : Fam (wake k w) :=
  fam_keeps h (gentle_wake k w) (keeps_wake (R := fun i => k.waiters w = some i) hw.waits fun _ => id)
    hw.free

theorem fam_set_pipe (h : Fam k) (p : ℕ) (f : Pipe → Pipe) : Fam (setPipe k p f) :=
  fam_congr h rfl rfl fun _ _ => id

theorem fam_pipe_wake {w : Waiter} (h : Fam k) (p : ℕ) (f : Pipe → Pipe) (hw : Idle k w) :
    Fam (wake (setPipe k p f) w) :=
  fam_wake (fam_set_pipe h p f) ⟨hw.waits,hw.free⟩

theorem fam_pipe_read (hl : Live o el k.current .running k) (h : Fam k) (p n : ℕ)
    (hw : ∀ w, readWakes k p = some w → Idle k w) : Fam (pipeRead k p n).1 := by
  unfold pipeRead
  dsimp only
  split_ifs with h0
  · exact h
  · exact fam_wait_on hl h _ fun _ => by simp
  · exact fam_pipe_wake h p _ (hw _ (if_neg h0))

theorem fam_pipe_write_loop (hl : Live o el k.current .running k) (h : Fam k) (p : ℕ)
    (buf : List UInt8) (hw : ∀ w, writeWakes k p = some w → Idle k w) :
    Fam (pipeWriteLoop k p buf).1 := by
  unfold pipeWriteLoop
  dsimp only
  split_ifs with h0
  · exact h
  · exact fam_wait_on hl h _ fun _ => by simp
  · exact fam_pipe_wake h p _ (hw _ (if_neg h0))

theorem fam_close (h : Fam k) (p : ℕ) (f : Pipe → Pipe) {w : Waiter} {last : Prop} [Decidable last]
    (hw : last → Idle k w) : Fam (if last then wake (setPipe k p f) w else setPipe k p f) := by
  split_ifs with hd
  · exact fam_pipe_wake h p f (hw hd)
  · exact fam_set_pipe h p f

theorem fam_fill {x : Proc} (h : Fam k) (hm : Mild k k') (ht : k'.table = update k.table i x)
    (hu : (k.table i).state = .unused) (hx : x.pid ≠ 0) : Fam k' := by
  have hrec : ∀ j, (k.table j).state ≠ .unused → k'.table j = k.table j := by
    intro j hj
    rw [ht, update_of_ne (by rintro rfl; exact hj hu)]
  refine fam_mild h hm (fun j hj => ?_) (fun j hb => by rwa [hrec j (by simp [hb])])
    fun _ j _ _ _ _ hz => by rwa [hrec j (by simp [hz])]
  by_cases hji : j = i
  · exact .inr (by rwa [ht, hji, update_self])
  · rw [ht, update_of_ne hji] at hj
    exact .inl hj

theorem fam_create (h : Fam k) (h0 : k.nextPid ≠ 0) (hn : k.nextPid+1 < 2^32) (init : Proc) :
    Fam (create k init) := by
  unfold create
  cases hf : freeSlot k.table with
  | none => exact h
  | some i =>
    obtain ⟨hi,hu⟩ := free_slot_some k.table i hf
    have hk1 := fam_fill h (mild_filled k i (freshProc init k.nextPid) hn hi hu rfl (by simp [freshProc]))
      rfl hu h0
    refine fam_keeps (R := fun _ => False) hk1 (gentle_add _ i) (fun j => ?_) fun _ _ _ _ _ => id
    rw [add_state]
    split_ifs with hj
    · left
      simp [setCall, setProc, hj, freshProc]
    · exact .inl rfl

theorem fam_create_fails (h : Fam k) (h0 : k.nextPid ≠ 0) (hn : k.nextPid+1 < 2^32) (init : Proc)
    (fork : Bool) : Fam (createFails k init fork) := by
  have hm := mild_create_fails k init fork hn
  unfold createFails at hm ⊢
  cases hf : freeSlot k.table with
  | none => exact h
  | some i =>
    rw [hf] at hm
    exact fam_fill h hm rfl (free_slot_some k.table i hf).2 (by cases fork <;> simpa [freshProc])

theorem fam_resume (hl : Live o el k.current .running k) (h : Fam k)
    (hw : ∀ w, woken k .resume = some w → Idle k w) : Fam (resumeCall k) := by
  have hl1 := live_set_call hl k.current .none
  have hc := mild_set_call k .none k.current (by simp [live_state hl]) (by simp)
  have h1 : Fam (setCall k k.current .none) := fam_congr h rfl rfl hc.call
  have hidle : ∀ w, Idle k w → Idle (setCall k k.current .none) w :=
    fun w hw => ⟨hw.waits,fun i b hb => hw.free i b (hc.call i b hb)⟩
  unfold resumeCall
  dsimp only
  cases hcall : k.call k.current with
  | waitFor p => exact fam_wait_resume h1 (by simp [setCall]) p
  | pipeRead p n =>
    exact fam_pipe_read hl1 h1 p n fun w hww => hidle w (hw w (by rw [woken, hcall]; exact hww))
  | pipeWrite p buf =>
    exact fam_pipe_write_loop hl1 h1 p buf fun w hww =>
      hidle w (hw w (by rw [woken, hcall]; exact hww))
  | none | epollWait | other => exact h1

theorem step_fam {k : Kernel} {a : Action} (hg : Good k) (h : Fam k) (he : enabled k a = true)
    (hq : Quiet k a) : Fam (act k a) := by
  have hl := live_start hg none
  have hn : k.nextPid ≠ 0 := by
    have := (h.known.range k.current (h.named _ (by simp [live_state hl]))).2
    omega
  have hfree : k.call k.current = .none → ∀ b, k.call k.current ≠ .waitFor b := by
    intro hcall b
    simp [hcall]
  have hset : ∀ f : Proc → Proc, Gentle k (setProc k k.current f) → (∀ x, (f x).state = x.state) →
      Fam (setProc k k.current f) := fun f hg hf =>
    fam_keeps (R := fun _ => False) h hg (fun i => .inl (set_proc_state k _ i f hf)) fun _ _ _ _ _ => id
  have hidle : (∀ i b, Leaves k i b a → ∀ w, woken k a = some w → k.waiters w ≠ some i) →
      ∀ w, woken k a = some w → Idle k w := fun ha w hw =>
    ⟨hq.fresh w hw,fun i b hc h0 hb => ha i b (hq.leaves i b hc h0 hb) w hw⟩
  cases a with
  | tick => exact fam_schedule hl h
  | create init => exact fam_create h hn hq.proper init
  | createFails init fork => exact fam_create_fails h hn hq.proper init fork
  | signalSend pid sig =>
    exact fam_keeps h (gentle_signal_send k pid sig) (keeps_signal_send pid sig fun _ _ hp => hp)
      fun i b hc h0 hb hp => hq.leaves i b hc h0 hb hp.symm
  | sigaction sig handler =>
    simp only [act]
    split_ifs
    · exact h
    · exact hset _ (gentle_set_proc _ _ _ (.inl rfl) ⟨rfl,rfl⟩) fun _ => rfl
  | sigreturn =>
    exact hset (fun x => { x with inSignalHandler := false }) (gentle_set_proc _ _ _ (.inl rfl)
      ⟨rfl,rfl⟩) fun _ => rfl
  | signalCheck =>
    simp only [enabled, Bool.and_eq_true, beq_iff_eq] at he
    exact fam_signal_check hl h (hfree he.2) fun i hc hb => hq.leaves i _ hc
      (h.named _ (by simp [live_state hl])) hb rfl
  | fault sig =>
    simp only [enabled, Bool.and_eq_true, beq_iff_eq] at he
    exact fam_fault hl h (hfree he.2) hq.leaves sig
  | exit code =>
    simp only [enabled, Bool.and_eq_true, beq_iff_eq] at he
    exact fam_exit hl h (hfree he.2) hq.leaves code rfl
  | waitFor b =>
    simp only [enabled, Bool.and_eq_true, beq_iff_eq] at he
    exact fam_wait_for hl h (hfree he.2) b hq.proper
  | pipeRead p n => exact fam_pipe_read hl h p n (hidle fun _ _ => id)
  | pipeWrite p buf =>
    simp only [act, pipeWrite]
    split_ifs with hrd
    · exact h
    · exact fam_pipe_write_loop hl h p buf fun w hw =>
        hidle (fun _ _ => id) w (by rw [woken, if_neg hrd, hw])
  | pipeCloseRead p =>
    exact fam_close h p _ fun hd => hidle (fun _ _ => id) _ (if_pos (by simpa [setPipe] using hd))
  | pipeCloseWrite p =>
    exact fam_close h p _ fun hd => hidle (fun _ _ => id) _ (if_pos (by simpa [setPipe] using hd))
  | pipeIncRef p type | pingStart | arpDone => exact fam_congr h rfl rfl fun _ _ => id
  | sleep w =>
    cases w with
    | none => exact fam_sleep hl h (by simp)
    | some w => exact fam_wait_on hl h w (by simp)
  | epollWait => exact fam_sleep hl h (by simp)
  | netWorkerWait =>
    exact fam_sleep (k := { k with netWorker := some k.current }) (live_frame hl (fun _ => rfl)
      (fun _ => rfl) rfl rfl rfl (fun _ _ => Or.inl) fun _ hp => Or.inr (Option.some.inj hp).symm)
      (fam_congr h rfl rfl fun _ _ => id) (by simp)
  | resume => exact fam_resume hl h (hidle fun _ _ => id)
  | wake w => exact fam_wake h (hidle (fun _ _ => id) w rfl)
  | netReceive =>
    simp only [act]
    split
    · exact h
    · rename_i p hp
      exact fam_keeps h (gentle_wake_blocked k p) (keeps_wake_blocked fun _ => hp) hq.leaves
  | epollWake p =>
    simp only [act]
    split_ifs with hc
    · refine fam_keeps h (gentle_wake_blocked k p) (keeps_wake_blocked (R := (· = p)) fun _ => rfl)
        fun i b hb _ _ hi => ?_
      rw [hi, hc] at hb
      cases hb
    · exact h

theorem boot_fam : Fam boot := by
  refine ⟨boot_known,fun i => ?_,fun i b hc => by cases hc⟩
  simp only [boot]
  split_ifs
  · exact fun _ => by simp
  · exact fun h => absurd rfl h

theorem reach_fam {k : Kernel} (h : Reach Quiet k) : Good k ∧ Fam k := by
  apply reach_invariant Quiet (fun k => Good k ∧ Fam k) ⟨boot_good,boot_fam⟩ _ h
  rintro k a ⟨hg,hf⟩ he hq
  obtain ⟨c,hc⟩ := step_live hg he hq.fresh
  exact ⟨good_of_live hc,step_fam hg hf he hq⟩

def ticks : ℕ → Kernel → Kernel
  | 0, k => k
  | n+1, k => ticks n (schedule k)

theorem ticks_gentle (n : ℕ) (k : Kernel) : Gentle k (ticks n k) := by
  induction n generalizing k with
  | zero => exact gentle_refl k
  | succ n ih => exact gentle_trans (gentle_schedule k) (ih (schedule k))

theorem ticks_keeps (n : ℕ) (k : Kernel) (h : Good k) : Keeps (fun _ => False) k (ticks n k) := by
  induction n generalizing k with
  | zero => exact fun _ => .inl rfl
  | succ n ih =>
    obtain ⟨c,hc⟩ := live_schedule h (Or.inl rfl)
    exact keeps_trans (keeps_schedule h) (ih (schedule k) (good_of_live hc))

theorem ticks_reach (l r : List ℕ) (i : ℕ) (k : Kernel) (h : Sane k none k (l++i::r))
    (hrun : (k.table k.current).state = .running) : (ticks (l.length+1) k).current = i := by
  induction l generalizing k r with
  | nil => exact (sane_rotate h hrun).2
  | cons n l ih =>
    obtain ⟨hs,hc⟩ := sane_rotate h hrun
    have hst := schedule_running k n h.queue.linked.1
    refine ih (r++[k.current]) (schedule k) ?_ (by rw [hc]; exact hst)
    have heq : l++i::(r++[k.current]) = (l++i::r)++[k.current] := by simp
    rw [heq]
    exact { hs with dead := fun _ _ => id }

theorem able_runs (hg : Good k) (i : ℕ) (hi : i < maxProcesses) (hs : Able (k.table i)) :
    ∃ n, (ticks n k).current = i := by
  obtain ⟨q,hq,-,hrun⟩ := hg
  rcases hs with hs | hs
  · obtain ⟨l,r,rfl⟩ := List.append_of_mem ((hq.ready i).mpr ⟨hi,hs⟩)
    exact ⟨_,ticks_reach l r i k hq hrun⟩
  · exact ⟨0,(hq.running i hi hs).symm⟩

/-- A ready process runs after at most as many ticks as there are slots. -/
theorem turn_comes (k : Kernel) (h : Reach Fresh k) (i : ℕ) (hi : i < maxProcesses)
    (hs : (k.table i).state = .ready) : ∃ n ≤ maxProcesses, (ticks n k).current = i := by
  obtain ⟨q,hq,-,hrun⟩ := reach_good h
  obtain ⟨l,r,rfl⟩ := List.append_of_mem ((hq.ready i).mpr ⟨hi,hs⟩)
  refine ⟨_,?_,ticks_reach l r i k hq hrun⟩
  have hsub : l++i::r ⊆ List.range maxProcesses :=
    fun j hj => List.mem_range.mpr ((hq.ready j).mp hj).1
  have := (hq.queue.nodup.subperm hsub).length_le
  rw [List.length_range, List.length_append, List.length_cons] at this
  omega

theorem turn_comes_created :
    ∃ n ≤ maxProcesses, (ticks n (act boot (.create userProc))).current = 1 :=
  turn_comes _ (.step _ _ .boot (by decide) (fresh_none rfl)) 1 (by decide) (by decide)

theorem resume_reaps (h : Fam k) (hc : IsChild k k.current j b) (hz : (k.table j).state = .zombie) :
    processWaitResume k b = reap k j := by
  unfold processWaitResume
  rw [find_zombie_child h hc, if_pos hz]

/-- In a run in which every process waiting for a child is left alone: a call
that names a zombie child reaps it at once and one that names a living child
blocks; the caller sleeps exactly until that child is a zombie, then its turn
comes, and whenever it goes on it reaps that child and returns its pid and
exit code. -/
theorem wait_for_returns_child (k : Kernel) (h : Reach Quiet k) :
    (∀ j c, enabled k (.waitFor c) = true → IsChild k k.current j c →
      ((k.table j).state = .zombie → processWaitFor k c = ((reap k j).1,some (reap k j).2)) ∧
      ((k.table j).state ≠ .zombie → (processWaitFor k c).2 = none ∧
        (processWaitFor k c).1.call k.current = .waitFor c)) ∧
    (∀ i c, k.call i = .waitFor c → c ≠ 0 → ∃ j, IsChild k i j c ∧
      ((k.table i).state = .blocked ∧ (k.table j).state ≠ .zombie ∨
        (k.table j).state = .zombie ∧ ∃ n, (ticks n k).current = i ∧
          (ticks n k).call i = .waitFor c ∧ processWaitResume (ticks n k) c = reap (ticks n k) j)) ∧
    (∀ c, k.call k.current = .waitFor c → c ≠ 0 → ∃ j, IsChild k k.current j c ∧
      (k.table j).state = .zombie ∧ processWaitResume k c = reap k j) := by
  obtain ⟨hg,hf⟩ := reach_fam h
  refine ⟨?_,?_,?_⟩
  · intro j c _ hj
    constructor
    · intro hz
      simp only [processWaitFor, find_zombie_child hf hj, if_pos hz]
    · intro hz
      simp only [processWaitFor, find_zombie_child hf hj, if_neg hz, has_children hj, reduceCtorEq,
        if_false, true_and]
      rw [block, (gentle_schedule _).call]
      simp [setCall, setProc]
  · intro i c hcall h0
    have hw := hf.waits i c hcall h0
    have hu := living_used (waiting_living hw)
    obtain ⟨-,j,hj,hcase⟩ := hw
    refine ⟨j,hj,hcase.imp_right ?_⟩
    rintro ⟨ha,hz⟩
    obtain ⟨n,hcur⟩ := able_runs hg i (hf.known.range i (hf.named i hu)).1 ha
    have hgn := ticks_gentle n k
    have hkn := ticks_keeps n k hg
    have hzn := keeps_zombie hkn hz
    have hjn := child_kin (mild_of hgn).toKin hu hj (by simp [hzn]) (by simp [hzn])
    have hfn : Fam (ticks n k) := fam_keeps hf hgn hkn fun _ _ _ _ _ => id
    exact ⟨hz,n,hcur,by rw [hgn.call]; exact hcall,resume_reaps hfn (hcur.symm ▸ hjn) hzn⟩
  · intro c hcall h0
    obtain ⟨-,j,hj,⟨hb,-⟩ | ⟨-,hz⟩⟩ := hf.waits _ c hcall h0
    · rw [live_state hg] at hb
      cases hb
    · exact ⟨j,hj,hz,resume_reaps hf hj hz⟩

def childProc : Proc := { isUser := true, ppid := 2 }

/-- The process 2 has the children 3 and 4, waits for 3, and 4 exits. -/
def siblingExits : List Action :=
  [.create userProc, .tick, .create childProc, .create childProc, .waitFor 3, .tick, .tick, .exit 0,
    .tick, .tick]

/-- The process 2 waits for its child 3, which gets signal 10. -/
def childSignalled : List Action :=
  [.create userProc, .tick, .create childProc, .waitFor 3, .signalSend 3 10, .tick, .signalCheck]

/-- After the exit of a sibling the wait for a living child ends with -1, and
the end of the child by a signal outside the named ones leaves the parent
asleep. -/
theorem sibling_exit_ends_wait :
    (Reach (fun _ _ => True) (runFrom boot siblingExits) ∧
      (runFrom boot siblingExits).call (runFrom boot siblingExits).current = .waitFor 3 ∧
      IsChild (runFrom boot siblingExits) (runFrom boot siblingExits).current 2 3 ∧
      (processWaitResume (runFrom boot siblingExits) 3).2 = ⟨-1,none⟩) ∧
    (Reach (fun _ _ => True) (runFrom boot childSignalled) ∧
      (runFrom boot childSignalled).call 1 = .waitFor 3 ∧
      IsChild (runFrom boot childSignalled) 1 2 3 ∧
      ((runFrom boot childSignalled).table 2).state = .zombie ∧
      ((runFrom boot childSignalled).table 1).state = .blocked) := by
  refine ⟨⟨reach_run _ boot _ .boot ?_,?_,?_,?_⟩,reach_run _ boot _ .boot ?_,?_,?_,?_,?_⟩
  · simp only [siblingExits, Runs, true_and, and_true]
    decide +kernel
  · decide +kernel
  · unfold IsChild
    decide +kernel
  · decide +kernel
  · simp only [childSignalled, Runs, true_and, and_true]
    decide +kernel
  · decide +kernel
  · unfold IsChild
    decide +kernel
  · decide +kernel
  · decide +kernel

/-- The process 2 waits for its only child 3, which exits with 7. -/
def childExits : List Action :=
  [.create userProc, .tick, .create childProc, .waitFor 3, .tick, .exit 7, .tick]

def setCalls (l : List (ℕ × Call)) : ℕ → Call :=
  l.foldr (fun x f => update f x.1 x.2) (fun _ => .none)

theorem set_calls_wait {l : List (ℕ × Call)} (hl : ∀ x ∈ l, x.2 = .none ∨ x = (1,.waitFor 3)) {d : ℕ}
    (h : setCalls l j = .waitFor d) : j = 1 ∧ d = 3 := by
  induction l with
  | nil => cases h
  | cons x l ih =>
    by_cases hj : j = x.1
    · have hx : x.2 = .waitFor d := by simpa [setCalls, hj] using h
      rcases hl x (by simp) with h' | h'
      · simp [h'] at hx
      · rw [h'] at hx hj
        exact ⟨hj,by simpa using hx.symm⟩
    · exact ih (fun y hy => hl y (by simp [hy])) (by simpa [setCalls, hj] using h)

theorem quiet_step (k : Kernel) (a : Action) (l : List (ℕ × Call)) (hf : woken k a = none)
    (hp : Proper k a) (hcall : k.call = setCalls l)
    (hl : ∀ x ∈ l, x.2 = .none ∨ x = (1,.waitFor 3)) (hleave : Leaves k 1 3 a) : Quiet k a := by
  refine ⟨fresh_none hf,?_,hp⟩
  intro j d hj _ _
  rw [hcall] at hj
  obtain ⟨rfl,rfl⟩ := set_calls_wait hl hj
  exact hleave

theorem wait_for_returns_child_exit :
    Reach Quiet (runFrom boot childExits) ∧
    ∃ j, IsChild (runFrom boot childExits) (runFrom boot childExits).current j 3 ∧
      ((runFrom boot childExits).table j).state = .zombie ∧
      processWaitResume (runFrom boot childExits) 3 = reap (runFrom boot childExits) j := by
  have h : Reach Quiet (runFrom boot childExits) := by
    apply reach_run _ boot _ .boot
    refine ⟨by decide,quiet_step _ _ [] rfl ?_ rfl (by decide) ?_,
      by decide,quiet_step _ _ [(1,.none)] rfl trivial rfl (by decide) ?_,
      by decide,quiet_step _ _ [(1,.none)] rfl ?_ rfl (by decide) ?_,
      by decide,quiet_step _ _ [(2,.none),(1,.none)] rfl ?_ rfl (by decide) ?_,
      by decide,quiet_step _ _ [(1,.waitFor 3),(2,.none),(1,.none)] rfl trivial rfl (by decide) ?_,
      by decide,quiet_step _ _ [(1,.waitFor 3),(2,.none),(1,.none)] rfl trivial rfl (by decide) ?_,
      by decide,quiet_step _ _ [(1,.waitFor 3),(2,.none),(1,.none)] rfl trivial rfl (by decide) ?_,
      trivial⟩
    · unfold Proper
      decide
    · intro w hw
      cases hw
    · intro w hw
      cases hw
    · unfold Proper
      decide
    · intro w hw
      cases hw
    · right
      refine ⟨2,?_⟩
      unfold IsChild
      decide
    · intro w hw
      cases hw
    · intro w hw
      cases hw
    · intro _
      decide
    · intro w hw
      cases hw
  exact ⟨h,(wait_for_returns_child _ h).2.2 3 (by decide) (by decide)⟩

end HobbyOS.WaitFor
