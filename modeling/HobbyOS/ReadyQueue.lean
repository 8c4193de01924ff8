import HobbyOS.IntrusiveQueue
import HobbyOS.KernelFrame

/-!
# Integrity of the ready queue

The ready queue holds the ready processes, each once, as long as every
pointer that is woken without a check names a blocked process. A stale
pointer breaks it: a process woken by a signal while a pipe still points to
it is linked behind itself by the next write, and a process that a signal
killed is revived by the next packet.
-/

namespace HobbyOS.ReadyQueue
open Process Scheduler KernelFrame IntrusiveQueue Function

/-- The ready queue is a list without repetition of exactly the ready processes. -/
def Intact (k : Kernel) : Prop :=
  ∃ q, Queue (fun i => (k.table i).next) k.head k.tail q ∧
    ∀ i, i ∈ q ↔ i < maxProcesses ∧ (k.table i).state = .ready

def Dead (s : State) : Prop := s = .zombie ∨ s = .unused ∨ s = .terminated

def readWakes (k : Kernel) (p : ℕ) : Option Waiter :=
  if (k.pipes p).count = 0 then none else some (.pipeWriter p)

def writeWakes (k : Kernel) (p : ℕ) : Option Waiter :=
  if (k.pipes p).count = pipeBufSize then none else some (.pipeReader p)

def woken (k : Kernel) : Action → Option Waiter
  | .pipeRead p _ => readWakes k p
  | .pipeWrite p _ => if (k.pipes p).readers = 0 then none else writeWakes k p
  | .pipeCloseRead p => if (k.pipes p).readers-1 = 0 then some (.pipeWriter p) else none
  | .pipeCloseWrite p => if (k.pipes p).writers-1 = 0 then some (.pipeReader p) else none
  | .wake w => some w
  | .resume =>
    match k.call k.current with
    | .pipeRead p _ => readWakes k p
    | .pipeWrite p _ => writeWakes k p
    | _ => none
  | _ => none

/-- The pointer `w` is null or names a blocked process. -/
def Waits (k : Kernel) (w : Waiter) : Prop :=
  ∀ p, k.waiters w = some p → (k.table p).state = .blocked

/-- Every unchecked wake-up of the step finds a blocked process. -/
def Fresh (k : Kernel) (a : Action) : Prop := ∀ w, woken k a = some w → Waits k w

def created (k : Kernel) : Action → Option ℕ
  | .create _ => freeSlot k.table
  | _ => none

/-- What holds between any two statements of a step that began in `o`; the
slot `e` is the one the step creates. -/
structure Sane (o : Kernel) (e : Option ℕ) (k : Kernel) (q : List ℕ) : Prop where
  queue : Queue (fun i => (k.table i).next) k.head k.tail q
  ready : ∀ i, i ∈ q ↔ i < maxProcesses ∧ (k.table i).state = .ready
  running : ∀ i, i < maxProcesses → (k.table i).state = .running → i = k.current
  bound : k.current < maxProcesses
  idle : k.current = idle ∨ idle ∈ q
  pointers : ∀ w p, k.waiters w = some p → p < maxProcesses
  worker : ∀ p, k.netWorker = some p → p < maxProcesses
  dead : ∀ i, e ≠ some i → Dead (o.table i).state → Dead (k.table i).state

def Live (o : Kernel) (e : Option ℕ) (c : ℕ) (s : State) (k : Kernel) : Prop :=
  ∃ q, Sane o e k q ∧ k.current = c ∧ (k.table c).state = s

def Good (k : Kernel) : Prop := Live k none k.current .running k

variable {o : Kernel} {e : Option ℕ} {k : Kernel} {q : List ℕ} {c : ℕ} {s : State}

theorem set_proc_state (k : Kernel) (i j : ℕ) (f : Proc → Proc) (h : ∀ x, (f x).state = x.state) :
    ((setProc k i f).table j).state = (k.table j).state := by
  by_cases hj : j = i
  · subst hj
    simp [setProc, h]
  · simp [setProc, hj]

theorem set_proc_next (k : Kernel) (i j : ℕ) (f : Proc → Proc) (h : ∀ x, (f x).next = x.next) :
    ((setProc k i f).table j).next = (k.table j).next := by
  by_cases hj : j = i
  · subst hj
    simp [setProc, h]
  · simp [setProc, hj]

@[simp] theorem set_proc_current (k : Kernel) (i : ℕ) (f : Proc → Proc) :
    (setProc k i f).current = k.current := rfl

theorem sane_frame {k' : Kernel} (h : Sane o e k q)
    (hs : ∀ i, (k'.table i).state = (k.table i).state)
    (hn : ∀ i, (k'.table i).next = (k.table i).next) (hh : k'.head = k.head)
    (ht : k'.tail = k.tail) (hc : k'.current = k.current)
    (hw : ∀ w p, k'.waiters w = some p → p < maxProcesses)
    (hnw : ∀ p, k'.netWorker = some p → p < maxProcesses) : Sane o e k' q where
  queue := by
    rw [hh, ht]
    exact queue_congr _ _ h.queue (fun i _ => hn i)
  ready := by simpa only [hs] using h.ready
  running := by simpa only [hs, hc] using h.running
  bound := by rw [hc]; exact h.bound
  idle := by rw [hc]; exact h.idle
  pointers := hw
  worker := hnw
  dead := by simpa only [hs] using h.dead

theorem live_frame {k' : Kernel} (h : Live o e c s k)
    (hs : ∀ i, (k'.table i).state = (k.table i).state)
    (hn : ∀ i, (k'.table i).next = (k.table i).next) (hh : k'.head = k.head)
    (ht : k'.tail = k.tail) (hc : k'.current = k.current)
    (hw : ∀ w p, k'.waiters w = some p → k.waiters w = some p ∨ p = k.current)
    (hnw : ∀ p, k'.netWorker = some p → k.netWorker = some p ∨ p = k.current) :
    Live o e c s k' := by
  obtain ⟨q,hq,hkc,hks⟩ := h
  refine ⟨q,sane_frame hq hs hn hh ht hc ?_ ?_,hc.trans hkc,(hs c).trans hks⟩
  · intro w p hp
    rcases hw w p hp with h' | rfl
    · exact hq.pointers w p h'
    · exact hq.bound
  · intro p hp
    rcases hnw p hp with h' | rfl
    · exact hq.worker p h'
    · exact hq.bound

theorem live_set_proc (h : Live o e c s k) (i : ℕ) (f : Proc → Proc)
    (hs : ∀ x, (f x).state = x.state) (hn : ∀ x, (f x).next = x.next) :
    Live o e c s (setProc k i f) :=
  live_frame h (fun j => set_proc_state k i j f hs) (fun j => set_proc_next k i j f hn)
    rfl rfl rfl (fun _ _ => Or.inl) (fun _ => Or.inl)

theorem live_set_pipe (h : Live o e c s k) (p : ℕ) (f : Pipe → Pipe) :
    Live o e c s (setPipe k p f) :=
  live_frame h (fun _ => rfl) (fun _ => rfl) rfl rfl rfl (fun _ _ => Or.inl) (fun _ => Or.inl)

theorem live_set_call (h : Live o e c s k) (i : ℕ) (d : Call) : Live o e c s (setCall k i d) :=
  live_frame h (fun _ => rfl) (fun _ => rfl) rfl rfl rfl (fun _ _ => Or.inl) (fun _ => Or.inl)

theorem live_set_waiter (h : Live o e c s k) (w : Waiter) {p : Option ℕ}
    (hp : p = none ∨ p = some k.current) : Live o e c s (setWaiter k w p) := by
  refine live_frame h (fun _ => rfl) (fun _ => rfl) rfl rfl rfl ?_ (fun _ => Or.inl)
  intro v r hr
  by_cases hv : v = w
  · subst hv
    have hvr : p = some r := by simpa [setWaiter] using hr
    rw [hvr] at hp
    rcases hp with hp | hp
    · cases hp
    · exact Or.inr (Option.some.inj hp)
  · left
    simpa [setWaiter, hv] using hr

@[simp] theorem add_current (k : Kernel) (p : ℕ) : (schedulerAdd k p).current = k.current := by
  unfold schedulerAdd
  dsimp only
  split <;> rfl

theorem add_state (k : Kernel) (p i : ℕ) :
    ((schedulerAdd k p).table i).state = if i = p then .ready else (k.table i).state := by
  have hset : ((setProc k p fun x => { x with state := .ready, next := none }).table i).state =
      if i = p then .ready else (k.table i).state := by
    by_cases hi : i = p
    · subst hi
      simp [setProc]
    · simp [setProc, hi]
  unfold schedulerAdd
  dsimp only
  split
  · exact hset
  · exact hset
  · rw [← hset]
    exact set_proc_state _ _ i (fun x => { x with next := some p }) (fun _ => rfl)

theorem add_links {k : Kernel} (p : ℕ) (h : k.head = none ↔ k.tail = none) :
    (fun i => ((schedulerAdd k p).table i).next) =
      append (fun i => (k.table i).next) k.tail p ∧
    (schedulerAdd k p).head = (if k.head = none then some p else k.head) ∧
    (schedulerAdd k p).tail = some p := by
  have hset : (fun i => ((setProc k p fun x => { x with state := .ready, next := none }).table i).next)
      = update (fun i => (k.table i).next) p none := by
    funext i
    by_cases hi : i = p
    · subst hi
      simp [setProc]
    · simp [setProc, hi]
  cases hh : k.head with
  | none =>
    have ht := h.mp hh
    simp only [schedulerAdd, setProc, hh, ht, if_true, and_true]
    exact hset
  | some a =>
    cases ht : k.tail with
    | none => simp [hh, ht] at h
    | some t =>
      simp only [schedulerAdd, setProc, hh, ht, append, reduceCtorEq, if_false, and_true]
      rw [← hset]
      funext i
      by_cases hi : i = t
      · subst hi
        simp
      · simp [setProc, hi]

theorem tail_none_iff (h : Sane o e k q) : k.head = none ↔ k.tail = none := by
  rw [empty_iff _ h.queue, h.queue.last, List.getLast?_eq_none_iff]

variable {p : ℕ}

theorem sane_add (h : Sane o e k q) (hp : p < maxProcesses) (hq : p ∉ q) (hc : p ≠ k.current)
    (hd : ¬Dead (k.table p).state ∨ e = some p) :
    Sane o e (schedulerAdd k p) (q++[p]) where
  queue := by
    obtain ⟨hn,hh,ht⟩ := add_links p (tail_none_iff h)
    rw [hn, hh, ht]
    exact queue_push _ h.queue hq
  ready := by
    intro i
    rw [add_state, List.mem_append, h.ready i]
    by_cases hi : i = p
    · simp [hi, hp]
    · simp [hi]
  running := by
    intro i hi hr
    rw [add_state] at hr
    rw [add_current]
    by_cases hip : i = p
    · simp [hip] at hr
    · exact h.running i hi (by simpa [hip] using hr)
  bound := by rw [add_current]; exact h.bound
  idle := by
    rw [add_current]
    exact h.idle.imp_right (fun hm => List.mem_append_left [p] hm)
  pointers := by rw [add_waiters]; exact h.pointers
  worker := by rw [(gentle_add _ _).worker]; exact h.worker
  dead := by
    intro i he hdead
    have hi := h.dead i he hdead
    rw [add_state]
    by_cases hip : i = p
    · subst hip
      rcases hd with hd | hd
      · exact absurd hi hd
      · exact absurd hd he
    · rwa [if_neg hip]

theorem live_wake (h : Live o e c s k) (hs : s ≠ .blocked) {p : ℕ} (hp : p < maxProcesses)
    (hb : (k.table p).state = .blocked) : Live o e c s (schedulerAdd k p) := by
  obtain ⟨q,hq,hkc,hks⟩ := h
  have hpc : p ≠ c := by
    rintro rfl
    exact hs (hks.symm.trans hb)
  have hpq : p ∉ q := by
    intro hm
    have := ((hq.ready p).mp hm).2
    rw [hb] at this
    cases this
  refine ⟨q++[p],sane_add hq hp hpq (by rwa [hkc]) (Or.inl ?_),by rw [add_current, hkc],?_⟩
  · rw [hb]
    simp [Dead]
  · rw [add_state, if_neg hpc.symm, hks]

theorem live_wake_blocked (h : Live o e c s k) (hs : s ≠ .blocked) (hp : p < maxProcesses) :
    Live o e c s (wakeBlocked k p) := by
  unfold wakeBlocked
  by_cases hb : (k.table p).state = .blocked
  · rw [if_pos hb]
    exact live_wake h hs hp hb
  · rwa [if_neg hb]

theorem live_wake_waiter (h : Live o e c s k) (hs : s ≠ .blocked) {w : Waiter} (hw : Waits k w) :
    Live o e c s (wake k w) := by
  unfold wake
  cases hp : k.waiters w with
  | none => exact h
  | some p =>
    have hlt : p < maxProcesses := by
      obtain ⟨q,hq,-⟩ := h
      exact hq.pointers w p hp
    exact live_set_waiter (live_wake h hs hlt (hw p hp)) w (Or.inl rfl)

theorem switch_state (k : Kernel) (n i : ℕ) :
    ((switchTo k n).table i).state = if i = n then .running else (k.table i).state := by
  by_cases hi : i = n
  · subst hi
    simp [switchTo, setProc]
  · simp [switchTo, setProc, hi]

theorem switch_next (k : Kernel) (n i : ℕ) : ((switchTo k n).table i).next = (k.table i).next :=
  set_proc_next k n i (fun x => { x with state := .running }) (fun _ => rfl)

/-- The ready process `n`, taken out of the queue while no other process
runs, becomes the current one. -/
theorem sane_switch (n : ℕ) (hn : n < maxProcesses)
    (hq : Queue (fun i => (k.table i).next) k.head k.tail q)
    (hready : ∀ i, i ∈ q ↔ i < maxProcesses ∧ (k.table i).state = .ready ∧ i ≠ n)
    (hnone : ∀ i, i < maxProcesses → (k.table i).state ≠ .running) (hidle : n = idle ∨ idle ∈ q)
    (hp : ∀ w p, k.waiters w = some p → p < maxProcesses)
    (hw : ∀ p, k.netWorker = some p → p < maxProcesses)
    (hdead : ∀ i, e ≠ some i → Dead (o.table i).state → i ≠ n ∧ Dead (k.table i).state) :
    Sane o e (switchTo k n) q where
  queue := queue_congr _ _ hq (fun i _ => switch_next k n i)
  ready := by
    intro i
    rw [switch_state, hready i]
    by_cases hi : i = n <;> simp [hi]
  running := by
    intro i hi hr
    rw [switch_state] at hr
    by_cases hin : i = n
    · exact hin
    · rw [if_neg hin] at hr
      exact absurd hr (hnone i hi)
  bound := hn
  idle := hidle
  pointers := hp
  worker := hw
  dead := by
    intro i he hd
    obtain ⟨hi,hd'⟩ := hdead i he hd
    rwa [switch_state, if_neg hi]

theorem schedule_head (k : Kernel) (n : ℕ) (h : k.head = some n) :
    schedule k = switchTo (if (k.table k.current).state = .running
      then schedulerAdd (popHead k n) k.current else popHead k n) n := by
  simp only [schedule, h]
  rfl

section first
variable {n : ℕ}

theorem mem_rest (h : Sane o e k (n::q)) (i : ℕ) :
    i ∈ q ↔ i < maxProcesses ∧ (k.table i).state = .ready ∧ i ≠ n := by
  have hi := h.ready i
  have hnq : n ∉ q := (List.nodup_cons.mp h.queue.nodup).1
  by_cases hin : i = n
  · simp [hin, hnq]
  · simpa [hin] using hi

theorem first_ready (h : Sane o e k (n::q)) : n < maxProcesses ∧ (k.table n).state = .ready :=
  (h.ready n).mp (by simp)

theorem dead_rest (h : Sane o e k (n::q)) (i : ℕ) (he : e ≠ some i) (hd : Dead (o.table i).state) :
    i ≠ n ∧ Dead (k.table i).state := by
  have hdk := h.dead i he hd
  refine ⟨?_,hdk⟩
  rintro rfl
  simp [(first_ready h).2, Dead] at hdk

theorem sane_rotate (h : Sane o e k (n::q)) (hrun : (k.table k.current).state = .running) :
    Sane o e (schedule k) (q++[k.current]) ∧ (schedule k).current = n := by
  obtain ⟨hhead,hpop⟩ := queue_pop _ h.queue
  obtain ⟨hn,hnr⟩ := first_ready h
  have hcn : k.current ≠ n := by
    intro hcn
    rw [hcn, hnr] at hrun
    cases hrun
  have hcq : k.current ∉ q := by
    intro hm
    have := ((mem_rest h _).mp hm).2.1
    rw [hrun] at this
    cases this
  have hends : (popHead k n).head = none ↔ (popHead k n).tail = none := by
    have hlast : (popHead k n).tail = q.getLast? := hpop.last
    rw [hlast, List.getLast?_eq_none_iff]
    exact empty_iff _ hpop
  obtain ⟨hlinks,hh,ht⟩ := add_links k.current hends
  rw [schedule_head k n hhead, if_pos hrun]
  refine ⟨sane_switch n hn ?_ ?_ ?_ ?_ ?_ ?_ ?_,rfl⟩
  · rw [hlinks, hh, ht]
    exact queue_push _ hpop hcq
  · intro i
    rw [add_state, List.mem_append, mem_rest h i]
    by_cases hi : i = k.current
    · simp [hi, hcn, h.bound]
    · simp [hi, popHead]
  · intro i hi hri
    rw [add_state] at hri
    by_cases hic : i = k.current
    · simp [hic] at hri
    · rw [if_neg hic] at hri
      exact hic (h.running i hi hri)
  · rcases h.idle with h' | h'
    · right
      simp [← h']
    · rcases List.mem_cons.mp h' with h' | h'
      · exact Or.inl h'.symm
      · exact Or.inr (List.mem_append_left _ h')
  · rw [add_waiters]
    exact h.pointers
  · rw [(gentle_add _ _).worker]
    exact h.worker
  · intro i he hd
    obtain ⟨hin,hdk⟩ := dead_rest h i he hd
    have hic : i ≠ k.current := by
      rintro rfl
      simp [hrun, Dead] at hdk
    refine ⟨hin,?_⟩
    rwa [add_state, if_neg hic]

theorem sane_next (h : Sane o e k (n::q)) (hrun : (k.table k.current).state ≠ .running)
    (hidle : k.current ≠ idle) : Sane o e (schedule k) q ∧ (schedule k).current = n := by
  obtain ⟨hhead,hpop⟩ := queue_pop _ h.queue
  have hmem := mem_rest h
  have hdead := dead_rest h
  rw [schedule_head k n hhead, if_neg hrun]
  refine ⟨sane_switch n (first_ready h).1 hpop hmem ?_ ?_ h.pointers h.worker hdead,rfl⟩
  · intro i hi hri
    exact hrun (h.running i hi hri ▸ hri)
  · exact (List.mem_cons.mp (h.idle.resolve_left hidle)).imp_left Eq.symm

end first

theorem schedule_empty (h : Sane o e k []) : schedule k = k := by
  have hhead : k.head = none := (empty_iff _ h.queue).mpr rfl
  simp only [schedule, hhead]

theorem schedule_running (k : Kernel) (n : ℕ) (h : k.head = some n) :
    ((schedule k).table n).state = .running := by
  rw [schedule_head k n h, switch_state, if_pos rfl]

/-- `schedule` leaves a running process unless it keeps the one it has. -/
theorem live_schedule (h : Live o e c s k) (hs : s = .running ∨ c ≠ idle) :
    ∃ c', Live o e c' .running (schedule k) := by
  obtain ⟨q,hq,hc,hst⟩ := h
  subst hc
  cases q with
  | nil =>
    have hci : k.current = idle := by simpa using hq.idle
    have hrun : s = .running := hs.resolve_right (by simp [hci])
    exact ⟨k.current,[],by rwa [schedule_empty hq],by rw [schedule_empty hq],
      by rw [schedule_empty hq, hst, hrun]⟩
  | cons n q =>
    have hlast := schedule_running k n hq.queue.linked.1
    by_cases hrun : s = .running
    · obtain ⟨hq',hc'⟩ := sane_rotate hq (hst.trans hrun)
      exact ⟨n,_,hq',hc',hlast⟩
    · obtain ⟨hq',hc'⟩ := sane_next hq (by rwa [hst]) (hs.resolve_left hrun)
      exact ⟨n,_,hq',hc',hlast⟩

theorem sane_set_state (h : Sane o e k q) (i : ℕ) (f : Proc → Proc) (s' : State)
    (hf : (f (k.table i)).state = s') (hr : (k.table i).state ≠ .ready) (h1 : s' ≠ .ready)
    (h2 : s' ≠ .running) (hd : Dead (k.table i).state → Dead s') :
    Sane o e (setProc k i f) q ∧
      ∀ j, ((setProc k i f).table j).state = if j = i then s' else (k.table j).state := by
  have hstate : ∀ j, ((setProc k i f).table j).state = if j = i then s' else (k.table j).state := by
    intro j
    by_cases hj : j = i
    · subst hj
      simp [setProc, hf]
    · simp [setProc, hj]
  refine ⟨⟨?_,?_,?_,h.bound,h.idle,h.pointers,h.worker,?_⟩,hstate⟩
  · apply queue_congr _ _ h.queue
    intro j hj
    have hji : j ≠ i := by
      rintro rfl
      exact hr ((h.ready j).mp hj).2
    simp [setProc, hji]
  · intro j
    rw [hstate, h.ready j]
    by_cases hj : j = i
    · simp [hj, hr, h1]
    · simp [hj]
  · intro j hj hrun
    rw [hstate] at hrun
    by_cases hji : j = i
    · simp [hji, h2] at hrun
    · exact h.running j hj (by simpa [hji] using hrun)
  · intro j he hdj
    have hdk := h.dead j he hdj
    rw [hstate]
    by_cases hji : j = i
    · rw [if_pos hji]
      rw [hji] at hdk
      exact hd hdk
    · rwa [if_neg hji]

theorem live_stop (h : Live o e c .running k) {i : ℕ} (f : Proc → Proc) {s' : State} (hi : i = c)
    (hf : ∀ x, (f x).state = s') (h1 : s' ≠ .ready) (h2 : s' ≠ .running) :
    Live o e c s' (setProc k i f) := by
  subst hi
  obtain ⟨q,hq,hc,hst⟩ := h
  obtain ⟨hq',hstate⟩ := sane_set_state hq i f s' (hf _) (by simp [hst]) h1 h2 (by simp [hst, Dead])
  exact ⟨q,hq',hc,by rw [hstate, if_pos rfl]⟩

theorem live_retire (h : Live o e c .running k) {i : ℕ} (f : Proc → Proc)
    (hi : Dead (k.table i).state) (hf : Dead (f (k.table i)).state) :
    Live o e c .running (setProc k i f) := by
  obtain ⟨q,hq,hc,hst⟩ := h
  have hne : ∀ s, Dead s → s ≠ .ready ∧ s ≠ .running := by
    rintro s (rfl | rfl | rfl) <;> simp
  obtain ⟨hq',hstate⟩ := sane_set_state hq i f _ rfl (hne _ hi).1 (hne _ hf).1 (hne _ hf).2 (fun _ => hf)
  refine ⟨q,hq',hc,?_⟩
  have hci : c ≠ i := by
    rintro rfl
    exact (hne _ hi).2 hst
  rw [hstate, if_neg hci, hst]

theorem live_block (h : Live o e c .running k) (hc : c ≠ idle) (d : Call) :
    ∃ c', Live o e c' .running (block k d) := by
  have hk : k.current = c := by
    obtain ⟨q,-,hk,-⟩ := h
    exact hk
  apply live_schedule _ (Or.inr hc) (s := .blocked)
  have hstop := live_stop h (fun x => { x with state := .blocked }) hk
    (fun _ => rfl) (by simp) (by simp)
  exact live_set_call hstop k.current d

theorem live_signal_send (h : Live o e c s k) (hs : s ≠ .blocked) (pid sig : ℕ) :
    Live o e c s (signalSend k pid sig) := by
  unfold signalSend
  by_cases hsig : sig < 1 ∨ 32 ≤ sig
  · rwa [if_pos hsig]
  rw [if_neg hsig]
  cases hg : processGetByPid k.table pid with
  | none => exact h
  | some t =>
    dsimp only
    by_cases ht : (k.table t).state = .terminated
    · rwa [if_pos ht]
    rw [if_neg ht]
    have hset := live_set_proc h t (fun x => { x with sigPending := x.sigPending ||| sigBit sig })
      (fun _ => rfl) (fun _ => rfl)
    exact live_wake_blocked hset hs (get_by_pid_some hg).1

theorem live_wake_parent (h : Live o e c s k) (hs : s ≠ .blocked) (pid ppid : ℕ) :
    Live o e c s (wakeParent k pid ppid) := by
  unfold wakeParent
  cases hg : processGetByPid k.table ppid with
  | none => exact h
  | some r =>
    dsimp only
    by_cases hw : (k.table r).waitForPid = 0 ∨ (k.table r).waitForPid = pid
    · rw [if_pos hw]
      exact live_wake_blocked h hs (get_by_pid_some hg).1
    · rwa [if_neg hw]

theorem live_zombie (h : Live o e c .running k) {i : ℕ} (hi : i = c) (code : ℤ) :
    Live o e c .zombie (becomeZombie k i code) :=
  live_stop h (fun x => { x with state := .zombie, exitCode := code }) hi
    (fun _ => rfl) (by simp) (by simp)

theorem live_signal_check_from (sigs : List ℕ) (h : Live o e c .running k) (hc : c ≠ idle) :
    ∃ c', Live o e c' .running (signalCheckFrom k c sigs) := by
  induction sigs generalizing k with
  | nil => exact ⟨c,h⟩
  | cons sig sigs ih =>
    unfold signalCheckFrom
    by_cases hp : (k.table c).sigPending &&& sigBit sig = 0
    · rw [if_pos hp]
      exact ih h
    rw [if_neg hp]
    have h1 := live_set_proc h c (fun x => { x with sigPending := x.sigPending &&& ~~~sigBit sig })
      (fun _ => rfl) (fun _ => rfl)
    generalize setProc k c (fun x => { x with sigPending := x.sigPending &&& ~~~sigBit sig }) = k1 at h1 ⊢
    by_cases hi : (k1.table c).sigHandlers sig = sigIgn
    · rw [if_pos hi]
      exact ih h1
    rw [if_neg hi]
    by_cases hd : (k1.table c).sigHandlers sig = sigDfl
    · rw [if_pos hd]
      by_cases hchld : sig = sigchld
      · rw [if_pos hchld]
        exact ih h1
      rw [if_neg hchld]
      have hz := live_zombie h1 rfl (128+sig)
      by_cases hk : sig ∈ killSignals
      · rw [if_pos hk]
        exact live_schedule (live_wake_parent hz (by simp) _ _) (Or.inr hc)
      · rw [if_neg hk]
        exact live_schedule hz (Or.inr hc)
    · rw [if_neg hd]
      exact ⟨c,live_set_proc h1 c (fun x => { x with inSignalHandler := true })
        (fun _ => rfl) (fun _ => rfl)⟩

theorem live_signal_check (h : Live o e c .running k) (hc : c ≠ idle) :
    ∃ c', Live o e c' .running (signalCheck k c) := by
  unfold signalCheck
  by_cases hu : (k.table c).isUser = false ∨ (k.table c).inSignalHandler = true
  · rw [if_pos hu]
    exact ⟨c,h⟩
  · rw [if_neg hu]
    exact live_signal_check_from signals h hc

theorem live_fault (h : Live o e c .running k) (hc : c ≠ idle) (sig : ℕ) :
    ∃ c', Live o e c' .running (killUserProcess k c sig) :=
  live_schedule (live_wake_parent (live_signal_send (live_zombie h rfl _) (by simp) _ _)
    (by simp) _ _) (Or.inr hc)

theorem live_reparent (h : Live o e c s k) (pid : ℕ) : Live o e c s (reparent k pid) := by
  refine live_frame h ?_ ?_ rfl rfl rfl (fun _ _ => Or.inl) (fun _ => Or.inl) <;>
  · intro i
    simp only [reparent]
    split <;> rfl

theorem live_exit (h : Live o e c .running k) (hk : k.current = c) (hc : c ≠ idle) (code : ℤ) :
    ∃ c', Live o e c' .running (exitProcess k code) :=
  live_schedule (live_wake_parent (live_reparent (live_signal_send (live_zombie h hk code)
    (by simp) _ _) _) (by simp) _ _) (Or.inr hc)

theorem find_zombie_state {t : Table} {cur childPid z : ℕ} (h : findZombie t cur childPid = some z) :
    z < maxProcesses ∧ (t z).state = .zombie ∧ (t z).ppid = cur ∧
      (childPid ≠ 0 → (t z).pid = childPid) := by
  unfold findZombie at h
  by_cases h0 : childPid = 0
  · rw [if_pos h0] at h
    have hp := List.find?_some h
    have hm := List.mem_range.mp (List.mem_of_find?_eq_some h)
    simp only [Bool.and_eq_true, beq_iff_eq] at hp
    exact ⟨hm,hp.1,hp.2,fun hne => absurd h0 hne⟩
  · rw [if_neg h0, Option.filter_eq_some_iff] at h
    obtain ⟨hg,hz⟩ := h
    obtain ⟨hlt,-,hpid⟩ := get_by_pid_some hg
    simp only [Bool.and_eq_true, beq_iff_eq] at hz
    exact ⟨hlt,hz.2,hz.1,fun _ => hpid⟩

theorem live_reap (h : Live o e c .running k) {z : ℕ} (hz : (k.table z).state = .zombie) :
    Live o e c .running (reap k z).1 :=
  live_retire h (fun x => { x with state := .unused }) (Or.inl hz) (Or.inr (Or.inl rfl))

theorem live_wait_for (h : Live o e c .running k) (hc : c ≠ idle) (childPid : ℕ) :
    ∃ c', Live o e c' .running (processWaitFor k childPid).1 := by
  unfold processWaitFor
  dsimp only
  cases hz : findZombie k.table (k.table k.current).pid childPid with
  | some z => exact ⟨c,live_reap h (find_zombie_state hz).2.1⟩
  | none =>
    by_cases hch : processHasChildren k.table (k.table k.current).pid = false
    · rw [if_pos hch]
      exact ⟨c,h⟩
    · rw [if_neg hch]
      have hset := live_set_proc h k.current (fun x => { x with waitForPid := childPid })
        (fun _ => rfl) (fun _ => rfl)
      exact live_block hset hc _

theorem live_wait_resume (h : Live o e c .running k) (childPid : ℕ) :
    Live o e c .running (processWaitResume k childPid).1 := by
  unfold processWaitResume
  cases hz : findZombie k.table (k.table k.current).pid childPid with
  | some z => exact live_reap h (find_zombie_state hz).2.1
  | none => exact h

theorem live_wait_on (h : Live o e c .running k) (hc : c ≠ idle) (w : Waiter) (d : Call) :
    ∃ c', Live o e c' .running (block (setWaiter k w (some k.current)) d) :=
  live_block (live_set_waiter h w (Or.inr rfl)) hc d

theorem live_pipe_read (h : Live o e c .running k) (hc : c ≠ idle) (p n : ℕ)
    (hw : ∀ w, readWakes k p = some w → Waits k w) :
    ∃ c', Live o e c' .running (pipeRead k p n).1 := by
  unfold pipeRead
  by_cases h0 : (k.pipes p).count = 0
  · rw [if_pos h0]
    by_cases hwr : (k.pipes p).writers = 0
    · rw [if_pos hwr]
      exact ⟨c,h⟩
    · rw [if_neg hwr]
      exact live_wait_on h hc _ _
  · rw [if_neg h0]
    have hwait : Waits k (.pipeWriter p) := hw _ (by rw [readWakes, if_neg h0])
    exact ⟨c,live_wake_waiter (live_set_pipe h p _) (by simp) hwait⟩

theorem live_pipe_write_loop (h : Live o e c .running k) (hc : c ≠ idle) (p : ℕ)
    (buf : List UInt8) (hw : ∀ w, writeWakes k p = some w → Waits k w) :
    ∃ c', Live o e c' .running (pipeWriteLoop k p buf).1 := by
  unfold pipeWriteLoop
  by_cases hfull : (k.pipes p).count = pipeBufSize
  · rw [if_pos hfull]
    by_cases hr : (k.pipes p).readers = 0
    · rw [if_pos hr]
      exact ⟨c,h⟩
    · rw [if_neg hr]
      exact live_wait_on h hc _ _
  · rw [if_neg hfull]
    have hwait : Waits k (.pipeReader p) := hw _ (by rw [writeWakes, if_neg hfull])
    exact ⟨c,live_wake_waiter (live_set_pipe h p _) (by simp) hwait⟩

theorem live_pipe_write (h : Live o e c .running k) (hc : c ≠ idle) {buf : List UInt8}
    (hw : Fresh k (.pipeWrite p buf)) : ∃ c', Live o e c' .running (pipeWrite k p buf).1 := by
  unfold pipeWrite
  by_cases hr : (k.pipes p).readers = 0
  · rw [if_pos hr]
    exact ⟨c,h⟩
  · rw [if_neg hr]
    apply live_pipe_write_loop h hc
    intro w hww
    exact hw w (by rw [woken, if_neg hr, hww])

theorem live_close_read (h : Live o e c .running k) {p : ℕ} (hw : Fresh k (.pipeCloseRead p)) :
    Live o e c .running (pipeCloseRead k p) := by
  unfold pipeCloseRead
  have h1 := live_set_pipe h p (fun x => { x with readers := x.readers-1 })
  by_cases hr : (k.pipes p).readers-1 = 0
  · rw [if_pos (by simpa [setPipe] using hr)]
    have hwait : Waits k (.pipeWriter p) := hw _ (by rw [woken, if_pos hr])
    exact live_wake_waiter h1 (by simp) hwait
  · rw [if_neg (by simpa [setPipe] using hr)]
    exact h1

theorem live_close_write (h : Live o e c .running k) {p : ℕ} (hw : Fresh k (.pipeCloseWrite p)) :
    Live o e c .running (pipeCloseWrite k p) := by
  unfold pipeCloseWrite
  have h1 := live_set_pipe h p (fun x => { x with writers := x.writers-1 })
  by_cases hr : (k.pipes p).writers-1 = 0
  · rw [if_pos (by simpa [setPipe] using hr)]
    have hwait : Waits k (.pipeReader p) := hw _ (by rw [woken, if_pos hr])
    exact live_wake_waiter h1 (by simp) hwait
  · rw [if_neg (by simpa [setPipe] using hr)]
    exact h1

theorem free_slot_some (t : Table) (i : ℕ) (h : freeSlot t = some i) :
    i < maxProcesses ∧ (t i).state = .unused := by
  have hp := List.find?_some h
  exact ⟨List.mem_range.mp (List.mem_of_find?_eq_some h),by simpa using hp⟩

theorem add_fresh (k : Kernel) (i : ℕ) (init : Proc) (pid n : ℕ) (s : State) :
    schedulerAdd { setCall (setProc k i fun _ => freshProc init pid) i .none with nextPid := n } i =
    schedulerAdd { setCall (setProc k i fun _ => { freshProc init pid with state := s }) i .none
      with nextPid := n } i := by
  simp [schedulerAdd, setProc, setCall]

theorem live_create (h : Live o (freeSlot k.table) c .running k) (init : Proc) :
    Live o (freeSlot k.table) c .running (create k init) := by
  unfold create
  cases hf : freeSlot k.table with
  | none => rwa [hf] at h
  | some i =>
    rw [hf] at h
    dsimp only
    obtain ⟨hi,hu⟩ := free_slot_some k.table i hf
    rw [add_fresh k i init _ _ .unused]
    have h1 := live_retire h (fun _ => { freshProc init k.nextPid with state := .unused })
      (Or.inr (Or.inl hu)) (Or.inr (Or.inl rfl))
    have h2 := live_set_call h1 i .none
    generalize hk1 : setCall (setProc k i fun _ => { freshProc init k.nextPid with state := .unused })
      i .none = k1 at h2 ⊢
    have hk1u : (k1.table i).state = .unused := by simp [← hk1, setCall, setProc]
    obtain ⟨q,hq,hc,hst⟩ := h2
    have hq' : Sane o (some i) { k1 with nextPid := (k.nextPid+1) % 2^32 } q :=
      sane_frame hq (fun _ => rfl) (fun _ => rfl) rfl rfl rfl hq.pointers hq.worker
    have hic : i ≠ c := by
      rintro rfl
      rw [hk1u] at hst
      cases hst
    have hiq : i ∉ q := by
      intro hm
      have := ((hq.ready i).mp hm).2
      rw [hk1u] at this
      cases this
    refine ⟨q++[i],sane_add hq' hi hiq (by rw [hc]; exact hic) (Or.inr rfl),by rw [add_current, hc],?_⟩
    rw [add_state, if_neg hic.symm, hst]

theorem live_create_fails (h : Live o e c .running k) (init : Proc) (fork : Bool) :
    Live o e c .running (createFails k init fork) := by
  unfold createFails
  cases hf : freeSlot k.table with
  | none => exact h
  | some i =>
    obtain ⟨-,hu⟩ := free_slot_some k.table i hf
    have hdead : Dead (if fork = true then ({ pid := k.nextPid } : Proc)
        else { freshProc init k.nextPid with state := .terminated, ppid := 0 }).state := by
      cases fork <;> simp [Dead]
    have h1 := live_retire h (fun _ => if fork = true then ({ pid := k.nextPid } : Proc)
        else { freshProc init k.nextPid with state := .terminated, ppid := 0 })
      (Or.inr (Or.inl hu)) hdead
    exact live_frame h1 (fun _ => rfl) (fun _ => rfl) rfl rfl rfl (fun _ _ => Or.inl)
      (fun _ => Or.inl)

theorem live_resume (h : Live o e c .running k) (hc : c ≠ idle)
    (hw : Fresh k .resume) : ∃ c', Live o e c' .running (resumeCall k) := by
  unfold resumeCall
  dsimp only
  have h1 := live_set_call h k.current .none
  cases hcall : k.call k.current with
  | none => exact ⟨c,h1⟩
  | waitFor p => exact ⟨c,live_wait_resume h1 p⟩
  | pipeRead p n =>
    apply live_pipe_read h1 hc
    intro w hww
    exact hw w (by rw [woken, hcall]; exact hww)
  | pipeWrite p buf =>
    apply live_pipe_write_loop h1 hc
    intro w hww
    exact hw w (by rw [woken, hcall]; exact hww)
  | epollWait | other => exact ⟨c,h1⟩

theorem live_start (h : Good k) (e : Option ℕ) : Live k e k.current .running k := by
  obtain ⟨q,hq,hc,hs⟩ := h
  exact ⟨q,{ hq with dead := fun _ _ => id },hc,hs⟩

theorem good_of_live (h : Live o e c .running k) : Good k := by
  obtain ⟨q,hq,hc,hs⟩ := h
  exact ⟨q,{ hq with dead := fun _ _ => id },rfl,by rw [hc, hs]⟩

theorem step_live {k : Kernel} {a : Action} (hg : Good k) (he : enabled k a = true)
    (hf : Fresh k a) : ∃ c, Live k (created k a) c .running (act k a) := by
  have h := live_start hg (created k a)
  have hrun : State.running ≠ State.blocked := by simp
  cases a with
  | tick => exact live_schedule h (Or.inl rfl)
  | create init => exact ⟨_,live_create h init⟩
  | createFails init fork => exact ⟨_,live_create_fails h init fork⟩
  | signalSend pid sig => exact ⟨_,live_signal_send h hrun pid sig⟩
  | sigaction sig handler =>
    refine ⟨k.current,?_⟩
    simp only [act]
    split_ifs
    · exact h
    · exact live_set_proc h _ (fun x => { x with
        sigHandlers := update x.sigHandlers sig handler }) (fun _ => rfl) (fun _ => rfl)
  | sigreturn =>
    exact ⟨_,live_set_proc h _ (fun x => { x with inSignalHandler := false })
      (fun _ => rfl) (fun _ => rfl)⟩
  | signalCheck =>
    simp only [enabled, Bool.and_eq_true, bne_iff_ne] at he
    exact live_signal_check h he.1
  | fault sig =>
    simp only [enabled, Bool.and_eq_true, bne_iff_ne] at he
    exact live_fault h he.1 sig
  | exit code =>
    simp only [enabled, Bool.and_eq_true, bne_iff_ne] at he
    exact live_exit h rfl he.1 code
  | waitFor p =>
    simp only [enabled, Bool.and_eq_true, bne_iff_ne] at he
    exact live_wait_for h he.1 p
  | pipeRead p n =>
    simp only [enabled, Bool.and_eq_true, bne_iff_ne] at he
    exact live_pipe_read h he.1 p n hf
  | pipeWrite p buf =>
    simp only [enabled, Bool.and_eq_true, bne_iff_ne] at he
    exact live_pipe_write h he.1 hf
  | pipeCloseRead p => exact ⟨_,live_close_read h hf⟩
  | pipeCloseWrite p => exact ⟨_,live_close_write h hf⟩
  | pipeIncRef p type =>
    refine ⟨k.current,?_⟩
    simp only [act]
    exact live_set_pipe h p _
  | sleep w =>
    cases w with
    | none =>
      simp only [enabled, Bool.and_eq_true, bne_iff_ne] at he
      exact live_block h he.1 _
    | some w =>
      simp only [enabled, Bool.and_eq_true, bne_iff_ne] at he
      exact live_wait_on h he.1.2 w _
  | epollWait =>
    simp only [enabled, Bool.and_eq_true, bne_iff_ne] at he
    exact live_block h he.1 _
  | netWorkerWait =>
    simp only [enabled, Bool.and_eq_true, bne_iff_ne] at he
    have h1 : Live k none k.current .running { k with netWorker := some k.current } :=
      live_frame h (fun _ => rfl) (fun _ => rfl) rfl rfl rfl (fun _ _ => Or.inl)
        (fun _ hp => Or.inr (Option.some.inj hp).symm)
    exact live_block h1 he.1 _
  | pingStart => exact ⟨_,live_set_waiter h _ (Or.inr rfl)⟩
  | arpDone => exact ⟨_,live_set_waiter h _ (Or.inl rfl)⟩
  | resume =>
    simp only [enabled, Bool.and_eq_true, bne_iff_ne] at he
    exact live_resume h he.1 hf
  | wake w => exact ⟨_,live_wake_waiter h hrun (hf w rfl)⟩
  | netReceive =>
    refine ⟨k.current,?_⟩
    simp only [act]
    cases hp : k.netWorker with
    | none => exact h
    | some p =>
      have hlt : p < maxProcesses := by
        obtain ⟨q,hq,-⟩ := h
        exact hq.worker p hp
      exact live_wake_blocked h hrun hlt
  | epollWake i =>
    refine ⟨k.current,?_⟩
    simp only [act]
    split_ifs
    · exact live_wake_blocked h hrun (by simpa [enabled] using he)
    · exact h

theorem boot_good : Good boot := by
  refine ⟨[],⟨⟨rfl,rfl,List.nodup_nil⟩,?_,?_,by decide,Or.inl rfl,by simp [boot],by simp [boot],
    fun _ _ => id⟩,rfl,rfl⟩
  · intro i
    by_cases hi : i = idle <;> simp [boot, hi]
  · intro i _ hr
    by_contra hne
    have hne' : i ≠ idle := hne
    simp [boot, hne'] at hr

theorem reach_good {k : Kernel} (h : Reach Fresh k) : Good k := by
  apply reach_invariant Fresh Good boot_good _ h
  intro k a hg he hf
  obtain ⟨c,hc⟩ := step_live hg he hf
  exact good_of_live hc

/-- In a run in which every unchecked wake-up finds a blocked process, the
ready queue holds each ready process once and nothing else, and no step but
the creation in its slot makes a dead process ready. -/
theorem ready_queue_intact (k : Kernel) (h : Reach Fresh k) :
    Intact k ∧ ∀ a, enabled k a = true → Fresh k a → ∀ i, created k a ≠ some i →
      Dead (k.table i).state → Dead ((act k a).table i).state := by
  have hg := reach_good h
  constructor
  · obtain ⟨q,hq,-⟩ := hg
    exact ⟨q,hq.queue,hq.ready⟩
  · intro a he hf i hi hd
    obtain ⟨c,q,hq,-⟩ := step_live hg he hf
    exact hq.dead i hi hd

def runFrom (k : Kernel) : List Action → Kernel
  | [] => k
  | a::as => runFrom (act k a) as

def Runs (P : Kernel → Action → Prop) (k : Kernel) : List Action → Prop
  | [] => True
  | a::as => enabled k a = true ∧ P k a ∧ Runs P (act k a) as

theorem reach_run (P : Kernel → Action → Prop) (k : Kernel) (as : List Action) (hk : Reach P k)
    (h : Runs P k as) : Reach P (runFrom k as) := by
  induction as generalizing k with
  | nil => exact hk
  | cons a as ih => exact ih (act k a) (Reach.step k a hk h.1 h.2.1) h.2.2

theorem fresh_none {k : Kernel} {a : Action} (h : woken k a = none) : Fresh k a := by
  intro w hw
  rw [h] at hw
  cases hw

theorem fresh_some (k : Kernel) (a : Action) (w : Waiter) (p : ℕ) (h : woken k a = some w)
    (hp : k.waiters w = some p) (hs : (k.table p).state = .blocked) : Fresh k a := by
  intro v hv r hr
  rw [h] at hv
  cases hv
  rw [hp] at hr
  cases hr
  exact hs

def userProc : Proc := { isUser := true, ppid := 1 }

def readerBlocks : List Action :=
  [.create userProc, .create userProc, .tick, .pipeRead 0 1]

/-- The blocked reader gets a signal, then the other process writes to the pipe. -/
def wokenTwice : List Action := readerBlocks++[.signalSend 2 10, .pipeWrite 0 [7]]

/-- A receive that a fatal signal ends leaves its pointer behind. -/
def killedReceiver : List Action :=
  [.create userProc, .tick, .sleep (some (.tcpReader 0)), .signalSend 2 9, .tick, .resume,
    .signalCheck]

/-- With stale pointers the queue becomes a cycle through the process woken
twice, and a packet makes a zombie ready. -/
theorem stale_pointer_breaks_queue :
    (Reach (fun _ _ => True) (runFrom boot wokenTwice) ∧ ¬Intact (runFrom boot wokenTwice)) ∧
    (Reach (fun _ _ => True) (runFrom boot killedReceiver) ∧
      enabled (runFrom boot killedReceiver) (.wake (.tcpReader 0)) = true ∧
      ((runFrom boot killedReceiver).table 1).state = .zombie ∧
      ((act (runFrom boot killedReceiver) (.wake (.tcpReader 0))).table 1).state = .ready) := by
  refine ⟨⟨reach_run _ boot _ .boot ?_,?_⟩,reach_run _ boot _ .boot ?_,?_,?_,?_⟩
  · simp only [wokenTwice, readerBlocks, List.cons_append, List.nil_append, Runs, true_and, and_true]
    decide
  · rintro ⟨q,hq,hready⟩
    have hmem : 1 ∈ q := (hready 1).mpr (by decide)
    exact next_ne_self _ _ q 1 hq.linked hq.nodup hmem (by decide)
  · simp only [killedReceiver, Runs, true_and, and_true]
    decide
  · decide
  · decide
  · decide

/-- The same blocked reader, woken by the write alone. -/
theorem ready_queue_intact_pipe :
    Reach Fresh (runFrom boot (readerBlocks++[.pipeWrite 0 [7]])) ∧
    Intact (runFrom boot (readerBlocks++[.pipeWrite 0 [7]])) := by
  have h : Reach Fresh (runFrom boot (readerBlocks++[.pipeWrite 0 [7]])) := by
    apply reach_run _ boot _ .boot
    refine ⟨by decide,fresh_none rfl,by decide,fresh_none rfl,by decide,fresh_none rfl,
      by decide,fresh_none (by decide),by decide,?_,trivial⟩
    exact fresh_some _ _ (.pipeReader 0) 1 (by decide) (by decide) (by decide)
  exact ⟨h,(ready_queue_intact _ h).1⟩

end HobbyOS.ReadyQueue
