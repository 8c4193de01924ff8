import HobbyOS.ReadyQueue
import HobbyOS.HashChain

/-!
# The order of the ready queue

Runs of `scheduler_add` and `schedule` alone, from the state `scheduler_init`
leaves. Two lists are kept beside the kernel: the processes in the order in
which they were added, and those `schedule` has switched to. The queue is what
the first has beyond the second.
-/

namespace HobbyOS.RoundRobin
open Process Scheduler ReadyQueue IntrusiveQueue

inductive Op where
  | add (p : ℕ)
  | schedule
  /-- the current process sets its own state and calls `schedule` -/
  | stop (s : State)

def step (k : Kernel) : Op → Kernel
  | .add p => schedulerAdd k p
  | .schedule => schedule k
  | .stop s => schedule (setProc k k.current fun x => { x with state := s })

def Queued (k : Kernel) (p : ℕ) : Prop := ∃ q, Linked (fun i => (k.table i).next) k.head q ∧ p ∈ q

/-- Added is a process that is neither current nor queued, and `schedule` is
called by a process that runs or has just set itself blocked or zombie. -/
def Allowed (k : Kernel) : Op → Prop
  | .add p => p < maxProcesses ∧ p ≠ k.current ∧ ¬Queued k p
  | .schedule => (k.table k.current).state = .running
  | .stop s => (k.table k.current).state = .running ∧ (s = .blocked ∨ s = .zombie)

def Awake (k : Kernel) : Op → Prop
  | .stop _ => k.current ≠ idle
  | _ => True

def Runs (P : Kernel → Op → Prop) : Kernel → List Op → Prop
  | _, [] => True
  | k, op::ops => P k op ∧ Runs P (step k op) ops

def Good (k : Kernel) (op : Op) : Prop := Allowed k op ∧ Awake k op

structure Trace where
  kernel : Kernel
  added : List ℕ
  chosen : List ℕ

def adds (k : Kernel) : Op → List ℕ
  | .add p => [p]
  | .schedule => if k.head = none then [] else [k.current]
  | .stop _ => []

def chooses (k : Kernel) : Op → List ℕ
  | .add _ => []
  | _ => k.head.toList

def advance (t : Trace) (op : Op) : Trace where
  kernel := step t.kernel op
  added := t.added++adds t.kernel op
  chosen := t.chosen++chooses t.kernel op

def start : Trace := ⟨boot,[],[]⟩

def run (t : Trace) (ops : List Op) : Trace := ops.foldl advance t

def calls : List Op → ℕ
  | [] => 0
  | .add _::ops => calls ops
  | _::ops => calls ops+1

/-- The queue is a list of exactly the ready processes in the order they were
added, and idle waits in it unless it is the one that runs. -/
structure InOrder (t : Trace) (q : List ℕ) : Prop where
  queue : Queue (fun i => (t.kernel.table i).next) t.kernel.head t.kernel.tail q
  order : t.added = t.chosen++q
  ready : ∀ i, i ∈ q ↔ i < maxProcesses ∧ (t.kernel.table i).state = .ready
  idle : t.kernel.current ≠ idle → idle ∈ q

def alive : Kernel := { boot with table := fun _ => { state := .running } }

variable {k : Kernel} {q : List ℕ}

theorem sane_any {e e' : Option ℕ} (h : Sane alive e k q) : Sane alive e' k q :=
  { h with dead := fun i _ hd => by rcases hd with hd | hd | hd <;> cases hd }

structure Ready (k : Kernel) (q : List ℕ) : Prop where
  sane : Sane alive none k q
  running : (k.table k.current).state = .running

theorem queued_iff (h : Ready k q) (p : ℕ) : Queued k p ↔ p ∈ q := by
  constructor
  · rintro ⟨q',hl,hp⟩
    rwa [HashChain.linked_unique _ _ _ _ h.sane.queue.linked hl]
  · exact fun hp => ⟨q,h.sane.queue.linked,hp⟩

theorem ready_add (h : Ready k q) {p : ℕ} (ha : Allowed k (.add p)) : Ready (schedulerAdd k p) (q++[p]) := by
  obtain ⟨hp,hc,hq⟩ := ha
  rw [queued_iff h] at hq
  refine ⟨sane_any (sane_add (sane_any h.sane) hp hq hc (.inr rfl)),?_⟩
  rw [add_current, add_state, if_neg hc.symm]
  exact h.running

theorem ready_schedule {n : ℕ} (h : Ready k (n::q)) :
    Ready (schedule k) (q++[k.current]) ∧ (schedule k).current = n := by
  obtain ⟨hs,hn⟩ := sane_rotate h.sane h.running
  refine ⟨⟨hs,?_⟩,hn⟩
  rw [hn]
  exact schedule_running k n h.sane.queue.linked.1

theorem ready_idle (h : Ready k []) : schedule k = k ∧ k.current = idle :=
  ⟨schedule_empty h.sane,by simpa using h.sane.idle⟩

theorem ready_stop (h : Ready k q) {s : State} (ha : Good k (.stop s)) :
    ∃ n q', q = n::q' ∧ Ready (step k (.stop s)) q' ∧ (step k (.stop s)).current = n := by
  obtain ⟨⟨-,hs⟩,hidle⟩ := ha
  have hne : s ≠ .ready ∧ s ≠ .running := by rcases hs with rfl | rfl <;> decide
  obtain ⟨hstop,hstate⟩ := sane_set_state h.sane k.current (fun x => { x with state := s }) s rfl
    (by rw [h.running]; decide) hne.1 hne.2 (by rw [h.running]; simp [Dead])
  cases q with
  | nil => exact absurd (by simpa using h.sane.idle) hidle
  | cons n q =>
    obtain ⟨hsane,hn⟩ := sane_next hstop (by rw [set_proc_current, hstate, if_pos rfl]; exact hne.2) hidle
    refine ⟨n,q,rfl,⟨hsane,?_⟩,hn⟩
    change ((schedule _).table (schedule _).current).state = _
    rw [hn]
    exact schedule_running _ n hstop.queue.linked.1

theorem ready_step (h : Ready k q) (op : Op) (hg : Good k op) :
    ∃ q', Ready (step k op) q' ∧ q++adds k op = chooses k op++q' ∧
      (chooses k op = [] ∧ (step k op).current = k.current ∨ chooses k op = [(step k op).current]) := by
  cases op with
  | add p => exact ⟨q++[p],ready_add h hg.1,rfl,.inl ⟨rfl,add_current k p⟩⟩
  | schedule =>
    cases q with
    | nil =>
      have hhead : k.head = none := (empty_iff _ h.sane.queue).mpr rfl
      have hsame : step k .schedule = k := (ready_idle h).1
      rw [hsame]
      exact ⟨[],h,by simp [adds, chooses, hhead],.inl ⟨by simp [chooses, hhead],rfl⟩⟩
    | cons n q =>
      have hhead : k.head = some n := h.sane.queue.linked.1
      obtain ⟨hr,hn⟩ := ready_schedule h
      refine ⟨q++[k.current],hr,?_,.inr ?_⟩ <;> simp [adds, chooses, hhead, step, hn]
  | stop s =>
    obtain ⟨n,q',rfl,hr,hn⟩ := ready_stop h hg
    have hhead : k.head = some n := h.sane.queue.linked.1
    refine ⟨q',hr,?_,.inr ?_⟩ <;> simp [adds, chooses, hhead, hn]

def after (k : Kernel) (ops : List Op) : Kernel := ops.foldl step k

theorem kept_run (t : Trace) (q : List ℕ) (ops : List Op) (h : Ready t.kernel q) (ho : t.added = t.chosen++q)
    (hr : Runs Good t.kernel ops) :
    ∃ q', Ready (run t ops).kernel q' ∧ (run t ops).added = (run t ops).chosen++q' := by
  induction ops generalizing t q with
  | nil => exact ⟨q,h,ho⟩
  | cons op ops ih =>
    obtain ⟨q',hq',hsplit,-⟩ := ready_step h op hr.1
    refine ih (advance t op) q' hq' ?_ hr.2
    change t.added++adds t.kernel op = t.chosen++chooses t.kernel op++q'
    rw [ho, List.append_assoc, List.append_assoc, hsplit]

theorem away_run (c : ℕ) (k : Kernel) (q : List ℕ) (ops : List Op) (h : Ready k q) (hc : k.current ≠ c)
    (hq : c ∉ q) (hr : Runs Good k ops) (hadd : .add c ∉ ops) : (after k ops).current ≠ c := by
  induction ops generalizing k q with
  | nil => exact hc
  | cons op ops ih =>
    obtain ⟨q',hq',hsplit,hcur⟩ := ready_step h op hr.1
    rw [List.mem_cons, not_or] at hadd
    have hout : c ∉ q++adds k op := by
      rw [List.mem_append, not_or]
      refine ⟨hq,?_⟩
      cases op with
      | add p =>
        rw [adds, List.mem_singleton]
        rintro rfl
        exact hadd.1 rfl
      | schedule =>
        unfold adds
        split_ifs
        · exact List.not_mem_nil
        · rw [List.mem_singleton]
          exact hc.symm
      | stop s => exact List.not_mem_nil
    rw [hsplit, List.mem_append, not_or] at hout
    refine ih (step k op) q' hq' ?_ hout.2 hr.2 hadd.2
    rcases hcur with ⟨-,hsame⟩ | hone
    · rwa [hsame]
    · rintro rfl
      exact hout.1 (by rw [hone]; exact List.mem_singleton_self _)

theorem turn_run (p : ℕ) (k : Kernel) (xs ys : List ℕ) (ops : List Op) (h : Ready k (xs++p::ys))
    (hn : calls ops ≤ xs.length) (hr : Runs Good k ops) :
    ∃ ys', Ready (after k ops) (xs.drop (calls ops)++p::ys') := by
  induction ops generalizing k xs ys with
  | nil => exact ⟨ys,h⟩
  | cons op ops ih =>
    obtain ⟨q',hq',hsplit,-⟩ := ready_step h op hr.1
    by_cases hop : calls (op::ops) = calls ops
    · have hnone : chooses k op = [] := by
        cases op with
        | add p => rfl
        | schedule | stop => exact absurd hop (Nat.succ_ne_self _)
      rw [hnone, List.nil_append, List.append_assoc] at hsplit
      rw [hop] at hn ⊢
      rw [← hsplit] at hq'
      exact ih (step k op) xs (ys++adds k op) hq' hn hr.2
    · have hcall : calls (op::ops) = calls ops+1 ∧ chooses k op = k.head.toList := by
        cases op with
        | add p => exact absurd rfl hop
        | schedule | stop => exact ⟨rfl,rfl⟩
      rw [hcall.1] at hn ⊢
      cases xs with
      | nil => simp at hn
      | cons x xs =>
        have hhead : k.head = some x := h.sane.queue.linked.1
        rw [hcall.2, hhead] at hsplit
        have hsplit : xs++p::ys++adds k op = q' := List.cons.inj hsplit |>.2
        rw [← hsplit, List.append_assoc] at hq'
        exact ih (step k op) xs (ys++adds k op) hq' (by simpa using hn) hr.2

theorem runs_append (P : Kernel → Op → Prop) (k : Kernel) (ops rest : List Op) (h : Runs P k (ops++rest)) :
    Runs P k ops ∧ Runs P (after k ops) rest := by
  induction ops generalizing k with
  | nil => exact ⟨trivial,h⟩
  | cons op ops ih => exact ⟨⟨h.1,(ih _ h.2).1⟩,(ih _ h.2).2⟩

/-- A process that stops is left, and is not come back to before it is added. -/
def SwitchesAway (k : Kernel) : Prop :=
  ∀ s rest, Runs Good k (.stop s::rest) → .add k.current ∉ rest → (after k (.stop s::rest)).current ≠ k.current

/-- A ready process runs at the call after as many as there are ahead of it. -/
def TakesTurns (k : Kernel) (q : List ℕ) : Prop :=
  ∀ xs p ys ops op, q = xs++p::ys → calls ops = xs.length → calls [op] = 1 → Runs Good k (ops++[op]) →
    (after k (ops++[op])).current = p

theorem ready_boot : Ready boot [] := by
  refine ⟨⟨⟨rfl,rfl,List.nodup_nil⟩,?_,?_,by decide,.inl rfl,?_,?_,?_⟩,rfl⟩
  · intro i
    simp only [List.not_mem_nil, false_iff, not_and]
    intro _
    change (if i = idle then _ else _ : Proc).state ≠ _
    split_ifs <;> decide
  · intro i _ hrun
    by_contra hne
    rw [show boot.table i = {} from if_neg hne] at hrun
    cases hrun
  · intro w p hw
    cases hw
  · intro p hp
    cases hp
  · rintro i _ (hd | hd | hd) <;> cases hd

/-- As long as the idle process does not stop itself, the queue is intact and
in order, a process that stops is left, and every ready process has its turn. -/
theorem scheduler_contract (ops : List Op) (h : Runs Good boot ops) :
    ∃ q, InOrder (run start ops) q ∧ SwitchesAway (run start ops).kernel ∧ TakesTurns (run start ops).kernel q := by
  obtain ⟨q,hq,ho⟩ := kept_run start [] ops ready_boot rfl h
  refine ⟨q,⟨hq.sane.queue,ho,hq.sane.ready,hq.sane.idle.resolve_left⟩,?_,?_⟩
  · intro s rest hr hadd
    obtain ⟨n,q',rfl,hq',hn⟩ := ready_stop hq hr.1
    have hnot : ∀ i ∈ n::q', i ≠ (run start ops).kernel.current := by
      rintro i hi rfl
      have hready := ((hq.sane.ready _).mp hi).2
      rw [hq.running] at hready
      cases hready
    refine away_run _ _ q' rest hq' ?_ (fun hi => hnot _ (List.mem_cons_of_mem n hi) rfl) hr.2 hadd
    rw [hn]
    exact hnot n List.mem_cons_self
  · intro xs p ys ops' op hsplit hcalls hop hr
    obtain ⟨hr1,hr2,-⟩ := runs_append Good _ ops' [op] hr
    rw [hsplit] at hq
    obtain ⟨ys',hq'⟩ := turn_run p _ xs ys ops' hq hcalls.le hr1
    rw [hcalls, List.drop_length] at hq'
    obtain ⟨q'',-,hs,hcur⟩ := ready_step hq' op hr2
    have hhead : (after (run start ops).kernel ops').head = some p := hq'.sane.queue.linked.1
    have hchoose : chooses (after (run start ops).kernel ops') op = [p] := by
      cases op with
      | add p => cases hop
      | schedule | stop => exact congrArg Option.toList hhead
    rw [hchoose] at hcur
    rcases hcur with ⟨hnil,-⟩ | hone
    · cases hnil
    · rw [after, List.foldl_append]
      exact (List.cons.inj hone).1.symm

/-- Process 1 is added, and idle gives way to it. -/
theorem scheduler_contract_first : ∃ q, InOrder (run start [.add 1,.schedule]) q ∧
    SwitchesAway (run start [.add 1,.schedule]).kernel ∧ TakesTurns (run start [.add 1,.schedule]).kernel q := by
  refine scheduler_contract [.add 1,.schedule] ⟨⟨⟨by decide,by decide,?_⟩,trivial⟩,⟨?_,trivial⟩,trivial⟩
  · rw [queued_iff ready_boot]
    exact List.not_mem_nil
  · change ((schedulerAdd boot 1).table idle).state = .running
    decide

/-- Idle stops itself with an empty queue and goes on as a blocked process. -/
theorem idle_stops : Runs Allowed boot [.stop .blocked] ∧ (after boot [.stop .blocked]).current = boot.current ∧
    ((after boot [.stop .blocked]).table boot.current).state = .blocked :=
  ⟨⟨⟨rfl,.inl rfl⟩,trivial⟩,rfl,rfl⟩

end HobbyOS.RoundRobin
