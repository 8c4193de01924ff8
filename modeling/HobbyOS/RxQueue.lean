import HobbyOS.Process
import HobbyOS.RingBuffer

/-!
# The queue of received frames

The interrupt of the network card appends to a ring of 64 places, the worker
takes from it and sleeps when it is empty. The interrupt can fall between any
two steps of the worker at which interrupts are enabled, and at any time while
the worker is off the processor.
-/

namespace HobbyOS.RxQueue
open Process RingBuffer Function

variable {F : Type}

def queueSize : ℕ := 64

inductive Pc (F : Type) where
  | start
  | test
  | fetch
  | advance (nb : F)
  | deliver (nb : F)
  | receiving
  | cli
  | retest
  | register
  | sleep
  | schedule
  | woken
  | sti

/-- A frame given to `net_rx_enqueue`, how many were queued then, and whether
it was kept. -/
structure Arrival (F : Type) where
  frame : F
  queued : ℕ
  kept : Bool

structure Rx (F : Type) where
  rxQueue : ℕ → F
  rxHead : ℕ := 0
  rxTail : ℕ := 0
  /-- whether `net_worker_proc` is set -/
  registered : Bool := false
  state : State := .ready
  pc : Pc F := .start
  onCpu : Bool := false
  /-- the interrupt flag of the worker -/
  enabled : Bool := false
  arrivals : List (Arrival F) := []
  received : List F := []

variable (s : Rx F) (ring : ℕ → F)

def queued : ℕ := (s.rxTail+queueSize-s.rxHead) % queueSize

def waiting : List F := contents s.rxQueue queueSize s.rxHead (queued s)

def inHand : Pc F → List F
  | .deliver nb => [nb]
  | _ => []

/-- The second component: the frame is released and not queued. -/
def netRxEnqueue (nb : F) : Rx F × Bool :=
  let next := (s.rxTail+1) % queueSize
  if next = s.rxHead then (s,true)
  else
    ({ s with
        rxQueue := update s.rxQueue s.rxTail nb, rxTail := next
        state := if s.registered = true ∧ s.state = .blocked then .ready else s.state },false)

def interrupt (nb : F) : Rx F :=
  let r := netRxEnqueue s nb
  { r.1 with arrivals := s.arrivals++[⟨nb,queued s,!r.2⟩] }

/-- One step of the worker. Here `schedule` finds no other process and returns
at once. -/
def work : Rx F :=
  match s.pc with
  | .start => { s with enabled := true, pc := .test }
  | .test => { s with pc := if s.rxHead ≠ s.rxTail then .fetch else .cli }
  | .fetch => { s with pc := .advance (s.rxQueue s.rxHead) }
  | .advance nb => { s with rxHead := (s.rxHead+1) % queueSize, pc := .deliver nb }
  | .deliver nb => { s with received := s.received++[nb], pc := .receiving }
  | .receiving => { s with pc := .test }
  | .cli => { s with enabled := false, pc := .retest }
  | .retest => { s with pc := if s.rxHead = s.rxTail then .register else .sti }
  | .register => { s with registered := true, pc := .sleep }
  | .sleep => { s with state := .blocked, pc := .schedule }
  | .schedule => { s with pc := .woken }
  | .woken => { s with enabled := true, pc := .test }
  | .sti => { s with enabled := true, pc := .test }

inductive Act (F : Type) where
  | interrupt (nb : F)
  | work
  /-- `schedule` switches to another process -/
  | leave
  /-- `schedule` finds the worker itself in the queue of ready processes -/
  | again
  /-- `ethernet_receive` sets the state and the interrupt flag -/
  | inside (state : State) (enabled : Bool)
  | preempt
  | dispatch (enabled : Bool)

/-- An action that is not possible changes nothing. -/
def step : Act F → Rx F
  | .interrupt nb => if s.onCpu && !s.enabled then s else interrupt s nb
  | .work => if s.onCpu then work s else s
  | .leave =>
    if s.onCpu then
      match s.pc with
      | .schedule => { s with onCpu := false, pc := .woken }
      | .receiving => { s with onCpu := false }
      | _ => s
    else s
  | .again =>
    if s.onCpu then
      match s.pc with
      | .schedule => { s with state := .running, pc := .woken }
      | _ => s
    else s
  | .inside state enabled =>
    if s.onCpu then
      match s.pc with
      | .receiving => { s with state := state, enabled := enabled }
      | _ => s
    else s
  | .preempt =>
    if s.onCpu && s.enabled then
      { s with onCpu := false, state := if s.state = .running then .ready else s.state }
    else s
  | .dispatch enabled =>
    if s.onCpu then s
    else { s with onCpu := true, state := .running, enabled := s.enabled || enabled }

def boot : Rx F := { rxQueue := ring }

def run (acts : List (Act F)) : Rx F := acts.foldl step (boot ring)

def Placed : Prop :=
  match s.pc with
  | .fetch => 0 < queued s
  | .advance nb => 0 < queued s ∧ nb = s.rxQueue s.rxHead
  | .retest => s.onCpu = true ∧ s.enabled = false
  | .register => s.onCpu = true ∧ s.enabled = false ∧ queued s = 0
  | .sleep | .schedule => s.onCpu = true ∧ s.enabled = false ∧ queued s = 0 ∧ s.registered = true
  | .woken => s.registered = true ∧ (s.state = .blocked → queued s = 0)
  | _ => True

structure Inv (s : Rx F) : Prop where
  head : s.rxHead < queueSize
  tail : s.rxTail < queueSize
  placed : Placed s
  order : (s.arrivals.filter (·.kept)).map (·.frame) = s.received++inHand s.pc++waiting s
  drops : ∀ a ∈ s.arrivals, a.kept = false → a.queued = queueSize-1

theorem queued_lt : queued s < queueSize := Nat.mod_lt _ (by decide)

theorem queued_zero_iff (hh : s.rxHead < queueSize) (ht : s.rxTail < queueSize) :
    queued s = 0 ↔ s.rxHead = s.rxTail := by
  unfold queued queueSize at *
  omega

theorem tail_eq (hh : s.rxHead < queueSize) (ht : s.rxTail < queueSize) :
    (s.rxHead+queued s) % queueSize = s.rxTail := by
  unfold queued queueSize at *
  omega

theorem full_iff (hh : s.rxHead < queueSize) (ht : s.rxTail < queueSize) :
    (s.rxTail+1) % queueSize = s.rxHead ↔ queued s = queueSize-1 := by
  unfold queued queueSize at *
  omega

theorem queued_put (hh : s.rxHead < queueSize) (ht : s.rxTail < queueSize)
    (hfull : ¬(s.rxTail+1) % queueSize = s.rxHead) :
    queued { s with rxTail := (s.rxTail+1) % queueSize } = queued s+1 := by
  unfold queued queueSize at *
  dsimp only
  omega

theorem waiting_enqueue (nb : F) (hh : s.rxHead < queueSize) (ht : s.rxTail < queueSize)
    (hfull : ¬(s.rxTail+1) % queueSize = s.rxHead) :
    (netRxEnqueue s nb).2 = false ∧ waiting (netRxEnqueue s nb).1 = waiting s++[nb] := by
  unfold netRxEnqueue
  simp only [if_neg hfull, true_and]
  have hcont := contents_put s.rxQueue queueSize s.rxHead (queued s) nb (queued_lt s)
  rw [tail_eq s hh ht, ← queued_put s hh ht hfull] at hcont
  exact hcont

theorem inv_boot : Inv (boot ring) :=
  ⟨Nat.succ_pos 63,Nat.succ_pos 63,trivial,by simp [boot, inHand, waiting, queued, contents],fun a ha => absurd ha List.not_mem_nil⟩

/-- The interrupt appends, or drops the frame when the ring is full. Where the
worker relies on the ring it adds to it or cannot happen. -/
theorem inv_interrupt (nb : F) (h : Inv s) (hon : ¬(s.onCpu && !s.enabled) = true) :
    Inv (interrupt s nb) := by
  have hopen : s.onCpu = true → s.enabled = true := by
    intro h1
    simpa [h1] using hon
  unfold interrupt
  by_cases hfull : (s.rxTail+1) % queueSize = s.rxHead
  · simp only [netRxEnqueue, if_pos hfull]
    refine ⟨h.head,h.tail,h.placed,?_,?_⟩
    · change _ = s.received++inHand s.pc++waiting s
      rw [← h.order]
      simp
    · intro a ha hk
      obtain ha | rfl := by simpa using ha
      · exact h.drops a ha hk
      · exact (full_iff s h.head h.tail).mp hfull
  · have hq := queued_put s h.head h.tail hfull
    have hw := (waiting_enqueue s nb h.head h.tail hfull).2
    simp only [netRxEnqueue, if_neg hfull] at hw ⊢
    refine ⟨h.head,Nat.mod_lt _ (by decide),?_,?_,?_⟩
    · have hp := h.placed
      revert hp
      unfold Placed
      dsimp only
      cases s.pc with
      | fetch => exact fun _ => by change 0 < queued _; exact hq ▸ Nat.succ_pos _
      | advance m =>
        rintro ⟨hpos,rfl⟩
        refine ⟨hq ▸ Nat.succ_pos _,?_⟩
        rw [update_of_ne]
        intro hc
        exact absurd ((queued_zero_iff s h.head h.tail).mpr hc) (by omega)
      | retest => exact fun hp => absurd (hopen hp.1) (by simp [hp.2])
      | register | sleep | schedule => exact fun hp => absurd (hopen hp.1) (by simp [hp.2.1])
      | woken =>
        rintro ⟨hr,-⟩
        refine ⟨hr,fun hb => ?_⟩
        split_ifs at hb with hc
        exact absurd ⟨hr,hb⟩ hc
      | _ => exact id
    · refine Eq.trans ?_ (congrArg (s.received++inHand s.pc++·) hw).symm
      rw [← List.append_assoc, ← h.order]
      simp
    · intro a ha hk
      obtain ha | rfl := by simpa using ha
      · exact h.drops a ha hk
      · cases hk

theorem inv_work (h : Inv s) (hon : s.onCpu = true) : Inv (work s) := by
  obtain ⟨hh,ht,hp,ho,hd⟩ := h
  have hz := queued_zero_iff s hh ht
  unfold work
  unfold Placed at hp
  cases hpc : s.pc with
  | test =>
    rw [hpc] at ho
    by_cases he : s.rxHead = s.rxTail
    · rw [if_neg (by simpa using he)]
      exact ⟨hh,ht,trivial,ho,hd⟩
    · rw [if_pos he]
      exact ⟨hh,ht,Nat.pos_of_ne_zero fun hc => he (hz.mp hc),ho,hd⟩
  | fetch =>
    rw [hpc] at hp ho
    exact ⟨hh,ht,⟨hp,rfl⟩,ho,hd⟩
  | advance nb =>
    rw [hpc] at hp ho
    obtain ⟨hpos,rfl⟩ := hp
    have hq : queued { s with rxHead := (s.rxHead+1) % queueSize } = queued s-1 := by
      unfold queued queueSize at *
      dsimp only
      omega
    refine ⟨Nat.mod_lt _ (by decide),ht,trivial,?_,hd⟩
    have hcons := contents_cons s.rxQueue queueSize s.rxHead (queued s-1) hh
    rw [Nat.sub_add_cancel hpos] at hcons
    rw [← hq] at hcons
    refine ho.trans ((congrArg (s.received++[]++·) hcons).trans ?_)
    simp only [List.append_assoc]
    rfl
  | deliver nb =>
    rw [hpc] at ho
    refine ⟨hh,ht,trivial,ho.trans ?_,hd⟩
    exact (congrArg (·++waiting s) (List.append_nil _).symm)
  | retest =>
    rw [hpc] at hp ho
    by_cases he : s.rxHead = s.rxTail
    · rw [if_pos he]
      exact ⟨hh,ht,⟨hp.1,hp.2,hz.mpr he⟩,ho,hd⟩
    · rw [if_neg he]
      exact ⟨hh,ht,trivial,ho,hd⟩
  | cli =>
    rw [hpc] at ho
    exact ⟨hh,ht,⟨hon,rfl⟩,ho,hd⟩
  | register =>
    rw [hpc] at hp ho
    exact ⟨hh,ht,⟨hp.1,hp.2.1,hp.2.2,rfl⟩,ho,hd⟩
  | sleep =>
    rw [hpc] at hp ho
    exact ⟨hh,ht,hp,ho,hd⟩
  | schedule =>
    rw [hpc] at hp ho
    exact ⟨hh,ht,⟨hp.2.2.2,fun _ => hp.2.2.1⟩,ho,hd⟩
  | _ =>
    rw [hpc] at ho
    exact ⟨hh,ht,trivial,ho,hd⟩

/-- The state, the processor and the interrupt flag change, and the worker is
not between `cli` and `schedule`. -/
theorem inv_switch (h : Inv s) {state : State} (onCpu enabled : Bool)
    (hout : s.onCpu = true → s.enabled = false → s.pc = .receiving)
    (hst : state ≠ .blocked ∨ state = s.state ∨ s.pc = .receiving) :
    Inv { s with state := state, onCpu := onCpu, enabled := enabled } := by
  refine ⟨h.head,h.tail,?_,h.order,h.drops⟩
  have hp := h.placed
  revert hp
  unfold Placed
  cases hpc : s.pc with
  | retest => exact fun hp => absurd (hout hp.1 hp.2) (by simp [hpc])
  | register | sleep | schedule => exact fun hp => absurd (hout hp.1 hp.2.1) (by simp [hpc])
  | woken =>
    rintro ⟨hr,hq⟩
    refine ⟨hr,fun hb => ?_⟩
    obtain hst | hst | hst := hst
    · exact absurd hb hst
    · exact hq (hst ▸ hb)
    · exact absurd (hpc ▸ hst) (by simp)
  | _ => exact id

theorem inv_step (h : Inv s) (a : Act F) : Inv (step s a) := by
  cases a with
  | interrupt nb =>
    change Inv (if (s.onCpu && !s.enabled) = true then s else interrupt s nb)
    split_ifs with hon
    · exact h
    · exact inv_interrupt s nb h hon
  | work =>
    simp only [step]
    split_ifs with hon
    · exact inv_work s h hon
    · exact h
  | leave =>
    simp only [step]
    split_ifs with hon
    · split
      case h_1 hpc =>
        have hp := h.placed
        have ho := h.order
        simp only [Placed, hpc] at hp ho
        exact ⟨h.head,h.tail,⟨hp.2.2.2,fun _ => hp.2.2.1⟩,ho,h.drops⟩
      case h_2 hpc => exact inv_switch s h false s.enabled (fun _ _ => hpc) (.inr (.inl rfl))
      case h_3 => exact h
    · exact h
  | again =>
    simp only [step]
    split_ifs with hon
    · split
      case h_1 hpc =>
        have hp := h.placed
        have ho := h.order
        simp only [Placed, hpc] at hp ho
        exact ⟨h.head,h.tail,⟨hp.2.2.2,fun hb => by cases hb⟩,ho,h.drops⟩
      case h_2 => exact h
    · exact h
  | inside state enabled =>
    simp only [step]
    split_ifs with hon
    · split
      case h_1 hpc => exact inv_switch s h s.onCpu enabled (fun _ _ => hpc) (.inr (.inr hpc))
      case h_2 => exact h
    · exact h
  | preempt =>
    simp only [step]
    by_cases hon : (s.onCpu && s.enabled) = true
    · rw [if_pos hon]
      simp only [Bool.and_eq_true] at hon
      refine inv_switch s h false s.enabled (fun _ hc => absurd hon.2 (by simp [hc])) ?_
      split_ifs
      · exact .inl (by decide)
      · exact .inr (.inl rfl)
    · rw [if_neg hon]
      exact h
  | dispatch enabled =>
    simp only [step]
    split_ifs with hon
    · exact h
    · exact inv_switch s h true _ (fun hc => absurd hc hon) (.inl (by decide))

/-- What arrived and was kept has been received, in order, or is still there;
a frame is dropped only when 63 are queued; a worker asleep at its own wait
has an empty queue. -/
structure Law (s : Rx F) : Prop where
  order : (s.arrivals.filter (·.kept)).map (·.frame) = s.received++inHand s.pc++waiting s
  drops : ∀ a ∈ s.arrivals, a.kept = false → a.queued = 63
  sleep : s.state = .blocked → s.pc = .schedule ∨ s.pc = .woken → waiting s = []

theorem receive_queue_law (acts : List (Act F)) : Law (run ring acts) := by
  have h : Inv (run ring acts) :=
    List.foldlRecOn acts step (inv_boot ring) fun s hs a _ => inv_step s hs a
  refine ⟨h.order,h.drops,?_⟩
  intro hb hpc
  have hq : queued (run ring acts) = 0 := by
    have hp := h.placed
    unfold Placed at hp
    obtain hpc | hpc := hpc
    · rw [hpc] at hp
      exact hp.2.2.1
    · rw [hpc] at hp
      exact hp.2 hb
  unfold waiting
  rw [hq]
  rfl

end HobbyOS.RxQueue
