import HobbyOS.Tcp

/-!
# Who has a connection slot

The TCP table as far as ownership goes: the state of each slot, the listener
it refers to, the indices waiting in its accept queue, and which socket has
it. Calls, packets and the timer are a few actions on this table. Whatever the
actions, a socket's slot is its own and stays in use, and an index waits in at
most one queue, once, with no socket, and states move along `Arrow`.
-/

namespace HobbyOS.SlotTable
open Tcp Function

structure Slot where
  state : TcpState := .closed
  used : Bool := false
  parent : Option ℕ := none
  queue : List ℕ := []
  unacked : Bool := false
  deriving DecidableEq

/-- `holds i` is the slot of the open stream socket `i`. -/
structure Tab where
  slot : ℕ → Slot
  holds : ℕ → Option ℕ

variable (t : Tab) (k : ℕ) (x : Slot) (s : TcpState)

def Tab.set : Tab := { t with slot := update t.slot k x }

def Tab.hold (i : ℕ) (c : Option ℕ) : Tab := { t with holds := update t.holds i c }

inductive Action where
  | idle
  /-- The socket takes the free slot to listen or to connect. -/
  | start (i k : ℕ) (s : TcpState)
  | syn (q k : ℕ)
  | finish (k : ℕ)
  | move (k : ℕ) (s : TcpState)
  | free (k : ℕ)
  | send (k : ℕ)
  /-- The first of the queue goes to the socket, if there is one. -/
  | take (q : ℕ) (i : Option ℕ)
  | drop (i : ℕ)
  /-- The slots that give up and those whose TIME_WAIT is over. -/
  | tick (lost done : ℕ → Bool)

def push (k : ℕ) : Slot :=
  if x.queue.length < tcpAcceptQueue then { x with queue := x.queue++[k] } else x

def closeSlot : Slot :=
  match x.state with
  | .established => { x with state := .finWait1 }
  | .closeWait => { x with state := .lastAck }
  | .listen => { x with state := .closed, used := false }
  | .synSent => { x with state := .closed, used := false }
  | _ => x

def tickSlot (lost done : Bool) : Slot :=
  if lost then { x with state := .closed, unacked := false }
  else if done then { x with state := .closed, used := false }
  else x

def establish : Tab := t.set k { t.slot k with state := .established }

def apply : Action → Tab
  | .idle => t
  | .start i k s => (t.set k { state := s, used := true }).hold i (some k)
  | .syn q k => t.set k { state := .synReceived, used := true, parent := some q }
  | .finish k =>
    match (t.slot k).parent with
    | none => establish t k
    | some q => (establish t k).set q (push ((establish t k).slot q) k)
  | .move k s => t.set k { t.slot k with state := s }
  | .free k => t.set k { t.slot k with state := .closed, used := false }
  | .send k => t.set k { t.slot k with unacked := true }
  | .take q i =>
    match (t.slot q).queue, i with
    | [], _ => t
    | _::rest, none => t.set q { t.slot q with queue := rest }
    | k::rest, some i => (t.set q { t.slot q with queue := rest }).hold i (some k)
  | .drop i =>
    match t.holds i with
    | none => t
    | some c => (t.set c (closeSlot (t.slot c))).hold i none
  | .tick lost done => { t with slot := fun k => tickSlot (t.slot k) (lost k) (done k) }

def Live (q : ℕ) : Prop := (t.slot q).used = true ∧ (t.slot q).state = .listen

/-- The state changes of an incoming segment, the ends of a handshake and of
LAST_ACK apart. -/
def Moves (s s' : TcpState) : Prop :=
  s' = s ∨ s = .synSent ∧ s' = .established ∨ s = .established ∧ (s' = .closeWait ∨ s' = .closed) ∨
    s = .finWait1 ∧ (s' = .finWait2 ∨ s' = .timeWait) ∨ s = .finWait2 ∧ s' = .timeWait

def Enabled : Action → Prop
  | .idle => True
  | .start _ k s => (t.slot k).used = false ∧ (s = .listen ∨ s = .synSent)
  | .syn q k => (t.slot k).used = false ∧ Live t q
  | .finish k => (t.slot k).used = true ∧ (t.slot k).state = .synReceived
  | .move k s => (t.slot k).used = true ∧ (t.slot k).state ≠ .synReceived ∧ Moves (t.slot k).state s
  | .free k => (t.slot k).used = true ∧ (t.slot k).state = .lastAck
  | .send k => (∃ i, t.holds i = some k) ∧ ((t.slot k).state = .established ∨ (t.slot k).state = .closeWait)
  | .take q i => (t.slot q).queue ≠ [] ∧ ∀ i', i = some i' → t.holds i' = none
  | .drop _ => True
  | .tick lost done => ∀ k, (lost k = true → (t.slot k).used = true ∧ (t.slot k).unacked = true) ∧
      (done k = true → (t.slot k).used = true ∧ (t.slot k).state = .timeWait)

def Held : Prop :=
  s = .listen ∨ s = .synSent ∨ s = .established ∨ s = .closeWait ∨ s = .closed

def Waiting : Prop := s = .established ∨ s = .closeWait ∨ s = .closed

/-- The states in which nothing has been sent that is kept for retransmission. -/
def Quiet : Prop := s = .synReceived ∨ s = .listen

structure Owned (t : Tab) : Prop where
  held : ∀ i c, t.holds i = some c → (t.slot c).used = true ∧ Held (t.slot c).state
  once : ∀ i j c, t.holds i = some c → t.holds j = some c → i = j
  queued : ∀ q k, k ∈ (t.slot q).queue → (t.slot k).used = true ∧ Waiting (t.slot k).state ∧
    (t.slot k).unacked = false ∧ ∀ i, t.holds i ≠ some k
  apart : ∀ q r k, k ∈ (t.slot q).queue → k ∈ (t.slot r).queue → q = r
  nodup : ∀ q, (t.slot q).queue.Nodup
  quiet : ∀ k, (t.slot k).used = true → Quiet (t.slot k).state → (t.slot k).unacked = false

@[simp] theorem set_same (t : Tab) (k : ℕ) (x : Slot) : (t.set k x).slot k = x :=
  update_self _ _ _

theorem set_other (k j : ℕ) (x : Slot) (h : j ≠ k) : (t.set k x).slot j = t.slot j :=
  update_of_ne h _ _

@[simp] theorem set_holds (t : Tab) (k : ℕ) (x : Slot) : (t.set k x).holds = t.holds := rfl

@[simp] theorem hold_slot (t : Tab) (i : ℕ) (c : Option ℕ) : (t.hold i c).slot = t.slot := rfl

@[simp] theorem hold_same (t : Tab) (i : ℕ) (c : Option ℕ) : (t.hold i c).holds i = c :=
  update_self _ _ _

theorem hold_other (i j : ℕ) (c : Option ℕ) (h : j ≠ i) : (t.hold i c).holds j = t.holds j :=
  update_of_ne h _ _

theorem establish_slot (k j : ℕ) :
    (establish t k).slot j = if j = k then { t.slot k with state := .established } else t.slot j := by
  by_cases h : j = k
  · subst h
    rw [if_pos rfl, establish, set_same]
  · rw [if_neg h, establish, set_other _ _ _ _ h]

theorem establish_queue (k q : ℕ) : ((establish t k).slot q).queue = (t.slot q).queue := by
  rw [establish_slot]
  split_ifs with h
  · rw [h]
  · rfl

theorem establish_live (k q : ℕ) (hs : (t.slot k).state ≠ .listen) :
    Live (establish t k) q ↔ Live t q := by
  unfold Live
  rw [establish_slot]
  split_ifs with hq
  · subst hq
    simp [hs]
  · rfl

theorem push_core (q k j : ℕ) :
    ((t.set q (push (t.slot q) k)).slot j).state = (t.slot j).state ∧
      ((t.set q (push (t.slot q) k)).slot j).used = (t.slot j).used ∧
      ((t.set q (push (t.slot q) k)).slot j).parent = (t.slot j).parent := by
  by_cases hj : j = q
  · subst hj
    rw [set_same, push]
    split_ifs <;> exact ⟨rfl,rfl,rfl⟩
  · rw [set_other _ _ _ _ hj]
    exact ⟨rfl,rfl,rfl⟩

theorem push_queue (q k r : ℕ) : ((t.set q (push (t.slot q) k)).slot r).queue =
    if r = q ∧ (t.slot q).queue.length < tcpAcceptQueue then (t.slot q).queue++[k] else (t.slot r).queue := by
  by_cases hr : r = q
  · subst hr
    rw [set_same, push]
    by_cases hl : (t.slot r).queue.length < tcpAcceptQueue
    · rw [if_pos hl, if_pos ⟨rfl,hl⟩]
    · rw [if_neg hl, if_neg (fun h => hl h.2)]
  · rw [set_other _ _ _ _ hr, if_neg (fun h => hr h.1)]

theorem push_live (q k r : ℕ) : Live (t.set q (push (t.slot q) k)) r ↔ Live t r := by
  unfold Live
  rw [(push_core t q k r).1, (push_core t q k r).2.1]

theorem owned_set (h : Owned t) (hq : x.queue.Sublist (t.slot k).queue)
    (hheld : ∀ i, t.holds i = some k → x.used = true ∧ Held x.state)
    (hqueued : ∀ q, k ∈ (t.slot q).queue → x.used = true ∧ Waiting x.state ∧ x.unacked = false)
    (hquiet : x.used = true → Quiet x.state → x.unacked = false) :
    Owned (t.set k x) := by
  have hsub : ∀ q j, j ∈ ((t.set k x).slot q).queue → j ∈ (t.slot q).queue := by
    intro q j hj
    by_cases hqk : q = k
    · subst hqk
      rw [set_same] at hj
      exact hq.subset hj
    · rwa [set_other _ _ _ _ hqk] at hj
  refine ⟨?_,h.once,?_,?_,?_,?_⟩
  · intro i c hc
    by_cases hck : c = k
    · subst hck
      rw [set_same]
      exact hheld i hc
    · rw [set_other _ _ _ _ hck]
      exact h.held i c hc
  · intro q j hj
    have hold := h.queued q j (hsub q j hj)
    by_cases hjk : j = k
    · subst hjk
      rw [set_same]
      obtain ⟨h1,h2,h3⟩ := hqueued q (hsub q j hj)
      exact ⟨h1,h2,h3,hold.2.2.2⟩
    · rw [set_other _ _ _ _ hjk]
      exact hold
  · intro q r j hj hj'
    exact h.apart q r j (hsub q j hj) (hsub r j hj')
  · intro q
    by_cases hqk : q = k
    · subst hqk
      rw [set_same]
      exact hq.nodup (h.nodup q)
    · rw [set_other _ _ _ _ hqk]
      exact h.nodup q
  · intro j
    by_cases hjk : j = k
    · subst hjk
      rw [set_same]
      exact hquiet
    · rw [set_other _ _ _ _ hjk]
      exact h.quiet j

theorem owned_push (q k : ℕ) (h : Owned t) (hu : (t.slot k).used = true)
    (hw : Waiting (t.slot k).state) (ha : (t.slot k).unacked = false) (hf : ∀ i, t.holds i ≠ some k)
    (hout : ∀ r, k ∉ (t.slot r).queue) : Owned (t.set q (push (t.slot q) k)) := by
  unfold push
  split_ifs with hlen
  swap
  · exact owned_set t q (t.slot q) h (List.Sublist.refl _) (fun i hi => h.held i q hi)
      (fun r hr => ⟨(h.queued r q hr).1,(h.queued r q hr).2.1,(h.queued r q hr).2.2.1⟩) (h.quiet q)
  have hcore : ∀ j, ((t.set q { t.slot q with queue := (t.slot q).queue++[k] }).slot j).state = (t.slot j).state ∧
      ((t.set q { t.slot q with queue := (t.slot q).queue++[k] }).slot j).used = (t.slot j).used ∧
      ((t.set q { t.slot q with queue := (t.slot q).queue++[k] }).slot j).unacked = (t.slot j).unacked := by
    intro j
    by_cases hj : j = q
    · subst hj
      rw [set_same]
      exact ⟨rfl,rfl,rfl⟩
    · rw [set_other _ _ _ _ hj]
      exact ⟨rfl,rfl,rfl⟩
  have hmem : ∀ r j, j ∈ ((t.set q { t.slot q with queue := (t.slot q).queue++[k] }).slot r).queue →
      j ∈ (t.slot r).queue ∨ r = q ∧ j = k := by
    intro r j hj
    by_cases hr : r = q
    · subst hr
      rw [set_same] at hj
      rcases List.mem_append.mp hj with hj | hj
      · exact .inl hj
      · exact .inr ⟨rfl,List.mem_singleton.mp hj⟩
    · rw [set_other _ _ _ _ hr] at hj
      exact .inl hj
  refine ⟨?_,h.once,?_,?_,?_,?_⟩
  · intro i c hc
    rw [(hcore c).1, (hcore c).2.1]
    exact h.held i c hc
  · intro r j hj
    rw [(hcore j).1, (hcore j).2.1, (hcore j).2.2]
    rcases hmem r j hj with hj | ⟨-,rfl⟩
    · exact h.queued r j hj
    · exact ⟨hu,hw,ha,hf⟩
  · intro r r' j hj hj'
    rcases hmem r j hj with h1 | ⟨h1,rfl⟩ <;> rcases hmem r' j hj' with h2 | ⟨h2,h3⟩
    · exact h.apart r r' j h1 h2
    · exact absurd (h3 ▸ h1) (hout r)
    · exact absurd h2 (hout r')
    · rw [h1, h2]
  · intro r
    by_cases hr : r = q
    · subst hr
      rw [set_same]
      exact List.nodup_append.mpr ⟨h.nodup r,List.nodup_singleton k,
        fun a ha b hb => fun hab => hout r (by rwa [← List.mem_singleton.mp hb, ← hab])⟩
    · rw [set_other _ _ _ _ hr]
      exact h.nodup r
  · intro j
    rw [(hcore j).1, (hcore j).2.1, (hcore j).2.2]
    exact h.quiet j

theorem owned_hold (i c : ℕ) (h : Owned t) (hu : (t.slot c).used = true)
    (hs : Held (t.slot c).state) (hf : ∀ j, t.holds j ≠ some c) (hout : ∀ q, c ∉ (t.slot q).queue) :
    Owned (t.hold i (some c)) := by
  have hcases : ∀ j d, (t.hold i (some c)).holds j = some d → t.holds j = some d ∨ j = i ∧ d = c := by
    intro j d hj
    by_cases hji : j = i
    · subst hji
      rw [hold_same] at hj
      exact .inr ⟨rfl,(Option.some.inj hj).symm⟩
    · rw [hold_other _ _ _ _ hji] at hj
      exact .inl hj
  refine ⟨?_,?_,?_,h.apart,h.nodup,h.quiet⟩
  · intro j d hj
    rcases hcases j d hj with hj | ⟨-,rfl⟩
    · exact h.held j d hj
    · exact ⟨hu,hs⟩
  · intro j j' d hj hj'
    rcases hcases j d hj with h1 | ⟨h1,rfl⟩ <;> rcases hcases j' d hj' with h2 | ⟨h2,h3⟩
    · exact h.once j j' d h1 h2
    · exact absurd (h3 ▸ h1) (hf j)
    · exact absurd h2 (hf j')
    · rw [h1, h2]
  · intro q k hk
    obtain ⟨h1,h2,h3,h4⟩ := h.queued q k hk
    refine ⟨h1,h2,h3,fun j hj => ?_⟩
    rcases hcases j k hj with hj | ⟨-,rfl⟩
    · exact h4 j hj
    · exact hout q hk

theorem release_holds {i j c : ℕ} (hj : (t.hold i none).holds j = some c) :
    j ≠ i ∧ t.holds j = some c := by
  by_cases hji : j = i
  · subst hji
    rw [hold_same] at hj
    cases hj
  · rw [hold_other _ _ _ _ hji] at hj
    exact ⟨hji,hj⟩

theorem owned_release (i : ℕ) (h : Owned t) : Owned (t.hold i none) := by
  refine ⟨?_,?_,?_,h.apart,h.nodup,h.quiet⟩
  · intro j c hj
    exact h.held j c (release_holds t hj).2
  · intro j j' c hj hj'
    exact h.once j j' c (release_holds t hj).2 (release_holds t hj').2
  · intro q k hk
    obtain ⟨h1,h2,h3,h4⟩ := h.queued q k hk
    exact ⟨h1,h2,h3,fun j hj => h4 j (release_holds t hj).2⟩

/-- A slot not in use, or one whose state no owner has, has no socket and is
in no queue. -/
theorem loose (h : Owned t) {k : ℕ}
    (hk : (t.slot k).used = false ∨ ¬Held (t.slot k).state) :
    (∀ i, t.holds i ≠ some k) ∧ ∀ q, k ∉ (t.slot q).queue := by
  constructor
  · intro i hi
    obtain ⟨h1,h2⟩ := h.held i k hi
    rcases hk with hk | hk
    · rw [hk] at h1
      cases h1
    · exact hk h2
  · intro q hq
    obtain ⟨h1,h2,-⟩ := h.queued q k hq
    rcases hk with hk | hk
    · rw [hk] at h1
      cases h1
    · exact hk (.inr (.inr h2))

theorem loose_set (h : Owned t) (hq : x.queue.Sublist (t.slot k).queue)
    (hk : (∀ i, t.holds i ≠ some k) ∧ ∀ q, k ∉ (t.slot q).queue)
    (hquiet : x.used = true → Quiet x.state → x.unacked = false) :
    Owned (t.set k x) :=
  owned_set t k x h hq (fun i hi => absurd hi (hk.1 i)) (fun q hq => absurd hq (hk.2 q)) hquiet

theorem close_slot_queue : (closeSlot x).queue = x.queue := by
  unfold closeSlot
  split <;> rfl

theorem close_slot_state : (closeSlot x).state = .synReceived ↔ x.state = .synReceived := by
  unfold closeSlot
  split <;> simp_all

theorem close_slot_listen : (closeSlot x).state ≠ .listen := by
  unfold closeSlot
  split <;> simp_all

theorem close_slot_used (h : (closeSlot x).used = true) : x.used = true := by
  unfold closeSlot at h
  split at h <;> simp_all

theorem start_owned {i k : ℕ} {s : TcpState} (h : Owned t) (he : Enabled t (.start i k s)) :
    Owned (apply t (.start i k s)) := by
  obtain ⟨hu,hs⟩ := he
  have hk := loose t h (.inl hu)
  have hset := loose_set t k { state := s, used := true } h (List.nil_sublist _) hk (fun _ _ => rfl)
  refine owned_hold _ i k hset (by rw [set_same]) ?_ hk.1 ?_
  · rw [set_same]
    rcases hs with rfl | rfl
    · exact .inl rfl
    · exact .inr (.inl rfl)
  · intro q hq
    by_cases hqk : q = k
    · subst hqk
      rw [set_same] at hq
      cases hq
    · rw [set_other _ _ _ _ hqk] at hq
      exact hk.2 q hq

theorem syn_owned {q k : ℕ} (h : Owned t) (he : Enabled t (.syn q k)) : Owned (apply t (.syn q k)) :=
  loose_set t k _ h (List.nil_sublist _) (loose t h (.inl he.1)) fun _ _ => rfl

theorem establish_owned (h : Owned t) (hs : (t.slot k).state = .synReceived) :
    Owned (establish t k) :=
  loose_set t k _ h (List.Sublist.refl _) (loose t h (.inr (by rw [hs]; simp [Held])))
    fun _ h1 => by simp [Quiet] at h1

theorem finish_owned (h : Owned t) (he : Enabled t (.finish k)) :
    Owned (apply t (.finish k)) := by
  obtain ⟨hu,hs⟩ := he
  have hk := loose t h (.inr (by rw [hs]; simp [Held]))
  have hest := establish_owned t k h hs
  rw [apply]
  split
  · exact hest
  · refine owned_push _ _ k hest ?_ ?_ ?_ hk.1 ?_
    · rw [establish_slot, if_pos rfl]
      exact hu
    · rw [establish_slot, if_pos rfl]
      exact .inl rfl
    · rw [establish_slot, if_pos rfl]
      exact h.quiet k hu (.inl hs)
    · intro r hr
      rw [establish_queue] at hr
      exact hk.2 r hr

theorem moves_held {s s' : TcpState} (h : Held s) (hm : Moves s s') : Held s' := by
  rcases hm with rfl | ⟨-,rfl⟩ | ⟨-,rfl | rfl⟩ | ⟨rfl,-⟩ | ⟨rfl,-⟩
  · exact h
  all_goals simp_all [Held]

theorem moves_waiting {s s' : TcpState} (h : Waiting s) (hm : Moves s s') : Waiting s' := by
  rcases hm with rfl | ⟨rfl,-⟩ | ⟨-,rfl | rfl⟩ | ⟨rfl,-⟩ | ⟨rfl,-⟩
  · exact h
  all_goals simp_all [Waiting]

theorem moves_quiet {s s' : TcpState} (hm : Moves s s') (hq : Quiet s') : s' = s := by
  rcases hm with rfl | ⟨-,rfl⟩ | ⟨-,rfl | rfl⟩ | ⟨-,rfl | rfl⟩ | ⟨-,rfl⟩
  · rfl
  all_goals simp [Quiet] at hq

theorem move_owned (h : Owned t) (he : Enabled t (.move k s)) :
    Owned (apply t (.move k s)) := by
  obtain ⟨hu,-,hm⟩ := he
  refine owned_set t k _ h (List.Sublist.refl _) ?_ ?_ ?_
  · intro i hi
    exact ⟨hu,moves_held (h.held i k hi).2 hm⟩
  · intro q hq
    obtain ⟨-,h2,h3,-⟩ := h.queued q k hq
    exact ⟨hu,moves_waiting h2 hm,h3⟩
  · intro _ h1
    exact h.quiet k hu (moves_quiet hm h1 ▸ h1)

theorem free_owned (h : Owned t) (he : Enabled t (.free k)) : Owned (apply t (.free k)) :=
  loose_set t k _ h (List.Sublist.refl _) (loose t h (.inr (by rw [he.2]; simp [Held])))
    fun h1 => by cases h1

theorem send_owned (h : Owned t) (he : Enabled t (.send k)) : Owned (apply t (.send k)) := by
  obtain ⟨⟨i,hi⟩,hs⟩ := he
  refine owned_set t k _ h (List.Sublist.refl _) (fun j hj => h.held j k hj) ?_ ?_
  · intro q hq
    exact absurd hi ((h.queued q k hq).2.2.2 i)
  · intro _ h1
    rcases hs with hs | hs <;> simp [hs, Quiet] at h1

theorem taken_out {q k : ℕ} (r : ℕ) {rest : List ℕ} (h : Owned t) (hq : (t.slot q).queue = k::rest) :
    k ∉ ((t.set q { t.slot q with queue := rest }).slot r).queue := by
  intro hr
  by_cases hrq : r = q
  · subst hrq
    rw [set_same] at hr
    have hnd := h.nodup r
    rw [hq] at hnd
    exact (List.nodup_cons.mp hnd).1 hr
  · rw [set_other _ _ _ _ hrq] at hr
    exact hrq (h.apart r q k hr (by rw [hq]; exact List.mem_cons_self))

theorem queue_core (q k : ℕ) (rest : List ℕ) :
    ((t.set q { t.slot q with queue := rest }).slot k).used = (t.slot k).used ∧
      ((t.set q { t.slot q with queue := rest }).slot k).state = (t.slot k).state := by
  by_cases hkq : k = q
  · subst hkq
    rw [set_same]
    exact ⟨rfl,rfl⟩
  · rw [set_other _ _ _ _ hkq]
    exact ⟨rfl,rfl⟩

theorem take_owned (q : ℕ) (i : Option ℕ) (h : Owned t) : Owned (apply t (.take q i)) := by
  cases hq : (t.slot q).queue with
  | nil =>
    simp only [apply, hq]
    exact h
  | cons k rest =>
    have hset : Owned (t.set q { t.slot q with queue := rest }) := by
      refine owned_set t q _ h (by rw [hq]; exact List.sublist_cons_self k rest) (fun j hj => h.held j q hj) ?_
        (h.quiet q)
      intro r hr
      obtain ⟨h1,h2,h3,-⟩ := h.queued r q hr
      exact ⟨h1,h2,h3⟩
    cases i with
    | none =>
      simp only [apply, hq]
      exact hset
    | some i =>
      simp only [apply, hq]
      obtain ⟨h1,h2,-,h4⟩ := h.queued q k (by rw [hq]; exact List.mem_cons_self)
      have hcore := queue_core t q k rest
      refine owned_hold _ i k hset (hcore.1.trans h1) ?_ h4 (fun r => taken_out t r h hq)
      rw [hcore.2]
      exact .inr (.inr h2)

theorem drop_owned (i : ℕ) (h : Owned t) : Owned (apply t (.drop i)) := by
  rw [apply]
  split
  · exact h
  · rename_i c hc
    have hrel := owned_release t i h
    refine owned_set _ c _ hrel (by rw [close_slot_queue]; exact List.Sublist.refl _) ?_ ?_ ?_
    · intro j hj
      obtain ⟨hji,hj⟩ := release_holds t hj
      exact absurd (h.once j i c hj hc) hji
    · intro q hq
      exact absurd hc ((h.queued q c hq).2.2.2 i)
    · intro _ h2
      have hs := (h.held i c hc).2
      rw [(close_slot_state _).mp (h2.resolve_right (close_slot_listen _))] at hs
      simp [Held] at hs

theorem tick_slot_queue (lost done : Bool) : (tickSlot x lost done).queue = x.queue := by
  unfold tickSlot
  split_ifs <;> rfl

theorem tick_owned (lost done : ℕ → Bool) (h : Owned t) (he : Enabled t (.tick lost done)) :
    Owned (apply t (.tick lost done)) := by
  have hq : ∀ q, ((apply t (.tick lost done)).slot q).queue = (t.slot q).queue := fun q => tick_slot_queue _ _ _
  have hkept : ∀ k, Held (t.slot k).state → done k = false := by
    intro k hs
    by_contra hov
    rw [((he k).2 (by simpa using hov)).2] at hs
    simp [Held] at hs
  refine ⟨?_,h.once,?_,?_,?_,?_⟩
  · intro i c hc
    obtain ⟨h1,h2⟩ := h.held i c hc
    change (tickSlot (t.slot c) (lost c) (done c)).used = true ∧ Held (tickSlot (t.slot c) (lost c) (done c)).state
    rw [hkept c h2, tickSlot]
    by_cases hl : lost c = true
    · rw [if_pos hl]
      exact ⟨h1,.inr (.inr (.inr (.inr rfl)))⟩
    · rw [if_neg hl]
      exact ⟨h1,h2⟩
  · intro q k hk
    rw [hq] at hk
    obtain ⟨h1,h2,h3,h4⟩ := h.queued q k hk
    have hsame : (apply t (.tick lost done)).slot k = t.slot k := by
      change tickSlot (t.slot k) (lost k) (done k) = t.slot k
      have hl : lost k = false := by
        by_contra hl
        rw [((he k).1 (by simpa using hl)).2] at h3
        cases h3
      rw [hl, hkept k (.inr (.inr h2))]
      rfl
    rw [hsame]
    exact ⟨h1,h2,h3,h4⟩
  · intro q r k hk hk'
    rw [hq] at hk hk'
    exact h.apart q r k hk hk'
  · intro q
    rw [hq]
    exact h.nodup q
  · intro k hu hs
    change (tickSlot (t.slot k) (lost k) (done k)).used = true at hu
    change Quiet (tickSlot (t.slot k) (lost k) (done k)).state at hs
    change (tickSlot (t.slot k) (lost k) (done k)).unacked = false
    unfold tickSlot at hu hs ⊢
    split_ifs at hu hs ⊢
    · rfl
    · exact h.quiet k hu hs

theorem tick_quiet (lost done : ℕ → Bool) (h : Owned t) (he : Enabled t (.tick lost done)) {k : ℕ}
    (hu : (t.slot k).used = true) (hq : Quiet (t.slot k).state) :
    (apply t (.tick lost done)).slot k = t.slot k := by
  have hl : lost k = false := by
    by_contra hl
    have := ((he k).1 (by simpa using hl)).2
    rw [h.quiet k hu hq] at this
    cases this
  have hd : done k = false := by
    by_contra hd
    rw [((he k).2 (by simpa using hd)).2] at hq
    simp [Quiet] at hq
  change tickSlot (t.slot k) (lost k) (done k) = t.slot k
  rw [hl, hd]
  rfl

theorem apply_owned {a : Action} (h : Owned t) (he : Enabled t a) : Owned (apply t a) := by
  cases a with
  | idle => exact h
  | start i k s => exact start_owned t h he
  | syn q k => exact syn_owned t h he
  | finish k => exact finish_owned t k h he
  | move k s => exact move_owned t k s h he
  | free k => exact free_owned t k h he
  | send k => exact send_owned t k h he
  | take q i => exact take_owned t q i h
  | drop i => exact drop_owned t i h
  | tick lost done => exact tick_owned t lost done h he

def phase : Option TcpState := if x.used then some x.state else none

/-- The arrows of the state diagram; a slot not in use has no state. -/
inductive Arrow : Option TcpState → Option TcpState → Prop where
  | stay : Arrow a a
  | start (h : b = .listen ∨ b = .synSent ∨ b = .synReceived) : Arrow none (some b)
  | segment (h : Moves a b) : Arrow (some a) (some b)
  | accepted : Arrow (some .synReceived) (some .established)
  | close : Arrow (some .established) (some .finWait1)
  | last : Arrow (some .closeWait) (some .lastAck)
  | lost (h : ¬Quiet a) : Arrow (some a) (some .closed)
  | free (h : a = .listen ∨ a = .synSent ∨ a = .lastAck ∨ a = .timeWait) : Arrow (some a) none

def Along (t t' : Tab) : Prop := ∀ k, Arrow (phase (t.slot k)) (phase (t'.slot k))

theorem along_set (h : Arrow (phase (t.slot k)) (phase x)) : Along t (t.set k x) := by
  intro j
  by_cases hj : j = k
  · subst hj
    rwa [set_same]
  · rw [set_other _ _ _ _ hj]
    exact .stay

theorem apply_along {a : Action} (h : Owned t) (he : Enabled t a) : Along t (apply t a) := by
  cases a with
  | idle => exact fun _ => .stay
  | start i k s => exact along_set t k _ (by rw [phase, he.1]; exact .start (he.2.imp_right .inl))
  | syn q k => exact along_set t k _ (by rw [phase, he.1]; exact .start (.inr (.inr rfl)))
  | finish k =>
    have hest : Along t (establish t k) := along_set t k _ (by simp [phase, he.1, he.2, Arrow.accepted])
    rw [apply]
    split
    · exact hest
    · intro j
      rw [phase, phase, (push_core ..).1, (push_core ..).2.1]
      exact hest j
  | move k s => exact along_set t k _ (by simp [phase, he.1, Arrow.segment he.2.2])
  | free k => exact along_set t k _ (by simp [phase, he.1, he.2, Arrow.free])
  | send k => exact along_set t k _ .stay
  | take q i =>
    unfold apply
    dsimp only
    split
    · exact fun _ => .stay
    all_goals exact along_set t q _ .stay
  | drop i =>
    rw [apply]
    split
    · exact fun _ => .stay
    · rename_i c hc
      have hu := (h.held i c hc).1
      refine along_set t c _ ?_
      rw [closeSlot]
      split <;> simp_all [phase, Arrow.close, Arrow.last, Arrow.free, Arrow.stay]
  | tick lost done =>
    intro k
    obtain ⟨hl,hd⟩ := he k
    change Arrow _ (phase (tickSlot ..))
    unfold tickSlot
    split_ifs with h1 h2
    -- what is given up was sent, so the state is not quiet
    · obtain ⟨hu,ha⟩ := hl h1
      have hq : ¬Quiet (t.slot k).state := fun hq => by simp [h.quiet k hu hq] at ha
      simp [phase, hu, Arrow.lost hq]
    · simp [phase, hd h2, Arrow.free]
    · exact .stay

end HobbyOS.SlotTable
