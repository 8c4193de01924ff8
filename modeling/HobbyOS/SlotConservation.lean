import HobbyOS.SocketRuns

/-!
# Slots without an owner

Every slot in use should belong to a socket, to a live listener or to a
connection that is closing by itself. A slot is lost when its socket is closed
after a reset or a timeout, when its socket connects or listens again, when a
listener goes before its connections, when there is no socket or no room in
the queue for an accepted connection, and when the timer gives up on a
connection that is closing.
-/

namespace HobbyOS.SlotConservation
open Tcp Socket SlotTable SocketSteps SocketRuns Function

variable (t : Tab) (k : ℕ) (a : Action) (s : TcpState)

def Closing : Prop := s = .finWait1 ∨ s = .finWait2 ∨ s = .timeWait ∨ s = .lastAck

def HasOwner : Prop :=
  (∃ i, t.holds i = some k) ∨ (∃ q, Live t q ∧ k ∈ (t.slot q).queue) ∨
    ((t.slot k).state = .synReceived ∧ ∃ q, (t.slot k).parent = some q ∧ Live t q) ∨ Closing (t.slot k).state

def Conserved : Prop := ∀ k, (t.slot k).used = true → HasOwner t k

def Good : Action → Prop
  | .start i _ _ => t.holds i = none
  | .finish k => ∀ q, (t.slot k).parent = some q → (t.slot q).queue.length < tcpAcceptQueue
  | .take _ i => i ≠ none
  | .drop i => ∀ c, t.holds i = some c → (t.slot c).state ≠ .closed ∧
      ((t.slot c).state = .listen → (t.slot c).queue = [] ∧
        ∀ k, (t.slot k).used = true → (t.slot k).state = .synReceived → (t.slot k).parent ≠ some c)
  | .tick lost _ => ∀ k, lost k = true → ¬Closing (t.slot k).state
  | _ => True

theorem closing_not_held (h : Closing s) : ¬Held s := by
  rcases h with rfl | rfl | rfl | rfl <;> simp [Held]

theorem closing_not_waiting (h : Closing s) : ¬Waiting s :=
  fun hw => closing_not_held s h (.inr (.inr hw))

theorem owner_mono (t t' : Tab) (k : ℕ) (hs : (t'.slot k).state = (t.slot k).state)
    (hp : (t'.slot k).parent = (t.slot k).parent) (hh : ∀ i, t.holds i = some k → ∃ j, t'.holds j = some k)
    (hq : ∀ q, Live t q → k ∈ (t.slot q).queue → Live t' q ∧ k ∈ (t'.slot q).queue)
    (hl : ∀ q, Live t q → (t.slot k).state = .synReceived → (t.slot k).parent = some q → Live t' q)
    (h : HasOwner t k) : HasOwner t' k := by
  unfold HasOwner
  rw [hs, hp]
  rcases h with ⟨i,h⟩ | ⟨q,h1,h2⟩ | ⟨h1,q,h2,h3⟩ | h
  · exact .inl (hh i h)
  · exact .inr (.inl ⟨q,hq q h1 h2⟩)
  · exact .inr (.inr (.inl ⟨h1,q,h2,hl q h3 h1 h2⟩))
  · exact .inr (.inr (.inr h))

theorem owner_set (k j : ℕ) (x : Slot) (hj : j ≠ k)
    (hlive : Live t k → x.used = true ∧ x.state = .listen ∧ x.queue = (t.slot k).queue)
    (h : HasOwner t j) : HasOwner (t.set k x) j := by
  have hl : ∀ q, Live t q → Live (t.set k x) q ∧ ((t.set k x).slot q).queue = (t.slot q).queue := by
    intro q hq
    unfold Live
    by_cases hqk : q = k
    · subst hqk
      rw [set_same]
      obtain ⟨h1,h2,h3⟩ := hlive hq
      exact ⟨⟨h1,h2⟩,h3⟩
    · rw [set_other _ _ _ _ hqk]
      exact ⟨hq,rfl⟩
  refine owner_mono t _ j (by rw [set_other _ _ _ _ hj]) (by rw [set_other _ _ _ _ hj]) (fun i hi => ⟨i,hi⟩) ?_ ?_ h
  · intro q h1 h2
    exact ⟨(hl q h1).1,by rwa [(hl q h1).2]⟩
  · intro q h1 _ _
    exact (hl q h1).1

theorem dead_not_live (h : (t.slot k).used = false) : ¬Live t k := by
  rintro ⟨h1,-⟩
  rw [h] at h1
  cases h1

theorem lost_slot (h : HasOwner t k) (hh : ∀ i, t.holds i ≠ some k)
    (hq : ∀ q, Live t q → k ∉ (t.slot q).queue) (hs : (t.slot k).state ≠ .synReceived) :
    Closing (t.slot k).state := by
  rcases h with ⟨i,h⟩ | ⟨q,h1,h2⟩ | ⟨h,-⟩ | h
  · exact absurd h (hh i)
  · exact absurd h2 (hq q h1)
  · exact absurd h hs
  · exact h

theorem start_lost (i k c : ℕ) (s : TcpState) (ho : Owned t) (he : Enabled t (.start i k s))
    (hc : t.holds i = some c) : ¬Conserved (apply t (.start i k s)) := by
  intro hc'
  obtain ⟨h1,h2⟩ := ho.held i c hc
  have hck : c ≠ k := by
    rintro rfl
    rw [he.1] at h1
    cases h1
  have hslot : ∀ j, j ≠ k → (apply t (.start i k s)).slot j = t.slot j := fun j hj => set_other _ _ _ _ hj
  have hcl := lost_slot _ c (hc' c (by rw [hslot c hck]; exact h1)) ?_ ?_ ?_
  · rw [hslot c hck] at hcl
    exact closing_not_held _ hcl h2
  · intro j hj
    by_cases hji : j = i
    · subst hji
      rw [show (apply t (.start j k s)).holds j = some k from hold_same _ _ _] at hj
      exact hck (Option.some.inj hj).symm
    · rw [show (apply t (.start i k s)).holds j = t.holds j from hold_other _ _ _ _ hji] at hj
      exact hji (ho.once j i c hj hc)
  · intro q _ hq
    by_cases hqk : q = k
    · subst hqk
      change c ∈ ((t.set q _).slot q).queue at hq
      rw [set_same] at hq
      cases hq
    · rw [hslot q hqk] at hq
      exact (ho.queued q c hq).2.2.2 i hc
  · rw [hslot c hck]
    intro hs
    rw [hs] at h2
    simp [Held] at h2

theorem start_conserved {i k : ℕ} {s : TcpState} (ho : Owned t) (he : Enabled t (.start i k s))
    (hc : Conserved t) : Conserved (apply t (.start i k s)) ↔ Good t (.start i k s) := by
  constructor
  · intro hc'
    cases hi : t.holds i with
    | none => exact hi
    | some c => exact absurd hc' (start_lost t i k c s ho he hi)
  · intro hfree j hj
    have hslot : ∀ j, j ≠ k → (apply t (.start i k s)).slot j = t.slot j := fun j hj => set_other _ _ _ _ hj
    by_cases hjk : j = k
    · exact .inl ⟨i,by rw [hjk]; exact hold_same _ _ _⟩
    · rw [hslot j hjk] at hj
      refine owner_mono (t.set k { state := s, used := true }) _ j rfl rfl ?_ (fun q h1 h2 => ⟨h1,h2⟩)
        (fun q h1 _ _ => h1) (owner_set t k j _ hjk (fun hl => absurd hl (dead_not_live t k he.1)) (hc j hj))
      intro i' hi'
      have hne : i' ≠ i := by
        rintro rfl
        rw [set_holds, hfree] at hi'
        cases hi'
      exact ⟨i',(hold_other _ _ _ _ hne).trans hi'⟩

theorem syn_conserved {q k : ℕ} (he : Enabled t (.syn q k)) (hc : Conserved t) :
    Conserved (apply t (.syn q k)) := by
  obtain ⟨hu,hl⟩ := he
  intro j hj
  by_cases hjk : j = k
  · subst hjk
    have hqj : q ≠ j := by
      rintro rfl
      exact dead_not_live t q hu hl
    refine .inr (.inr (.inl ⟨?_,q,?_,?_⟩))
    · change ((t.set j _).slot j).state = _
      rw [set_same]
    · change ((t.set j _).slot j).parent = _
      rw [set_same]
    · change ((t.set j _).slot q).used = true ∧ ((t.set j _).slot q).state = _
      rw [set_other _ _ _ _ hqj]
      exact hl
  · change ((t.set k _).slot j).used = true at hj
    rw [set_other _ _ _ _ hjk] at hj
    exact owner_set t k j _ hjk (fun hl => absurd hl (dead_not_live t k hu)) (hc j hj)

theorem finish_conserved (ho : Owned t) (he : Enabled t (.finish k)) (hc : Conserved t) :
    Conserved (apply t (.finish k)) ↔ Good t (.finish k) := by
  obtain ⟨hu,hs⟩ := he
  have hloose := loose t ho (.inr (by rw [hs]; simp [Held]))
  have hne : (t.slot k).state ≠ .listen := by rw [hs]; decide
  -- the slot is in a handshake on a live listener
  obtain ⟨p,hp,hlp⟩ : ∃ p, (t.slot k).parent = some p ∧ Live t p := by
    rcases hc k hu with ⟨i,h⟩ | ⟨q,-,h⟩ | ⟨-,h⟩ | h
    · exact absurd h (hloose.1 i)
    · exact absurd h (hloose.2 q)
    · exact h
    · rw [hs] at h
      simp [Closing] at h
  have happly : apply t (.finish k) = (establish t k).set p (push ((establish t k).slot p) k) := by
    simp only [apply, hp]
  have hqueue : ∀ r, ((apply t (.finish k)).slot r).queue = if r = p ∧ (t.slot p).queue.length < tcpAcceptQueue
      then (t.slot p).queue++[k] else (t.slot r).queue := by
    intro r
    rw [happly, push_queue, establish_queue, establish_queue]
  have hlive : ∀ r, Live (apply t (.finish k)) r ↔ Live t r := by
    intro r
    rw [happly, push_live, establish_live t k r hne]
  have hcore : ∀ j, ((apply t (.finish k)).slot j).state = ((establish t k).slot j).state ∧
      ((apply t (.finish k)).slot j).used = ((establish t k).slot j).used ∧
      ((apply t (.finish k)).slot j).parent = ((establish t k).slot j).parent := by
    intro j
    rw [happly]
    exact push_core _ p k j
  have hholds : (apply t (.finish k)).holds = t.holds := by rw [happly]; rfl
  have hest : ((apply t (.finish k)).slot k).state = .established := by
    rw [(hcore k).1, establish_slot, if_pos rfl]
  have hused : ((apply t (.finish k)).slot k).used = true := by
    rw [(hcore k).2.1, establish_slot, if_pos rfl]
    exact hu
  constructor
  · intro hc' q hq
    obtain rfl : p = q := Option.some.inj (hp.symm.trans hq)
    by_contra hfull
    have hcl := lost_slot _ k (hc' k hused) (by rw [hholds]; exact hloose.1) ?_ (by rw [hest]; decide)
    · rw [hest] at hcl
      simp [Closing] at hcl
    · intro r _
      rw [hqueue, if_neg (fun h => hfull h.2)]
      exact hloose.2 r
  · intro hgood j hj
    have hroom := hgood p hp
    have hsub : ∀ r, ∀ m ∈ (t.slot r).queue, m ∈ ((apply t (.finish k)).slot r).queue := by
      intro r m hm
      rw [hqueue]
      split_ifs with hr
      · rw [hr.1] at hm
        exact List.mem_append_left _ hm
      · exact hm
    by_cases hjk : j = k
    · subst hjk
      refine .inr (.inl ⟨p,(hlive p).mpr hlp,?_⟩)
      rw [hqueue, if_pos ⟨rfl,hroom⟩]
      exact List.mem_append_right _ List.mem_cons_self
    · have hsame : (establish t k).slot j = t.slot j := by rw [establish_slot, if_neg hjk]
      rw [(hcore j).2.1, hsame] at hj
      exact owner_mono t _ j (by rw [(hcore j).1, hsame]) (by rw [(hcore j).2.2, hsame])
        (fun i hi => ⟨i,by rwa [hholds]⟩) (fun r h1 h2 => ⟨(hlive r).mpr h1,hsub r j h2⟩)
        (fun r h1 _ _ => (hlive r).mpr h1) (hc j hj)

theorem moves_closing {s s' : TcpState} (h : Closing s) (hm : Moves s s') : Closing s' := by
  rcases hm with rfl | ⟨rfl,-⟩ | ⟨rfl,-⟩ | ⟨-,rfl | rfl⟩ | ⟨-,rfl⟩
  · exact h
  all_goals simp_all [Closing]

theorem move_conserved (he : Enabled t (.move k s)) (hc : Conserved t) :
    Conserved (apply t (.move k s)) := by
  obtain ⟨hu,hne,hm⟩ := he
  have hlive : Live t k → s = .listen := by
    rintro ⟨-,h2⟩
    rcases hm with rfl | ⟨h1,-⟩ | ⟨h1,-⟩ | ⟨h1,-⟩ | ⟨h1,-⟩
    · exact h2
    all_goals (rw [h1] at h2; cases h2)
  have hl : ∀ q, Live t q → Live (t.set k { t.slot k with state := s }) q ∧
      ((t.set k { t.slot k with state := s }).slot q).queue = (t.slot q).queue := by
    intro q hq
    unfold Live
    by_cases hqk : q = k
    · subst hqk
      rw [set_same]
      exact ⟨⟨hu,hlive hq⟩,rfl⟩
    · rw [set_other _ _ _ _ hqk]
      exact ⟨hq,rfl⟩
  intro j hj
  by_cases hjk : j = k
  · subst hjk
    rcases hc j hu with h | ⟨q,h1,h2⟩ | ⟨h,-⟩ | h
    · exact .inl h
    · exact .inr (.inl ⟨q,(hl q h1).1,by rw [apply, (hl q h1).2]; exact h2⟩)
    · exact absurd h hne
    · refine .inr (.inr (.inr ?_))
      rw [apply, set_same]
      exact moves_closing h hm
  · rw [apply, set_other _ _ _ _ hjk] at hj
    exact owner_set t k j _ hjk (fun hl => ⟨hu,hlive hl,rfl⟩) (hc j hj)

theorem free_conserved (he : Enabled t (.free k)) (hc : Conserved t) :
    Conserved (apply t (.free k)) := by
  intro j hj
  have hjk : j ≠ k := by
    rintro rfl
    rw [apply, set_same] at hj
    cases hj
  rw [apply, set_other _ _ _ _ hjk] at hj
  refine owner_set t k j _ hjk (fun hl => ?_) (hc j hj)
  have h2 := hl.2
  rw [he.2] at h2
  cases h2

theorem send_conserved (he : Enabled t (.send k)) (hc : Conserved t) :
    Conserved (apply t (.send k)) := by
  intro j hj
  by_cases hjk : j = k
  · subst hjk
    exact .inl he.1
  · rw [apply, set_other _ _ _ _ hjk] at hj
    exact owner_set t k j _ hjk (fun hl => ⟨hl.1,hl.2,rfl⟩) (hc j hj)

theorem take_conserved {q : ℕ} {i : Option ℕ} (ho : Owned t) (he : Enabled t (.take q i))
    (hc : Conserved t) : Conserved (apply t (.take q i)) ↔ Good t (.take q i) := by
  obtain ⟨hne,hfree⟩ := he
  obtain ⟨k,rest,hq⟩ := List.exists_cons_of_ne_nil hne
  have hk := ho.queued q k (by rw [hq]; exact List.mem_cons_self)
  have hslot : (apply t (.take q i)).slot = (t.set q { t.slot q with queue := rest }).slot := by
    cases i <;> simp only [apply, hq, hold_slot]
  have hcore := fun j => queue_core t q j rest
  have hparent : ∀ j, ((t.set q { t.slot q with queue := rest }).slot j).parent = (t.slot j).parent := by
    intro j
    by_cases hj : j = q
    · subst hj
      rw [set_same]
    · rw [set_other _ _ _ _ hj]
  have hlive : ∀ r, Live t r → Live (apply t (.take q i)) r := by
    intro r hr
    unfold Live
    rw [hslot, (hcore r).1, (hcore r).2]
    exact hr
  constructor
  · intro hc' hnone
    subst hnone
    have hholds : (apply t (.take q none)).holds = t.holds := by simp only [apply, hq, set_holds]
    have hused : ((apply t (.take q none)).slot k).used = true := by
      rw [hslot, (hcore k).1]
      exact hk.1
    have hstate : ((apply t (.take q none)).slot k).state = (t.slot k).state := by
      rw [hslot, (hcore k).2]
    have hcl := lost_slot _ k (hc' k hused) (by rw [hholds]; exact hk.2.2.2) ?_ ?_
    · rw [hstate] at hcl
      exact closing_not_waiting _ hcl hk.2.1
    · intro r _
      rw [hslot]
      exact taken_out t r ho hq
    · rw [hstate]
      intro hs
      have hw := hk.2.1
      rw [hs] at hw
      simp [Waiting] at hw
  · intro hgood j hj
    obtain ⟨i',rfl⟩ := Option.ne_none_iff_exists'.mp hgood
    have hholds : (apply t (.take q (some i'))).holds = update t.holds i' (some k) := by
      simp only [apply, hq, Tab.hold, set_holds]
    by_cases hjk : j = k
    · subst hjk
      exact .inl ⟨i',by rw [hholds, update_self]⟩
    · rw [hslot, (hcore j).1] at hj
      refine owner_mono t _ j (by rw [hslot, (hcore j).2]) (by rw [hslot, hparent]) ?_ ?_
        (fun r h1 _ _ => hlive r h1) (hc j hj)
      · intro m hm
        refine ⟨m,?_⟩
        rw [hholds, update_of_ne (by rintro rfl; rw [hfree m rfl] at hm; cases hm)]
        exact hm
      · intro r h1 h2
        refine ⟨hlive r h1,?_⟩
        rw [hslot]
        by_cases hr : r = q
        · subst hr
          rw [set_same]
          rw [hq] at h2
          exact (List.mem_cons.mp h2).resolve_left hjk
        · rwa [set_other _ _ _ _ hr]

theorem close_slot_cases {x : Slot} (hs : Held x.state) :
    x.state = .closed ∧ closeSlot x = x ∨ (closeSlot x).used = false ∨ Closing (closeSlot x).state := by
  unfold closeSlot
  rcases hs with h | h | h | h | h <;> rw [h] <;> simp [Closing]

structure Dropped (t t' : Tab) (i c : ℕ) : Prop where
  self : t'.slot c = closeSlot (t.slot c)
  other : ∀ j, j ≠ c → t'.slot j = t.slot j
  queue : ∀ q, (t'.slot q).queue = (t.slot q).queue
  dead : ¬Live t' c
  kept : ∀ j k, t'.holds j = some k → j ≠ i ∧ t.holds j = some k
  holds : ∀ j, j ≠ i → t'.holds j = t.holds j

theorem drop_spec {i c : ℕ} (hi : t.holds i = some c) : Dropped t (apply t (.drop i)) i c := by
  have happly : apply t (.drop i) = (t.set c (closeSlot (t.slot c))).hold i none := by simp only [apply, hi]
  rw [happly]
  refine ⟨by rw [hold_slot, set_same],?_,?_,?_,?_,?_⟩
  · intro j hj
    rw [hold_slot, set_other _ _ _ _ hj]
  · intro q
    rw [hold_slot]
    by_cases hqc : q = c
    · rw [hqc, set_same, close_slot_queue]
    · rw [set_other _ _ _ _ hqc]
  · rintro ⟨-,h2⟩
    rw [hold_slot, set_same] at h2
    exact close_slot_listen _ h2
  · intro j k hj
    exact release_holds _ hj
  · intro j hj
    exact hold_other _ _ _ _ hj

theorem closed_lost {i c : ℕ} (ho : Owned t) (hi : t.holds i = some c)
    (hs : (t.slot c).state = .closed) : ¬Conserved (apply t (.drop i)) := by
  intro hc'
  have hd := drop_spec t hi
  have hsame : (apply t (.drop i)).slot c = t.slot c := by rw [hd.self, closeSlot, hs]
  have hcl := lost_slot _ c (hc' c (by rw [hsame]; exact (ho.held i c hi).1)) ?_ ?_ (by rw [hsame, hs]; decide)
  · rw [hsame, hs] at hcl
    simp [Closing] at hcl
  · intro j hj
    obtain ⟨hji,hj⟩ := hd.kept j c hj
    exact hji (ho.once j i c hj hi)
  · intro q _ hq
    rw [hd.queue] at hq
    exact (ho.queued q c hq).2.2.2 i hi

theorem queued_lost {i c k : ℕ} (ho : Owned t) (hi : t.holds i = some c)
    (hk : k ∈ (t.slot c).queue) : ¬Conserved (apply t (.drop i)) := by
  intro hc'
  have hd := drop_spec t hi
  obtain ⟨h1,h2,-,h4⟩ := ho.queued c k hk
  have hkc : k ≠ c := by
    rintro rfl
    exact h4 i hi
  have hcl := lost_slot _ k (hc' k (by rw [hd.other k hkc]; exact h1)) ?_ ?_ ?_
  · rw [hd.other k hkc] at hcl
    exact closing_not_waiting _ hcl h2
  · intro j hj
    exact h4 j (hd.kept j k hj).2
  · intro q hl hq
    rw [hd.queue] at hq
    exact hd.dead (ho.apart q c k hq hk ▸ hl)
  · rw [hd.other k hkc]
    intro hsyn
    rw [hsyn] at h2
    simp [Waiting] at h2

theorem child_lost {i c k : ℕ} (ho : Owned t) (hi : t.holds i = some c)
    (hlisten : (t.slot c).state = .listen) (hu : (t.slot k).used = true)
    (hs : (t.slot k).state = .synReceived) (hp : (t.slot k).parent = some c) :
    ¬Conserved (apply t (.drop i)) := by
  intro hc'
  have hd := drop_spec t hi
  have hkc : k ≠ c := by
    rintro rfl
    rw [hlisten] at hs
    cases hs
  have hloose := loose t ho (.inr (by rw [hs]; simp [Held]))
  rcases hc' k (by rw [hd.other k hkc]; exact hu) with ⟨j,h⟩ | ⟨q,-,h⟩ | ⟨-,q,h1,h2⟩ | h
  · exact hloose.1 j (hd.kept j k h).2
  · rw [hd.queue] at h
    exact hloose.2 q h
  · rw [hd.other k hkc, hp] at h1
    exact hd.dead (Option.some.inj h1 ▸ h2)
  · rw [hd.other k hkc, hs] at h
    simp [Closing] at h

theorem drop_conserved (i : ℕ) (ho : Owned t) (hc : Conserved t) :
    Conserved (apply t (.drop i)) ↔ Good t (.drop i) := by
  cases hi : t.holds i with
  | none =>
    simp only [apply, Good, hi]
    exact ⟨fun _ c h1 => absurd h1 (by simp),fun _ => hc⟩
  | some c =>
    have hd := drop_spec t hi
    constructor
    · intro hc' c' hc''
      obtain rfl : c = c' := Option.some.inj (hi.symm.trans hc'')
      refine ⟨fun hs => closed_lost t ho hi hs hc',fun hlisten => ⟨?_,?_⟩⟩
      · by_contra hne
        obtain ⟨k,hk⟩ := List.exists_mem_of_ne_nil _ hne
        exact queued_lost t ho hi hk hc'
      · intro k hu hs hp
        exact child_lost t ho hi hlisten hu hs hp hc'
    · intro hgood j hj
      obtain ⟨hclosed,hlisten⟩ := hgood c hi
      by_cases hjc : j = c
      · subst hjc
        rw [hd.self] at hj
        rcases close_slot_cases (ho.held i j hi).2 with ⟨h1,-⟩ | h1 | h1
        · exact absurd h1 hclosed
        · rw [h1] at hj
          cases hj
        · exact .inr (.inr (.inr (by rwa [hd.self])))
      · rw [hd.other j hjc] at hj
        have hl : ∀ q, q ≠ c → Live t q → Live (apply t (.drop i)) q := by
          intro q hq h
          unfold Live
          rw [hd.other q hq]
          exact h
        refine owner_mono t _ j (by rw [hd.other j hjc]) (by rw [hd.other j hjc]) ?_ ?_ ?_ (hc j hj)
        · intro m hm
          have hmi : m ≠ i := by
            rintro rfl
            exact hjc (Option.some.inj (hm.symm.trans hi))
          exact ⟨m,(hd.holds m hmi).trans hm⟩
        · intro q h1 h2
          have hqc : q ≠ c := by
            rintro rfl
            rw [(hlisten h1.2).1] at h2
            cases h2
          exact ⟨hl q hqc h1,by rwa [hd.queue]⟩
        · intro q h1 h2 h3
          refine hl q ?_ h1
          rintro rfl
          exact (hlisten h1.2).2 j hj h2 h3

theorem tick_conserved (lost done : ℕ → Bool) (ho : Owned t) (he : Enabled t (.tick lost done))
    (hc : Conserved t) : Conserved (apply t (.tick lost done)) ↔ Good t (.tick lost done) := by
  have hslot : ∀ k, (apply t (.tick lost done)).slot k = tickSlot (t.slot k) (lost k) (done k) := fun _ => rfl
  have hqueue : ∀ q, ((apply t (.tick lost done)).slot q).queue = (t.slot q).queue := fun q => tick_slot_queue _ _ _
  have hlive : ∀ q, Live t q → Live (apply t (.tick lost done)) q := by
    intro q hl
    unfold Live
    rw [tick_quiet t lost done ho he hl.1 (.inr hl.2)]
    exact hl
  have hlost : ∀ k, lost k = true →
      (apply t (.tick lost done)).slot k = { t.slot k with state := .closed, unacked := false } := by
    intro k hk
    rw [hslot, tickSlot, if_pos hk]
  constructor
  · intro hc' k hk hcl
    obtain ⟨hu,-⟩ := (he k).1 hk
    have hloose := loose t ho (.inr (closing_not_held _ hcl))
    have hown := lost_slot _ k (hc' k (by rw [hlost k hk]; exact hu)) hloose.1
      (fun q _ => by rw [hqueue]; exact hloose.2 q) (by rw [hlost k hk]; simp)
    rw [hlost k hk] at hown
    simp [Closing] at hown
  · intro hgood k hk
    by_cases hl : lost k = true
    · obtain ⟨hu,ha⟩ := (he k).1 hl
      rcases hc k hu with h | ⟨q,-,h⟩ | ⟨h,-⟩ | h
      · exact .inl h
      · rw [(ho.queued q k h).2.2.1] at ha
        cases ha
      · rw [ho.quiet k hu (.inl h)] at ha
        cases ha
      · exact absurd h (hgood k hl)
    · have hsame : (apply t (.tick lost done)).slot k = t.slot k := by
        rw [hslot] at hk ⊢
        unfold tickSlot at hk ⊢
        split_ifs at hk ⊢
        rfl
      rw [hsame] at hk
      exact owner_mono t _ k (by rw [hsame]) (by rw [hsame]) (fun i hi => ⟨i,hi⟩)
        (fun q h1 h2 => ⟨hlive q h1,by rwa [hqueue]⟩) (fun q h1 _ _ => hlive q h1) (hc k hk)

theorem apply_conserved (ho : Owned t) (he : Enabled t a) (hc : Conserved t) :
    Conserved (apply t a) ↔ Good t a := by
  cases a with
  | idle => exact iff_of_true hc trivial
  | start i k s => exact start_conserved t ho he hc
  | syn q k => exact iff_of_true (syn_conserved t he hc) trivial
  | finish k => exact finish_conserved t k ho he hc
  | move k s => exact iff_of_true (move_conserved t k s he hc) trivial
  | free k => exact iff_of_true (free_conserved t k he hc) trivial
  | send k => exact iff_of_true (send_conserved t k he hc) trivial
  | take q i => exact take_conserved t ho he hc
  | drop i => exact drop_conserved t i ho hc
  | tick lost done => exact tick_conserved t lost done ho he hc

def GoodStep (st : Stack) (op : Op) : Prop := Good (view st) (action st op)

/-- Every slot in use has an owner all along a run if and only if none of the
steps of the run loses one. -/
theorem slots_conserved (ip : ℕ) (ops : List Op) :
    (∀ pre, pre <+: ops → Conserved (view (run ip pre))) ↔
      ∀ pre op, pre++[op] <+: ops → GoodStep (run ip pre) op := by
  refine prefix_iff step (fun st => Rings st ∧ Owned (view st)) (fun st => Conserved (view st)) GoodStep
    ⟨boot_rings ip,boot_owned ip⟩ ?_ ?_ ?_ ops
  · rintro st op ⟨hr,ho⟩
    refine ⟨step_rings st hr op,?_⟩
    rw [step_view st hr op]
    exact apply_owned _ ho (step_enabled st hr op)
  · intro k hk
    cases hk
  · rintro st op ⟨hr,ho⟩ hc
    rw [step_view st hr op]
    exact apply_conserved _ _ ho (step_enabled st hr op) hc

def serverPacket (flags : Flags) : Packet where
  srcIp := 7
  dstIp := 9
  seg := { srcPort := 80, dstPort := 49152, seqNum := 100, ackNum := 2, flags := flags, data := [] }

def resetOps : List Op :=
  [.create .stream,.connect 0 7 80 0 0,.receive 0 (serverPacket (tcpSyn ||| tcpAck)),
    .receive 0 (serverPacket tcpRst)]

def connectOps : List Op := [.create .stream,.connect 0 7 80 0 0]

def isDrop (i : ℕ) : Bool :=
  match a with
  | .drop j => i == j
  | _ => false

def isStart (i k : ℕ) (s : TcpState) : Bool :=
  match a with
  | .start j l s' => i == j && k == l && s == s'
  | _ => false

theorem is_drop {i : ℕ} (h : isDrop a i = true) : a = .drop i := by
  cases a <;> simp_all [isDrop]

theorem is_start {i k : ℕ} {s : TcpState} (h : isStart a i k s = true) : a = .start i k s := by
  cases a <;> simp_all [isStart]

theorem lost_runs :
    (isDrop (action (run 9 resetOps) (.close 0)) 0 = true ∧ (view (run 9 resetOps)).holds 0 = some 0 ∧
      ((view (run 9 resetOps)).slot 0).state = .closed) ∧
    isStart (action (run 9 connectOps) (.connect 0 7 81 0 0)) 0 1 .synSent = true ∧
      (view (run 9 connectOps)).holds 0 = some 0 := by
  decide +kernel

/-- After a reset the close of the socket leaves the slot in use, and a second
connect on a socket leaves the slot of the first one in use, with no owner. -/
theorem slots_lost :
    ¬Conserved (view (run 9 (resetOps++[.close 0]))) ∧
      ¬Conserved (view (run 9 (connectOps++[.connect 0 7 81 0 0]))) := by
  obtain ⟨⟨h1,h2,h3⟩,h4,h5⟩ := lost_runs
  constructor
  · rw [run_snoc, step_view _ (run_rings 9 _), is_drop _ h1]
    exact closed_lost _ (run_owned 9 _) h2 h3
  · have he := step_enabled (run 9 connectOps) (run_rings 9 _) (.connect 0 7 81 0 0)
    rw [is_start _ h4] at he
    rw [run_snoc, step_view _ (run_rings 9 _), is_start _ h4]
    exact start_lost _ 0 1 0 .synSent (run_owned 9 _) he h5

end HobbyOS.SlotConservation
