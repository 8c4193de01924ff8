import HobbyOS.SocketRuns

/-!
# The accept queue against the connections it should have

A history is kept beside the run: which allocation filled each slot, from
which listener a connection came, whether it has reached ESTABLISHED and
whether `tcp_accept` has returned it. A handshake that ends when its listener
is gone or has a full queue, and the close of a listener that still has a
queue, are the steps after which a connection waits nowhere.
-/

namespace HobbyOS.AcceptQueue
open Tcp Socket SlotTable SocketSteps SocketRuns Function

/-- `born` numbers the allocations, so that a listener is named by its slot
and its number. -/
structure Hist where
  clock : ℕ := 1
  born : ℕ → ℕ := fun _ => 0
  origin : ℕ → Option (ℕ × ℕ) := fun _ => none
  reached : ℕ → Bool := fun _ => false
  taken : ℕ → Bool := fun _ => false

def Hist.birth (h : Hist) (k : ℕ) (parent : Option (ℕ × ℕ)) : Hist where
  clock := h.clock+1
  born := update h.born k h.clock
  origin := update h.origin k parent
  reached := update h.reached k false
  taken := update h.taken k false

def Hist.reach (h : Hist) (k : ℕ) : Hist := { h with reached := update h.reached k true }

variable (t : Tab)

def note (h : Hist) : Action → Hist
  | .start _ k _ => h.birth k none
  | .syn q k => h.birth k (some (q,h.born q))
  | .finish k => h.reach k
  | .move k s => if s = .established then h.reach k else h
  | .take q _ =>
    match (t.slot q).queue with
    | [] => h
    | k::_ => { h with taken := update h.taken k true }
  | _ => h

/-- A connection of a listener that has reached ESTABLISHED and has not been
returned by `tcp_accept`. -/
def Pending (h : Hist) (k : ℕ) : Prop :=
  (t.slot k).used = true ∧ (h.origin k).isSome = true ∧ h.reached k = true ∧ h.taken k = false

/-- The connections that wait and the queues agree. -/
structure Exact (t : Tab) (h : Hist) : Prop where
  waiting : ∀ k, Pending t h k → ∃ q, h.origin k = some (q,h.born q) ∧ Live t q ∧
    (t.slot q).queue.count k = 1 ∧ ∀ r, r ≠ q → k ∉ (t.slot r).queue
  member : ∀ q k, k ∈ (t.slot q).queue → Pending t h k ∧ h.origin k = some (q,h.born q)

/-- The listener of a handshake that ends is still there and has room, and a
listener that is closed has an empty queue. -/
def Good (h : Hist) : Action → Prop
  | .finish k => ∃ q, h.origin k = some (q,h.born q) ∧ Live t q ∧ (t.slot q).queue.length < tcpAcceptQueue
  | .drop i => ∀ c, t.holds i = some c → (t.slot c).state = .listen → (t.slot c).queue = []
  | _ => True

structure Traced (t : Tab) (h : Hist) : Prop where
  child : ∀ k, (t.slot k).used = true → (t.slot k).state = .synReceived → ∃ q g, (t.slot k).parent = some q ∧
    h.origin k = some (q,g) ∧ h.reached k = false ∧ h.taken k = false
  early : ∀ k, (t.slot k).used = true → (h.origin k).isSome = true → h.reached k = false →
    (t.slot k).state = .synReceived

variable (h : Hist) (k : ℕ)

theorem traced_set {x : Slot} (ht : Traced t h) (hu : x.used = true → (t.slot k).used = true)
    (hp : x.parent = (t.slot k).parent) (hs : x.state = .synReceived ↔ (t.slot k).state = .synReceived) : Traced (t.set k x) h := by
  refine ⟨?_,?_⟩
  · intro j hj hst
    by_cases hjk : j = k
    · subst hjk
      rw [set_same] at hj hst ⊢
      rw [hp]
      exact ht.child j (hu hj) (hs.mp hst)
    · rw [set_other _ _ _ _ hjk] at hj hst ⊢
      exact ht.child j hj hst
  · intro j hj ho hr
    by_cases hjk : j = k
    · subst hjk
      rw [set_same] at hj ⊢
      exact hs.mpr (ht.early j (hu hj) ho hr)
    · rw [set_other _ _ _ _ hjk] at hj ⊢
      exact ht.early j hj ho hr

theorem traced_birth (x : Slot) (o : Option (ℕ × ℕ)) (ht : Traced t h)
    (hchild : x.state = .synReceived → ∃ q g, x.parent = some q ∧ o = some (q,g))
    (hearly : o.isSome = true → x.state = .synReceived) : Traced (t.set k x) (h.birth k o) := by
  refine ⟨?_,?_⟩
  · intro j hj hst
    by_cases hjk : j = k
    · subst hjk
      rw [set_same] at hst ⊢
      obtain ⟨q,g,hq,ho⟩ := hchild hst
      exact ⟨q,g,hq,by simp [Hist.birth, ho]⟩
    · rw [set_other _ _ _ _ hjk] at hj hst ⊢
      simpa [Hist.birth, update_of_ne hjk] using ht.child j hj hst
  · intro j hj ho hr
    by_cases hjk : j = k
    · subst hjk
      rw [set_same]
      simp only [Hist.birth, update_self] at ho
      exact hearly ho
    · rw [set_other _ _ _ _ hjk] at hj ⊢
      simp only [Hist.birth, update_of_ne hjk] at ho hr
      exact ht.early j hj ho hr

theorem traced_reach (ht : Traced t h) : Traced (establish t k) (h.reach k) := by
  refine ⟨?_,?_⟩
  · intro j hj hst
    rw [establish_slot] at hj hst ⊢
    by_cases hjk : j = k
    · rw [if_pos hjk] at hst
      cases hst
    · rw [if_neg hjk] at hj hst ⊢
      simpa [Hist.reach, update_of_ne hjk] using ht.child j hj hst
  · intro j hj ho hr
    by_cases hjk : j = k
    · subst hjk
      simp [Hist.reach] at hr
    · rw [establish_slot, if_neg hjk] at hj ⊢
      simp only [Hist.reach, update_of_ne hjk] at hr
      exact ht.early j hj ho hr

theorem traced_core (t t' : Tab) (h h' : Hist) (ht : Traced t h)
    (hs : ∀ k, (t'.slot k).state = (t.slot k).state ∧ (t'.slot k).used = (t.slot k).used ∧
      (t'.slot k).parent = (t.slot k).parent)
    (ho : h'.origin = h.origin) (hr : h'.reached = h.reached)
    (hk : ∀ k, (t.slot k).state = .synReceived → (t.slot k).used = true → h'.taken k = h.taken k) :
    Traced t' h' := by
  refine ⟨?_,?_⟩
  · intro k hu hst
    rw [(hs k).1] at hst
    rw [(hs k).2.1] at hu
    rw [(hs k).2.2, ho, hr, hk k hst hu]
    exact ht.child k hu hst
  · intro k hu ho' hr'
    rw [(hs k).2.1] at hu
    rw [ho] at ho'
    rw [hr] at hr'
    rw [(hs k).1]
    exact ht.early k hu ho' hr'

theorem apply_traced {a : Action} (ho : Owned t) (ht : Traced t h) (he : Enabled t a) :
    Traced (apply t a) (note t h a) := by
  cases a with
  | idle => exact ht
  | start i k s =>
    have hne : s ≠ .synReceived := by rcases he.2 with rfl | rfl <;> decide
    have hb := traced_birth t h k { state := s, used := true } none ht (fun hs => absurd hs hne)
      (fun hs => by cases hs)
    exact traced_core _ _ _ _ hb (fun _ => ⟨rfl,rfl,rfl⟩) rfl rfl (fun _ _ _ => rfl)
  | syn q k => exact traced_birth t h k _ _ ht (fun _ => ⟨q,h.born q,rfl,rfl⟩) (fun _ => rfl)
  | finish k =>
    have hr := traced_reach t h k ht
    simp only [apply]
    split
    · exact hr
    · exact traced_core _ _ _ _ hr (push_core _ _ k) rfl rfl (fun _ _ _ => rfl)
  | move k s =>
    obtain ⟨hu,hne,hm⟩ := he
    simp only [note]
    split_ifs with hs
    · subst hs
      exact traced_reach t h k ht
    · refine traced_set t h k ht (fun _ => hu) rfl ⟨fun h1 => ?_,fun h1 => absurd h1 hne⟩
      exact (moves_quiet hm (.inl h1)) ▸ h1
  | free k =>
    refine traced_set t h k ht (fun h1 => by cases h1) rfl ?_
    rw [he.2]
    simp
  | send k => exact traced_set t h k ht (fun h1 => h1) rfl Iff.rfl
  | take q i =>
    cases hq : (t.slot q).queue with
    | nil =>
      simp only [apply, note, hq]
      exact ht
    | cons k rest =>
      have htaken : ∀ j, (t.slot j).state = .synReceived → (t.slot j).used = true →
          update h.taken k true j = h.taken j := by
        intro j hst _
        refine update_of_ne ?_ _ _
        rintro rfl
        have hw := (ho.queued q j (by rw [hq]; exact List.mem_cons_self)).2.1
        rw [hst] at hw
        simp [Waiting] at hw
      have hcore : ∀ j, ((t.set q { t.slot q with queue := rest }).slot j).state = (t.slot j).state ∧
          ((t.set q { t.slot q with queue := rest }).slot j).used = (t.slot j).used ∧
          ((t.set q { t.slot q with queue := rest }).slot j).parent = (t.slot j).parent := by
        intro j
        by_cases hj : j = q
        · subst hj
          rw [set_same]
          exact ⟨rfl,rfl,rfl⟩
        · rw [set_other _ _ _ _ hj]
          exact ⟨rfl,rfl,rfl⟩
      cases i <;> simp only [apply, note, hq] <;> exact traced_core t _ h _ ht hcore rfl rfl htaken
  | drop i =>
    simp only [apply]
    split
    · exact ht
    · rename_i c hc
      have hset := traced_set t h c ht (close_slot_used _)
        (by unfold closeSlot; split <;> rfl) (close_slot_state _)
      exact traced_core _ _ _ _ hset (fun _ => ⟨rfl,rfl,rfl⟩) rfl rfl (fun _ _ _ => rfl)
  | tick lost done =>
    have hslot : ∀ k, (t.slot k).state = .synReceived → (t.slot k).used = true →
        (apply t (.tick lost done)).slot k = t.slot k :=
      fun k hst hu => tick_quiet t lost done ho he hu (.inl hst)
    have hback : ∀ k, ((apply t (.tick lost done)).slot k).used = true → (t.slot k).used = true := by
      intro k hk
      change (tickSlot (t.slot k) (lost k) (done k)).used = true at hk
      unfold tickSlot at hk
      split_ifs at hk <;> exact hk
    refine ⟨?_,?_⟩
    · intro k hu hst
      have hst0 : (t.slot k).state = .synReceived := by
        change (tickSlot (t.slot k) (lost k) (done k)).state = .synReceived at hst
        unfold tickSlot at hst
        split_ifs at hst
        exact hst
      rw [hslot k hst0 (hback k hu)]
      exact ht.child k (hback k hu) hst0
    · intro k hu ho' hr'
      have hst0 := ht.early k (hback k hu) ho' hr'
      rw [hslot k hst0 (hback k hu)]
      exact hst0

theorem exact_of {h : Hist} (ho : Owned t)
    (hw : ∀ k, Pending t h k → ∃ q, h.origin k = some (q,h.born q) ∧ Live t q ∧ k ∈ (t.slot q).queue)
    (hm : ∀ q k, k ∈ (t.slot q).queue → Pending t h k ∧ h.origin k = some (q,h.born q)) : Exact t h := by
  refine ⟨?_,hm⟩
  intro k hk
  obtain ⟨q,horigin,hlive,hq⟩ := hw k hk
  refine ⟨q,horigin,hlive,List.count_eq_one_of_mem (ho.nodup q) hq,?_⟩
  intro r hr hk'
  exact hr (ho.apart r q k hk' hq)

theorem exact_queue {h : Hist} (hx : Exact t h) {k : ℕ} (hk : Pending t h k) :
    ∃ q, h.origin k = some (q,h.born q) ∧ Live t q ∧ k ∈ (t.slot q).queue := by
  obtain ⟨q,horigin,hlive,hcount,-⟩ := hx.waiting k hk
  exact ⟨q,horigin,hlive,List.count_pos_iff.mp (by omega)⟩

theorem queue_live {h : Hist} (hx : Exact t h) {q : ℕ} (hq : (t.slot q).queue ≠ []) : Live t q := by
  obtain ⟨k,hk⟩ := List.exists_mem_of_ne_nil _ hq
  obtain ⟨hp,horigin⟩ := hx.member q k hk
  obtain ⟨r,hr,hlive,-⟩ := exact_queue t hx hp
  rw [horigin] at hr
  obtain rfl : q = r := (Prod.mk.inj (Option.some.inj hr)).1
  exact hlive

theorem exact_frame {t t' : Tab} {h h' : Hist} (ho : Owned t') (hx : Exact t h)
    (hq : ∀ q, (t'.slot q).queue = (t.slot q).queue)
    (hp : ∀ k, Pending t' h' k → Pending t h k)
    (hp' : ∀ q k, k ∈ (t.slot q).queue → Pending t h k → Pending t' h' k)
    (horigin : ∀ k, Pending t h k → h'.origin k = h.origin k)
    (hborn : ∀ q, Live t q → h'.born q = h.born q)
    (hlive : ∀ q, (t.slot q).queue ≠ [] → Live t q → Live t' q) : Exact t' h' := by
  refine exact_of t' ho ?_ ?_
  · intro k hk
    have hk0 := hp k hk
    obtain ⟨q,h1,h2,h3⟩ := exact_queue t hx hk0
    refine ⟨q,?_,hlive q (List.ne_nil_of_mem h3) h2,by rwa [hq]⟩
    rw [horigin k hk0, h1, hborn q h2]
  · intro q k hk
    rw [hq] at hk
    obtain ⟨h1,h2⟩ := hx.member q k hk
    have hl := queue_live t hx (List.ne_nil_of_mem hk)
    exact ⟨hp' q k hk h1,by rw [horigin k h1, h2, hborn q hl]⟩

theorem exact_set {h : Hist} {k : ℕ} {x : Slot} (ho : Owned (t.set k x)) (hx : Exact t h)
    (hq : x.queue = (t.slot k).queue) (hu : x.used = true → (t.slot k).used = true)
    (hkeep : ∀ q, k ∈ (t.slot q).queue → x.used = true)
    (hlive : (t.slot k).queue ≠ [] → Live t k → x.used = true ∧ x.state = .listen) : Exact (t.set k x) h := by
  refine exact_frame ho hx ?_ ?_ ?_ (fun _ _ => rfl) (fun _ _ => rfl) ?_
  · intro q
    by_cases hqk : q = k
    · subst hqk
      rw [set_same, hq]
    · rw [set_other _ _ _ _ hqk]
  · rintro j ⟨h1,h2⟩
    refine ⟨?_,h2⟩
    by_cases hjk : j = k
    · subst hjk
      rw [set_same] at h1
      exact hu h1
    · rwa [set_other _ _ _ _ hjk] at h1
  · rintro q j hj ⟨h1,h2⟩
    refine ⟨?_,h2⟩
    by_cases hjk : j = k
    · subst hjk
      rw [set_same]
      exact hkeep q hj
    · rwa [set_other _ _ _ _ hjk]
  · intro q hne hl
    unfold Live
    by_cases hqk : q = k
    · subst hqk
      rw [set_same]
      exact hlive hne hl
    · rw [set_other _ _ _ _ hqk]
      exact hl

theorem exact_hold (i : ℕ) (c : Option ℕ) (hx : Exact t h) : Exact (t.hold i c) h :=
  ⟨hx.waiting,hx.member⟩

theorem exact_birth {h : Hist} {k : ℕ} {x : Slot} (o : Option (ℕ × ℕ)) (ho : Owned (t.set k x))
    (hx : Exact t h) (hu : (t.slot k).used = false) (hq : x.queue = []) : Exact (t.set k x) (h.birth k o) := by
  have hnot : ¬Pending t h k := by
    rintro ⟨h1,-⟩
    rw [hu] at h1
    cases h1
  have hempty : (t.slot k).queue = [] := by
    by_contra hne
    have := (queue_live t hx hne).1
    rw [hu] at this
    cases this
  have hpend : ∀ j, j ≠ k → (Pending (t.set k x) (h.birth k o) j ↔ Pending t h j) := by
    intro j hj
    unfold Pending
    rw [set_other _ _ _ _ hj]
    simp only [Hist.birth, update_of_ne hj]
  have hborn : ∀ q, Live t q → q ≠ k := by
    rintro q ⟨h1,-⟩ rfl
    rw [hu] at h1
    cases h1
  refine exact_frame ho hx ?_ ?_ ?_ ?_ ?_ ?_
  · intro q
    by_cases hqk : q = k
    · subst hqk
      rw [set_same, hq, hempty]
    · rw [set_other _ _ _ _ hqk]
  · intro j hj
    by_cases hjk : j = k
    · subst hjk
      simp [Pending, Hist.birth] at hj
    · exact (hpend j hjk).mp hj
  · intro q j _ hj
    have hjk : j ≠ k := by
      rintro rfl
      exact hnot hj
    exact (hpend j hjk).mpr hj
  · intro j hj
    have hjk : j ≠ k := by
      rintro rfl
      exact hnot hj
    simp only [Hist.birth, update_of_ne hjk]
  · intro q hl
    simp only [Hist.birth, update_of_ne (hborn q hl)]
  · intro q _ hl
    unfold Live
    rw [set_other _ _ _ _ (hborn q hl)]
    exact hl

structure Finished (t : Tab) (h : Hist) (k p : ℕ) : Prop where
  queue : ∀ r, ((apply t (.finish k)).slot r).queue =
    if r = p ∧ (t.slot p).queue.length < tcpAcceptQueue then (t.slot p).queue++[k] else (t.slot r).queue
  live : ∀ r, Live (apply t (.finish k)) r ↔ Live t r
  pending : ∀ j, Pending (apply t (.finish k)) (h.reach k) j ↔ j = k ∨ Pending t h j
  out : ∀ r, k ∉ (t.slot r).queue
  notYet : ¬Pending t h k

theorem finish_spec {h : Hist} {k p g : ℕ} (ho : Owned t) (he : Enabled t (.finish k))
    (hp : (t.slot k).parent = some p) (horigin : h.origin k = some (p,g)) (hr : h.reached k = false)
    (htk : h.taken k = false) : Finished t h k p := by
  obtain ⟨hu,hs⟩ := he
  have hne : (t.slot k).state ≠ .listen := by rw [hs]; decide
  have happly : apply t (.finish k) = (establish t k).set p (push ((establish t k).slot p) k) := by
    simp only [apply, hp]
  refine ⟨?_,?_,?_,(loose t ho (.inr (by rw [hs]; simp [Held]))).2,?_⟩
  · intro r
    rw [happly, push_queue, establish_queue, establish_queue]
  · intro r
    rw [happly, push_live, establish_live t k r hne]
  · intro j
    have hused : ((apply t (.finish k)).slot j).used = (t.slot j).used := by
      rw [happly, (push_core _ p k j).2.1, establish_slot]
      split_ifs with hj
      · rw [hj]
      · rfl
    unfold Pending
    rw [hused]
    by_cases hj : j = k
    · subst hj
      simp [Hist.reach, hu, horigin, htk]
    · simp [Hist.reach, hj]
  · rintro ⟨-,-,h3,-⟩
    rw [hr] at h3
    cases h3

theorem finish_exact (ho : Owned t) (ht : Traced t h) (he : Enabled t (.finish k)) (hx : Exact t h) :
    Exact (apply t (.finish k)) (h.reach k) ↔ Good t h (.finish k) := by
  obtain ⟨p,g,hp,horigin,hr,htk⟩ := ht.child k he.1 he.2
  have hf := finish_spec t ho he hp horigin hr htk
  constructor
  · intro hx'
    obtain ⟨q,h1,h2,h3⟩ := exact_queue _ hx' ((hf.pending k).mpr (.inl rfl))
    have h1' : h.origin k = some (q,h.born q) := h1
    obtain rfl : p = q := by
      rw [horigin] at h1'
      exact (Prod.mk.inj (Option.some.inj h1')).1
    refine ⟨p,h1',(hf.live p).mp h2,?_⟩
    by_contra hfull
    rw [hf.queue, if_neg (fun h => hfull h.2)] at h3
    exact hf.out p h3
  · rintro ⟨q,h1,h2,h3⟩
    obtain rfl : p = q := by
      rw [horigin] at h1
      exact (Prod.mk.inj (Option.some.inj h1)).1
    have hmem : ∀ r j, j ∈ ((apply t (.finish k)).slot r).queue ↔ j ∈ (t.slot r).queue ∨ r = p ∧ j = k := by
      intro r j
      rw [hf.queue]
      by_cases hrp : r = p
      · subst hrp
        rw [if_pos ⟨rfl,h3⟩]
        simp
      · simp [hrp]
    refine exact_of _ (apply_owned t ho he) ?_ ?_
    · intro j hj
      rcases (hf.pending j).mp hj with rfl | hj
      · exact ⟨p,h1,(hf.live p).mpr h2,(hmem p j).mpr (.inr ⟨rfl,rfl⟩)⟩
      · obtain ⟨q,hq1,hq2,hq3⟩ := exact_queue t hx hj
        exact ⟨q,hq1,(hf.live q).mpr hq2,(hmem q j).mpr (.inl hq3)⟩
    · intro r j hj
      rcases (hmem r j).mp hj with hj | ⟨rfl,rfl⟩
      · obtain ⟨hm1,hm2⟩ := hx.member r j hj
        exact ⟨(hf.pending j).mpr (.inr hm1),hm2⟩
      · exact ⟨(hf.pending j).mpr (.inl rfl),h1⟩

theorem take_exact (q : ℕ) (i : Option ℕ) (ho : Owned t) (hx : Exact t h) :
    Exact (apply t (.take q i)) (note t h (.take q i)) := by
  have ho' := take_owned t q i ho
  cases hq : (t.slot q).queue with
  | nil =>
    simp only [apply, note, hq]
    exact hx
  | cons k rest =>
    have hslot : (apply t (.take q i)).slot = (t.set q { t.slot q with queue := rest }).slot := by
      cases i <;> simp only [apply, hq, hold_slot]
    have hnote : note t h (.take q i) = { h with taken := update h.taken k true } := by
      simp only [note, hq]
    have hlive : ∀ r, Live (apply t (.take q i)) r ↔ Live t r := by
      intro r
      unfold Live
      rw [hslot, (queue_core t q r rest).1, (queue_core t q r rest).2]
    have hpend : ∀ j, Pending (apply t (.take q i)) (note t h (.take q i)) j ↔ j ≠ k ∧ Pending t h j := by
      intro j
      unfold Pending
      rw [hslot, (queue_core t q j rest).1, hnote]
      by_cases hj : j = k
      · subst hj
        simp
      · simp [hj]
    have hmem : ∀ r j, j ∈ ((apply t (.take q i)).slot r).queue ↔ j ≠ k ∧ j ∈ (t.slot r).queue := by
      intro r j
      rw [hslot]
      constructor
      · intro hj
        refine ⟨fun hjk => taken_out t r ho hq (hjk ▸ hj),?_⟩
        by_cases hr : r = q
        · subst hr
          rw [set_same] at hj
          rw [hq]
          exact List.mem_cons_of_mem k hj
        · rwa [set_other _ _ _ _ hr] at hj
      · rintro ⟨hjk,hj⟩
        by_cases hr : r = q
        · subst hr
          rw [set_same]
          rw [hq] at hj
          exact (List.mem_cons.mp hj).resolve_left hjk
        · rwa [set_other _ _ _ _ hr]
    refine exact_of _ ho' ?_ ?_
    · intro j hj
      obtain ⟨hjk,hj⟩ := (hpend j).mp hj
      obtain ⟨r,h1,h2,h3⟩ := exact_queue t hx hj
      exact ⟨r,by rw [hnote]; exact h1,(hlive r).mpr h2,(hmem r j).mpr ⟨hjk,h3⟩⟩
    · intro r j hj
      obtain ⟨hjk,hj⟩ := (hmem r j).mp hj
      obtain ⟨h1,h2⟩ := hx.member r j hj
      exact ⟨(hpend j).mpr ⟨hjk,h1⟩,by rw [hnote]; exact h2⟩

theorem drop_exact (i : ℕ) (ho : Owned t) (hx : Exact t h) : Exact (apply t (.drop i)) h ↔ Good t h (.drop i) := by
  have ho' := drop_owned t i ho
  cases hc : t.holds i with
  | none =>
    simp only [apply, Good, hc]
    exact ⟨fun _ c h1 => absurd h1 (by simp),fun _ => hx⟩
  | some c =>
    simp only [apply, Good, hc] at ho' ⊢
    have hout : ∀ q, c ∉ (t.slot q).queue := fun q hq => (ho.queued q c hq).2.2.2 i hc
    constructor
    · intro hx' c' hc' hs
      obtain rfl := Option.some.inj hc'
      by_contra hne
      obtain ⟨k,hk⟩ := List.exists_mem_of_ne_nil _ hne
      obtain ⟨hp,horigin⟩ := hx.member c k hk
      have hkc : k ≠ c := by
        rintro rfl
        exact hout k hk
      have hp' : Pending ((t.set c (closeSlot (t.slot c))).hold i none) h k := by
        refine ⟨?_,hp.2⟩
        rw [hold_slot, set_other _ _ _ _ hkc]
        exact hp.1
      obtain ⟨q,h1,h2,-⟩ := exact_queue _ hx' hp'
      rw [horigin] at h1
      obtain rfl : c = q := (Prod.mk.inj (Option.some.inj h1)).1
      have hdead := h2.1
      rw [hold_slot, set_same, closeSlot, hs] at hdead
      cases hdead
    · intro hgood
      have hrel : Owned ((t.hold i none).set c (closeSlot (t.slot c))) := ho'
      refine exact_set (t.hold i none) hrel (exact_hold t h i none hx) (close_slot_queue _)
        (close_slot_used _) (fun q hq => absurd hq (hout q)) ?_
      intro hne hl
      exact absurd (hgood c rfl hl.2) hne

theorem tick_exact (lost done : ℕ → Bool) (ho : Owned t) (he : Enabled t (.tick lost done)) (hx : Exact t h) : Exact (apply t (.tick lost done)) h := by
  have hslot : ∀ k, (apply t (.tick lost done)).slot k = tickSlot (t.slot k) (lost k) (done k) := fun _ => rfl
  have hused : ∀ k, (tickSlot (t.slot k) (lost k) (done k)).used = true → (t.slot k).used = true := by
    intro k hk
    unfold tickSlot at hk
    split_ifs at hk <;> exact hk
  refine exact_frame (tick_owned t lost done ho he) hx (fun q => tick_slot_queue _ _ _) ?_ ?_
    (fun _ _ => rfl) (fun _ _ => rfl) ?_
  · rintro k ⟨h1,h2⟩
    exact ⟨hused k h1,h2⟩
  · rintro q k hk ⟨-,h2⟩
    exact ⟨((tick_owned t lost done ho he).queued q k (by rw [hslot, tick_slot_queue]; exact hk)).1,h2⟩
  · intro q _ hl
    unfold Live
    rw [tick_quiet t lost done ho he hl.1 (.inr hl.2)]
    exact hl

theorem apply_exact {a : Action} (ho : Owned t) (ht : Traced t h) (he : Enabled t a) (hx : Exact t h) : Exact (apply t a) (note t h a) ↔ Good t h a := by
  have ho' := apply_owned t ho he
  cases a with
  | idle => exact iff_of_true hx trivial
  | start i k s =>
    refine iff_of_true (exact_hold _ _ i (some k) (exact_birth t none ?_ hx he.1 rfl)) trivial
    exact loose_set t k _ ho (List.nil_sublist _) (loose t ho (.inl he.1)) (fun _ _ => rfl)
  | syn q k => exact iff_of_true (exact_birth t _ ho' hx he.1 rfl) trivial
  | finish k => exact finish_exact t h k ho ht he hx
  | move k s =>
    refine iff_of_true ?_ trivial
    obtain ⟨hu,hne,hm⟩ := he
    have hset : Exact (t.set k { t.slot k with state := s }) h := by
      refine exact_set t ho' hx rfl (fun _ => hu) (fun _ _ => hu) ?_
      intro _ hl
      rcases hm with rfl | ⟨h1,-⟩ | ⟨h1,-⟩ | ⟨h1,-⟩ | ⟨h1,-⟩
      · exact hl
      all_goals (have h2 := hl.2; rw [h1] at h2; cases h2)
    simp only [note]
    split_ifs with hs
    · -- a connection that came from a listener had reached ESTABLISHED before
      have hp : ∀ j, Pending (t.set k { t.slot k with state := s }) (h.reach k) j ↔
          Pending (t.set k { t.slot k with state := s }) h j := by
        intro j
        by_cases hj : j = k
        · subst hj
          unfold Pending
          simp only [Hist.reach, update_self, true_and]
          constructor
          · rintro ⟨h1,h2,h3⟩
            refine ⟨h1,h2,?_,h3⟩
            by_contra hr
            exact hne (ht.early j hu h2 (by simpa using hr))
          · rintro ⟨h1,h2,-,h3⟩
            exact ⟨h1,h2,h3⟩
        · unfold Pending
          simp only [Hist.reach, update_of_ne hj]
      exact exact_frame ho' hset (fun _ => rfl) (fun j hj => (hp j).mp hj) (fun _ j _ hj => (hp j).mpr hj)
        (fun _ _ => rfl) (fun _ _ => rfl) (fun _ _ hl => hl)
    · exact hset
  | free k =>
    refine iff_of_true (exact_set t ho' hx rfl (fun h1 => by cases h1) ?_ ?_) trivial
    · intro q hq
      exact absurd hq ((loose t ho (.inr (by rw [he.2]; simp [Held]))).2 q)
    · intro _ hl
      have h2 := hl.2
      rw [he.2] at h2
      cases h2
  | send k =>
    refine iff_of_true (exact_set t ho' hx rfl (fun h1 => h1) ?_ (fun _ hl => hl)) trivial
    intro q hq
    exact (ho.queued q k hq).1
  | take q i => exact iff_of_true (take_exact t h q i ho hx) trivial
  | drop i => exact drop_exact t h i ho hx
  | tick lost done => exact iff_of_true (tick_exact t h lost done ho he hx) trivial

structure Net where
  stack : Stack
  hist : Hist := {}

variable (n : Net) (ip : ℕ)

def netStep (op : Op) : Net where
  stack := step n.stack op
  hist := note (view n.stack) n.hist (action n.stack op)

def netBoot : Net := { stack := boot ip }

def netRun (ops : List Op) : Net := ops.foldl netStep (netBoot ip)

/-- The queues have exactly the connections that wait, and the fields that
make a queue fit together. -/
def AcceptExact : Prop :=
  Exact (view n.stack) n.hist ∧ ∀ q, QueueRing (n.stack.host.conns q)

def GoodStep (op : Op) : Prop := Good (view n.stack) n.hist (action n.stack op)

structure NetInv (n : Net) : Prop where
  rings : Rings n.stack
  owned : Owned (view n.stack)
  traced : Traced (view n.stack) n.hist

theorem boot_inv : NetInv (netBoot ip) := by
  refine ⟨boot_rings ip,boot_owned ip,?_,?_⟩
  · intro k hu
    cases hu
  · intro k hu
    cases hu

theorem step_inv (op : Op) (h : NetInv n) : NetInv (netStep n op) := by
  have hview := step_view n.stack h.rings op
  have he := step_enabled n.stack h.rings op
  refine ⟨step_rings n.stack h.rings op,?_,?_⟩
  · change Owned (view (step n.stack op))
    rw [hview]
    exact apply_owned _ h.owned he
  · change Traced (view (step n.stack op)) _
    rw [hview]
    exact apply_traced _ _ h.owned h.traced he

theorem step_exact (op : Op) (h : NetInv n) (hx : AcceptExact n) :
    AcceptExact (netStep n op) ↔ GoodStep n op := by
  have hrings := step_rings n.stack h.rings op
  have hiff := apply_exact _ _ h.owned h.traced (step_enabled n.stack h.rings op) hx.1
  rw [← step_view n.stack h.rings op] at hiff
  exact ⟨fun h' => hiff.mp h'.1,fun h' => ⟨hiff.mpr h',hrings⟩⟩

theorem boot_exact : AcceptExact (netBoot ip) := by
  refine ⟨⟨?_,?_⟩,boot_rings ip⟩
  · rintro k ⟨hu,-⟩
    cases hu
  · intro q k hk
    cases hk

/-- The accept queues are exact all along a run if and only if no handshake of
the run ends without its listener or with a full queue, and no listener is
closed while connections wait in its queue. -/
theorem accept_queue_exact (ops : List Op) :
    (∀ pre, pre <+: ops → AcceptExact (netRun ip pre)) ↔
      ∀ pre op, pre++[op] <+: ops → GoodStep (netRun ip pre) op :=
  prefix_iff netStep NetInv AcceptExact GoodStep (boot_inv ip) (fun n op h => step_inv n op h)
    (boot_exact ip) step_exact ops

def clientPacket (port : ℕ) (flags : Flags) : Packet where
  srcIp := 7
  dstIp := 9
  seg := { srcPort := port, dstPort := 80, seqNum := 100, ackNum := 1, flags := flags, data := [] }

def listenOps : List Op := [.create .stream,.bind 0 0 80,.listen 0]

def handshakeOps (port : ℕ) : List Op :=
  [.receive 0 (clientPacket port tcpSyn),.receive 0 (clientPacket port tcpAck)]

def overflowOps : List Op := listenOps++[1,2,3,4,5].flatMap handshakeOps

def closedOps : List Op := listenOps++handshakeOps 1++[.close 0]

/-- The listener is closed during a handshake, and another socket connects
before the handshake ends. -/
def reusedOps : List Op :=
  listenOps++[.receive 0 (clientPacket 1 tcpSyn),.close 0,.create .stream,.connect 0 8 81 0 0,
    .receive 0 (clientPacket 1 tcpAck)]

def waitsNowhere (k q g : ℕ) : Bool :=
  ((view n.stack).slot k).used && decide (n.hist.origin k = some (q,g)) && n.hist.reached k && !n.hist.taken k &&
    (!decide (k ∈ ((view n.stack).slot q).queue) || decide (n.hist.born q ≠ g) || !((view n.stack).slot q).used)

theorem not_exact {k q g : ℕ} (h : waitsNowhere n k q g = true) : ¬AcceptExact n := by
  rintro ⟨hx,-⟩
  simp only [waitsNowhere, Bool.and_eq_true, Bool.or_eq_true, Bool.not_eq_true', decide_eq_true_eq,
    decide_eq_false_iff_not] at h
  obtain ⟨⟨⟨⟨hu,ho⟩,hr⟩,ht⟩,hno⟩ := h
  obtain ⟨r,h1,h2,h3⟩ := exact_queue _ hx ⟨hu,by rw [ho]; rfl,hr,ht⟩
  rw [ho] at h1
  obtain ⟨rfl,hg⟩ := Prod.mk.inj (Option.some.inj h1)
  rcases hno with (hno | hno) | hno
  · exact hno h3
  · exact hno hg.symm
  · have := h2.1
    rw [hno] at this
    cases this

theorem waits_nowhere :
    waitsNowhere (netRun 9 overflowOps) 5 0 1 = true ∧ waitsNowhere (netRun 9 closedOps) 1 0 1 = true ∧
      waitsNowhere (netRun 9 reusedOps) 1 0 1 = true ∧
      ((view (netRun 9 reusedOps).stack).slot 0).queue = [1] ∧
      ((view (netRun 9 reusedOps).stack).slot 0).state = .synSent := by
  decide +kernel

/-- The fifth client is established and in no queue, the client of a closed
listener has lost its queue, and after the re-use of the slot a connection that
never listened has the client in its queue. -/
theorem established_waits_nowhere :
    ¬AcceptExact (netRun 9 overflowOps) ∧ ¬AcceptExact (netRun 9 closedOps) ∧
      ¬AcceptExact (netRun 9 reusedOps) ∧ ((view (netRun 9 reusedOps).stack).slot 0).queue = [1] ∧
      ((view (netRun 9 reusedOps).stack).slot 0).state = .synSent := by
  obtain ⟨h1,h2,h3,h4,h5⟩ := waits_nowhere
  exact ⟨not_exact _ h1,not_exact _ h2,not_exact _ h3,h4,h5⟩

end HobbyOS.AcceptQueue
