import HobbyOS.Ipv4

/-!
# Address resolution

`arp_resolve` waits for a reply at most three times, and only the network
worker processes replies. Its caller is registered in one place for the whole
system, and any frame wakes a worker that waits.
-/

namespace HobbyOS.ArpResolve
open Ipv4 Function

/-- In the queue of received frames `none` is one that is not an ARP frame. -/
structure Lan where
  net : Net := {}
  heard : Ip → Option Mac := fun _ => none
  rxQueue : List (Option ArpHeader) := []
  /-- has sent its request and is about to mark itself blocked -/
  asking : ℕ → Bool := fun _ => false
  ready : ℕ → Bool := fun _ => true

inductive Event where
  | send (p : ℕ) (c : Send) (ok : Bool)
  | block (p : ℕ)
  | arrive (f : Option ArpHeader)
  | process (ok : Bool)
  /-- the caller runs on after `schedule`, woken or because no process was ready -/
  | resume (p : ℕ) (ok : Bool)

section machine
variable (cfg : Config) (worker : ℕ)

def wakes (s : Net) (a : ArpHeader) : Option ℕ :=
  if s.arpWaiterIp = a.senderIp then s.arpWaiter else none

def processed (s : Lan) (a : ArpHeader) (rest : List (Option ArpHeader)) (ok : Bool) : Lan :=
  { s with
    net := (arpReceive cfg s.net a ok).1
    heard := update s.heard a.senderIp (some a.senderMac)
    rxQueue := rest
    ready := (wakes s.net a).elim s.ready fun q => update s.ready q true }

/-- An event that is not possible changes nothing. -/
def step (s : Lan) : Event → Lan
  | .send p c ok =>
    if s.ready p && (s.net.blocked p).isNone then
      let r := ipv4Send cfg s.net p c ok
      { s with net := r.net, asking := update s.asking p (r.net.blocked p).isSome }
    else s
  | .block p =>
    if s.asking p then
      { s with asking := update s.asking p false, ready := update s.ready p false }
    else s
  | .arrive f => { s with rxQueue := s.rxQueue++[f], ready := update s.ready worker true }
  | .process ok =>
    -- a worker inside `arp_resolve` takes no frame
    if (s.net.blocked worker).isNone then
      match s.rxQueue with
      | [] => s
      | none::rest => { s with rxQueue := rest }
      | some a::rest => processed cfg s a rest ok
    else s
  | .resume p ok =>
    if (s.net.blocked p).isSome && !s.asking p then
      let r := arpResume cfg s.net p ok
      { s with
        net := r.net, asking := update s.asking p (r.net.blocked p).isSome
        ready := update s.ready p true }
    else s

/-- What `arp_resolve` returns when its caller runs on: nothing as long as it
asks again, `none` for -1. -/
def resolved (s : Lan) (p : ℕ) : Option (Option Mac) :=
  match s.net.blocked p with
  | none => none
  | some b =>
    match arpLookup s.net.arp (nextHop cfg b.call.dstIp) with
    | some mac => some (some mac)
    | none => if b.attempt+1 < 3 then none else some none

def Room (t : ℕ → ArpEntry) (ip : Ip) : Prop :=
  (arpFind t ip).isSome = true ∨ ∃ i < arpTableSize, (t i).valid = false

/-- A call that has to ask is made by another process than the worker while no
other one waits, and it blocks before a frame is processed; a frame never
displaces an entry; a caller runs on only when it was woken. -/
def Meets (s : Lan) : Event → Prop
  | .send p c _ => 1500 < total c ∨ (arpLookup s.net.arp (nextHop cfg c.dstIp)).isSome = true ∨
      (p ≠ worker ∧ ∀ q, s.net.blocked q = none)
  | .process _ => (∀ q, s.net.arpWaiter = some q → s.asking q = false) ∧
      ∀ a rest, s.rxQueue = some a::rest → Room s.net.arp a.senderIp
  | .resume p _ => s.ready p = true
  | _ => True

inductive Reach : Lan → Prop where
  | init : Reach {}
  | step (s : Lan) (e : Event) (hs : Reach s) (he : Meets cfg worker s e) : Reach (step cfg worker s e)

end machine

def Known (t : ℕ → ArpEntry) (ip : Ip) : Prop := ∃ i < arpTableSize, (t i).valid = true ∧ (t i).ip = ip

theorem lookup_known (t : ℕ → ArpEntry) (ip : Ip) :
    (arpLookup t ip).isSome = true ↔ Known t ip := by
  rw [arpLookup, Option.isSome_map, arpFind]
  simp [Known]

theorem update_known (t : ℕ → ArpEntry) (ip ip' : Ip) (mac : Mac) (h : ip' = ip ∨ Room t ip) :
    Known (arpUpdate t ip mac) ip' ↔ ip' = ip ∨ Known t ip' := by
  have hset : ∀ i < arpTableSize, ((t i).valid = true → (t i).ip = ip ∨ ip' = ip) →
      (Known (update t i ⟨ip,mac,true⟩) ip' ↔ ip' = ip ∨ Known t ip') := by
    intro i hi hold
    constructor
    · rintro ⟨j,hj,hv,he⟩
      by_cases hji : j = i
      · rw [hji, update_self] at he
        exact .inl he.symm
      · rw [update_of_ne hji] at hv he
        exact .inr ⟨j,hj,hv,he⟩
    · rintro (rfl | ⟨j,hj,hv,he⟩)
      · exact ⟨i,hi,by simp,by simp⟩
      · by_cases hji : j = i
        · have : ip = ip' := by
            obtain h1 | h1 := hold (hji ▸ hv)
            · rw [← h1, ← hji, he]
            · exact h1.symm
          exact ⟨i,hi,by simp,by simpa using this⟩
        · exact ⟨j,hj,by simpa [hji] using hv,by simpa [hji] using he⟩
  unfold arpUpdate
  cases hf : arpFind t ip with
  | some i =>
    obtain ⟨hi,hv,hip⟩ := arp_find_some t hf
    have he : ({ t i with mac := mac } : ArpEntry) = ⟨ip,mac,true⟩ := by rw [← hv, ← hip]
    dsimp only
    rw [he]
    exact hset i hi fun _ => .inl hip
  | none =>
    dsimp only
    split
    case h_1 i hi =>
      have hfree := List.find?_some hi
      exact hset i (List.mem_range.mp (List.mem_of_find?_eq_some hi)) fun hv => by simp [hv] at hfree
    case h_2 hnone =>
      refine hset 0 (by decide) fun _ => .inr (h.resolve_right ?_)
      rintro (h1 | ⟨i,hi,hv⟩)
      · simp [hf] at h1
      · have := List.find?_eq_none.mp hnone i (List.mem_range.mpr hi)
        simp [hv] at this

/-- A caller waits, registered for an address that is not known, or it has
been woken and the address is known. -/
def Waiting (cfg : Config) (s : Lan) (p : ℕ) (b : Blocked) : Prop :=
  (s.net.arpWaiter = some p ∧ s.net.arpWaiterIp = nextHop cfg b.call.dstIp ∧
      ¬Known s.net.arp (nextHop cfg b.call.dstIp) ∧ (s.asking p = true ∨ s.ready p = false)) ∨
    (s.asking p = false ∧ s.ready p = true ∧ Known s.net.arp (nextHop cfg b.call.dstIp))

structure Inv (cfg : Config) (worker : ℕ) (s : Lan) : Prop where
  learned : Learned s.net.arp s.heard
  free : s.net.blocked worker = none
  single : ∀ p q b b', s.net.blocked p = some b → s.net.blocked q = some b' → p = q
  waiting : ∀ p b, s.net.blocked p = some b → Waiting cfg s p b

section runs
variable (cfg : Config) (worker : ℕ) (s : Lan) (h : Inv cfg worker s)
include h

theorem inv_send {p : ℕ} {c : Send} {ok : Bool} (hm : Meets cfg worker s (.send p c ok)) :
    Inv cfg worker (step cfg worker s (.send p c ok)) := by
  simp only [step]
  split_ifs with hp
  swap
  · exact h
  simp only [Bool.and_eq_true, Option.isNone_iff_eq_none] at hp
  -- a call that does not wait leaves the callers alone
  have hsame : ∀ n : Net, n.arp = s.net.arp → n.arpWaiter = s.net.arpWaiter →
      n.arpWaiterIp = s.net.arpWaiterIp → n.blocked = s.net.blocked →
      Inv cfg worker { s with net := n, asking := update s.asking p (n.blocked p).isSome } := by
    intro n h1 h2 h3 h4
    refine ⟨h1 ▸ h.learned,h4 ▸ h.free,h4 ▸ h.single,?_⟩
    intro q b hb
    have hb' : s.net.blocked q = some b := by rw [← hb, ← h4]
    have hqp : q ≠ p := fun hc => by rw [hc, hp.2] at hb'; cases hb'
    have := h.waiting q b hb'
    unfold Waiting at this ⊢
    simpa only [h1, h2, h3, update_of_ne hqp] using this
  unfold ipv4Send
  by_cases hlen : 1500 < total c
  · rw [if_pos hlen]
    exact hsame _ rfl rfl rfl rfl
  rw [if_neg hlen]
  dsimp only
  cases hl : arpLookup (fill cfg s.net c).arp (nextHop cfg c.dstIp) with
  | some mac => exact hsame _ rfl rfl rfl rfl
  | none =>
    have hl' : arpLookup s.net.arp (nextHop cfg c.dstIp) = none := hl
    obtain ⟨hpw,hnone⟩ := (hm.resolve_left hlen).resolve_left (by simp [hl'])
    have hown : ∀ q b, update s.net.blocked p (some ⟨c,0⟩) q = some b → q = p ∧ b = ⟨c,0⟩ := by
      intro q b hb
      by_cases hqp : q = p
      · rw [hqp, update_self] at hb
        exact ⟨hqp,(Option.some.inj hb).symm⟩
      · rw [update_of_ne hqp, hnone q] at hb
        cases hb
    refine ⟨h.learned,(update_of_ne (Ne.symm hpw) _ _).trans h.free,?_,?_⟩
    · intro q r b b' hb hb'
      rw [(hown q b hb).1, (hown r b' hb').1]
    · intro q b hb
      obtain ⟨rfl,rfl⟩ := hown q b hb
      refine .inl ⟨rfl,rfl,(lookup_known _ _).not.mp (by simp [fill, hl']),.inl ?_⟩
      simp

theorem inv_process {ok : Bool} (hm : Meets cfg worker s (.process ok)) :
    Inv cfg worker (step cfg worker s (.process ok)) := by
  simp only [step, h.free, Option.isNone_none, if_true]
  split
  case h_1 => exact h
  case h_2 => exact ⟨h.learned,h.free,h.single,h.waiting⟩
  case h_3 a rest hq =>
    have hroom := hm.2 a rest hq
    refine ⟨learned_update _ _ h.learned _ _,h.free,h.single,?_⟩
    intro p b hb
    have hk := update_known s.net.arp a.senderIp (nextHop cfg b.call.dstIp) a.senderMac (.inr hroom)
    obtain ⟨hw,hip,hun,hr⟩ | ⟨hask,hready,hkn⟩ := h.waiting p b hb
    · by_cases he : nextHop cfg b.call.dstIp = a.senderIp
      · refine .inr ⟨hm.1 p hw,?_,hk.mpr (.inl he)⟩
        simp [processed, wakes, hip, he, hw]
      · refine .inl ⟨?_,hip,hk.not.mpr (by simp [he, hun]),?_⟩
        · simp [processed, arpReceive, hip, he, hw]
        · simpa [processed, wakes, hip, he] using hr
    · refine .inr ⟨hask,?_,hk.mpr (.inr hkn)⟩
      dsimp only [processed]
      cases wakes s.net a with
      | none => exact hready
      | some q => simp [update_apply, hready]

theorem inv_resume {p : ℕ} {ok : Bool} (hm : Meets cfg worker s (.resume p ok)) :
    Inv cfg worker (step cfg worker s (.resume p ok)) := by
  simp only [step]
  split_ifs with hp
  swap
  · exact h
  simp only [Bool.and_eq_true, Bool.not_eq_true', Option.isSome_iff_exists] at hp
  obtain ⟨⟨b,hb⟩,hask⟩ := hp
  have hkn : Known s.net.arp (nextHop cfg b.call.dstIp) := by
    obtain ⟨-,-,-,hr⟩ | ⟨-,-,hkn⟩ := h.waiting p b hb
    · have hready : s.ready p = true := hm
      simp [hask, hready] at hr
    · exact hkn
  obtain ⟨mac,hl⟩ := Option.isSome_iff_exists.mp ((lookup_known _ _).mpr hkn)
  unfold arpResume
  simp only [hb, hl]
  -- it was the only one, so nobody waits any more
  have hnone : ∀ q b', update s.net.blocked p none q ≠ some b' := by
    intro q b' hq
    by_cases hqp : q = p
    · simp [hqp] at hq
    · exact hqp (h.single q p b' b ((update_of_ne hqp _ _).symm.trans hq) hb)
  exact ⟨h.learned,by simp [update_apply, h.free],fun q r b1 b2 h1 => absurd h1 (hnone q b1),
    fun q b' hq => absurd hq (hnone q b')⟩

theorem inv_step {e : Event} (hm : Meets cfg worker s e) : Inv cfg worker (step cfg worker s e) := by
  cases e with
  | send p c ok => exact inv_send cfg worker s h hm
  | process ok => exact inv_process cfg worker s h hm
  | resume p ok => exact inv_resume cfg worker s h hm
  | arrive f =>
    refine ⟨h.learned,h.free,h.single,?_⟩
    intro p b hb
    have hpw : p ≠ worker := fun hc => by cases (hc ▸ h.free).symm.trans hb
    have := h.waiting p b hb
    unfold Waiting at this ⊢
    simpa only [step, update_of_ne hpw] using this
  | block p =>
    simp only [step]
    split_ifs with hask
    · refine ⟨h.learned,h.free,h.single,?_⟩
      intro q b hb
      by_cases hqp : q = p
      · subst hqp
        obtain ⟨hw,hip,hun,-⟩ | ⟨hno,-,-⟩ := h.waiting q b hb
        · exact .inl ⟨hw,hip,hun,.inr (by simp)⟩
        · rw [hask] at hno
          cases hno
      · have := h.waiting q b hb
        unfold Waiting at this ⊢
        simpa only [update_of_ne hqp] using this
    · exact h

end runs

theorem reach_inv {cfg : Config} {worker : ℕ} {s : Lan} (h : Reach cfg worker s) : Inv cfg worker s := by
  induction h with
  | init => exact ⟨⟨nofun,nofun⟩,rfl,nofun,nofun⟩
  | step s e _ he ih => exact inv_step cfg worker s ih he

/-- The worker is free to process what arrives; a caller that can run returns
0 with the address last heard; the reply for a caller that waits lets it
return 0 with that reply's address. -/
structure Completes (cfg : Config) (worker : ℕ) (s : Lan) : Prop where
  free : s.net.blocked worker = none
  returns : ∀ p b, s.net.blocked p = some b → s.asking p = false → s.ready p = true →
    ∃ mac, s.heard (nextHop cfg b.call.dstIp) = some mac ∧ resolved cfg s p = some (some mac)
  served : ∀ p b a rest ok, s.net.blocked p = some b → s.asking p = false → s.ready p = false →
    s.rxQueue = some a::rest → a.senderIp = nextHop cfg b.call.dstIp →
    (step cfg worker s (.process ok)).ready p = true ∧
      resolved cfg (step cfg worker s (.process ok)) p = some (some a.senderMac)

theorem resolved_known (cfg : Config) (s : Lan) (p : ℕ) (b : Blocked) (hl : Learned s.net.arp s.heard)
    (hb : s.net.blocked p = some b) (hk : Known s.net.arp (nextHop cfg b.call.dstIp)) :
    ∃ mac, s.heard (nextHop cfg b.call.dstIp) = some mac ∧ resolved cfg s p = some (some mac) := by
  obtain ⟨mac,hm⟩ := Option.isSome_iff_exists.mp ((lookup_known _ _).mpr hk)
  exact ⟨mac,lookup_heard _ _ hl hm,by simp [resolved, hb, hm]⟩

/-- In every run whose steps meet the conditions resolution completes. -/
theorem resolution_completes (cfg : Config) (worker : ℕ) (s : Lan) (h : Reach cfg worker s) :
    Completes cfg worker s := by
  have hi := reach_inv h
  refine ⟨hi.free,?_,?_⟩
  · intro p b hb hask hready
    obtain ⟨-,-,-,hr⟩ | ⟨-,-,hk⟩ := hi.waiting p b hb
    · simp [hask, hready] at hr
    · exact resolved_known cfg s p b hi.learned hb hk
  · intro p b a rest ok hb hask hready hq ha
    obtain ⟨hw,hip,-,-⟩ | ⟨-,hr,-⟩ := hi.waiting p b hb
    · have hstep : step cfg worker s (.process ok) = processed cfg s a rest ok := by
        simp [step, hi.free, hq]
      rw [hstep]
      obtain ⟨mac,hheard,hres⟩ := resolved_known cfg (processed cfg s a rest ok) p b
        (learned_update _ _ hi.learned _ _) hb
        ((update_known s.net.arp a.senderIp _ a.senderMac (.inl ha.symm)).mpr (.inl ha.symm))
      refine ⟨by simp [processed, wakes, hip, ha, hw],?_⟩
      rw [hres, ← hheard, ← ha]
      exact congrArg some (update_self ..)
    · rw [hready] at hr
      cases hr

def lan (events : List Event) : Lan := events.foldl (step hostConfig 0) {}

def reply (host : Ip) : ArpHeader := ⟨2,0xA,0x0A000200+host,0x0A00020F⟩

/-- The worker answers a ping and has to ask for the address: the reply sits
in the queue while three frames wake it and it gives up. A second caller
takes the place of the first, which no reply wakes any more. With no other
process ready a caller uses up its attempts before the reply comes. A frame
processed before the caller is blocked wakes nobody. -/
theorem reply_not_seen :
    let s1 := lan [.send 0 (toNeighbour 3 [0]) true, .block 0, .arrive none, .resume 0 true, .block 0,
      .arrive (some (reply 3)), .resume 0 true, .block 0, .arrive none]
    let s2 := lan [.send 1 (toNeighbour 3 [1]) true, .block 1, .send 2 (toNeighbour 4 [2]) true,
      .block 2, .arrive (some (reply 3)), .process true]
    let s3 := lan [.send 1 (toNeighbour 3 [1]) true, .block 1, .resume 1 true, .block 1, .resume 1 true,
      .block 1, .arrive (some (reply 3))]
    let s4 := lan [.send 1 (toNeighbour 3 [1]) true, .arrive (some (reply 3)), .process true, .block 1]
    (s1.rxQueue.length = 3 ∧ resolved hostConfig s1 0 = some none) ∧
      (s2.rxQueue.length = 0 ∧ s2.ready 1 = false ∧ s2.net.arpWaiter = some 2) ∧
      resolved hostConfig s3 1 = some none ∧
      (s4.rxQueue.length = 0 ∧ s4.ready 1 = false ∧ s4.net.arpWaiter = none) := by
  decide +kernel

/-- A process asks for a neighbour, blocks, and the reply comes. -/
theorem resolution_completes_neighbour :
    Completes hostConfig 0 (lan [.send 1 (toNeighbour 3 [1]) true, .block 1, .arrive (some (reply 3)),
      .process true]) := by
  have h1 : Reach hostConfig 0 (lan [.send 1 (toNeighbour 3 [1]) true]) :=
    .step _ (.send 1 (toNeighbour 3 [1]) true) .init (Or.inr (Or.inr ⟨by decide,fun _ => rfl⟩))
  have h3 : Reach hostConfig 0 (lan [.send 1 (toNeighbour 3 [1]) true, .block 1,
      .arrive (some (reply 3))]) :=
    .step _ (.arrive _) (.step _ (.block 1) h1 trivial) trivial
  refine resolution_completes hostConfig 0 _ (.step _ (.process true) h3 ⟨?_,?_⟩)
  · intro q hq
    have hw : (lan [.send 1 (toNeighbour 3 [1]) true, .block 1, .arrive (some (reply 3))]).net.arpWaiter =
        some 1 := by decide +kernel
    obtain rfl := Option.some.inj (hw.symm.trans hq)
    decide +kernel
  · intro a rest _
    exact .inr ⟨0,by decide,by decide +kernel⟩

end HobbyOS.ArpResolve
