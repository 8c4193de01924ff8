import HobbyOS.SocketSteps

/-!
# Runs of the socket layer

The accept queues stay rings, every action is one that the table of slots
allows, and so the slots are owned as they should be in every run and follow
the state diagram.
-/

namespace HobbyOS.SocketRuns
open Tcp TcpConn Socket SlotTable
open SocketSteps
open TcpEvents hiding Op step boot run

theorem commit_ring (h : Host) (i : ℕ) (a : Act) (hr : ∀ k, QueueRing (h.conns k)) (ha : QueueRing a.conn) (k : ℕ) :
    QueueRing ((commit h i a).conns k) := by
  by_cases hk : k = i
  · subst hk
    rwa [commit_same]
  · rw [commit_other _ _ _ _ hk]
    exact hr k

variable (st : Stack) (c : Conn) (ip : ℕ) (ops : List Op)

theorem fresh_ring (hh : c.acceptHead = 0) (ht : c.acceptTail = 0) (hc : c.acceptCount = 0) : QueueRing c := by
  unfold QueueRing
  rw [hh, ht, hc]
  decide

theorem loop_ring (cur : ℕ) (fatal : Bool) (hr : QueueRing c) : QueueRing (tcpAcceptLoop c cur fatal).1 := by
  unfold tcpAcceptLoop
  split_ifs with h0
  · exact hr
  · exact hr
  · unfold QueueRing tcpAcceptQueue at *
    dsimp only
    omega

theorem accept_ring (cur : ℕ) (fatal : Bool) (hr : QueueRing c) : QueueRing (tcpAccept c cur fatal).1 := by
  rw [tcp_accept_loop]
  split_ifs
  · exact hr
  · exact loop_ring c cur fatal hr

theorem enqueue_ring (k : ℕ) (hr : QueueRing c) : QueueRing (enqueue c k).conn := by
  unfold enqueue
  split_ifs with h
  · unfold QueueRing tcpAcceptQueue at *
    dsimp only
    omega
  · exact hr

theorem send_ring (data : List UInt8) (hr : QueueRing c) : QueueRing (tcpSend c data).1.conn := by
  by_cases hc : CanSend c
  · refine send_rule c data (fun _ a => QueueRing a.conn) hc hr ?_
    intro done chunk a _ h1 ha
    rw [send_chunk a h1]
    exact ha
  · rw [send_refused c data hc]
    exact hr

theorem close_ring (hr : QueueRing c) : QueueRing (tcpClose c).conn := by
  rcases close_frame c with h | ⟨st,nxt,used,h,-⟩
  · rwa [h]
  · rw [h]
    exact hr

theorem recv_ring (len cur : ℕ) (fatal : Bool) (hr : QueueRing c) : QueueRing (tcpRecv c len cur fatal).1 := by
  obtain ⟨pos,n,r,h⟩ := recv_frame c len cur fatal
  rw [h]
  exact hr

theorem accepted_host (k : ℕ) : (socketAccepted st k).1.host = st.host := by
  unfold socketAccepted socketCreate
  cases freeSocket st <;> rfl

theorem accept_with_rings (c : ℕ) {r : Conn × Accepted} (hr : Rings st) (h : QueueRing r.1) :
    Rings (acceptWith st c r) := by
  have hc := commit_ring st.host c { conn := r.1 } hr h
  unfold acceptWith
  split
  · intro k
    rw [accepted_host]
    exact hc k
  · exact hc

theorem open_rings {h : Host} {a : Act} (hr : ∀ k, QueueRing (h.conns k)) (ha : QueueRing a.conn) (k : ℕ) :
    QueueRing ((openWith h a).conns k) := by
  unfold openWith
  cases freeSlot h with
  | none => exact hr k
  | some i => exact commit_ring _ i a (commit_ring h i _ hr (fresh_ring _ rfl rfl rfl)) ha k

theorem receive_rings {h : Host} (now : ℕ) (p : Packet) (hr : ∀ k, QueueRing (h.conns k)) (k : ℕ) :
    QueueRing ((tcpReceive h now p).conns k) := by
  unfold tcpReceive
  cases hf : findConnection h p.srcIp p.seg.srcPort p.seg.dstPort with
  | none => exact hr k
  | some i =>
    have hc := commit_ring h i (receiveConn (h.conns i) p.seg) hr ((receive_keeps _ _).ring (hr i))
    dsimp only
    split_ifs
    · rw [receive_syn h i now p (found_used h hf).2.1]
      exact open_rings hr (fresh_ring _ rfl rfl rfl) k
    · exact hr k
    · unfold queueAccepted
      split
      · exact hc k
      · exact commit_ring _ _ _ hc (enqueue_ring _ _ (hc _)) k
    · exact hc k

theorem step_rings (hr : Rings st) (op : Op) : Rings (step st op) := by
  cases op with
  | create type =>
    simp only [step, socketCreate]
    cases freeSocket st <;> exact hr
  | bind i ip port =>
    simp only [step, socketBind]
    cases socketGet st i <;> exact hr
  | listen i =>
    simp only [step, socketListen]
    cases socketGet st i with
    | none => exact hr
    | some s =>
      dsimp only
      split_ifs
      · exact hr
      · unfold tcpAllocConn
        cases freeSlot st.host with
        | none => exact hr
        | some k =>
          exact commit_ring _ k _ (commit_ring _ k _ hr (fresh_ring _ rfl rfl rfl)) (fresh_ring _ rfl rfl rfl)
  | accept i cur fatal =>
    simp only [step, socketAccept]
    cases socketGet st i with
    | none => exact hr
    | some s =>
      dsimp only
      split_ifs
      · exact hr
      · exact hr
      · cases s.tcpConnIdx with
        | none => exact hr
        | some c =>
          have h := accept_with_rings st c hr
            (accept_ring _ cur fatal (hr c))
          unfold acceptWith at h
          dsimp only at h ⊢
          cases hx : (tcpAccept (st.host.conns c) cur fatal).2 <;> rw [hx] at h <;> exact h
  | acceptResume c cur fatal => exact accept_with_rings st c hr (loop_ring _ cur fatal (hr c))
  | connect i ip port now cur =>
    simp only [step, socketConnect]
    cases socketGet st i with
    | none => exact hr
    | some s =>
      dsimp only
      cases s.type with
      | stream =>
        unfold tcpAllocConn
        cases freeSlot st.host with
        | none => exact hr
        | some k =>
          refine commit_ring _ k _ (commit_ring _ k _ hr (fresh_ring _ rfl rfl rfl)) ?_
          rw [commit_same]
          exact fresh_ring _ rfl rfl rfl
      | dgram => exact hr
  | connectResume i c =>
    simp only [step, socketConnectResume]
    split_ifs <;> exact hr
  | send i data =>
    simp only [step, socketSend]
    cases socketGet st i with
    | none => exact hr
    | some s =>
      dsimp only
      cases s.type with
      | stream =>
        cases s.tcpConnIdx with
        | none => exact hr
        | some c =>
          dsimp only
          by_cases hnb : s.nonblocking = true ∧ connTest st tcpConnWritable (some c) = false
          · rw [if_pos hnb]
            exact hr
          · rw [if_neg hnb]
            exact commit_ring _ c _ hr (send_ring _ data (hr c))
      | dgram =>
        split_ifs <;> exact hr
  | recv i len cur fatal =>
    simp only [step, socketRecv]
    cases socketGet st i with
    | none => exact hr
    | some s =>
      dsimp only
      cases s.type with
      | stream =>
        cases s.tcpConnIdx with
        | none => exact hr
        | some c =>
          dsimp only
          split_ifs
          · exact hr
          · have h := commit_ring st.host c { conn := (tcpRecv (st.host.conns c) len cur fatal).1 } hr
              (recv_ring _ len cur fatal (hr c))
            cases (tcpRecv (st.host.conns c) len cur fatal).2 <;> exact h
      | dgram =>
        split_ifs <;> exact hr
  | recvResume c len cur fatal => exact commit_ring _ c _ hr (recv_ring _ len cur fatal (hr c))
  | close i =>
    simp only [step, socketClose]
    cases socketGet st i with
    | none => exact hr
    | some s =>
      dsimp only
      split_ifs
      · exact hr
      · split
        · exact commit_ring _ _ _ hr (close_ring _ (hr _))
        · exact hr
  | incRef i =>
    simp only [step, socketIncRef]
    cases socketGet st i <;> exact hr
  | setNonblocking i on => exact hr
  | udpDeliver dstPort srcIp srcPort data =>
    simp only [step, socketUdpDeliver]
    split
    · exact hr
    · split_ifs <;> exact hr
  | receive now p => exact receive_rings now p hr
  | tick =>
    intro k
    change QueueRing ((tcpTick st.host).conns k)
    rw [tick_conns]
    split_ifs
    · obtain ⟨_,_,_,_,_,_,_,h,-⟩ := tick_frame (st.host.conns k)
      rw [h]
      exact hr k
    · exact hr k

theorem next_state_moves (flags : Flags) {s : TcpState} (h1 : s ≠ .synReceived) (h2 : s ≠ .lastAck) :
    Moves s (nextState flags s) := by
  cases s with
  | synReceived => exact absurd rfl h1
  | lastAck => exact absurd rfl h2
  | synSent | established | finWait1 | finWait2 =>
    unfold nextState
    split_ifs <;> simp [Moves]
  | closed | listen | closeWait | timeWait => exact .inl rfl

theorem start_enabled (i : ℕ) {s : TcpState} (hs : s = .listen ∨ s = .synSent) :
    Enabled (view st) (startAction st i s) := by
  unfold startAction
  cases hf : freeSlot st.host with
  | none => trivial
  | some k => exact ⟨(free_slot st.host k hf).2,hs⟩

theorem take_enabled {c : ℕ} {r : Conn × Accepted}
    (h : r.2 = .failed ∧ slotOf r.1 = slotOf (st.host.conns c) ∨
      r.2 = .blocked ∧ slotOf r.1 = slotOf (st.host.conns c) ∨
      ∃ k rest, r.2 = .conn k ∧ queueOf (st.host.conns c) = k::rest ∧
        slotOf r.1 = { slotOf (st.host.conns c) with queue := rest }) :
    Enabled (view st) (takeAction st c r.2) := by
  rcases h with ⟨hy,-⟩ | ⟨hy,-⟩ | ⟨k,rest,hy,hq,-⟩
  · rw [hy]
    trivial
  · rw [hy]
    trivial
  · rw [hy]
    refine ⟨?_,fun i hi => view_closed st i (free_socket st i hi).2⟩
    change queueOf (st.host.conns c) ≠ []
    rw [hq]
    exact List.cons_ne_nil _ _

theorem receive_enabled (p : Packet) : Enabled (view st) (receiveAction st.host p) := by
  unfold receiveAction
  cases hf : findConnection st.host p.srcIp p.seg.srcPort p.seg.dstPort with
  | none => trivial
  | some k =>
    have hu : (st.host.conns k).inUse = true := (found_used st.host hf).2.1
    have hplain : ∀ s, (st.host.conns k).state = s → s ≠ .synReceived → s ≠ .lastAck →
        Enabled (view st) (.move k (nextState p.seg.flags s)) := by
      intro s hs h1 h2
      refine ⟨hu,?_,?_⟩
      · change (st.host.conns k).state ≠ .synReceived
        rwa [hs]
      · change Moves (st.host.conns k).state _
        rw [hs]
        exact next_state_moves _ h1 h2
    dsimp only
    cases hs : (st.host.conns k).state with
    | listen =>
      cases hfree : freeSlot st.host with
      | none => trivial
      | some j =>
        dsimp only
        split_ifs
        · exact ⟨(free_slot st.host j hfree).2,hu,hs⟩
        · trivial
    | synReceived | lastAck =>
      dsimp only
      split_ifs
      · exact ⟨hu,hs⟩
      · trivial
    | closed | synSent | established | finWait1 | finWait2 | closeWait | timeWait =>
      exact hplain _ hs (by decide) (by decide)

theorem expires_state (h : expires c = true) : c.inUse = true ∧ c.state = .timeWait := by
  have hu : c.inUse = true := by
    unfold expires at h
    simp only [Bool.and_eq_true] at h
    exact h.1
  refine ⟨hu,?_⟩
  by_contra hne
  have hst : (retransmitTick c).conn.state ≠ .timeWait := by
    obtain ⟨st,r,w,len,timer,count,heq,hst⟩ := retransmit_frame c
    rw [heq]
    rcases hst with ⟨h1,-⟩ | ⟨h1,-⟩
    · simp [h1]
    · rwa [h1]
  have hin : (tickConn c).conn.inUse = true := by
    unfold tickConn
    rw [if_pos hu]
    dsimp only
    rw [time_wait_other _ hst, retransmit_used, hu]
  unfold expires at h
  simp [hin] at h

theorem step_enabled (hr : Rings st) (op : Op) : Enabled (view st) (action st op) := by
  cases op with
  | listen i =>
    simp only [action]
    cases socketGet st i with
    | none => trivial
    | some s =>
      dsimp only
      split_ifs
      · trivial
      · exact start_enabled st i (.inl rfl)
  | connect i ip port now cur =>
    simp only [action]
    cases socketGet st i with
    | none => trivial
    | some s =>
      dsimp only
      split_ifs
      · exact start_enabled st i (.inr rfl)
      · trivial
  | accept i cur fatal =>
    simp only [action, acceptAction]
    cases socketGet st i with
    | none => trivial
    | some s =>
      dsimp only
      split_ifs
      · trivial
      · trivial
      · cases s.tcpConnIdx with
        | none => trivial
        | some c => exact take_enabled st (accept_slot _ cur fatal (hr c))
  | acceptResume c cur fatal => exact take_enabled st (loop_slot _ cur fatal (hr c))
  | send i data =>
    simp only [action, sendAction]
    cases hg : socketGet st i with
    | none => trivial
    | some s =>
      obtain ⟨hi,hu,rfl⟩ := socket_get st i hg
      dsimp only
      cases ht : (st.sockets i).type with
      | stream =>
        cases hc : (st.sockets i).tcpConnIdx with
        | none => trivial
        | some c =>
          dsimp only
          split_ifs with hnb hs
          · trivial
          · exact ⟨⟨i,by rw [view_holds st i hi hu ht, hc]⟩,hs.1⟩
          · trivial
      | dgram => trivial
  | close i =>
    simp only [action]
    cases socketGet st i with
    | none => trivial
    | some s =>
      dsimp only
      split_ifs <;> trivial
  | receive now p => exact receive_enabled st p
  | tick =>
    intro k
    constructor
    · intro h
      simp only [Bool.and_eq_true] at h
      obtain ⟨h1,h2,-⟩ := give_up_fires _ h.2
      exact ⟨h1,by simpa [view, slotOf] using h2⟩
    · intro h
      simp only [Bool.and_eq_true] at h
      exact expires_state _ h.2
  | create | bind | connectResume | recv | recvResume | incRef | setNonblocking | udpDeliver =>
    trivial

def boot : Stack := { host := { ip := ip, conns := fun _ => {}, sent := [], woken := [] } }

theorem boot_rings : Rings (boot ip) := fun _ => fresh_ring _ rfl rfl rfl

theorem boot_owned : Owned (view (boot ip)) := by
  have hq : ∀ q, ((view (boot ip)).slot q).queue = [] := fun _ => rfl
  have hh : ∀ i, (view (boot ip)).holds i = none := fun i => view_closed _ i rfl
  refine ⟨?_,?_,?_,?_,?_,?_⟩
  · intro i c h
    rw [hh] at h
    cases h
  · intro i j c h
    rw [hh] at h
    cases h
  · intro q k h
    cases h
  · intro q r k h
    cases h
  · intro q
    exact List.nodup_nil
  · intro k h
    cases h

def run : Stack := ops.foldl step (boot ip)

theorem run_snoc (op : Op) : run ip (ops++[op]) = step (run ip ops) op := by
  simp [run]

theorem run_rings : Rings (run ip ops) := by
  induction ops using List.reverseRecOn with
  | nil => exact boot_rings ip
  | append_singleton ops op ih =>
    rw [run_snoc]
    exact step_rings _ ih op

theorem run_owned : Owned (view (run ip ops)) := by
  induction ops using List.reverseRecOn with
  | nil => exact boot_owned ip
  | append_singleton ops op ih =>
    rw [run_snoc, step_view _ (run_rings ip ops)]
    exact apply_owned _ ih (step_enabled _ (run_rings ip ops) op)

/-- In every run each step moves every connection along the diagram. -/
theorem state_diagram (op : Op) : Along (view (run ip ops)) (view (run ip (ops++[op]))) := by
  rw [run_snoc, step_view _ (run_rings ip ops)]
  exact apply_along _ (run_owned ip ops) (step_enabled _ (run_rings ip ops) op)

/-- Two open sockets never have one connection, and a connection that waits
to be accepted has no socket and waits in one queue. -/
theorem connection_owner (i j q r k : ℕ) :
    ((view (run ip ops)).holds i = some k → (view (run ip ops)).holds j = some k → i = j) ∧
      (k ∈ ((view (run ip ops)).slot q).queue → (view (run ip ops)).holds i ≠ some k ∧
        (k ∈ ((view (run ip ops)).slot r).queue → q = r)) := by
  have h := run_owned ip ops
  exact ⟨h.once i j k,fun hq => ⟨(h.queued q k hq).2.2.2 i,h.apart q r k hq⟩⟩

/-- A property that a step keeps exactly when the step is good holds along a
whole run exactly when all its steps are good. -/
theorem prefix_iff {σ α : Type*} (f : σ → α → σ) {s : σ} (Inv P : σ → Prop) (Good : σ → α → Prop)
    (h0 : Inv s) (hi : ∀ s a, Inv s → Inv (f s a)) (hp : P s)
    (hstep : ∀ s a, Inv s → P s → (P (f s a) ↔ Good s a)) (xs : List α) :
    (∀ pre, pre <+: xs → P (pre.foldl f s)) ↔ ∀ pre a, pre++[a] <+: xs → Good (pre.foldl f s) a := by
  have hinv : ∀ pre : List α, Inv (pre.foldl f s) := by
    intro pre
    induction pre using List.reverseRecOn with
    | nil => exact h0
    | append_singleton pre a ih =>
      rw [List.foldl_append]
      exact hi _ a ih
  constructor
  · intro h pre a hpre
    have hnext := h (pre++[a]) hpre
    rw [List.foldl_append] at hnext
    exact (hstep _ a (hinv pre) (h pre ((List.prefix_append pre [a]).trans hpre))).mp hnext
  · intro h pre
    induction pre using List.reverseRecOn with
    | nil => exact fun _ => hp
    | append_singleton pre a ih =>
      intro hpre
      rw [List.foldl_append]
      exact (hstep _ a (hinv pre) (ih ((List.prefix_append pre [a]).trans hpre))).mpr (h pre a hpre)

end HobbyOS.SocketRuns
