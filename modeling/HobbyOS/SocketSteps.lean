import HobbyOS.Socket
import HobbyOS.SlotTable
import HobbyOS.TcpConn

/-!
# Socket calls as actions on the slots

Runs of the socket layer: calls, the second halves of calls that slept,
packets and timer ticks in any order. Each step is one action on the table of
slots, computed from the state before it.
-/

namespace HobbyOS.SocketSteps
open RingBuffer Tcp TcpEvents TcpConn Socket SlotTable
open Function (update_eq_self update_idem update_of_ne update_self)

variable (st : Stack) (c : Conn) (i : ℕ) (data : List UInt8)

/-- The loop of `tcp_accept` from the test of `accept_count` on, which is also
what the caller does when it has slept. -/
def tcpAcceptLoop (cur : ℕ) (fatal : Bool) : Conn × Accepted :=
  if c.acceptCount = 0 then
    if fatal then (c,.failed) else ({ c with blockedAccepter := some cur },.blocked)
  else
    ({ c with
      acceptHead := (c.acceptHead+1) % tcpAcceptQueue
      acceptCount := c.acceptCount-1 },.conn (c.acceptQueue c.acceptHead))

variable (now : ℕ) (f : Sock → Sock) (k : ℕ) (a : Act) (cur : ℕ) (fatal : Bool)

theorem tcp_accept_loop :
    tcpAccept c cur fatal = if c.state ≠ .listen then (c,.failed) else tcpAcceptLoop c cur fatal := rfl

def acceptWith (c : ℕ) (r : Conn × Accepted) : Stack :=
  let st := { st with host := commit st.host c { conn := r.1 } }
  match r.2 with
  | .conn k => (socketAccepted st k).1
  | _ => st

inductive Op where
  | create (type : SockType)
  | bind (i ip port : ℕ)
  | listen (i : ℕ)
  | accept (i cur : ℕ) (fatal : Bool)
  | acceptResume (c cur : ℕ) (fatal : Bool)
  | connect (i ip port now cur : ℕ)
  | connectResume (i c : ℕ)
  | send (i : ℕ) (data : List UInt8)
  | recv (i len cur : ℕ) (fatal : Bool)
  | recvResume (c len cur : ℕ) (fatal : Bool)
  | close (i : ℕ)
  | incRef (i : ℕ)
  | setNonblocking (i : ℕ) (on : Bool)
  | udpDeliver (dstPort srcIp srcPort : ℕ) (data : List UInt8)
  | receive (now : ℕ) (p : Packet)
  | tick

def step : Op → Stack
  | .create type => (socketCreate st type).1
  | .bind i ip port => (socketBind st i ip port).1
  | .listen i => (socketListen st i).1
  | .accept i cur fatal => (socketAccept st i cur fatal).1
  | .acceptResume c cur fatal => acceptWith st c (tcpAcceptLoop (st.host.conns c) cur fatal)
  | .connect i ip port now cur => (socketConnect st i ip port now cur).1
  | .connectResume i c => (socketConnectResume st i c).1
  | .send i data => (socketSend st i data).1
  | .recv i len cur fatal => (socketRecv st i len cur fatal).1
  | .recvResume c len cur fatal =>
    { st with host := commit st.host c { conn := (tcpRecv (st.host.conns c) len cur fatal).1 } }
  | .close i => socketClose st i
  | .incRef i => socketIncRef st i
  | .setNonblocking i on => setSocket st i fun s => { s with nonblocking := on }
  | .udpDeliver dstPort srcIp srcPort data => (socketUdpDeliver st dstPort srcIp srcPort data).1
  | .receive now p => { st with host := tcpReceive st.host now p }
  | .tick => { st with host := tcpTick st.host }

def queueOf : List ℕ := contents c.acceptQueue tcpAcceptQueue c.acceptHead c.acceptCount

def QueueRing : Prop :=
  c.acceptHead < tcpAcceptQueue ∧ c.acceptCount ≤ tcpAcceptQueue ∧
    c.acceptTail = (c.acceptHead+c.acceptCount) % tcpAcceptQueue

def slotOf : Slot where
  state := c.state
  used := c.inUse
  parent := c.parentIdx
  queue := queueOf c
  unacked := decide (0 < c.retransmitLen)

def holding (s : Sock) : Option ℕ :=
  if s.inUse = true ∧ s.type = .stream then s.tcpConnIdx else none

def view : Tab where
  slot := fun k => slotOf (st.host.conns k)
  holds := fun i => if i < maxSockets then holding (st.sockets i) else none

def givesUp : Bool :=
  c.inUse && decide (0 < c.retransmitLen) && decide (c.retransmitTimer = 1) && decide (3 ≤ c.retransmitCount)

def expires : Bool := c.inUse && !(tickConn c).conn.inUse

def startAction (s : TcpState) : Action :=
  match freeSlot st.host with
  | none => .idle
  | some k => .start i k s

def takeAction (c : ℕ) : Accepted → Action
  | .conn _ => .take c (freeSocket st)
  | _ => .idle

def acceptAction (i cur : ℕ) (fatal : Bool) : Action :=
  match socketGet st i with
  | none => .idle
  | some s =>
    if s.listening = false then .idle
    else if s.nonblocking = true ∧ connTest st tcpConnAcceptable s.tcpConnIdx = false then .idle
    else
      match s.tcpConnIdx with
      | none => .idle
      | some c => takeAction st c (tcpAccept (st.host.conns c) cur fatal).2

def sendAction : Action :=
  match socketGet st i with
  | none => .idle
  | some s =>
    match s.type, s.tcpConnIdx with
    | .stream, some c =>
      if s.nonblocking = true ∧ connTest st tcpConnWritable (some c) = false then .idle
      else if CanSend (st.host.conns c) ∧ data ≠ [] then .send c else .idle
    | _, _ => .idle

def receiveAction (h : Host) (p : Packet) : Action :=
  match findConnection h p.srcIp p.seg.srcPort p.seg.dstPort with
  | none => .idle
  | some k =>
    match (h.conns k).state with
    | .listen =>
      match freeSlot h with
      | none => .idle
      | some j => if has p.seg.flags tcpSyn then .syn k j else .idle
    | .synReceived => if has p.seg.flags tcpAck then .finish k else .idle
    | .lastAck => if has p.seg.flags tcpAck then .free k else .idle
    | s => .move k (nextState p.seg.flags s)

def action : Op → Action
  | .listen i =>
    match socketGet st i with
    | none => .idle
    | some s => if s.type ≠ .stream ∨ s.bound = false then .idle else startAction st i .listen
  | .connect i _ _ _ _ =>
    match socketGet st i with
    | none => .idle
    | some s => if s.type = .stream then startAction st i .synSent else .idle
  | .accept i cur fatal => acceptAction st i cur fatal
  | .acceptResume c cur fatal => takeAction st c (tcpAcceptLoop (st.host.conns c) cur fatal).2
  | .send i data => sendAction st i data
  | .close i =>
    match socketGet st i with
    | none => .idle
    | some s => if 0 < s.refcount-1 then .idle else .drop i
  | .receive _ p => receiveAction st.host p
  | .tick => .tick (fun k => decide (k < tcpMaxConns) && givesUp (st.host.conns k))
      (fun k => decide (k < tcpMaxConns) && expires (st.host.conns k))
  | _ => .idle

theorem view_ext (st st' : Stack) (hs : ∀ k, slotOf (st'.host.conns k) = slotOf (st.host.conns k))
    (hh : ∀ i < maxSockets, holding (st'.sockets i) = holding (st.sockets i)) : view st' = view st := by
  unfold view
  congr 1
  · funext k
    exact hs k
  · funext i
    split_ifs with hi
    · exact hh i hi
    · rfl

theorem view_commit : view { st with host := commit st.host k a } = (view st).set k (slotOf a.conn) := by
  unfold view Tab.set
  congr 1
  funext j
  by_cases hj : j = k
  · subst hj
    rw [commit_same, update_self]
  · rw [commit_other _ _ _ _ hj, update_of_ne hj]

theorem view_set_socket (hi : i < maxSockets) :
    view (setSocket st i f) = (view st).hold i (holding (f (st.sockets i))) := by
  unfold view Tab.hold setSocket
  congr 1
  funext j
  by_cases hj : j = i
  · subst hj
    dsimp only
    rw [if_pos hi, update_self, update_self]
  · dsimp only
    rw [update_of_ne hj, update_of_ne hj]

theorem view_same_socket (h : holding (f (st.sockets i)) = holding (st.sockets i)) : view (setSocket st i f) = view st := by
  apply view_ext
  · intro k
    rfl
  · intro j _
    by_cases hj : j = i
    · subst hj
      exact (congrArg holding (update_self _ _ _)).trans h
    · exact congrArg holding (update_of_ne hj _ _)

theorem hold_self {t : Tab} {i : ℕ} {c : Option ℕ} (h : t.holds i = c) : t.hold i c = t := by
  unfold Tab.hold
  rw [← h, update_eq_self]

theorem set_self {t : Tab} {k : ℕ} {x : Slot} (h : t.slot k = x) : t.set k x = t := by
  unfold Tab.set
  rw [← h, update_eq_self]

theorem view_same_conn (h : slotOf a.conn = slotOf (st.host.conns k)) :
    view { st with host := commit st.host k a } = view st := by
  rw [view_commit, h]
  exact set_self rfl

theorem socket_get {s : Sock} (h : socketGet st i = some s) :
    i < maxSockets ∧ (st.sockets i).inUse = true ∧ s = st.sockets i := by
  unfold socketGet at h
  split_ifs at h with hi
  exact ⟨hi.1,hi.2,(Option.some.inj h).symm⟩

theorem free_socket (h : freeSocket st = some i) :
    i < maxSockets ∧ (st.sockets i).inUse = false :=
  ⟨List.mem_range.mp (List.mem_of_find?_eq_some h),by simpa using List.find?_some h⟩

theorem view_holds (hi : i < maxSockets) (hu : (st.sockets i).inUse = true)
    (ht : (st.sockets i).type = .stream) : (view st).holds i = (st.sockets i).tcpConnIdx := by
  change (if i < maxSockets then holding (st.sockets i) else none) = _
  rw [if_pos hi, holding, if_pos ⟨hu,ht⟩]

theorem view_closed (hu : (st.sockets i).inUse = false) : (view st).holds i = none := by
  have hnone : holding (st.sockets i) = none := if_neg (by simp [hu])
  change (if i < maxSockets then holding (st.sockets i) else none) = none
  rw [hnone, ite_self]

/-- Neither the accept queue nor the listener nor the unacknowledged length
has changed. -/
structure Keeps (c c' : Conn) : Prop where
  queue : c'.acceptQueue = c.acceptQueue
  head : c'.acceptHead = c.acceptHead
  tail : c'.acceptTail = c.acceptTail
  count : c'.acceptCount = c.acceptCount
  parent : c'.parentIdx = c.parentIdx
  len : c'.retransmitLen = c.retransmitLen

theorem Keeps.slot {c c' : Conn} (h : Keeps c c') :
    slotOf c' = { slotOf c with state := c'.state, used := c'.inUse } := by
  unfold slotOf queueOf
  rw [h.queue, h.head, h.count, h.parent, h.len]

theorem Keeps.ring {c c' : Conn} (h : Keeps c c') (hr : QueueRing c) : QueueRing c' := by
  unfold QueueRing at hr ⊢
  rwa [h.head, h.count, h.tail]

theorem receive_keeps (s : Segment) : Keeps c (receiveConn c s).conn := by
  have hack : Keeps c (takeAck c s) := by
    unfold takeAck
    split_ifs <;> exact ⟨rfl,rfl,rfl,rfl,rfl,rfl⟩
  cases hst : c.state with
  | synReceived =>
    rw [receive_syn_received c s hst]
    split_ifs <;> exact ⟨rfl,rfl,rfl,rfl,rfl,rfl⟩
  | synSent =>
    rw [receive_syn_sent c s hst]
    split_ifs <;> exact ⟨rfl,rfl,rfl,rfl,rfl,rfl⟩
  | established =>
    rw [receive_established c s hst, take_rst_conn, take_fin_conn, take_data_conn]
    split_ifs <;> exact ⟨hack.queue,hack.head,hack.tail,hack.count,hack.parent,hack.len⟩
  | finWait1 =>
    rw [receive_fin_wait c s (.inl hst), peer_fin_conn]
    unfold finAcked
    split_ifs <;> exact ⟨rfl,rfl,rfl,rfl,rfl,rfl⟩
  | finWait2 =>
    have hne : ¬c.state = .finWait1 := by rw [hst]; decide
    rw [receive_fin_wait c s (.inr hst), peer_fin_conn]
    split_ifs <;> exact ⟨rfl,rfl,rfl,rfl,rfl,rfl⟩
  | lastAck =>
    unfold receiveConn
    rw [hst]
    split_ifs <;> exact ⟨rfl,rfl,rfl,rfl,rfl,rfl⟩
  | closed =>
    rw [receive_other c s (.inl hst)]
    exact ⟨rfl,rfl,rfl,rfl,rfl,rfl⟩
  | listen =>
    rw [receive_other c s (.inr (.inl hst))]
    exact ⟨rfl,rfl,rfl,rfl,rfl,rfl⟩
  | closeWait =>
    rw [receive_other c s (.inr (.inr (.inl hst)))]
    exact ⟨rfl,rfl,rfl,rfl,rfl,rfl⟩
  | timeWait =>
    rw [receive_other c s (.inr (.inr (.inr hst)))]
    exact ⟨rfl,rfl,rfl,rfl,rfl,rfl⟩

theorem receive_used {s : Segment} (h : ¬(c.state = .lastAck ∧ has s.flags tcpAck = true)) :
    (receiveConn c s).conn.inUse = c.inUse := (handles_receive c s h).used

theorem receive_slot_of {s : Segment} (h : ¬(c.state = .lastAck ∧ has s.flags tcpAck = true)) :
    slotOf (receiveConn c s).conn = { slotOf c with state := nextState s.flags c.state } := by
  rw [(receive_keeps c s).slot, receive_state, receive_used c h]
  rfl

theorem recv_slot (len cur : ℕ) (fatal : Bool) : slotOf (tcpRecv c len cur fatal).1 = slotOf c := by
  obtain ⟨pos,n,r,h⟩ := recv_frame c len cur fatal
  rw [h]
  rfl

theorem close_slot : slotOf (tcpClose c).conn = closeSlot (slotOf c) := by
  have hs : (slotOf c).state = c.state := rfl
  rw [tcpClose, closeSlot, hs]
  cases hst : c.state <;> rfl

theorem send_slot : slotOf (tcpSend c data).1.conn =
    if CanSend c ∧ data ≠ [] then { slotOf c with unacked := true } else slotOf c := by
  by_cases hc : CanSend c
  · refine send_rule c data (fun done a => slotOf a.conn =
      if CanSend c ∧ done ≠ [] then { slotOf c with unacked := true } else slotOf c) hc ?_ ?_
    · rw [if_neg (by simp)]
    · intro done chunk a h0 h1 ha
      have hne : done++chunk ≠ [] := by
        intro hnil
        rw [(List.append_eq_nil_iff.mp hnil).2] at h0
        exact absurd h0 (by simp)
      rw [send_chunk a h1, if_pos ⟨hc,hne⟩]
      have hkeep : slotOf { keepChunk a.conn chunk with
          sndNxt := a.conn.sndNxt+BitVec.ofNat 32 chunk.length } = { slotOf a.conn with unacked := true } := by
        unfold slotOf
        simp only [keepChunk, h0]
        rfl
      rw [hkeep, ha]
      split_ifs <;> rfl
  · rw [send_refused c data hc, if_neg (fun h => hc h.1)]

theorem give_up_fires (h : givesUp c = true) :
    c.inUse = true ∧ 0 < c.retransmitLen ∧ c.retransmitTimer = 1 ∧ 3 ≤ c.retransmitCount := by
  simpa [givesUp, and_assoc] using h

theorem retransmit_slot (hu : c.inUse = true) : slotOf (retransmitTick c).conn =
    if givesUp c then { slotOf c with state := .closed, unacked := false } else slotOf c := by
  by_cases hf : c.retransmitLen = 0 ∨ c.retransmitTimer ≠ 1
  · have hno : givesUp c = false := by
      rcases hf with h | h <;> simp [givesUp, h]
    rw [retransmit_wait c hf, hno]
    rfl
  · push Not at hf
    have hpos : 0 < c.retransmitLen := by omega
    rw [retransmit_fire c hpos hf.2]
    by_cases hcount : c.retransmitCount < 3
    · have hno : givesUp c = false := by simp [givesUp, show ¬3 ≤ c.retransmitCount by omega]
      rw [if_pos hcount, resend_conn, hno]
      rfl
    · have hyes : givesUp c = true := by simp [givesUp, hu, hpos, hf.2, show 3 ≤ c.retransmitCount by omega]
      rw [if_neg hcount, hyes]
      rfl

theorem retransmit_used : (retransmitTick c).conn.inUse = c.inUse := by
  obtain ⟨st,r,w,len,timer,count,h,-⟩ := retransmit_frame c
  rw [h]

theorem time_wait_slot (hu : c.inUse = true) : slotOf (timeWaitTick c) =
    if (timeWaitTick c).inUse then slotOf c else { slotOf c with state := .closed, used := false } := by
  unfold timeWaitTick
  dsimp only
  split_ifs <;> first | rfl | simp_all

theorem tick_slot : slotOf (tickConn c).conn = tickSlot (slotOf c) (givesUp c) (expires c) := by
  by_cases hu : c.inUse = true
  · have htick : (tickConn c).conn = timeWaitTick (retransmitTick c).conn := by
      unfold tickConn
      rw [if_pos hu]
    have hu' : (retransmitTick c).conn.inUse = true := (retransmit_used c).trans hu
    have hexp : expires c = !(timeWaitTick (retransmitTick c).conn).inUse := by
      rw [expires, hu, htick, Bool.true_and]
    have hslot := retransmit_slot c hu
    rw [htick, time_wait_slot _ hu', hexp, hslot]
    unfold tickSlot
    by_cases hg : givesUp c = true
    · -- a connection that gave up is closed, so TIME_WAIT does not see it
      rw [if_pos hg] at hslot
      have hst : (retransmitTick c).conn.state = .closed := congrArg Slot.state hslot
      rw [time_wait_other _ (by rw [hst]; decide), hu']
      simp
    · cases (timeWaitTick (retransmitTick c).conn).inUse <;> simp [hg]
  · have hg : givesUp c = false := by simp [givesUp, hu]
    have he : expires c = false := by simp [expires, hu]
    unfold tickConn tickSlot
    simp [hu, hg, he]

theorem loop_slot (hr : QueueRing c) :
    (tcpAcceptLoop c cur fatal).2 = .failed ∧ slotOf (tcpAcceptLoop c cur fatal).1 = slotOf c ∨
    (tcpAcceptLoop c cur fatal).2 = .blocked ∧ slotOf (tcpAcceptLoop c cur fatal).1 = slotOf c ∨
    ∃ k rest, (tcpAcceptLoop c cur fatal).2 = .conn k ∧ queueOf c = k::rest ∧
      slotOf (tcpAcceptLoop c cur fatal).1 = { slotOf c with queue := rest } := by
  unfold tcpAcceptLoop
  split_ifs with h0 hf
  · exact .inl ⟨rfl,rfl⟩
  · exact .inr (.inl ⟨rfl,rfl⟩)
  · refine .inr (.inr ⟨_,_,rfl,?_,rfl⟩)
    obtain ⟨n,hn⟩ := Nat.exists_eq_add_one_of_ne_zero h0
    unfold queueOf
    rw [hn, contents_cons _ _ _ _ hr.1, Nat.add_sub_cancel]

theorem accept_slot (hr : QueueRing c) :
    (tcpAccept c cur fatal).2 = .failed ∧ slotOf (tcpAccept c cur fatal).1 = slotOf c ∨
    (tcpAccept c cur fatal).2 = .blocked ∧ slotOf (tcpAccept c cur fatal).1 = slotOf c ∨
    ∃ k rest, (tcpAccept c cur fatal).2 = .conn k ∧ queueOf c = k::rest ∧
      slotOf (tcpAccept c cur fatal).1 = { slotOf c with queue := rest } := by
  rw [tcp_accept_loop]
  split_ifs
  · exact .inl ⟨rfl,rfl⟩
  · exact loop_slot c cur fatal hr

theorem enqueue_slot (hr : QueueRing c) : slotOf (enqueue c k).conn = push (slotOf c) k := by
  have hlen : (slotOf c).queue.length = c.acceptCount := contents_length _ _ _ _
  unfold enqueue push
  rw [hlen]
  split_ifs with h
  · have hput := contents_put c.acceptQueue tcpAcceptQueue c.acceptHead c.acceptCount k h
    rw [← hr.2.2] at hput
    exact congrArg (fun l => { slotOf c with queue := l }) hput
  · rfl

def Rings : Prop := ∀ k, QueueRing (st.host.conns k)

theorem create_view (type : SockType) : view (socketCreate st type).1 = view st := by
  unfold socketCreate
  cases hf : freeSocket st with
  | none => rfl
  | some i =>
    apply view_same_socket
    have hold : holding (st.sockets i) = none := if_neg (by simp [(free_socket st i hf).2])
    rw [hold]
    unfold holding
    split_ifs <;> rfl

theorem start_view {st : Stack} {i k : ℕ} {a : Act} (f : Sock → Sock) {s : TcpState} (next : ℕ)
    (hi : i < maxSockets) (ha : slotOf a.conn = { state := s, used := true })
    (hf : holding (f (st.sockets i)) = some k) :
    view (setSocket { st with
        host := commit (commit st.host k { conn := fresh }) k a, nextEphemeralPort := next } i f) =
      apply (view st) (.start i k s) := by
  rw [view_set_socket _ _ _ hi]
  have hhost : view { st with
      host := commit (commit st.host k { conn := fresh }) k a, nextEphemeralPort := next } =
      (view st).set k { state := s, used := true } := by
    have h1 := view_commit { st with host := commit st.host k { conn := fresh } } k a
    have h2 := view_commit st k { conn := fresh }
    rw [h2, ha] at h1
    rw [show ((view st).set k (slotOf fresh)).set k { state := s, used := true } =
      (view st).set k { state := s, used := true } from
        congrArg (fun g => ({ slot := g, holds := (view st).holds } : Tab)) (update_idem _ _ _)] at h1
    exact h1
  rw [hhost]
  exact congrArg _ hf

theorem listen_view :
    view (step st (.listen i)) = apply (view st) (action st (.listen i)) := by
  simp only [step, action, socketListen]
  cases hg : socketGet st i with
  | none => rfl
  | some s =>
    obtain ⟨hi,hu,rfl⟩ := socket_get st i hg
    dsimp only
    split_ifs with hs
    · rfl
    · push Not at hs
      unfold tcpAllocConn startAction
      cases hfree : freeSlot st.host with
      | none => rfl
      | some k =>
        dsimp only
        rw [commit_same]
        exact start_view _ st.nextEphemeralPort hi rfl (if_pos ⟨hu,hs.1⟩)

theorem connect_view (i ip port now cur : ℕ) :
    view (step st (.connect i ip port now cur)) =
      apply (view st) (action st (.connect i ip port now cur)) := by
  simp only [step, action, socketConnect]
  cases hg : socketGet st i with
  | none => rfl
  | some s =>
    obtain ⟨hi,hu,rfl⟩ := socket_get st i hg
    dsimp only
    cases ht : (st.sockets i).type with
    | stream =>
      unfold tcpAllocConn startAction
      cases hfree : freeSlot st.host with
      | none => rfl
      | some k =>
        dsimp only
        rw [commit_same]
        exact start_view _ _ hi rfl (if_pos ⟨hu,ht⟩)
    | dgram =>
      refine (view_same_socket _ i _ ?_).trans rfl
      rfl

theorem accept_with_view {c : ℕ} {r : Conn × Accepted}
    (h : r.2 = .failed ∧ slotOf r.1 = slotOf (st.host.conns c) ∨
      r.2 = .blocked ∧ slotOf r.1 = slotOf (st.host.conns c) ∨
      ∃ k rest, r.2 = .conn k ∧ queueOf (st.host.conns c) = k::rest ∧
        slotOf r.1 = { slotOf (st.host.conns c) with queue := rest }) :
    view (acceptWith st c r) = apply (view st) (takeAction st c r.2) := by
  obtain ⟨x,y⟩ := r
  rcases h with ⟨hy,hx⟩ | ⟨hy,hx⟩ | ⟨k,rest,hy,hq,hx⟩
  · obtain rfl : y = .failed := hy
    exact view_same_conn st c { conn := x } hx
  · obtain rfl : y = .blocked := hy
    exact view_same_conn st c { conn := x } hx
  · obtain rfl : y = .conn k := hy
    have hqueue : ((view st).slot c).queue = k::rest := hq
    have hcommit : view { st with host := commit st.host c { conn := x } } =
        (view st).set c { (view st).slot c with queue := rest } := by
      rw [view_commit, hx]
      rfl
    unfold acceptWith takeAction socketAccepted socketCreate
    dsimp only
    rw [show freeSocket { st with host := commit st.host c { conn := x } } = freeSocket st from rfl]
    cases hf : freeSocket st with
    | none =>
      simp only [apply, hqueue]
      exact hcommit
    | some i =>
      simp only [apply, hqueue]
      have hi := (free_socket st i hf).1
      rw [view_set_socket _ _ _ hi, view_set_socket _ _ _ hi, hcommit]
      simp only [setSocket, update_self]
      exact congrArg (fun g => ({ slot := _, holds := g } : Tab)) (update_idem _ _ _)

theorem accept_view (hr : Rings st) (i cur : ℕ) (fatal : Bool) :
    view (step st (.accept i cur fatal)) = apply (view st) (action st (.accept i cur fatal)) := by
  simp only [step, action, socketAccept, acceptAction]
  cases hg : socketGet st i with
  | none => rfl
  | some s =>
    dsimp only
    split_ifs
    · rfl
    · rfl
    · cases s.tcpConnIdx with
      | none => rfl
      | some c =>
        have hview := accept_with_view st (accept_slot (st.host.conns c) cur fatal (hr c))
        dsimp only
        rw [← hview]
        unfold acceptWith
        cases (tcpAccept (st.host.conns c) cur fatal).2 <;> rfl

theorem send_view :
    view (step st (.send i data)) = apply (view st) (action st (.send i data)) := by
  simp only [step, action, socketSend, sendAction]
  cases hg : socketGet st i with
  | none => rfl
  | some s =>
    dsimp only
    cases s.type with
    | stream =>
      cases s.tcpConnIdx with
      | none => rfl
      | some c =>
        dsimp only
        by_cases hnb : s.nonblocking = true ∧ connTest st tcpConnWritable (some c) = false
        · rw [if_pos hnb, if_pos hnb]
          rfl
        · rw [if_neg hnb, if_neg hnb]
          by_cases hs : CanSend (st.host.conns c) ∧ data ≠ []
          · rw [if_pos hs, view_commit, send_slot, if_pos hs]
            rfl
          · rw [if_neg hs]
            exact view_same_conn st c _ (by rw [send_slot, if_neg hs])
    | dgram =>
      split_ifs <;> rfl

theorem recv_view (i len cur : ℕ) (fatal : Bool) :
    view (step st (.recv i len cur fatal)) = view st := by
  simp only [step, socketRecv]
  cases hg : socketGet st i with
  | none => rfl
  | some s =>
    dsimp only
    cases s.type with
    | stream =>
      cases s.tcpConnIdx with
      | none => rfl
      | some c =>
        dsimp only
        split_ifs
        · rfl
        · have hview := view_same_conn st c { conn := (tcpRecv (st.host.conns c) len cur fatal).1 }
            (recv_slot _ len cur fatal)
          cases (tcpRecv (st.host.conns c) len cur fatal).2 <;> exact hview
    | dgram =>
      split_ifs
      · rfl
      · rfl
      · exact view_same_socket _ _ _ rfl
      · exact view_same_socket _ _ _ rfl

theorem close_view :
    view (step st (.close i)) = apply (view st) (action st (.close i)) := by
  simp only [step, action, socketClose]
  cases hg : socketGet st i with
  | none => rfl
  | some s =>
    obtain ⟨hi,hu,rfl⟩ := socket_get st i hg
    dsimp only
    have hdec : view (setSocket st i fun s => { s with refcount := s.refcount-1 }) = view st :=
      view_same_socket st i _ rfl
    split_ifs with href
    · exact hdec
    · have hgone : ∀ st' : Stack, view (setSocket st' i fun s => { s with inUse := false }) =
          (view st').hold i none := by
        intro st'
        rw [view_set_socket _ _ _ hi]
        exact congrArg _ (if_neg (by simp))
      rw [hgone]
      cases ht : (st.sockets i).type with
      | stream =>
        have hh := view_holds st i hi hu ht
        cases hc : (st.sockets i).tcpConnIdx with
        | none =>
          rw [hc] at hh
          simp only [apply, hh]
          rw [hdec, hold_self hh]
        | some c =>
          rw [hc] at hh
          simp only [apply, hh]
          rw [view_commit, hdec, close_slot]
          rfl
      | dgram =>
        have hh : (view st).holds i = none := by
          change (if i < maxSockets then holding (st.sockets i) else none) = none
          rw [if_pos hi, holding, if_neg (by rw [ht]; simp)]
        simp only [apply, hh]
        rw [hdec, hold_self hh]

theorem open_view {x : Slot} (ha : slotOf a.conn = x) :
    view { st with host := openWith st.host a } =
      match freeSlot st.host with
      | none => view st
      | some k => (view st).set k x := by
  unfold openWith
  cases freeSlot st.host with
  | none => rfl
  | some k =>
    have h1 := view_commit { st with host := commit st.host k { conn := fresh } } k a
    have h2 := view_commit st k { conn := fresh }
    rw [h2, ha] at h1
    rw [h1]
    exact congrArg (fun g => ({ slot := g, holds := (view st).holds } : Tab)) (update_idem _ _ _)

theorem receive_plain {p : Packet} (hf : findConnection st.host p.srcIp p.seg.srcPort p.seg.dstPort = some k)
    (hl : (st.host.conns k).state ≠ .listen) (hs : (st.host.conns k).state ≠ .synReceived) :
    tcpReceive st.host now p = commit st.host k (receiveConn (st.host.conns k) p.seg) := by
  unfold tcpReceive
  rw [hf]
  dsimp only
  rw [if_neg hl, if_neg (fun h => hs h.1)]

theorem finish_view (hr : Rings st) {k : ℕ} {p : Packet}
    (hs : (st.host.conns k).state = .synReceived) (ha : has p.seg.flags tcpAck = true) :
    view { st with
        host := queueAccepted (commit st.host k (receiveConn (st.host.conns k) p.seg)) k } =
      apply (view st) (.finish k) := by
  have hest : view { st with host := commit st.host k (receiveConn (st.host.conns k) p.seg) } =
      establish (view st) k := by
    rw [view_commit, receive_slot_of _ (by rw [hs]; simp), hs]
    simp only [nextState, ha]
    rfl
  have hparent : ((commit st.host k (receiveConn (st.host.conns k) p.seg)).conns k).parentIdx =
      (st.host.conns k).parentIdx := by
    rw [commit_same]
    exact (receive_keeps _ _).parent
  have hring : ∀ q, QueueRing ((commit st.host k (receiveConn (st.host.conns k) p.seg)).conns q) := by
    intro q
    by_cases hq : q = k
    · subst hq
      rw [commit_same]
      exact (receive_keeps _ _).ring (hr q)
    · rw [commit_other _ _ _ _ hq]
      exact hr q
  unfold queueAccepted
  rw [hparent]
  have hp : ((view st).slot k).parent = (st.host.conns k).parentIdx := rfl
  cases hpar : (st.host.conns k).parentIdx with
  | none =>
    rw [hpar] at hp
    simp only [apply, hp]
    exact hest
  | some q =>
    rw [hpar] at hp
    simp only [apply, hp]
    have hcommit := view_commit { st with host := commit st.host k (receiveConn (st.host.conns k) p.seg) } q
      (enqueue ((commit st.host k (receiveConn (st.host.conns k) p.seg)).conns q) k)
    rw [enqueue_slot _ k (hring q), hest] at hcommit
    have hslot : slotOf ((commit st.host k (receiveConn (st.host.conns k) p.seg)).conns q) =
        (establish (view st) k).slot q := by
      rw [← hest]
      rfl
    rw [hslot] at hcommit
    exact hcommit

theorem receive_view (hr : Rings st) (now : ℕ) (p : Packet) :
    view (step st (.receive now p)) = apply (view st) (action st (.receive now p)) := by
  simp only [step, action, receiveAction]
  cases hf : findConnection st.host p.srcIp p.seg.srcPort p.seg.dstPort with
  | none =>
    unfold tcpReceive
    rw [hf]
    rfl
  | some k =>
    have hused := (found_used st.host hf).2.1
    have hplain : ∀ s, (st.host.conns k).state = s → s ≠ .listen → s ≠ .synReceived → s ≠ .lastAck →
        view { st with host := tcpReceive st.host now p } =
          apply (view st) (.move k (nextState p.seg.flags s)) := by
      intro s hst h1 h2 h3
      rw [receive_plain st now k hf (by rwa [hst]) (by rwa [hst]), view_commit,
        receive_slot_of _ (by rw [hst]; exact fun h => h3 h.1), hst]
      rfl
    dsimp only
    cases hst : (st.host.conns k).state with
    | listen =>
      have hrec : tcpReceive st.host now p = if has p.seg.flags tcpSyn then
          openWith st.host (synReceived fresh st.host.ip (st.host.conns k).localPort k now p) else st.host := by
        unfold tcpReceive
        rw [hf]
        dsimp only
        rw [if_pos hst, receive_syn st.host k now p hused]
      rw [hrec]
      by_cases hsyn : has p.seg.flags tcpSyn = true
      · rw [if_pos hsyn, open_view st _ rfl]
        cases freeSlot st.host with
        | none => rfl
        | some j =>
          dsimp only
          rw [if_pos hsyn]
          rfl
      · rw [if_neg hsyn]
        cases freeSlot st.host with
        | none => rfl
        | some j =>
          dsimp only
          rw [if_neg hsyn]
          rfl
    | synReceived =>
      by_cases ha : has p.seg.flags tcpAck = true
      · rw [if_pos ha, ← finish_view st hr hst ha]
        unfold tcpReceive
        rw [hf]
        dsimp only
        rw [if_neg (by rw [hst]; decide), if_pos ⟨hst,ha⟩]
      · rw [if_neg ha]
        unfold tcpReceive
        rw [hf]
        dsimp only
        rw [if_neg (by rw [hst]; decide), if_neg (fun h => ha h.2)]
        refine view_same_conn st k _ ?_
        rw [receive_slot_of _ (fun h => ha h.2), hst]
        simp only [nextState, ha]
        exact congrArg (fun s => { slotOf (st.host.conns k) with state := s }) hst.symm
    | lastAck =>
      dsimp only
      rw [receive_plain st now k hf (by rw [hst]; decide) (by rw [hst]; decide)]
      by_cases ha : has p.seg.flags tcpAck = true
      · rw [if_pos ha, view_commit, receive_freed _ _ hst ha]
        rfl
      · rw [if_neg ha]
        refine view_same_conn st k _ ?_
        rw [receive_slot_of _ (fun h => ha h.2), hst]
        simp only [nextState, ha]
        exact congrArg (fun s => { slotOf (st.host.conns k) with state := s }) hst.symm
    | closed | synSent | established | finWait1 | finWait2 | closeWait | timeWait =>
      exact hplain _ hst (by decide) (by decide) (by decide)

theorem tick_conns (h : Host) (k : ℕ) :
    (tcpTick h).conns k = if k < tcpMaxConns then (tickConn (h.conns k)).conn else h.conns k := by
  rw [tcpTick, tick_slots]
  simp only [Nat.zero_le, true_and, Nat.zero_add]

theorem tick_view : view (step st .tick) = apply (view st) (action st .tick) := by
  unfold view
  simp only [step]
  congr 1
  funext k
  rw [tick_conns]
  by_cases hk : k < tcpMaxConns
  · rw [if_pos hk, tick_slot]
    simp only [hk, decide_true, Bool.true_and]
  · simp only [hk]
    rfl

theorem step_view (hr : Rings st) (op : Op) : view (step st op) = apply (view st) (action st op) := by
  cases op with
  | create type => exact create_view st type
  | bind i ip port =>
    simp only [step, socketBind]
    cases socketGet st i with
    | none => rfl
    | some s => exact view_same_socket st i _ rfl
  | listen i => exact listen_view st i
  | accept i cur fatal => exact accept_view st hr i cur fatal
  | acceptResume c cur fatal => exact accept_with_view st (loop_slot _ cur fatal (hr c))
  | connect i ip port now cur => exact connect_view st i ip port now cur
  | connectResume i c =>
    simp only [step, socketConnectResume]
    split_ifs
    · exact view_same_socket st i _ rfl
    · rfl
  | send i data => exact send_view st i data
  | recv i len cur fatal => exact recv_view st i len cur fatal
  | recvResume c len cur fatal => exact view_same_conn st c _ (recv_slot _ len cur fatal)
  | close i => exact close_view st i
  | incRef i =>
    simp only [step, socketIncRef]
    cases socketGet st i with
    | none => rfl
    | some s => exact view_same_socket st i _ rfl
  | setNonblocking i on => exact view_same_socket st i _ rfl
  | udpDeliver dstPort srcIp srcPort data =>
    simp only [step, socketUdpDeliver]
    split
    · rfl
    · split_ifs
      · exact view_same_socket st _ _ rfl
      · rfl
  | receive now p => exact receive_view st hr now p
  | tick => exact tick_view st

end HobbyOS.SocketSteps
