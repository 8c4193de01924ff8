import HobbyOS.TcpEvents

/-!
# What one event does to a connection

An incoming segment never touches the sending half: the next sequence number
and the retransmit slot. The bare acknowledgements sent in reply carry no
data. The other lemmas say what the slot, the timer and the state are after
each event.
-/

namespace HobbyOS.TcpConn
open BoundedLoop Tcp TcpEvents

variable (c : Conn) (a : Act) (s : Segment) (flags : Flags)

theorem ack_conn : (tcpSendSegment a tcpAck []).conn = a.conn := by
  have hn : advance a.conn.sndNxt tcpAck ([] : List UInt8).length = a.conn.sndNxt := by
    simp [advance, show has tcpAck tcpSyn = false by decide, show has tcpAck tcpFin = false by decide]
  unfold tcpSendSegment
  rw [if_neg (by simp), hn]

theorem ack_out :
    (tcpSendSegment a tcpAck []).out = a.out++[segment a.conn tcpAck []] := by
  unfold tcpSendSegment
  rfl

structure SameSender (c c' : Conn) : Prop where
  nxt : c'.sndNxt = c.sndNxt
  data : c'.retransmitData = c.retransmitData
  len : c'.retransmitLen = c.retransmitLen
  seq : c'.retransmitSeq = c.retransmitSeq
  timer : c'.retransmitTimer = c.retransmitTimer
  count : c'.retransmitCount = c.retransmitCount

structure SameEnds (c c' : Conn) : Prop where
  localPort : c'.localPort = c.localPort
  remoteIp : c'.remoteIp = c.remoteIp
  remotePort : c'.remotePort = c.remotePort

theorem same_sender_refl : SameSender c c := ⟨rfl,rfl,rfl,rfl,rfl,rfl⟩

theorem same_ends_refl : SameEnds c c := ⟨rfl,rfl,rfl⟩

theorem SameSender.trans {c c' c'' : Conn} (h : SameSender c c') (h' : SameSender c' c'') :
    SameSender c c'' :=
  ⟨h'.nxt.trans h.nxt,h'.data.trans h.data,h'.len.trans h.len,h'.seq.trans h.seq,
    h'.timer.trans h.timer,h'.count.trans h.count⟩

theorem SameEnds.trans {c c' c'' : Conn} (h : SameEnds c c') (h' : SameEnds c' c'') :
    SameEnds c c'' :=
  ⟨h'.localPort.trans h.localPort,h'.remoteIp.trans h.remoteIp,h'.remotePort.trans h.remotePort⟩

/-- The segments a connection sends on its own behalf: bare acknowledgements. -/
def Bare (o : Segment) : Prop :=
  o.flags = tcpAck ∧ o.data = [] ∧ o.srcPort = c.localPort ∧ o.dstPort = c.remotePort

/-- A piece of the handler: it leaves the sending half and the ends alone,
and sends bare acknowledgements. -/
structure Handles (a a' : Act) : Prop where
  sender : SameSender a.conn a'.conn
  ends : SameEnds a.conn a'.conn
  used : a'.conn.inUse = a.conn.inUse
  out : ∀ o ∈ a'.out, o ∈ a.out ∨ Bare a.conn o

theorem handles_refl : Handles a a :=
  ⟨same_sender_refl _,same_ends_refl _,rfl,fun _ ho => Or.inl ho⟩

theorem Handles.trans {a a' a'' : Act} (h : Handles a a') (h' : Handles a' a'') :
    Handles a a'' := by
  refine ⟨h.sender.trans h'.sender,h.ends.trans h'.ends,h'.used.trans h.used,?_⟩
  intro o ho
  rcases h'.out o ho with ho | ⟨h1,h2,h3,h4⟩
  · exact h.out o ho
  · exact Or.inr ⟨h1,h2,by rw [h3, h.ends.localPort],by rw [h4, h.ends.remotePort]⟩

theorem handles_ack : Handles a (tcpSendSegment a tcpAck []) := by
  refine ⟨by rw [ack_conn]; exact same_sender_refl _,by rw [ack_conn]; exact same_ends_refl _,
    by rw [ack_conn],?_⟩
  intro o ho
  rw [ack_out, List.mem_append, List.mem_singleton] at ho
  rcases ho with ho | rfl
  · exact Or.inl ho
  · exact Or.inr ⟨rfl,rfl,rfl,rfl⟩

theorem handles_conn (c : Conn) (hs : SameSender a.conn c) (he : SameEnds a.conn c)
    (hu : c.inUse = a.conn.inUse) : Handles a { a with conn := c } :=
  ⟨hs,he,hu,fun _ ho => Or.inl ho⟩

theorem handles_wake_reader : Handles a (wakeReader a) :=
  ⟨⟨rfl,rfl,rfl,rfl,rfl,rfl⟩,⟨rfl,rfl,rfl⟩,rfl,fun _ ho => Or.inl ho⟩

theorem handles_wake_writer : Handles a (wakeWriter a) :=
  ⟨⟨rfl,rfl,rfl,rfl,rfl,rfl⟩,⟨rfl,rfl,rfl⟩,rfl,fun _ ho => Or.inl ho⟩

theorem handles_data : Handles a (takeData a s) := by
  unfold takeData
  split_ifs
  · exact ((handles_conn a (storeData a.conn s.data) ⟨rfl,rfl,rfl,rfl,rfl,rfl⟩ ⟨rfl,rfl,rfl⟩
      rfl).trans
      (handles_ack _)).trans (handles_wake_reader _)
  · exact handles_refl a

theorem handles_fin : Handles a (takeFin a s) := by
  unfold takeFin
  split_ifs
  · exact ((handles_conn a (finSeen a.conn s) ⟨rfl,rfl,rfl,rfl,rfl,rfl⟩ ⟨rfl,rfl,rfl⟩ rfl).trans
      (handles_ack _)).trans (handles_wake_reader _)
  · exact handles_refl a

theorem handles_rst : Handles a (takeRst a s) := by
  unfold takeRst
  split_ifs
  · exact ((handles_conn a { a.conn with state := .closed, eof := true }
      ⟨rfl,rfl,rfl,rfl,rfl,rfl⟩ ⟨rfl,rfl,rfl⟩ rfl).trans
      (handles_wake_reader _)).trans (handles_wake_writer _)
  · exact handles_refl a

theorem handles_peer_fin : Handles a (takePeerFin a s) := by
  unfold takePeerFin
  split_ifs
  · exact (handles_conn a (peerClosed a.conn s) ⟨rfl,rfl,rfl,rfl,rfl,rfl⟩ ⟨rfl,rfl,rfl⟩ rfl).trans
      (handles_ack _)
  · exact handles_refl a

theorem handles_receive
    (h : ¬(c.state = .lastAck ∧ has s.flags tcpAck = true)) :
    Handles { conn := c } (receiveConn c s) := by
  have hset : ∀ c' : Conn, SameSender c c' → SameEnds c c' → c'.inUse = c.inUse →
      Handles { conn := c } { conn := c' } := fun c' h1 h2 h3 => handles_conn _ c' h1 h2 h3
  unfold receiveConn
  cases hst : c.state with
  | synReceived =>
    dsimp only
    split_ifs
    · exact hset _ ⟨rfl,rfl,rfl,rfl,rfl,rfl⟩ ⟨rfl,rfl,rfl⟩ rfl
    · exact handles_refl _
  | synSent =>
    dsimp only
    split_ifs
    · exact ((hset (connected c s) ⟨rfl,rfl,rfl,rfl,rfl,rfl⟩ ⟨rfl,rfl,rfl⟩ rfl).trans
        (handles_ack _)).trans (handles_wake_writer _)
    · exact handles_refl _
  | established =>
    refine (((hset (takeAck c s) ?_ ?_ ?_).trans (handles_data _ s)).trans (handles_fin _ s)).trans
      (handles_rst _ s)
    all_goals
      unfold takeAck
      split_ifs
    · exact ⟨rfl,rfl,rfl,rfl,rfl,rfl⟩
    · exact same_sender_refl c
    · exact ⟨rfl,rfl,rfl⟩
    · exact same_ends_refl c
    · rfl
    · rfl
  | finWait1 =>
    refine (hset (finAcked c s) ?_ ?_ ?_).trans (handles_peer_fin _ s)
    all_goals
      unfold finAcked
      split_ifs
    · exact ⟨rfl,rfl,rfl,rfl,rfl,rfl⟩
    · exact same_sender_refl c
    · exact ⟨rfl,rfl,rfl⟩
    · exact same_ends_refl c
    · rfl
    · rfl
  | finWait2 => exact handles_peer_fin _ s
  | lastAck =>
    dsimp only
    rw [if_neg (fun ha => h ⟨hst,ha⟩)]
    exact handles_refl _
  | closed | listen | closeWait | timeWait => exact handles_refl _

theorem receive_freed (h : c.state = .lastAck)
    (ha : has s.flags tcpAck = true) :
    receiveConn c s = { conn := { c with state := .closed, inUse := false } } := by
  unfold receiveConn
  rw [h]
  exact if_pos ha

theorem receive_syn_received (h : c.state = .synReceived) :
    (receiveConn c s).conn =
      if has s.flags tcpAck then { c with sndUna := s.ackNum, state := .established } else c := by
  unfold receiveConn
  rw [h]
  split_ifs <;> rfl

theorem receive_syn_sent (h : c.state = .synSent) :
    (receiveConn c s).conn = if s.flags &&& (tcpSyn ||| tcpAck) = tcpSyn ||| tcpAck then
      { connected c s with blockedWriter := none } else c := by
  unfold receiveConn
  rw [h]
  dsimp only
  split_ifs
  · unfold wakeWriter
    rw [ack_conn]
  · rfl

theorem receive_established (h : c.state = .established) :
    receiveConn c s = takeRst (takeFin (takeData { conn := takeAck c s } s) s) s := by
  unfold receiveConn
  rw [h]

theorem receive_fin_wait (h : c.state = .finWait1 ∨ c.state = .finWait2) :
    receiveConn c s = takePeerFin { conn := if c.state = .finWait1 then finAcked c s else c } s := by
  unfold receiveConn
  rcases h with h | h
  · rw [h]
    rfl
  · rw [h]
    rfl

theorem receive_other
    (h : c.state = .closed ∨ c.state = .listen ∨ c.state = .closeWait ∨ c.state = .timeWait) :
    receiveConn c s = { conn := c } := by
  unfold receiveConn
  rcases h with h | h | h | h <;> rw [h]

theorem take_data_conn : (takeData a s).conn =
    if 0 < s.data.length ∧ s.seqNum = a.conn.rcvNxt then
      { storeData a.conn s.data with blockedReader := none } else a.conn := by
  unfold takeData
  split_ifs
  · unfold wakeReader
    rw [ack_conn]
  · rfl

theorem take_fin_conn : (takeFin a s).conn =
    if has s.flags tcpFin then { finSeen a.conn s with blockedReader := none } else a.conn := by
  unfold takeFin
  split_ifs
  · unfold wakeReader
    rw [ack_conn]
  · rfl

theorem take_rst_conn : (takeRst a s).conn =
    if has s.flags tcpRst then { a.conn with
      state := .closed, eof := true, blockedReader := none, blockedWriter := none } else a.conn := by
  unfold takeRst
  split_ifs <;> rfl

theorem peer_fin_conn : (takePeerFin a s).conn =
    if has s.flags tcpFin then peerClosed a.conn s else a.conn := by
  unfold takePeerFin
  split_ifs
  · rw [ack_conn]
  · rfl

theorem take_ack_state : (takeAck c s).state = c.state := by
  unfold takeAck
  split_ifs <;> rfl

def nextState : TcpState → TcpState
  | .synReceived => if has flags tcpAck then .established else .synReceived
  | .synSent =>
    if flags &&& (tcpSyn ||| tcpAck) = tcpSyn ||| tcpAck then .established else .synSent
  | .established =>
    if has flags tcpRst then .closed else if has flags tcpFin then .closeWait else .established
  | .finWait1 =>
    if has flags tcpFin then .timeWait else if has flags tcpAck then .finWait2 else .finWait1
  | .finWait2 => if has flags tcpFin then .timeWait else .finWait2
  | .lastAck => if has flags tcpAck then .closed else .lastAck
  | s => s

theorem receive_state :
    (receiveConn c s).conn.state = nextState s.flags c.state := by
  cases hst : c.state with
  | synReceived =>
    rw [receive_syn_received c s hst, nextState]
    split_ifs
    · rfl
    · exact hst
  | synSent =>
    rw [receive_syn_sent c s hst, nextState]
    split_ifs
    · rfl
    · exact hst
  | established =>
    rw [receive_established c s hst, take_rst_conn, take_fin_conn, take_data_conn, nextState]
    split_ifs <;> first | rfl | exact (take_ack_state c s).trans hst
  | finWait1 =>
    rw [receive_fin_wait c s (Or.inl hst), peer_fin_conn, nextState]
    unfold finAcked
    split_ifs <;> first | rfl | exact hst
  | finWait2 =>
    rw [receive_fin_wait c s (Or.inr hst), hst, if_neg (by simp), peer_fin_conn, nextState]
    split_ifs
    · rfl
    · exact hst
  | lastAck =>
    unfold receiveConn
    rw [hst, nextState]
    dsimp only
    split_ifs
    · rfl
    · exact hst
  | closed => rw [receive_other c s (Or.inl hst)]; exact hst
  | listen => rw [receive_other c s (Or.inr (Or.inl hst))]; exact hst
  | closeWait => rw [receive_other c s (Or.inr (Or.inr (Or.inl hst)))]; exact hst
  | timeWait => rw [receive_other c s (Or.inr (Or.inr (Or.inr hst)))]; exact hst

theorem has_of_mask {flags mask flag : Flags} (h : flags &&& mask = mask)
    (hm : mask &&& flag = flag) (hf : flag ≠ 0) : has flags flag = true := by
  have hbit : flags &&& flag = flag := by
    calc flags &&& flag = flags &&& (mask &&& flag) := by rw [hm]
      _ = flags &&& mask &&& flag := (BitVec.and_assoc _ _ _).symm
      _ = flag := by rw [h, hm]
  rw [has, hbit]
  exact bne_iff_ne.mpr hf

theorem syn_ack_ack (h : flags &&& (tcpSyn ||| tcpAck) = tcpSyn ||| tcpAck) :
    has flags tcpAck = true :=
  has_of_mask h (by decide) (by decide)

theorem syn_ack_syn (h : flags &&& (tcpSyn ||| tcpAck) = tcpSyn ||| tcpAck) :
    has flags tcpSyn = true :=
  has_of_mask h (by decide) (by decide)

theorem receive_una : (receiveConn c s).conn.sndUna = c.sndUna ∨
    has s.flags tcpAck = true ∧ (receiveConn c s).conn.sndUna = s.ackNum := by
  cases hst : c.state with
  | synReceived =>
    rw [receive_syn_received c s hst]
    split_ifs with ha
    · exact Or.inr ⟨ha,rfl⟩
    · exact Or.inl rfl
  | synSent =>
    rw [receive_syn_sent c s hst]
    split_ifs with ha
    · exact Or.inr ⟨syn_ack_ack _ ha,rfl⟩
    · exact Or.inl rfl
  | established =>
    have hack : (takeAck c s).sndUna = c.sndUna ∨
        has s.flags tcpAck = true ∧ (takeAck c s).sndUna = s.ackNum := by
      unfold takeAck
      split_ifs with ha
      · exact Or.inr ⟨ha,rfl⟩
      · exact Or.inl rfl
    rw [receive_established c s hst, take_rst_conn, take_fin_conn, take_data_conn]
    split_ifs <;> exact hack
  | finWait1 =>
    rw [receive_fin_wait c s (Or.inl hst), peer_fin_conn]
    unfold finAcked peerClosed
    split_ifs with _ ha ha
    · exact Or.inr ⟨ha,rfl⟩
    · exact Or.inl rfl
    · exact Or.inr ⟨ha,rfl⟩
    · exact Or.inl rfl
  | finWait2 =>
    rw [receive_fin_wait c s (Or.inr hst), hst, if_neg (by simp), peer_fin_conn]
    split_ifs <;> exact Or.inl rfl
  | lastAck =>
    unfold receiveConn
    rw [hst]
    split_ifs <;> exact Or.inl rfl
  | closed => exact Or.inl (by rw [receive_other c s (Or.inl hst)])
  | listen => exact Or.inl (by rw [receive_other c s (Or.inr (Or.inl hst))])
  | closeWait => exact Or.inl (by rw [receive_other c s (Or.inr (Or.inr (Or.inl hst)))])
  | timeWait => exact Or.inl (by rw [receive_other c s (Or.inr (Or.inr (Or.inr hst)))])

def dataFlags : Flags := tcpAck ||| tcpPsh

theorem data_flags_syn : has dataFlags tcpSyn = false := by decide

theorem data_flags_fin : has dataFlags tcpFin = false := by decide

theorem fin_flags_syn : has (tcpFin ||| tcpAck) tcpSyn = false := by decide

theorem rst_syn : has tcpRst tcpSyn = false := by decide

theorem rst_fin : has tcpRst tcpFin = false := by decide

theorem send_chunk {chunk : List UInt8} (h : chunk.length ≤ 1460) :
    sendChunk a chunk = { a with
      conn := { keepChunk a.conn chunk with sndNxt := a.conn.sndNxt+BitVec.ofNat 32 chunk.length }
      out := a.out++[segment a.conn dataFlags chunk] } := by
  have hn : ∀ n, advance n dataFlags chunk.length = n+BitVec.ofNat 32 chunk.length := by
    intro n
    simp [advance, data_flags_syn, data_flags_fin]
  unfold sendChunk tcpSendSegment
  rw [if_neg (by omega)]
  rw [show (tcpAck ||| tcpPsh) = dataFlags from rfl, hn, ipv4Send, if_neg (show ¬_ by
    change ¬20+(20+chunk.length) > 1500
    omega)]
  rfl

variable (data : List UInt8)

theorem send_rule (P : List UInt8 → Act → Prop) (hc : CanSend c) (h0 : P [] { conn := c })
    (hstep : ∀ done chunk a, 0 < chunk.length → chunk.length ≤ 1460 → P done a → P (done++chunk) (sendChunk a chunk)) : P data (tcpSend c data).1 := by
  have hrun := iterate_rule (fun i a => sendChunk a ((data.drop (1460*i)).take 1460))
    (fun i a => P (data.take (1460*i)) a) 0 ((data.length+1459)/1460) { conn := c }
    (by simpa using h0) ?_
  · unfold tcpSend
    rw [if_pos hc]
    rwa [List.take_of_length_le (by omega)] at hrun
  intro i a _ hi ha
  have hlen : ((data.drop (1460*i)).take 1460).length = min 1460 (data.length-1460*i) := by simp
  have := hstep _ ((data.drop (1460*i)).take 1460) a (by omega) (by omega) ha
  rwa [show 1460*(i+1) = 1460*i+1460 by omega, List.take_add]

theorem send_refused (hc : ¬CanSend c) : tcpSend c data = ({ conn := c },false) := by
  unfold tcpSend
  rw [if_neg hc]

theorem record_send (t : Trace) {c : Conn} (data : List UInt8) (hc : CanSend c) :
    record t c (.send data) = { t with accepted := t.accepted++data } := by
  rw [record, tcpSend, if_pos hc, if_pos rfl]

theorem record_refused (t : Trace) {c : Conn} (data : List UInt8) (hc : ¬CanSend c) :
    record t c (.send data) = t := by
  rw [record, send_refused c data hc]
  rfl

theorem resend_conn : (resend c).conn = { c with
    retransmitTimer := 50
    retransmitCount := c.retransmitCount+1 } := by
  unfold resend tcpSendSegment
  split_ifs <;> rfl

theorem resend_out (h : c.retransmitLen ≤ 1460) : (resend c).out =
    [{ segment c dataFlags (bytes c.retransmitData c.retransmitLen) with
      seqNum := c.retransmitSeq }] := by
  have hlen : (bytes c.retransmitData c.retransmitLen).length = c.retransmitLen := by simp [bytes]
  unfold resend tcpSendSegment
  rw [if_neg (by omega)]
  rw [ipv4Send, if_neg (show ¬_ by
    change ¬20+(20+(bytes c.retransmitData c.retransmitLen).length) > 1500
    omega)]
  rfl

theorem give_up_conn : (giveUp c).conn = { c with
    retransmitLen := 0
    state := .closed
    blockedReader := none
    blockedWriter := none } := by
  have hn : advance c.sndNxt tcpRst ([] : List UInt8).length = c.sndNxt := by
    simp [advance, rst_syn, rst_fin]
  unfold giveUp tcpSendSegment
  rw [if_neg (by simp)]
  unfold wakeWriter wakeReader
  rw [hn]

theorem give_up_out : (giveUp c).out = [segment c tcpRst []] := rfl

theorem retransmit_wait (h : c.retransmitLen = 0 ∨ c.retransmitTimer ≠ 1) :
    retransmitTick c = { conn := { c with retransmitTimer :=
      c.retransmitTimer-if 0 < c.retransmitLen then 1 else 0 } } := by
  unfold retransmitTick
  by_cases hon : 0 < c.retransmitLen ∧ 0 < c.retransmitTimer
  · rw [if_pos hon, if_pos hon.1]
    dsimp only
    rw [if_neg (by omega)]
  · split_ifs with hl
    · rw [show c.retransmitTimer-1 = c.retransmitTimer by omega]
    · rfl

theorem retransmit_fire (hl : 0 < c.retransmitLen) (ht : c.retransmitTimer = 1) :
    retransmitTick c = if c.retransmitCount < 3 then resend { c with retransmitTimer := 0 }
      else giveUp { c with retransmitTimer := 0 } := by
  unfold retransmitTick
  rw [if_pos (by omega)]
  rw [ht]
  rfl

theorem time_wait_other (h : c.state ≠ .timeWait) : timeWaitTick c = c := if_neg h

theorem time_wait_count (h : c.state = .timeWait) (ht : 1 < c.retransmitTimer) :
    timeWaitTick c = { c with retransmitTimer := c.retransmitTimer-1 } := by
  unfold timeWaitTick
  rw [if_pos h, if_neg (show ¬c.retransmitTimer = 0 by omega)]
  rw [if_neg (by omega)]

theorem segment_ports {data : List UInt8} {o : Segment}
    (ho : o ∈ (tcpSendSegment a flags data).out) :
    o ∈ a.out ∨ o.srcPort = a.conn.localPort ∧ o.dstPort = a.conn.remotePort := by
  unfold tcpSendSegment at ho
  split_ifs at ho
  · exact Or.inl ho
  · rcases List.mem_append.mp ho with ho | ho
    · exact Or.inl ho
    · unfold ipv4Send at ho
      split_ifs at ho
      · cases ho
      · rw [List.mem_singleton.mp ho]
        exact Or.inr ⟨rfl,rfl⟩

theorem tick_ports {o : Segment} (ho : o ∈ (tickConn c).out) :
    o.srcPort = c.localPort ∧ o.dstPort = c.remotePort := by
  unfold tickConn at ho
  split_ifs at ho
  · by_cases hf : c.retransmitLen = 0 ∨ c.retransmitTimer ≠ 1
    · rw [retransmit_wait c hf] at ho
      cases ho
    · push Not at hf
      rw [retransmit_fire c (by omega) hf.2] at ho
      split_ifs at ho
      · exact (segment_ports _ _ ho).resolve_left (by simp)
      · rw [give_up_out, List.mem_singleton] at ho
        rw [ho]
        exact ⟨rfl,rfl⟩
  · cases ho

theorem time_wait_frame : ∃ st timer used, timeWaitTick c = { c with
      state := st
      retransmitTimer := timer
      inUse := used } ∧ (st = .closed ∨ st = c.state ∧ used = c.inUse) := by
  unfold timeWaitTick
  generalize (if c.retransmitTimer = 0 then 200 else c.retransmitTimer)-1 = timer
  dsimp only
  split_ifs
  · exact ⟨.closed,0,false,rfl,Or.inl rfl⟩
  · exact ⟨c.state,timer,c.inUse,rfl,Or.inr ⟨rfl,rfl⟩⟩
  · exact ⟨c.state,c.retransmitTimer,c.inUse,rfl,Or.inr ⟨rfl,rfl⟩⟩

theorem retransmit_frame : ∃ st r w len timer count, (retransmitTick c).conn = { c with
      state := st
      blockedReader := r
      blockedWriter := w
      retransmitLen := len
      retransmitTimer := timer
      retransmitCount := count } ∧
    (st = .closed ∧ len = 0 ∨ st = c.state ∧ len = c.retransmitLen) := by
  by_cases hf : c.retransmitLen = 0 ∨ c.retransmitTimer ≠ 1
  · rw [retransmit_wait c hf]
    exact ⟨_,_,_,_,_,_,rfl,Or.inr ⟨rfl,rfl⟩⟩
  · push Not at hf
    rw [retransmit_fire c (by omega) hf.2]
    split_ifs
    · rw [resend_conn]
      exact ⟨_,_,_,_,_,_,rfl,Or.inr ⟨rfl,rfl⟩⟩
    · rw [give_up_conn]
      exact ⟨_,_,_,_,_,_,rfl,Or.inl ⟨rfl,rfl⟩⟩

theorem tick_frame : ∃ st r w len timer count used, (tickConn c).conn = { c with
      state := st
      blockedReader := r
      blockedWriter := w
      retransmitLen := len
      retransmitTimer := timer
      retransmitCount := count
      inUse := used } ∧ (st = .closed ∨ st = c.state ∧ used = c.inUse) ∧
    (len = c.retransmitLen ∨ st = .closed ∧ len = 0) := by
  unfold tickConn
  split_ifs
  · obtain ⟨st,r,w,len,timer,count,heq,hst⟩ := retransmit_frame c
    dsimp only
    obtain ⟨st',timer',used,hw,hst'⟩ := time_wait_frame (retransmitTick c).conn
    rw [heq] at hw hst'
    rw [heq, hw]
    refine ⟨_,_,_,_,_,_,_,rfl,?_,?_⟩
    · rcases hst' with h | ⟨h,hu⟩
      · exact Or.inl h
      · rcases hst with ⟨h1,-⟩ | ⟨h1,-⟩
        · exact Or.inl (h.trans h1)
        · exact Or.inr ⟨h.trans h1,hu⟩
    · rcases hst with ⟨h1,h2⟩ | ⟨-,h2⟩
      · refine Or.inr ⟨?_,h2⟩
        rcases hst' with h | ⟨h,-⟩
        · exact h
        · exact h.trans h1
      · exact Or.inl h2
  · exact ⟨_,_,_,_,_,_,_,rfl,Or.inr ⟨rfl,rfl⟩,Or.inl rfl⟩

theorem recv_frame (len cur : ℕ) (fatal : Bool) :
    ∃ pos n r, (tcpRecv c len cur fatal).1 = { c with
      rxReadPos := pos
      rxCount := n
      blockedReader := r } := by
  unfold tcpRecv
  split_ifs <;> exact ⟨_,_,_,rfl⟩

theorem close_frame : (tcpClose c).conn = c ∨ ∃ st nxt used, (tcpClose c).conn = { c with
    state := st
    sndNxt := nxt
    inUse := used } ∧ (st = .finWait1 ∧ c.state = .established ∧ used = c.inUse ∨
      st = .lastAck ∧ c.state = .closeWait ∧ used = c.inUse ∨ st = .closed) := by
  unfold tcpClose
  cases hst : c.state with
  | established => exact Or.inr ⟨_,_,_,rfl,Or.inl ⟨rfl,rfl,rfl⟩⟩
  | closeWait => exact Or.inr ⟨_,_,_,rfl,Or.inr (Or.inl ⟨rfl,rfl,rfl⟩)⟩
  | listen | synSent => exact Or.inr ⟨_,_,_,rfl,Or.inr (Or.inr rfl)⟩
  | closed | synReceived | finWait1 | finWait2 | lastAck | timeWait => exact Or.inl rfl

end HobbyOS.TcpConn
