import HobbyOS.TcpCoverage

/-!
# The two halves of a connection

The sending half speaks about the bytes accepted from the writer: the next
sequence number stands behind them and the slot holds a piece of them. The
receiving half speaks about the bytes accepted at the other end: what the
readers got and the ring still holds is a prefix of them, and the expected
number stands behind that prefix as long as data is taken.
-/

namespace HobbyOS.TcpHalves
open ByteStore RingBuffer Tcp TcpEvents TcpConn
open TcpCoverage

/-- Data that stands in a stream at the place its sequence number says. -/
def Piece (acc : List UInt8) (first seq : Seq) (data : List UInt8) : Prop :=
  ∃ off ≤ acc.length, seq = first+BitVec.ofNat 32 off ∧ data <+: acc.drop off

/-- A segment that tells the truth about the stream of its sender. -/
structure Honest (acc : List UInt8) (first : Seq) (s : Segment) : Prop where
  syn : has s.flags tcpSyn = true → s.seqNum+1 = first
  data : s.data ≠ [] → Piece acc first s.seqNum s.data

section
variable (acc more : List UInt8) (first : Seq)

theorem piece_append {seq : Seq} {data : List UInt8} (h : Piece acc first seq data) :
    Piece (acc++more) first seq data := by
  obtain ⟨off,hoff,hseq,hp⟩ := h
  refine ⟨off,by rw [List.length_append]; omega,hseq,?_⟩
  rw [List.drop_append_of_le_length hoff]
  exact hp.trans (List.prefix_append _ _)

theorem honest_append {s : Segment} (h : Honest acc first s) : Honest (acc++more) first s :=
  ⟨h.syn,fun hd => piece_append acc more first (h.data hd)⟩

theorem honest_of {s : Segment} (hs : has s.flags tcpSyn = false)
    (hd : s.data ≠ [] → Piece acc first s.seqNum s.data) : Honest acc first s :=
  ⟨fun hc => absurd (hs.symm.trans hc) (by decide),hd⟩

theorem honest_bare {c : Conn} {s : Segment} (h : Bare c s) : Honest acc first s := by
  obtain ⟨hf,hd,-⟩ := h
  exact honest_of acc first (by rw [hf]; decide) (fun hne => absurd hd hne)

theorem seq_inj {a b : ℕ} (ha : a < 2^32) (hb : b < 2^32)
    (h : first+BitVec.ofNat 32 a = first+BitVec.ofNat 32 b) : a = b := by
  have h' := congrArg BitVec.toNat ((BitVec.add_right_inj first).mp h)
  rwa [BitVec.toNat_ofNat, BitVec.toNat_ofNat, Nat.mod_eq_of_lt ha, Nat.mod_eq_of_lt hb] at h'

theorem piece_next {stored data : List UInt8} (n : ℕ) (hlen : acc.length < 2^32)
    (hs : stored <+: acc)
    (hp : Piece acc first (first+BitVec.ofNat 32 stored.length) data) :
    stored++data.take n <+: acc := by
  obtain ⟨off,hoff,hseq,hpre⟩ := hp
  have hle := hs.length_le
  have heq := seq_inj first (by omega) (by omega) hseq
  subst heq
  calc stored++data.take n <+: stored++acc.drop stored.length :=
        (List.prefix_append_right_inj stored).mpr ((List.take_prefix n data).trans hpre)
    _ = acc := by
        conv_rhs => rw [← List.take_append_drop stored.length acc]
        rw [← List.prefix_iff_eq_take.mp hs]

end

structure Sender (c : Conn) (acc : List UInt8) (first : Seq) : Prop where
  nxt : Sending c.state → c.sndNxt = first+BitVec.ofNat 32 acc.length
  size : c.retransmitLen ≤ 1460
  slot : 0 < c.retransmitLen →
    Piece acc first c.retransmitSeq (bytes c.retransmitData c.retransmitLen)

section
variable (c c' : Conn) (acc : List UInt8) (first : Seq)

theorem sender_same (h : Sender c acc first) (hs : SameSlot c c')
    (hst : Sending c'.state → Sending c.state) : Sender c' acc first := by
  refine ⟨fun hc => hs.nxt.trans (h.nxt (hst hc)),by rw [hs.len]; exact h.size,?_⟩
  rw [hs.len, hs.seq, hs.data]
  exact h.slot

theorem sender_queued (hq : Queued c c') (h : Sender c acc first) : Sender c' acc first := by
  obtain ⟨_,_,_,_,_,rfl⟩ := hq
  exact ⟨h.nxt,h.size,h.slot⟩

theorem sender_receive (s : Segment) (h : Sender c acc first) :
    Sender (receiveConn c s).conn acc first := by
  by_cases hf : c.state = .lastAck ∧ has s.flags tcpAck = true
  · rw [receive_freed c s hf.1 hf.2]
    exact ⟨fun hs => absurd hs (by unfold Sending; simp),h.size,h.slot⟩
  · have hs := (handles_receive c s hf).sender
    exact sender_same c _ acc first h ⟨hs.nxt,hs.data,hs.len,hs.seq⟩ (receive_sending c)

theorem sender_recv (len cur : ℕ) (fatal : Bool) (h : Sender c acc first) :
    Sender (tcpRecv c len cur fatal).1 acc first := by
  obtain ⟨_,_,_,heq⟩ := recv_frame c len cur fatal
  rw [heq]
  exact ⟨h.nxt,h.size,h.slot⟩

theorem sender_close (h : Sender c acc first) : Sender (tcpClose c).conn acc first := by
  rcases close_frame c with heq | ⟨st,nxt,used,heq,hst⟩
  · rwa [heq]
  · rw [heq]
    refine ⟨fun hs => ?_,h.size,h.slot⟩
    rcases hst with ⟨rfl,-⟩ | ⟨rfl,-⟩ | rfl <;> rcases hs with hs | hs | hs | hs <;> cases hs

theorem sender_tick (h : Sender c acc first) : Sender (tickConn c).conn acc first := by
  obtain ⟨st,_,_,len,_,_,_,heq,hst,hlen⟩ := tick_frame c
  rw [heq]
  have hsend : Sending st → Sending c.state := by
    rcases hst with rfl | ⟨rfl,-⟩
    · exact fun hs => absurd hs (by decide)
    · exact id
  rcases hlen with rfl | ⟨-,rfl⟩
  · exact ⟨fun hs => h.nxt (hsend hs),h.size,h.slot⟩
  · exact ⟨fun hs => h.nxt (hsend hs),Nat.zero_le _,fun hl => absurd hl (by simp)⟩

theorem tick_honest (h : Sender c acc first) : ∀ o ∈ (tickConn c).out, Honest acc first o ∧
    has o.flags tcpFin = false := by
  intro o ho
  unfold tickConn at ho
  split_ifs at ho
  · by_cases hf : c.retransmitLen = 0 ∨ c.retransmitTimer ≠ 1
    · rw [retransmit_wait c hf] at ho
      cases ho
    · push Not at hf
      have hl : 0 < c.retransmitLen := by omega
      rw [retransmit_fire c hl hf.2] at ho
      split_ifs at ho
      · rw [resend_out { c with retransmitTimer := 0 } h.size, List.mem_singleton] at ho
        rw [ho]
        exact ⟨honest_of _ _ data_flags_syn (fun _ => h.slot hl),data_flags_fin⟩
      · rw [give_up_out, List.mem_singleton] at ho
        rw [ho]
        exact ⟨honest_of _ _ rst_syn (fun hne => absurd rfl hne),rst_fin⟩
  · cases ho

theorem sender_send (data : List UInt8) (hc : CanSend c) (h : Sender c acc first) :
    Sender (tcpSend c data).1.conn (acc++data) first ∧
      (∀ o ∈ (tcpSend c data).1.out, Honest (acc++data) first o ∧ has o.flags tcpFin = false) ∧
      (tcpSend c data).1.conn.state = c.state := by
  refine send_rule c data (fun done a => Sender a.conn (acc++done) first ∧
    (∀ o ∈ a.out, Honest (acc++done) first o ∧ has o.flags tcpFin = false) ∧
    a.conn.state = c.state) hc ?_ ?_
  · rw [List.append_nil]
    exact ⟨h,fun o ho => (by cases ho),rfl⟩
  · rintro done chunk a hpos hlen ⟨hs,hout,hst⟩
    have hnxt := hs.nxt (hst ▸ Or.inr (Or.inr hc))
    have hpiece : Piece (acc++(done++chunk)) first a.conn.sndNxt chunk := by
      refine ⟨(acc++done).length,by simp,hnxt,?_⟩
      rw [← List.append_assoc, List.drop_left]
    rw [send_chunk a hlen]
    refine ⟨⟨?_,hlen,?_⟩,?_,hst⟩
    · intro _
      rw [hnxt, ← List.append_assoc, @List.length_append _ (acc++done) chunk, BitVec.ofNat_add,
        BitVec.add_assoc]
    · intro _
      have hbytes : bytes (keepChunk a.conn chunk).retransmitData chunk.length = chunk := by
        unfold bytes keepChunk copy
        apply List.ext_getElem
        · simp
        · intro i hi _
          simp only [List.length_map, List.length_range] at hi
          simp [hi]
      change Piece _ _ a.conn.sndNxt (bytes (keepChunk a.conn chunk).retransmitData chunk.length)
      rw [hbytes]
      exact hpiece
    · intro o ho
      rcases List.mem_append.mp ho with ho | ho
      · obtain ⟨h1,h2⟩ := hout o ho
        rw [← List.append_assoc]
        exact ⟨honest_append _ chunk first h1,h2⟩
      · rw [List.mem_singleton.mp ho]
        exact ⟨honest_of _ _ data_flags_syn (fun _ => hpiece),data_flags_fin⟩

end

def rx (c : Conn) : List UInt8 := contents c.rxBuf tcpRxBufSize c.rxReadPos c.rxCount

structure RingOk (c : Conn) : Prop where
  read : c.rxReadPos < tcpRxBufSize
  write : c.rxWritePos = (c.rxReadPos+c.rxCount) % tcpRxBufSize
  count : c.rxCount ≤ tcpRxBufSize

theorem store_ring {c : Conn} (data : List UInt8) (h : RingOk c) :
    RingOk (storeData c data) ∧
      rx (storeData c data) = rx c++data.take (min data.length (tcpRxBufSize-c.rxCount)) := by
  have hc := h.count
  have hlen : (data.take (min data.length (tcpRxBufSize-c.rxCount))).length =
      min data.length (tcpRxBufSize-c.rxCount) := by
    rw [List.length_take]
    omega
  obtain ⟨h1,h2⟩ := contents_put_all (data.take (min data.length (tcpRxBufSize-c.rxCount)))
    c.rxBuf tcpRxBufSize c.rxReadPos c.rxCount (by omega)
  rw [← h.write, hlen] at h1 h2
  exact ⟨⟨h.read,h2,by change c.rxCount+_ ≤ _; omega⟩,h1⟩

theorem take_ring {c : Conn} (len : ℕ) (h : RingOk c) :
    RingOk (takeBytes c len).1 ∧ rx c = (takeBytes c len).2++rx (takeBytes c len).1 := by
  have hc := h.count
  have hout := take_out c.rxBuf tcpRxBufSize (min len c.rxCount) c.rxReadPos h.read
  unfold takeBytes
  dsimp only
  rw [hout]
  refine ⟨⟨Nat.mod_lt _ (by decide),?_,?_⟩,?_⟩
  · dsimp only
    rw [h.write, Nat.mod_add_mod]
    congr 1
    omega
  · dsimp only
    omega
  · unfold rx
    dsimp only
    rw [← contents_drop]
    congr 1
    omega

/-- The states in which data or a FIN of the other end is still awaited. -/
def Awaiting (s : TcpState) : Prop :=
  s = .synReceived ∨ s = .established ∨ s = .finWait1 ∨ s = .finWait2

instance (s : TcpState) : Decidable (Awaiting s) := inferInstanceAs (Decidable (_ ∨ _))

structure Receiver (c : Conn) (ret acc : List UInt8) (first : Seq) : Prop where
  ring : RingOk c
  stored : ret++rx c <+: acc
  nxt : Awaiting c.state → c.rcvNxt = first+BitVec.ofNat 32 (ret++rx c).length
  early : c.state = .synSent → ret++rx c = []

structure SameRx (c c' : Conn) : Prop where
  buf : c'.rxBuf = c.rxBuf
  read : c'.rxReadPos = c.rxReadPos
  write : c'.rxWritePos = c.rxWritePos
  count : c'.rxCount = c.rxCount
  nxt : c'.rcvNxt = c.rcvNxt

section
variable (c c' : Conn) (ret acc more : List UInt8) (first : Seq)

theorem same_rx (h : SameRx c c') : rx c' = rx c := by
  unfold rx
  rw [h.buf, h.read, h.count]

theorem ring_same (h : RingOk c) (hs : SameRx c c') : RingOk c' :=
  ⟨by rw [hs.read]; exact h.read,by rw [hs.write, hs.read, hs.count]; exact h.write,
    by rw [hs.count]; exact h.count⟩

theorem receiver_same (h : Receiver c ret acc first) (hs : SameRx c c')
    (ha : Awaiting c'.state → Awaiting c.state) (he : c'.state = .synSent → c.state = .synSent) :
    Receiver c' ret acc first := by
  refine ⟨ring_same c c' h.ring hs,?_,?_,?_⟩
  all_goals rw [same_rx c c' hs]
  · exact h.stored
  · exact fun hc => hs.nxt.trans (h.nxt (ha hc))
  · exact fun hc => h.early (he hc)

theorem receiver_ended (h : Receiver c ret acc first) (hr : RingOk c') (hx : rx c' = rx c)
    (ha : ¬Awaiting c'.state) (he : c'.state ≠ .synSent) : Receiver c' ret acc first :=
  ⟨hr,by rw [hx]; exact h.stored,fun hc => absurd hc ha,fun hc => absurd hc he⟩

theorem receiver_queued (hq : Queued c c') (h : Receiver c ret acc first) :
    Receiver c' ret acc first := by
  obtain ⟨_,_,_,_,_,rfl⟩ := hq
  exact receiver_same c _ ret acc first h ⟨rfl,rfl,rfl,rfl,rfl⟩ id id

theorem receiver_append (h : Receiver c ret acc first) : Receiver c ret (acc++more) first :=
  ⟨h.ring,h.stored.trans (List.prefix_append acc more),h.nxt,h.early⟩

theorem receiver_store {data : List UInt8} (hlen : acc.length < 2^32)
    (h : Receiver c ret acc first) (hst : Awaiting c.state) (hne : c.state ≠ .synSent)
    (hp : Piece acc first c.rcvNxt data) : Receiver (storeData c data) ret acc first := by
  obtain ⟨hring,hrx⟩ := store_ring data h.ring
  have hnxt := h.nxt hst
  refine ⟨hring,?_,?_,fun hc => absurd hc hne⟩
  · rw [hrx, ← List.append_assoc]
    rw [hnxt] at hp
    exact piece_next acc first _ hlen h.stored hp
  · intro _
    rw [hrx, ← List.append_assoc, @List.length_append _ (ret++rx c), BitVec.ofNat_add,
      ← BitVec.add_assoc, ← hnxt]
    change c.rcvNxt+_ = _
    congr 2
    rw [List.length_take]
    omega

theorem receiver_data {s : Segment} (hlen : acc.length < 2^32) (hst : c.state = .established)
    (h : Receiver c ret acc first) (hs : Honest acc first s) :
    Receiver (takeData { conn := takeAck c s } s).conn ret acc first ∧
      (takeData { conn := takeAck c s } s).conn.state = .established ∧
      ∃ more, rx (takeData { conn := takeAck c s } s).conn = rx c++more := by
  have hack : SameRx c (takeAck c s) := by
    unfold takeAck
    split_ifs <;> exact ⟨rfl,rfl,rfl,rfl,rfl⟩
  have hst' := (take_ack_state c s).trans hst
  have h1 : Receiver (takeAck c s) ret acc first :=
    receiver_same c _ ret acc first h hack (fun _ => Or.inr (Or.inl hst))
      (fun hc => by rw [hst'] at hc; cases hc)
  rw [take_data_conn]
  split_ifs with hd
  · have hstore := receiver_store (takeAck c s) ret acc first hlen h1
      (Or.inr (Or.inl hst')) (by rw [hst']; simp)
      (hd.2 ▸ hs.data (List.ne_nil_of_length_pos hd.1))
    have hrx := (store_ring s.data h1.ring).2
    rw [same_rx c _ hack] at hrx
    exact ⟨⟨⟨hstore.ring.read,hstore.ring.write,hstore.ring.count⟩,hstore.stored,hstore.nxt,
      hstore.early⟩,hst',_,hrx⟩
  · exact ⟨h1,hst',[],by rw [same_rx c _ hack, List.append_nil]⟩

theorem receiver_established {s : Segment} (hlen : acc.length < 2^32)
    (hst : c.state = .established) (h : Receiver c ret acc first) (hs : Honest acc first s) :
    Receiver (receiveConn c s).conn ret acc first := by
  obtain ⟨h2,-,-⟩ := receiver_data c ret acc first hlen hst h hs
  rw [receive_established c s hst, take_rst_conn, take_fin_conn]
  generalize (takeData { conn := takeAck c s } s).conn = c2 at h2 ⊢
  have h3 : Receiver (if has s.flags tcpFin = true then
      { finSeen c2 s with blockedReader := none } else c2) ret acc first := by
    split_ifs
    · exact receiver_ended c2 _ ret acc first h2 ⟨h2.ring.read,h2.ring.write,h2.ring.count⟩ rfl
        (by change ¬Awaiting .closeWait; decide) (by change TcpState.closeWait ≠ _; decide)
    · exact h2
  generalize (if has s.flags tcpFin = true then
    { finSeen c2 s with blockedReader := none } else c2) = c3 at h3 ⊢
  split_ifs
  · exact receiver_ended c3 _ ret acc first h3 ⟨h3.ring.read,h3.ring.write,h3.ring.count⟩ rfl
      (by change ¬Awaiting .closed; decide) (by change TcpState.closed ≠ _; decide)
  · exact h3

theorem receiver_fin_wait (s : Segment) (hst : c.state = .finWait1 ∨ c.state = .finWait2)
    (h : Receiver c ret acc first) : Receiver (receiveConn c s).conn ret acc first := by
  have hstate := receive_state c s
  have hrx : ∀ c1 : Conn, SameRx c c1 → RingOk (takePeerFin { conn := c1 } s).conn ∧
      rx (takePeerFin { conn := c1 } s).conn = rx c ∧
      (has s.flags tcpFin = false → (takePeerFin { conn := c1 } s).conn.rcvNxt = c.rcvNxt) := by
    intro c1 h1
    have hr := ring_same c c1 h.ring h1
    rw [peer_fin_conn]
    split_ifs with hf
    · exact ⟨⟨hr.read,hr.write,hr.count⟩,same_rx c c1 h1,fun hc => by rw [hf] at hc; cases hc⟩
    · exact ⟨hr,same_rx c c1 h1,fun _ => h1.nxt⟩
  have hsame : SameRx c (if c.state = .finWait1 then finAcked c s else c) := by
    unfold finAcked
    split_ifs <;> exact ⟨rfl,rfl,rfl,rfl,rfl⟩
  obtain ⟨hr,hx,hn⟩ := hrx _ hsame
  rw [receive_fin_wait c s hst] at hstate ⊢
  refine ⟨hr,by rw [hx]; exact h.stored,?_,?_⟩
  · intro ha
    have hf : has s.flags tcpFin = false := by
      by_contra hc
      rw [hstate] at ha
      rcases hst with hst | hst <;> rw [hst] at ha <;> simp [nextState, hc, Awaiting] at ha
    rw [hn hf, hx]
    exact h.nxt (by rcases hst with hst | hst <;> rw [hst] <;> decide)
  · intro hc
    rw [hstate] at hc
    rcases hst with hst | hst <;> rw [hst] at hc <;> unfold nextState at hc <;>
      dsimp only at hc <;> split_ifs at hc

theorem receiver_receive {s : Segment} (hlen : acc.length < 2^32) (h : Receiver c ret acc first)
    (hs : Honest acc first s) : Receiver (receiveConn c s).conn ret acc first := by
  cases hst : c.state with
  | established => exact receiver_established c ret acc first hlen hst h hs
  | finWait1 => exact receiver_fin_wait c ret acc first s (Or.inl hst) h
  | finWait2 => exact receiver_fin_wait c ret acc first s (Or.inr hst) h
  | synReceived =>
    rw [receive_syn_received c s hst]
    split_ifs
    · exact receiver_same c _ ret acc first h ⟨rfl,rfl,rfl,rfl,rfl⟩ (fun _ => Or.inl hst)
        (fun hc => by cases hc)
    · exact h
  | synSent =>
    rw [receive_syn_sent c s hst]
    split_ifs with hf
    · have hempty := h.early hst
      refine ⟨⟨h.ring.read,h.ring.write,h.ring.count⟩,h.stored,?_,fun hc => by cases hc⟩
      intro _
      change s.seqNum+1 = first+BitVec.ofNat 32 (ret++rx c).length
      rw [hempty, hs.syn (syn_ack_syn _ hf)]
      exact (BitVec.add_zero first).symm
    · exact h
  | lastAck =>
    by_cases ha : has s.flags tcpAck = true
    · rw [receive_freed c s hst ha]
      exact receiver_ended c _ ret acc first h ⟨h.ring.read,h.ring.write,h.ring.count⟩ rfl
        (by change ¬Awaiting .closed; decide) (by change TcpState.closed ≠ _; decide)
    · unfold receiveConn
      rw [hst]
      dsimp only
      rw [if_neg ha]
      exact h
  | closed => rwa [receive_other c s (Or.inl hst)]
  | listen => rwa [receive_other c s (Or.inr (Or.inl hst))]
  | closeWait => rwa [receive_other c s (Or.inr (Or.inr (Or.inl hst)))]
  | timeWait => rwa [receive_other c s (Or.inr (Or.inr (Or.inr hst)))]

theorem receiver_tick (h : Receiver c ret acc first) :
    Receiver (tickConn c).conn ret acc first := by
  obtain ⟨st,_,_,_,_,_,_,heq,hst,-⟩ := tick_frame c
  rw [heq]
  rcases hst with rfl | ⟨rfl,-⟩
  · exact receiver_ended c _ ret acc first h ⟨h.ring.read,h.ring.write,h.ring.count⟩ rfl
      (by change ¬Awaiting .closed; decide) (by change TcpState.closed ≠ _; decide)
  · exact receiver_same c _ ret acc first h ⟨rfl,rfl,rfl,rfl,rfl⟩ id id

theorem receiver_close (h : Receiver c ret acc first) :
    Receiver (tcpClose c).conn ret acc first := by
  rcases close_frame c with heq | ⟨st,nxt,used,heq,hst⟩
  · rwa [heq]
  rw [heq]
  rcases hst with ⟨rfl,hest,-⟩ | hst
  · exact receiver_same c _ ret acc first h ⟨rfl,rfl,rfl,rfl,rfl⟩ (fun _ => Or.inr (Or.inl hest))
      (fun hc => by cases hc)
  · refine receiver_ended c _ ret acc first h ⟨h.ring.read,h.ring.write,h.ring.count⟩ rfl ?_ ?_
    · change ¬Awaiting st
      rcases hst with ⟨rfl,-⟩ | rfl <;> decide
    · change st ≠ .synSent
      rcases hst with ⟨rfl,-⟩ | rfl <;> decide

theorem receiver_send (data : List UInt8) (h : Receiver c ret acc first) :
    Receiver (tcpSend c data).1.conn ret acc first := by
  by_cases hc : CanSend c
  · refine send_rule c data (fun _ a => Receiver a.conn ret acc first) hc h ?_
    intro _ chunk a _ hlen ha
    rw [send_chunk a hlen]
    exact receiver_same a.conn _ ret acc first ha ⟨rfl,rfl,rfl,rfl,rfl⟩ id id
  · rw [send_refused c data hc]
    exact h

theorem receiver_recv (len cur : ℕ) (fatal : Bool) (h : Receiver c ret acc first) :
    Receiver (tcpRecv c len cur fatal).1 (ret++gotten (tcpRecv c len cur fatal).2) acc first := by
  unfold tcpRecv
  split_ifs
  · dsimp only [gotten]
    rw [List.append_nil]
    exact h
  · dsimp only [gotten]
    rw [List.append_nil]
    exact receiver_same c _ ret acc first h ⟨rfl,rfl,rfl,rfl,rfl⟩ id id
  · dsimp only [gotten]
    rw [List.append_nil]
    exact h
  · obtain ⟨hring,hrx⟩ := take_ring len h.ring
    dsimp only [gotten]
    have heq : ret++(takeBytes c len).2++rx (takeBytes c len).1 = ret++rx c := by
      rw [hrx, List.append_assoc]
    refine ⟨hring,?_,?_,?_⟩
    all_goals rw [heq]
    · exact h.stored
    · exact h.nxt
    · exact h.early

end

end HobbyOS.TcpHalves
