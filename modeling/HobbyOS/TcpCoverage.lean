import HobbyOS.TcpConn
import Mathlib.Data.List.GetD

/-!
# What the retransmit slot covers

The slot holds one chunk. It covers everything unacknowledged as long as a
new chunk is sent only when nothing is outstanding and acknowledgements stay
between what was acknowledged and what was sent.
-/

namespace HobbyOS.TcpCoverage
open ByteStore Tcp TcpEvents TcpConn

/-- Every byte sent and not acknowledged lies in the slot, at the distance of
its sequence number from the slot's. -/
def Held (c : Conn) (t : Trace) : Prop :=
  ∀ n < t.accepted.length, t.accepted.length-n ≤ (c.sndNxt-c.sndUna).toNat →
    0 < c.retransmitLen ∧ (t.first+BitVec.ofNat 32 n-c.retransmitSeq).toNat < c.retransmitLen ∧
      c.retransmitData (t.first+BitVec.ofNat 32 n-c.retransmitSeq).toNat = t.accepted.getD n 0

/-- At most one chunk at a time, and acknowledgements in range. -/
def Careful (h : Host) : Op → Prop
  | .send i data => data = [] ∨ data.length ≤ 1460 ∧ (h.conns i).sndUna = (h.conns i).sndNxt
  | .receive _ p => ∀ i, findConnection h p.srcIp p.seg.srcPort p.seg.dstPort = some i →
      has p.seg.flags tcpAck = true →
      (p.seg.ackNum-(h.conns i).sndUna).toNat ≤ ((h.conns i).sndNxt-(h.conns i).sndUna).toNat
  | _ => True

def Sending (s : TcpState) : Prop :=
  s = .synSent ∨ s = .synReceived ∨ s = .established ∨ s = .closeWait

instance (s : TcpState) : Decidable (Sending s) := inferInstanceAs (Decidable (_ ∨ _))

/-- The slot ends where the stream ends, and reaches back far enough. -/
structure Covers (c : Conn) (acc : List UInt8) (first : Seq) : Prop where
  window : (c.sndNxt-c.sndUna).toNat ≤ c.retransmitLen
  size : c.retransmitLen ≤ 1460
  len : c.retransmitLen ≤ acc.length
  seq : c.retransmitSeq = first+BitVec.ofNat 32 (acc.length-c.retransmitLen)
  data : ∀ i < c.retransmitLen, c.retransmitData i = acc.getD (acc.length-c.retransmitLen+i) 0

def Covered (c : Conn) (acc : List UInt8) (first : Seq) : Prop :=
  Sending c.state → c.sndNxt = first+BitVec.ofNat 32 acc.length ∧
    (acc = [] ∨ c.sndNxt = c.sndUna ∨ Covers c acc first)

theorem seq_distance (f : Seq) {a b : ℕ} (h : b ≤ a) :
    f+BitVec.ofNat 32 a-(f+BitVec.ofNat 32 b) = BitVec.ofNat 32 (a-b) := by
  apply BitVec.eq_of_toNat_eq
  simp only [BitVec.toNat_sub, BitVec.toNat_add, BitVec.toNat_ofNat]
  omega

theorem covers_held {c : Conn} {t : Trace} (h : Covers c t.accepted t.first) : Held c t := by
  intro n hn hout
  have hw := h.window
  have hs := h.size
  rw [h.seq, seq_distance t.first (by omega), BitVec.toNat_ofNat]
  refine ⟨by omega,by omega,?_⟩
  rw [h.data _ (by omega)]
  congr 1
  omega

theorem covered_held {c : Conn} {t : Trace} (h : Covered c t.accepted t.first)
    (hs : Sending c.state) : Held c t := by
  rcases (h hs).2 with hempty | hall | hcov
  · intro n hn
    rw [hempty] at hn
    cases hn
  · intro n hn hout
    rw [hall, BitVec.sub_self] at hout
    change _ ≤ 0 at hout
    omega
  · exact covers_held hcov

section
variable (c c' : Conn) (acc : List UInt8) (first : Seq)

structure SameSlot : Prop where
  nxt : c'.sndNxt = c.sndNxt
  data : c'.retransmitData = c.retransmitData
  len : c'.retransmitLen = c.retransmitLen
  seq : c'.retransmitSeq = c.retransmitSeq

theorem covered_window (h : Covered c acc first) (hs : SameSlot c c')
    (hst : Sending c'.state → Sending c.state)
    (hu : Sending c'.state → (c'.sndNxt-c'.sndUna).toNat ≤ (c.sndNxt-c.sndUna).toNat) :
    Covered c' acc first := by
  intro hc'
  obtain ⟨hnxt,hcov⟩ := h (hst hc')
  have hw := hu hc'
  refine ⟨hs.nxt.trans hnxt,?_⟩
  rcases hcov with hempty | hall | hcov
  · exact Or.inl hempty
  · right
    left
    bv_omega
  · refine Or.inr (Or.inr ⟨?_,?_,?_,?_,?_⟩)
    · rw [hs.len]
      exact hw.trans hcov.window
    · rw [hs.len]
      exact hcov.size
    · rw [hs.len]
      exact hcov.len
    · rw [hs.seq, hs.len]
      exact hcov.seq
    · rw [hs.len, hs.data]
      exact hcov.data

theorem covered_same (h : Covered c acc first) (hs : SameSlot c c')
    (hst : Sending c'.state → Sending c.state ∧ c'.sndUna = c.sndUna) : Covered c' acc first := by
  apply covered_window c c' acc first h hs (fun hc => (hst hc).1)
  intro hc
  rw [hs.nxt, (hst hc).2]

theorem covered_other (st : TcpState) (hst : c.state = st) (h : ¬Sending st) :
    Covered c acc first :=
  fun hs => absurd (hst ▸ hs) h

theorem covered_queued (hq : Queued c c') (h : Covered c acc first) : Covered c' acc first := by
  obtain ⟨_,_,_,_,_,rfl⟩ := hq
  exact covered_same c _ acc first h ⟨rfl,rfl,rfl,rfl⟩ (fun hs => ⟨hs,rfl⟩)

theorem send_one {data : List UInt8} (hc : CanSend c) (h0 : data ≠ [])
    (hlen : data.length ≤ 1460) : tcpSend c data = (sendChunk { conn := c } data,true) := by
  have hpos := List.length_pos_of_ne_nil h0
  unfold tcpSend
  rw [if_pos hc, show (data.length+1459)/1460 = 1 by omega]
  change (sendChunk { conn := c } ((data.drop (1460*0)).take 1460),true) = _
  rw [List.drop_zero, List.take_of_length_le hlen]

theorem covered_send {data : List UInt8} (hc : CanSend c) (h : Covered c acc first)
    (hd : data = [] ∨ data.length ≤ 1460 ∧ c.sndUna = c.sndNxt) :
    Covered (tcpSend c data).1.conn (acc++data) first := by
  by_cases h0 : data = []
  · have hnone : tcpSend c [] = ({ conn := c },true) := if_pos hc
    rw [h0, hnone, List.append_nil]
    exact h
  obtain ⟨hlen,hu⟩ := hd.resolve_left h0
  have hnxt := (h (Or.inr (Or.inr hc))).1
  have hnext : c.sndNxt+BitVec.ofNat 32 data.length = first+BitVec.ofNat 32 (acc++data).length := by
    rw [hnxt, List.length_append, BitVec.ofNat_add, BitVec.add_assoc]
  rw [send_one c hc h0 hlen, send_chunk _ hlen]
  refine fun _ => ⟨hnext,Or.inr (Or.inr ⟨?_,hlen,?_,?_,?_⟩)⟩ <;> dsimp only [keepChunk]
  · rw [hu, BitVec.add_comm, BitVec.add_sub_cancel]
    exact (BitVec.toNat_ofNat _ _).le.trans (Nat.mod_le _ _)
  · rw [List.length_append]
    omega
  · rw [List.length_append, Nat.add_sub_cancel]
    exact hnxt
  · intro i hi
    rw [List.length_append, Nat.add_sub_cancel, List.getD_append_right _ _ _ _ (by omega),
      Nat.add_sub_cancel_left, copy, if_pos (by omega), Nat.zero_add, Nat.sub_zero]

theorem receive_sending {s : Segment} (h : Sending (receiveConn c s).conn.state) :
    Sending c.state := by
  rw [receive_state] at h
  unfold Sending nextState at *
  cases hst : c.state <;> rw [hst] at h <;> dsimp only at h <;> (try split_ifs at h) <;> simp_all

theorem covered_receive {s : Segment} (h : Covered c acc first)
    (hw : has s.flags tcpAck = true → (s.ackNum-c.sndUna).toNat ≤ (c.sndNxt-c.sndUna).toNat) :
    Covered (receiveConn c s).conn acc first := by
  by_cases hf : c.state = .lastAck ∧ has s.flags tcpAck = true
  · rw [receive_freed c s hf.1 hf.2]
    exact covered_other _ _ _ .closed rfl (by decide)
  have hs := (handles_receive c s hf).sender
  apply covered_window c _ acc first h ⟨hs.nxt,hs.data,hs.len,hs.seq⟩ (receive_sending c)
  intro _
  rw [hs.nxt]
  rcases receive_una c s with hu | ⟨ha,hu⟩
  · rw [hu]
  · have := hw ha
    bv_omega

theorem covered_tick (h : Covered c acc first) : Covered (tickConn c).conn acc first := by
  obtain ⟨st,_,_,len,_,_,_,heq,hst,hlen⟩ := tick_frame c
  rw [heq]
  rcases hst with rfl | ⟨rfl,-⟩
  · exact covered_other _ _ _ .closed rfl (by decide)
  · rcases hlen with rfl | ⟨hcl,rfl⟩
    · exact covered_same c _ acc first h ⟨rfl,rfl,rfl,rfl⟩ (fun hs => ⟨hs,rfl⟩)
    · exact covered_other _ _ _ .closed hcl (by decide)

theorem covered_close (h : Covered c acc first) : Covered (tcpClose c).conn acc first := by
  rcases close_frame c with heq | ⟨st,nxt,used,heq,hst⟩
  · rwa [heq]
  · rw [heq]
    apply covered_other _ _ _ st rfl
    rcases hst with ⟨rfl,-⟩ | ⟨rfl,-⟩ | rfl <;> decide

theorem covered_recv (len cur : ℕ) (fatal : Bool) (h : Covered c acc first) :
    Covered (tcpRecv c len cur fatal).1 acc first := by
  obtain ⟨_,_,_,heq⟩ := recv_frame c len cur fatal
  rw [heq]
  exact covered_same c _ acc first h ⟨rfl,rfl,rfl,rfl⟩ (fun hs => ⟨hs,rfl⟩)

end

theorem covered_step {h : Host} {op : Op} {k : ℕ} {t : Trace} (hop : Careful h op)
    (hc : Covered (h.conns k) t.accepted t.first) :
    Covered (act (h.conns k) (event h k op)).conn (record t (h.conns k) (event h k op)).accepted
      (record t (h.conns k) (event h k op)).first := by
  have hsrc := event_source h k op
  cases he : event h k op with
  | idle => exact hc
  | connect ip dstIp dstPort srcPort now cur => exact fun _ => ⟨(BitVec.add_zero _).symm,Or.inl rfl⟩
  | listen ip port => exact covered_other _ _ _ .listen rfl (by decide)
  | syn ip port parent now p => exact fun _ => ⟨(BitVec.add_zero _).symm,Or.inl rfl⟩
  | send data =>
    rw [he] at hsrc
    rw [show op = .send k data from hsrc] at hop
    by_cases hs : CanSend (h.conns k)
    · rw [record_send _ _ hs]
      exact covered_send _ _ _ hs hc hop
    · rw [record_refused _ _ hs, act, send_refused _ _ hs]
      exact hc
  | recv len cur fatal => exact covered_recv _ _ _ len cur fatal hc
  | close => exact covered_close _ _ _ hc
  | receive s =>
    have hrec : (record t (h.conns k) (.receive s)).accepted = t.accepted ∧
        (record t (h.conns k) (.receive s)).first = t.first := by
      unfold record
      dsimp only
      split_ifs <;> exact ⟨rfl,rfl⟩
    rw [hrec.1, hrec.2]
    rw [he] at hsrc
    obtain ⟨now,p,rfl,rfl,hf,-⟩ := hsrc
    exact covered_receive _ _ _ hc (hop k hf)
  | tick => exact covered_tick _ _ _ hc

/-- In every careful run the slot covers what is outstanding. -/
theorem retransmit_coverage (ip : ℕ) (h : Host) (t : ℕ → Trace) (hr : Reach Careful ip h t) (k : ℕ)
    (hs : CanSend (h.conns k)) : Held (h.conns k) (t k) := by
  have hcov := reach_rule Careful (fun c t => Covered c t.accepted t.first)
    (covered_other _ _ _ _ rfl (by decide)) (fun c c' t => covered_queued c c' t.accepted t.first)
    (fun h op k t hop => covered_step hop) t hr k
  exact covered_held hcov (Or.inr (Or.inr hs))

def oneSent : List Op := serverOps++[.send 1 [97]]

theorem one_sent_careful : AllOk Careful oneSent (boot 1) := by
  have hrange : ∀ h p, findConnection h p.srcIp p.seg.srcPort p.seg.dstPort = some 1 →
      (p.seg.ackNum-(h.conns 1).sndUna).toNat ≤ ((h.conns 1).sndNxt-(h.conns 1).sndUna).toNat →
      ∀ now, Careful h (.receive now p) := by
    intro h p hf hle now i hi _
    rw [hf] at hi
    cases hi
    exact hle
  refine ⟨trivial,?_,hrange _ _ (by decide) (by decide) 0,?_,trivial⟩
  · intro i _ hack
    cases hack
  · exact Or.inr ⟨by decide,by decide⟩

theorem retransmit_coverage_one :
    Held ((run oneSent (boot 1)).conns 1) (history oneSent (boot 1) (fun _ => {}) 1) :=
  retransmit_coverage 1 _ _ (reach_run Careful 1 oneSent _ _ .start one_sent_careful) 1 (by decide)

def twoSent : List Op := oneSent++[.send 1 [98]]

/-- The second byte takes the place of the first, which is still unacknowledged. -/
theorem two_sent_uncovered :
    Reach (fun _ _ => True) 1 (run twoSent (boot 1)) (history twoSent (boot 1) fun _ => {}) ∧
      CanSend ((run twoSent (boot 1)).conns 1) ∧
      ¬Held ((run twoSent (boot 1)).conns 1) (history twoSent (boot 1) (fun _ => {}) 1) := by
  refine ⟨reach_run _ 1 twoSent _ _ .start (all_free _ _),by decide,fun h => ?_⟩
  have := h 0 (by decide) (by decide)
  exact absurd this.2.1 (by decide)

end HobbyOS.TcpCoverage
