import HobbyOS.TcpStream

/-!
# The end of the stream

A FIN moves the expected number behind itself, wherever it stands. When every
FIN that is taken stands at the expected number, the reader that meets the end
of the stream has got all of it. A FIN that overtakes data cuts the data off.
-/

namespace HobbyOS.TcpFin
open Tcp TcpEvents TcpConn TcpHalves
open TcpLink TcpStream

/-- The states in which a FIN of the other end is taken. -/
def TakesFin (s : TcpState) : Prop := s = .established ∨ s = .finWait1 ∨ s = .finWait2

instance (s : TcpState) : Decidable (TakesFin s) := inferInstanceAs (Decidable (_ ∨ _))

theorem takes_awaiting {s : TcpState} (h : TakesFin s) : Awaiting s := Or.inr h

/-- Where the incoming stream stands. `spoke` and `closed` say that the other
end has sent something, and that it has sent its FIN. -/
structure Tail (c : Conn) (t u : Trace) (spoke closed : Prop) : Prop where
  quiet : c.state = .synSent → c.retransmitLen = 0
  met : c.state ≠ .synSent → spoke
  place : c.state ≠ .synSent →
    c.rcvNxt = u.first+BitVec.ofNat 32 (t.returned++rx c).length ∨
      c.rcvNxt = u.first+BitVec.ofNat 32 (t.returned++rx c).length+1 ∧
        t.returned++rx c = u.accepted ∧ closed
  fin : t.finTaken = true → t.returned++rx c = u.accepted ∧ closed

section
variable (c c' : Conn) (t t' u : Trace) (spoke closed : Prop)

theorem tail_same (h : Tail c t u spoke closed) (hn : c'.rcvNxt = c.rcvNxt)
    (hx : t'.returned++rx c' = t.returned++rx c) (hf : t'.finTaken = t.finTaken)
    (hq : c'.state = .synSent → c'.retransmitLen = 0)
    (hs : c'.state ≠ .synSent → c.state ≠ .synSent) : Tail c' t' u spoke closed := by
  refine ⟨hq,fun hc => h.met (hs hc),?_,?_⟩
  · rw [hn, hx]
    exact fun hc => h.place (hs hc)
  · rw [hf, hx]
    exact h.fin

theorem tail_queued (hq : Queued c c') (h : Tail c t u spoke closed) :
    Tail c' t u spoke closed := by
  obtain ⟨_,_,_,_,_,rfl⟩ := hq
  exact ⟨h.quiet,h.met,h.place,h.fin⟩

theorem tail_grows {more : List UInt8} {u' : Trace} {spoke' closed' : Prop}
    (h : Tail c t u spoke closed) (ha : u'.accepted = u.accepted++more) (hf : u'.first = u.first)
    (hm : closed → more = []) (hs : spoke → spoke') (hc : closed → closed') :
    Tail c t u' spoke' closed' := by
  have hall : closed → u'.accepted = u.accepted := fun hd => by rw [ha, hm hd, List.append_nil]
  refine ⟨h.quiet,fun hne => hs (h.met hne),fun hne => ?_,fun hfin => ?_⟩
  · rw [hf]
    rcases h.place hne with hp | ⟨hp,hst,hd⟩
    · exact Or.inl hp
    · exact Or.inr ⟨hp,hst.trans (hall hd).symm,hc hd⟩
  · obtain ⟨hst,hd⟩ := h.fin hfin
    exact ⟨hst.trans (hall hd).symm,hc hd⟩

theorem send_rx (data : List UInt8) : SameRx c (tcpSend c data).1.conn := by
  by_cases hc : CanSend c
  · refine send_rule c data (fun _ a => SameRx c a.conn) hc ⟨rfl,rfl,rfl,rfl,rfl⟩ ?_
    intro _ chunk a _ hlen ha
    rw [send_chunk a hlen]
    exact ⟨ha.buf,ha.read,ha.write,ha.count,ha.nxt⟩
  · rw [send_refused c data hc]
    exact ⟨rfl,rfl,rfl,rfl,rfl⟩

theorem recv_stored (ret : List UInt8) (len cur : ℕ) (fatal : Bool) (h : RingOk c) :
    ret++gotten (tcpRecv c len cur fatal).2++rx (tcpRecv c len cur fatal).1 = ret++rx c := by
  unfold tcpRecv
  split_ifs
  · simp [gotten]
  · simp [gotten, rx]
  · simp [gotten]
  · dsimp only [gotten]
    rw [(take_ring len h).2, List.append_assoc]

theorem recv_empty {len cur : ℕ} {fatal : Bool} (h : RingOk c) (hlen : 0 < len)
    (hr : (tcpRecv c len cur fatal).2 = .got []) : rx c = [] := by
  have hcount : c.rxCount = 0 := by
    by_contra hne
    unfold tcpRecv at hr
    split_ifs at hr
    have hout := (take_ring len h).2
    have hl := congrArg List.length hout
    rw [Received.got.inj hr, List.nil_append] at hl
    unfold rx takeBytes at hl
    simp only [RingBuffer.contents_length] at hl
    omega
  unfold rx
  rw [hcount]
  rfl

theorem fin_complete {s : Segment} (h : Receiver c t.returned u.accepted u.first)
    (hlen : u.accepted.length < 2^32) (ha : Awaiting c.state)
    (hseq : s.seqNum = u.first+BitVec.ofNat 32 u.accepted.length) (hord : s.seqNum = c.rcvNxt) :
    t.returned++rx c = u.accepted := by
  have hle := h.stored.length_le
  have hn := h.nxt ha
  rw [← hord, hseq] at hn
  exact h.stored.eq_of_length (seq_inj u.first (by omega) hlen hn.symm)

theorem record_plain {s : Segment} (h : c.state ≠ .established ∨ has s.flags tcpFin = false) :
    record t c (.receive s) = t := by
  unfold record
  dsimp only
  rw [if_neg]
  rintro ⟨h1,h2⟩
  rcases h with h | h
  · exact h h1
  · rw [h2] at h
    cases h

section
variable (s : Segment) (h : Tail c t u spoke closed) (hh : Halves c t u)
  (hlen : u.accepted.length < 2^32) (hs : Honest u.accepted u.first s) (hspoke : spoke)
  (hfin : has s.flags tcpFin = true → s.data = [] ∧
    s.seqNum = u.first+BitVec.ofNat 32 u.accepted.length ∧ closed)
  (hord : has s.flags tcpFin = true → TakesFin c.state → s.seqNum = c.rcvNxt)
include h hh hlen hspoke hfin hord

include hs in
theorem tail_established (hst : c.state = .established) :
    Tail (receiveConn c s).conn (record t c (.receive s)) u spoke closed := by
  obtain ⟨h2,hst2,more,hmore⟩ := receiver_data c _ _ _ hlen hst hh.recv hs
  have hstate : (receiveConn c s).conn.state ≠ .synSent := by
    intro hc
    have := act_state c (.receive s) id hc (Or.inr (Or.inl rfl))
    rw [hst] at this
    cases this
  by_cases hf : has s.flags tcpFin = true
  · obtain ⟨hdata,hseq,hclosed⟩ := hfin hf
    have hdone := fin_complete c t u hh.recv hlen (Or.inr (Or.inl hst)) hseq
      (hord hf (Or.inl hst))
    -- the FIN carries no data, so the ring is as it was
    have hrx : rx (takeData { conn := takeAck c s } s).conn = rx c := by
      have hp := h2.stored
      rw [hmore, ← List.append_assoc, hdone] at hp
      have hnil : more = [] := by
        have := hp.length_le
        rw [List.length_append] at this
        exact List.length_eq_zero_iff.mp (by omega)
      rw [hmore, hnil, List.append_nil]
    have hconn : rx (receiveConn c s).conn = rx c ∧ (receiveConn c s).conn.rcvNxt = s.seqNum+1 := by
      rw [receive_established c s hst, take_rst_conn, take_fin_conn, if_pos hf]
      have hn : s.seqNum+BitVec.ofNat 32 s.data.length+1 = s.seqNum+1 := by
        rw [hdata]
        exact congrArg (·+1) (BitVec.add_zero _)
      split_ifs
      · exact ⟨hrx,hn⟩
      · exact ⟨hrx,hn⟩
    have hrec : (record t c (.receive s)).returned = t.returned := by
      obtain ⟨b,hb⟩ := receive_record t c s
      rw [hb]
    refine ⟨fun hc => absurd hc hstate,fun _ => hspoke,fun _ => Or.inr ?_,fun _ => ?_⟩
    · rw [hrec, hconn.1, hconn.2, hdone, hseq]
      exact ⟨rfl,rfl,hclosed⟩
    · rw [hrec, hconn.1]
      exact ⟨hdone,hclosed⟩
  · have hf' : has s.flags tcpFin = false := by simpa using hf
    rw [record_plain c t (Or.inr hf')]
    have hconn : rx (receiveConn c s).conn = rx (takeData { conn := takeAck c s } s).conn ∧
        (receiveConn c s).conn.rcvNxt = (takeData { conn := takeAck c s } s).conn.rcvNxt := by
      rw [receive_established c s hst, take_rst_conn, take_fin_conn, if_neg hf]
      split_ifs <;> exact ⟨rfl,rfl⟩
    refine ⟨fun hc => absurd hc hstate,fun _ => hspoke,fun _ => Or.inl ?_,fun hfin => ?_⟩
    · rw [hconn.1, hconn.2]
      exact h2.nxt (Or.inr (Or.inl hst2))
    · obtain ⟨hall,hclosed⟩ := h.fin hfin
      have hp := h2.stored
      rw [hconn.1]
      refine ⟨hp.eq_of_length_le ?_,hclosed⟩
      rw [hmore, ← List.append_assoc, hall, List.length_append]
      omega

theorem tail_fin_wait (hst : c.state = .finWait1 ∨ c.state = .finWait2) :
    Tail (receiveConn c s).conn (record t c (.receive s)) u spoke closed := by
  have hest : c.state ≠ .established := by rcases hst with hst | hst <;> rw [hst] <;> decide
  have hold : c.state ≠ .synSent := by rcases hst with hst | hst <;> rw [hst] <;> decide
  have hstate : (receiveConn c s).conn.state ≠ .synSent := fun hc =>
    hold (act_state c (.receive s) id hc (Or.inr (Or.inl rfl)))
  have hsame : SameRx c (if c.state = .finWait1 then finAcked c s else c) := by
    unfold finAcked
    split_ifs <;> exact ⟨rfl,rfl,rfl,rfl,rfl⟩
  have hconn : rx (receiveConn c s).conn = rx c ∧ (receiveConn c s).conn.rcvNxt =
      if has s.flags tcpFin = true then s.seqNum+1 else c.rcvNxt := by
    rw [receive_fin_wait c s hst, peer_fin_conn]
    generalize (if c.state = .finWait1 then finAcked c s else c) = c1 at hsame ⊢
    split_ifs
    · exact ⟨same_rx c c1 hsame,rfl⟩
    · exact ⟨same_rx c c1 hsame,hsame.nxt⟩
  rw [record_plain c t (Or.inl hest)]
  by_cases hf : has s.flags tcpFin = true
  · obtain ⟨-,hseq,hclosed⟩ := hfin hf
    have hdone := fin_complete c t u hh.recv hlen (takes_awaiting (Or.inr hst)) hseq
      (hord hf (Or.inr hst))
    refine ⟨fun hc => absurd hc hstate,fun _ => hspoke,fun _ => Or.inr ?_,fun _ => ?_⟩
    · rw [hconn.1, hconn.2, if_pos hf, hdone, hseq]
      exact ⟨rfl,rfl,hclosed⟩
    · rw [hconn.1]
      exact ⟨hdone,hclosed⟩
  · refine tail_same c _ t t u spoke closed h ?_ (by rw [hconn.1]) rfl
      (fun hc => absurd hc hstate) (fun _ => hold)
    rw [hconn.2, if_neg hf]

include hs in
theorem tail_receive (hu : (receiveConn c s).conn.inUse = true) :
    Tail (receiveConn c s).conn (record t c (.receive s)) u spoke closed := by
  by_cases hest : c.state = .established
  · exact tail_established c t u spoke closed s h hh hlen hs hspoke hfin hord hest
  by_cases hwait : c.state = .finWait1 ∨ c.state = .finWait2
  · exact tail_fin_wait c t u spoke closed s h hh hlen hspoke hfin hord hwait
  rw [record_plain c t (Or.inl hest)]
  cases hst : c.state with
  | established => exact absurd hst hest
  | finWait1 => exact absurd (Or.inl hst) hwait
  | finWait2 => exact absurd (Or.inr hst) hwait
  | synReceived =>
    rw [receive_syn_received c s hst]
    split_ifs
    · exact tail_same c _ t t u spoke closed h rfl rfl rfl (fun hc => by cases hc)
        (fun _ => by rw [hst]; decide)
    · exact h
  | synSent =>
    have hnew := receiver_receive c _ _ _ hlen hh.recv hs
    rw [receive_syn_sent c s hst] at hnew ⊢
    split_ifs at hnew ⊢
    · exact ⟨fun hc => (by cases hc),fun _ => hspoke,fun _ => Or.inl (hnew.nxt (Or.inr (Or.inl rfl))),
        h.fin⟩
    · exact h
  | lastAck =>
    by_cases ha : has s.flags tcpAck = true
    · rw [receive_freed c s hst ha] at hu
      cases hu
    · unfold receiveConn
      rw [hst]
      dsimp only
      rw [if_neg ha]
      exact h
  | closed => rwa [receive_other c s (Or.inl hst)]
  | listen => rwa [receive_other c s (Or.inr (Or.inl hst))]
  | closeWait => rwa [receive_other c s (Or.inr (Or.inr (Or.inl hst)))]
  | timeWait => rwa [receive_other c s (Or.inr (Or.inr (Or.inr hst)))]

end

theorem tick_syn_sent (hst : c.state = .synSent) (hl : c.retransmitLen = 0) :
    (tickConn c).conn = c := by
  have hplain : retransmitTick c = { conn := c } := if_neg (by omega)
  unfold tickConn
  split_ifs
  · rw [hplain]
    exact time_wait_other c (by rw [hst]; decide)
  · rfl

theorem tail_event {e : Event} (hb : ¬Birth e) (h : Tail c t u spoke closed) (hh : Halves c t u)
    (hlen : u.accepted.length < 2^32) (hu : (act c e).conn.inUse = true)
    (hr : ∀ s, e = .receive s → Honest u.accepted u.first s ∧ spoke ∧
      (has s.flags tcpFin = true → s.data = [] ∧
        s.seqNum = u.first+BitVec.ofNat 32 u.accepted.length ∧ closed) ∧
      (has s.flags tcpFin = true → TakesFin c.state → s.seqNum = c.rcvNxt)) :
    Tail (act c e).conn (record t c e) u spoke closed := by
  cases e with
  | idle => exact h
  | connect | listen | syn => exact absurd trivial hb
  | send data =>
    by_cases hc : CanSend c
    · have hrx := send_rx c data
      have hst := (send_frame c data).2.1
      have hne : c.state ≠ .synSent := by rcases hc with hc | hc <;> rw [hc] <;> decide
      rw [record_send t data hc]
      refine tail_same c _ t _ u spoke closed h hrx.nxt ?_ rfl ?_ (fun _ => hne)
      · rw [act, same_rx c _ hrx]
      · exact fun hc => absurd (hst.symm.trans hc) hne
    · rw [record_refused t data hc, act, send_refused c data hc]
      exact h
  | recv len cur fatal =>
    have hx := recv_stored c t.returned len cur fatal hh.recv.ring
    obtain ⟨_,_,_,heq⟩ := recv_frame c len cur fatal
    have hq : ∀ c' : Conn, c' = (tcpRecv c len cur fatal).1 →
        c'.rcvNxt = c.rcvNxt ∧ c'.state = c.state ∧ c'.retransmitLen = c.retransmitLen := by
      rintro _ rfl
      rw [heq]
      exact ⟨rfl,rfl,rfl⟩
    obtain ⟨h1,h2,h3⟩ := hq _ rfl
    refine tail_same c _ t _ u spoke closed h h1 hx rfl ?_ ?_
    · exact fun hc => h3.trans (h.quiet (h2.symm.trans hc))
    · exact fun hc hs => hc (h2.trans hs)
  | close =>
    by_cases hst : c.state = .synSent
    · unfold act tcpClose at hu
      rw [hst] at hu
      cases hu
    · rcases close_frame c with heq | ⟨st,nxt,used,heq,hst'⟩
      · rw [act, heq]
        exact h
      · rw [act, heq]
        refine tail_same c _ t _ u spoke closed h rfl rfl rfl ?_ (fun _ => hst)
        intro hc
        rcases hst' with ⟨rfl,-⟩ | ⟨rfl,-⟩ | rfl <;> cases hc
  | receive s =>
    obtain ⟨h1,h2,h3,h4⟩ := hr s rfl
    exact tail_receive c t u spoke closed s h hh hlen h1 h2 h3 h4 hu
  | tick =>
    by_cases hst : c.state = .synSent
    · rw [act, tick_syn_sent c hst (h.quiet hst)]
      exact h
    · obtain ⟨st,_,_,_,_,_,_,heq,hst',-⟩ := tick_frame c
      rw [act, heq]
      refine tail_same c _ t _ u spoke closed h rfl rfl rfl ?_ (fun _ => hst)
      intro hc
      rcases hst' with rfl | ⟨rfl,-⟩
      · cases hc
      · exact absurd hc hst

end

section
variable (port : Bool → ℕ)

def InOrder (s : Link) (x : Bool) : Op → Prop
  | .receive _ p => ∀ k, findConnection (s.host x) p.srcIp p.seg.srcPort p.seg.dstPort = some k →
    Mine port s x k → has p.seg.flags tcpFin = true → TakesFin ((s.host x).conns k).state →
    p.seg.seqNum = ((s.host x).conns k).rcvNxt
  | _ => True

def Spoke (s : Link) (x : Bool) : Prop := ∃ p, OnWire port s x p

def SentFin (s : Link) (x : Bool) : Prop := ∃ p, OnWire port s x p ∧ has p.seg.flags tcpFin = true

def Settled (s : Link) (x : Bool) : Prop := ∀ k, Mine port s x k →
  Tail ((s.host x).conns k) (s.log x) (s.log !x) (Spoke port s !x) (SentFin port s !x)

variable (s : Link) (x : Bool) (op : Op)

theorem spoke_kept {z : Bool} (h : Spoke port s z) : Spoke port (next port s x op) z := by
  obtain ⟨p,hp⟩ := h
  by_cases hz : z = x
  · rw [hz] at hp ⊢
    exact ⟨p,wire_kept port s x op hp⟩
  · rw [Bool.eq_not_of_ne hz] at hp ⊢
    exact ⟨p,(wire_other port s x op p).mpr hp⟩

theorem fin_kept {z : Bool} (h : SentFin port s z) : SentFin port (next port s x op) z := by
  obtain ⟨p,hp,hf⟩ := h
  by_cases hz : z = x
  · rw [hz] at hp ⊢
    exact ⟨p,wire_kept port s x op hp,hf⟩
  · rw [Bool.eq_not_of_ne hz] at hp ⊢
    exact ⟨p,(wire_other port s x op p).mpr hp,hf⟩

theorem settled_grows {more : List UInt8} (h : Settled port s (!x))
    (ha : ((next port s x op).log x).accepted = (s.log x).accepted++more)
    (hf : ((next port s x op).log x).first = (s.log x).first)
    (hm : SentFin port s x → more = []) : Settled port (next port s x op) (!x) := by
  intro j hj
  have hold := h j ((mine_other port s x op j).mp hj)
  rw [Bool.not_not] at hold
  rw [next_other, log_other, Bool.not_not]
  exact tail_grows _ _ _ _ _ hold ha hf hm (spoke_kept port s x op)
    (fin_kept port s x op)

section
variable (hx : Side port s x) (hy : Side port s (!x)) (ha : Allowed port s x op) (k : ℕ)
  (hk : Continues (s.host x) op (s.host !x).ip (port !x) (port x) (s.log x) k)
include hx hk

include hy ha in
theorem continues_settled (hok : InOrder port s x op) (h : Settled port s x) :
    Settled port (next port s x op) x := by
  intro j hj
  have hown := (mine_self port s x op j).mp hj
  obtain rfl : k = j := (hk.after j hown).symm
  have hslot := slot_step (s.host x) op k
  have hused : (act ((s.host x).conns k) (event (s.host x) k op)).conn.inUse = true := by
    have hu := hown.2.1
    obtain ⟨_,_,_,_,_,heq⟩ := hslot
    rw [heq] at hu
    exact hu
  rw [next_self, log_other, (log_self port s x op).trans hk.log]
  refine tail_queued _ _ _ _ _ _ hslot ?_
  have htail := tail_event _ _ _ _ _ hk.old (h k hk.owns) (hx.halves k hk.owns) hy.short hused ?_
  · exact tail_grows _ _ _ _ _ htail (List.append_nil _).symm rfl (fun _ => rfl)
      (spoke_kept port s x op) (fin_kept port s x op)
  · intro sg he
    obtain ⟨p,hp,hsg⟩ := heard port s x op hk.owns ha he
    have hsrc := event_source (s.host x) k op
    rw [he] at hsrc
    obtain ⟨now,q,rfl,rfl,hfound,-⟩ := hsrc
    refine ⟨hsg ▸ hy.honest p hp,⟨p,hp⟩,fun hf => ?_,fun hf => hok k hfound hk.owns hf⟩
    rw [hsg] at hf ⊢
    obtain ⟨h1,h2,-⟩ := hy.fin p hp hf
    exact ⟨h1,h2,p,hp,hf⟩

theorem continues_settled_other (h : Settled port s (!x)) :
    Settled port (next port s x op) (!x) := by
  obtain ⟨more,hacc,hfirst,hmore⟩ := record_grows (s.log x) ((s.host x).conns k) hk.old
  have hlog := (log_self port s x op).trans hk.log
  refine settled_grows port s x op h (by rw [hlog, hacc]) (by rw [hlog, hfirst]) ?_
  rintro ⟨p,hp,hf⟩
  by_contra hne
  exact (hx.fin p hp hf).2.2 k hk.owns (Or.inr (Or.inr (hmore hne).1))

end

section
variable (ha : Allowed port s x op) (now : ℕ) (q : Packet) (k parent : ℕ)
  (hk : Begins (s.host x) op (s.host !x).ip (port !x) (port x) (s.log x) now q k parent)
include ha hk

theorem begins_settled (hnew : Side port (next port s x op) x) :
    Settled port (next port s x op) x := by
  intro j hj
  obtain ⟨hq,-⟩ := begins_fresh port s x op ha now q k parent hk
  have hjk := hk.after j ((mine_self port s x op j).mp hj)
  have hst : (((next port s x op).host x).conns j).state = .synReceived := by
    obtain ⟨_,_,_,_,_,heq⟩ := slot_step (s.host x) op k
    rw [hjk, next_self, heq, hk.born.event_eq]
    rfl
  have hlog := (log_self port s x op).trans hk.log
  rw [hk.born.event_eq] at hlog
  refine ⟨fun hc => ?_,fun _ => spoke_kept port s x op ⟨q,hq⟩,fun _ => Or.inl ?_,fun hf => ?_⟩
  · rw [hst] at hc
    cases hc
  · exact (hnew.halves j hj).recv.nxt (Or.inl hst)
  · rw [hlog] at hf
    cases hf

theorem begins_settled_other (h : Settled port s (!x)) :
    Settled port (next port s x op) (!x) := by
  intro j hj
  obtain ⟨-,hfresh⟩ := begins_fresh port s x op ha now q k parent hk
  have hold := h j ((mine_other port s x op j).mp hj)
  rw [Bool.not_not] at hold
  -- nothing was sent to the other side yet, so it still waits for the answer
  have hst : ((s.host !x).conns j).state = .synSent := by
    by_contra hne
    obtain ⟨p,hp⟩ := hold.met hne
    exact hfresh p hp
  rw [next_other, log_other]
  refine ⟨hold.quiet,fun hne => absurd hst hne,fun hne => absurd hst hne,fun hf => ?_⟩
  obtain ⟨-,p,hp,-⟩ := hold.fin hf
  exact absurd hp (hfresh p)

end

theorem settled_step (hx : Side port s x) (hy : Side port s (!x)) (ha : Allowed port s x op)
    (hok : InOrder port s x op) (h : Settled port s x) (h' : Settled port s (!x)) :
    Settled port (next port s x op) x ∧ Settled port (next port s x op) (!x) := by
  rcases end_step (s.host x) op (s.host !x).ip (port !x) (port x) (s.log x) hx.tidy
    (allowed_opens port s x op ha) hx.talks hx.one with ⟨k,hk⟩ | ⟨now,q,k,parent,hk⟩ | hk
  · exact ⟨continues_settled port s x op hx hy ha k hk hok h,
      continues_settled_other port s x op hx k hk h'⟩
  · exact ⟨begins_settled port s x op ha now q k parent hk
        (begins_self port s x op hx hy ha now q k parent hk),
      begins_settled_other port s x op ha now q k parent hk h'⟩
  · have hlog := (log_self port s x op).trans hk.log
    refine ⟨fun j hj => absurd ((mine_self port s x op j).mp hj) (hk.after j),?_⟩
    exact settled_grows port s x op h' (by rw [hlog, List.append_nil]) (by rw [hlog]) (fun _ => rfl)

theorem sender_empty {c : Conn} {first : Seq} (h : Sender c [] first) : c.retransmitLen = 0 := by
  by_contra hne
  obtain ⟨off,-,-,hp⟩ := h.slot (by omega)
  have hl := hp.length_le
  simp only [bytes, List.length_map, List.length_range, List.drop_nil, List.length_nil] at hl
  omega

theorem settled_start (h0 : Start port s) : Settled port s false ∧ Settled port s true := by
  obtain ⟨hside,hst⟩ := start_client port s h0
  constructor
  · intro k hk
    obtain ⟨h,_,_,now,cur,j,-,-,-,-,hlog⟩ := h0.client
    have hsend := (hside.halves k hk).send
    rw [hlog] at hsend
    refine ⟨fun _ => sender_empty hsend,fun hne => absurd (hst k hk) hne,
      fun hne => absurd (hst k hk) hne,fun hf => ?_⟩
    rw [hlog] at hf
    cases hf
  · obtain ⟨_,_,-,hnone,-⟩ := h0.server
    exact fun k hk => absurd hk (hnone k)

theorem settled_runs {s0 : Link} (h0 : Start port s0) (h : Runs port (InOrder port) s0 s) :
    (∀ x, Side port s x) ∧ ∀ x, Settled port s x := by
  induction h with
  | start =>
    obtain ⟨h1,h2⟩ := settled_start port s0 h0
    constructor <;> intro x <;> cases x
    · exact (start_client port s0 h0).1
    · exact start_server port s0 h0
    · exact h1
    · exact h2
  | step s x op _ ha hok ih =>
    obtain ⟨hside,hset⟩ := ih
    obtain ⟨a1,a2⟩ := side_step port s x op (hside x) (hside !x) ha
    obtain ⟨b1,b2⟩ := settled_step port s x op (hside x) (hside !x) ha hok (hset x) (hset !x)
    constructor <;> intro z <;> by_cases hz : z = x
    · exact hz ▸ a1
    · exact Bool.eq_not_of_ne hz ▸ a2
    · exact hz ▸ b1
    · exact Bool.eq_not_of_ne hz ▸ b2

/-- A reader that meets the end the FIN has set has got the whole stream. -/
def EndSound (x : Bool) (k : ℕ) : Prop := (s.log x).finTaken = true →
  ∀ len cur fatal, 0 < len → (tcpRecv ((s.host x).conns k) len cur fatal).2 = .got [] →
    (s.log x).returned = (s.log !x).accepted

def NoGap (x : Bool) (k : ℕ) : Prop := ((s.host x).conns k).state ≠ .synSent →
  ∀ n < (s.log !x).accepted.length,
    n < (((s.host x).conns k).rcvNxt-(s.log !x).first).toNat →
    n < ((s.log x).returned++rx ((s.host x).conns k)).length

theorem fin_in_order (s0 : Link) (h0 : Start port s0) (h : Runs port (InOrder port) s0 s)
    (k : ℕ) (hm : Mine port s x k) : EndSound s x k ∧ NoGap s x k := by
  obtain ⟨hside,hset⟩ := settled_runs port s h0 h
  have htail := hset x k hm
  have hrecv := ((hside x).halves k hm).recv
  constructor
  · intro hf len cur fatal hlen hgot
    have hempty := recv_empty _ hrecv.ring hlen hgot
    have hall := (htail.fin hf).1
    rwa [hempty, List.append_nil] at hall
  · intro hne n hn hlt
    rcases htail.place hne with hp | ⟨-,hall,-⟩
    · rw [hp, BitVec.add_comm, BitVec.add_sub_cancel] at hlt
      exact lt_of_lt_of_le hlt (Nat.mod_le _ _)
    · rwa [hall]

end

def finSeg : Packet := ⟨2,1,⟨4000,80,4,2,tcpFin ||| tcpAck,[]⟩⟩

def readClosed : Link := next ports readOut false (.close 0)
def finished : Link := next ports readClosed true (.receive 0 finSeg)

theorem fin_in_order_two : (finished.log true).finTaken = true ∧
    (finished.log true).returned = [104,105] ∧ EndSound finished true 1 ∧ NoGap finished true 1 := by
  have hplain : ∀ s x p, has p.seg.flags tcpFin = false → InOrder ports s x (.receive 0 p) :=
    fun s x p hf k _ _ hc => absurd (hf.symm.trans hc) (by decide)
  have r3 := opened_runs (InOrder ports) (hplain _ _ _ (by decide)) (hplain _ _ _ (by decide))
    (hplain _ _ _ (by decide))
  have r4 : Runs ports (InOrder ports) dialled written :=
    .step _ _ _ r3 (fun _ => by decide) trivial
  have r5 : Runs ports (InOrder ports) dialled arrived :=
    .step _ _ _ r4 ⟨Or.inl (by decide),fun hf => absurd hf (by decide)⟩ (hplain _ _ _ (by decide))
  have r6 : Runs ports (InOrder ports) dialled readOut := .step _ _ _ r5 trivial trivial
  have r7 : Runs ports (InOrder ports) dialled readClosed := .step _ _ _ r6 trivial trivial
  have r8 : Runs ports (InOrder ports) dialled finished := by
    refine .step _ _ _ r7 ⟨Or.inl (by decide),fun hf => absurd hf (by decide)⟩ ?_
    intro k hk _ _ _
    have hone : findConnection (readClosed.host true) 2 4000 80 = some 1 := by decide
    rw [← Option.some.inj (hone.symm.trans hk)]
    decide
  exact ⟨by decide,by decide,fin_in_order ports finished true dialled dialled_start r8 1
    (by unfold Mine; decide)⟩

def sentClosed : Link := next ports written false (.close 0)
def overtaken : Link := next ports sentClosed true (.receive 0 finSeg)

/-- The FIN is delivered before the data: the reader is told of the end with
nothing read, and the expected number has passed both bytes. -/
theorem fin_overtakes : Runs ports (fun _ _ _ => True) dialled overtaken ∧
    Mine ports overtaken true 1 ∧ ¬EndSound overtaken true 1 ∧ ¬NoGap overtaken true 1 := by
  have r3 := opened_runs (fun _ _ _ => True) trivial trivial trivial
  have r4 : Runs ports (fun _ _ _ => True) dialled written :=
    .step _ _ _ r3 (fun _ => by decide) trivial
  have r5 : Runs ports (fun _ _ _ => True) dialled sentClosed := .step _ _ _ r4 trivial trivial
  refine ⟨.step _ _ _ r5 ⟨Or.inl (by decide),fun hf => absurd hf (by decide)⟩ trivial,
    by unfold Mine; decide,?_,?_⟩
  · intro h
    exact absurd (h (by decide) 10 0 false (by decide) (by decide)) (by decide)
  · intro h
    exact absurd (h (by decide) 0 (by decide) (by decide)) (by decide)

end HobbyOS.TcpFin
