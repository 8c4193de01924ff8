import HobbyOS.TcpConn

/-!
# Which acknowledgements a connection may follow

The handler gives `snd_una` whatever number a segment carries, and takes any
ACK for the one that answers its SYN or FIN. A segment is handled as it
should be exactly when its number lies between `snd_una` and `snd_nxt`, and
in a state that waits for an ACK exactly when it is the number behind the SYN
or FIN.
-/

namespace HobbyOS.TcpSequence
open Tcp TcpEvents TcpConn

def AwaitsAck (s : TcpState) : Prop :=
  s = .synSent ∨ s = .synReceived ∨ s = .finWait1 ∨ s = .lastAck

instance (s : TcpState) : Decidable (AwaitsAck s) := inferInstanceAs (Decidable (_ ∨ _))

/-- `snd_nxt` when the connection had just sent its last SYN or FIN. -/
def controlEnd (n : Seq) (c : Conn) (e : Event) : Seq :=
  match e with
  | .connect _ _ _ _ _ _ | .syn _ _ _ _ _ => (act c e).conn.sndNxt
  | .close => if CanSend c then (act c e).conn.sndNxt else n
  | _ => n

/-- Runs of one host, with that number for every entry of the table. -/
inductive Runs (ip : ℕ) : Host → (ℕ → Seq) → Prop where
  | start : Runs ip (boot ip) fun _ => 0
  | step (h : Host) (n : ℕ → Seq) (op : Op) (hr : Runs ip h n) :
      Runs ip (step h op) fun k => controlEnd (n k) (h.conns k) (event h k op)

/-- What a segment may do to a connection: `snd_una` goes forward and not past
`snd_nxt`, and an ACK that changes a waiting state is the one waited for. -/
structure Follows (c c' : Conn) (n : Seq) (s : Segment) : Prop where
  forward : ∃ d, c'.sndUna = c.sndUna+BitVec.ofNat 32 d ∧
    (c'.sndNxt-c'.sndUna).toNat+d = (c.sndNxt-c.sndUna).toNat
  leaves : AwaitsAck c.state → c'.state ≠ c.state → has s.flags tcpAck = true → s.ackNum = n

def AckFits (c : Conn) (s : Segment) : Prop :=
  match c.state with
  | .synSent => s.flags &&& (tcpSyn ||| tcpAck) = tcpSyn ||| tcpAck → s.ackNum = c.sndNxt
  | .synReceived | .finWait1 | .lastAck => has s.flags tcpAck = true → s.ackNum = c.sndNxt
  | .established => has s.flags tcpAck = true → (s.ackNum-c.sndUna).toNat ≤ (c.sndNxt-c.sndUna).toNat
  | _ => True

theorem closed_await : ¬AwaitsAck .closed := by decide

theorem await_same {flags : Flags} {s : TcpState} (h : AwaitsAck (nextState flags s)) :
    nextState flags s = s := by
  cases s <;> unfold nextState at h ⊢ <;> dsimp only at h ⊢ <;> split_ifs at h ⊢ <;>
    first | rfl | exact absurd h (by decide)

theorem receive_nxt (c : Conn) (s : Segment) : (receiveConn c s).conn.sndNxt = c.sndNxt := by
  by_cases h : c.state = .lastAck ∧ has s.flags tcpAck = true
  · rw [receive_freed c s h.1 h.2]
  · exact (handles_receive c s h).sender.nxt

theorem send_state (c : Conn) (data : List UInt8) : (tcpSend c data).1.conn.state = c.state := by
  by_cases hc : CanSend c
  · refine send_rule c data (fun _ a => a.conn.state = c.state) hc rfl ?_
    intro _ chunk a _ hlen ha
    rw [send_chunk a hlen]
    exact ha
  · rw [send_refused c data hc]

section
variable (c : Conn) (n : Seq)

theorem event_end (e : Event) (h : AwaitsAck c.state → c.sndNxt = n) (ha : AwaitsAck (act c e).conn.state) :
    (act c e).conn.sndNxt = controlEnd n c e := by
  cases e with
  | idle => exact h ha
  | connect ip dstIp dstPort srcPort now cur => rfl
  | listen ip port => exact absurd ha (by change ¬AwaitsAck .listen; decide)
  | syn ip port parent now p => rfl
  | send data =>
    change AwaitsAck (tcpSend c data).1.conn.state at ha
    rw [send_state] at ha
    have hc : ¬CanSend c := by
      rintro (hs | hs) <;> rw [hs] at ha <;> exact absurd ha (by decide)
    change (tcpSend c data).1.conn.sndNxt = n
    rw [send_refused c data hc]
    exact h ha
  | recv len cur fatal =>
    obtain ⟨_,_,_,heq⟩ := recv_frame c len cur fatal
    change AwaitsAck (tcpRecv c len cur fatal).1.state at ha
    change (tcpRecv c len cur fatal).1.sndNxt = n
    rw [heq] at ha ⊢
    exact h ha
  | close =>
    change AwaitsAck (tcpClose c).conn.state at ha
    by_cases hc : CanSend c
    · exact (if_pos hc).symm
    · refine Eq.trans ?_ (if_neg hc).symm
      change (tcpClose c).conn.sndNxt = n
      obtain heq | ⟨st,nxt,used,heq,hst⟩ := close_frame c
      · rw [heq] at ha ⊢
        exact h ha
      · rw [heq] at ha
        obtain ⟨-,hs,-⟩ | ⟨-,hs,-⟩ | rfl := hst
        · exact absurd (Or.inl hs) hc
        · exact absurd (Or.inr hs) hc
        · exact absurd ha closed_await
  | receive s =>
    change AwaitsAck (receiveConn c s).conn.state at ha
    change (receiveConn c s).conn.sndNxt = n
    rw [receive_state] at ha
    rw [await_same ha] at ha
    rw [receive_nxt]
    exact h ha
  | tick =>
    obtain ⟨st,_,_,_,_,_,_,heq,hst,-⟩ := tick_frame c
    change AwaitsAck (tickConn c).conn.state at ha
    change (tickConn c).conn.sndNxt = n
    rw [heq] at ha ⊢
    obtain rfl | ⟨rfl,-⟩ := hst
    · exact absurd ha closed_await
    · exact h ha

end

theorem runs_end (ip : ℕ) (h : Host) (n : ℕ → Seq) (hr : Runs ip h n) (k : ℕ)
    (ha : AwaitsAck (h.conns k).state) : (h.conns k).sndNxt = n k := by
  induction hr generalizing k with
  | start => exact absurd ha closed_await
  | step h n op _ ih =>
    have hq := slot_step h op k
    obtain ⟨_,_,_,_,_,heq⟩ := hq
    rw [heq] at ha ⊢
    exact event_end (h.conns k) (n k) (event h k op) (ih k) ha

theorem forward_iff (una nxt ack : Seq) :
    (∃ d, ack = una+BitVec.ofNat 32 d ∧ (nxt-ack).toNat+d = (nxt-una).toNat) ↔
      (ack-una).toNat ≤ (nxt-una).toNat := by
  constructor
  · rintro ⟨d,rfl,hd⟩
    have hsub : (una+BitVec.ofNat 32 d-una).toNat = d := by
      rw [BitVec.add_comm, BitVec.add_sub_cancel, BitVec.toNat_ofNat, Nat.mod_eq_of_lt (by omega)]
    omega
  · intro h
    refine ⟨(ack-una).toNat,?_,?_⟩
    · rw [BitVec.ofNat_toNat, BitVec.setWidth_eq, BitVec.add_comm, BitVec.sub_add_cancel]
    · bv_omega

theorem forward_stays (una nxt : Seq) :
    ∃ d, una = una+BitVec.ofNat 32 d ∧ (nxt-una).toNat+d = (nxt-una).toNat :=
  ⟨0,by simp,rfl⟩

theorem follows_queued (c c1 c2 : Conn) (n : Seq) (s : Segment) (hq : Queued c1 c2) :
    Follows c c2 n s ↔ Follows c c1 n s := by
  obtain ⟨_,_,_,_,_,rfl⟩ := hq
  exact ⟨fun h => ⟨h.forward,h.leaves⟩,fun h => ⟨h.forward,h.leaves⟩⟩

theorem follows_same {c c' : Conn} (n : Seq) (s : Segment) (hu : c'.sndUna = c.sndUna)
    (hn : c'.sndNxt = c.sndNxt) (hs : AwaitsAck c.state → c'.state = c.state) : Follows c c' n s := by
  refine ⟨?_,fun ha hne => absurd (hs ha) hne⟩
  rw [hu, hn]
  exact forward_stays _ _

theorem follows_taken {c c' : Conn} {n : Seq} {s : Segment} (ha : AwaitsAck c.state) (hend : c.sndNxt = n)
    (hack : has s.flags tcpAck = true) (hu : c'.sndUna = s.ackNum ∨ c'.sndUna = c.sndUna)
    (hn : c'.sndNxt = c.sndNxt) (hs : c'.state ≠ c.state) : Follows c c' n s ↔ s.ackNum = c.sndNxt := by
  refine ⟨fun h => (h.leaves ha hs hack).trans hend.symm,fun h => ⟨?_,fun _ _ _ => h.trans hend⟩⟩
  rw [hn]
  obtain hu | hu := hu
  · rw [hu, h, forward_iff]
  · rw [hu]
    exact forward_stays _ _

theorem follows_without (c : Conn) {s : Segment} (n : Seq) (hack : has s.flags tcpAck = false) :
    Follows c (receiveConn c s).conn n s := by
  have hno : has s.flags tcpAck ≠ true := by simp [hack]
  refine ⟨?_,fun _ _ h => absurd h hno⟩
  obtain h | ⟨h,-⟩ := receive_una c s
  · rw [h, receive_nxt]
    exact forward_stays _ _
  · exact absurd h hno

theorem fits_without (c : Conn) {s : Segment} (hack : has s.flags tcpAck = false) : AckFits c s := by
  have hno : has s.flags tcpAck ≠ true := by simp [hack]
  unfold AckFits
  split
  · exact fun h => absurd (syn_ack_ack _ h) hno
  all_goals first | exact fun h => absurd h hno | trivial

theorem receive_follows {c : Conn} (s : Segment) {n : Seq} (hend : AwaitsAck c.state → c.sndNxt = n) :
    Follows c (receiveConn c s).conn n s ↔ AckFits c s := by
  by_cases hack : has s.flags tcpAck = false
  · exact iff_of_true (follows_without c n hack) (fits_without c hack)
  rw [Bool.not_eq_false] at hack
  have hnxt := receive_nxt c s
  have hstate := receive_state c s
  have huna := receive_una c s
  have hwait : AwaitsAck c.state → nextState s.flags c.state ≠ c.state →
      (Follows c (receiveConn c s).conn n s ↔ s.ackNum = c.sndNxt) := by
    intro ha hne
    refine follows_taken ha (hend ha) hack ?_ hnxt (hstate ▸ hne)
    obtain h | ⟨-,h⟩ := huna
    · exact Or.inr h
    · exact Or.inl h
  cases hst : c.state with
  | synReceived | lastAck =>
    rw [hwait (hst ▸ by decide) (by rw [hst, nextState, if_pos hack]; decide), AckFits, hst]
    simp [hack]
  | finWait1 =>
    have hne : nextState s.flags c.state ≠ c.state := by
      rw [hst, nextState]
      split_ifs <;> decide
    rw [hwait (hst ▸ by decide) hne, AckFits, hst]
    simp [hack]
  | synSent =>
    by_cases hboth : s.flags &&& (tcpSyn ||| tcpAck) = tcpSyn ||| tcpAck
    · rw [hwait (hst ▸ by decide) (by rw [hst, nextState, if_pos hboth]; decide), AckFits, hst]
      simp [hboth]
    · rw [AckFits, hst, receive_syn_sent c s hst, if_neg hboth]
      exact iff_of_true (follows_same n s rfl rfl fun _ => rfl) fun h => absurd h hboth
  | established =>
    have hnot : ¬AwaitsAck c.state := by rw [hst]; decide
    have hu : (receiveConn c s).conn.sndUna = s.ackNum := by
      rw [receive_established c s hst, take_rst_conn, take_fin_conn, take_data_conn]
      unfold takeAck
      split_ifs <;> rfl
    rw [AckFits, hst, ← forward_iff]
    simp only [hack, true_imp_iff]
    refine ⟨fun h => ?_,fun h => ⟨?_,fun ha => absurd ha hnot⟩⟩
    · have hf := h.forward
      rwa [hu, hnxt] at hf
    · rwa [hu, hnxt]
  | finWait2 =>
    have hnot : ¬AwaitsAck c.state := by rw [hst]; decide
    rw [AckFits, hst, iff_true]
    refine follows_same n s ?_ hnxt fun ha => absurd ha hnot
    rw [receive_fin_wait c s (Or.inr hst), hst, if_neg (by simp), peer_fin_conn]
    split_ifs <;> rfl
  | closed =>
    rw [AckFits, hst, iff_true, receive_other c s (Or.inl hst)]
    exact follows_same n s rfl rfl fun _ => rfl
  | listen =>
    rw [AckFits, hst, iff_true, receive_other c s (Or.inr (Or.inl hst))]
    exact follows_same n s rfl rfl fun _ => rfl
  | closeWait =>
    rw [AckFits, hst, iff_true, receive_other c s (Or.inr (Or.inr (Or.inl hst)))]
    exact follows_same n s rfl rfl fun _ => rfl
  | timeWait =>
    rw [AckFits, hst, iff_true, receive_other c s (Or.inr (Or.inr (Or.inr hst)))]
    exact follows_same n s rfl rfl fun _ => rfl

/-- In every run, whatever segment comes for a connection. -/
theorem acknowledgement_followed (ip : ℕ) (h : Host) (n : ℕ → Seq) (hr : Runs ip h n) (now : ℕ) (p : Packet)
    (k : ℕ) (hf : findConnection h p.srcIp p.seg.srcPort p.seg.dstPort = some k) :
    Follows (h.conns k) ((tcpReceive h now p).conns k) (n k) p.seg ↔ AckFits (h.conns k) p.seg := by
  rw [follows_queued _ _ _ _ _ (receive_slot h now p k)]
  have hused := (found_used h hf).2.1
  obtain he | ⟨i,hfi,hl,-,hfree,-⟩ | ⟨-,-,he⟩ := receive_event h now p k
  · -- a listener is not changed by what it hears
    have hl : (h.conns k).state = .listen := by
      by_contra hl
      unfold receiveEvent at he
      rw [hf] at he
      dsimp only at he
      rw [if_neg hl, if_pos rfl] at he
      cases he
    rw [he, AckFits, hl, iff_true]
    exact follows_same _ _ rfl rfl fun _ => rfl
  · rw [(free_slot h k hfree).2] at hused
    cases hused
  · rw [he]
    exact receive_follows p.seg (runs_end ip h n hr k)

/-- A client has sent its SYN to a listener, and the host has answered. -/
def answered : Host := run [.listen 80,.receive 0 synPacket] (boot 1)

theorem answered_runs : ∃ n, Runs 1 answered n :=
  ⟨_,.step (step (boot 1) (.listen 80)) _ (.receive 0 synPacket) (.step (boot 1) _ (.listen 80) .start)⟩

/-- The ACK with the number behind the SYN. -/
theorem acknowledgement_followed_syn : ∃ n, Runs 1 answered n ∧
    Follows (answered.conns 1) ((tcpReceive answered 0 (ackPacket 2)).conns 1) (n 1) (ackPacket 2).seg := by
  obtain ⟨n,hr⟩ := answered_runs
  refine ⟨n,hr,(acknowledgement_followed 1 answered n hr 0 (ackPacket 2) 1 (by decide)).mpr ?_⟩
  intro _
  decide

/-- Any other number does as well: the connection is established by an ACK
below its own first number, and `snd_una` goes back to it. -/
theorem stale_ack_establishes : (answered.conns 1).state = .synReceived ∧
    (answered.conns 1).sndUna = 1 ∧ (answered.conns 1).sndNxt = 2 ∧
    ((tcpReceive answered 0 (ackPacket 0)).conns 1).state = .established ∧
    ((tcpReceive answered 0 (ackPacket 0)).conns 1).sndUna = 0 ∧ ∃ n, Runs 1 answered n ∧
      ¬Follows (answered.conns 1) ((tcpReceive answered 0 (ackPacket 0)).conns 1) (n 1) (ackPacket 0).seg := by
  obtain ⟨n,hr⟩ := answered_runs
  refine ⟨by decide,by decide,by decide,by decide,by decide,n,hr,fun h => ?_⟩
  have hack := h.leaves (by decide) (by decide) (by decide)
  rw [← runs_end 1 answered n hr 1 (by decide)] at hack
  exact absurd hack (by decide)

end HobbyOS.TcpSequence
