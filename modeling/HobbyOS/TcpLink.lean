import HobbyOS.TcpHalves

/-!
# Two hosts and a network

Two hosts, each with all of its table, and one connection between them. Every
packet that one host ever sent to the other may be delivered at any time, any
number of times or never; packets from elsewhere may arrive as well. The log
of a side records what its end of the connection took from its writers and
gave to its readers.
-/

namespace HobbyOS.TcpLink
open Tcp TcpEvents TcpConn TcpCoverage TcpHalves Function

def Birth : Event → Prop
  | .connect _ _ _ _ _ _ => True
  | .listen _ _ => True
  | .syn _ _ _ _ _ => True
  | _ => False

def Tidy (c : Conn) : Prop := c.inUse = false → c.state = .closed

section
variable (c : Conn) (e : Event)

theorem send_frame (data : List UInt8) : SameEnds c (tcpSend c data).1.conn ∧
    (tcpSend c data).1.conn.state = c.state ∧ (tcpSend c data).1.conn.inUse = c.inUse ∧
    ∀ o ∈ (tcpSend c data).1.out, o.srcPort = c.localPort ∧ o.dstPort = c.remotePort := by
  by_cases hc : CanSend c
  · refine send_rule c data (fun _ a => SameEnds c a.conn ∧ a.conn.state = c.state ∧
      a.conn.inUse = c.inUse ∧ ∀ o ∈ a.out, o.srcPort = c.localPort ∧ o.dstPort = c.remotePort) hc
      ⟨same_ends_refl c,rfl,rfl,fun o ho => by cases ho⟩ ?_
    rintro _ chunk a - hlen ⟨he,hst,hu,hout⟩
    rw [send_chunk a hlen]
    refine ⟨⟨he.localPort,he.remoteIp,he.remotePort⟩,hst,hu,?_⟩
    intro o ho
    rcases List.mem_append.mp ho with ho | ho
    · exact hout o ho
    · rw [List.mem_singleton.mp ho]
      exact ⟨he.localPort,he.remotePort⟩
  · rw [send_refused c data hc]
    exact ⟨same_ends_refl c,rfl,rfl,fun o ho => by cases ho⟩

theorem act_ends (hb : ¬Birth e) : SameEnds c (act c e).conn ∧
    ((act c e).conn.inUse = true → c.inUse = true) := by
  cases e with
  | idle => exact ⟨same_ends_refl c,id⟩
  | connect | listen | syn => exact absurd trivial hb
  | send data =>
    obtain ⟨h1,-,h3,-⟩ := send_frame c data
    exact ⟨h1,fun hu => h3.symm.trans hu⟩
  | recv len cur fatal =>
    obtain ⟨_,_,_,heq⟩ := recv_frame c len cur fatal
    rw [act, heq]
    exact ⟨⟨rfl,rfl,rfl⟩,id⟩
  | close =>
    unfold act tcpClose
    cases c.state <;> exact ⟨⟨rfl,rfl,rfl⟩,fun hu => by first | exact hu | cases hu⟩
  | receive s =>
    by_cases hf : c.state = .lastAck ∧ has s.flags tcpAck = true
    · rw [act, receive_freed c s hf.1 hf.2]
      exact ⟨⟨rfl,rfl,rfl⟩,fun hu => by cases hu⟩
    · have hh := handles_receive c s hf
      exact ⟨hh.ends,fun hu => hh.used.symm.trans hu⟩
  | tick =>
    by_cases hu : c.inUse = true
    · obtain ⟨st,_,_,_,_,_,used,heq,-⟩ := tick_frame c
      rw [act, heq]
      exact ⟨⟨rfl,rfl,rfl⟩,fun _ => hu⟩
    · rw [act, tickConn, if_neg hu]
      exact ⟨same_ends_refl c,id⟩

theorem tidy_act (h : Tidy c) : Tidy (act c e).conn := by
  cases e with
  | idle => exact h
  | connect | listen | syn => exact fun hu => by cases hu
  | send data =>
    obtain ⟨-,h2,h3,-⟩ := send_frame c data
    exact fun hu => h2.trans (h (h3.symm.trans hu))
  | recv len cur fatal =>
    obtain ⟨_,_,_,heq⟩ := recv_frame c len cur fatal
    rw [act, heq]
    exact h
  | close =>
    rcases close_frame c with heq | ⟨st,nxt,used,heq,hst⟩
    · rw [act, heq]
      exact h
    · rw [act, heq]
      intro hu
      rcases hst with ⟨-,hst,hused⟩ | ⟨-,hst,hused⟩ | hst
      · exact absurd ((h (hused.symm.trans hu)).symm.trans hst) (by decide)
      · exact absurd ((h (hused.symm.trans hu)).symm.trans hst) (by decide)
      · exact hst
  | receive s =>
    by_cases hf : c.state = .lastAck ∧ has s.flags tcpAck = true
    · rw [act, receive_freed c s hf.1 hf.2]
      exact fun _ => rfl
    · intro hu
      have hc := h ((handles_receive c s hf).used.symm.trans hu)
      rw [act, receive_other c s (Or.inl hc)]
      exact hc
  | tick =>
    by_cases hu : c.inUse = true
    · obtain ⟨st,_,_,_,_,_,used,heq,hst,-⟩ := tick_frame c
      rw [act, heq]
      intro hn
      rcases hst with hst | ⟨-,hst⟩
      · exact hst
      · exact absurd (hst.symm.trans hn) (by rw [hu]; simp)
    · rw [act, tickConn, if_neg hu]
      exact h

theorem act_state (hb : ¬Birth e) {st : TcpState} (h : (act c e).conn.state = st)
    (hst : st = .listen ∨ st = .synSent ∨ st = .synReceived) : c.state = st := by
  cases e with
  | idle => exact h
  | connect | listen | syn => exact absurd trivial hb
  | send data => exact (send_frame c data).2.1.symm.trans h
  | recv len cur fatal =>
    obtain ⟨_,_,_,heq⟩ := recv_frame c len cur fatal
    rw [act, heq] at h
    exact h
  | close =>
    rcases close_frame c with heq | ⟨st',nxt,used,heq,hst'⟩
    · rw [act, heq] at h
      exact h
    · rw [act, heq] at h
      subst h
      rcases hst' with ⟨rfl,-⟩ | ⟨rfl,-⟩ | rfl <;> simp at hst
  | receive s =>
    rw [act, receive_state] at h
    unfold nextState at h
    rcases hst with rfl | rfl | rfl <;> cases hc : c.state <;> rw [hc] at h <;> dsimp only at h <;>
      (try split_ifs at h) <;> first | rfl | cases h
  | tick =>
    obtain ⟨st',_,_,_,_,_,_,heq,hst',-⟩ := tick_frame c
    rw [act, heq] at h
    subst h
    rcases hst' with rfl | ⟨rfl,-⟩
    · simp at hst
    · rfl

theorem close_out {o : Segment} (ho : o ∈ (tcpClose c).out) : CanSend c ∧
    o = segment c (tcpFin ||| tcpAck) [] := by
  unfold tcpClose at ho
  cases hst : c.state with
  | established =>
    rw [hst] at ho
    exact ⟨Or.inl hst,List.mem_singleton.mp ho⟩
  | closeWait =>
    rw [hst] at ho
    exact ⟨Or.inr hst,List.mem_singleton.mp ho⟩
  | closed | listen | synSent | synReceived | finWait1 | finWait2 | lastAck | timeWait =>
    rw [hst] at ho; cases ho

theorem close_state (hc : CanSend c) : ¬Sending (tcpClose c).conn.state := by
  unfold tcpClose
  rcases hc with hc | hc
  · rw [hc]
    change ¬Sending .finWait1
    decide
  · rw [hc]
    change ¬Sending .lastAck
    decide

theorem tidy_used (h : Tidy c) (hc : CanSend c) : c.inUse = true := by
  by_contra hu
  have hst := h (by simpa using hu)
  rcases hc with hc | hc <;> rw [hst] at hc <;> cases hc

theorem out_ends (hb : ¬Birth e) (ht : Tidy c) (hr : ∀ s, e = .receive s → c.inUse = true)
    {o : Segment} (ho : o ∈ (act c e).out) :
    c.inUse = true ∧ o.srcPort = c.localPort ∧ o.dstPort = c.remotePort := by
  cases e with
  | idle => cases ho
  | connect | listen | syn => exact absurd trivial hb
  | send data =>
    by_cases hc : CanSend c
    · exact ⟨tidy_used c ht hc,(send_frame c data).2.2.2 o ho⟩
    · rw [act, send_refused c data hc] at ho
      cases ho
  | recv len cur fatal => cases ho
  | close =>
    obtain ⟨hc,rfl⟩ := close_out c ho
    exact ⟨tidy_used c ht hc,rfl,rfl⟩
  | receive s =>
    by_cases hf : c.state = .lastAck ∧ has s.flags tcpAck = true
    · rw [act, receive_freed c s hf.1 hf.2] at ho
      cases ho
    · rcases (handles_receive c s hf).out o ho with hno | hbare
      · cases hno
      · exact ⟨hr s rfl,hbare.2.2⟩
  | tick =>
    by_cases hu : c.inUse = true
    · exact ⟨hu,tick_ports c ho⟩
    · rw [act, tickConn, if_neg hu] at ho
      cases ho

end

structure Halves (c : Conn) (t u : Trace) : Prop where
  send : Sender c t.accepted t.first
  recv : Receiver c t.returned u.accepted u.first

theorem receive_record (t : Trace) (c : Conn) (s : Segment) :
    ∃ b, record t c (.receive s) = { t with finTaken := b } := by
  unfold record
  dsimp only
  split_ifs
  · exact ⟨true,rfl⟩
  · exact ⟨t.finTaken,rfl⟩

theorem halves_event {c : Conn} {e : Event} {t u : Trace} (hb : ¬Birth e)
    (hlen : u.accepted.length < 2^32)
    (hs : ∀ s, e = .receive s → Honest u.accepted u.first s) (h : Halves c t u) :
    Halves (act c e).conn (record t c e) u := by
  cases e with
  | idle => exact h
  | connect | listen | syn => exact absurd trivial hb
  | send data =>
    by_cases hc : CanSend c
    · rw [record_send t data hc]
      exact ⟨(sender_send c t.accepted t.first data hc h.send).1,
        receiver_send c _ _ _ data h.recv⟩
    · rw [record_refused t data hc, act, send_refused c data hc]
      exact h
  | recv len cur fatal =>
    exact ⟨sender_recv c _ _ len cur fatal h.send,receiver_recv c _ _ _ len cur fatal h.recv⟩
  | close => exact ⟨sender_close c _ _ h.send,receiver_close c _ _ _ h.recv⟩
  | receive s =>
    obtain ⟨b,hrec⟩ := receive_record t c s
    rw [hrec]
    exact ⟨sender_receive c _ _ s h.send,receiver_receive c _ _ _ hlen h.recv (hs s rfl)⟩
  | tick => exact ⟨sender_tick c _ _ h.send,receiver_tick c _ _ _ h.recv⟩

theorem event_speaks {c : Conn} {e : Event} {t : Trace} (hb : ¬Birth e)
    (h : Sender c t.accepted t.first) {o : Segment} (ho : o ∈ (act c e).out) :
    Honest (record t c e).accepted (record t c e).first o ∧
      (has o.flags tcpFin = true → o.data = [] ∧ ¬Sending (act c e).conn.state ∧
        o.seqNum = (record t c e).first+BitVec.ofNat 32 (record t c e).accepted.length) := by
  cases e with
  | idle => cases ho
  | connect | listen | syn => exact absurd trivial hb
  | send data =>
    by_cases hc : CanSend c
    · obtain ⟨-,hout,-⟩ := sender_send c t.accepted t.first data hc h
      obtain ⟨h1,h2⟩ := hout o ho
      rw [record_send t data hc]
      exact ⟨h1,fun hf => absurd (h2.symm.trans hf) (by decide)⟩
    · rw [act, send_refused c data hc] at ho
      cases ho
  | recv len cur fatal => cases ho
  | close =>
    obtain ⟨hc,rfl⟩ := close_out c ho
    exact ⟨honest_of _ _ fin_flags_syn (fun hne => absurd rfl hne),
      fun _ => ⟨rfl,close_state c hc,h.nxt (Or.inr (Or.inr hc))⟩⟩
  | receive s =>
    by_cases hf : c.state = .lastAck ∧ has s.flags tcpAck = true
    · rw [act, receive_freed c s hf.1 hf.2] at ho
      cases ho
    · rcases (handles_receive c s hf).out o ho with hno | hbare
      · cases hno
      · refine ⟨honest_bare _ _ hbare,fun hfin => ?_⟩
        rw [hbare.1] at hfin
        exact absurd hfin (by decide)
  | tick =>
    obtain ⟨h1,h2⟩ := tick_honest c _ _ h o ho
    exact ⟨h1,fun hf => absurd (h2.symm.trans hf) (by decide)⟩

structure TidyHost (h : Host) : Prop where
  tidy : ∀ k, Tidy (h.conns k)
  inside : ∀ k, (h.conns k).inUse = true → k < tcpMaxConns

theorem birth_free {h : Host} {k : ℕ} {op : Op} (hb : Birth (event h k op)) :
    freeSlot h = some k := by
  have hsrc := event_source h k op
  cases he : event h k op with
  | connect | listen => rw [he] at hsrc; exact hsrc.2.2
  | syn ip port parent now p => rw [he] at hsrc; exact hsrc.2.2.1
  | idle | send | recv | close | receive | tick => rw [he] at hb; exact hb.elim

theorem tidy_step {h : Host} (op : Op) (ht : TidyHost h) : TidyHost (step h op) := by
  constructor
  · intro k
    obtain ⟨_,_,_,_,_,heq⟩ := slot_step h op k
    rw [heq]
    exact tidy_act _ _ (ht.tidy k)
  · intro k hu
    by_cases hb : Birth (event h k op)
    · exact (free_slot h k (birth_free hb)).1
    · obtain ⟨_,_,_,_,_,heq⟩ := slot_step h op k
      rw [heq] at hu
      exact ht.inside k ((act_ends _ _ hb).2 hu)

theorem reach_tidy {ip : ℕ} {h : Host} (t : ℕ → Trace) (hr : Reach (fun _ _ => True) ip h t) :
    TidyHost h := by
  induction hr with
  | start => exact ⟨fun _ _ => rfl,fun _ hu => by cases hu⟩
  | step h t op _ _ ih => exact tidy_step op ih

structure Link where
  host : Bool → Host
  log : Bool → Trace

def Owns (h : Host) (ip remotePort localPort k : ℕ) : Prop :=
  k < tcpMaxConns ∧ Peer (h.conns k) ip remotePort localPort

instance (h : Host) (ip remotePort localPort k : ℕ) : Decidable (Owns h ip remotePort localPort k) :=
  inferInstanceAs (Decidable (_ ∧ _))

def owner (h : Host) (ip remotePort localPort : ℕ) : Option ℕ :=
  (List.range tcpMaxConns).find? fun k => Owns h ip remotePort localPort k

section
variable (h : Host) (op : Op) (ip remotePort localPort : ℕ)

theorem owner_some {k : ℕ} (ho : owner h ip remotePort localPort = some k) :
    Owns h ip remotePort localPort k := by
  simpa using List.find?_some ho

theorem owner_none (ho : owner h ip remotePort localPort = none) (k : ℕ) :
    ¬Owns h ip remotePort localPort k := by
  intro hk
  have := List.find?_eq_none.mp ho k (List.mem_range.mpr hk.1)
  simp [hk] at this

theorem owns_kept {k : ℕ} (hb : ¬Birth (event h k op))
    (ho : Owns (step h op) ip remotePort localPort k) : Owns h ip remotePort localPort k := by
  obtain ⟨hk,hu,h1,h2,h3⟩ := ho
  obtain ⟨_,_,_,_,_,heq⟩ := slot_step h op k
  rw [heq] at hu h1 h2 h3
  obtain ⟨hends,hused⟩ := act_ends _ _ hb
  exact ⟨hk,hused hu,hends.remoteIp.symm.trans h1,hends.remotePort.symm.trans h2,
    hends.localPort.symm.trans h3⟩

structure Born (now : ℕ) (p : Packet) (k parent : ℕ) : Prop where
  op_eq : op = .receive now p
  event_eq : event h k op = .syn h.ip localPort parent now p
  syn : has p.seg.flags tcpSyn = true
  srcIp : p.srcIp = ip
  srcPort : p.seg.srcPort = remotePort
  dstPort : p.seg.dstPort = localPort
  inside : k < tcpMaxConns
  free : freeSlot h = some k
  first : ∀ j, ¬Owns h ip remotePort localPort j

def Opens : Op → Prop
  | .connect _ _ _ _ _ => True
  | .listen _ => True
  | _ => False

theorem owns_born {k : ℕ} (hop : ¬Opens op) (hb : Birth (event h k op))
    (hl : ∀ j, Owns h ip remotePort localPort j → (h.conns j).state ≠ .listen)
    (he : ∀ e, e = event h k op → (act (h.conns k) e).conn.remoteIp = ip ∧
      (act (h.conns k) e).conn.remotePort = remotePort ∧ (act (h.conns k) e).conn.localPort = localPort) :
    ∃ now p parent, Born h op ip remotePort localPort now p k parent := by
  have hsrc := event_source h k op
  cases hev : event h k op with
  | syn hip lport parent now p =>
    rw [hev] at hsrc
    obtain ⟨rfl,rfl,hfree,hfound,hlisten,hport,hsyn⟩ := hsrc
    obtain ⟨h1,h2,h3⟩ := he _ hev.symm
    change p.srcIp = ip at h1
    change p.seg.srcPort = remotePort at h2
    change lport = localPort at h3
    obtain ⟨hin,-,hpeer | ⟨hl,hnone⟩⟩ := found_used h hfound
    · -- a listener that is itself an end of the connection
      refine absurd hlisten (hl parent ⟨hin,hpeer.1,?_,?_,?_⟩)
      · rw [hpeer.2.1, h1]
      · rw [hpeer.2.2.1, h2]
      · rw [← hport, h3]
    · refine ⟨now,p,parent,rfl,by rw [hev, h3],hsyn,h1,h2,?_,(free_slot h k hfree).1,hfree,?_⟩
      · rw [← h3, hport]
        exact hl.2.2.symm
      · rintro j ⟨hj,hown⟩
        apply hnone j hj
        rw [h1, h2, ← hl.2.2, ← hport, h3]
        exact hown
  | connect | listen =>
    rw [hev] at hsrc
    rw [hsrc.1] at hop
    exact absurd trivial hop
  | idle | send | recv | close | receive | tick => rw [hev] at hb; exact hb.elim

theorem born_owns {now : ℕ} {p : Packet} {k parent : ℕ}
    (hb : Born h op ip remotePort localPort now p k parent) :
    Owns (step h op) ip remotePort localPort k := by
  obtain ⟨_,_,_,_,_,heq⟩ := slot_step h op k
  rw [hb.event_eq] at heq
  refine ⟨hb.inside,?_⟩
  rw [heq]
  exact ⟨rfl,hb.srcIp,hb.srcPort,rfl⟩

theorem birth_ports {c : Conn} {e : Event} (hb : Birth e) {o : Segment} (ho : o ∈ (act c e).out) :
    o.srcPort = (act c e).conn.localPort ∧ o.dstPort = (act c e).conn.remotePort := by
  cases e with
  | connect hip dstIp dstPort srcPort now cur =>
    exact (segment_ports _ _ ho).resolve_left (by simp)
  | listen hip lport => cases ho
  | syn hip lport parent now p => exact (segment_ports _ _ ho).resolve_left (by simp)
  | idle | send | recv | close | receive | tick => exact hb.elim

def Between (p : Packet) : Prop :=
  p.dstIp = ip ∧ p.seg.srcPort = localPort ∧ p.seg.dstPort = remotePort

variable (hop : ¬Opens op) (hl : ∀ j, Owns h ip remotePort localPort j → (h.conns j).state ≠ .listen)
include hop hl

theorem wire_step (ht : TidyHost h) {p : Packet} (hp : p ∈ (step h op).sent)
    (hw : Between ip remotePort localPort p) : p ∈ h.sent ∨
      ∃ k, p.seg ∈ (act (h.conns k) (event h k op)).out ∧
        (Owns h ip remotePort localPort k ∧ ¬Birth (event h k op) ∨
          ∃ now q parent, Born h op ip remotePort localPort now q k parent) := by
  rcases sent_step h op p hp with hp | ⟨-,k,hdst,hout⟩
  · exact Or.inl hp
  refine Or.inr ⟨k,hout,?_⟩
  by_cases hb : Birth (event h k op)
  · right
    obtain ⟨h1,h2⟩ := birth_ports hb hout
    refine owns_born h op ip remotePort localPort hop hb hl ?_
    rintro e rfl
    exact ⟨hdst.symm.trans hw.1,h2.symm.trans hw.2.2,h1.symm.trans hw.2.1⟩
  · left
    have hsrc := event_source h k op
    obtain ⟨h1,h2,h3⟩ := out_ends _ _ hb (ht.tidy k) (fun s hs => by
      rw [hs] at hsrc
      obtain ⟨_,_,_,_,hf,_⟩ := hsrc
      exact (found_used h hf).2.1) hout
    obtain ⟨hends,-⟩ := act_ends (h.conns k) _ hb
    exact ⟨⟨ht.inside k h1,h1,(hends.remoteIp.symm.trans hdst.symm).trans hw.1,
      h3.symm.trans hw.2.2,h2.symm.trans hw.2.1⟩,hb⟩

theorem owns_new {k : ℕ} (ho : Owns (step h op) ip remotePort localPort k)
    (hb : Birth (event h k op)) :
    ∃ now p parent, Born h op ip remotePort localPort now p k parent := by
  obtain ⟨-,-,h1,h2,h3⟩ := ho
  obtain ⟨_,_,_,_,_,heq⟩ := slot_step h op k
  rw [heq] at h1 h2 h3
  refine owns_born h op ip remotePort localPort hop hb hl ?_
  rintro e rfl
  exact ⟨h1,h2,h3⟩

end

/-- What the end of the connection at `h` notes about a step; an end that
begins with the step starts a new log. -/
def note (h : Host) (ip remotePort localPort : ℕ) (t : Trace) (op : Op) : Trace :=
  match (owner h ip remotePort localPort).or (owner (step h op) ip remotePort localPort) with
  | some k => record t (h.conns k) (event h k op)
  | none => t

section
variable (h : Host) (op : Op) (ip remotePort localPort : ℕ) (t : Trace)

/-- The end of the connection in entry `k` goes on, or goes away. -/
structure Continues (k : ℕ) : Prop where
  owns : Owns h ip remotePort localPort k
  old : ¬Birth (event h k op)
  after : ∀ j, Owns (step h op) ip remotePort localPort j → j = k
  log : note h ip remotePort localPort t op = record t (h.conns k) (event h k op)
  wire : ∀ p ∈ (step h op).sent, Between ip remotePort localPort p →
    p ∈ h.sent ∨ p.seg ∈ (act (h.conns k) (event h k op)).out

structure Begins (now : ℕ) (q : Packet) (k parent : ℕ) : Prop where
  born : Born h op ip remotePort localPort now q k parent
  after : ∀ j, Owns (step h op) ip remotePort localPort j → j = k
  log : note h ip remotePort localPort t op = record t (h.conns k) (event h k op)
  wire : ∀ p ∈ (step h op).sent, Between ip remotePort localPort p →
    p ∈ h.sent ∨ p.seg ∈ (act (h.conns k) (event h k op)).out

structure Absent : Prop where
  before : ∀ j, ¬Owns h ip remotePort localPort j
  after : ∀ j, ¬Owns (step h op) ip remotePort localPort j
  log : note h ip remotePort localPort t op = t
  wire : ∀ p ∈ (step h op).sent, Between ip remotePort localPort p → p ∈ h.sent

theorem end_step (ht : TidyHost h) (hop : ¬Opens op)
    (hl : ∀ j, Owns h ip remotePort localPort j → (h.conns j).state ≠ .listen)
    (one : ∀ j k, Owns h ip remotePort localPort j → Owns h ip remotePort localPort k → j = k) :
    (∃ k, Continues h op ip remotePort localPort t k) ∨
      (∃ now q k parent, Begins h op ip remotePort localPort t now q k parent) ∨
      Absent h op ip remotePort localPort t := by
  by_cases hex : ∃ k, Owns h ip remotePort localPort k
  · left
    obtain ⟨k,hk⟩ := hex
    have hnoborn : ∀ now q j parent, ¬Born h op ip remotePort localPort now q j parent :=
      fun now q j parent hb => hb.first k hk
    refine ⟨k,hk,?_,?_,?_,?_⟩
    · intro hb
      have hfree := (free_slot h k (birth_free hb)).2
      rw [hk.2.1] at hfree
      cases hfree
    · intro j hj
      by_cases hb : Birth (event h j op)
      · obtain ⟨now,q,parent,hborn⟩ := owns_new h op ip remotePort localPort hop hl hj hb
        exact absurd hborn (hnoborn _ _ _ _)
      · exact one j k (owns_kept h op ip remotePort localPort hb hj) hk
    · unfold note
      cases ho : owner h ip remotePort localPort with
      | none => exact absurd hk (owner_none h ip remotePort localPort ho k)
      | some j =>
        rw [Option.some_or]
        rw [one j k (owner_some h ip remotePort localPort ho) hk]
    · intro p hp hw
      rcases wire_step h op ip remotePort localPort hop hl ht hp hw with hp | ⟨j,hout,hj⟩
      · exact Or.inl hp
      · rcases hj with ⟨hj,-⟩ | ⟨_,_,_,hborn⟩
        · rw [one j k hj hk] at hout
          exact Or.inr hout
        · exact absurd hborn (hnoborn _ _ _ _)
  push Not at hex
  right
  by_cases hex' : ∃ k, Owns (step h op) ip remotePort localPort k
  · left
    obtain ⟨k,hk⟩ := hex'
    have hbirth : ∀ j, Owns (step h op) ip remotePort localPort j → Birth (event h j op) := by
      intro j hj
      by_contra hb
      exact hex j (owns_kept h op ip remotePort localPort hb hj)
    have hsame : ∀ j, Birth (event h j op) → j = k := fun j hj =>
      Option.some.inj ((birth_free hj).symm.trans (birth_free (hbirth k hk)))
    obtain ⟨now,q,parent,hborn⟩ := owns_new h op ip remotePort localPort hop hl hk (hbirth k hk)
    refine ⟨now,q,k,parent,hborn,fun j hj => hsame j (hbirth j hj),?_,?_⟩
    · unfold note
      cases ho : owner h ip remotePort localPort with
      | some j => exact absurd (owner_some h ip remotePort localPort ho) (hex j)
      | none =>
        rw [Option.none_or]
        cases ho' : owner (step h op) ip remotePort localPort with
        | none => exact absurd hk (owner_none _ ip remotePort localPort ho' k)
        | some j =>
          rw [hsame j (hbirth j (owner_some _ ip remotePort localPort ho'))]
    · intro p hp hw
      rcases wire_step h op ip remotePort localPort hop hl ht hp hw with hp | ⟨j,hout,hj⟩
      · exact Or.inl hp
      · rcases hj with ⟨hj,-⟩ | ⟨_,_,_,hb⟩
        · exact absurd hj (hex j)
        · rw [Option.some.inj (hb.free.symm.trans hborn.free)] at hout
          exact Or.inr hout
  · right
    push Not at hex'
    refine ⟨hex,hex',?_,?_⟩
    · unfold note
      cases ho : owner h ip remotePort localPort with
      | some j => exact absurd (owner_some h ip remotePort localPort ho) (hex j)
      | none =>
        cases ho' : owner (step h op) ip remotePort localPort with
        | some j => exact absurd (owner_some _ ip remotePort localPort ho') (hex' j)
        | none => rfl
    · intro p hp hw
      rcases wire_step h op ip remotePort localPort hop hl ht hp hw with hp | ⟨j,hout,hj⟩
      · exact hp
      · rcases hj with ⟨hj,-⟩ | ⟨_,_,_,hb⟩
        · exact absurd hj (hex j)
        · exact absurd (born_owns h op ip remotePort localPort hb) (hex' j)

end

section
variable (port : Bool → ℕ)

def Mine (s : Link) (x : Bool) (k : ℕ) : Prop :=
  Owns (s.host x) (s.host !x).ip (port !x) (port x) k

def OnWire (s : Link) (x : Bool) (p : Packet) : Prop :=
  p ∈ (s.host x).sent ∧ Between (s.host !x).ip (port !x) (port x) p

def next (s : Link) (x : Bool) (op : Op) : Link where
  host := update s.host x (step (s.host x) op)
  log := update s.log x
    (note (s.host x) (s.host !x).ip (port !x) (port x) (s.log x) op)

def Carried (s : Link) (x : Bool) (p : Packet) : Prop :=
  p ∈ (s.host !x).sent ∧ p.dstIp = (s.host x).ip ∨ p.srcIp ≠ (s.host !x).ip

/-- A SYN does not begin the connection at a side that has had it before. -/
def Once (s : Link) (x : Bool) (p : Packet) : Prop :=
  has p.seg.flags tcpSyn = true → p.srcIp = (s.host !x).ip → p.seg.srcPort = port !x →
    p.seg.dstPort = port x → (∃ k, Mine port s x k) ∨ ∀ q, ¬OnWire port s x q

def Allowed (s : Link) (x : Bool) : Op → Prop
  | .send k data => Mine port s x k → ((s.log x).accepted++data).length < 2^32
  | .receive _ p => Carried s x p ∧ Once port s x p
  | .recv _ _ _ _ => True
  | .accept _ _ _ => True
  | .close _ => True
  | .tick => True
  | .connect _ _ _ _ _ => False
  | .listen _ => False

def Unknown (h : Host) (ip remotePort localPort : ℕ) : Prop :=
  (∀ k, ¬Owns h ip remotePort localPort k) ∧
    ∀ p ∈ h.sent, ¬Between ip remotePort localPort p

/-- The client has just called `tcp_connect`; both hosts have been running. -/
structure Start (s : Link) : Prop where
  client : ∃ h ipA t now cur k, Reach (fun _ _ => True) ipA h t ∧ freeSlot h = some k ∧
    Unknown h (s.host true).ip (port true) (port false) ∧
    s.host false = openConnect h (s.host true).ip (port true) (port false) now cur ∧
    s.log false = record {} (h.conns k)
      (.connect h.ip (s.host true).ip (port true) (port false) now cur)
  server : ∃ ipB t, Reach (fun _ _ => True) ipB (s.host true) t ∧
    Unknown (s.host true) (s.host false).ip (port false) (port true)
  quiet : s.log true = {}

/-- Runs in which every step is allowed and meets a further condition. -/
inductive Runs (Ok : Link → Bool → Op → Prop) (s0 : Link) : Link → Prop where
  | start : Runs Ok s0 s0
  | step (s : Link) (x : Bool) (op : Op) (h : Runs Ok s0 s) (ha : Allowed port s x op)
      (hok : Ok s x op) : Runs Ok s0 (next port s x op)

end

end HobbyOS.TcpLink
