import HobbyOS.TcpLink

/-!
# The stream between two hosts

What a reader has got is a prefix of what the writer at the other end has
given, whatever the network does with the packets. The invariant is kept for
each side: its own halves of the connection, the truth of its packets on the
wire, and that a side which has not begun has left nothing behind.
-/

namespace HobbyOS.TcpStream
open Tcp TcpEvents TcpConn TcpCoverage TcpHalves Function
open TcpLink

theorem record_grows (t : Trace) (c : Conn) {e : Event} (hb : ¬Birth e) :
    ∃ more, (record t c e).accepted = t.accepted++more ∧ (record t c e).first = t.first ∧
      (more ≠ [] → CanSend c ∧ e = .send more) := by
  cases e with
  | send data =>
    by_cases hc : CanSend c
    · rw [record_send t data hc]
      exact ⟨data,rfl,rfl,fun _ => ⟨hc,rfl⟩⟩
    · rw [record_refused t data hc]
      exact ⟨[],(List.append_nil _).symm,rfl,fun hne => absurd rfl hne⟩
  | receive s =>
    obtain ⟨b,hrec⟩ := receive_record t c s
    rw [hrec]
    exact ⟨[],(List.append_nil _).symm,rfl,fun hne => absurd rfl hne⟩
  | connect | listen | syn => exact absurd trivial hb
  | idle | recv | close | tick => exact ⟨[],(List.append_nil _).symm,rfl,fun hne => absurd rfl hne⟩

theorem event_sending {c : Conn} {e : Event} (hb : ¬Birth e) (h : Sending (act c e).conn.state) :
    Sending c.state := by
  cases e with
  | idle => exact h
  | connect | listen | syn => exact absurd trivial hb
  | send data => exact (send_frame c data).2.1 ▸ h
  | recv len cur fatal =>
    obtain ⟨_,_,_,heq⟩ := recv_frame c len cur fatal
    rw [act, heq] at h
    exact h
  | close =>
    rcases close_frame c with heq | ⟨st,nxt,used,heq,hst⟩
    · rw [act, heq] at h
      exact h
    · rw [act, heq] at h
      change Sending st at h
      rcases hst with ⟨rfl,-⟩ | ⟨rfl,-⟩ | rfl <;> exact absurd h (by decide)
  | receive s => exact receive_sending c h
  | tick =>
    obtain ⟨st,_,_,_,_,_,_,heq,hst,-⟩ := tick_frame c
    rw [act, heq] at h
    change Sending st at h
    rcases hst with rfl | ⟨rfl,-⟩
    · exact absurd h (by decide)
    · exact h

theorem event_awaiting {c : Conn} {e : Event} (hb : ¬Birth e)
    (h : Awaiting (act c e).conn.state) : Awaiting c.state ∨ ∃ s, e = .receive s := by
  cases e with
  | idle => exact Or.inl h
  | connect | listen | syn => exact absurd trivial hb
  | send data => exact Or.inl ((send_frame c data).2.1 ▸ h)
  | recv len cur fatal =>
    obtain ⟨_,_,_,heq⟩ := recv_frame c len cur fatal
    rw [act, heq] at h
    exact Or.inl h
  | close =>
    rcases close_frame c with heq | ⟨st,nxt,used,heq,hst⟩
    · rw [act, heq] at h
      exact Or.inl h
    · rw [act, heq] at h
      change Awaiting st at h
      rcases hst with ⟨-,hst,-⟩ | ⟨rfl,-⟩ | rfl
      · exact Or.inl (Or.inr (Or.inl hst))
      · exact absurd h (by decide)
      · exact absurd h (by decide)
  | receive s => exact Or.inr ⟨s,rfl⟩
  | tick =>
    obtain ⟨st,_,_,_,_,_,_,heq,hst,-⟩ := tick_frame c
    rw [act, heq] at h
    change Awaiting st at h
    rcases hst with rfl | ⟨rfl,-⟩
    · exact absurd h (by decide)
    · exact Or.inl h

theorem halves_queued {c c' : Conn} {t u : Trace} (hq : Queued c c') (h : Halves c t u) :
    Halves c' t u :=
  ⟨sender_queued c c' _ _ hq h.send,receiver_queued c c' _ _ _ hq h.recv⟩

section
variable (port : Bool → ℕ)

structure Side (s : Link) (x : Bool) : Prop where
  tidy : TidyHost (s.host x)
  one : ∀ j k, Mine port s x j → Mine port s x k → j = k
  talks : ∀ k, Mine port s x k → ((s.host x).conns k).state ≠ .listen
  halves : ∀ k, Mine port s x k → Halves ((s.host x).conns k) (s.log x) (s.log !x)
  returned : (s.log x).returned <+: (s.log !x).accepted
  honest : ∀ p, OnWire port s x p → Honest (s.log x).accepted (s.log x).first p.seg
  fin : ∀ p, OnWire port s x p → has p.seg.flags tcpFin = true → p.seg.data = [] ∧
    p.seg.seqNum = (s.log x).first+BitVec.ofNat 32 (s.log x).accepted.length ∧
    ∀ k, Mine port s x k → ¬Sending ((s.host x).conns k).state
  unborn : (∀ p, ¬OnWire port s x p) → (s.log x).accepted = [] ∧ (s.log x).returned = [] ∧
    (∀ k, ¬Mine port s x k) ∧ ∀ k, Mine port s (!x) k → ¬Awaiting ((s.host !x).conns k).state
  short : (s.log x).accepted.length < 2^32

variable (s : Link) (x : Bool) (op : Op)

theorem next_self : (next port s x op).host x = step (s.host x) op := update_self _ _ _

theorem next_other : (next port s x op).host (!x) = s.host (!x) :=
  update_of_ne (by cases x <;> decide) _ _

theorem log_self : (next port s x op).log x =
    note (s.host x) (s.host !x).ip (port !x) (port x) (s.log x) op :=
  update_self _ _ _

theorem log_other : (next port s x op).log (!x) = s.log (!x) :=
  update_of_ne (by cases x <;> decide) _ _

theorem mine_self (k : ℕ) : Mine port (next port s x op) x k ↔
    Owns (step (s.host x) op) (s.host !x).ip (port !x) (port x) k := by
  unfold Mine
  rw [next_self, next_other]

theorem mine_other (k : ℕ) : Mine port (next port s x op) (!x) k ↔ Mine port s (!x) k := by
  unfold Mine
  rw [next_other, Bool.not_not, next_self, step_ip]

theorem wire_self (p : Packet) : OnWire port (next port s x op) x p ↔
    p ∈ (step (s.host x) op).sent ∧ Between (s.host !x).ip (port !x) (port x) p := by
  unfold OnWire
  rw [next_self, next_other]

theorem wire_other (p : Packet) : OnWire port (next port s x op) (!x) p ↔ OnWire port s (!x) p := by
  unfold OnWire
  rw [next_other, Bool.not_not, next_self, step_ip]

theorem wire_kept {p : Packet} (hp : OnWire port s x p) : OnWire port (next port s x op) x p :=
  (wire_self port s x op p).mpr ⟨sent_kept _ op p hp.1,hp.2⟩

theorem allowed_opens (ha : Allowed port s x op) : ¬Opens op := by
  cases op <;> first | exact ha.elim | exact id

theorem carried_wire {p : Packet} (hc : Carried s x p) (hip : p.srcIp = (s.host !x).ip)
    (hs : p.seg.srcPort = port !x) (hd : p.seg.dstPort = port x) : OnWire port s (!x) p := by
  rcases hc with ⟨hp,hdst⟩ | hne
  · refine ⟨hp,?_⟩
    rw [Bool.not_not]
    exact ⟨hdst,hs,hd⟩
  · exact absurd hip hne

theorem heard {k : ℕ} (hm : Mine port s x k) (ha : Allowed port s x op) {sg : Segment}
    (he : event (s.host x) k op = .receive sg) : ∃ p, OnWire port s (!x) p ∧ sg = p.seg := by
  have hsrc := event_source (s.host x) k op
  rw [he] at hsrc
  obtain ⟨now,p,rfl,rfl,hf,hl⟩ := hsrc
  refine ⟨p,?_,rfl⟩
  obtain ⟨-,-,hpeer | ⟨hlisten,-⟩⟩ := found_used _ hf
  · obtain ⟨-,-,h1,h2,h3⟩ := hm
    exact carried_wire port s x ha.1 (hpeer.2.1.symm.trans h1) (hpeer.2.2.1.symm.trans h2)
      (hpeer.2.2.2.symm.trans h3)
  · exact absurd hlisten.2.1 hl

/-- The side that does not move: only what it has to do with the log and the
entry of the moving side has to be shown. -/
theorem side_other (hy : Side port s (!x))
    (hrecv : ∀ j, Mine port s (!x) j → Receiver ((s.host !x).conns j) (s.log !x).returned
      ((next port s x op).log x).accepted ((next port s x op).log x).first)
    (hret : (s.log !x).returned <+: ((next port s x op).log x).accepted)
    (hawait : (∀ p, ¬OnWire port s (!x) p) → ∀ j, Mine port (next port s x op) x j →
      ¬Awaiting ((step (s.host x) op).conns j).state) : Side port (next port s x op) (!x) := by
  have hmine : ∀ j, Mine port (next port s x op) (!x) j → Mine port s (!x) j :=
    fun j => (mine_other port s x op j).mp
  refine ⟨?_,fun i j hi hj => hy.one i j (hmine i hi) (hmine j hj),?_,?_,?_,?_,?_,?_,?_⟩
  · rw [next_other]
    exact hy.tidy
  · intro j hj
    rw [next_other]
    exact hy.talks j (hmine j hj)
  · intro j hj
    rw [next_other, log_other, Bool.not_not]
    exact ⟨(hy.halves j (hmine j hj)).send,hrecv j (hmine j hj)⟩
  · rw [log_other, Bool.not_not]
    exact hret
  · intro p hp
    rw [log_other]
    exact hy.honest p ((wire_other port s x op p).mp hp)
  · intro p hp hf
    obtain ⟨h1,h2,h3⟩ := hy.fin p ((wire_other port s x op p).mp hp) hf
    rw [log_other, next_other]
    exact ⟨h1,h2,fun j hj => h3 j (hmine j hj)⟩
  · intro hnone
    have hnone' : ∀ p, ¬OnWire port s (!x) p :=
      fun p hp => hnone p ((wire_other port s x op p).mpr hp)
    obtain ⟨h1,h2,h3,-⟩ := hy.unborn hnone'
    rw [log_other, Bool.not_not, next_self]
    exact ⟨h1,h2,fun j hj => h3 j (hmine j hj),hawait hnone'⟩
  · rw [log_other]
    exact hy.short

section
variable (hx : Side port s x) (hy : Side port s (!x)) (ha : Allowed port s x op) (k : ℕ)
  (hk : Continues (s.host x) op (s.host !x).ip (port !x) (port x) (s.log x) k)
include hx hy ha hk

theorem continues_halves : Halves (act ((s.host x).conns k) (event (s.host x) k op)).conn
    (record (s.log x) ((s.host x).conns k) (event (s.host x) k op)) (s.log !x) := by
  refine halves_event hk.old hy.short ?_ (hx.halves k hk.owns)
  intro sg he
  obtain ⟨p,hp,rfl⟩ := heard port s x op hk.owns ha he
  exact hy.honest p hp

theorem continues_self : Side port (next port s x op) x := by
  have hh := continues_halves port s x op hx hy ha k hk
  have hq := slot_step (s.host x) op k
  obtain ⟨more,hacc,hfirst,hmore⟩ := record_grows (s.log x) ((s.host x).conns k) hk.old
  have hsame : ∀ j, Mine port (next port s x op) x j → j = k := fun j hj =>
    hk.after j ((mine_self port s x op j).mp hj)
  have hlog := (log_self port s x op).trans hk.log
  have hstate : ((step (s.host x) op).conns k).state =
      (act ((s.host x).conns k) (event (s.host x) k op)).conn.state := by
    obtain ⟨_,_,_,_,_,heq⟩ := hq
    rw [heq]
  refine ⟨?_,?_,?_,?_,?_,?_,?_,?_,?_⟩
  · rw [next_self]
    exact tidy_step op hx.tidy
  · intro i j hi hj
    rw [hsame i hi, hsame j hj]
  · intro j hj
    rw [hsame j hj, next_self, hstate]
    exact fun hc => hx.talks k hk.owns (act_state _ _ hk.old hc (Or.inl rfl))
  · intro j hj
    rw [hsame j hj, next_self, hlog, log_other]
    exact halves_queued hq hh
  · rw [hlog, log_other]
    exact (List.prefix_append _ _).trans hh.recv.stored
  · intro p hp
    rw [hlog]
    obtain ⟨hsent,hw⟩ := (wire_self port s x op p).mp hp
    rcases hk.wire p hsent hw with hold | hnew
    · rw [hacc, hfirst]
      exact honest_append _ more _ (hx.honest p ⟨hold,hw⟩)
    · exact (event_speaks hk.old (hx.halves k hk.owns).send hnew).1
  · intro p hp hf
    rw [hlog]
    obtain ⟨hsent,hw⟩ := (wire_self port s x op p).mp hp
    rcases hk.wire p hsent hw with hold | hnew
    · obtain ⟨h1,h2,h3⟩ := hx.fin p ⟨hold,hw⟩ hf
      have hns := h3 k hk.owns
      have hnil : more = [] := by
        by_contra hne
        exact hns (Or.inr (Or.inr (hmore hne).1))
      rw [hacc, hfirst, hnil, List.append_nil]
      refine ⟨h1,h2,fun j hj => ?_⟩
      rw [hsame j hj, next_self, hstate]
      exact fun hc => hns (event_sending hk.old hc)
    · obtain ⟨h1,h2,h3⟩ := (event_speaks hk.old (hx.halves k hk.owns).send hnew).2 hf
      refine ⟨h1,h3,fun j hj => ?_⟩
      rw [hsame j hj, next_self, hstate]
      exact h2
  · intro hnone
    have hun := hx.unborn (fun p hp => hnone p (wire_kept port s x op hp))
    exact absurd hk.owns (hun.2.2.1 k)
  · rw [hlog, hacc]
    by_cases hne : more = []
    · rw [hne, List.append_nil]
      exact hx.short
    · have hsrc := event_source (s.host x) k op
      rw [(hmore hne).2] at hsrc
      subst hsrc
      exact ha hk.owns

omit hx in
theorem continues_other : Side port (next port s x op) (!x) := by
  obtain ⟨more,hacc,hfirst,-⟩ := record_grows (s.log x) ((s.host x).conns k) hk.old
  have hlog := (log_self port s x op).trans hk.log
  refine side_other port s x op hy ?_ ?_ ?_
  · intro j hj
    have hold := (hy.halves j hj).recv
    rw [Bool.not_not] at hold
    rw [hlog, hacc, hfirst]
    exact receiver_append _ _ _ more _ hold
  · have hold := hy.returned
    rw [Bool.not_not] at hold
    rw [hlog, hacc]
    exact hold.trans (List.prefix_append _ _)
  · intro hnone j hj
    rw [hk.after j ((mine_self port s x op j).mp hj)]
    obtain ⟨_,_,_,_,_,heq⟩ := slot_step (s.host x) op k
    rw [heq]
    intro hawait
    rcases event_awaiting hk.old hawait with hc | ⟨sg,he⟩
    · have hun := (hy.unborn hnone).2.2.2
      rw [Bool.not_not] at hun
      exact hun k hk.owns hc
    · obtain ⟨p,hp,-⟩ := heard port s x op hk.owns ha he
      exact hnone p hp

end

structure Newborn (c : Conn) (t : Trace) : Prop where
  accepted : t.accepted = []
  returned : t.returned = []
  nxt : c.sndNxt = t.first
  slot : c.retransmitLen = 0
  read : c.rxReadPos = 0
  write : c.rxWritePos = 0
  count : c.rxCount = 0

omit port s x op in
theorem newborn_halves {c : Conn} {t u : Trace} (h : Newborn c t)
    (hr : Awaiting c.state → c.rcvNxt = u.first) : Halves c t u := by
  have hstored : t.returned++rx c = [] := by
    unfold rx
    rw [h.returned, h.count]
    rfl
  refine ⟨⟨fun _ => ?_,by rw [h.slot]; omega,fun hl => by rw [h.slot] at hl; omega⟩,
    ⟨⟨by rw [h.read]; decide,by rw [h.write, h.read, h.count]; rfl,by rw [h.count]; omega⟩,?_,?_,?_⟩⟩
  · rw [h.accepted, h.nxt]
    exact (BitVec.add_zero _).symm
  · rw [hstored]
    exact List.nil_prefix
  · intro hw
    rw [hstored, hr hw]
    exact (BitVec.add_zero _).symm
  · exact fun _ => hstored

omit port s x op in
theorem advance_syn (n : Seq) {flags : Flags} (hs : has flags tcpSyn = true)
    (hf : has flags tcpFin = false) : advance n flags 0 = n+1 := by
  simp [advance, hs, hf]

omit port s x op in
theorem birth_speaks {c : Conn} {e : Event} (t : Trace) (hb : Birth e) {o : Segment}
    (ho : o ∈ (act c e).out) : Honest (record t c e).accepted (record t c e).first o ∧
      has o.flags tcpFin = false := by
  cases e with
  | connect ip dstIp dstPort srcPort now cur =>
    have hsyn : has tcpSyn tcpFin = false := by decide
    rw [List.mem_singleton.mp ho]
    exact ⟨⟨fun _ => (advance_syn _ (by decide) hsyn).symm,fun hne => absurd rfl hne⟩,hsyn⟩
  | syn ip lport parent now p =>
    have hsyn : has (tcpSyn ||| tcpAck) tcpFin = false := by decide
    rw [List.mem_singleton.mp ho]
    exact ⟨⟨fun _ => (advance_syn _ (by decide) hsyn).symm,
      fun hne => absurd rfl hne⟩,hsyn⟩
  | listen ip lport => cases ho
  | idle | send | recv | close | receive | tick => exact hb.elim

section
variable (hx : Side port s x) (hy : Side port s (!x)) (ha : Allowed port s x op)
  (now : ℕ) (q : Packet) (k parent : ℕ)
  (hk : Begins (s.host x) op (s.host !x).ip (port !x) (port x) (s.log x) now q k parent)
include hx hy ha hk

omit hx hy in
theorem begins_fresh : OnWire port s (!x) q ∧ ∀ p, ¬OnWire port s x p := by
  have hb := hk.born
  rw [hb.op_eq] at ha
  refine ⟨carried_wire port s x ha.1 hb.srcIp hb.srcPort hb.dstPort,?_⟩
  rcases ha.2 hb.syn hb.srcIp hb.srcPort hb.dstPort with ⟨j,hj⟩ | hnone
  · exact absurd hj (hb.first j)
  · exact hnone

omit hx hy ha in
theorem begins_wire : ∃ p, OnWire port (next port s x op) x p := by
  have hb := hk.born
  have he := hb.event_eq
  rw [hb.op_eq] at he
  have hsent := syn_sent (s.host x) now q he (List.mem_singleton_self _)
  rw [← hb.op_eq] at hsent
  exact ⟨_,(wire_self port s x op _).mpr ⟨hsent,hb.srcIp,rfl,hb.srcPort⟩⟩

theorem begins_self : Side port (next port s x op) x := by
  obtain ⟨hq,hfresh⟩ := begins_fresh port s x op ha now q k parent hk
  have hb := hk.born
  have hslot := slot_step (s.host x) op k
  have hsame : ∀ j, Mine port (next port s x op) x j → j = k := fun j hj =>
    hk.after j ((mine_self port s x op j).mp hj)
  have hlog := (log_self port s x op).trans hk.log
  have hbirth : Birth (event (s.host x) k op) := by
    rw [hb.event_eq]
    trivial
  have hnew : ∀ p, OnWire port (next port s x op) x p →
      p.seg ∈ (act ((s.host x).conns k) (event (s.host x) k op)).out := by
    intro p hp
    obtain ⟨hsent,hw⟩ := (wire_self port s x op p).mp hp
    exact (hk.wire p hsent hw).resolve_left (fun hold => hfresh p ⟨hold,hw⟩)
  refine ⟨?_,?_,?_,?_,?_,?_,?_,?_,?_⟩
  · rw [next_self]
    exact tidy_step op hx.tidy
  · intro i j hi hj
    rw [hsame i hi, hsame j hj]
  · intro j hj
    obtain ⟨_,_,_,_,_,heq⟩ := hslot
    rw [hsame j hj, next_self, heq, hb.event_eq]
    exact TcpState.noConfusion
  · intro j hj
    rw [hsame j hj, next_self, hlog, log_other]
    refine halves_queued hslot ?_
    rw [hb.event_eq]
    exact newborn_halves ⟨rfl,rfl,rfl,rfl,rfl,rfl,rfl⟩ (fun _ => (hy.honest q hq).syn hb.syn)
  · rw [hlog, hb.event_eq]
    exact List.nil_prefix
  · intro p hp
    rw [hlog]
    exact (birth_speaks _ hbirth (hnew p hp)).1
  · intro p hp hf
    have := (birth_speaks (s.log x) hbirth (hnew p hp)).2
    rw [hf] at this
    cases this
  · intro hnone
    obtain ⟨p,hp⟩ := begins_wire port s x op now q k parent hk
    exact absurd hp (hnone p)
  · rw [hlog, hb.event_eq]
    change 0 < 2^32
    omega

theorem begins_other : Side port (next port s x op) (!x) := by
  obtain ⟨hq,hfresh⟩ := begins_fresh port s x op ha now q k parent hk
  obtain ⟨hacc,-,-,hawait⟩ := hx.unborn hfresh
  have hlog := (log_self port s x op).trans hk.log
  rw [hk.born.event_eq] at hlog
  refine side_other port s x op hy ?_ ?_ (fun hnone => absurd hq (hnone q))
  · intro j hj
    have hold := (hy.halves j hj).recv
    rw [Bool.not_not, hacc] at hold
    rw [hlog]
    exact ⟨hold.ring,hold.stored,fun hc => absurd hc (hawait j hj),hold.early⟩
  · have hold := hy.returned
    rw [Bool.not_not, hacc] at hold
    rw [hlog]
    exact hold

end

section
variable (hx : Side port s x) (hy : Side port s (!x))
  (hk : Absent (s.host x) op (s.host !x).ip (port !x) (port x) (s.log x))
include hx hy hk

omit hy in
theorem absent_self : Side port (next port s x op) x := by
  have hnone : ∀ j, ¬Mine port (next port s x op) x j := fun j hj =>
    hk.after j ((mine_self port s x op j).mp hj)
  have hlog := (log_self port s x op).trans hk.log
  have hwire : ∀ p, OnWire port (next port s x op) x p → OnWire port s x p := by
    intro p hp
    obtain ⟨hsent,hw⟩ := (wire_self port s x op p).mp hp
    exact ⟨hk.wire p hsent hw,hw⟩
  refine ⟨?_,fun i j hi => absurd hi (hnone i),fun j hj => absurd hj (hnone j),
    fun j hj => absurd hj (hnone j),?_,?_,?_,?_,?_⟩
  · rw [next_self]
    exact tidy_step op hx.tidy
  · rw [hlog, log_other]
    exact hx.returned
  · intro p hp
    rw [hlog]
    exact hx.honest p (hwire p hp)
  · intro p hp hf
    obtain ⟨h1,h2,-⟩ := hx.fin p (hwire p hp) hf
    rw [hlog]
    exact ⟨h1,h2,fun j hj => absurd hj (hnone j)⟩
  · intro hno
    obtain ⟨h1,h2,-,h4⟩ := hx.unborn (fun p hp => hno p (wire_kept port s x op hp))
    rw [hlog, next_other]
    exact ⟨h1,h2,hnone,fun j hj => h4 j ((mine_other port s x op j).mp hj)⟩
  · rw [hlog]
    exact hx.short

omit hx in
theorem absent_other : Side port (next port s x op) (!x) := by
  have hlog := (log_self port s x op).trans hk.log
  refine side_other port s x op hy ?_ ?_
    (fun _ j hj => absurd ((mine_self port s x op j).mp hj) (hk.after j))
  · intro j hj
    have hold := (hy.halves j hj).recv
    rw [Bool.not_not] at hold
    rw [hlog]
    exact hold
  · have hold := hy.returned
    rw [Bool.not_not] at hold
    rw [hlog]
    exact hold

end

theorem side_step (hx : Side port s x) (hy : Side port s (!x)) (ha : Allowed port s x op) :
    Side port (next port s x op) x ∧ Side port (next port s x op) (!x) := by
  rcases end_step (s.host x) op (s.host !x).ip (port !x) (port x) (s.log x) hx.tidy
    (allowed_opens port s x op ha) hx.talks hx.one with ⟨k,hk⟩ | ⟨now,q,k,parent,hk⟩ | hk
  · exact ⟨continues_self port s x op hx hy ha k hk,continues_other port s x op hy ha k hk⟩
  · exact ⟨begins_self port s x op hx hy ha now q k parent hk,
      begins_other port s x op hx hy ha now q k parent hk⟩
  · exact ⟨absent_self port s x op hx hk,absent_other port s x op hy hk⟩

theorem side_runs (Ok : Link → Bool → Op → Prop) {s0 : Link} (h0 : ∀ x, Side port s0 x)
    (h : Runs port Ok s0 s) : ∀ x, Side port s x := by
  induction h with
  | start => exact h0
  | step s x op _ ha _ ih =>
    obtain ⟨h1,h2⟩ := side_step port s x op (ih x) (ih !x) ha
    intro z
    by_cases hz : z = x
    · rw [hz]
      exact h1
    · rw [Bool.eq_not_of_ne hz]
      exact h2

section
variable (hs : Start port s)
include hs

theorem start_client : Side port s false ∧
    ∀ k, Mine port s false k → ((s.host false).conns k).state = .synSent := by
  obtain ⟨h0,ipA,t,now,cur,k,hr,hfree,hun,hhost,hlog⟩ := hs.client
  have hstep : s.host false = step h0 (.connect (s.host true).ip (port true) (port false) now cur) :=
    hhost
  have hsent : ∀ o ∈ (tcpConnect fresh h0.ip (s.host true).ip (port true) (port false) now cur).out,
      ⟨h0.ip,(s.host true).ip,o⟩ ∈ (s.host false).sent := by
    rw [hhost, open_connect]
    exact fun o ho => begin_sent h0 _ hfree ho
  generalize hop : Op.connect (s.host true).ip (port true) (port false) now cur = op0 at hstep
  have he : event h0 k op0 = .connect h0.ip (s.host true).ip (port true) (port false) now cur := by
    rw [← hop, event, if_pos hfree]
  have hidle : ∀ j, j ≠ k → event h0 j op0 = .idle := by
    intro j hj
    rw [← hop, event, if_neg (fun hc => hj (Option.some.inj (hc.symm.trans hfree)))]
  have hbirth : Birth (event h0 k op0) := by
    rw [he]
    trivial
  have hsame : ∀ j, Mine port s false j → j = k := by
    intro j hj
    by_contra hne
    have hown : Owns (step h0 op0) (s.host true).ip (port true) (port false) j := hstep ▸ hj
    exact hun.1 j (owns_kept h0 op0 _ _ _ (by rw [hidle j hne]; exact id) hown)
  have hwire : ∀ p, OnWire port s false p → p.seg ∈ (act (h0.conns k) (event h0 k op0)).out := by
    rintro p ⟨hp,hw⟩
    rw [hstep] at hp
    rcases sent_step h0 op0 p hp with hold | ⟨-,j,-,hout⟩
    · exact absurd hw (hun.2 p hold)
    · by_cases hj : j = k
      · rwa [hj] at hout
      · rw [hidle j hj] at hout
        cases hout
  have hslot := slot_step h0 op0 k
  have hlog' : s.log false = record {} (h0.conns k) (event h0 k op0) := by rw [hlog, he]
  have hstate : ∀ j, Mine port s false j → ((s.host false).conns j).state = .synSent := by
    intro j hj
    obtain ⟨_,_,_,_,_,heq⟩ := hslot
    rw [hsame j hj, hstep, heq, he]
    rfl
  refine ⟨⟨?_,?_,?_,?_,?_,?_,?_,?_,?_⟩,hstate⟩
  · rw [hstep]
    exact tidy_step op0 (reach_tidy t hr)
  · intro i j hi hj
    rw [hsame i hi, hsame j hj]
  · intro j hj
    rw [hstate j hj]
    exact TcpState.noConfusion
  · intro j hj
    rw [hsame j hj, hstep, hlog']
    refine halves_queued hslot ?_
    rw [he]
    exact newborn_halves ⟨rfl,rfl,rfl,rfl,rfl,rfl,rfl⟩
      (fun hc => absurd (show Awaiting .synSent from hc) (by decide))
  · rw [hlog]
    exact List.nil_prefix
  · intro p hp
    rw [hlog']
    exact (birth_speaks _ hbirth (hwire p hp)).1
  · intro p hp hf
    have := (birth_speaks {} hbirth (hwire p hp)).2
    rw [hf] at this
    cases this
  · intro hnone
    exact absurd ⟨hsent _ (List.mem_singleton_self _),rfl,rfl,rfl⟩ (hnone _)
  · rw [hlog]
    change 0 < 2^32
    omega

theorem start_server : Side port s true := by
  obtain ⟨ipB,t,hr,hnone,hquiet⟩ := hs.server
  have hno : ∀ j, ¬Mine port s true j := hnone
  have hlog := hs.quiet
  refine ⟨reach_tidy t hr,fun i j hi => absurd hi (hno i),fun j hj => absurd hj (hno j),
    fun j hj => absurd hj (hno j),?_,fun p hp => absurd hp.2 (hquiet p hp.1),
    fun p hp => absurd hp.2 (hquiet p hp.1),fun _ => ?_,?_⟩
  · rw [hlog]
    exact List.nil_prefix
  · refine ⟨by rw [hlog],by rw [hlog],hno,fun k hk => ?_⟩
    rw [Bool.not_true, (start_client port s hs).2 k hk]
    decide
  · rw [hlog]
    change 0 < 2^32
    omega

end

/-- What either reader has got is a prefix of what the other side's writers
have given. -/
theorem stream_delivered (s0 s : Link) (h0 : Start port s0)
    (h : Runs port (fun _ _ _ => True) s0 s) (x : Bool) :
    (s.log x).returned <+: (s.log !x).accepted := by
  refine (side_runs port s (fun _ _ _ => True) ?_ h x).returned
  intro z
  cases z with
  | false => exact (start_client port s0 h0).1
  | true => exact start_server port s0 h0

end

def ports : Bool → ℕ := fun x => if x then 80 else 4000

def dialled : Link where
  host := fun x => if x then run [.listen 80] (boot 1) else openConnect (boot 2) 1 80 4000 0 0
  log := fun x => if x then {} else record {} {} (.connect 2 1 80 4000 0 0)

theorem dialled_start : Start ports dialled := by
  refine ⟨⟨boot 2,2,_,0,0,0,.start,by decide,⟨?_,?_⟩,rfl,rfl⟩,⟨1,_,reach_run _ 1 [.listen 80] _ _
    .start (all_free _ _),?_,?_⟩,rfl⟩
  · rintro k ⟨-,hu,-⟩
    cases hu
  · intro p hp
    cases hp
  · have hno : ∀ k < tcpMaxConns, ¬Peer ((dialled.host true).conns k) (dialled.host false).ip 4000 80 := by
      decide
    exact fun k hk => hno k hk.1 hk.2
  · intro p hp
    cases hp

def synSeg : Packet := ⟨2,1,⟨4000,80,1,0,tcpSyn,[]⟩⟩
def synAckSeg : Packet := ⟨1,2,⟨80,4000,1,2,tcpSyn ||| tcpAck,[]⟩⟩
def ackSeg : Packet := ⟨2,1,⟨4000,80,2,2,tcpAck,[]⟩⟩
def dataSeg : Packet := ⟨2,1,⟨4000,80,2,2,dataFlags,[104,105]⟩⟩

def answered : Link := next ports dialled true (.receive 0 synSeg)
def joined : Link := next ports answered false (.receive 0 synAckSeg)
def opened : Link := next ports joined true (.receive 0 ackSeg)
def written : Link := next ports opened false (.send 0 [104,105])
def arrived : Link := next ports written true (.receive 0 dataSeg)
def readOut : Link := next ports arrived true (.recv 1 10 0 false)

theorem opened_runs (Ok : Link → Bool → Op → Prop) (h1 : Ok dialled true (.receive 0 synSeg))
    (h2 : Ok answered false (.receive 0 synAckSeg)) (h3 : Ok joined true (.receive 0 ackSeg)) :
    Runs ports Ok dialled opened := by
  have hplain : ∀ s x p, has p.seg.flags tcpSyn = false → Once ports s x p :=
    fun s x p hf hc => absurd (hf.symm.trans hc) (by decide)
  have r1 : Runs ports Ok dialled answered := by
    refine .step _ _ _ .start ⟨Or.inl (by decide),fun _ _ _ _ => Or.inr ?_⟩ h1
    rintro q ⟨hq,-⟩
    cases hq
  have r2 : Runs ports Ok dialled joined :=
    .step _ _ _ r1 ⟨Or.inl (by decide),fun _ _ _ _ => Or.inl ⟨0,by unfold Mine; decide⟩⟩ h2
  exact .step _ _ _ r2 ⟨Or.inl (by decide),hplain _ _ _ (by decide)⟩ h3

theorem stream_delivered_two : (readOut.log true).returned = [104,105] ∧
    (readOut.log true).returned <+: (readOut.log false).accepted := by
  have r3 := opened_runs (fun _ _ _ => True) trivial trivial trivial
  have r4 : Runs ports (fun _ _ _ => True) dialled written :=
    .step _ _ _ r3 (fun _ => by decide) trivial
  have r5 : Runs ports (fun _ _ _ => True) dialled arrived :=
    .step _ _ _ r4 ⟨Or.inl (by decide),fun hf => absurd hf (by decide)⟩ trivial
  have r6 : Runs ports (fun _ _ _ => True) dialled readOut := .step _ _ _ r5 trivial trivial
  exact ⟨by decide,stream_delivered ports dialled readOut dialled_start r6 true⟩

end HobbyOS.TcpStream
