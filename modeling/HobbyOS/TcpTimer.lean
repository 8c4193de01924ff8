import HobbyOS.TcpConn

/-!
# The retransmit timer after an acknowledgement

No path of the segment handler clears the retransmit slot. A connection that
has sent data and had all of it acknowledged therefore resends the last chunk
every half second and resets itself after the third time. The exceptions are
the connections whose slot is empty and those that leave the table first.
-/

namespace HobbyOS.TcpTimer
open Tcp TcpEvents TcpConn

variable (c : Conn) (s : Segment)

/-- A tick now neither sends on this connection nor closes it on the
retransmit timer. -/
def Silent : Prop :=
  c.inUse = true → (retransmitTick c).out = [] ∧ (retransmitTick c).conn.state = c.state

/-- Nothing more is sent on entry `k` by its user. -/
def Leaves (k : ℕ) : Op → Prop
  | .send i _ => i ≠ k
  | .close i => i ≠ k
  | _ => True

/-- What keeps an acknowledged connection from firing its timer: an empty
slot, an acknowledgement that frees the entry, or the end of TIME_WAIT, which
lowers the same timer a second time in each tick. -/
def Spared : Prop :=
  c.retransmitLen = 0 ∨ c.state = .lastAck ∨
    (c.state = .timeWait ∨ (c.state = .finWait1 ∨ c.state = .finWait2) ∧ has s.flags tcpFin = true) ∧
      c.retransmitTimer % 2 = 0

structure Armed (c : Conn) : Prop where
  size : c.retransmitLen ≤ 1460
  timer : c.inUse = true → 0 < c.retransmitLen → 0 < c.retransmitTimer

theorem armed_queued {c c' : Conn} (hq : Queued c c') (h : Armed c) : Armed c' := by
  obtain ⟨_,_,_,_,_,rfl⟩ := hq
  exact ⟨h.size,h.timer⟩

theorem armed_empty (h : c.retransmitLen = 0) : Armed c :=
  ⟨by omega,fun _ hl => by omega⟩

theorem armed_send (data : List UInt8) (h : Armed c) : Armed (tcpSend c data).1.conn := by
  by_cases hc : CanSend c
  · apply send_rule c data (fun _ a => Armed a.conn) hc h
    intro done chunk a _ hlen _
    rw [send_chunk a hlen]
    exact ⟨hlen,fun _ _ => by simp [keepChunk]⟩
  · rw [send_refused c data hc]
    exact h

theorem armed_wait (h : Armed c) : Armed (timeWaitTick c) := by
  unfold timeWaitTick
  generalize (if c.retransmitTimer = 0 then 200 else c.retransmitTimer)-1 = timer
  dsimp only
  split_ifs with hs ht
  · exact ⟨h.size,fun hu => by cases hu⟩
  · exact ⟨h.size,fun _ _ => Nat.pos_of_ne_zero ht⟩
  · exact h

theorem armed_tick (h : Armed c) : Armed (tickConn c).conn := by
  unfold tickConn
  split_ifs with hu
  · apply armed_wait
    by_cases hf : c.retransmitLen = 0 ∨ c.retransmitTimer ≠ 1
    · rw [retransmit_wait c hf]
      refine ⟨h.size,fun _ hl => ?_⟩
      have hl' : 0 < c.retransmitLen := hl
      have := h.timer hu hl'
      dsimp only
      rw [if_pos hl']
      omega
    · push Not at hf
      rw [retransmit_fire c (by omega) hf.2]
      split_ifs
      · rw [resend_conn]
        exact ⟨h.size,fun _ _ => by simp⟩
      · exact armed_empty _ rfl
  · exact h

theorem armed_receive (h : Armed c) : Armed (receiveConn c s).conn := by
  by_cases hf : c.state = .lastAck ∧ has s.flags tcpAck = true
  · rw [receive_freed c s hf.1 hf.2]
    exact ⟨h.size,fun hu => by cases hu⟩
  · have hh := handles_receive c s hf
    refine ⟨by rw [hh.sender.len]; exact h.size,?_⟩
    rw [hh.used, hh.sender.len, hh.sender.timer]
    exact h.timer

theorem armed_recv (len cur : ℕ) (fatal : Bool) (h : Armed c) :
    Armed (tcpRecv c len cur fatal).1 := by
  unfold tcpRecv
  split_ifs
  · exact h
  · exact ⟨h.size,h.timer⟩
  · exact h
  · exact ⟨h.size,h.timer⟩

theorem armed_close (h : Armed c) : Armed (tcpClose c).conn := by
  unfold tcpClose tcpSendSegment
  cases c.state with
  | established | closeWait => exact ⟨h.size,h.timer⟩
  | listen | synSent => exact ⟨h.size,fun hu => by cases hu⟩
  | closed | synReceived | finWait1 | finWait2 | lastAck | timeWait => exact h

theorem armed_act (e : Event) (h : Armed c) : Armed (act c e).conn := by
  cases e with
  | idle => exact h
  | connect | listen | syn => exact armed_empty _ rfl
  | send data => exact armed_send c data h
  | recv len cur fatal => exact armed_recv c len cur fatal h
  | close => exact armed_close c h
  | receive s => exact armed_receive c s h
  | tick => exact armed_tick c h

theorem reach_armed {ip : ℕ} {h : Host} (t : ℕ → Trace) (hr : Reach (fun _ _ => True) ip h t)
    (k : ℕ) : Armed (h.conns k) :=
  reach_rule (fun _ _ => True) (fun c _ => Armed c) (armed_empty _ rfl)
    (fun _ _ _ => armed_queued) (fun _ _ _ _ _ => armed_act _ _) t hr k

/-- Without a send no event makes such a connection fire. -/
def Safe : Prop :=
  (c.inUse = true → c.retransmitLen = 0) ∨
    c.state = .timeWait ∧ c.retransmitTimer % 2 = 0 ∧ 0 < c.retransmitTimer

theorem safe_silent (h : Safe c) : Silent c := by
  intro hu
  rw [retransmit_wait c (by
    rcases h with h | ⟨-,h⟩
    · exact Or.inl (h hu)
    · exact Or.inr (by omega))]
  exact ⟨rfl,rfl⟩

theorem safe_queued {c c' : Conn} (hq : Queued c c') (h : Safe c) : Safe c' := by
  obtain ⟨_,_,_,_,_,rfl⟩ := hq
  exact h

theorem safe_tick (h : Safe c) : Safe (tickConn c).conn := by
  unfold tickConn
  split_ifs with hu
  · rcases h with h | ⟨hs,he,hp⟩
    · left
      rw [retransmit_wait c (Or.inl (h hu))]
      unfold timeWaitTick
      dsimp only
      split_ifs
      all_goals exact fun _ => h hu
    · rw [retransmit_wait c (Or.inr (by omega))]
      unfold timeWaitTick
      dsimp only
      by_cases hl : 0 < c.retransmitLen
      · rw [if_pos hl, if_neg (show ¬c.retransmitTimer-1 = 0 by omega)]
        split_ifs
        · exact Or.inl (fun hc => by cases hc)
        · refine Or.inr ⟨hs,?_,?_⟩
          all_goals
            dsimp only
            omega
      · left
        split_ifs
        all_goals exact fun _ => by dsimp only; omega
  · exact h

theorem safe_receive (h : Safe c) : Safe (receiveConn c s).conn := by
  rcases h with h | ⟨hs,h⟩
  · left
    by_cases hf : c.state = .lastAck ∧ has s.flags tcpAck = true
    · rw [receive_freed c s hf.1 hf.2]
      exact fun hu => by cases hu
    · have hh := handles_receive c s hf
      rw [hh.used, hh.sender.len]
      exact h
  · right
    unfold receiveConn
    rw [hs]
    exact ⟨hs,h⟩

theorem safe_recv (len cur : ℕ) (fatal : Bool) (h : Safe c) :
    Safe (tcpRecv c len cur fatal).1 := by
  unfold tcpRecv
  split_ifs <;> exact h

theorem safe_step (h : Host) (op : Op) (k : ℕ) (hop : Leaves k op) (hs : Safe (h.conns k)) :
    Safe ((step h op).conns k) := by
  apply safe_queued (slot_step h op k)
  have hsrc := event_source h k op
  cases he : event h k op with
  | idle => exact hs
  | connect | listen | syn => exact Or.inl (fun _ => rfl)
  | recv len cur fatal => exact safe_recv _ len cur fatal hs
  | receive s => exact safe_receive _ s hs
  | tick => exact safe_tick _ hs
  | send data =>
    rw [he] at hsrc
    rw [show op = .send k data from hsrc] at hop
    exact absurd rfl hop
  | close =>
    rw [he] at hsrc
    rw [show op = .close k from hsrc] at hop
    exact absurd rfl hop

theorem safe_run (ops : List Op) (h : Host) (k : ℕ) (hops : ∀ op ∈ ops, Leaves k op)
    (hs : Safe (h.conns k)) : Safe ((run ops h).conns k) := by
  induction ops generalizing h with
  | nil => exact hs
  | cons op ops ih =>
    exact ih (step h op) (fun o ho => hops o (List.mem_cons_of_mem op ho))
      (safe_step h op k (hops op List.mem_cons_self) hs)

/-- The slot is full and the timer runs down to one before the entry goes. -/
structure Loud (c : Conn) : Prop where
  used : c.inUse = true
  armed : Armed c
  full : 0 < c.retransmitLen
  odd : c.state = .timeWait → c.retransmitTimer % 2 = 1

theorem loud_fires (h : Loud c) (ht : c.retransmitTimer = 1) : ¬Silent c := by
  intro hs
  have hout := (hs h.used).1
  rw [retransmit_fire c h.full ht] at hout
  split_ifs at hout
  · rw [resend_out { c with retransmitTimer := 0 } h.armed.size] at hout
    cases hout
  · cases hout

theorem loud_tick (h : Loud c) (ht : c.retransmitTimer ≠ 1) :
    Loud (tickConn c).conn ∧ (tickConn c).conn.retransmitTimer < c.retransmitTimer := by
  have hpos := h.armed.timer h.used h.full
  have harmed := armed_tick c h.armed
  have htick : (tickConn c).conn = timeWaitTick { c with retransmitTimer := c.retransmitTimer-1 } := by
    unfold tickConn
    rw [if_pos h.used, retransmit_wait c (Or.inr ht), if_pos h.full]
  rw [htick] at harmed ⊢
  by_cases hs : c.state = .timeWait
  · have hodd := h.odd hs
    rw [time_wait_count { c with retransmitTimer := c.retransmitTimer-1 } hs
      (show 1 < c.retransmitTimer-1 by omega)] at harmed ⊢
    refine ⟨⟨h.used,harmed,h.full,fun _ => ?_⟩,?_⟩
    all_goals
      dsimp only
      omega
  · rw [time_wait_other { c with retransmitTimer := c.retransmitTimer-1 } hs] at harmed ⊢
    exact ⟨⟨h.used,harmed,h.full,fun hc => absurd hc hs⟩,Nat.sub_lt hpos (by omega)⟩

theorem loud_run (k : ℕ) (hk : k < tcpMaxConns) (n : ℕ) (h : Host) (hl : Loud (h.conns k))
    (hn : (h.conns k).retransmitTimer ≤ n) :
    ∃ m, ¬Silent ((run (List.replicate m .tick) h).conns k) := by
  induction n generalizing h with
  | zero =>
    have := hl.armed.timer hl.used hl.full
    omega
  | succ n ih =>
    by_cases ht : (h.conns k).retransmitTimer = 1
    · exact ⟨0,loud_fires _ hl ht⟩
    · have hslot : (step h .tick).conns k = (tickConn (h.conns k)).conn := by
        change (tcpTick h).conns k = _
        rw [tcpTick, tick_slots, if_pos (by omega)]
      obtain ⟨hl',hlt⟩ := loud_tick _ hl ht
      obtain ⟨m,hm⟩ := ih (step h .tick) (by rw [hslot]; exact hl') (by rw [hslot]; omega)
      exact ⟨m+1,by rwa [List.replicate_succ, run_cons]⟩

theorem found_receive {h : Host} (now : ℕ) {p : Packet} {k : ℕ}
    (hf : findConnection h p.srcIp p.seg.srcPort p.seg.dstPort = some k) :
    Queued (receiveConn (h.conns k) p.seg).conn ((tcpReceive h now p).conns k) := by
  have hslot := receive_slot h now p k
  have hnew : freeSlot h ≠ some k := by
    intro hc
    have hused := (found_used h hf).2.1
    rw [(free_slot h k hc).2] at hused
    cases hused
  unfold receiveEvent at hslot
  rw [hf] at hslot
  dsimp only at hslot
  by_cases hl : (h.conns k).state = .listen
  · rw [if_pos hl, if_neg (fun hc => hnew hc.2)] at hslot
    rwa [receive_other _ _ (Or.inr (Or.inl hl))]
  · rwa [if_neg hl, if_pos rfl] at hslot

theorem receive_time_wait : (receiveConn c s).conn.state = .timeWait ↔
    c.state = .timeWait ∨ (c.state = .finWait1 ∨ c.state = .finWait2) ∧ has s.flags tcpFin = true := by
  rw [receive_state]
  cases c.state <;> unfold nextState <;> dsimp only <;> (try split_ifs) <;> simp_all

/-- The packet reaches entry `k` and acknowledges everything sent on it. -/
structure Acknowledges (h : Host) (p : Packet) (k : ℕ) : Prop where
  found : findConnection h p.srcIp p.seg.srcPort p.seg.dstPort = some k
  flag : has p.seg.flags tcpAck = true
  all : p.seg.ackNum = (h.conns k).sndNxt

theorem spared_safe (hu : c.inUse = true) (harm : Armed c)
    (hack : has s.flags tcpAck = true) (h : Spared c s) : Safe (receiveConn c s).conn := by
  by_cases hlast : c.state = .lastAck
  · rw [receive_freed c s hlast hack]
    exact Or.inl (fun hc => by cases hc)
  have hh := handles_receive c s (fun hc => hlast hc.1)
  by_cases hl : c.retransmitLen = 0
  · exact Or.inl (fun _ => hh.sender.len.trans hl)
  rcases h with h | h | ⟨hs,he⟩
  · exact absurd h hl
  · exact absurd h hlast
  · refine Or.inr ⟨(receive_time_wait c s).mpr hs,?_,?_⟩
    · rw [hh.sender.timer]
      exact he
    · rw [hh.sender.timer]
      exact harm.timer hu (Nat.pos_of_ne_zero hl)

theorem unspared_loud (hu : c.inUse = true) (harm : Armed c)
    (h : ¬Spared c s) : Loud (receiveConn c s).conn := by
  have hl : c.retransmitLen ≠ 0 := fun hc => h (Or.inl hc)
  have hh := handles_receive c s (fun hc => h (Or.inr (Or.inl hc.1)))
  refine ⟨hh.used.trans hu,armed_receive c s harm,?_,?_⟩
  · rw [hh.sender.len]
    exact Nat.pos_of_ne_zero hl
  · intro hs
    have hodd : c.retransmitTimer % 2 ≠ 0 :=
      fun hc => h (Or.inr (Or.inr ⟨(receive_time_wait c s).mp hs,hc⟩))
    exact hh.sender.timer ▸ Nat.mod_two_ne_zero.mp hodd

theorem loud_queued {c c' : Conn} (hq : Queued c c') (h : Loud c) : Loud c' := by
  have harm := armed_queued hq h.armed
  obtain ⟨_,_,_,_,_,rfl⟩ := hq
  exact ⟨h.used,harm,h.full,h.odd⟩

/-- A connection whose every byte is acknowledged stays silent exactly when
it is spared. -/
theorem acknowledged_silent (ip : ℕ) (h : Host) (t : ℕ → Trace)
    (hr : Reach (fun _ _ => True) ip h t) (now : ℕ) (p : Packet) (k : ℕ)
    (hp : Acknowledges h p k) :
    (∀ ops, (∀ op ∈ ops, Leaves k op) → Silent ((run ops (tcpReceive h now p)).conns k)) ↔
      Spared (h.conns k) p.seg := by
  obtain ⟨hk,hu,-⟩ := found_used h hp.found
  have harm := reach_armed t hr k
  have hq := found_receive now hp.found
  constructor
  · intro hsilent
    by_contra hns
    obtain ⟨m,hm⟩ := loud_run k hk _ (tcpReceive h now p)
      (loud_queued hq (unspared_loud _ _ hu harm hns)) (le_refl _)
    refine hm (hsilent _ ?_)
    intro op hop
    rw [List.eq_of_mem_replicate hop]
    trivial
  · intro hs ops hops
    exact safe_silent _ (safe_run ops _ k hops (safe_queued hq (spared_safe _ _ hu harm hp.flag hs)))

def server : Host := run serverOps (boot 1)

/-- As long as nothing was sent the timer is off. -/
theorem acknowledged_silent_server : Acknowledges server (ackPacket 2) 1 ∧
    ∀ ops, (∀ op ∈ ops, Leaves 1 op) →
      Silent ((run ops (tcpReceive server 0 (ackPacket 2))).conns 1) := by
  have hack : Acknowledges server (ackPacket 2) 1 := ⟨by decide,by decide,by decide⟩
  have hreach := reach_run _ 1 serverOps _ _ .start (all_free _ _)
  exact ⟨hack,(acknowledged_silent 1 server _ hreach 0 _ 1 hack).mpr (Or.inl rfl)⟩

def served : Host := run (serverOps++[.send 1 [97]]) (boot 1)

theorem served_reach : ∃ t, Reach (fun _ _ => True) 1 served t :=
  ⟨_,reach_run _ 1 _ _ _ .start (all_free _ _)⟩

/-- The byte is acknowledged, and ticks alone make the timer run out. -/
theorem acknowledged_byte_resent : (∃ t, Reach (fun _ _ => True) 1 served t) ∧
    Acknowledges served (ackPacket 3) 1 ∧
    ∃ m, ¬Silent ((run (List.replicate m .tick) (tcpReceive served 0 (ackPacket 3))).conns 1) := by
  obtain ⟨t,ht⟩ := served_reach
  have hack : Acknowledges served (ackPacket 3) 1 := ⟨by decide,by decide,by decide⟩
  have hspared : ¬Spared (served.conns 1) (ackPacket 3).seg := by
    unfold Spared
    decide
  have hloud := unspared_loud _ _ (by decide) (reach_armed t ht 1) hspared
  exact ⟨⟨t,ht⟩,hack,loud_run 1 (by decide) _ _
    (loud_queued (found_receive 0 hack.found) hloud) (le_refl _)⟩

end HobbyOS.TcpTimer
