import HobbyOS.Tcp

/-!
# The TCP table, entry by entry

Every call and every packet acts on each entry of the table as at most one
event of that connection; beside it only the accept queue of a listener can
change. What holds of a connection through its events therefore holds in the
table, and every packet that leaves was sent by one of the events.
-/

namespace HobbyOS.TcpEvents
open BoundedLoop Tcp Function

inductive Op where
  | connect (dstIp dstPort srcPort now cur : ℕ)
  | listen (port : ℕ)
  | accept (i cur : ℕ) (fatal : Bool)
  | send (i : ℕ) (data : List UInt8)
  | recv (i len cur : ℕ) (fatal : Bool)
  | close (i : ℕ)
  | receive (now : ℕ) (p : Packet)
  | tick

def step (h : Host) : Op → Host
  | .connect dstIp dstPort srcPort now cur => openConnect h dstIp dstPort srcPort now cur
  | .listen port => openListen h port
  | .accept i cur fatal => commit h i { conn := (tcpAccept (h.conns i) cur fatal).1 }
  | .send i data => commit h i (tcpSend (h.conns i) data).1
  | .recv i len cur fatal => commit h i { conn := (tcpRecv (h.conns i) len cur fatal).1 }
  | .close i => commit h i (tcpClose (h.conns i))
  | .receive now p => tcpReceive h now p
  | .tick => tcpTick h

inductive Event where
  | idle
  | connect (ip dstIp dstPort srcPort now cur : ℕ)
  | listen (ip port : ℕ)
  | syn (ip port parent now : ℕ) (p : Packet)
  | send (data : List UInt8)
  | recv (len cur : ℕ) (fatal : Bool)
  | close
  | receive (s : Segment)
  | tick

/-- A connection that begins takes the place of whatever was in the entry. -/
def act (c : Conn) : Event → Act
  | .idle => { conn := c }
  | .connect ip dstIp dstPort srcPort now cur => tcpConnect fresh ip dstIp dstPort srcPort now cur
  | .listen ip port => { conn := tcpListen fresh ip port }
  | .syn ip port parent now p => synReceived fresh ip port parent now p
  | .send data => (tcpSend c data).1
  | .recv len cur fatal => { conn := (tcpRecv c len cur fatal).1 }
  | .close => tcpClose c
  | .receive s => receiveConn c s
  | .tick => tickConn c

def receiveEvent (h : Host) (now : ℕ) (p : Packet) (k : ℕ) : Event :=
  match findConnection h p.srcIp p.seg.srcPort p.seg.dstPort with
  | none => .idle
  | some i =>
    if (h.conns i).state = .listen then
      if has p.seg.flags tcpSyn = true ∧ freeSlot h = some k then
        .syn h.ip (h.conns i).localPort i now p
      else .idle
    else if i = k then .receive p.seg else .idle

def event (h : Host) (k : ℕ) : Op → Event
  | .connect dstIp dstPort srcPort now cur =>
    if freeSlot h = some k then .connect h.ip dstIp dstPort srcPort now cur else .idle
  | .listen port => if freeSlot h = some k then .listen h.ip port else .idle
  | .accept _ _ _ => .idle
  | .send i data => if i = k then .send data else .idle
  | .recv i len cur fatal => if i = k then .recv len cur fatal else .idle
  | .close i => if i = k then .close else .idle
  | .receive now p => receiveEvent h now p k
  | .tick => if k < tcpMaxConns then .tick else .idle

variable (c : Conn) (h : Host) (now i k : ℕ) (a : Act) (op : Op) (ops : List Op) (p : Packet)

theorem receive_event (k : ℕ) :
    receiveEvent h now p k = .idle ∨
      (∃ i, findConnection h p.srcIp p.seg.srcPort p.seg.dstPort = some i ∧
        (h.conns i).state = .listen ∧ has p.seg.flags tcpSyn = true ∧ freeSlot h = some k ∧
        receiveEvent h now p k = .syn h.ip (h.conns i).localPort i now p) ∨
      findConnection h p.srcIp p.seg.srcPort p.seg.dstPort = some k ∧
        (h.conns k).state ≠ .listen ∧ receiveEvent h now p k = .receive p.seg := by
  unfold receiveEvent
  cases hf : findConnection h p.srcIp p.seg.srcPort p.seg.dstPort with
  | none => exact Or.inl rfl
  | some i =>
    dsimp only
    split_ifs with hl hs hk
    · exact Or.inr (Or.inl ⟨i,rfl,hl,hs.1,hs.2,rfl⟩)
    · exact Or.inl rfl
    · exact Or.inr (Or.inr ⟨by rw [hk],by rwa [← hk],rfl⟩)
    · exact Or.inl rfl

def Source (h : Host) (k : ℕ) (op : Op) : Event → Prop
  | .idle => True
  | .connect ip dstIp dstPort srcPort now cur =>
    op = .connect dstIp dstPort srcPort now cur ∧ ip = h.ip ∧ freeSlot h = some k
  | .listen ip port => op = .listen port ∧ ip = h.ip ∧ freeSlot h = some k
  | .syn ip port parent now p => op = .receive now p ∧ ip = h.ip ∧ freeSlot h = some k ∧
      findConnection h p.srcIp p.seg.srcPort p.seg.dstPort = some parent ∧
      (h.conns parent).state = .listen ∧ port = (h.conns parent).localPort ∧
      has p.seg.flags tcpSyn = true
  | .send data => op = .send k data
  | .recv len cur fatal => op = .recv k len cur fatal
  | .close => op = .close k
  | .receive s => ∃ now p, op = .receive now p ∧ s = p.seg ∧
      findConnection h p.srcIp p.seg.srcPort p.seg.dstPort = some k ∧ (h.conns k).state ≠ .listen
  | .tick => op = .tick ∧ k < tcpMaxConns

theorem event_source : Source h k op (event h k op) := by
  cases op with
  | connect | listen =>
    simp only [event]
    split_ifs with hf
    · exact ⟨rfl,rfl,hf⟩
    · trivial
  | accept i cur fatal => trivial
  | send | recv | close =>
    simp only [event]
    split_ifs with hk
    · rw [hk]
      rfl
    · trivial
  | receive now p =>
    change Source h k _ (receiveEvent h now p k)
    unfold receiveEvent
    cases hf : findConnection h p.srcIp p.seg.srcPort p.seg.dstPort with
    | none => trivial
    | some i =>
      dsimp only
      split_ifs with hl hs hk
      · exact ⟨rfl,rfl,hs.2,hf,hl,rfl,hs.1⟩
      · trivial
      · exact ⟨now,p,rfl,rfl,by rw [hf, hk],by rwa [← hk]⟩
      · trivial
  | tick =>
    simp only [event]
    split_ifs with hk
    · exact ⟨rfl,hk⟩
    · trivial

def Queued (c c' : Conn) : Prop :=
  ∃ queue hd tl n w, c' = { c with
    acceptQueue := queue
    acceptHead := hd
    acceptTail := tl
    acceptCount := n
    blockedAccepter := w }

theorem queued_refl : Queued c c := ⟨_,_,_,_,_,rfl⟩

theorem accept_queued (cur : ℕ) (fatal : Bool) : Queued c (tcpAccept c cur fatal).1 := by
  unfold tcpAccept
  split_ifs <;> exact ⟨_,_,_,_,_,rfl⟩

theorem enqueue_queued : Queued c (enqueue c i).conn := by
  unfold enqueue
  split_ifs <;> exact ⟨_,_,_,_,_,rfl⟩

theorem enqueue_out : (enqueue c i).out = [] := by
  unfold enqueue
  split_ifs <;> rfl

theorem commit_same : (commit h i a).conns i = a.conn :=
  update_self _ _ _

theorem commit_other (hk : k ≠ i) : (commit h i a).conns k = h.conns k :=
  update_of_ne hk _ _

theorem free_slot (hf : freeSlot h = some i) : i < tcpMaxConns ∧ (h.conns i).inUse = false :=
  ⟨List.mem_range.mp (List.mem_of_find?_eq_some hf),by simpa using List.find?_some hf⟩

theorem found_used {srcIp srcPort dstPort i : ℕ} (hf : findConnection h srcIp srcPort dstPort = some i) :
    i < tcpMaxConns ∧ (h.conns i).inUse = true ∧
      (Peer (h.conns i) srcIp srcPort dstPort ∨ Listens (h.conns i) dstPort ∧
        ∀ k < tcpMaxConns, ¬Peer (h.conns k) srcIp srcPort dstPort) := by
  rcases Option.or_eq_some_iff.mp hf with h1 | ⟨h1,h2⟩
  · have hp : Peer (h.conns i) srcIp srcPort dstPort := by simpa using List.find?_some h1
    exact ⟨List.mem_range.mp (List.mem_of_find?_eq_some h1),hp.1,Or.inl hp⟩
  · have hl : Listens (h.conns i) dstPort := by simpa using List.find?_some h2
    refine ⟨List.mem_range.mp (List.mem_of_find?_eq_some h2),hl.1,Or.inr ⟨hl,?_⟩⟩
    intro k hk
    have := List.find?_eq_none.mp h1 k (List.mem_range.mpr hk)
    simpa using this

/-- Allocation and the first use of the entry together. -/
def openWith (h : Host) (a : Act) : Host :=
  match freeSlot h with
  | none => h
  | some i => commit (commit h i { conn := fresh }) i a

theorem open_connect (dstIp dstPort srcPort now cur : ℕ) :
    openConnect h dstIp dstPort srcPort now cur =
      openWith h (tcpConnect fresh h.ip dstIp dstPort srcPort now cur) := by
  unfold openConnect tcpAllocConn openWith
  cases freeSlot h with
  | none => rfl
  | some i =>
    dsimp only
    rw [commit_same]
    rfl

theorem open_listen (port : ℕ) : openListen h port = openWith h { conn := tcpListen fresh h.ip port } := by
  unfold openListen tcpAllocConn openWith
  cases freeSlot h with
  | none => rfl
  | some i =>
    dsimp only
    rw [commit_same]
    rfl

theorem receive_syn (parent now : ℕ) (p : Packet) (hp : (h.conns parent).inUse = true) :
    receiveSyn h parent now p =
      openWith h (synReceived fresh h.ip (h.conns parent).localPort parent now p) := by
  unfold receiveSyn tcpAllocConn openWith
  cases hf : freeSlot h with
  | none => rfl
  | some i =>
    have hne : parent ≠ i := by
      rintro rfl
      rw [(free_slot h parent hf).2] at hp
      cases hp
    dsimp only
    rw [commit_same, commit_other _ _ _ _ hne]
    rfl

theorem open_slot (e : Event) (k : ℕ) (he : act (h.conns k) e = a) :
    (openWith h a).conns k =
      (act (h.conns k) (if freeSlot h = some k then e else .idle)).conn := by
  unfold openWith
  cases hf : freeSlot h with
  | none => rfl
  | some i =>
    by_cases hk : i = k
    · subst hk
      rw [if_pos rfl, commit_same, he]
    · rw [if_neg (fun hc => hk (Option.some.inj hc)), commit_other _ _ _ _ (Ne.symm hk),
        commit_other _ _ _ _ (Ne.symm hk)]
      rfl

theorem tick_slots (i n : ℕ) :
    (iterate (fun i h => commit h i (tickConn (h.conns i))) i n h).conns k =
      if i ≤ k ∧ k < i+n then (tickConn (h.conns k)).conn else h.conns k := by
  induction n generalizing i h with
  | zero => rw [if_neg (by omega)]; rfl
  | succ n ih =>
    rw [iterate, ih]
    by_cases hk : k = i
    · rw [if_neg (by omega), if_pos (by omega), hk, commit_same]
    · rw [commit_other _ _ _ _ hk]
      by_cases hin : i+1 ≤ k ∧ k < i+1+n
      · rw [if_pos hin, if_pos (by omega)]
      · rw [if_neg hin, if_neg (by omega)]

theorem queue_accepted : Queued (h.conns k) ((queueAccepted h i).conns k) := by
  unfold queueAccepted
  cases (h.conns i).parentIdx with
  | none => exact queued_refl _
  | some parent =>
    by_cases hk : k = parent
    · subst hk
      rw [commit_same]
      exact enqueue_queued _ _
    · rw [commit_other _ _ _ _ hk]
      exact queued_refl _

theorem receive_slot (k : ℕ) :
    Queued (act (h.conns k) (receiveEvent h now p k)).conn ((tcpReceive h now p).conns k) := by
  unfold tcpReceive receiveEvent
  cases hf : findConnection h p.srcIp p.seg.srcPort p.seg.dstPort with
  | none => exact queued_refl _
  | some i =>
    have hused := (found_used h hf).2.1
    dsimp only
    by_cases hl : (h.conns i).state = .listen
    · rw [if_pos hl, if_pos hl]
      by_cases hs : has p.seg.flags tcpSyn = true
      · rw [if_pos hs, receive_syn h i now p hused]
        rw [open_slot h (synReceived fresh h.ip (h.conns i).localPort i now p)
          (.syn h.ip (h.conns i).localPort i now p) k rfl]
        simp only [hs, true_and]
        exact queued_refl _
      · rw [if_neg hs, if_neg (fun hc => hs hc.1)]
        exact queued_refl _
    · rw [if_neg hl]
      have hone : (commit h i (receiveConn (h.conns i) p.seg)).conns k =
          (act (h.conns k) (if i = k then .receive p.seg else .idle)).conn := by
        by_cases hk : i = k
        · rw [if_pos hk, ← hk, commit_same]
          rfl
        · rw [if_neg hk, commit_other _ _ _ _ (Ne.symm hk)]
          rfl
      rw [← hone]
      split_ifs
      · exact queue_accepted _ _ _
      · exact queued_refl _

theorem slot_step (k : ℕ) : Queued (act (h.conns k) (event h k op)).conn ((step h op).conns k) := by
  have hset : ∀ (i : ℕ) (a : Act) (e : Event), (act (h.conns i) e).conn = a.conn →
      (commit h i a).conns k = (act (h.conns k) (if i = k then e else .idle)).conn := by
    intro i a e he
    by_cases hk : i = k
    · subst hk
      rw [if_pos rfl, commit_same, he]
    · rw [if_neg hk, commit_other _ _ _ _ (Ne.symm hk)]
      rfl
  cases op with
  | connect dstIp dstPort srcPort now cur =>
    change Queued _ ((openConnect h dstIp dstPort srcPort now cur).conns k)
    rw [open_connect, open_slot h (tcpConnect fresh h.ip dstIp dstPort srcPort now cur)
      (.connect h.ip dstIp dstPort srcPort now cur) k rfl]
    exact queued_refl _
  | listen port =>
    change Queued _ ((openListen h port).conns k)
    rw [open_listen, open_slot h { conn := tcpListen fresh h.ip port } (.listen h.ip port) k rfl]
    exact queued_refl _
  | accept i cur fatal =>
    change Queued (h.conns k) ((commit h i _).conns k)
    by_cases hk : k = i
    · rw [hk, commit_same]
      exact accept_queued _ _ _
    · rw [commit_other _ _ _ _ hk]
      exact queued_refl _
  | send i data => exact (hset i _ (.send data) rfl) ▸ queued_refl _
  | recv i len cur fatal => exact (hset i _ (.recv len cur fatal) rfl) ▸ queued_refl _
  | close i => exact (hset i _ .close rfl) ▸ queued_refl _
  | receive now p => exact receive_slot h now p k
  | tick =>
    change Queued (act _ (if k < tcpMaxConns then .tick else .idle)).conn ((tcpTick h).conns k)
    rw [tcpTick, tick_slots]
    by_cases hk : k < tcpMaxConns
    · rw [if_pos hk, if_pos (by omega)]
      exact queued_refl _
    · rw [if_neg hk, if_neg (by omega)]
      exact queued_refl _

def SentBy (h : Host) (op : Op) (p : Packet) : Prop :=
  p.srcIp = h.ip ∧ ∃ k, p.dstIp = (act (h.conns k) (event h k op)).conn.remoteIp ∧
    p.seg ∈ (act (h.conns k) (event h k op)).out

theorem commit_sent :
    p ∈ (commit h i a).sent ↔
      p ∈ h.sent ∨ p.srcIp = h.ip ∧ p.dstIp = a.conn.remoteIp ∧ p.seg ∈ a.out := by
  unfold commit
  simp only [List.mem_append, List.mem_map]
  constructor
  · rintro (hp | ⟨s,hs,rfl⟩)
    · exact Or.inl hp
    · exact Or.inr ⟨rfl,rfl,hs⟩
  · rintro (hp | ⟨h1,h2,h3⟩)
    · exact Or.inl hp
    · exact Or.inr ⟨p.seg,h3,by rw [← h1, ← h2]⟩

theorem open_sent (e : Event) (p : Packet) (he : ∀ c, act c e = a) (hp : p ∈ (openWith h a).sent) : p ∈ h.sent ∨ p.srcIp = h.ip ∧ ∃ k, freeSlot h = some k ∧
      p.dstIp = (act (h.conns k) e).conn.remoteIp ∧ p.seg ∈ (act (h.conns k) e).out := by
  unfold openWith at hp
  cases hf : freeSlot h with
  | none => exact Or.inl (by rwa [hf] at hp)
  | some i =>
    rw [hf] at hp
    rcases (commit_sent _ i a p).mp hp with hp | ⟨h1,h2,h3⟩
    · rcases (commit_sent h i { conn := fresh } p).mp hp with hp | ⟨-,-,hp⟩
      · exact Or.inl hp
      · cases hp
    · refine Or.inr ⟨h1,i,rfl,?_⟩
      rw [he]
      exact ⟨h2,h3⟩

theorem set_sent {h : Host} {op : Op} {i : ℕ} {a : Act} {p : Packet}
    (he : act (h.conns i) (event h i op) = a) (hp : p ∈ (commit h i a).sent) :
    p ∈ h.sent ∨ SentBy h op p := by
  rcases (commit_sent h i a p).mp hp with hp | ⟨h1,h2,h3⟩
  · exact Or.inl hp
  · refine Or.inr ⟨h1,i,?_⟩
    rw [he]
    exact ⟨h2,h3⟩

theorem tick_sent {h : Host} {i n : ℕ} {p : Packet}
    (hp : p ∈ (iterate (fun i h => commit h i (tickConn (h.conns i))) i n h).sent) :
    p ∈ h.sent ∨ p.srcIp = h.ip ∧ ∃ k < i+n, p.dstIp = (tickConn (h.conns k)).conn.remoteIp ∧
      p.seg ∈ (tickConn (h.conns k)).out := by
  have hrun := iterate_rule (fun i h => commit h i (tickConn (h.conns i)))
    (fun k x => x.ip = h.ip ∧ (∀ j, k ≤ j → x.conns j = h.conns j) ∧
      ∀ p ∈ x.sent, p ∈ h.sent ∨ p.srcIp = h.ip ∧ ∃ j < k,
        p.dstIp = (tickConn (h.conns j)).conn.remoteIp ∧ p.seg ∈ (tickConn (h.conns j)).out)
    i n h ⟨rfl,fun _ _ => rfl,fun _ hp => Or.inl hp⟩ ?_
  · exact hrun.2.2 p hp
  rintro k x - - ⟨hip,hrest,hsent⟩
  refine ⟨hip,?_,?_⟩
  · intro j hj
    rw [commit_other _ _ _ _ (by omega), hrest j (by omega)]
  · intro q hq
    rcases (commit_sent x k _ q).mp hq with hq | ⟨h1,h2,h3⟩
    · rcases hsent q hq with hq | ⟨h1,j,hj,h2⟩
      · exact Or.inl hq
      · exact Or.inr ⟨h1,j,by omega,h2⟩
    · rw [hrest k (le_refl k)] at h2 h3
      exact Or.inr ⟨h1.trans hip,k,by omega,h2,h3⟩

theorem queue_sent {h : Host} {i : ℕ} {p : Packet} (hp : p ∈ (queueAccepted h i).sent) :
    p ∈ h.sent := by
  unfold queueAccepted at hp
  cases hparent : (h.conns i).parentIdx with
  | none => rwa [hparent] at hp
  | some parent =>
    rw [hparent] at hp
    rcases (commit_sent h parent _ p).mp hp with hp | ⟨-,-,hp⟩
    · exact hp
    · rw [enqueue_out] at hp
      cases hp

theorem receive_sent {h : Host} {now : ℕ} {q p : Packet} (hp : p ∈ (tcpReceive h now q).sent) :
    p ∈ h.sent ∨ SentBy h (.receive now q) p := by
  unfold tcpReceive at hp
  cases hf : findConnection h q.srcIp q.seg.srcPort q.seg.dstPort with
  | none => exact Or.inl (by rwa [hf] at hp)
  | some i =>
    rw [hf] at hp
    dsimp only at hp
    by_cases hl : (h.conns i).state = .listen
    · rw [if_pos hl] at hp
      by_cases hs : has q.seg.flags tcpSyn = true
      · rw [if_pos hs, receive_syn h i now q (found_used h hf).2.1] at hp
        rcases open_sent h _ (.syn h.ip (h.conns i).localPort i now q) p (fun _ => rfl) hp with
          hp | ⟨h1,k,hk,h2⟩
        · exact Or.inl hp
        · refine Or.inr ⟨h1,k,?_⟩
          have he : event h k (.receive now q) = .syn h.ip (h.conns i).localPort i now q := by
            simp only [event, receiveEvent, hf, if_pos hl, hs, hk, and_self, if_true]
          rw [he]
          exact h2
      · rw [if_neg hs] at hp
        exact Or.inl hp
    · have hp' : p ∈ (commit h i (receiveConn (h.conns i) q.seg)).sent := by
        split_ifs at hp
        · exact queue_sent hp
        · exact hp
      apply set_sent _ hp'
      simp only [event, receiveEvent, hf, if_neg hl]
      rfl

theorem sent_step (hp : p ∈ (step h op).sent) : p ∈ h.sent ∨ SentBy h op p := by
  cases op with
  | connect dstIp dstPort srcPort now cur =>
    change p ∈ (openConnect h dstIp dstPort srcPort now cur).sent at hp
    rw [open_connect] at hp
    rcases open_sent h _ (.connect h.ip dstIp dstPort srcPort now cur) p (fun _ => rfl) hp with
      hp | ⟨h1,k,hk,h2⟩
    · exact Or.inl hp
    · refine Or.inr ⟨h1,k,?_⟩
      rw [event, if_pos hk]
      exact h2
  | listen port =>
    change p ∈ (openListen h port).sent at hp
    rw [open_listen] at hp
    rcases open_sent h _ (.listen h.ip port) p (fun _ => rfl) hp with hp | ⟨-,k,-,-,hno⟩
    · exact Or.inl hp
    · cases hno
  | accept i cur fatal =>
    rcases (commit_sent h i _ p).mp hp with hp | ⟨-,-,hp⟩
    · exact Or.inl hp
    · cases hp
  | send | recv | close => exact set_sent (by rw [event, if_pos rfl]; rfl) hp
  | receive now q => exact receive_sent hp
  | tick =>
    rcases tick_sent hp with hp | ⟨h1,k,hk,h2⟩
    · exact Or.inl hp
    · refine Or.inr ⟨h1,k,?_⟩
      rw [event, if_pos (by omega)]
      exact h2

theorem sent_kept (hp : p ∈ h.sent) : p ∈ (step h op).sent := by
  have hset : ∀ (g : Host) i a, p ∈ g.sent → p ∈ (commit g i a).sent :=
    fun g i a hg => (commit_sent g i a p).mpr (Or.inl hg)
  have hopen : ∀ a, p ∈ (openWith h a).sent := by
    intro a
    unfold openWith
    cases freeSlot h with
    | none => exact hp
    | some i => exact hset _ i a (hset h i _ hp)
  have hqueue : ∀ (g : Host) i, p ∈ g.sent → p ∈ (queueAccepted g i).sent := by
    intro g i hg
    unfold queueAccepted
    cases (g.conns i).parentIdx with
    | none => exact hg
    | some parent => exact hset g parent _ hg
  cases op with
  | connect dstIp dstPort srcPort now cur => rw [step, open_connect]; exact hopen _
  | listen port => rw [step, open_listen]; exact hopen _
  | accept i | send i | recv i | close i => exact hset h i _ hp
  | receive now q =>
    change p ∈ (tcpReceive h now q).sent
    unfold tcpReceive
    cases hf : findConnection h q.srcIp q.seg.srcPort q.seg.dstPort with
    | none => exact hp
    | some i =>
      dsimp only
      split_ifs
      · rw [receive_syn h i now q (found_used h hf).2.1]
        exact hopen _
      · exact hp
      · exact hqueue _ i (hset h i _ hp)
      · exact hset h i _ hp
  | tick =>
    exact iterate_rule (fun i h => commit h i (tickConn (h.conns i))) (fun _ x => p ∈ x.sent)
      0 tcpMaxConns h hp (fun j x _ _ hx => hset x j _ hx)

theorem begin_sent {k : ℕ} {o : Segment} (hf : freeSlot h = some k) (ho : o ∈ a.out) : ⟨h.ip,a.conn.remoteIp,o⟩ ∈ (openWith h a).sent := by
  unfold openWith
  rw [hf]
  exact (commit_sent _ k a _).mpr (Or.inr ⟨rfl,rfl,ho⟩)

theorem syn_sent {k ip port parent : ℕ} {o : Segment} (he : event h k (.receive now p) = .syn ip port parent now p)
    (ho : o ∈ (synReceived fresh ip port parent now p).out) : ⟨h.ip,p.srcIp,o⟩ ∈ (step h (.receive now p)).sent := by
  have hsrc := event_source h k (.receive now p)
  rw [he] at hsrc
  obtain ⟨-,rfl,hfree,hf,hl,rfl,hs⟩ := hsrc
  change _ ∈ (tcpReceive h now p).sent
  unfold tcpReceive
  rw [hf]
  dsimp only
  rw [if_pos hl, if_pos hs, receive_syn h parent now p (found_used h hf).2.1]
  exact begin_sent h _ hfree ho

theorem open_ip : (openWith h a).ip = h.ip := by
  unfold openWith
  cases freeSlot h <;> rfl

theorem queue_ip : (queueAccepted h i).ip = h.ip := by
  unfold queueAccepted
  cases (h.conns i).parentIdx <;> rfl

theorem step_ip : (step h op).ip = h.ip := by
  cases op with
  | connect dstIp dstPort srcPort now cur =>
    rw [step, open_connect, open_ip]
  | listen port => rw [step, open_listen, open_ip]
  | receive now p =>
    change (tcpReceive h now p).ip = h.ip
    unfold tcpReceive
    cases hf : findConnection h p.srcIp p.seg.srcPort p.seg.dstPort with
    | none => rfl
    | some i =>
      dsimp only
      split_ifs
      · rw [receive_syn h i now p (found_used h hf).2.1, open_ip]
      · rfl
      · rw [queue_ip]
        rfl
      · rfl
  | tick =>
    exact iterate_rule (fun i h => commit h i (tickConn (h.conns i))) (fun _ x => x.ip = h.ip)
      0 tcpMaxConns h rfl (fun _ _ _ _ hx => hx)
  | accept | send | recv | close => rfl

/-- What a connection has taken from its writers and given to its readers
since it began, the sequence number of its first byte, and whether a FIN
ended the incoming stream. -/
structure Trace where
  accepted : List UInt8 := []
  returned : List UInt8 := []
  first : Seq := 0
  finTaken : Bool := false

def gotten : Received → List UInt8
  | .got data => data
  | _ => []

def record (t : Trace) (c : Conn) : Event → Trace
  | .idle => t
  | .connect ip dstIp dstPort srcPort now cur =>
    { first := (tcpConnect fresh ip dstIp dstPort srcPort now cur).conn.sndNxt }
  | .listen _ _ => {}
  | .syn ip port parent now p => { first := (synReceived fresh ip port parent now p).conn.sndNxt }
  | .send data => if (tcpSend c data).2 then { t with accepted := t.accepted++data } else t
  | .recv len cur fatal =>
    { t with returned := t.returned++gotten (tcpRecv c len cur fatal).2 }
  | .close => t
  | .receive s =>
    if c.state = .established ∧ has s.flags tcpFin = true then { t with finTaken := true } else t
  | .tick => t

def track (h : Host) (t : ℕ → Trace) (op : Op) : ℕ → Trace :=
  fun k => record (t k) (h.conns k) (event h k op)

def boot (ip : ℕ) : Host where
  ip := ip
  conns := fun _ => {}
  sent := []
  woken := []

inductive Reach (Ok : Host → Op → Prop) (ip : ℕ) : Host → (ℕ → Trace) → Prop where
  | start : Reach Ok ip (boot ip) (fun _ => {})
  | step (h : Host) (t : ℕ → Trace) (op : Op) (hr : Reach Ok ip h t) (hop : Ok h op) :
      Reach Ok ip (step h op) (track h t op)

/-- A property of an entry and its history holds in every run if it holds of
an unused entry, every allowed event keeps it and the accept queue does not
matter. -/
theorem reach_rule (Ok : Host → Op → Prop) {ip : ℕ} (P : Conn → Trace → Prop)
    (h0 : P {} {}) (hq : ∀ c c' t, Queued c c' → P c t → P c' t)
    (hstep : ∀ h op k t, Ok h op → P (h.conns k) t →
      P (act (h.conns k) (event h k op)).conn (record t (h.conns k) (event h k op)))
    {h : Host} (t : ℕ → Trace) (hr : Reach Ok ip h t) (k : ℕ) : P (h.conns k) (t k) := by
  induction hr generalizing k with
  | start => exact h0
  | step h t op _ hop ih => exact hq _ _ _ (slot_step h op k) (hstep h op k (t k) hop (ih k))

def run (ops : List Op) (h : Host) : Host := ops.foldl step h

theorem run_cons (h : Host) : run (op::ops) h = run ops (step h op) := rfl

def history : List Op → Host → (ℕ → Trace) → ℕ → Trace
  | [], _, t => t
  | op::ops, h, t => history ops (step h op) (track h t op)

def AllOk (Ok : Host → Op → Prop) : List Op → Host → Prop
  | [], _ => True
  | op::ops, h => Ok h op ∧ AllOk Ok ops (step h op)

theorem reach_run (Ok : Host → Op → Prop) (ip : ℕ) (ops : List Op) (h : Host) (t : ℕ → Trace)
    (hr : Reach Ok ip h t) (hok : AllOk Ok ops h) :
    Reach Ok ip (run ops h) (history ops h t) := by
  induction ops generalizing h t with
  | nil => exact hr
  | cons op ops ih => exact ih (step h op) (track h t op) (.step h t op hr hok.1) hok.2

theorem all_free (h : Host) : AllOk (fun _ _ => True) ops h := by
  induction ops generalizing h with
  | nil => trivial
  | cons op ops ih => exact ⟨trivial,ih (step h op)⟩

/-- A listener and a client that connects to it, with the numbers of a host
whose clock is at zero. -/
def synPacket : Packet := ⟨2,1,⟨4000,80,100,0,tcpSyn,[]⟩⟩

def ackPacket (ack : Seq) : Packet := ⟨2,1,⟨4000,80,101,ack,tcpAck,[]⟩⟩

def serverOps : List Op := [.listen 80,.receive 0 synPacket,.receive 0 (ackPacket 2)]

end HobbyOS.TcpEvents
