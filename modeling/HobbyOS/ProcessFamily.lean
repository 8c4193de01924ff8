import HobbyOS.ReadyQueue

/-!
# Parents and children across the steps of the kernel

Pids are handed out in order, so a pid names one slot. Most steps end nobody
and give nobody another parent; this module says which, and what the end of a
process does to its parent.
-/

namespace HobbyOS.ProcessFamily
open Process Scheduler KernelFrame ReadyQueue Function

variable (k : Kernel) (d : Call) (i p c : ℕ)

/-- Pids are handed out in order. -/
structure Known (k : Kernel) : Prop where
  range : ∀ i, (k.table i).pid ≠ 0 → i < maxProcesses ∧ (k.table i).pid < k.nextPid
  unique : ∀ i j, (k.table i).pid ≠ 0 → (k.table i).pid = (k.table j).pid → i = j

theorem known_congr {k k' : Kernel} (h : Known k) (hp : ∀ i, (k'.table i).pid = (k.table i).pid)
    (hn : k'.nextPid = k.nextPid) : Known k' := by
  refine ⟨fun i => ?_,fun i j => ?_⟩
  · rw [hp, hn]
    exact h.range i
  · rw [hp, hp]
    exact h.unique i j

theorem known_settled {k k' : Kernel} (h : Settled k k') (hK : Known k) : Known k' :=
  known_congr hK (settled_pid h) h.nextPid

theorem known_found (h : Known k) (hp : (k.table i).pid ≠ 0) (hu : (k.table i).state ≠ .unused) :
    processGetByPid k.table (k.table i).pid = some i :=
  get_by_pid_unique (h.range i hp).1 hu fun j _ _ hj =>
    h.unique j i (by rwa [hj]) hj

theorem boot_known : Known boot := by
  refine ⟨fun i => ?_,fun i j => ?_⟩ <;> simp only [boot]
  · split_ifs with hi
    · exact fun _ => ⟨hi ▸ (by decide),by decide⟩
    · exact fun h0 => absurd rfl h0
  · split_ifs with hi hj
    · exact fun _ _ => hi.trans hj.symm
    · exact fun _ he => by cases he
    · exact fun h0 => absurd rfl h0
    · exact fun h0 => absurd rfl h0

theorem living_iff {x : Proc} :
    Living x ↔ x.state ≠ .unused ∧ x.state ≠ .terminated ∧ x.state ≠ .zombie := by
  unfold Living
  cases hx : x.state <;> simp

theorem living_used {x : Proc} (h : Living x) : x.state ≠ .unused := (living_iff.mp h).1

theorem blocked_used {x : Proc} (h : x.state = .blocked) : x.state ≠ .unused :=
  living_used (.inr (.inr h))

/-- Nobody ends or gets another parent. -/
structure Kin (k k' : Kernel) : Prop where
  same : ∀ j, (k.table j).state ≠ .unused →
    (k'.table j).pid = (k.table j).pid ∧ (k'.table j).ppid = (k.table j).ppid
  zombie : ∀ j, (k'.table j).state = .zombie → (k.table j).state = .zombie
  living : ∀ j, Living (k.table j) → Living (k'.table j)

/-- Besides, nobody falls asleep and no wait for a child begins. -/
structure Mild (k k' : Kernel) : Prop extends Kin k k' where
  blocked : ∀ i, (k'.table i).state = .blocked → (k.table i).state = .blocked ∧
    k'.call i = k.call i
  field : ∀ j, (k.table j).state ≠ .unused → (k'.table j).waitForPid = (k.table j).waitForPid
  call : ∀ i c, k'.call i = .waitFor c → k.call i = .waitFor c
  known : Known k → Known k'

theorem mild_of {k k' : Kernel} (h : Gentle k k') : Mild k k' where
  same j _ := ⟨settled_pid h.toSettled j,h.ppid j⟩
  zombie := h.zombie
  living := h.living
  blocked i hb := ⟨h.blocked i hb,congrFun h.call i⟩
  field j _ := settled_field h.toSettled j
  call i _ hc := (congrFun h.call i).symm.trans hc
  known := known_settled h.toSettled

/-- A record changes, not the pid, the parent or, but for one that ends its
life in the table, the state. -/
theorem kin_set_proc (f : Proc → Proc)
    (hp : (f (k.table i)).pid = (k.table i).pid ∧ (f (k.table i)).ppid = (k.table i).ppid)
    (hz : (f (k.table i)).state = .zombie → (k.table i).state = .zombie)
    (hl : Living (k.table i) → Living (f (k.table i))) : Kin k (setProc k i f) := by
  refine ⟨fun j _ => ?_,fun j => ?_,fun j => ?_⟩ <;> by_cases hj : j = i
  · subst hj
    simpa [setProc] using hp
  · simp [setProc, hj]
  · subst hj
    simpa [setProc] using hz
  · simp [setProc, hj]
  · subst hj
    simpa [setProc] using hl
  · simp [setProc, hj]

theorem mild_set_call (h : (k.table i).state ≠ .blocked) (hd : ∀ c, d ≠ .waitFor c) :
    Mild k (setCall k i d) := by
  refine ⟨⟨fun _ _ => ⟨rfl,rfl⟩,fun _ => id,fun _ => id⟩,fun j hb => ?_,fun _ _ => rfl,
    fun j c => ?_,fun h => ⟨h.range,h.unique⟩⟩
  · have hj : j ≠ i := by
      rintro rfl
      exact h hb
    exact ⟨hb,by simp [setCall, hj]⟩
  · by_cases hj : j = i
    · simp [setCall, hj, hd]
    · simp [setCall, hj]

theorem mild_reap (z : ℕ) (hz : (k.table z).state = .zombie) : Mild k (reap k z).1 := by
  have hkin := kin_set_proc k z (fun x => { x with state := .unused }) ⟨rfl,rfl⟩ (fun h => by cases h)
    fun hl => by rcases hl with h | h | h <;> rw [hz] at h <;> cases h
  have hrec : ∀ j, ((reap k z).1.table j).pid = (k.table j).pid ∧
      ((reap k z).1.table j).waitForPid = (k.table j).waitForPid := by
    intro j
    by_cases hj : j = z <;> simp [reap, setProc, hj]
  refine ⟨hkin,fun j hb => ⟨?_,rfl⟩,fun j _ => (hrec j).2,fun _ _ => id,
    fun h => known_congr h (fun j => (hrec j).1) rfl⟩
  by_cases hj : j = z
  · simp [reap, setProc, hj] at hb
  · simpa [reap, setProc, hj] using hb

/-- A slot that was not in use is filled; a pid that has not wrapped is new. -/
theorem mild_fill {k k' : Kernel} {i : ℕ} {x : Proc} (ht : k'.table = update k.table i x)
    (hc : ∀ j, k'.call j = k.call j ∨ j = i ∧ k'.call j = .none) (hn : k.nextPid < k'.nextPid)
    (hi : i < maxProcesses) (hu : (k.table i).state = .unused) (hp : x.pid = k.nextPid)
    (hb : x.state ≠ .blocked ∧ x.state ≠ .zombie) : Mild k k' := by
  have hrec : ∀ j, k'.table j = if j = i then x else k.table j := by
    intro j
    by_cases hj : j = i <;> simp [ht, hj]
  have hne : ∀ j, (k.table j).state ≠ .unused → k'.table j = k.table j := by
    intro j hj
    rw [hrec, if_neg (by rintro rfl; exact hj hu)]
  refine ⟨⟨fun j hj => by rw [hne j hj]; exact ⟨rfl,rfl⟩,fun j hz => ?_,fun j hl => ?_⟩,fun j hbj => ?_,
    fun j hj => by rw [hne j hj],fun j c hj => ?_,fun h => ⟨fun j => ?_,fun j j' => ?_⟩⟩
  · rw [hrec] at hz
    split_ifs at hz
    · exact absurd hz hb.2
    · exact hz
  · rwa [hne j (living_used hl)]
  · rw [hrec] at hbj
    split_ifs at hbj with hj
    · exact absurd hbj hb.1
    · exact ⟨hbj,(hc j).resolve_right fun h => hj h.1⟩
  · obtain he | ⟨-,he⟩ := hc j
    · exact he.symm.trans hj
    · rw [he] at hj
      cases hj
  · rw [hrec]
    split_ifs with hj
    · exact fun _ => ⟨hj ▸ hi,hp ▸ hn⟩
    · exact fun h0 => ⟨(h.range j h0).1,(h.range j h0).2.trans hn⟩
  · rw [hrec, hrec]
    split_ifs with hj hj' hj'
    · exact fun _ _ => hj.trans hj'.symm
    · intro h0 he
      have := (h.range j' (by rwa [← he])).2
      omega
    · intro h0 he
      have := (h.range j h0).2
      omega
    · exact h.unique j j'

theorem mild_filled (x : Proc) (hn : k.nextPid+1 < 2^32) (hi : i < maxProcesses)
    (hu : (k.table i).state = .unused) (hp : x.pid = k.nextPid)
    (hb : x.state ≠ .blocked ∧ x.state ≠ .zombie) :
    Mild k { setCall (setProc k i fun _ => x) i .none with nextPid := (k.nextPid+1) % 2^32 } := by
  refine mild_fill rfl (fun j => ?_) ?_ hi hu hp hb
  · by_cases hj : j = i <;> simp [setCall, setProc, hj]
  · exact (Nat.mod_eq_of_lt hn).symm ▸ Nat.lt_succ_self k.nextPid

theorem mild_create_fails (init : Proc) (fork : Bool) (hn : k.nextPid+1 < 2^32) :
    Mild k (createFails k init fork) := by
  unfold createFails
  split
  case h_1 => exact mild_of (gentle_refl k)
  case h_2 i hi =>
    obtain ⟨hlt,hu⟩ := free_slot_some k.table i hi
    refine mild_fill rfl (fun j => .inl rfl) ?_ hlt hu ?_ ?_
    · exact (Nat.mod_eq_of_lt hn).symm ▸ Nat.lt_succ_self k.nextPid
    all_goals cases fork <;> simp [freshProc]

/-- The kernel at the `schedule()` of a call that blocks. -/
def asleep : Kernel :=
  setCall (setProc k k.current fun x => { x with state := .blocked }) k.current d

theorem asleep_table (j : ℕ) : (asleep k d).table j =
    if j = k.current then { k.table j with state := .blocked } else k.table j := by
  by_cases hj : j = k.current <;> simp [asleep, setCall, setProc, hj]

theorem kin_asleep : Kin k (asleep k d) := by
  have h := kin_set_proc k k.current (fun x => { x with state := .blocked }) ⟨rfl,rfl⟩
    (fun h => by cases h) fun _ => .inr (.inr rfl)
  exact ⟨h.same,h.zombie,h.living⟩

theorem asleep_known (h : Known k) : Known (asleep k d) := by
  refine known_congr h (fun j => ?_) rfl
  rw [asleep_table]
  split_ifs <;> rfl

/-! ## The end of a process -/

variable {k} {i e : ℕ} (code : ℤ)

theorem zombie_table (j : ℕ) : (becomeZombie k e code).table j =
    if j = e then { k.table e with state := .zombie, exitCode := code } else k.table j := by
  by_cases hj : j = e <;> simp [becomeZombie, setProc, hj]

theorem send_wakes (hK : Known k) (hp : (k.table i).pid ≠ 0) (hb : (k.table i).state = .blocked) :
    ((signalSend k (k.table i).pid sigchld).table i).state ≠ .blocked := by
  rw [signalSend, if_neg (by decide), known_found k i hK hp (blocked_used hb)]
  dsimp only
  rw [if_neg (by rw [hb]; simp), wake_blocked_ready _ _ (by simpa [setProc] using hb)]
  simp

theorem parent_wakes (pid : ℕ) (hK : Known k) (hp : (k.table i).pid ≠ 0)
    (hb : (k.table i).state = .blocked) (hw : (k.table i).waitForPid = 0 ∨ (k.table i).waitForPid = pid) :
    ((wakeParent k pid (k.table i).pid).table i).state = .ready := by
  rw [wakeParent, known_found k i hK hp (blocked_used hb)]
  dsimp only
  rw [if_pos hw]
  exact wake_blocked_ready k i hb

/-- The record of another process after the end of `e`. -/
theorem reparent_record (pid j : ℕ) : ((reparent k pid).table j).pid = (k.table j).pid ∧
    ((reparent k pid).table j).state = (k.table j).state ∧
    ((reparent k pid).table j).waitForPid = (k.table j).waitForPid ∧
    (((reparent k pid).table j).ppid = (k.table j).ppid ∨
      (k.table j).ppid = pid ∧ ((reparent k pid).table j).ppid = 1) := by
  unfold reparent
  dsimp only
  split_ifs with hj
  · exact ⟨rfl,rfl,rfl,.inr ⟨hj.2.1,rfl⟩⟩
  · exact ⟨rfl,rfl,rfl,.inl rfl⟩

end HobbyOS.ProcessFamily
