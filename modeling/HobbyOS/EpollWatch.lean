import Mathlib.Data.Int.Notation
import Mathlib.Data.List.Nodup

/-!
# The watch set of an epoll instance

`EPOLL_CTL_ADD` does not look for a watch of the same descriptor, and leaves
the edge flag as the last watch in the slot had it.
-/

namespace HobbyOS.EpollWatch

structure Watch where
  fd : ℤ
  events : BitVec 32
  data : BitVec 64
  etReported : Bool

/-- The slots below `watch_count`, and those behind them. -/
structure Epoll where
  live : List Watch
  rest : List Watch

inductive Op where
  | add
  | mod
  | del
  deriving DecidableEq

structure Ctl where
  op : Op
  fd : ℤ
  events : BitVec 32
  data : BitVec 64

/-- The first watch of the descriptor is changed, or the slots behind it move up. -/
def atFirst (fd : ℤ) (f : Watch → Option Watch) : List Watch → Option (List Watch)
  | [] => none
  | w::ws => if w.fd = fd then some ((f w).toList++ws) else (atFirst fd f ws).map (w::·)

def epollCtlInstance (e : Epoll) (c : Ctl) : Option Epoll :=
  match c.op with
  | .add =>
    match e.rest with
    | [] => none
    | r::rest => some ⟨e.live++[{ r with fd := c.fd, events := c.events, data := c.data }],rest⟩
  | .mod => (atFirst c.fd (fun w => some { w with events := c.events, data := c.data }) e.live).map (⟨·,e.rest⟩)
  | .del => (atFirst c.fd (fun _ => none) e.live).map (⟨·,e.live.getLast?.toList++e.rest⟩)

def epollin : BitVec 32 := 1
def epollout : BitVec 32 := 4
def epollet : BitVec 32 := 0x80000000

def ready (readable writable : ℤ → Bool) (w : Watch) : BitVec 32 :=
  let wev := w.events &&& ~~~epollet
  (if wev &&& epollin ≠ 0 ∧ readable w.fd = true then epollin else 0) |||
    if wev &&& epollout ≠ 0 ∧ writable w.fd = true then epollout else 0

variable (r : Watch → BitVec 32) (max : ℕ)

def look (w : Watch) : Watch × List (BitVec 32 × BitVec 64) :=
  if r w ≠ 0 then
    if w.events &&& epollet ≠ 0 ∧ w.etReported = true then (w,[])
    else ({ w with etReported := w.etReported || w.events &&& epollet ≠ 0 },[(r w,w.data)])
  else ({ w with etReported := w.etReported && w.events &&& epollet = 0 },[])

/-- The loop of `epoll_wait`, which makes it once more if it has slept. -/
def scan (found : ℕ) : List Watch → List Watch × List (BitVec 32 × BitVec 64)
  | [] => ([],[])
  | w::ws =>
    if found < max then
      let s := scan (found+(look r w).2.length) ws
      ((look r w).1::s.1,(look r w).2++s.2)
    else (w::ws,[])

theorem scan_fds (found : ℕ) (l : List Watch) : (scan r max found l).1.map Watch.fd = l.map Watch.fd := by
  induction l generalizing found with
  | nil => rfl
  | cons w ws ih =>
    have hw : (look r w).1.fd = w.fd := by
      unfold look
      split_ifs <;> rfl
    unfold scan
    split_ifs
    · exact congrArg₂ List.cons hw (ih _)
    · rfl

theorem scan_full {found : ℕ} (h : max ≤ found) (l : List Watch) : scan r max found l = (l,[]) := by
  cases l with
  | nil => rfl
  | cons w ws => rw [scan, if_neg (by omega)]

theorem scan_append (found : ℕ) (a b : List Watch) : scan r max found (a++b) =
    let s := scan r max (found+(scan r max found a).2.length) b
    ((scan r max found a).1++s.1,(scan r max found a).2++s.2) := by
  induction a generalizing found with
  | nil => rfl
  | cons w ws ih =>
    by_cases h : found < max
    · simp only [List.cons_append, scan, if_pos h, ih, List.length_append, List.append_assoc, Nat.add_assoc]
    · simp [scan_full r max (Nat.le_of_not_lt h)]

variable {e e' : Epoll} {c : Ctl}

def fds (e : Epoll) : List ℤ := e.live.map Watch.fd

def entries (e : Epoll) : List (ℤ × BitVec 32 × BitVec 64) := e.live.map fun w => (w.fd,w.events,w.data)

/-- The call changes the map at its descriptor, and a new edge-triggered
watch has not been reported. -/
structure Kept (e : Epoll) (c : Ctl) (e' : Epoll) : Prop where
  nodup : (fds e').Nodup
  map : ∀ x, x ∈ entries e' ↔ (x ∈ entries e ∧ x.1 ≠ c.fd) ∨ c.op ≠ .del ∧ x = (c.fd,c.events,c.data)
  fresh : c.op = .add → c.events &&& epollet ≠ 0 → ∀ w ∈ e'.live, w.fd = c.fd → w.etReported = false

/-- The descriptor is not watched, and the last watch in the slot left no flag. -/
def Calm (e : Epoll) (c : Ctl) : Prop :=
  c.op = .add → c.fd ∉ fds e ∧ (c.events &&& epollet ≠ 0 → ∀ s ∈ e.rest.head?, s.etReported = false)

inductive Reach : Epoll → Prop
  | create : Reach ⟨[],List.replicate 32 ⟨0,0,0,false⟩⟩
  | ctl {e e' : Epoll} (c : Ctl) : Reach e → Calm e c → epollCtlInstance e c = some e' → Reach e'
  | wait {e : Epoll} (readable writable : ℤ → Bool) (max : ℕ) : Reach e →
      Reach { e with live := (scan (ready readable writable) max 0 e.live).1 }

theorem at_first_spec {fd : ℤ} {f : Watch → Option Watch} (hf : ∀ w, ∀ x ∈ f w, x.fd = w.fd) {l l' : List Watch}
    (hn : (l.map Watch.fd).Nodup) (h : atFirst fd f l = some l') :
    (l'.map Watch.fd).Sublist (l.map Watch.fd) ∧
    ∃ w ∈ l, w.fd = fd ∧ ∀ x, x ∈ l' ↔ (x ∈ l ∧ x.fd ≠ fd) ∨ x ∈ f w := by
  induction l generalizing l' with
  | nil => cases h
  | cons w ws ih =>
    rw [List.map_cons, List.nodup_cons] at hn
    rw [atFirst] at h
    split_ifs at h with hw
    · cases h
      have hother : ∀ y ∈ ws, y.fd ≠ fd := fun y hy he => hn.1 (List.mem_map.mpr ⟨y,hy,he.trans hw.symm⟩)
      refine ⟨?_,w,List.mem_cons_self,hw,fun x => ?_⟩
      · cases hx : f w with
        | none => exact List.sublist_cons_self _ _
        | some x => simp [hf w x hx]
      · clear ih
        simp only [List.mem_append, Option.mem_toList, List.mem_cons, Option.mem_def]
        grind
    · obtain ⟨l2,h2,rfl⟩ := Option.map_eq_some_iff.mp h
      obtain ⟨hsub,w',hmem,hw',hall⟩ := ih hn.2 h2
      exact ⟨hsub.cons_cons _,w',by simp [hmem],hw',by grind⟩

theorem ctl_kept_iff (hn : (fds e).Nodup) (h : epollCtlInstance e c = some e') : Kept e c e' ↔ Calm e c := by
  obtain ⟨op,fd,ev,data⟩ := c
  unfold epollCtlInstance at h
  cases op with
  | add =>
    cases hrest : e.rest with
    | nil => simp [hrest] at h
    | cons s rest =>
      simp only [hrest, Option.some.injEq] at h
      subst h
      have hnd : (fds ⟨e.live++[⟨fd,ev,data,s.etReported⟩],rest⟩).Nodup ↔ fd ∉ fds e := by
        unfold fds at hn ⊢
        grind
      constructor
      · rintro ⟨h1,-,h3⟩ -
        refine ⟨hnd.mp h1,fun het s' hs => ?_⟩
        rw [hrest] at hs
        cases hs
        exact h3 rfl het ⟨fd,ev,data,s.etReported⟩ List.mem_concat_self rfl
      · intro hc
        obtain ⟨hfd,hflag⟩ := hc rfl
        refine ⟨hnd.mpr hfd,?_,?_⟩
        · unfold entries fds at *
          grind
        · unfold fds at hfd
          grind
  | mod =>
    obtain ⟨l,hl,rfl⟩ := Option.map_eq_some_iff.mp h
    obtain ⟨hsub,w,hw,hfd,hall⟩ := at_first_spec (by rintro w x ⟨⟩; rfl) hn hl
    refine iff_of_true ⟨hn.sublist hsub,fun x => ?_,fun h => by cases h⟩ fun h => by cases h
    simp only [entries, List.mem_map, hall, Option.mem_some_iff]
    clear h hl hsub hn hall
    grind
  | del =>
    obtain ⟨l,hl,rfl⟩ := Option.map_eq_some_iff.mp h
    obtain ⟨hsub,w,hw,hfd,hall⟩ := at_first_spec (by rintro w x ⟨⟩) hn hl
    refine iff_of_true ⟨hn.sublist hsub,?_,fun h => by cases h⟩ fun h => by cases h
    unfold entries
    grind

theorem reach_nodup (h : Reach e) : (fds e).Nodup := by
  induction h with
  | create => exact List.nodup_nil
  | ctl c _ hc he ih => exact ((ctl_kept_iff ih he).mpr hc).nodup
  | wait readable writable max _ ih =>
    rw [fds, scan_fds]
    exact ih

/-- A watch that is ready and not yet reported is the next event, or no
room is left and it stays. -/
theorem watch_set (h : Reach e) : (fds e).Nodup ∧
    (∀ c e', epollCtlInstance e c = some e' → (Kept e c e' ↔ Calm e c)) ∧
    ∀ readable writable max a w b r found, e.live = a++w::b → r = ready readable writable → r w ≠ 0 →
      w.etReported = false → found = (scan r max 0 a).2.length →
      if found < max then (scan r max 0 e.live).2[found]? = some (r w,w.data) else w ∈ (scan r max 0 e.live).1 := by
  refine ⟨reach_nodup h,fun c e' => ctl_kept_iff (reach_nodup h),?_⟩
  rintro readable writable max a w b r found hl - hr hw rfl
  rw [hl, scan_append]
  split_ifs with hroom
  · have hlook : (look r w).2 = [(r w,w.data)] := by
      rw [look, if_pos hr, if_neg (by simp [hw])]
    simp [scan, hroom, hlook]
  · simp [scan_full r max (Nat.le_of_not_lt hroom)]

def added : Ctl := ⟨.add,3,0x80000001,7⟩

def deleted : Ctl := ⟨.del,3,0,0⟩

def allReady : Watch → BitVec 32 := ready (fun _ => true) fun _ => true

theorem watch_set_one : (scan allReady 1 0 [⟨3,0x80000001,7,false⟩]).2[0]? = some (1,7) :=
  (watch_set (.ctl added .create (fun _ => ⟨by decide,by decide⟩) rfl)).2.2 _ _ 1 [] ⟨3,0x80000001,7,false⟩ [] allReady
    0 rfl rfl (by decide) rfl rfl

/-- Added twice, the descriptor is watched after it is deleted. Added again
after it was reported and deleted, it is not reported. -/
theorem deleted_but_watched : ∃ e1 e2 e3 e4 e5, Reach e1 ∧ epollCtlInstance e1 added = some e2 ∧
    epollCtlInstance e2 deleted = some e3 ∧ 3 ∈ fds e3 ∧
    epollCtlInstance { e1 with live := (scan allReady 1 0 e1.live).1 } deleted = some e4 ∧
    epollCtlInstance e4 added = some e5 ∧ (scan allReady 1 0 e5.live).2 = [] :=
  ⟨_,_,_,_,_,.ctl added .create (fun _ => ⟨by decide,by decide⟩) rfl,rfl,rfl,by decide,rfl,rfl,by decide⟩

end HobbyOS.EpollWatch
