import HobbyOS.Process
import HobbyOS.Socket

/-!
# Descriptors and what they refer to

The descriptor tables of all processes with the objects whose lifetime they
decide: the two counts of each pipe, the socket table and the epoll pool. The
calls that install, copy and drop descriptors are here as `syscall.c`,
`process.c`, `signal.c` and the pipeline of `shell.c` have them. Which process
runs is left open: each call names its caller.
-/

namespace HobbyOS.Descriptors
open Process Socket Function

def epollMaxInstances : ℕ := 16

structure Ends where
  readers : ℕ
  writers : ℕ
  deriving DecidableEq, Repr

structure Epoll where
  inUse : Bool := false
  ownerPid : ℕ := 0
  deriving DecidableEq, Repr

/-- `pipes` is the memory of all pipes: nothing frees a pipe. -/
structure Files where
  table : Table
  pipes : ℕ → Option Ends := fun _ => none
  stack : Stack
  epolls : ℕ → Epoll := fun _ => {}
  nextPid : ℕ := 2

variable (s : Files) (fds : ℕ → Fd) (p : ℕ) (t : FdType)

def setProc (f : Proc → Proc) : Files :=
  { s with table := update s.table p (f (s.table p)) }

def fdOf (p i : ℕ) : Fd := (s.table p).fdTable i

def setFd (p i : ℕ) (fd : Fd) : Files :=
  setProc s p fun x => { x with fdTable := update x.fdTable i fd }

def processFdAlloc (start : ℕ) : Option ℕ :=
  (List.range processMaxFds).find? fun i => decide (start ≤ i) && (fds i).type == .none

variable (fd : Fd) (a : ℕ) (slot : ℕ) (st : Stack)

def pipeCreate : Files := { s with pipes := update s.pipes a (some ⟨1,1⟩) }

def setEnds (f : Ends → Ends) : Files :=
  { s with pipes := update s.pipes a ((s.pipes a).map f) }

def pipeCloseRead : Files := setEnds s a fun e => { e with readers := e.readers-1 }

def pipeCloseWrite : Files := setEnds s a fun e => { e with writers := e.writers-1 }

def pipeIncRef (type : FdType) : Files :=
  match type with
  | .pipeRead => setEnds s a fun e => { e with readers := e.readers+1 }
  | .pipeWrite => setEnds s a fun e => { e with writers := e.writers+1 }
  | _ => s

def epollCreateInstance (ownerPid : ℕ) : Files × Option ℕ :=
  match (List.range epollMaxInstances).find? fun i => !(s.epolls i).inUse with
  | some i => ({ s with epolls := update s.epolls i ⟨true,ownerPid⟩ },some i)
  | none => (s,none)

def epollDestroy (i : ℕ) : Files :=
  if i < epollMaxInstances then
    { s with epolls := update s.epolls i { s.epolls i with inUse := false } }
  else s

def syscallPipe (pointerOk : Bool) (mem : Option ℕ) : Files × ℤ :=
  if pointerOk = false then (s,-1)
  else
    match mem with
    | none => (s,-1)
    | some a =>
      let s := pipeCreate s a
      match processFdAlloc (s.table p).fdTable 3 with
      | none => (s,-1)
      | some rfd =>
        let s := setFd s p rfd { fdOf s p rfd with type := .pipeRead, data := a }
        match processFdAlloc (s.table p).fdTable (rfd+1) with
        | none => (setFd s p rfd { fdOf s p rfd with type := .none },-1)
        | some wfd => (setFd s p wfd { fdOf s p wfd with type := .pipeWrite, data := a },0)

/-- What `SYS_CLOSE` does for each type before it clears the entry. -/
def dropRef : Files :=
  match fd.type with
  | .pipeRead => pipeCloseRead s fd.data
  | .pipeWrite => pipeCloseWrite s fd.data
  | .socket => { s with stack := socketClose s.stack fd.data }
  | .epoll => epollDestroy s fd.data
  | _ => s

def syscallClose (p fd : ℕ) : Files × ℤ :=
  if processMaxFds ≤ fd ∨ fd < 3 then (s,-1)
  else if (fdOf s p fd).type = .none then (s,-1)
  else (setFd (dropRef s (fdOf s p fd)) p fd {},0)

/-- The entry that `dup2` overwrites: only pipes are closed. -/
def dupDrop : Files :=
  match fd.type with
  | .pipeRead => pipeCloseRead s fd.data
  | .pipeWrite => pipeCloseWrite s fd.data
  | _ => s

def syscallDup2 (p oldfd newfd : ℕ) : Files × ℤ :=
  if processMaxFds ≤ oldfd ∨ processMaxFds ≤ newfd then (s,-1)
  else if (fdOf s p oldfd).type = .none then (s,-1)
  else if oldfd = newfd then (s,newfd)
  else
    let fd := fdOf s p oldfd
    (pipeIncRef (setFd (dupDrop s (fdOf s p newfd)) p newfd fd) fd.data fd.type,newfd)

def addRef : Files :=
  match fd.type with
  | .pipeRead => if fd.data = 0 then s else pipeIncRef s fd.data .pipeRead
  | .pipeWrite => if fd.data = 0 then s else pipeIncRef s fd.data .pipeWrite
  | .socket => { s with stack := socketIncRef s.stack fd.data }
  | _ => s

def processAlloc : Files :=
  { setProc s slot fun _ => { pid := s.nextPid } with nextPid := (s.nextPid+1) % 2^32 }

/-- `fork` into a slot that `process_alloc` has found; `ok` is whether the
kernel stack and the address space could be made. -/
def syscallFork (p slot : ℕ) (ok : Bool) : Files :=
  let parent := s.table p
  let s := processAlloc s slot
  if ok then
    let s := setProc s slot fun x => { parent with pid := x.pid, state := .ready, ppid := parent.pid }
    (List.range processMaxFds).foldl (fun s i => addRef s (parent.fdTable i)) s
  else s

def exitFd (p i : ℕ) : Files :=
  let fd := fdOf s p i
  let clear := fun s : Files => setFd s p i { fd with type := .none }
  match fd.type with
  | .pipeRead => clear (pipeCloseRead s fd.data)
  | .pipeWrite => clear (pipeCloseWrite s fd.data)
  | .socket => clear { s with stack := socketClose s.stack fd.data }
  | _ => s

def syscallExit : Files :=
  setProc ((List.range processMaxFds).foldl (fun s i => exitFd s p i) s) p
    fun x => { x with state := .zombie }

/-- `signal_check` and `kill_user_process` end a process as it is. -/
def terminate : Files := setProc s p fun x => { x with state := .zombie }

def reap (z : ℕ) : Files := setProc s z fun x => { x with state := .unused }

def processFdInit : ℕ → Fd := fun i => if i < 3 then { type := .console } else {}

def processCreate : Files :=
  { setProc s slot fun _ => { pid := s.nextPid, state := .ready, fdTable := processFdInit } with
    nextPid := (s.nextPid+1) % 2^32 }

def installFd : Option (Files × ℕ) :=
  (processFdAlloc (s.table p).fdTable 3).map fun i => (setFd s p i fd,i)

def syscallSocket (type : SockType) : Files × ℤ :=
  match socketCreate s.stack type with
  | (_,none) => (s,-1)
  | (st,some i) =>
    let s := { s with stack := st }
    match installFd s p { type := .socket, data := i } with
    | some (s,fd) => (s,fd)
    | none => ({ s with stack := socketClose s.stack i },-1)

/-- `SYS_ACCEPT` from the point where `tcp_accept` has returned `conn`. -/
def syscallAccept (conn : ℕ) : Files × ℤ :=
  match socketAccepted s.stack conn with
  | (st,.ofNat i) =>
    let s := { s with stack := st }
    match installFd s p { type := .socket, data := i } with
    | some (s,fd) => (s,fd)
    | none => ({ s with stack := socketClose s.stack i },-1)
  | (st,.negSucc _) => ({ s with stack := st },-1)

def syscallEpollCreate : Files × ℤ :=
  match epollCreateInstance s (s.table p).pid with
  | (s,none) => (s,-1)
  | (s,some i) =>
    match installFd s p { type := .epoll, data := i } with
    | some (s,fd) => (s,fd)
    | none => (epollDestroy s i,-1)

/-- `SYS_OPEN` once it has found what to open. -/
def syscallOpen : Files × ℤ :=
  match installFd s p fd with
  | some (s,i) => (s,i)
  | none => (s,-1)

/-- A child of the shell gets one end of the pipe in place of its console. -/
def redirect (child i a : ℕ) (type : FdType) : Files :=
  pipeIncRef (setFd s child i { fdOf s child i with type := type, data := a }) a type

/-- The pipeline of the kernel shell, with the slots that its two programs
get; a program that cannot be started ends it. -/
def shellPipeline (child1 child2 : Option ℕ) : Files :=
  let s := pipeCreate s a
  match child1 with
  | none => s
  | some c1 =>
    let s := redirect (processCreate s c1) c1 1 a .pipeWrite
    match child2 with
    | none => s
    | some c2 => redirect (processCreate s c2) c2 0 a .pipeRead

def alive (x : Proc) : Bool := x.state == .ready || x.state == .running || x.state == .blocked

inductive Op where
  | pipe (p : ℕ) (pointerOk : Bool) (mem : Option ℕ)
  | dup2 (p oldfd newfd : ℕ)
  | close (p fd : ℕ)
  | fork (p slot : ℕ) (ok : Bool)
  /-- the descriptors stay as they are -/
  | exec (p : ℕ)
  | exit (p : ℕ)
  | terminate (p : ℕ)
  | reap (z : ℕ)
  | create (slot : ℕ)
  | shellPipeline (a : ℕ) (child1 child2 : Option ℕ)
  | socket (p : ℕ) (type : SockType)
  | accept (p conn : ℕ)
  | epollCreate (p : ℕ)
  | opens (p : ℕ) (fd : Fd)

def step : Op → Files
  | .pipe p ok mem => (syscallPipe s p ok mem).1
  | .dup2 p oldfd newfd => (syscallDup2 s p oldfd newfd).1
  | .close p fd => (syscallClose s p fd).1
  | .fork p slot ok => syscallFork s p slot ok
  | .exec _ => s
  | .exit p => syscallExit s p
  | .terminate p => terminate s p
  | .reap z => reap s z
  | .create slot => processCreate s slot
  | .shellPipeline a child1 child2 => shellPipeline s a child1 child2
  | .socket p type => (syscallSocket s p type).1
  | .accept p conn => (syscallAccept s p conn).1
  | .epollCreate p => (syscallEpollCreate s p).1
  | .opens p fd => (syscallOpen s p fd).1

def Runs : Prop := p < maxProcesses ∧ alive (s.table p) = true

def Unused : Prop := slot < maxProcesses ∧ (s.table slot).state = .unused

/-- `kmalloc` returns memory that no pipe has. -/
def FreshMem : Prop := a ≠ 0 ∧ s.pipes a = none

def Enabled : Op → Prop
  | .pipe p _ mem => Runs s p ∧ ∀ a ∈ mem, FreshMem s a
  | .dup2 p _ _ | .close p _ | .exec p | .exit p | .terminate p => Runs s p
  | .socket p _ | .accept p _ | .epollCreate p => Runs s p
  | .fork p slot _ => Runs s p ∧ Unused s slot
  | .reap z => z < maxProcesses ∧ (s.table z).state = .zombie
  | .create slot => Unused s slot
  | .shellPipeline a child1 child2 => FreshMem s a ∧ (∀ c ∈ child1, Unused s c) ∧
      (∀ c ∈ child2, Unused s c ∧ some c ≠ child1)
  | .opens p fd => Runs s p ∧ (fd.type = .vfs ∨ fd.type = .ext2 ∨ fd.type = .device)

/-- After start-up: one running process, no pipe, socket or epoll instance. -/
def boot : Files where
  table := fun i => if i = 0 then { pid := 1, state := .running, fdTable := processFdInit } else {}
  stack := { host := ⟨0x0A00020F,fun _ => {},[],[]⟩ }

inductive Reach (Good : Files → Op → Prop) : Files → Prop where
  | boot : Reach Good boot
  | step (s : Files) (op : Op) (hs : Reach Good s) (he : Enabled s op) (hg : Good s op) :
      Reach Good (step s op)

def names (t : FdType) (d : ℕ) : ℕ := if fd.type = t ∧ fd.data = d then 1 else 0

def row (d : ℕ) : ℕ := ∑ i ∈ Finset.range processMaxFds, names (fds i) t d

def share (x : Proc) (t : FdType) (d : ℕ) : ℕ := if alive x = true then row x.fdTable t d else 0

def refs (d : ℕ) : ℕ := ∑ p ∈ Finset.range maxProcesses, share (s.table p) t d

theorem sum_change {α : Type} [DecidableEq α] {S : Finset α} (f g : α → ℕ) {a : α} (ha : a ∈ S)
    (h : ∀ b, b ≠ a → g b = f b) : ∑ b ∈ S, g b+f a = ∑ b ∈ S, f b+g a := by
  rw [← Finset.sum_erase_add S g ha, ← Finset.sum_erase_add S f ha]
  have hrest : ∑ b ∈ S.erase a, g b = ∑ b ∈ S.erase a, f b :=
    Finset.sum_congr rfl (fun b hb => h b (Finset.ne_of_mem_erase hb))
  omega

variable (x : Proc) (f : Proc → Proc) (i d : ℕ)

theorem set_proc_self : (setProc s p f).table p = f (s.table p) :=
  update_self ..

theorem set_proc_other (p q : ℕ) (f : Proc → Proc) (h : q ≠ p) :
    (setProc s p f).table q = s.table q := update_of_ne h ..

theorem refs_set_proc (t : FdType) (d : ℕ) (hp : p < maxProcesses) :
    refs (setProc s p f) t d+share (s.table p) t d = refs s t d+share (f (s.table p)) t d := by
  have h := sum_change (fun q => share (s.table q) t d)
    (fun q => share ((setProc s p f).table q) t d) (Finset.mem_range.mpr hp)
    (fun q hq => by rw [set_proc_other s p q f hq])
  rwa [set_proc_self] at h

theorem row_update (fd : Fd) (t : FdType) (d : ℕ) (hi : i < processMaxFds) :
    row (update fds i fd) t d+names (fds i) t d = row fds t d+names fd t d := by
  have h := sum_change (fun j => names (fds j) t d)
    (fun j => names (update fds i fd j) t d) (Finset.mem_range.mpr hi)
    (fun j hj => by rw [update_of_ne hj])
  rwa [update_self] at h

theorem refs_set_fd {p i : ℕ} (fd : Fd) (t : FdType) (d : ℕ) (hp : Runs s p)
    (hi : i < processMaxFds) :
    refs (setFd s p i fd) t d+names (fdOf s p i) t d = refs s t d+names fd t d := by
  have h := refs_set_proc s p (fun x => { x with fdTable := update x.fdTable i fd }) t d hp.1
  have hr := row_update (s.table p).fdTable i fd t d hi
  have ha : alive { s.table p with fdTable := update (s.table p).fdTable i fd } = true := hp.2
  rw [share, if_pos hp.2, share, if_pos ha] at h
  change _ = _+row (update (s.table p).fdTable i fd) t d at h
  unfold setFd fdOf
  omega

theorem row_le_refs (hp : Runs s p) : row (s.table p).fdTable t d ≤ refs s t d := by
  have h := Finset.single_le_sum (f := fun q => share (s.table q) t d) (fun _ _ => Nat.zero_le _)
    (Finset.mem_range.mpr hp.1)
  rwa [share, if_pos hp.2] at h

theorem names_le_row {i : ℕ} (t : FdType) (d : ℕ) (hi : i < processMaxFds) :
    names (fds i) t d ≤ row fds t d :=
  Finset.single_le_sum (f := fun j => names (fds j) t d) (fun _ _ => Nat.zero_le _) (Finset.mem_range.mpr hi)

theorem names_le_refs {p i : ℕ} (t : FdType) (d : ℕ) (hp : Runs s p) (hi : i < processMaxFds) :
    names (fdOf s p i) t d ≤ refs s t d := (names_le_row _ t d hi).trans (row_le_refs s p t d hp)

theorem names_of_type {t : FdType} (d : ℕ) (h : fd.type ≠ t) : names fd t d = 0 :=
  if_neg fun hh => h hh.1

theorem names_self : names fd fd.type fd.data = 1 := if_pos ⟨rfl,rfl⟩

def ends : Ends := (s.pipes a).getD ⟨0,0⟩

def claims (x : Sock) : ℕ := if x.inUse = true then x.refcount.toNat else 0

def sockHeld (i : ℕ) : ℕ := if i < maxSockets then claims (st.sockets i) else 0

def held (d : ℕ) : ℕ :=
  match t with
  | .pipeRead => (ends s d).readers
  | .pipeWrite => (ends s d).writers
  | .socket => sockHeld s.stack d
  | _ => 0

/-- The types whose objects count their references. -/
def Counted : Prop := t = .pipeRead ∨ t = .pipeWrite ∨ t = .socket

theorem ends_set (a b : ℕ) (f : Ends → Ends) :
    ends (setEnds s a f) b = if b = a ∧ s.pipes a ≠ none then f (ends s b) else ends s b := by
  by_cases hb : b = a
  · subst hb
    have h : (setEnds s b f).pipes b = (s.pipes b).map f := update_self ..
    rw [ends, h, ends]
    cases s.pipes b with
    | none | some => simp
  · have h : (setEnds s a f).pipes b = s.pipes b := update_of_ne hb ..
    rw [if_neg (fun hh => hb hh.1), ends, h, ends]

theorem ends_none (h : s.pipes a = none) : ends s a = ⟨0,0⟩ := by rw [ends, h]; rfl

theorem close_read_held (t : FdType) (d : ℕ) :
    held (pipeCloseRead s a) t d = held s t d-names { type := .pipeRead, data := a } t d := by
  have h := ends_set s a d (fun e => { e with readers := e.readers-1 })
  by_cases hd : d = a ∧ s.pipes a ≠ none
  · obtain ⟨rfl,hl⟩ := hd
    rw [if_pos ⟨rfl,hl⟩] at h
    cases t <;> simp [held, names, pipeCloseRead, h]
    rfl
  · rw [if_neg hd] at h
    by_cases hda : d = a
    · subst hda
      have h0 := ends_none s d (by simpa using hd)
      cases t <;> simp [held, pipeCloseRead, h, h0]
      rfl
    · cases t <;> simp [held, names, pipeCloseRead, h, Ne.symm hda]
      rfl

theorem close_write_held (t : FdType) (d : ℕ) :
    held (pipeCloseWrite s a) t d = held s t d-names { type := .pipeWrite, data := a } t d := by
  have h := ends_set s a d (fun e => { e with writers := e.writers-1 })
  by_cases hd : d = a ∧ s.pipes a ≠ none
  · obtain ⟨rfl,hl⟩ := hd
    rw [if_pos ⟨rfl,hl⟩] at h
    cases t <;> simp [held, names, pipeCloseWrite, h]
    rfl
  · rw [if_neg hd] at h
    by_cases hda : d = a
    · subst hda
      have h0 := ends_none s d (by simpa using hd)
      cases t <;> simp [held, pipeCloseWrite, h, h0]
      rfl
    · cases t <;> simp [held, names, pipeCloseWrite, h, Ne.symm hda]
      rfl

theorem held_stack (st : Stack) {t : FdType} (d : ℕ) (ht : t ≠ .socket) :
    held { s with stack := st } t d = held s t d := by
  cases t <;> first | rfl | exact absurd rfl ht

def SocksPositive : Prop :=
  ∀ i < maxSockets, (st.sockets i).inUse = true → 0 < (st.sockets i).refcount

theorem socket_close_sockets :
    (socketClose st i).sockets =
      if i < maxSockets ∧ (st.sockets i).inUse = true then
        update st.sockets i { st.sockets i with
          refcount := (st.sockets i).refcount-1, inUse := decide (0 < (st.sockets i).refcount-1) }
      else st.sockets := by
  unfold socketClose socketGet
  by_cases h : i < maxSockets ∧ (st.sockets i).inUse = true
  · rw [if_pos h, if_pos h]
    dsimp only
    by_cases hr : 0 < (st.sockets i).refcount-1
    · rw [if_pos hr, decide_eq_true hr, ← h.2]
      rfl
    · rw [if_neg hr, decide_eq_false hr]
      split <;> simp [setSocket]
  · rw [if_neg h, if_neg h]

theorem sock_held_close : sockHeld (socketClose st i) d = sockHeld st d-if i = d then 1 else 0 := by
  unfold sockHeld
  rw [socket_close_sockets]
  by_cases hd : i = d
  · subst hd
    rw [if_pos rfl]
    by_cases hi : i < maxSockets
    · rw [if_pos hi, if_pos hi]
      by_cases hu : (st.sockets i).inUse = true
      · rw [if_pos ⟨hi,hu⟩, update_self, claims, claims]
        dsimp only
        split_ifs with hr
        · omega
        · rw [decide_eq_true_eq] at hr
          omega
      · rw [if_neg (fun hh => hu hh.2), claims, if_neg hu]
    · rw [if_neg hi, if_neg hi]
  · rw [if_neg hd, Nat.sub_zero]
    by_cases hc : i < maxSockets ∧ (st.sockets i).inUse = true
    · rw [if_pos hc, update_of_ne (Ne.symm hd)]
    · rw [if_neg hc]

theorem socks_positive_close (h : SocksPositive st) : SocksPositive (socketClose st i) := by
  intro j hj hu
  rw [socket_close_sockets] at hu ⊢
  split_ifs at hu ⊢ with hc
  · by_cases hji : j = i
    · rw [hji, update_self] at hu ⊢
      exact of_decide_eq_true hu
    · rw [update_of_ne hji] at hu ⊢
      exact h j hj hu
  · exact h j hj hu

theorem socket_close_held (t : FdType) (d : ℕ) :
    held { s with stack := socketClose s.stack i } t d =
      held s t d-names { type := .socket, data := i } t d := by
  by_cases ht : t = .socket
  · subst ht
    have h := sock_held_close s.stack i d
    simpa [held, names] using h
  · rw [held_stack s _ d ht, names_of_type _ d (Ne.symm ht), Nat.sub_zero]

theorem sock_live (h : 0 < sockHeld st i) :
    i < maxSockets ∧ (st.sockets i).inUse = true ∧ 0 < (st.sockets i).refcount := by
  unfold sockHeld claims at h
  split_ifs at h with hi hu
  · exact ⟨hi,hu,by omega⟩
  · omega
  · omega

theorem sock_held_inc {st : Stack} (h : 0 < sockHeld st i) :
    sockHeld (socketIncRef st i) d = sockHeld st d+if i = d then 1 else 0 := by
  obtain ⟨hi,hu,hr⟩ := sock_live st i h
  unfold socketIncRef socketGet
  rw [if_pos ⟨hi,hu⟩]
  unfold sockHeld setSocket
  dsimp only
  by_cases hd : i = d
  · subst hd
    rw [update_self, if_pos hi, if_pos hi, if_pos rfl, claims, claims, if_pos hu, if_pos hu]
    change ((st.sockets i).refcount+1).toNat = _
    omega
  · rw [update_of_ne (Ne.symm hd), if_neg hd, Nat.add_zero]

theorem socks_positive_inc (h : SocksPositive st) : SocksPositive (socketIncRef st i) := by
  intro j hj hu
  unfold socketIncRef socketGet at hu ⊢
  split_ifs at hu ⊢ with hc
  · dsimp only [setSocket] at hu ⊢
    by_cases hji : j = i
    · rw [hji, update_self]
      have := h i hc.1 hc.2
      dsimp only
      omega
    · rw [update_of_ne hji] at hu ⊢
      exact h j hj hu
  · exact h j hj hu

theorem held_epolls (t : FdType) (d : ℕ) : held (epollDestroy s i) t d = held s t d := by
  unfold epollDestroy
  split_ifs <;> cases t <;> rfl

theorem drop_ref_held {t : FdType} (ht : Counted t) : held (dropRef s fd) t d = held s t d-names fd t d := by
  obtain ⟨type,data,offset⟩ := fd
  have hnone : type ≠ t → held s t d = held s t d-names ⟨type,data,offset⟩ t d := fun h => by
    rw [names_of_type _ d h, Nat.sub_zero]
  have hne : type = .none ∨ type = .vfs ∨ type = .console ∨ type = .device ∨ type = .ext2 ∨ type = .epoll →
      type ≠ t := by
    rintro h rfl
    rcases ht with h' | h' | h' <;> rw [h'] at h <;> simp at h
  cases type with
  | pipeRead => exact close_read_held s data t d
  | pipeWrite => exact close_write_held s data t d
  | socket => exact socket_close_held s data t d
  | epoll => exact (held_epolls s data t d).trans (hnone (hne (by simp)))
  | none | vfs | console | device | ext2 => exact hnone (hne (by simp))

theorem inc_ref_held {a : ℕ} {type t : FdType}
    (hlive : type = t → (t = .pipeRead ∨ t = .pipeWrite) → s.pipes a ≠ none)
    (hp : type = .pipeRead ∨ type = .pipeWrite) :
    held (pipeIncRef s a type) t d = held s t d+names { type := type, data := a } t d := by
  rcases hp with rfl | rfl
  · have h := ends_set s a d (fun e => { e with readers := e.readers+1 })
    by_cases hd : d = a
    · subst hd
      cases t with
      | pipeRead =>
        rw [if_pos ⟨rfl,hlive rfl (.inl rfl)⟩] at h
        simp [held, names, pipeIncRef, h]
      | pipeWrite =>
        simp only [held, pipeIncRef, h]
        split_ifs <;> rfl
      | _ => rfl
    · rw [if_neg (fun hh => hd hh.1)] at h
      cases t <;> simp [held, names, pipeIncRef, h, Ne.symm hd]
      rfl
  · have h := ends_set s a d (fun e => { e with writers := e.writers+1 })
    by_cases hd : d = a
    · subst hd
      cases t with
      | pipeWrite =>
        rw [if_pos ⟨rfl,hlive rfl (.inr rfl)⟩] at h
        simp [held, names, pipeIncRef, h]
      | pipeRead =>
        simp only [held, pipeIncRef, h]
        split_ifs <;> rfl
      | _ => rfl
    · rw [if_neg (fun hh => hd hh.1)] at h
      cases t <;> simp [held, names, pipeIncRef, h, Ne.symm hd]
      rfl

theorem live_of_held {a : ℕ} {t : FdType} (hp : t = .pipeRead ∨ t = .pipeWrite)
    (h : 0 < held s t a) : s.pipes a ≠ none := by
  intro hn
  rcases hp with rfl | rfl <;> simp [held, ends, hn] at h

theorem add_ref_held {fd : Fd} {t : FdType} (ht : Counted t) (hnull : t = .socket ∨ s.pipes 0 = none)
    (hpos : fd.type = t → 0 < held s t fd.data) : held (addRef s fd) t d = held s t d+names fd t d := by
  obtain ⟨type,data,offset⟩ := fd
  have hnone : type ≠ t → held s t d = held s t d+names ⟨type,data,offset⟩ t d := fun h => by
    rw [names_of_type _ d h, Nat.add_zero]
  have hne : type = .none ∨ type = .vfs ∨ type = .console ∨ type = .device ∨ type = .ext2 ∨ type = .epoll →
      type ≠ t := by
    rintro h rfl
    rcases ht with h' | h' | h' <;> rw [h'] at h <;> simp at h
  have hpipe : ∀ x, x = .pipeRead ∨ x = .pipeWrite → (x = t → 0 < held s t data) →
      held (if data = 0 then s else pipeIncRef s data x) t d = held s t d+names ⟨x,data,offset⟩ t d := by
    intro x hx hpos
    have hlive : x = t → (t = .pipeRead ∨ t = .pipeWrite) → s.pipes data ≠ none :=
      fun h h' => live_of_held s h' (hpos h)
    by_cases h0 : data = 0
    · rw [if_pos h0, names_of_type, Nat.add_zero]
      rintro rfl
      rcases hnull with hs | hnull
      · rcases hx with h | h <;> simp [h] at hs
      · exact hlive rfl hx (h0 ▸ hnull)
    · rw [if_neg h0]
      exact inc_ref_held s d hlive hx
  cases type with
  | pipeRead => exact hpipe .pipeRead (.inl rfl) hpos
  | pipeWrite => exact hpipe .pipeWrite (.inr rfl) hpos
  | socket =>
    by_cases hts : t = .socket
    · subst hts
      have h := sock_held_inc data d (hpos rfl)
      simpa [held, names, addRef] using h
    · exact (held_stack s _ d hts).trans (hnone (Ne.symm hts))
  | epoll | none | vfs | console | device | ext2 => exact hnone (hne (by simp))

/-! ## What each call does to the counts

On one side the entries (`refs`), on the other what the objects claim
(`held`). -/

theorem refs_table {s s' : Files} (t : FdType) (d : ℕ) (h : s'.table = s.table) : refs s' t d = refs s t d := by
  unfold refs
  rw [h]

theorem refs_change (s s' : Files) (p : ℕ) (t : FdType) (d : ℕ) (hp : p < maxProcesses)
    (h : ∀ q, q ≠ p → s'.table q = s.table q) :
    refs s' t d+share (s.table p) t d = refs s t d+share (s'.table p) t d :=
  sum_change (fun q => share (s.table q) t d) (fun q => share (s'.table q) t d)
    (Finset.mem_range.mpr hp) (fun q hq => by rw [h q hq])

theorem held_set_proc (t : FdType) (d : ℕ) : held (setProc s p f) t d = held s t d := by
  cases t <;> rfl

theorem held_process_alloc (t : FdType) (d : ℕ) :
    held (processAlloc s slot) t d = held s t d := by
  cases t <;> rfl

theorem inc_ref_table (type : FdType) : (pipeIncRef s a type).table = s.table := by
  cases type <;> rfl

theorem drop_ref_table : (dropRef s fd).table = s.table := by
  obtain ⟨type,data,offset⟩ := fd
  cases type with
  | epoll =>
    simp only [dropRef, epollDestroy]
    split_ifs <;> rfl
  | _ => rfl

theorem dup_drop_table : (dupDrop s fd).table = s.table := by
  obtain ⟨type,data,offset⟩ := fd
  cases type <;> rfl

theorem add_ref_table : (addRef s fd).table = s.table := by
  obtain ⟨type,data,offset⟩ := fd
  cases type with
  | pipeRead | pipeWrite =>
    simp only [addRef]
    split_ifs <;> rfl
  | _ => rfl

theorem runs_table {s s' : Files} {p : ℕ} (h : s'.table = s.table) (hp : Runs s p) : Runs s' p :=
  ⟨hp.1,by rw [h]; exact hp.2⟩

theorem fd_of_table {s s' : Files} (p i : ℕ) (h : s'.table = s.table) : fdOf s' p i = fdOf s p i := by
  unfold fdOf
  rw [h]

theorem refs_overwrite (s s' : Files) (p i : ℕ) (fd : Fd) (t : FdType) (d : ℕ) (h : s'.table = s.table)
    (hp : Runs s p) (hi : i < processMaxFds) :
    refs (setFd s' p i fd) t d+names (fdOf s p i) t d = refs s t d+names fd t d := by
  have hr := refs_set_fd s' fd t d (runs_table h hp) hi
  rwa [fd_of_table p i h, refs_table t d h] at hr

theorem refs_close (p fd : ℕ) (t : FdType) (d : ℕ) (ht : t ≠ .none) (hp : Runs s p)
    (hfd : ¬(processMaxFds ≤ fd ∨ fd < 3)) (hopen : (fdOf s p fd).type ≠ .none) :
    refs (syscallClose s p fd).1 t d+names (fdOf s p fd) t d = refs s t d := by
  have hr := refs_overwrite s (dropRef s (fdOf s p fd)) p fd {} t d (drop_ref_table ..) hp (by omega)
  rwa [names_of_type {} d (Ne.symm ht), Nat.add_zero,
    show setFd (dropRef s (fdOf s p fd)) p fd {} = (syscallClose s p fd).1 by
      rw [syscallClose, if_neg hfd, if_neg hopen]] at hr

theorem held_close (p fd : ℕ) (t : FdType) (d : ℕ) (ht : Counted t)
    (hfd : ¬(processMaxFds ≤ fd ∨ fd < 3)) (hopen : (fdOf s p fd).type ≠ .none) :
    held (syscallClose s p fd).1 t d = held s t d-names (fdOf s p fd) t d := by
  rw [syscallClose, if_neg hfd, if_neg hopen]
  exact (held_set_proc ..).trans (drop_ref_held s _ d ht)

def Copies (p oldfd newfd : ℕ) : Prop :=
  oldfd < processMaxFds ∧ newfd < processMaxFds ∧ (fdOf s p oldfd).type ≠ .none ∧ oldfd ≠ newfd

theorem dup2_copies {p oldfd newfd : ℕ} (h : Copies s p oldfd newfd) :
    (syscallDup2 s p oldfd newfd).1 =
      pipeIncRef (setFd (dupDrop s (fdOf s p newfd)) p newfd (fdOf s p oldfd))
        (fdOf s p oldfd).data (fdOf s p oldfd).type := by
  rw [syscallDup2, if_neg (by have := h.1; have := h.2.1; omega), if_neg h.2.2.1, if_neg h.2.2.2]

theorem dup2_idle {p oldfd newfd : ℕ} (h : ¬Copies s p oldfd newfd) :
    (syscallDup2 s p oldfd newfd).1 = s := by
  unfold syscallDup2
  split_ifs with h1 h2 h3
  · rfl
  · rfl
  · rfl
  · exact absurd ⟨by omega,by omega,h2,h3⟩ h

theorem refs_dup2 {p oldfd newfd : ℕ} (t : FdType) (d : ℕ) (hp : Runs s p)
    (h : Copies s p oldfd newfd) :
    refs (syscallDup2 s p oldfd newfd).1 t d+names (fdOf s p newfd) t d =
      refs s t d+names (fdOf s p oldfd) t d := by
  rw [dup2_copies s h, refs_table t d (inc_ref_table ..)]
  exact refs_overwrite s _ p newfd _ t d (dup_drop_table ..) hp h.2.1

theorem share_dead (t : FdType) (d : ℕ) (h : alive x = false) : share x t d = 0 := by
  rw [share, h]
  rfl

theorem alive_unused (h : x.state = .unused) : alive x = false := by
  rw [alive, h]
  rfl

theorem alive_zombie (h : x.state = .zombie) : alive x = false := by
  rw [alive, h]
  rfl

theorem refs_fill (s s' : Files) (slot : ℕ) (t : FdType) (d : ℕ) (hs : Unused s slot)
    (h : ∀ q, q ≠ slot → s'.table q = s.table q) :
    refs s' t d = refs s t d+share (s'.table slot) t d := by
  have hr := refs_change s s' slot t d hs.1 h
  rwa [share_dead _ t d (alive_unused _ hs.2), Nat.add_zero] at hr

theorem refs_end {s s' : Files} {p : ℕ} (t : FdType) (d : ℕ) (hp : Runs s p)
    (h : ∀ q, q ≠ p → s'.table q = s.table q) (hdead : alive (s'.table p) = false) :
    refs s' t d+row (s.table p).fdTable t d = refs s t d := by
  have hr := refs_change s s' p t d hp.1 h
  rwa [share_dead _ t d hdead, Nat.add_zero, share, if_pos hp.2] at hr

theorem refs_terminate (hp : Runs s p) : refs (terminate s p) t d+row (s.table p).fdTable t d = refs s t d := by
  apply refs_end t d hp
  · exact fun q hq => set_proc_other _ _ _ _ hq
  · rw [terminate, set_proc_self]
    exact alive_zombie _ rfl

theorem refs_reap {z : ℕ} (t : FdType) (d : ℕ) (hz : z < maxProcesses)
    (hs : (s.table z).state = .zombie) : refs (reap s z) t d = refs s t d := by
  have hr := refs_change s (reap s z) z t d hz (fun q hq => set_proc_other _ _ _ _ hq)
  have hold : share (s.table z) t d = 0 := share_dead _ t d (alive_zombie _ hs)
  have hnew : share ((reap s z).table z) t d = 0 := by
    rw [reap, set_proc_self]
    exact share_dead _ t d (alive_unused _ rfl)
  omega

theorem row_zero (h : ∀ i < processMaxFds, (fds i).type ≠ t) : row fds t d = 0 :=
  Finset.sum_eq_zero fun i hi => names_of_type _ d (h i (Finset.mem_range.mp hi))

theorem fd_init_type : (processFdInit i).type = .console ∨ (processFdInit i).type = .none := by
  unfold processFdInit
  split_ifs
  · exact .inl rfl
  · exact .inr rfl

/-- The types of objects that only calls of the process itself install. -/
def Fresh : Prop := t ≠ .none ∧ t ≠ .console

theorem row_fd_init (ht : Fresh t) : row processFdInit t d = 0 := by
  apply row_zero
  intro i _ hi
  rcases fd_init_type i with h | h
  · exact ht.2 (hi.symm.trans h)
  · exact ht.1 (hi.symm.trans h)

theorem create_self : (processCreate s slot).table slot =
    { pid := s.nextPid, state := .ready, fdTable := processFdInit } := by
  exact update_self ..

theorem create_other (slot q : ℕ) (hq : q ≠ slot) : (processCreate s slot).table q = s.table q := by
  exact update_of_ne hq ..

theorem refs_create (t : FdType) (d : ℕ) (ht : Fresh t) (hs : Unused s slot) :
    refs (processCreate s slot) t d = refs s t d := by
  have hrow : share ((processCreate s slot).table slot) t d = 0 := by
    rw [create_self]
    exact row_fd_init t d ht
  rw [refs_fill s _ slot t d hs (create_other s slot), hrow, Nat.add_zero]

theorem add_refs_table (n : ℕ) (s : Files) :
    ((List.range n).foldl (fun s i => addRef s (fds i)) s).table = s.table := by
  induction n with
  | zero => rfl
  | succ n ih =>
    rw [List.range_succ, List.foldl_append]
    exact (add_ref_table ..).trans ih

theorem add_ref_null (h : s.pipes 0 = none) : (addRef s fd).pipes 0 = none := by
  have hset : ∀ f, (setEnds s fd.data f).pipes 0 = none := by
    intro f
    by_cases h0 : 0 = fd.data
    · rw [← h0]
      unfold setEnds
      dsimp only
      rw [h]
      rfl
    · exact (update_of_ne h0 ..).trans h
  unfold addRef
  split
  · split_ifs
    · exact h
    · exact hset _
  · split_ifs
    · exact h
    · exact hset _
  · exact h
  · exact h

theorem add_refs_held (s : Files) (t : FdType) (ht : Counted t)
    (hnull : t = .socket ∨ s.pipes 0 = none) (n : ℕ) (hpos : ∀ i < n, (fds i).type = t → 0 < held s t (fds i).data) :
    (t = .socket ∨ ((List.range n).foldl (fun s i => addRef s (fds i)) s).pipes 0 = none) ∧
      ∀ d, held ((List.range n).foldl (fun s i => addRef s (fds i)) s) t d =
        held s t d+∑ i ∈ Finset.range n, names (fds i) t d := by
  induction n with
  | zero => exact ⟨hnull,fun d => rfl⟩
  | succ n ih =>
    obtain ⟨h0,hheld⟩ := ih (fun i hi => hpos i (by omega))
    simp only [List.range_succ, List.foldl_append, List.foldl_cons, List.foldl_nil]
    refine ⟨h0.imp_right (add_ref_null _ _),fun d => ?_⟩
    rw [add_ref_held _ d ht h0, hheld, Finset.sum_range_succ, Nat.add_assoc]
    intro htype
    rw [hheld]
    have := hpos n (by omega) htype
    omega

theorem alloc_other {slot q : ℕ} (hq : q ≠ slot) : (processAlloc s slot).table q = s.table q := by
  exact update_of_ne hq ..

theorem alloc_self : (processAlloc s slot).table slot = { pid := s.nextPid } := by
  exact update_self ..

theorem fork_other (p slot : ℕ) (ok : Bool) (q : ℕ) (hq : q ≠ slot) :
    (syscallFork s p slot ok).table q = s.table q := by
  unfold syscallFork
  cases ok with
  | false => exact alloc_other s hq
  | true =>
    rw [if_pos rfl, add_refs_table]
    exact (set_proc_other _ _ _ _ hq).trans (alloc_other s hq)

theorem refs_fork (p : ℕ) {slot : ℕ} (ok : Bool) (t : FdType) (d : ℕ) (hs : Unused s slot) :
    refs (syscallFork s p slot ok) t d = refs s t d+if ok then row (s.table p).fdTable t d else 0 := by
  rw [refs_fill s _ slot t d hs (fork_other s p slot ok)]
  congr 1
  unfold syscallFork
  cases ok with
  | false =>
    change share ((processAlloc s slot).table slot) t d = 0
    rw [alloc_self]
    exact share_dead _ t d (alive_unused _ rfl)
  | true =>
    rw [if_pos rfl, add_refs_table, set_proc_self]
    rfl

theorem held_fork (p slot : ℕ) (ok : Bool) {t : FdType} (d : ℕ) (ht : Counted t)
    (hnull : t = .socket ∨ s.pipes 0 = none)
    (hpos : ∀ i < processMaxFds, (fdOf s p i).type = t → 0 < held s t (fdOf s p i).data) :
    held (syscallFork s p slot ok) t d = held s t d+if ok then row (s.table p).fdTable t d else 0 := by
  unfold syscallFork
  cases ok with
  | false => exact held_process_alloc s slot t d
  | true =>
    rw [if_pos rfl]
    have hheld : ∀ f d, held (setProc (processAlloc s slot) slot f) t d = held s t d :=
      fun f d => (held_set_proc ..).trans (held_process_alloc s slot t d)
    have hloop := fun f => add_refs_held (s.table p).fdTable (setProc (processAlloc s slot) slot f) t ht hnull
      processMaxFds (fun i hi h => by rw [hheld]; exact hpos i hi h)
    rw [(hloop _).2 d]
    rfl

theorem exit_fd_other (p i q : ℕ) (hq : q ≠ p) : (exitFd s p i).table q = s.table q := by
  unfold exitFd
  dsimp only
  split
  · exact set_proc_other _ _ _ _ hq
  · exact set_proc_other _ _ _ _ hq
  · exact set_proc_other _ _ _ _ hq
  · rfl

theorem exit_fd_entry (p i j : ℕ) (hj : j ≠ i) : fdOf (exitFd s p i) p j = fdOf s p j := by
  have hset : ∀ (s' : Files) (fd : Fd), s'.table = s.table → fdOf (setFd s' p i fd) p j = fdOf s p j := by
    intro s' fd h
    unfold fdOf setFd
    rw [set_proc_self, h]
    exact update_of_ne hj ..
  unfold exitFd
  dsimp only
  split
  · exact hset _ _ rfl
  · exact hset _ _ rfl
  · exact hset _ _ rfl
  · rfl

theorem exit_fd_held (p i : ℕ) {t : FdType} (d : ℕ) (ht : Counted t) :
    held (exitFd s p i) t d = held s t d-names (fdOf s p i) t d := by
  have h := drop_ref_held s (fdOf s p i) d ht
  unfold dropRef at h
  unfold exitFd
  dsimp only
  split
  · next he => rw [he] at h; exact (held_set_proc ..).trans h
  · next he => rw [he] at h; exact (held_set_proc ..).trans h
  · next he => rw [he] at h; exact (held_set_proc ..).trans h
  · next h1 h2 h3 =>
    rw [names_of_type, Nat.sub_zero]
    rintro rfl
    rcases ht with h' | h' | h'
    · exact h1 h'
    · exact h2 h'
    · exact h3 h'

theorem exit_loop (p n : ℕ) :
    (∀ q, q ≠ p → ((List.range n).foldl (fun s i => exitFd s p i) s).table q = s.table q) ∧
    (∀ j, n ≤ j → fdOf ((List.range n).foldl (fun s i => exitFd s p i) s) p j = fdOf s p j) ∧
    ∀ t d, Counted t → held ((List.range n).foldl (fun s i => exitFd s p i) s) t d =
      held s t d-∑ i ∈ Finset.range n, names (fdOf s p i) t d := by
  induction n with
  | zero => exact ⟨fun _ _ => rfl,fun _ _ => rfl,fun _ _ _ => rfl⟩
  | succ n ih =>
    obtain ⟨hother,hentry,hheld⟩ := ih
    simp only [List.range_succ, List.foldl_append, List.foldl_cons, List.foldl_nil]
    refine ⟨fun q hq => (exit_fd_other _ p n q hq).trans (hother q hq),fun j hj => ?_,fun t d ht => ?_⟩
    · exact (exit_fd_entry _ p n j (by omega)).trans (hentry j (by omega))
    · rw [exit_fd_held _ p n d ht, hheld t d ht, hentry n (le_refl n), Finset.sum_range_succ, Nat.sub_sub]

theorem refs_exit (hp : Runs s p) : refs (syscallExit s p) t d+row (s.table p).fdTable t d = refs s t d := by
  apply refs_end t d hp
  · exact fun q hq => (set_proc_other _ _ _ _ hq).trans ((exit_loop s p processMaxFds).1 q hq)
  · rw [syscallExit, set_proc_self]
    exact alive_zombie _ rfl

theorem held_exit (ht : Counted t) : held (syscallExit s p) t d = held s t d-row (s.table p).fdTable t d :=
  (held_set_proc ..).trans ((exit_loop s p processMaxFds).2.2 t d ht)

theorem alloc_some {start i : ℕ} (h : processFdAlloc fds start = some i) :
    i < processMaxFds ∧ start ≤ i ∧ (fds i).type = .none ∧
      ∀ j, start ≤ j → j < i → (fds j).type ≠ .none := by
  obtain ⟨hi,k,hk,hget,hmin⟩ := List.find?_eq_some_iff_getElem.mp h
  rw [List.getElem_range] at hget
  subst hget
  simp only [Bool.and_eq_true, decide_eq_true_eq, beq_iff_eq] at hi
  refine ⟨by simpa using hk,hi.1,hi.2,fun j hj hjk => ?_⟩
  have := hmin j hjk
  simpa [hj] using this

theorem alloc_none {start : ℕ} (h : processFdAlloc fds start = none) {i : ℕ}
    (hs : start ≤ i) (hi : i < processMaxFds) : (fds i).type ≠ .none := by
  have := List.find?_eq_none.mp h i (List.mem_range.mpr hi)
  simpa [hs] using this

theorem install_some {s s' : Files} {p i : ℕ} {fd : Fd} (h : installFd s p fd = some (s',i)) :
    s' = setFd s p i fd ∧ i < processMaxFds ∧ 3 ≤ i ∧ (fdOf s p i).type = .none := by
  obtain ⟨j,hj,heq⟩ := Option.map_eq_some_iff.mp h
  obtain ⟨rfl,rfl⟩ := Prod.mk.inj heq
  obtain ⟨hlt,hge,htype,-⟩ := alloc_some _ hj
  exact ⟨rfl,hlt,hge,htype⟩

theorem refs_install (s s' : Files) (p i : ℕ) (fd : Fd) (t : FdType) (d : ℕ) (ht : t ≠ .none)
    (hp : Runs s p) (h : installFd s p fd = some (s',i)) : refs s' t d = refs s t d+names fd t d := by
  obtain ⟨rfl,hi,-,htype⟩ := install_some h
  have hr := refs_set_fd s fd t d hp hi
  rwa [names_of_type _ d (fun hh => ht (hh.symm.trans htype)), Nat.add_zero] at hr

end HobbyOS.Descriptors
