import HobbyOS.PipeRefs

/-!
# Socket and epoll references against descriptor entries

A socket counts its references, an epoll instance only knows that it is in
use. `fork`, `exit` and `close` treat sockets alike; `dup2` forgets them, and
an epoll instance is destroyed by the first `close` and by no `exit`.
-/

namespace HobbyOS.SocketRefs
open Process Socket Descriptors Function

variable (s : Files) (p : ℕ)

def EpollOpen (i : ℕ) : Prop := i < epollMaxInstances ∧ (s.epolls i).inUse = true

/-- Each socket counts its entries and is in use while it has one, and so is
each epoll instance. -/
structure RefsExact (s : Files) : Prop where
  count : ∀ i < maxSockets, (s.stack.sockets i).inUse = true → (s.stack.sockets i).refcount = refs s .socket i
  socket : ∀ i, (i < maxSockets ∧ (s.stack.sockets i).inUse = true) ↔ 0 < refs s .socket i
  epoll : ∀ i, EpollOpen s i ↔ 0 < refs s .epoll i

/-- Another live process refers to each epoll instance of `p`. -/
def Elsewhere : Prop :=
  ∀ i < processMaxFds, (fdOf s p i).type = .epoll →
    row (s.table p).fdTable .epoll (fdOf s p i).data < refs s .epoll (fdOf s p i).data

def SocketGood : Op → Prop
  | .close p fd => 3 ≤ fd → fd < processMaxFds → (fdOf s p fd).type = .epoll →
      refs s .epoll (fdOf s p fd).data = 1
  | .dup2 p oldfd newfd => Copies s p oldfd newfd →
      ((fdOf s p oldfd).type = .socket ∨ (fdOf s p newfd).type = .socket →
        (fdOf s p oldfd).type = (fdOf s p newfd).type ∧ (fdOf s p oldfd).data = (fdOf s p newfd).data) ∧
      ((fdOf s p newfd).type = .epoll →
        ((fdOf s p oldfd).type = .epoll ∧ (fdOf s p oldfd).data = (fdOf s p newfd).data) ∨
          2 ≤ refs s .epoll (fdOf s p newfd).data)
  | .exit p => Elsewhere s p
  | .terminate p => (∀ i < processMaxFds, (fdOf s p i).type ≠ .socket) ∧ Elsewhere s p
  | _ => True

structure Inv (s : Files) : Prop where
  exact : ∀ d, held s .socket d = refs s .socket d
  positive : SocksPositive s.stack
  epoll : ∀ i, EpollOpen s i ↔ 0 < refs s .epoll i

theorem held_socket (i : ℕ) : held s .socket i = sockHeld s.stack i := rfl

theorem inv_of_exact (h : RefsExact s) : Inv s := by
  refine ⟨fun d => ?_,fun i hi hu => ?_,h.epoll⟩
  · have hs := h.socket d
    rw [held_socket, sockHeld]
    by_cases hd : d < maxSockets
    · rw [if_pos hd, claims]
      by_cases hu : (s.stack.sockets d).inUse = true
      · rw [if_pos hu, h.count d hd hu]
        rfl
      · rw [if_neg hu]
        have : ¬0 < refs s .socket d := fun hp => hu (hs.mpr hp).2
        omega
    · rw [if_neg hd]
      omega
  · rw [h.count i hi hu]
    exact_mod_cast (h.socket i).mp ⟨hi,hu⟩

theorem exact_of_inv (h : Inv s) : RefsExact s := by
  have hlive : ∀ i, i < maxSockets → (s.stack.sockets i).inUse = true →
      (s.stack.sockets i).refcount = refs s .socket i := by
    intro i hi hu
    have hx := h.exact i
    have hp := h.positive i hi hu
    rw [held_socket, sockHeld, if_pos hi, claims, if_pos hu] at hx
    omega
  refine ⟨hlive,fun i => ⟨fun hi => ?_,fun hp => ?_⟩,h.epoll⟩
  · have hp := h.positive i hi.1 hi.2
    rw [hlive i hi.1 hi.2] at hp
    exact_mod_cast hp
  · rw [← h.exact i] at hp
    have hl := sock_live s.stack i hp
    exact ⟨hl.1,hl.2.1⟩

theorem inv_frame (s s' : Files) (h : Inv s) (hsock : s'.stack.sockets = s.stack.sockets)
    (hep : s'.epolls = s.epolls) (hrefs : ∀ t d, t = .socket ∨ t = .epoll → refs s' t d = refs s t d) : Inv s' := by
  refine ⟨fun d => ?_,?_,fun i => ?_⟩
  · rw [hrefs .socket d (.inl rfl), ← h.exact d, held_socket, held_socket, sockHeld, sockHeld, hsock]
  · intro i hi hu
    rw [hsock] at hu ⊢
    exact h.positive i hi hu
  · rw [hrefs .epoll i (.inr rfl), ← h.epoll i, EpollOpen, EpollOpen, hep]

variable {i : ℕ} {x : Sock} {st st' : Stack} (fd : Fd) (ok : Bool) (mem : Option ℕ)

theorem drop_ref_positive (h : SocksPositive s.stack) : SocksPositive (dropRef s fd).stack := by
  obtain ⟨type,data,offset⟩ := fd
  cases type with
  | socket => exact socks_positive_close s.stack data h
  | epoll =>
    simp only [dropRef, epollDestroy]
    split_ifs <;> exact h
  | _ => exact h

/-- The first `close` ends an epoll instance. -/
theorem drop_ref_epoll (i : ℕ) : EpollOpen (dropRef s fd) i ↔ EpollOpen s i ∧ names fd .epoll i = 0 := by
  obtain ⟨type,data,offset⟩ := fd
  cases type with
  | epoll =>
    unfold EpollOpen
    simp only [dropRef, epollDestroy, names]
    by_cases hi : i = data
    · subst hi
      by_cases hlt : i < epollMaxInstances <;> simp [hlt]
    · by_cases hlt : data < epollMaxInstances <;> simp [hlt, update_of_ne hi, Ne.symm hi]
  | _ => exact ⟨fun h => ⟨h,rfl⟩,fun h => h.1⟩

theorem close_inv_iff (p fd : ℕ) (h : Inv s) (hp : Runs s p) :
    Inv (syscallClose s p fd).1 ↔ SocketGood s (.close p fd) := by
  by_cases hfd : processMaxFds ≤ fd ∨ fd < 3
  · rw [syscallClose, if_pos hfd]
    exact ⟨fun _ h3 hlt => by omega,fun _ => h⟩
  by_cases hopen : (fdOf s p fd).type = .none
  · rw [syscallClose, if_neg hfd, if_pos hopen]
    exact ⟨fun _ _ _ he => by rw [hopen] at he; simp at he,fun _ => h⟩
  have hrefs := fun t d ht => refs_close s p fd t d ht hp hfd hopen
  have hheld := fun d => held_close s p fd .socket d (.inr (.inr rfl)) hfd hopen
  have heq : (syscallClose s p fd).1 = setFd (dropRef s (fdOf s p fd)) p fd {} := by
    rw [syscallClose, if_neg hfd, if_neg hopen]
  have hep : ∀ i, EpollOpen (syscallClose s p fd).1 i ↔ EpollOpen s i ∧ names (fdOf s p fd) .epoll i = 0 := by
    rw [heq]
    exact drop_ref_epoll s (fdOf s p fd)
  constructor
  · intro h' _ _ htype
    have hself : names (fdOf s p fd) .epoll (fdOf s p fd).data = 1 := by
      rw [← htype]
      exact names_self _
    have hr := hrefs .epoll (fdOf s p fd).data (by simp)
    have hclosed : ¬EpollOpen (syscallClose s p fd).1 (fdOf s p fd).data := by
      rw [hep, hself]
      simp
    rw [h'.epoll] at hclosed
    omega
  · intro hg
    refine ⟨fun d => ?_,?_,fun i => ?_⟩
    · have hr := hrefs .socket d (by simp)
      rw [hheld, h.exact d]
      omega
    · rw [heq]
      exact drop_ref_positive s _ h.positive
    · have hr := hrefs .epoll i (by simp)
      rw [hep, h.epoll i]
      by_cases hn : names (fdOf s p fd) .epoll i = 0
      · constructor
        · intro hh
          omega
        · intro hh
          exact ⟨by omega,hn⟩
      · obtain ⟨htype,hdata⟩ : (fdOf s p fd).type = .epoll ∧ (fdOf s p fd).data = i := by
          by_contra hne
          exact hn (if_neg hne)
        have hone := hg (by omega) (by omega) htype
        rw [hdata] at hone
        constructor
        · exact fun hh => absurd hh.2 hn
        · intro hh
          omega

theorem dup2_objects (p oldfd newfd : ℕ) :
    (syscallDup2 s p oldfd newfd).1.stack = s.stack ∧ (syscallDup2 s p oldfd newfd).1.epolls = s.epolls := by
  have hinc : ∀ (s : Files) (a : ℕ) (type : FdType),
      (pipeIncRef s a type).stack = s.stack ∧ (pipeIncRef s a type).epolls = s.epolls := by
    intro s a type
    cases type <;> exact ⟨rfl,rfl⟩
  have hdrop : ∀ fd : Fd, (dupDrop s fd).stack = s.stack ∧ (dupDrop s fd).epolls = s.epolls := by
    intro fd
    unfold dupDrop
    split <;> exact ⟨rfl,rfl⟩
  by_cases hc : Copies s p oldfd newfd
  · rw [dup2_copies s hc]
    exact ⟨(hinc _ _ _).1.trans (hdrop _).1,(hinc _ _ _).2.trans (hdrop _).2⟩
  · rw [dup2_idle s hc]
    exact ⟨rfl,rfl⟩

theorem names_agree (a b : Fd) (t : FdType) :
    (∀ d, names a t d = names b t d) ↔ (a.type = t ∨ b.type = t → a.type = b.type ∧ a.data = b.data) := by
  constructor
  · rintro h (ha | hb)
    · have hd := h a.data
      subst ha
      rw [names_self] at hd
      unfold names at hd
      split_ifs at hd with hb
      · exact ⟨hb.1.symm,hb.2.symm⟩
    · have hd := h b.data
      subst hb
      rw [names_self] at hd
      unfold names at hd
      split_ifs at hd with ha
      · exact ha
  · intro h d
    by_cases ht : a.type = t ∨ b.type = t
    · obtain ⟨h1,h2⟩ := h ht
      unfold names
      rw [h1, h2]
    · rw [not_or] at ht
      rw [names_of_type a d ht.1, names_of_type b d ht.2]

theorem dup2_inv_iff (p oldfd newfd : ℕ) (h : Inv s) (hp : Runs s p) :
    Inv (syscallDup2 s p oldfd newfd).1 ↔ SocketGood s (.dup2 p oldfd newfd) := by
  by_cases hc : Copies s p oldfd newfd
  swap
  · rw [dup2_idle s hc]
    exact ⟨fun _ hc' => absurd hc' hc,fun _ => h⟩
  obtain ⟨hstack,hep⟩ := dup2_objects s p oldfd newfd
  have hrefs := fun t d => refs_dup2 s t d hp hc
  have hold := fun t d => names_le_refs s t d hp hc.1
  have hnew := fun t d => names_le_refs s t d hp hc.2.1
  have hheld : ∀ d, held (syscallDup2 s p oldfd newfd).1 .socket d = refs s .socket d := by
    intro d
    rw [held_socket, hstack]
    exact h.exact d
  have hopen : ∀ i, EpollOpen (syscallDup2 s p oldfd newfd).1 i ↔ 0 < refs s .epoll i := by
    intro i
    rw [EpollOpen, hep]
    exact h.epoll i
  constructor
  · intro h' _
    refine ⟨(names_agree _ _ .socket).mp fun d => ?_,fun htype => ?_⟩
    · have hr := hrefs .socket d
      have hx := h'.exact d
      rw [hheld d] at hx
      omega
    · have hself : names (fdOf s p newfd) .epoll (fdOf s p newfd).data = 1 := by
        rw [← htype]
        exact names_self _
      have hr := hrefs .epoll (fdOf s p newfd).data
      have hle := hnew .epoll (fdOf s p newfd).data
      have hx := (h'.epoll (fdOf s p newfd).data).mp ((hopen _).mpr (by omega))
      by_cases hsame : (fdOf s p oldfd).type = .epoll ∧ (fdOf s p oldfd).data = (fdOf s p newfd).data
      · exact .inl hsame
      · have hzero : names (fdOf s p oldfd) .epoll (fdOf s p newfd).data = 0 := if_neg hsame
        exact .inr (by omega)
  · intro hg
    obtain ⟨hsock,hepoll⟩ := hg hc
    refine ⟨fun d => ?_,?_,fun i => ?_⟩
    · have hr := hrefs .socket d
      have hn := (names_agree _ _ .socket).mpr hsock d
      rw [hheld d]
      omega
    · rw [hstack]
      exact h.positive
    · have hr := hrefs .epoll i
      have hlo := hold .epoll i
      rw [hopen]
      by_cases hn : (fdOf s p newfd).type = .epoll ∧ (fdOf s p newfd).data = i
      · obtain ⟨htype,rfl⟩ := hn
        have hself : names (fdOf s p newfd) .epoll (fdOf s p newfd).data = 1 := if_pos ⟨htype,rfl⟩
        rcases hepoll htype with hsame | htwo
        · have hone : names (fdOf s p oldfd) .epoll (fdOf s p newfd).data = 1 := if_pos hsame
          omega
        · omega
      · have hzero : names (fdOf s p newfd) .epoll i = 0 := if_neg hn
        omega

theorem row_pos (fds : ℕ → Fd) {t : FdType} {d : ℕ} (h : 0 < row fds t d) :
    ∃ i < processMaxFds, (fds i).type = t ∧ (fds i).data = d := by
  obtain ⟨i,hi,hn⟩ := Finset.exists_ne_zero_of_sum_ne_zero (Nat.pos_iff_ne_zero.mp h)
  refine ⟨i,Finset.mem_range.mp hi,?_⟩
  by_contra hne
  exact hn (if_neg hne)

theorem row_of_entry {p i : ℕ} {t : FdType} (hi : i < processMaxFds) (ht : (fdOf s p i).type = t) :
    0 < row (s.table p).fdTable t (fdOf s p i).data := by
  have hle := names_le_row (s.table p).fdTable t (fdOf s p i).data hi
  have hone : names ((s.table p).fdTable i) t (fdOf s p i).data = 1 := if_pos ⟨ht,rfl⟩
  omega

theorem elsewhere_iff (hp : Runs s p) :
    Elsewhere s p ↔ ∀ d, 0 < refs s .epoll d → 0 < refs s .epoll d-row (s.table p).fdTable .epoll d := by
  constructor
  · intro h d hd
    by_cases hr : 0 < row (s.table p).fdTable .epoll d
    · obtain ⟨i,hi,ht,rfl⟩ := row_pos _ hr
      have := h i hi ht
      unfold fdOf at this
      omega
    · omega
  · intro h i hi ht
    have hr := row_of_entry s hi ht
    have hle := row_le_refs s p .epoll (fdOf s p i).data hp
    have := h _ (by omega : 0 < refs s .epoll (fdOf s p i).data)
    omega

theorem end_inv_iff (s s' : Files) (p : ℕ) (h : Inv s) (hp : Runs s p) (hpos : SocksPositive s'.stack)
    (hep : s'.epolls = s.epolls) (hrefs : ∀ t d, refs s' t d+row (s.table p).fdTable t d = refs s t d) :
    Inv s' ↔ (∀ d, held s' .socket d = refs s .socket d-row (s.table p).fdTable .socket d) ∧ Elsewhere s p := by
  have hopen : ∀ i, EpollOpen s' i ↔ 0 < refs s .epoll i := by
    intro i
    rw [EpollOpen, hep]
    exact h.epoll i
  rw [elsewhere_iff s p hp]
  constructor
  · intro h'
    refine ⟨fun d => ?_,fun d hd => ?_⟩
    · have hr := hrefs .socket d
      rw [h'.exact d]
      omega
    · have hr := hrefs .epoll d
      have hx := (h'.epoll d).mp ((hopen d).mpr hd)
      omega
  · rintro ⟨hheld,helse⟩
    refine ⟨fun d => ?_,hpos,fun i => ?_⟩
    · have hr := hrefs .socket d
      rw [hheld d]
      omega
    · have hr := hrefs .epoll i
      have he := helse i
      rw [hopen]
      omega

theorem exit_fd_objects (p i : ℕ) (h : SocksPositive s.stack) :
    SocksPositive (exitFd s p i).stack ∧ (exitFd s p i).epolls = s.epolls := by
  unfold exitFd
  dsimp only
  split
  · exact ⟨h,rfl⟩
  · exact ⟨h,rfl⟩
  · exact ⟨socks_positive_close s.stack _ h,rfl⟩
  · exact ⟨h,rfl⟩

theorem exit_objects (l : List ℕ) (s : Files) (p : ℕ) (h : SocksPositive s.stack) :
    SocksPositive (l.foldl (fun s i => exitFd s p i) s).stack ∧
      (l.foldl (fun s i => exitFd s p i) s).epolls = s.epolls := by
  induction l generalizing s with
  | nil => exact ⟨h,rfl⟩
  | cons i l ih =>
    obtain ⟨hpos,hep⟩ := exit_fd_objects s p i h
    obtain ⟨hpos',hep'⟩ := ih (exitFd s p i) hpos
    exact ⟨hpos',hep'.trans hep⟩

theorem exit_inv_iff (h : Inv s) (hp : Runs s p) :
    Inv (syscallExit s p) ↔ SocketGood s (.exit p) := by
  obtain ⟨hpos,hep⟩ := exit_objects (List.range processMaxFds) s p h.positive
  rw [end_inv_iff s (syscallExit s p) p h hp hpos hep (fun t d => refs_exit s p t d hp)]
  constructor
  · exact fun hh => hh.2
  · intro hg
    refine ⟨fun d => ?_,hg⟩
    rw [held_exit s p .socket d (.inr (.inr rfl)), h.exact d]

theorem terminate_inv_iff (h : Inv s) (hp : Runs s p) :
    Inv (terminate s p) ↔ SocketGood s (.terminate p) := by
  rw [end_inv_iff s (terminate s p) p h hp h.positive rfl (fun t d => refs_terminate s p t d hp)]
  have hheld : ∀ d, held (terminate s p) .socket d = refs s .socket d := h.exact
  refine and_congr_left fun _ => ⟨fun hx i hi ht => ?_,fun hno d => ?_⟩
  · have hr := row_of_entry s hi ht
    have hle := row_le_refs s p .socket (fdOf s p i).data hp
    have := hx (fdOf s p i).data
    rw [hheld] at this
    omega
  · rw [hheld, row_zero (s.table p).fdTable .socket d hno, Nat.sub_zero]

theorem fork_objects (p slot : ℕ) (ok : Bool) (h : SocksPositive s.stack) :
    SocksPositive (syscallFork s p slot ok).stack ∧ (syscallFork s p slot ok).epolls = s.epolls := by
  have hadd : ∀ (s : Files) (fd : Fd), SocksPositive s.stack →
      SocksPositive (addRef s fd).stack ∧ (addRef s fd).epolls = s.epolls := by
    intro s fd h
    unfold addRef
    split
    · split_ifs <;> exact ⟨h,rfl⟩
    · split_ifs <;> exact ⟨h,rfl⟩
    · exact ⟨socks_positive_inc s.stack _ h,rfl⟩
    · exact ⟨h,rfl⟩
  have hloop : ∀ (fds : ℕ → Fd) (l : List ℕ) (s : Files), SocksPositive s.stack →
      SocksPositive (l.foldl (fun s i => addRef s (fds i)) s).stack ∧
        (l.foldl (fun s i => addRef s (fds i)) s).epolls = s.epolls := by
    intro fds l
    induction l with
    | nil => exact fun s h => ⟨h,rfl⟩
    | cons i l ih =>
      intro s h
      obtain ⟨hpos,hep⟩ := hadd s (fds i) h
      obtain ⟨hpos',hep'⟩ := ih _ hpos
      exact ⟨hpos',hep'.trans hep⟩
  cases ok with
  | false => exact ⟨h,rfl⟩
  | true => exact hloop _ _ _ h

theorem fork_inv {p slot : ℕ} (h : Inv s) (hp : Runs s p) (hs : Unused s slot) : Inv (syscallFork s p slot ok) := by
  obtain ⟨hpos,hep⟩ := fork_objects s p slot ok h.positive
  refine ⟨fun d => ?_,hpos,fun i => ?_⟩
  · rw [refs_fork s p ok .socket d hs, held_fork s p slot ok d (.inr (.inr rfl)) (.inl rfl), h.exact d]
    intro i hi htype
    have hle := row_le_refs s p .socket (fdOf s p i).data hp
    have hr := row_of_entry s hi htype
    rw [h.exact]
    omega
  · have hle := row_le_refs s p .epoll i hp
    rw [EpollOpen, hep, refs_fork s p ok .epoll i hs]
    refine (h.epoll i).trans ⟨fun hh => by omega,fun hh => ?_⟩
    split_ifs at hh <;> omega

theorem fresh_held (hi : i < maxSockets) (hfree : (st.sockets i).inUse = false)
    (heq : st'.sockets = update st.sockets i x) (hx : x.inUse = true ∧ x.refcount = 1) (d : ℕ) :
    sockHeld st' d = sockHeld st d+if i = d then 1 else 0 := by
  unfold sockHeld
  rw [heq]
  by_cases hd : i = d
  · subst hd
    rw [update_self, if_pos hi, if_pos hi, if_pos rfl, claims, claims, if_pos hx.1, hx.2, hfree]
    rfl
  · rw [update_of_ne (Ne.symm hd), if_neg hd, Nat.add_zero]

theorem fresh_positive (heq : st'.sockets = update st.sockets i x) (hx : x.refcount = 1) (h : SocksPositive st) : SocksPositive st' := by
  intro j hj hu
  rw [heq] at hu ⊢
  by_cases hji : j = i
  · subst hji
    rw [update_self]
    omega
  · rw [update_of_ne hji] at hu ⊢
    exact h j hj hu

theorem opened_inv (h : Inv s) (hp : Runs s p) (hi : i < maxSockets) (hfree : (s.stack.sockets i).inUse = false)
    (heq : st.sockets = update s.stack.sockets i x) (hx : x.inUse = true ∧ x.refcount = 1) :
    Inv (match installFd { s with stack := st } p { type := .socket, data := i } with
      | some (s,fd) => ((s,fd) : Files × ℤ)
      | none => ({ s with stack := socketClose st i },-1)).1 := by
  have hheld := fresh_held hi hfree heq hx
  have hpos := fresh_positive heq hx.2 h.positive
  cases hc : installFd { s with stack := st } p { type := .socket, data := i } with
  | some r =>
    have hrefs : ∀ t d, t ≠ .none → refs r.1 t d = refs s t d+names { type := .socket, data := i } t d :=
      fun t d ht => refs_install { s with stack := st } r.1 p r.2 _ t d ht hp hc
    have hs := (install_some hc).1
    have hstack : r.1.stack = st := by rw [hs]; rfl
    have hep : r.1.epolls = s.epolls := by rw [hs]; rfl
    refine ⟨fun d => ?_,hstack ▸ hpos,fun j => ?_⟩
    · rw [hrefs .socket d (by simp), held_socket, hstack, hheld, ← held_socket, h.exact d]
      simp only [names, true_and]
    · rw [hrefs .epoll j (by simp), names_of_type _ j (by simp), Nat.add_zero, ← h.epoll j, EpollOpen, hep]
      rfl
  | none =>
    refine ⟨fun d => ?_,socks_positive_close st i hpos,h.epoll⟩
    change sockHeld (socketClose st i) d = refs s .socket d
    rw [sock_held_close, hheld, ← held_socket, h.exact d]
    omega

theorem create_some {type : SockType} (h : socketCreate st type = (st',some i)) :
    i < maxSockets ∧ (st.sockets i).inUse = false ∧
      st'.sockets = update st.sockets i { type := type, inUse := true, refcount := 1 } := by
  unfold socketCreate at h
  cases hf : freeSocket st with
  | none => simp [hf] at h
  | some j =>
    simp only [hf] at h
    obtain ⟨rfl,rfl⟩ := h
    have hmem := List.mem_of_find?_eq_some hf
    have hp := List.find?_some hf
    exact ⟨List.mem_range.mp hmem,by simpa using hp,rfl⟩

theorem socket_inv (type : SockType) (h : Inv s) (hp : Runs s p) :
    Inv (syscallSocket s p type).1 := by
  unfold syscallSocket
  rcases hc : socketCreate s.stack type with ⟨st,_ | i⟩
  · exact h
  · obtain ⟨hi,hfree,heq⟩ := create_some hc
    exact opened_inv s p h hp hi hfree heq ⟨rfl,rfl⟩

theorem accepted_some {conn : ℕ} (h : socketAccepted st conn = (st',.ofNat i)) :
    ∃ x : Sock, i < maxSockets ∧ (st.sockets i).inUse = false ∧ (x.inUse = true ∧ x.refcount = 1) ∧
      st'.sockets = update st.sockets i x := by
  unfold socketAccepted at h
  rcases hc : socketCreate st .stream with ⟨st1,_ | j⟩
  · rw [hc] at h
    have hneg := (Prod.mk.inj h).2
    rw [Int.ofNat_eq_natCast] at hneg
    omega
  · rw [hc] at h
    obtain ⟨hj,hfree,heq⟩ := create_some hc
    obtain ⟨rfl,hij⟩ := Prod.mk.inj h
    obtain rfl : j = i := Int.ofNat.inj hij
    have hself : ∀ f : Sock → Sock, (setSocket st1 j f).sockets =
        update st.sockets j (f { type := .stream, inUse := true, refcount := 1 }) := by
      intro f
      unfold setSocket
      rw [heq, update_idem, update_self]
    exact ⟨_,hj,hfree,⟨rfl,rfl⟩,hself _⟩

theorem accepted_none {conn n : ℕ} (h : socketAccepted st conn = (st',.negSucc n)) : st' = st := by
  unfold socketAccepted at h
  rcases hc : socketCreate st .stream with ⟨st1,_ | j⟩
  · rw [hc] at h
    unfold socketCreate at hc
    cases hf : freeSocket st with
    | none =>
      simp only [hf, Prod.mk.injEq, and_true] at hc
      exact (Prod.mk.inj h).1.symm.trans hc.symm
    | some j => simp [hf] at hc
  · rw [hc] at h
    exact absurd (Prod.mk.inj h).2 (by simp)

theorem accept_inv (p conn : ℕ) (h : Inv s) (hp : Runs s p) : Inv (syscallAccept s p conn).1 := by
  unfold syscallAccept
  rcases hc : socketAccepted s.stack conn with ⟨st,i | n⟩
  · obtain ⟨x,hi,hfree,hx,heq⟩ := accepted_some hc
    exact opened_inv s p h hp hi hfree heq hx
  · rw [accepted_none hc]
    exact h

theorem epoll_create_inv (h : Inv s) (hp : Runs s p) : Inv (syscallEpollCreate s p).1 := by
  unfold syscallEpollCreate epollCreateInstance
  cases hf : (List.range epollMaxInstances).find? fun i => !(s.epolls i).inUse with
  | none => exact h
  | some i =>
    have hi : i < epollMaxInstances := List.mem_range.mp (List.mem_of_find?_eq_some hf)
    have hfree : (s.epolls i).inUse = false := by simpa using List.find?_some hf
    have hnone : refs s .epoll i = 0 := by
      have := mt (h.epoll i).mpr (by rw [EpollOpen, hfree]; simp)
      omega
    dsimp only
    generalize hs : { s with epolls := update s.epolls i ⟨true,(s.table p).pid⟩ } = s1
    have htable : s1.table = s.table := by rw [← hs]
    have hstack : s1.stack = s.stack := by rw [← hs]
    have hself : (s1.epolls i).inUse = true := by
      rw [← hs]
      simp
    have hother : ∀ j, j ≠ i → s1.epolls j = s.epolls j := by
      intro j hj
      rw [← hs]
      exact update_of_ne hj ..
    have hr1 : ∀ t d, refs s1 t d = refs s t d := fun t d => refs_table t d htable
    cases hc : installFd s1 p { type := .epoll, data := i } with
    | some r =>
      have hrefs : ∀ t d, t ≠ .none → refs r.1 t d = refs s t d+names { type := .epoll, data := i } t d := by
        intro t d ht
        rw [refs_install s1 r.1 p r.2 _ t d ht (runs_table htable hp) hc, hr1]
      have heq := (install_some hc).1
      have hstack' : r.1.stack = s.stack := by rw [heq]; exact hstack
      have hep : r.1.epolls = s1.epolls := by rw [heq]; rfl
      refine ⟨fun d => ?_,?_,fun j => ?_⟩
      · rw [hrefs .socket d (by simp), names_of_type _ d (by simp), Nat.add_zero, held_socket, hstack']
        exact h.exact d
      · rw [hstack']
        exact h.positive
      · rw [hrefs .epoll j (by simp), EpollOpen, hep]
        by_cases hj : j = i
        · subst hj
          rw [names, if_pos ⟨rfl,rfl⟩]
          exact ⟨fun _ => by omega,fun _ => ⟨hi,hself⟩⟩
        · rw [hother j hj, names, if_neg (fun hh => hj hh.2.symm), Nat.add_zero]
          exact h.epoll j
    | none =>
      rw [epollDestroy, if_pos hi]
      refine ⟨fun d => ?_,?_,fun j => ?_⟩
      · change sockHeld s1.stack d = refs s1 .socket d
        rw [hstack, hr1]
        exact h.exact d
      · rw [hstack]
        exact h.positive
      · change _ ↔ 0 < refs s1 .epoll j
        rw [hr1, EpollOpen]
        by_cases hj : j = i
        · subst hj
          rw [hnone]
          simp
        · dsimp only
          rw [update_of_ne hj, hother j hj]
          exact h.epoll j

theorem pipe_refs {t : FdType} (d : ℕ) (ht : t = .socket ∨ t = .epoll) (hp : Runs s p) : refs (syscallPipe s p ok mem).1 t d = refs s t d := by
  have hne : t ≠ .none ∧ t ≠ .pipeRead ∧ t ≠ .pipeWrite := by
    rcases ht with rfl | rfl <;> simp
  cases ok with
  | false => rfl
  | true =>
    cases mem with
    | none => rfl
    | some a =>
      have h0 : refs (pipeCreate s a) t d = refs s t d := refs_table t d rfl
      have hp1 : Runs (pipeCreate s a) p := hp
      rcases PipeRefs.pipe_cases s p a with ⟨-,i,j,hij,hj,hi,hjf,x,y,hx,-,hy,-,heq⟩ | ⟨-,heq | ⟨i,hi,hfree,x,y,hy,heq⟩⟩
      · have h1 := PipeRefs.refs_free (pipeCreate s a) p i x t d hne.1 hp1 (by omega) hi
        have h2 := PipeRefs.refs_free (setFd (pipeCreate s a) p i x) p j y t d hne.1
          (PipeRefs.runs_set_fd _ p i x hp1) hj
          (by rw [PipeRefs.fd_of_set_other _ p x (by omega)]; exact hjf)
        rw [heq, h2, h1, names_of_type x d (by rw [hx]; exact hne.2.1.symm),
          names_of_type y d (by rw [hy]; exact hne.2.2.symm), h0, Nat.add_zero]
      · rw [heq, h0]
      · have h1 := PipeRefs.refs_free (pipeCreate s a) p i x t d hne.1 hp1 hi hfree
        have h2 := refs_set_fd (setFd (pipeCreate s a) p i x) y t d (PipeRefs.runs_set_fd _ p i x hp1) hi
        rw [PipeRefs.fd_of_set_self, names_of_type y d (by rw [hy]; exact hne.1.symm)] at h2
        rw [heq]
        omega

theorem pipe_objects : (syscallPipe s p ok mem).1.stack = s.stack ∧ (syscallPipe s p ok mem).1.epolls = s.epolls := by
  cases ok with
  | false => exact ⟨rfl,rfl⟩
  | true =>
    cases mem with
    | none => exact ⟨rfl,rfl⟩
    | some a =>
      rcases PipeRefs.pipe_cases s p a with ⟨-,i,j,-,-,-,-,x,y,-,-,-,-,heq⟩ | ⟨-,heq | ⟨i,-,-,x,y,-,heq⟩⟩
      · rw [heq]
        exact ⟨rfl,rfl⟩
      · rw [heq]
        exact ⟨rfl,rfl⟩
      · rw [heq]
        exact ⟨rfl,rfl⟩

theorem pipe_inv (h : Inv s) (hp : Runs s p) : Inv (syscallPipe s p ok mem).1 := by
  obtain ⟨hstack,hep⟩ := pipe_objects s p ok mem
  exact inv_frame s _ h (congrArg Stack.sockets hstack) hep (fun t d ht => pipe_refs s p ok mem d ht hp)

theorem create_inv {slot : ℕ} (h : Inv s) (hs : Unused s slot) : Inv (processCreate s slot) := by
  apply inv_frame s (processCreate s slot) h rfl rfl
  rintro t d (rfl | rfl) <;> exact refs_create s slot _ d ⟨by simp,by simp⟩ hs

theorem redirect_inv (c i a : ℕ) (type : FdType) (htype : PipeRefs.PipeEnd type) (h : Inv s)
    (hs : Unused s c) (hi : i < processMaxFds) : Inv (redirect (processCreate s c) c i a type) := by
  have hruns : Runs (processCreate s c) c := ⟨hs.1,by rw [create_self]; rfl⟩
  have hentry : (fdOf (processCreate s c) c i).type = .console ∨ (fdOf (processCreate s c) c i).type = .none := by
    rw [fdOf, create_self]
    exact fd_init_type i
  have hobj : (redirect (processCreate s c) c i a type).stack = s.stack ∧
      (redirect (processCreate s c) c i a type).epolls = s.epolls := by
    rcases htype with rfl | rfl <;> exact ⟨rfl,rfl⟩
  apply inv_frame (processCreate s c) _ (create_inv s h hs) (congrArg Stack.sockets hobj.1) hobj.2
  intro t d ht
  have hr := refs_set_fd (processCreate s c) { fdOf (processCreate s c) c i with type := type, data := a }
    t d hruns hi
  have hold : names (fdOf (processCreate s c) c i) t d = 0 := by
    apply names_of_type
    rcases ht with rfl | rfl <;> rcases hentry with h' | h' <;> rw [h'] <;> simp
  have hnew : names { fdOf (processCreate s c) c i with type := type, data := a } t d = 0 := by
    apply names_of_type
    rcases ht with rfl | rfl <;> rcases htype with rfl | rfl <;> simp
  have htable : refs (redirect (processCreate s c) c i a type) t d =
      refs (setFd (processCreate s c) c i { fdOf (processCreate s c) c i with type := type, data := a }) t d :=
    refs_table t d (inc_ref_table ..)
  omega

theorem pipeline_inv (a : ℕ) {child1 child2 : Option ℕ} (h : Inv s)
    (h1 : ∀ c ∈ child1, Unused s c) (h2 : ∀ c ∈ child2, Unused s c ∧ some c ≠ child1) :
    Inv (shellPipeline s a child1 child2) := by
  have h0 : Inv (pipeCreate s a) := inv_frame s _ h rfl rfl (fun t d _ => refs_table t d rfl)
  cases child1 with
  | none => exact h0
  | some c1 =>
    have hs1 := redirect_inv (pipeCreate s a) c1 1 a .pipeWrite (.inr rfl) h0 (h1 c1 rfl) (by decide)
    cases child2 with
    | none => exact hs1
    | some c2 =>
      obtain ⟨hu2,hne⟩ := h2 c2 rfl
      have hne : c2 ≠ c1 := fun he => hne (congrArg some he)
      exact redirect_inv _ c2 0 a .pipeRead (.inl rfl) hs1 (PipeRefs.second_unused s a hu2 hne) (by decide)

theorem open_inv (h : Inv s) (hp : Runs s p) (hfd : fd.type = .vfs ∨ fd.type = .ext2 ∨ fd.type = .device) : Inv (syscallOpen s p fd).1 := by
  unfold syscallOpen
  cases hi : installFd s p fd with
  | none => exact h
  | some r =>
    have heq := (install_some hi).1
    apply inv_frame s r.1 h (by rw [heq]; rfl) (by rw [heq]; rfl)
    intro t d ht
    rw [refs_install s r.1 p r.2 fd t d (by rcases ht with rfl | rfl <;> simp) hp hi, names_of_type, Nat.add_zero]
    rcases ht with rfl | rfl <;> rcases hfd with h' | h' | h' <;> rw [h'] <;> simp

theorem reap_inv {z : ℕ} (h : Inv s) (hz : z < maxProcesses) (hs : (s.table z).state = .zombie) :
    Inv (reap s z) :=
  inv_frame s (reap s z) h rfl rfl (fun t d _ => refs_reap s t d hz hs)

theorem step_inv_iff {op : Op} (h : Inv s) (he : Enabled s op) : Inv (step s op) ↔ SocketGood s op := by
  have hgood : Inv (step s op) → (Inv (step s op) ↔ True) := fun hi => ⟨fun _ => trivial,fun _ => hi⟩
  cases op with
  | pipe p ok mem => exact hgood (pipe_inv s p ok mem h he.1)
  | dup2 p oldfd newfd => exact dup2_inv_iff s p oldfd newfd h he
  | close p fd => exact close_inv_iff s p fd h he
  | fork p slot ok => exact hgood (fork_inv s ok h he.1 he.2)
  | exec p => exact hgood h
  | exit p => exact exit_inv_iff s p h he
  | terminate p => exact terminate_inv_iff s p h he
  | reap z => exact hgood (reap_inv s h he.1 he.2)
  | create slot => exact hgood (create_inv s h he)
  | shellPipeline a child1 child2 => exact hgood (pipeline_inv s a h he.2.1 he.2.2)
  | socket p type => exact hgood (socket_inv s p type h he)
  | accept p conn => exact hgood (accept_inv s p conn h he)
  | epollCreate p => exact hgood (epoll_create_inv s p h he)
  | opens p fd => exact hgood (open_inv s p fd h he.1 he.2)

theorem boot_inv : Inv boot := by
  have hrefs : ∀ t d, t = .socket ∨ t = .epoll → refs boot t d = 0 := by
    intro t d ht
    exact PipeRefs.boot_refs t d (by rcases ht with rfl | rfl <;> exact ⟨by simp,by simp⟩)
  refine ⟨fun d => ?_,fun i _ hu => ?_,fun i => ?_⟩
  · rw [hrefs .socket d (.inl rfl), held_socket, sockHeld]
    split_ifs <;> rfl
  · exact absurd hu (by simp [boot])
  · rw [hrefs .epoll i (.inr rfl), EpollOpen]
    simp [boot]

theorem reach_inv (h : Reach SocketGood s) : Inv s := by
  induction h with
  | boot => exact boot_inv
  | step s op _ he hg ih => exact (step_inv_iff s ih he).mpr hg

/-- In every run of good calls the references are exact, and from there
exactly the good calls keep them so. -/
theorem socket_reference_exactness (h : Reach SocketGood s) :
    RefsExact s ∧ ∀ op, Enabled s op → (RefsExact (step s op) ↔ SocketGood s op) := by
  have hi := reach_inv s h
  refine ⟨exact_of_inv s hi,fun op he => ?_⟩
  rw [← step_inv_iff s hi he]
  exact ⟨inv_of_exact _,exact_of_inv _⟩

theorem socket_exact_after_socket :
    RefsExact (step boot (.socket 0 .stream)) ∧ RefsExact (step (step boot (.socket 0 .stream)) (.fork 0 1 true)) ∧
      ¬RefsExact (step (step boot (.socket 0 .stream)) (.dup2 0 3 4)) := by
  have hr : Reach SocketGood (step boot (.socket 0 .stream)) := .step boot _ .boot ⟨by decide,rfl⟩ trivial
  have h := socket_reference_exactness _ hr
  have hrun : Runs (step boot (.socket 0 .stream)) 0 := ⟨by decide,by decide⟩
  refine ⟨h.1,(h.2 (.fork 0 1 true) ⟨hrun,by decide,by decide⟩).mpr trivial,fun hx => ?_⟩
  have hg := (h.2 (.dup2 0 3 4) hrun).mp hx ⟨by decide,by decide,by decide,by decide⟩
  exact absurd (hg.1 (by decide)) (by decide)

/-- After `dup2` the first `close` ends the socket that descriptor 4 still
names; after an `exit` the epoll instance stays in use. -/
theorem references_lost :
    Reach (fun _ _ => True) (step (step (step boot (.socket 0 .stream)) (.dup2 0 3 4)) (.close 0 3)) ∧
      ¬RefsExact (step (step (step boot (.socket 0 .stream)) (.dup2 0 3 4)) (.close 0 3)) ∧
      Reach (fun _ _ => True) (step (step boot (.epollCreate 0)) (.exit 0)) ∧
      ¬RefsExact (step (step boot (.epollCreate 0)) (.exit 0)) := by
  have hrun : ∀ s, alive (s.table 0) = true → Runs s 0 := fun s h => ⟨by decide,h⟩
  refine ⟨?_,fun hx => ?_,?_,fun hx => ?_⟩
  · refine .step _ _ (.step _ _ (.step boot _ .boot ?_ trivial) ?_ trivial) ?_ trivial <;>
      exact hrun _ (by decide)
  · have hrefs : 0 < refs (step (step (step boot (.socket 0 .stream)) (.dup2 0 3 4)) (.close 0 3)) .socket 0 := by
      decide +kernel
    exact absurd ((hx.socket 0).mpr hrefs).2 (by decide)
  · refine .step _ _ (.step boot _ .boot ?_ trivial) ?_ trivial <;> exact hrun _ (by decide)
  · have hrefs : refs (step (step boot (.epollCreate 0)) (.exit 0)) .epoll 0 = 0 := by decide +kernel
    have hopen : EpollOpen (step (step boot (.epollCreate 0)) (.exit 0)) 0 := ⟨by decide,by decide +kernel⟩
    have := (hx.epoll 0).mp hopen
    omega

end HobbyOS.SocketRefs
