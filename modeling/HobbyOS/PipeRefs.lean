import HobbyOS.Descriptors

/-!
# Pipe counts against descriptor entries

The readers and writers of a pipe are meant to be the numbers of entries of
live processes that name its two ends. `close`, `dup2`, `fork`, `exec` and
`exit` keep this. Three calls do not: a `pipe` that finds no two free entries,
the end of a process by a signal, and the pipeline of the kernel shell.
-/

namespace HobbyOS.PipeRefs
open Process Descriptors Function

variable (s : Files) (p : ℕ) (fd : Fd) (t : FdType)

def PipesExact : Prop :=
  ∀ a e, s.pipes a = some e → e.readers = refs s .pipeRead a ∧ e.writers = refs s .pipeWrite a

def TwoFree : Prop :=
  ∃ i j, 3 ≤ i ∧ i < j ∧ j < processMaxFds ∧ (fdOf s p i).type = .none ∧ (fdOf s p j).type = .none

def NoPipeEnd : Prop :=
  ∀ i < processMaxFds, (fdOf s p i).type ≠ .pipeRead ∧ (fdOf s p i).type ≠ .pipeWrite

def PipeGood : Op → Prop
  | .pipe p ok mem => ok = false ∨ mem = none ∨ TwoFree s p
  | .terminate p => NoPipeEnd s p
  | .shellPipeline _ _ _ => False
  | _ => True

def PipeEnd : Prop := t = .pipeRead ∨ t = .pipeWrite

theorem pipe_end_counted (h : PipeEnd t) : Counted t := by
  rcases h with rfl | rfl
  · exact .inl rfl
  · exact .inr (.inl rfl)

theorem pipe_end_fresh (h : PipeEnd t) : Fresh t := by
  rcases h with rfl | rfl <;> exact ⟨by simp,by simp⟩

variable (d a : ℕ)

theorem names_of_end (ht : PipeEnd t) (h : ¬PipeEnd fd.type) : names fd t d = 0 :=
  names_of_type fd d (by rintro rfl; exact h ht)

/-- No pipe is at address 0, and what each end claims is what the entries say,
also where there is no pipe. -/
structure Inv (s : Files) : Prop where
  null : s.pipes 0 = none
  exact : ∀ t d, PipeEnd t → held s t d = refs s t d

theorem inv_exact (h : Inv s) : PipesExact s := by
  intro a e he
  have hr := h.exact .pipeRead a (.inl rfl)
  have hw := h.exact .pipeWrite a (.inr rfl)
  simp only [held, ends, he, Option.getD_some] at hr hw
  exact ⟨hr,hw⟩

theorem not_exact (ht : PipeEnd t) (hlive : s.pipes a ≠ none) (h : held s t a ≠ refs s t a) : ¬PipesExact s := by
  intro hx
  obtain ⟨e,he⟩ := Option.ne_none_iff_exists'.mp hlive
  obtain ⟨hr,hw⟩ := hx a e he
  rcases ht with rfl | rfl
  · exact h (by simpa only [held, ends, he, Option.getD_some] using hr)
  · exact h (by simpa only [held, ends, he, Option.getD_some] using hw)

theorem inv_frame (s s' : Files) (h : Inv s) (hpipes : s'.pipes = s.pipes)
    (hrefs : ∀ t d, PipeEnd t → refs s' t d = refs s t d) : Inv s' := by
  refine ⟨hpipes ▸ h.null,fun t d ht => ?_⟩
  rw [hrefs t d ht, ← h.exact t d ht]
  rcases ht with rfl | rfl <;> simp only [held, ends, hpipes]

theorem held_of_entry (h : Inv s) {p i : ℕ} {t : FdType} (ht : PipeEnd t) (hp : Runs s p)
    (hi : i < processMaxFds) (htype : (fdOf s p i).type = t) : 0 < held s t (fdOf s p i).data := by
  rw [h.exact t _ ht]
  have hle := names_le_refs s t (fdOf s p i).data hp hi
  subst htype
  rw [names_self] at hle
  omega

theorem set_ends_null (f : Ends → Ends) (h : s.pipes 0 = none) : (setEnds s a f).pipes 0 = none := by
  unfold setEnds
  dsimp only
  by_cases h0 : 0 = a
  · rw [← h0, update_self, h]
    rfl
  · rw [update_of_ne h0, h]

theorem set_ends_live {b : ℕ} (f : Ends → Ends) (h : s.pipes b ≠ none) : (setEnds s a f).pipes b ≠ none := by
  unfold setEnds
  dsimp only
  by_cases hb : b = a
  · subst hb
    simpa using h
  · rwa [update_of_ne hb]

theorem inc_ref_null (type : FdType) (h : s.pipes 0 = none) : (pipeIncRef s a type).pipes 0 = none := by
  cases type with
  | pipeRead | pipeWrite => exact set_ends_null s a _ h
  | _ => exact h

theorem drop_ref_null (h : s.pipes 0 = none) : (dropRef s fd).pipes 0 = none := by
  obtain ⟨type,data,offset⟩ := fd
  cases type with
  | pipeRead | pipeWrite => exact set_ends_null s data _ h
  | epoll =>
    simp only [dropRef, epollDestroy]
    split_ifs <;> exact h
  | _ => exact h

theorem close_inv (p fd : ℕ) (h : Inv s) (hp : Runs s p) : Inv (syscallClose s p fd).1 := by
  by_cases hfd : processMaxFds ≤ fd ∨ fd < 3
  · rwa [syscallClose, if_pos hfd]
  by_cases hopen : (fdOf s p fd).type = .none
  · rwa [syscallClose, if_neg hfd, if_pos hopen]
  refine ⟨?_,fun t d ht => ?_⟩
  · rw [syscallClose, if_neg hfd, if_neg hopen]
    exact drop_ref_null s _ h.null
  · have hr := refs_close s p fd t d (pipe_end_fresh t ht).1 hp hfd hopen
    rw [held_close s p fd t d (pipe_end_counted t ht) hfd hopen, h.exact t d ht]
    omega

theorem dup_drop_eq (h : PipeEnd fd.type) : dupDrop s fd = dropRef s fd := by
  unfold dupDrop dropRef
  rcases h with h | h <;> rw [h]

theorem dup_drop_idle (h : ¬PipeEnd fd.type) : dupDrop s fd = s := by
  unfold dupDrop
  split
  · next he => exact absurd (.inl he) h
  · next he => exact absurd (.inr he) h
  · rfl

theorem dup_drop_held (ht : PipeEnd t) : held (dupDrop s fd) t d = held s t d-names fd t d := by
  by_cases h : PipeEnd fd.type
  · rw [dup_drop_eq s fd h, drop_ref_held s fd d (pipe_end_counted t ht)]
  · rw [dup_drop_idle s fd h, names_of_end fd t d ht h, Nat.sub_zero]

theorem dup_drop_live (h : s.pipes a ≠ none) : (dupDrop s fd).pipes a ≠ none := by
  unfold dupDrop
  split
  · exact set_ends_live s _ _ h
  · exact set_ends_live s _ _ h
  · exact h

theorem dup_drop_null (h : s.pipes 0 = none) : (dupDrop s fd).pipes 0 = none := by
  unfold dupDrop
  split
  · exact set_ends_null s _ _ h
  · exact set_ends_null s _ _ h
  · exact h

theorem inc_held (ht : PipeEnd t) (hlive : fd.type = t → s.pipes fd.data ≠ none) :
    held (pipeIncRef s fd.data fd.type) t d = held s t d+names fd t d := by
  by_cases h : PipeEnd fd.type
  · exact inc_ref_held s d (fun he _ => hlive he) h
  · rw [names_of_end fd t d ht h, Nat.add_zero]
    unfold pipeIncRef
    split
    · next he => exact absurd (.inl he) h
    · next he => exact absurd (.inr he) h
    · rfl

theorem dup2_inv (p oldfd newfd : ℕ) (h : Inv s) (hp : Runs s p) :
    Inv (syscallDup2 s p oldfd newfd).1 := by
  by_cases hc : Copies s p oldfd newfd
  · refine ⟨?_,fun t d ht => ?_⟩
    · rw [dup2_copies s hc]
      exact inc_ref_null _ _ _ (dup_drop_null s _ h.null)
    · have hr := refs_dup2 s t d hp hc
      have hle := names_le_refs s t d hp hc.2.1
      have hx := h.exact t d ht
      rw [dup2_copies s hc] at hr ⊢
      rw [inc_held _ (fdOf s p oldfd) t d ht]
      · have hd : held (setFd (dupDrop s (fdOf s p newfd)) p newfd (fdOf s p oldfd)) t d =
            held s t d-names (fdOf s p newfd) t d :=
          (held_set_proc ..).trans (dup_drop_held s _ t d ht)
        omega
      · intro htype
        -- the copied entry names a pipe that some entry already counts
        have hheld := held_of_entry s h ht hp hc.1 htype
        exact dup_drop_live s _ _ (live_of_held s ht hheld)
  · rwa [dup2_idle s hc]

theorem fork_null (p slot : ℕ) (ok : Bool) (h : s.pipes 0 = none) :
    (syscallFork s p slot ok).pipes 0 = none := by
  unfold syscallFork
  cases ok with
  | false => exact h
  | true =>
    dsimp only
    generalize hs : setProc (processAlloc s slot) slot _ = s'
    have h' : s'.pipes 0 = none := hs ▸ h
    generalize List.range processMaxFds = l
    clear hs
    induction l generalizing s' with
    | nil => exact h'
    | cons i l ih => exact ih (addRef s' _) (add_ref_null s' _ h')

theorem fork_inv {p slot : ℕ} (ok : Bool) (h : Inv s) (hp : Runs s p) (hs : Unused s slot) :
    Inv (syscallFork s p slot ok) := by
  refine ⟨fork_null s p slot ok h.null,fun t d ht => ?_⟩
  rw [refs_fork s p ok t d hs, held_fork s p slot ok d (pipe_end_counted t ht) (.inr h.null), h.exact t d ht]
  exact fun i hi htype => held_of_entry s h ht hp hi htype

theorem exit_fd_null (p i : ℕ) (h : s.pipes 0 = none) : (exitFd s p i).pipes 0 = none := by
  unfold exitFd
  dsimp only
  split
  · exact set_ends_null s _ _ h
  · exact set_ends_null s _ _ h
  · exact h
  · exact h

theorem exit_inv (h : Inv s) (hp : Runs s p) : Inv (syscallExit s p) := by
  refine ⟨?_,fun t d ht => ?_⟩
  · have hloop : ∀ (l : List ℕ) (s : Files), s.pipes 0 = none →
        (l.foldl (fun s i => exitFd s p i) s).pipes 0 = none := by
      intro l
      induction l with
      | nil => exact fun _ h => h
      | cons i l ih => exact fun s h => ih _ (exit_fd_null s p i h)
    exact hloop _ s h.null
  · have hr := refs_exit s p t d hp
    rw [held_exit s p t d (pipe_end_counted t ht), h.exact t d ht]
    omega

theorem create_held {t : FdType} (d : ℕ) (ht : PipeEnd t) (hfresh : s.pipes a = none) :
    held (pipeCreate s a) t d = held s t d+if d = a then 1 else 0 := by
  by_cases hd : d = a
  · subst hd
    have hnew : (pipeCreate s d).pipes d = some ⟨1,1⟩ := update_self ..
    rcases ht with rfl | rfl <;> simp [held, ends, hnew, hfresh]
  · have hold : (pipeCreate s a).pipes d = s.pipes d := update_of_ne hd ..
    rcases ht with rfl | rfl <;> simp [held, ends, hold, hd]

theorem fd_of_set_other (p : ℕ) {i j : ℕ} (fd : Fd) (h : j ≠ i) : fdOf (setFd s p i fd) p j = fdOf s p j := by
  unfold fdOf setFd
  rw [set_proc_self]
  exact update_of_ne h ..

theorem fd_of_set_self (p i : ℕ) (fd : Fd) : fdOf (setFd s p i fd) p i = fd := by
  unfold fdOf setFd
  rw [set_proc_self]
  exact update_self ..

theorem runs_set_fd (p i : ℕ) (fd : Fd) (h : Runs s p) : Runs (setFd s p i fd) p := by
  refine ⟨h.1,?_⟩
  unfold setFd
  rw [set_proc_self]
  exact h.2

theorem pipe_cases (p a : ℕ) :
    (TwoFree s p ∧ ∃ i j, i < j ∧ j < processMaxFds ∧ (fdOf s p i).type = .none ∧
      (fdOf s p j).type = .none ∧ ∃ x y : Fd, x.type = .pipeRead ∧ x.data = a ∧ y.type = .pipeWrite ∧ y.data = a ∧
        (syscallPipe s p true (some a)).1 = setFd (setFd (pipeCreate s a) p i x) p j y) ∨
    (¬TwoFree s p ∧ ((syscallPipe s p true (some a)).1 = pipeCreate s a ∨
      ∃ i < processMaxFds, (fdOf s p i).type = .none ∧ ∃ x y : Fd, y.type = .none ∧
        (syscallPipe s p true (some a)).1 = setFd (setFd (pipeCreate s a) p i x) p i y)) := by
  unfold syscallPipe
  dsimp only
  have hother : ∀ (i j : ℕ) (x : Fd), j ≠ i → fdOf (setFd (pipeCreate s a) p i x) p j = fdOf s p j :=
    fun i j x hj => fd_of_set_other (pipeCreate s a) p x hj
  cases hr : processFdAlloc ((pipeCreate s a).table p).fdTable 3 with
  | none =>
    refine .inr ⟨?_,.inl rfl⟩
    rintro ⟨i,j,h3,hij,hj,hi,-⟩
    exact alloc_none _ hr h3 (by omega) hi
  | some i =>
    obtain ⟨hi,h3,hfree,hfirst⟩ := alloc_some _ hr
    dsimp only
    generalize hx : { fdOf (pipeCreate s a) p i with type := FdType.pipeRead, data := a } = x
    cases hw : processFdAlloc ((setFd (pipeCreate s a) p i x).table p).fdTable (i+1) with
    | none =>
      refine .inr ⟨?_,.inr ⟨i,hi,hfree,_,_,rfl,rfl⟩⟩
      rintro ⟨i',j,h3',hij,hj,hi',hj'⟩
      have hle : i ≤ i' := by
        by_contra hlt
        exact hfirst i' h3' (by omega) hi'
      have := alloc_none _ hw (by omega) hj
      exact this ((congrArg Fd.type (hother i j x (by omega))).trans hj')
    | some j =>
      obtain ⟨hj,hij,hjfree,-⟩ := alloc_some _ hw
      have hjfree : (fdOf s p j).type = .none := (congrArg Fd.type (hother i j x (by omega))).symm.trans hjfree
      exact .inl ⟨⟨i,j,h3,by omega,hj,hfree,hjfree⟩,i,j,by omega,hj,hfree,hjfree,x,_,
        by rw [← hx],by rw [← hx],rfl,rfl,rfl⟩

theorem refs_free (p i : ℕ) (fd : Fd) (t : FdType) (d : ℕ) (ht : t ≠ .none) (hp : Runs s p)
    (hi : i < processMaxFds) (hfree : (fdOf s p i).type = .none) :
    refs (setFd s p i fd) t d = refs s t d+names fd t d := by
  have hr := refs_set_fd s fd t d hp hi
  rwa [names_of_type _ d (fun h => ht (h.symm.trans hfree)), Nat.add_zero] at hr

theorem pipe_two {p a : ℕ} (h : Inv s) (hp : Runs s p) (ha : FreshMem s a) (htwo : TwoFree s p) :
    Inv (syscallPipe s p true (some a)).1 := by
  rcases pipe_cases s p a with ⟨-,i,j,hij,hj,hifree,hjfree,x,y,hxt,hxd,hyt,hyd,heq⟩ | ⟨hno,-⟩
  · rw [heq]
    refine ⟨?_,fun t d ht => ?_⟩
    · exact (update_of_ne (Ne.symm ha.1) ..).trans h.null
    · have hp1 : Runs (pipeCreate s a) p := hp
      have h1 := refs_free (pipeCreate s a) p i x t d (pipe_end_fresh t ht).1 hp1 (by omega) hifree
      have h2 := refs_free (setFd (pipeCreate s a) p i x) p j y t d (pipe_end_fresh t ht).1
        (runs_set_fd _ p i x hp1) hj (by rw [fd_of_set_other _ p x (by omega)]; exact hjfree)
      have h0 : refs (pipeCreate s a) t d = refs s t d := refs_table t d rfl
      have hheld : held (setFd (setFd (pipeCreate s a) p i x) p j y) t d = held s t d+if d = a then 1 else 0 :=
        (held_set_proc ..).trans ((held_set_proc ..).trans (create_held s a d ht ha.2))
      have hnames : names x t d+names y t d = if d = a then 1 else 0 := by
        rcases ht with rfl | rfl <;> simp [names, hxt, hxd, hyt, hyd, eq_comm]
      rw [hheld, h2, h1, h0, h.exact t d ht]
      omega
  · exact absurd htwo hno

theorem pipe_lost {p a : ℕ} (h : Inv s) (hp : Runs s p) (ha : FreshMem s a) (hno : ¬TwoFree s p) :
    ¬PipesExact (syscallPipe s p true (some a)).1 := by
  have hlive : (pipeCreate s a).pipes a = some ⟨1,1⟩ := update_self ..
  have hread : held (pipeCreate s a) .pipeRead a = refs s .pipeRead a+1 := by
    rw [create_held s a a (.inl rfl) ha.2, h.exact .pipeRead a (.inl rfl), if_pos rfl]
  have h0 : refs (pipeCreate s a) .pipeRead a = refs s .pipeRead a := refs_table _ _ rfl
  rcases pipe_cases s p a with ⟨htwo,-⟩ | ⟨-,heq | ⟨i,hi,hfree,x,y,hy,heq⟩⟩
  · exact absurd htwo hno
  · rw [heq]
    exact not_exact _ .pipeRead a (.inl rfl) (by rw [hlive]; simp) (by omega)
  · rw [heq]
    have hp1 : Runs (pipeCreate s a) p := hp
    have h1 := refs_free (pipeCreate s a) p i x .pipeRead a (by simp) hp1 hi hfree
    have h2 := refs_set_fd (setFd (pipeCreate s a) p i x) y .pipeRead a (runs_set_fd _ p i x hp1) hi
    rw [fd_of_set_self, names_of_type y _ (by rw [hy]; simp)] at h2
    have hheld : held (setFd (setFd (pipeCreate s a) p i x) p i y) .pipeRead a = held (pipeCreate s a) .pipeRead a :=
      (held_set_proc ..).trans (held_set_proc ..)
    exact not_exact _ .pipeRead a (.inl rfl) (by change (pipeCreate s a).pipes a ≠ none; rw [hlive]; simp)
      (by omega)

theorem terminate_inv (h : Inv s) (hp : Runs s p) (hno : NoPipeEnd s p) :
    Inv (terminate s p) := by
  apply inv_frame s (terminate s p) h rfl
  intro t d ht
  have hr := refs_terminate s p t d hp
  have hrow : row (s.table p).fdTable t d = 0 := by
    apply row_zero
    intro i hi htype
    rcases ht with rfl | rfl
    · exact (hno i hi).1 htype
    · exact (hno i hi).2 htype
  omega

theorem terminate_lost (h : Inv s) (hp : Runs s p) (hend : ¬NoPipeEnd s p) :
    ¬PipesExact (terminate s p) := by
  obtain ⟨i,hi,ht⟩ : ∃ i < processMaxFds, PipeEnd (fdOf s p i).type := by
    by_contra hne
    refine hend fun i hi => ⟨fun h1 => hne ⟨i,hi,.inl h1⟩,fun h2 => hne ⟨i,hi,.inr h2⟩⟩
  have hheld := held_of_entry s h ht hp hi rfl
  have hrow := names_le_row (s.table p).fdTable (fdOf s p i).type (fdOf s p i).data hi
  have hone : names ((s.table p).fdTable i) (fdOf s p i).type (fdOf s p i).data = 1 := names_self (fdOf s p i)
  have hr := refs_terminate s p (fdOf s p i).type (fdOf s p i).data hp
  have hx := h.exact (fdOf s p i).type (fdOf s p i).data ht
  have hsame : held (terminate s p) (fdOf s p i).type (fdOf s p i).data =
      held s (fdOf s p i).type (fdOf s p i).data := held_set_proc ..
  exact not_exact _ _ (fdOf s p i).data ht (live_of_held s ht hheld) (by omega)

theorem redirect_counts (c i a : ℕ) (type t : FdType) (ht : PipeEnd t)
    (hc : Runs s c) (hi : i < processMaxFds) (hold : ¬PipeEnd (fdOf s c i).type) (hlive : s.pipes a ≠ none) :
    held (redirect s c i a type) t a+refs s t a = held s t a+refs (redirect s c i a type) t a := by
  have hr := refs_set_fd s { fdOf s c i with type := type, data := a } t a hc hi
  rw [names_of_end _ t a ht hold] at hr
  have hh := inc_held (setFd s c i { fdOf s c i with type := type, data := a })
    { fdOf s c i with type := type, data := a } t a ht (fun _ => hlive)
  have hs : held (setFd s c i { fdOf s c i with type := type, data := a }) t a = held s t a := held_set_proc ..
  have ht : refs (redirect s c i a type) t a = refs (setFd s c i { fdOf s c i with type := type, data := a }) t a :=
    refs_table t a (inc_ref_table ..)
  change held (redirect s c i a type) t a = _ at hh
  omega

theorem redirect_live (c i a : ℕ) (type : FdType) (h : s.pipes a ≠ none) :
    (redirect s c i a type).pipes a ≠ none := by
  cases type with
  | pipeRead | pipeWrite => exact set_ends_live _ a _ h
  | _ => exact h

theorem child_surplus (c i a : ℕ) (type : FdType) (hc : Unused s c)
    (hi : i < processMaxFds) (hlive : s.pipes a ≠ none)
    (h : held s .pipeRead a = refs s .pipeRead a+1) :
    held (redirect (processCreate s c) c i a type) .pipeRead a =
      refs (redirect (processCreate s c) c i a type) .pipeRead a+1 := by
  have hruns : Runs (processCreate s c) c := ⟨hc.1,by rw [create_self]; rfl⟩
  have hentry : ¬PipeEnd (fdOf (processCreate s c) c i).type := by
    rw [fdOf, create_self]
    rintro (h | h) <;> rcases fd_init_type i with h' | h' <;> rw [h'] at h <;> simp at h
  have hd := redirect_counts (processCreate s c) c i a type .pipeRead (.inl rfl) hruns hi hentry hlive
  have hr := refs_create s c .pipeRead a ⟨by simp,by simp⟩ hc
  have hh : held (processCreate s c) .pipeRead a = held s .pipeRead a := rfl
  omega

theorem second_unused {c1 c2 : ℕ} (h : Unused s c2) (hne : c2 ≠ c1) :
    Unused (redirect (processCreate (pipeCreate s a) c1) c1 1 a .pipeWrite) c2 := by
  have htable : (redirect (processCreate (pipeCreate s a) c1) c1 1 a .pipeWrite).table c2 = s.table c2 := by
    unfold redirect
    rw [inc_ref_table]
    exact (set_proc_other _ _ _ _ hne).trans (create_other _ c1 c2 hne)
  exact ⟨h.1,by rw [htable]; exact h.2⟩

/-- `pipe_create` has counted a reader that no entry stands for. -/
theorem pipeline_surplus {a : ℕ} {child1 child2 : Option ℕ} (h : Inv s) (ha : FreshMem s a)
    (h1 : ∀ c ∈ child1, Unused s c) (h2 : ∀ c ∈ child2, Unused s c ∧ some c ≠ child1) :
    (shellPipeline s a child1 child2).pipes a ≠ none ∧
      held (shellPipeline s a child1 child2) .pipeRead a = refs (shellPipeline s a child1 child2) .pipeRead a+1 := by
  have hnew : (pipeCreate s a).pipes a = some ⟨1,1⟩ := update_self ..
  have hlive0 : (pipeCreate s a).pipes a ≠ none := by rw [hnew]; simp
  have hstart : held (pipeCreate s a) .pipeRead a = refs (pipeCreate s a) .pipeRead a+1 := by
    rw [create_held s a a (.inl rfl) ha.2, h.exact .pipeRead a (.inl rfl), if_pos rfl]
    rfl
  cases child1 with
  | none => exact ⟨hlive0,hstart⟩
  | some c1 =>
    have hu1 : Unused (pipeCreate s a) c1 := h1 c1 rfl
    have hs1 := child_surplus (pipeCreate s a) c1 1 a .pipeWrite hu1 (by decide) hlive0 hstart
    have hlive1 := redirect_live (processCreate (pipeCreate s a) c1) c1 1 a .pipeWrite hlive0
    cases child2 with
    | none => exact ⟨hlive1,hs1⟩
    | some c2 =>
      obtain ⟨hu2,hne⟩ := h2 c2 rfl
      have hne : c2 ≠ c1 := fun he => hne (congrArg some he)
      have hu2 := second_unused s a hu2 hne
      exact ⟨redirect_live _ c2 0 a .pipeRead hlive1,
        child_surplus _ c2 0 a .pipeRead hu2 (by decide) hlive1 hs1⟩

theorem objects_inv {s s' : Files} (h : Inv s) (htable : s'.table = s.table) (hpipes : s'.pipes = s.pipes) : Inv s' :=
  inv_frame s s' h hpipes (fun t d _ => refs_table t d htable)

theorem install_inv {s s' : Files} {p i : ℕ} {fd : Fd} (h : Inv s) (hp : Runs s p) (hfd : ¬PipeEnd fd.type)
    (hi : installFd s p fd = some (s',i)) : Inv s' := by
  refine inv_frame s s' h ?_ (fun t d ht => ?_)
  · rw [(install_some hi).1]
    rfl
  · rw [refs_install s s' p i fd t d (pipe_end_fresh t ht).1 hp hi, names_of_end fd t d ht hfd, Nat.add_zero]

theorem socket_inv (type : Socket.SockType) (h : Inv s) (hp : Runs s p) :
    Inv (syscallSocket s p type).1 := by
  unfold syscallSocket
  rcases Socket.socketCreate s.stack type with ⟨st,_ | i⟩
  · exact h
  · dsimp only
    have h' : Inv { s with stack := st } := objects_inv h rfl rfl
    cases hi : installFd { s with stack := st } p { type := .socket, data := i } with
    | some r => exact install_inv h' hp (by simp [PipeEnd]) hi
    | none => exact objects_inv h rfl rfl

theorem accept_inv (p conn : ℕ) (h : Inv s) (hp : Runs s p) : Inv (syscallAccept s p conn).1 := by
  unfold syscallAccept
  rcases Socket.socketAccepted s.stack conn with ⟨st,i | i⟩
  · dsimp only
    have h' : Inv { s with stack := st } := objects_inv h rfl rfl
    cases hi : installFd { s with stack := st } p { type := .socket, data := i } with
    | some r => exact install_inv h' hp (by simp [PipeEnd]) hi
    | none => exact objects_inv h rfl rfl
  · exact objects_inv h rfl rfl

theorem epoll_create_inv (h : Inv s) (hp : Runs s p) : Inv (syscallEpollCreate s p).1 := by
  unfold syscallEpollCreate epollCreateInstance
  cases (List.range epollMaxInstances).find? fun i => !(s.epolls i).inUse with
  | none => exact h
  | some i =>
    dsimp only
    generalize hs : { s with epolls := update s.epolls i ⟨true,(s.table p).pid⟩ } = s1
    have h1 : Inv s1 := objects_inv h (by rw [← hs]) (by rw [← hs])
    have hp1 : Runs s1 p := runs_table (by rw [← hs]) hp
    cases hi : installFd s1 p { type := .epoll, data := i } with
    | some r => exact install_inv h1 hp1 (by simp [PipeEnd]) hi
    | none =>
      unfold epollDestroy
      split_ifs
      · exact objects_inv h1 rfl rfl
      · exact h1

theorem open_inv (h : Inv s) (hp : Runs s p) (hfd : ¬PipeEnd fd.type) :
    Inv (syscallOpen s p fd).1 := by
  unfold syscallOpen
  cases hi : installFd s p fd with
  | some r => exact install_inv h hp hfd hi
  | none => exact h

theorem reap_inv {z : ℕ} (h : Inv s) (hz : z < maxProcesses) (hs : (s.table z).state = .zombie) :
    Inv (reap s z) :=
  inv_frame s (reap s z) h rfl (fun t d _ => refs_reap s t d hz hs)

theorem create_inv {slot : ℕ} (h : Inv s) (hs : Unused s slot) : Inv (processCreate s slot) :=
  inv_frame s (processCreate s slot) h rfl (fun t d ht => refs_create s slot t d (pipe_end_fresh t ht) hs)

theorem step_inv {op : Op} (h : Inv s) (he : Enabled s op) (hg : PipeGood s op) : Inv (step s op) := by
  cases op with
  | pipe p ok mem =>
    cases ok with
    | false => exact h
    | true =>
      cases mem with
      | none => exact h
      | some a =>
        have htwo : TwoFree s p := by simpa [PipeGood] using hg
        exact pipe_two s h he.1 (he.2 a rfl) htwo
  | dup2 p oldfd newfd => exact dup2_inv s p oldfd newfd h he
  | close p fd => exact close_inv s p fd h he
  | fork p slot ok => exact fork_inv s ok h he.1 he.2
  | exec p => exact h
  | exit p => exact exit_inv s p h he
  | terminate p => exact terminate_inv s p h he hg
  | reap z => exact reap_inv s h he.1 he.2
  | create slot => exact create_inv s h he
  | shellPipeline a child1 child2 => exact hg.elim
  | socket p type => exact socket_inv s p type h he
  | accept p conn => exact accept_inv s p conn h he
  | epollCreate p => exact epoll_create_inv s p h he
  | opens p fd =>
    refine open_inv s p fd h he.1 ?_
    rintro (hr | hw)
    · have := he.2
      simp [hr] at this
    · have := he.2
      simp [hw] at this

/-- Every other call leaves a pipe with a count that no entry stands for, or
an entry that no count stands for. -/
theorem step_lost {op : Op} (h : Inv s) (he : Enabled s op) (hg : ¬PipeGood s op) :
    ¬PipesExact (step s op) := by
  cases op with
  | pipe p ok mem =>
    simp only [PipeGood, not_or] at hg
    obtain ⟨hok,hmem,hno⟩ := hg
    obtain ⟨a,rfl⟩ := Option.ne_none_iff_exists'.mp hmem
    rw [Bool.not_eq_false] at hok
    subst hok
    exact pipe_lost s h he.1 (he.2 a rfl) hno
  | terminate p => exact terminate_lost s p h he hg
  | shellPipeline a child1 child2 =>
    obtain ⟨hlive,hmore⟩ := pipeline_surplus s h he.1 he.2.1 he.2.2
    exact not_exact (shellPipeline s a child1 child2) .pipeRead a (.inl rfl) hlive (by omega)
  | _ => exact absurd trivial hg

theorem boot_refs (ht : Fresh t) : refs boot t d = 0 := by
  apply Finset.sum_eq_zero
  intro p _
  by_cases hp : p = 0
  · subst hp
    exact row_fd_init t d ht
  · exact share_dead _ t d (alive_unused _ (by simp [boot, hp]))

theorem boot_inv : Inv boot := by
  refine ⟨rfl,fun t d ht => ?_⟩
  rw [boot_refs t d (pipe_end_fresh t ht)]
  rcases ht with rfl | rfl <;> rfl

theorem reach_inv (h : Reach PipeGood s) : Inv s := by
  induction h with
  | boot => exact boot_inv
  | step s op _ he hg ih => exact step_inv s ih he hg

/-- In every run of good calls each pipe counts its entries, and from there
exactly the good calls keep it so. -/
theorem pipe_reference_exactness (h : Reach PipeGood s) :
    PipesExact s ∧ ∀ op, Enabled s op → (PipesExact (step s op) ↔ PipeGood s op) := by
  have hi := reach_inv s h
  refine ⟨inv_exact s hi,fun op he => ⟨fun hx => ?_,fun hg => inv_exact _ (step_inv s hi he hg)⟩⟩
  by_contra hg
  exact step_lost s hi he hg hx

theorem pipe_exact_after_pipe :
    (step boot (.pipe 0 true (some 1))).pipes 1 = some ⟨1,1⟩ ∧ PipesExact (step boot (.pipe 0 true (some 1))) ∧
      PipesExact (step (step boot (.pipe 0 true (some 1))) (.close 0 3)) := by
  have hr : Reach PipeGood (step boot (.pipe 0 true (some 1))) := by
    refine .step boot _ .boot ⟨⟨by decide,rfl⟩,?_⟩ (.inr (.inr ⟨3,4,by decide⟩))
    rintro a ⟨rfl⟩
    exact ⟨by decide,rfl⟩
  have h := pipe_reference_exactness _ hr
  exact ⟨rfl,h.1,(h.2 (.close 0 3) ⟨by decide,by decide⟩).mpr trivial⟩

/-- One pipeline of the shell: two readers are counted and one entry reads. -/
theorem pipeline_counts_surplus :
    Reach (fun _ _ => True) (step boot (.shellPipeline 1 (some 1) (some 2))) ∧
      (step boot (.shellPipeline 1 (some 1) (some 2))).pipes 1 = some ⟨2,2⟩ ∧
      refs (step boot (.shellPipeline 1 (some 1) (some 2))) .pipeRead 1 = 1 ∧
      ¬PipesExact (step boot (.shellPipeline 1 (some 1) (some 2))) := by
  have hrefs : refs (step boot (.shellPipeline 1 (some 1) (some 2))) .pipeRead 1 = 1 := by decide +kernel
  refine ⟨.step boot _ .boot ?_ trivial,rfl,hrefs,fun hx => ?_⟩
  · refine ⟨⟨by decide,rfl⟩,?_,?_⟩
    · rintro c ⟨rfl⟩
      exact ⟨by decide,rfl⟩
    · rintro c ⟨rfl⟩
      exact ⟨⟨by decide,rfl⟩,by decide⟩
  · have h := (hx 1 ⟨2,2⟩ rfl).1
    rw [hrefs] at h
    exact absurd h (by decide)

end HobbyOS.PipeRefs
