import HobbyOS.ByteStore

/-!
# The line discipline of the terminal

`tty_input_char` runs in the keyboard interrupt and may fall into a
`tty_read`, which takes the length, copies the bytes and then moves the read
position. A completed line replaces the one that is being read.
-/

namespace HobbyOS.TtyLines
open Function

def newline : UInt8 := 10
def backspace : UInt8 := 8

/-- `struct tty`: the line that is edited and the line that is read. -/
structure Tty where
  inputBuf : List UInt8
  readBuf : List UInt8
  readPos : ℕ

/-- The signals of Ctrl+C and Ctrl+Z and the echo are left out. -/
def ttyInputChar (t : Tty) (c : UInt8) : Tty :=
  if c = 3 ∨ c = 26 then t
  else if c = backspace then { t with inputBuf := t.inputBuf.dropLast }
  else if c = newline then ⟨[],t.inputBuf++[newline],0⟩
  else if 32 ≤ c ∧ c ≤ 126 ∧ t.inputBuf.length < 255 then { t with inputBuf := t.inputBuf++[c] }
  else t

def ttyReadable (t : Tty) : Bool := t.readPos < t.readBuf.length

/-- The bytes that a `tty_read` of `count` bytes copies. -/
def ttyCopy (t : Tty) (count : ℕ) : List UInt8 := (t.readBuf.drop t.readPos).take count

def ttyAdvance (t : Tty) (n : ℕ) : Tty :=
  if t.readBuf.length ≤ t.readPos+n then { t with readBuf := [], readPos := 0 }
  else { t with readPos := t.readPos+n }

/-- The terminal, the copies that processes have made in a `tty_read` that has
not ended, what was typed and what was returned. -/
structure System where
  tty : Tty := ⟨[],[],0⟩
  copying : ℕ → Option (List UInt8) := fun _ => none
  typed : List UInt8 := []
  returned : List UInt8 := []

inductive Event where
  | input (c : UInt8)
  | copy (p count : ℕ)
  | finish (p : ℕ)

/-- A `tty_read` that finds no line goes on waiting. -/
def act (s : System) : Event → System
  | .input c => { s with tty := ttyInputChar s.tty c, typed := s.typed++[c] }
  | .copy p count =>
    if ttyReadable s.tty = false ∨ s.copying p ≠ none then s
    else { s with copying := update s.copying p (some (ttyCopy s.tty count)) }
  | .finish p =>
    match s.copying p with
    | none => s
    | some bs => { s with tty := ttyAdvance s.tty bs.length, copying := update s.copying p none,
                          returned := s.returned++bs }

structure Lines where
  done : List UInt8
  line : List UInt8

def edit (x : Lines) (c : UInt8) : Lines :=
  if c = newline then ⟨x.done++x.line++[newline],[]⟩
  else if c = backspace then { x with line := x.line.dropLast }
  else if 32 ≤ c ∧ c ≤ 126 then { x with line := (x.line++[c]).take 255 }
  else x

def lines (cs : List UInt8) : Lines := cs.foldl edit ⟨[],[]⟩

theorem lines_snoc (cs : List UInt8) (c : UInt8) : lines (cs++[c]) = edit (lines cs) c := by
  rw [lines, List.foldl_append]
  rfl

/-- A line ends only after the one before it was read, and one process reads
at a time. -/
def Calm (s : System) : Event → Prop
  | .input c => c = newline → ttyReadable s.tty = false
  | .copy _ _ => ∀ q, s.copying q = none
  | .finish _ => True

inductive Reach : System → Prop
  | boot : Reach {}
  | step (s : System) (e : Event) (h : Reach s) (hc : Calm s e) : Reach (act s e)

def unread (t : Tty) : List UInt8 := t.readBuf.drop t.readPos

structure Inv (s : System) : Prop where
  line : s.tty.inputBuf = (lines s.typed).line
  short : s.tty.inputBuf.length ≤ 255
  whole : s.returned++unread s.tty = (lines s.typed).done
  copied : ∀ p bs, s.copying p = some bs →
    ttyReadable s.tty = true ∧ bs <+: unread s.tty ∧ ∀ q, q ≠ p → s.copying q = none

theorem unread_nil {t : Tty} (h : ttyReadable t = false) : unread t = [] :=
  List.drop_eq_nil_of_le (Nat.le_of_not_lt (of_decide_eq_false h))

theorem unread_advance (t : Tty) (n : ℕ) : unread (ttyAdvance t n) = (unread t).drop n := by
  unfold ttyAdvance unread
  split_ifs with h
  · rw [List.drop_drop, List.drop_eq_nil_of_le h]
    rfl
  · rw [List.drop_drop]

theorem inv_input {s : System} {c : UInt8} (h : Inv s) (hc : Calm s (.input c)) :
    Inv (act s (.input c)) := by
  -- only the end of a line changes what is read
  have hkeep : ∀ l : List UInt8, l = (edit (lines s.typed) c).line → l.length ≤ 255 →
      (edit (lines s.typed) c).done = (lines s.typed).done →
      Inv { s with tty := { s.tty with inputBuf := l }, typed := s.typed++[c] } :=
    fun l hl hlen hd =>
      ⟨by rw [lines_snoc]; exact hl,hlen,by rw [lines_snoc, hd]; exact h.whole,h.copied⟩
  have hl := h.line
  have hs := h.short
  unfold act ttyInputChar
  dsimp only
  split_ifs with h1 h2 h3 h4
  · refine hkeep _ ?_ hs ?_ <;> rcases h1 with rfl | rfl <;> simp [edit, newline, backspace, hl]
  · subst h2
    refine hkeep _ ?_ ?_ ?_
    · simp [edit, newline, backspace, hl]
    · rw [List.length_dropLast]
      omega
    · simp [edit, newline, backspace]
  · subst h3
    have hnil := unread_nil (hc rfl)
    have hd := h.whole
    rw [hnil, List.append_nil] at hd
    refine ⟨?_,Nat.zero_le _,?_,fun p bs hp => ?_⟩
    · rw [lines_snoc]
      rfl
    · rw [lines_snoc, edit, if_pos rfl, ← hd, ← hl, List.append_assoc]
      rfl
    · cases (h.copied p bs hp).1.symm.trans (hc rfl)
  · refine hkeep _ ?_ (by rw [List.length_append]; exact h4.2.2) ?_
    · rw [edit, if_neg h3, if_neg h2, if_pos ⟨h4.1,h4.2.1⟩, ← hl, List.take_of_length_le]
      rw [List.length_append]
      exact h4.2.2
    · rw [edit, if_neg h3, if_neg h2, if_pos ⟨h4.1,h4.2.1⟩]
  · refine hkeep _ ?_ hs ?_ <;> rw [edit, if_neg h3, if_neg h2]
    · split_ifs with h5
      · have hfull := Nat.le_of_not_lt fun hlt => h4 ⟨h5.1,h5.2,hlt⟩
        rw [← hl, List.take_append_of_le_length hfull, List.take_of_length_le hs]
      · exact hl
    · split_ifs <;> rfl

theorem inv_act {s : System} {e : Event} (h : Inv s) (hc : Calm s e) : Inv (act s e) := by
  cases e with
  | input c => exact inv_input h hc
  | copy p count =>
    rw [act]
    split_ifs with hr
    · exact h
    · refine ⟨h.line,h.short,h.whole,fun q bs hq => ?_⟩
      dsimp only at hq
      by_cases heq : q = p
      · subst heq
        rw [update_self] at hq
        cases hq
        refine ⟨by simpa using fun hf => hr (.inl hf),List.take_prefix _ _,fun q' hne => ?_⟩
        exact (update_of_ne hne ..).trans (hc q')
      · rw [update_of_ne heq, hc q] at hq
        cases hq
  | finish p =>
    rw [act]
    cases hp : s.copying p with
    | none => exact h
    | some bs =>
      obtain ⟨-,⟨rest,hpre⟩,hone⟩ := h.copied p bs hp
      refine ⟨?_,?_,?_,fun q bs' hq => ?_⟩
      · refine Eq.trans ?_ h.line
        dsimp only [ttyAdvance]
        split_ifs <;> rfl
      · refine le_trans (le_of_eq ?_) h.short
        dsimp only [ttyAdvance]
        split_ifs <;> rfl
      · rw [← h.whole, unread_advance, ← hpre, List.drop_left, List.append_assoc]
      · dsimp only at hq
        by_cases heq : q = p
        · rw [heq, update_self] at hq
          cases hq
        · rw [update_of_ne heq, hone q heq] at hq
          cases hq

/-- In calm runs the bytes returned are the completed lines up to the ones
that are still to be read. -/
theorem lines_returned (s : System) (h : Reach s) :
    s.returned++unread s.tty = (lines s.typed).done ∧ s.returned <+: (lines s.typed).done := by
  have hI : Inv s := by
    induction h with
    | boot => exact ⟨rfl,Nat.zero_le _,rfl,fun p bs hp => by cases hp⟩
    | step s e _ hc ih => exact inv_act ih hc
  exact ⟨hI.whole,_,hI.whole⟩

theorem reach_read {s : System} (h : Reach s) (hq : ∀ q, s.copying q = none) (p n : ℕ) :
    Reach (act (act s (.copy p n)) (.finish p)) ∧
      ∀ q, (act (act s (.copy p n)) (.finish p)).copying q = none := by
  refine ⟨.step _ _ (.step s (.copy p n) h hq) trivial,fun q => ?_⟩
  by_cases hr : ttyReadable s.tty = false ∨ s.copying p ≠ none
  · rw [show act s (.copy p n) = s from if_pos hr, act, hq p]
    exact hq q
  · rw [show act s (.copy p n) = _ from if_neg hr]
    simp only [act, update_self]
    by_cases heq : q = p
    · rw [heq, update_self]
    · rw [update_of_ne heq, update_of_ne heq, hq]

/-- One byte of a line is read, then its rest, then the next line. -/
def readInParts : System :=
  [.input 97,.input newline,.copy 0 1,.finish 0,.copy 0 10,.finish 0,
    .input 98,.input newline,.copy 1 10,.finish 1].foldl act {}

theorem lines_returned_parts : readInParts.returned = [97,newline,98,newline] ∧
    readInParts.returned <+: (lines readInParts.typed).done := by
  have h1 : Reach (act (act {} (.input 97)) (.input newline)) :=
    .step _ _ (.step {} _ .boot fun h => absurd h (by decide)) fun _ => rfl
  obtain ⟨h2,hq2⟩ := reach_read h1 (fun _ => rfl) 0 1
  obtain ⟨h3,hq3⟩ := reach_read h2 hq2 0 10
  have h4 := Reach.step _ (.input newline) (.step _ (.input 98) h3 fun h => absurd h (by decide))
    fun _ => rfl
  exact ⟨rfl,(lines_returned readInParts (reach_read h4 hq3 1 10).1).2⟩

def twoLines : System :=
  [.input 97,.input newline,.input 98,.input newline,.copy 0 10,.finish 0].foldl act {}

theorem first_line_lost : twoLines.returned = [98,newline] ∧
    (lines twoLines.typed).done = [97,newline,98,newline] ∧
      ¬twoLines.returned <+: (lines twoLines.typed).done := by
  decide

end HobbyOS.TtyLines
