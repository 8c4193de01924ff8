import Mathlib.Tactic

/-!
# Queues threaded through a link field

A queue is a first cell, a last cell and a link in every cell. It holds a
list when following the links from the first cell visits that list and
stops. Appending an absent cell and taking the first one act on the list as
expected; appending a cell that is already linked does not.
-/

namespace IntrusiveQueue
open Function

variable {α : Type*}

def Linked (next : α → Option α) : Option α → List α → Prop
  | o, [] => o = none
  | o, a::q => o = some a ∧ Linked next (next a) q

structure Queue (next : α → Option α) (head tail : Option α) (q : List α) : Prop where
  linked : Linked next head q
  last : tail = q.getLast?
  nodup : q.Nodup

theorem linked_congr (next next' : α → Option α) (o : Option α) (q : List α)
    (h : Linked next o q) (hn : ∀ a ∈ q, next' a = next a) : Linked next' o q := by
  induction q generalizing o with
  | nil => exact h
  | cons a q ih =>
    refine ⟨h.1,?_⟩
    rw [hn a (by simp)]
    exact ih (next a) h.2 (fun b hb => hn b (by simp [hb]))

theorem queue_congr (next next' : α → Option α) {head tail : Option α} {q : List α}
    (h : Queue next head tail q) (hn : ∀ a ∈ q, next' a = next a) : Queue next' head tail q :=
  ⟨linked_congr next next' head q h.linked hn,h.last,h.nodup⟩

theorem next_ne_self (next : α → Option α) (o : Option α) (q : List α) (a : α)
    (h : Linked next o q) (hd : q.Nodup) (ha : a ∈ q) : next a ≠ some a := by
  induction q generalizing o with
  | nil => simp at ha
  | cons b q ih =>
    obtain ⟨hb,hd'⟩ := List.nodup_cons.mp hd
    by_cases hab : a = b
    · subst hab
      intro hn
      have hl := h.2
      rw [hn] at hl
      cases q with
      | nil => cases hl
      | cons d q =>
        have : a = d := Option.some.inj hl.1
        simp [this] at hb
    · exact ih (next b) h.2 hd' ((List.mem_cons.mp ha).resolve_left hab)

theorem empty_iff (next : α → Option α) {head tail : Option α} {q : List α}
    (h : Queue next head tail q) : head = none ↔ q = [] := by
  cases q with
  | nil =>
    have hh : head = none := h.linked
    simp [hh]
  | cons a q => simp [h.linked.1]

theorem queue_pop (next : α → Option α) {head tail : Option α} {a : α} {q : List α}
    (h : Queue next head tail (a::q)) :
    head = some a ∧ Queue next (next a) (if next a = none then none else tail) q := by
  refine ⟨h.linked.1,h.linked.2,?_,(List.nodup_cons.mp h.nodup).2⟩
  cases q with
  | nil =>
    have hn : next a = none := h.linked.2
    simp [hn]
  | cons b q =>
    have hn : next a = some b := h.linked.2.1
    rw [if_neg (by simp [hn]), h.last]
    simp

variable [DecidableEq α]

/-- The links after `p` has been cleared and hung behind the last cell. -/
def append (next : α → Option α) (tail : Option α) (p : α) : α → Option α :=
  match tail with
  | none => update next p none
  | some t => update (update next p none) t (some p)

theorem linked_snoc (next : α → Option α) (o : Option α) (q : List α) (t p : α)
    (h : Linked next o (q++[t])) (hd : (q++[t]).Nodup) (hp : p ∉ q++[t]) :
    Linked (append next (some t) p) o (q++[t]++[p]) := by
  induction q generalizing o with
  | nil =>
    have hne : t ≠ p := by
      rintro rfl
      simp at hp
    exact ⟨h.1,by simp [append],by simp [append, hne.symm, Linked]⟩
  | cons a q ih =>
    have ha : a ∉ q++[t] := (List.nodup_cons.mp hd).1
    have hap : a ≠ p := by
      rintro rfl
      simp at hp
    have hat : a ≠ t := by
      rintro rfl
      simp at ha
    refine ⟨h.1,?_⟩
    have hn : append next (some t) p a = next a := by simp [append, hap, hat]
    rw [hn]
    exact ih (next a) h.2 (List.nodup_cons.mp hd).2 (fun hm => hp (List.mem_cons_of_mem a hm))

theorem queue_push (next : α → Option α) {head tail : Option α} {q : List α} {p : α}
    (h : Queue next head tail q) (hp : p ∉ q) :
    Queue (append next tail p) (if head = none then some p else head) (some p) (q++[p]) := by
  induction q using List.reverseRecOn with
  | nil =>
    have hh : head = none := h.linked
    have ht : tail = none := by simpa using h.last
    subst hh ht
    exact ⟨⟨by simp,by simp [append, Linked]⟩,by simp,by simp⟩
  | append_singleton q t _ =>
    have ht : tail = some t := by simpa using h.last
    have hh : head ≠ none := by
      intro hn
      simpa using (empty_iff next h).mp hn
    subst ht
    rw [if_neg hh]
    refine ⟨linked_snoc next head q t p h.linked h.nodup hp,by simp,?_⟩
    exact List.nodup_append.mpr ⟨h.nodup,by simp,by
      intro a ha b hb
      rw [List.mem_singleton.mp hb]
      rintro rfl
      exact hp ha⟩

end IntrusiveQueue
