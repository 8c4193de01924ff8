import Mathlib.Tactic

/-!
# Writes and the prefixes of a write sequence

A medium is a map from addresses to contents, and a program that only
writes is the list of its writes. Stopping it between two writes leaves the
effect of a prefix. `Through` says that a property holds at every such
stop, and it composes along the list.
-/

namespace WriteLog
open Function

variable {A B : Type*} [DecidableEq A]

def apply (d : A → B) : List (A × B) → A → B
  | [] => d
  | w::l => apply (update d w.1 w.2) l

theorem apply_append (d : A → B) (l l' : List (A × B)) :
    apply d (l++l') = apply (apply d l) l' := by
  induction l generalizing d with
  | nil => rfl
  | cons w l ih => exact ih _

theorem apply_other (d : A → B) (l : List (A × B)) (a : A) (h : ∀ w ∈ l, w.1 ≠ a) :
    apply d l a = d a := by
  induction l generalizing d with
  | nil => rfl
  | cons w l ih =>
    have hw : a ≠ w.1 := fun hc => h w List.mem_cons_self hc.symm
    rw [apply, ih _ (fun x hx => h x (List.mem_cons_of_mem w hx)), update_of_ne hw]

theorem apply_same (d : A → B) (l : List (A × B)) (a : A) (b : B) (h : ∀ w ∈ l, w.1 = a → w.2 = b)
    (hex : ∃ w ∈ l, w.1 = a) : apply d l a = b := by
  induction l generalizing d with
  | nil => simp at hex
  | cons w l ih =>
    have hl : ∀ x ∈ l, x.1 = a → x.2 = b := fun x hx => h x (List.mem_cons_of_mem w hx)
    by_cases hrest : ∃ x ∈ l, x.1 = a
    · exact ih _ hl hrest
    · push Not at hrest
      obtain ⟨x,hx,hxa⟩ := hex
      have hxw : x = w := (List.mem_cons.mp hx).resolve_right (fun hm => hrest x hm hxa)
      subst hxw
      rw [apply, apply_other _ l a hrest, ← hxa, update_self]
      exact h x List.mem_cons_self hxa

def cut (d : A → B) (l : List (A × B)) (k : ℕ) : A → B := apply d (l.take k)

def Through (P : (A → B) → Prop) (d : A → B) (l : List (A × B)) : Prop := ∀ k, P (cut d l k)

theorem through_nil (P : (A → B) → Prop) (d : A → B) (h : P d) : Through P d [] := by
  intro k
  rw [cut, List.take_nil]
  exact h

theorem through_append (P : (A → B) → Prop) (d : A → B) {l l' : List (A × B)}
    (h : Through P d l) (h' : Through P (apply d l) l') : Through P d (l++l') := by
  intro k
  rw [cut, List.take_append, apply_append]
  by_cases hk : k ≤ l.length
  · rw [Nat.sub_eq_zero_of_le hk]
    exact h k
  · rw [List.take_of_length_le (by omega)]
    exact h' _

theorem through_mono (P Q : (A → B) → Prop) (d : A → B) {l : List (A × B)} (hPQ : ∀ x, P x → Q x)
    (h : Through P d l) : Through Q d l := fun k => hPQ _ (h k)

theorem through_last (P : (A → B) → Prop) (d : A → B) (l : List (A × B)) (h : Through P d l) :
    P (apply d l) := by
  have := h l.length
  rwa [cut, List.take_length] at this

theorem through_step (P : (A → B) → Prop) (d : A → B) (l : List (A × B)) (h0 : P d)
    (hs : ∀ w ∈ l, ∀ x, P x → P (update x w.1 w.2)) : Through P d l := by
  induction l generalizing d with
  | nil => exact through_nil P d h0
  | cons w l ih =>
    intro k
    cases k with
    | zero => exact h0
    | succ k =>
      exact ih _ (hs w List.mem_cons_self d h0) (fun x hx => hs x (List.mem_cons_of_mem w hx)) k

end WriteLog
