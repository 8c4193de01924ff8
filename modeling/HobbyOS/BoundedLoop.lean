import Mathlib.Tactic

/-!
# Counted loops with early return

A loop body either continues with a new state or returns from the enclosing
function. The single induction over the iterations is `forUp_rule`; every
loop invariant of a client is a body lemma put through it.
-/

namespace BoundedLoop

variable {σ ρ : Type*}

inductive Flow (σ ρ : Type*) where
  | next (s : σ)
  | ret (s : σ) (r : ρ)

def Flow.Sat (N : σ → Prop) (R : σ → ρ → Prop) : Flow σ ρ → Prop
  | .next s => N s
  | .ret s r => R s r

def Flow.orElse (f : Flow σ ρ) (k : σ → σ × ρ) : σ × ρ :=
  match f with
  | .next s => k s
  | .ret s r => (s,r)

def forUp (body : ℕ → σ → Flow σ ρ) : ℕ → ℕ → σ → Flow σ ρ
  | _, 0, s => .next s
  | i, n+1, s =>
    match body i s with
    | .next s' => forUp body (i+1) n s'
    | .ret s' r => .ret s' r

def iterate (body : ℕ → σ → σ) : ℕ → ℕ → σ → σ
  | _, 0, s => s
  | i, n+1, s => iterate body (i+1) n (body i s)

theorem Flow.Sat.mono {N N' : σ → Prop} {R R' : σ → ρ → Prop} {f : Flow σ ρ}
    (h : f.Sat N R) (hN : ∀ s, N s → N' s) (hR : ∀ s r, R s r → R' s r) : f.Sat N' R' := by
  cases f with
  | next s => exact hN s h
  | ret s r => exact hR s r h

theorem Flow.Sat.and {N N' : σ → Prop} {R R' : σ → ρ → Prop} {f : Flow σ ρ} (h : f.Sat N R)
    (h' : f.Sat N' R') : f.Sat (fun s => N s ∧ N' s) (fun s r => R s r ∧ R' s r) := by
  cases f with
  | next | ret => exact ⟨h,h'⟩

theorem forUp_rule (body : ℕ → σ → Flow σ ρ) (Inv : ℕ → σ → Prop) (R : σ → ρ → Prop)
    (i n : ℕ) (s : σ) (h0 : Inv i s)
    (hb : ∀ j t, i ≤ j → j < i+n → Inv j t → (body j t).Sat (Inv (j+1)) R) :
    (forUp body i n s).Sat (Inv (i+n)) R := by
  induction n generalizing i s with
  | zero => exact h0
  | succ n ih =>
    have hs := hb i s (le_refl i) (by omega) h0
    rw [forUp]
    cases hf : body i s with
    | next t =>
      rw [hf] at hs
      have := ih (i+1) t hs (fun j u h1 h2 => hb j u (by omega) (by omega))
      rwa [show i+1+n = i+(n+1) by omega] at this
    | ret t r =>
      rw [hf] at hs
      exact hs

theorem iterate_rule (body : ℕ → σ → σ) (Inv : ℕ → σ → Prop) (i n : ℕ) (s : σ)
    (h0 : Inv i s) (hb : ∀ j t, i ≤ j → j < i+n → Inv j t → Inv (j+1) (body j t)) :
    Inv (i+n) (iterate body i n s) := by
  induction n generalizing i s with
  | zero => exact h0
  | succ n ih =>
    have := ih (i+1) (body i s) (hb i s (le_refl i) (by omega) h0)
      (fun j u h1 h2 => hb j u (by omega) (by omega))
    rwa [show i+1+n = i+(n+1) by omega] at this

theorem iterate_events {ε : Type*} (body : ℕ → σ → σ) (events : ℕ → List ε) (act : σ → ε → σ)
    (Inv : σ → Prop) (hact : ∀ s e, Inv s → Inv (act s e))
    (hb : ∀ i s, Inv s → body i s = (events i).foldl act s) (i n : ℕ) (s : σ) (hs : Inv s) :
    iterate body i n s = ((List.range' i n).flatMap events).foldl act s := by
  have hfold : ∀ (es : List ε) (s : σ), Inv s → Inv (es.foldl act s) := by
    intro es
    induction es with
    | nil => exact fun s h => h
    | cons e es ih => exact fun s h => ih _ (hact s e h)
  induction n generalizing i s with
  | zero => rfl
  | succ n ih =>
    rw [iterate, List.range'_succ, List.flatMap_cons, List.foldl_append, hb i s hs]
    exact ih (i+1) _ (hfold _ s hs)

end BoundedLoop
