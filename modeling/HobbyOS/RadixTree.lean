import Mathlib.Tactic

/-!
# Forests of indexed tables

Tables refer to tables through indices, and the walk from a root along a
list of indices finds a table or stops. A forest gives every reachable
table one root and one path. Under that condition changing one reference
moves exactly the walks through it, and a fresh table can be attached or
made a root without disturbing the rest.
-/

namespace RadixTree

variable {N I : Type*}

def walk (child : N → I → Option N) : N → List I → Option N
  | t, [] => some t
  | t, i::p => (child t i).bind (fun u => walk child u p)

theorem walk_append (child : N → I → Option N) (t : N) (p q : List I) :
    walk child t (p++q) = (walk child t p).bind (fun u => walk child u q) := by
  induction p generalizing t with
  | nil => rfl
  | cons i p ih =>
    cases h : child t i with
    | none => simp [walk, h]
    | some u => simpa [walk, h] using ih u

theorem walk_snoc (child : N → I → Option N) (t : N) (p : List I) (i : I) :
    walk child t (p++[i]) = (walk child t p).bind (fun u => child u i) := by
  rw [walk_append]
  congr 1
  funext u
  cases h : child u i <;> simp [walk, h]

theorem walk_congr (child child' : N → I → Option N) (a : N) (q : List I)
    (h : ∀ p i, p++[i] <+: q → ∀ u, walk child a p = some u → child' u i = child u i) :
    walk child' a q = walk child a q := by
  induction q using List.reverseRecOn with
  | nil => rfl
  | append_singleton q j ih =>
    have hq := ih (fun p i hp => h p i (hp.trans (List.prefix_append q [j])))
    rw [walk_snoc, walk_snoc, hq]
    cases hw : walk child a q with
    | none => rfl
    | some u => exact h q j (List.prefix_refl _) u hw

variable {Root : N → Prop} {Path : List I → Prop}

def Forest (child : N → I → Option N) (Root : N → Prop) (Path : List I → Prop) : Prop :=
  ∀ a b p q t, Root a → Root b → Path p → Path q →
    walk child a p = some t → walk child b q = some t → a = b ∧ p = q

def Node (child : N → I → Option N) (Root : N → Prop) (Path : List I → Prop) (t : N) : Prop :=
  ∃ a p, Root a ∧ Path p ∧ walk child a p = some t

def Closed (Path : List I → Prop) : Prop := ∀ p q, p <+: q → Path q → Path p

theorem walk_off_edge (child child' : N → I → Option N) (hF : Forest child Root Path)
    (hc : Closed Path) {a t : N} {p : List I} {i : I} (ha : Root a) (hp : Path p)
    (ht : walk child a p = some t)
    (hedge : ∀ u j, Node child Root Path u → u ≠ t ∨ j ≠ i → child' u j = child u j)
    {b : N} {q : List I} (hb : Root b) (hq : Path q) (hn : ¬(b = a ∧ p++[i] <+: q)) :
    walk child' b q = walk child b q := by
  apply walk_congr
  intro p' j hpre u hu
  have hp' : Path p' := hc p' q ((List.prefix_append p' [j]).trans hpre) hq
  apply hedge u j ⟨b,p',hb,hp',hu⟩
  by_contra hcon
  push Not at hcon
  obtain ⟨hut,hji⟩ := hcon
  subst hut hji
  obtain ⟨hab,hpp⟩ := hF b a p' p u hb ha hp' hp hu ht
  exact hn ⟨hab,by rwa [← hpp]⟩

section grow
variable (child child' : N → I → Option N) (a t n : N) (p : List I) (i : I)

theorem walk_grow (hF : Forest child Root Path) (hc : Closed Path)
    (ha : Root a) (hp : Path p) (ht : walk child a p = some t) (hti : child t i = none)
    (hnew : child' t i = some n)
    (hempty : ∀ j, Path (p++[i]++[j]) → child' n j = none)
    (hedge : ∀ u j, Node child Root Path u → u ≠ t ∨ j ≠ i → child' u j = child u j)
    (b : N) (q : List I) (hb : Root b) (hq : Path q) [Decidable (b = a ∧ q = p++[i])] :
    walk child' b q = if b = a ∧ q = p++[i] then some n else walk child b q := by
  have hat : walk child' a p = some t := by
    rw [walk_off_edge child child' hF hc ha hp ht hedge ha hp _, ht]
    rintro ⟨-,h⟩
    have := h.length_le
    simp at this
  by_cases hthrough : b = a ∧ p++[i] <+: q
  · obtain ⟨rfl,r,rfl⟩ := hthrough
    have hold : walk child b (p++[i]++r) = none := by
      rw [walk_append, walk_snoc, ht]
      simp [hti]
    have hstep : walk child' b (p++[i]) = some n := by
      rw [walk_snoc, hat]
      exact hnew
    cases r with
    | nil => simp [hstep]
    | cons j r =>
      rw [hold, walk_append, hstep]
      have : child' n j = none := by
        apply hempty
        apply hc _ _ _ hq
        simp
      simp [walk, this]
  · rw [walk_off_edge child child' hF hc ha hp ht hedge hb hq hthrough, if_neg]
    rintro ⟨rfl,rfl⟩
    exact hthrough ⟨rfl,List.prefix_refl _⟩

end grow

section root
variable (child child' : N → I → Option N) (n : N)

theorem walk_new_root (hc : Closed Path) (hempty : ∀ j, Path [j] → child' n j = none)
    {q : List I} (hq : Path q) : walk child' n q = if q = [] then some n else none := by
  cases q with
  | nil => rfl
  | cons j q =>
    have : child' n j = none := hempty j (hc _ _ (by simp) hq)
    simp [walk, this]

theorem walk_same (hc : Closed Path) (hsame : ∀ u j, Node child Root Path u → child' u j = child u j)
    (b : N) (q : List I) (hb : Root b) (hq : Path q) : walk child' b q = walk child b q := by
  apply walk_congr
  intro p j hpre u hu
  exact hsame u j ⟨b,p,hb,hc p q ((List.prefix_append p [j]).trans hpre) hq,hu⟩

theorem forest_same (hF : Forest child Root Path) (hc : Closed Path)
    (hsame : ∀ u j, Node child Root Path u → child' u j = child u j) : Forest child' Root Path := by
  intro b b' q q' u hb hb' hq hq' hu hu'
  rw [walk_same child child' hc hsame b q hb hq] at hu
  rw [walk_same child child' hc hsame b' q' hb' hq'] at hu'
  exact hF b b' q q' u hb hb' hq hq' hu hu'

theorem forest_new_root (hF : Forest child Root Path) (hc : Closed Path)
    (hn : ¬Node child Root Path n) (hempty : ∀ j, Path [j] → child' n j = none)
    (hsame : ∀ u j, Node child Root Path u → child' u j = child u j) :
    Forest child' (fun a => a = n ∨ Root a) Path := by
  have hold : ∀ b q, Root b → Path q → walk child' b q ≠ some n := by
    intro b q hb hq h
    rw [walk_same child child' hc hsame b q hb hq] at h
    exact hn ⟨b,q,hb,hq,h⟩
  have hnew : ∀ q u, Path q → walk child' n q = some u → u = n ∧ q = [] := by
    intro q u hq h
    rw [walk_new_root child' n hc hempty hq] at h
    split_ifs at h with h0
    · cases h
      exact ⟨rfl,h0⟩
  intro b b' q q' u hb hb' hq hq' hu hu'
  rcases hb with rfl | hb <;> rcases hb' with rfl | hb'
  · exact ⟨rfl,(hnew q u hq hu).2.trans (hnew q' u hq' hu').2.symm⟩
  · obtain ⟨rfl,-⟩ := hnew q u hq hu
    exact absurd hu' (hold b' q' hb' hq')
  · obtain ⟨rfl,-⟩ := hnew q' u hq' hu'
    exact absurd hu (hold b q hb hq)
  · exact forest_same child child' hF hc hsame b b' q q' u hb hb' hq hq' hu hu'

end root

end RadixTree
