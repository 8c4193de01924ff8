import Mathlib.Tactic

/-!
# Ring buffers

A ring of `size` places in a store, with the place of its first element and
the number of elements. Writing behind the last element appends to the
contents, reading from the first one takes them off in order.
-/

namespace RingBuffer
open Function

variable {α : Type*}

variable (buf : ℕ → α)

def contents (size pos n : ℕ) : List α :=
  (List.range n).map fun k => buf ((pos+k) % size)

def put (size : ℕ) (r : (ℕ → α) × ℕ) (x : α) : (ℕ → α) × ℕ :=
  (update r.1 r.2 x,(r.2+1) % size)

def takeOut (size : ℕ) (buf : ℕ → α) : ℕ → ℕ → List α × ℕ
  | 0, pos => ([],pos)
  | k+1, pos =>
    let r := takeOut size buf k ((pos+1) % size)
    (buf pos::r.1,r.2)

variable (size pos k n : ℕ)

theorem contents_length : (contents buf size pos n).length = n := by
  simp [contents]

theorem contents_succ : contents buf size pos (n+1) = contents buf size pos n++[buf ((pos+n) % size)] := by
  simp [contents, List.range_succ]

theorem mod_ne (hk : k < n) (hn : n < size) : (pos+k) % size ≠ (pos+n) % size := by
  intro h
  have hd := (Nat.modEq_iff_dvd' (by omega)).mp (show pos+k ≡ pos+n [MOD size] from h)
  have := Nat.le_of_dvd (by omega) hd
  omega

theorem contents_put (x : α) (hn : n < size) :
    contents (put size (buf,(pos+n) % size) x).1 size pos (n+1) = contents buf size pos n++[x] := by
  unfold put
  dsimp only
  rw [contents_succ, update_self]
  congr 1
  apply List.map_congr_left
  intro k hk
  exact update_of_ne (mod_ne size pos k n (List.mem_range.mp hk) hn) x buf

theorem put_next (x : α) : (put size (buf,(pos+n) % size) x).2 = (pos+(n+1)) % size := by
  unfold put
  rw [Nat.mod_add_mod, Nat.add_assoc]

theorem contents_put_all (xs : List α) (buf : ℕ → α) (size pos n : ℕ) (hn : n+xs.length ≤ size) :
    contents (xs.foldl (put size) (buf,(pos+n) % size)).1 size pos (n+xs.length) =
        contents buf size pos n++xs ∧
      (xs.foldl (put size) (buf,(pos+n) % size)).2 = (pos+(n+xs.length)) % size := by
  induction xs generalizing buf n with
  | nil => simp
  | cons x xs ih =>
    rw [List.length_cons] at hn
    have hstep : put size (buf,(pos+n) % size) x =
        ((put size (buf,(pos+n) % size) x).1,(pos+(n+1)) % size) :=
      Prod.ext rfl (put_next buf size pos n x)
    rw [List.foldl_cons, hstep, List.length_cons, show n+(xs.length+1) = n+1+xs.length by omega]
    obtain ⟨h1,h2⟩ := ih (put size (buf,(pos+n) % size) x).1 (n+1) (by omega)
    refine ⟨?_,h2⟩
    rw [h1, contents_put buf size pos n x (by omega), List.append_assoc]
    rfl

theorem contents_cons (hp : pos < size) :
    contents buf size pos (n+1) = buf pos::contents buf size ((pos+1) % size) n := by
  unfold contents
  rw [List.range_succ_eq_map, List.map_cons, List.map_map, Nat.add_zero, Nat.mod_eq_of_lt hp]
  congr 1
  apply List.map_congr_left
  intro k _
  rw [comp_apply, Nat.mod_add_mod]
  congr 2
  omega

theorem take_out (pos : ℕ) (hp : pos < size) : takeOut size buf k pos = (contents buf size pos k,(pos+k) % size) := by
  induction k generalizing pos with
  | zero => rw [Nat.add_zero, Nat.mod_eq_of_lt hp]; rfl
  | succ k ih =>
    rw [takeOut, ih _ (Nat.mod_lt _ (by omega)), contents_cons buf size pos k hp, Nat.mod_add_mod,
      show pos+1+k = pos+(k+1) by omega]

theorem contents_drop :
    contents buf size pos (k+n) = contents buf size pos k++contents buf size ((pos+k) % size) n := by
  induction n with
  | zero => simp [contents]
  | succ n ih =>
    rw [show k+(n+1) = k+n+1 by omega, contents_succ, ih, contents_succ buf size ((pos+k) % size),
      Nat.mod_add_mod, List.append_assoc, Nat.add_assoc]

end RingBuffer
