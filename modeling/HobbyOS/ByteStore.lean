import Mathlib.Tactic

/-!
# Little-endian words in byte stores

A store is a total map from addresses to bytes. Words of any width are read
and written little-endian, as packed records and integer arrays are. Each
read after a write is decided by whether the two byte ranges meet.
-/

namespace ByteStore
open Function

abbrev Store := ℕ → UInt8

def load (m : Store) : ℕ → ℕ → ℕ
  | 0, _ => 0
  | n+1, a => (m a).toNat+256*load m n (a+1)

variable (m : Store)

def store (n a v : ℕ) : Store :=
  fun i => if a ≤ i ∧ i < a+n then UInt8.ofNat (v/256^(i-a)) else m i

def fill (n a : ℕ) (b : UInt8) : Store :=
  fun i => if a ≤ i ∧ i < a+n then b else m i

/-- The first `n` bytes of `src` from `b` placed in `m` at `a`. -/
def copy (n a : ℕ) (src : Store) (b : ℕ) : Store :=
  fun i => if a ≤ i ∧ i < a+n then src (b+(i-a)) else m i

theorem load_congr (m m' : Store) (n a : ℕ)
    (h : ∀ i, a ≤ i → i < a+n → m i = m' i) : load m n a = load m' n a := by
  induction n generalizing a with
  | zero => rfl
  | succ n ih =>
    rw [load, load, h a (le_refl a) (by omega),
      ih (a+1) (fun i hi hn => h i (by omega) (by omega))]

theorem load_shift (m m' : Store) (n a b : ℕ)
    (h : ∀ i < n, m (a+i) = m' (b+i)) : load m n a = load m' n b := by
  induction n generalizing a b with
  | zero => rfl
  | succ n ih =>
    rw [load, load, show m a = m' b from h 0 (by omega)]
    rw [ih (a+1) (b+1)]
    intro i hi
    rw [show a+1+i = a+(i+1) by omega, show b+1+i = b+(i+1) by omega]
    exact h (i+1) (by omega)

theorem load_lt (n a : ℕ) : load m n a < 256^n := by
  induction n generalizing a with
  | zero => simp [load]
  | succ n ih =>
    have hb : (m a).toNat < 256 := (m a).toNat_lt
    have hr := ih (a+1)
    rw [load]
    omega

theorem load_digits (n a v : ℕ)
    (h : ∀ i < n, m (a+i) = UInt8.ofNat (v/256^i)) : load m n a = v % 256^n := by
  induction n generalizing a v with
  | zero => simp [load, Nat.mod_one]
  | succ n ih =>
    have h0 : (m a).toNat = v % 256 := by
      have := h 0 (by omega)
      simp only [Nat.add_zero, pow_zero, Nat.div_one] at this
      rw [this, UInt8.toNat_ofNat']
    have hr : load m n (a+1) = v/256 % 256^n := by
      apply ih
      intro i hi
      rw [show a+1+i = a+(i+1) by omega, h (i+1) (by omega), Nat.div_div_eq_div_mul,
        pow_succ, Nat.mul_comm]
    rw [load, h0, hr, pow_succ, Nat.mul_comm (256^n) 256, Nat.mod_mul]

theorem load_store_same (n a v : ℕ) :
    load (store m n a v) n a = v % 256^n := by
  apply load_digits
  intro i hi
  simp [store, hi]

theorem load_store_of_lt (n a v : ℕ) (hv : v < 256^n) :
    load (store m n a v) n a = v := by
  rw [load_store_same, Nat.mod_eq_of_lt hv]

theorem load_store_disjoint (n a v k b : ℕ) (h : a+n ≤ b ∨ b+k ≤ a) :
    load (store m n a v) k b = load m k b := by
  apply load_congr
  intro i hi hk
  simp only [store]
  rw [if_neg (by omega)]

theorem load_zero (n a : ℕ) : load (fun _ => 0) n a = 0 := by
  induction n generalizing a with
  | zero => rfl
  | succ n ih => simp [load, ih]

theorem load_copy (n a : ℕ) (src : Store) (b k o : ℕ) (h : o+k ≤ n) :
    load (copy m n a src b) k (a+o) = load src k (b+o) := by
  apply load_shift
  intro i hi
  simp only [copy]
  rw [if_pos (by omega)]
  congr 1
  omega

theorem load_copy_disjoint {n a : ℕ} (src : Store) (b : ℕ) {k c : ℕ}
    (h : a+n ≤ c ∨ c+k ≤ a) : load (copy m n a src b) k c = load m k c := by
  apply load_congr
  intro i hi hk
  simp only [copy]
  rw [if_neg (by omega)]

def bitAt (i : ℕ) : Bool := (m (i/8)).toNat.testBit (i % 8)

def setBit (i : ℕ) : Store := update m (i/8) (m (i/8) ||| UInt8.ofNat (2^(i % 8)))

def clearBit (i : ℕ) : Store :=
  update m (i/8) (m (i/8) &&& ~~~UInt8.ofNat (2^(i % 8)))

theorem mask_bit (i k : ℕ) (hi : i < 8) :
    (UInt8.ofNat (2^i)).toNat.testBit k = decide (i = k) := by
  rw [UInt8.toNat_ofNat', Nat.mod_eq_of_lt (Nat.pow_lt_pow_right (by omega) hi), Nat.testBit_two_pow]

theorem not_mask_bit (i k : ℕ) (hk : k < 8) (hi : i < 8) :
    (~~~UInt8.ofNat (2^i)).toNat.testBit k = !decide (i = k) := by
  rw [← UInt8.toNat_toBitVec, BitVec.testBit_toNat, UInt8.toBitVec_not, BitVec.getLsbD_not,
    ← BitVec.testBit_toNat, UInt8.toNat_toBitVec, mask_bit i k hi]
  simp [hk]

theorem bit_set (i j : ℕ) : bitAt (setBit m i) j = (bitAt m j || decide (i = j)) := by
  unfold bitAt setBit
  by_cases hb : j/8 = i/8
  · rw [hb, update_self, UInt8.toNat_or, Nat.testBit_or, mask_bit _ _ (by omega)]
    congr 2
    exact propext ⟨fun h => by omega,fun h => by omega⟩
  · rw [update_of_ne hb, decide_eq_false (by rintro rfl; exact hb rfl), Bool.or_false]

theorem bit_clear (i j : ℕ) : bitAt (clearBit m i) j = (bitAt m j && !decide (i = j)) := by
  unfold bitAt clearBit
  by_cases hb : j/8 = i/8
  · rw [hb, update_self, UInt8.toNat_and, Nat.testBit_and, not_mask_bit _ _ (by omega) (by omega)]
    congr 3
    exact propext ⟨fun h => by omega,fun h => by omega⟩
  · rw [update_of_ne hb, decide_eq_false (by rintro rfl; exact hb rfl), Bool.not_false, Bool.and_true]

end ByteStore
