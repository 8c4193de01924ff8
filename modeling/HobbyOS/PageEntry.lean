import Mathlib.Tactic

/-!
# Page table entries

The bit layout of `vmm.h` and `swap.h` over 64-bit words: flag tests, the
address field and the word which `user_vm_map_page` composes. Everything
later reads an entry through its bits and its frame number.
-/

namespace HobbyOS.PageEntry

abbrev Pte := BitVec 64

def pageSize : ℕ := 4096

def ptePresent : Pte := 1#64 <<< 0
def pteWritable : Pte := 1#64 <<< 1
def pteUser : Pte := 1#64 <<< 2
def pteNocache : Pte := 1#64 <<< 4
def pteAccessed : Pte := 1#64 <<< 5
def pteHuge : Pte := 1#64 <<< 7
def pteCow : Pte := 1#64 <<< 9
def pteSwapped : Pte := 1#64 <<< 10
def pteAddrMask : Pte := 0x000FFFFFFFFFF000#64

def has (e flag : Pte) : Bool := e &&& flag != 0#64

def pteAddr (e : Pte) : ℕ := (e &&& pteAddrMask).toNat

def pteFrame (e : Pte) : ℕ := pteAddr e/pageSize

/-- The word `phys & PTE_ADDR_MASK` for the page with the given frame number. -/
def frameWord (f : ℕ) : Pte := BitVec.ofNat 64 (pageSize*f) &&& pteAddrMask

def bit (e : Pte) (i : ℕ) : Bool := e.getLsbD i

variable (x y : Pte) (f : ℕ) (e : Pte) (i : ℕ)

@[simp] theorem bit_and : bit (x &&& y) i = (bit x i && bit y i) :=
  BitVec.getLsbD_and
@[simp] theorem bit_or : bit (x ||| y) i = (bit x i || bit y i) :=
  BitVec.getLsbD_or
@[simp] theorem bit_not : bit (~~~x) i = (decide (i < 64) && !bit x i) :=
  BitVec.getLsbD_not
@[simp] theorem bit_zero : bit 0#64 i = false := BitVec.getLsbD_zero

theorem bit_ge (hi : 64 ≤ i) : bit e i = false := BitVec.getLsbD_of_ge e i hi

theorem eq_of_bits (h : ∀ i < 64, bit x i = bit y i) : x = y :=
  BitVec.eq_of_getLsbD_eq h

theorem flag_bit {k : ℕ} (hk : k < 64) : bit (1#64 <<< k) i = decide (i = k) := by
  simp only [bit]
  by_cases h : i = k
  · subst h
    simp [hk]
  · rcases Nat.lt_or_gt_of_ne h with h1 | h1
    · simp [h1, h]
    · simp [show ¬ i - k = 0 by omega, h]

theorem has_bit {k : ℕ} (hk : k < 64) : has e (1#64 <<< k) = bit e k := by
  rw [has, Bool.eq_iff_iff, bne_iff_ne]
  constructor
  · intro h
    by_contra hb
    apply h
    apply eq_of_bits
    intro i hi
    rw [bit_and, flag_bit i hk]
    by_cases hik : i = k
    · subst hik
      simp [hb]
    · simp [hik]
  · intro h hz
    have hb := congrArg (fun w => bit w k) hz
    simp [flag_bit k hk, h] at hb

@[simp] theorem has_present : has e ptePresent = bit e 0 := has_bit e (by decide)
@[simp] theorem has_writable : has e pteWritable = bit e 1 := has_bit e (by decide)
@[simp] theorem has_huge : has e pteHuge = bit e 7 := has_bit e (by decide)
@[simp] theorem has_cow : has e pteCow = bit e 9 := has_bit e (by decide)
@[simp] theorem present_bit : bit ptePresent i = decide (i = 0) :=
  flag_bit i (by decide)
@[simp] theorem writable_bit : bit pteWritable i = decide (i = 1) :=
  flag_bit i (by decide)
@[simp] theorem user_bit : bit pteUser i = decide (i = 2) :=
  flag_bit i (by decide)
@[simp] theorem nocache_bit : bit pteNocache i = decide (i = 4) :=
  flag_bit i (by decide)
@[simp] theorem accessed_bit : bit pteAccessed i = decide (i = 5) :=
  flag_bit i (by decide)
@[simp] theorem cow_bit : bit pteCow i = decide (i = 9) :=
  flag_bit i (by decide)
@[simp] theorem mask_bit : bit pteAddrMask i = (decide (12 ≤ i) && decide (i < 52)) := by
  by_cases h : i < 64
  · revert h
    revert i
    decide
  · rw [bit_ge _ _ (by omega)]
    simp [show ¬ i < 52 by omega]

theorem frame_bit : (pteFrame e).testBit i = (decide (i < 40) && bit e (i+12)) := by
  rw [pteFrame, pteAddr, show pageSize = 2^12 from rfl, Nat.testBit_div_two_pow,
    BitVec.testBit_toNat]
  change bit (e &&& pteAddrMask) (i+12) = _
  by_cases h : i < 40
  · simp [h, show i+12 < 52 by omega]
  · simp [h, show ¬ i+12 < 52 by omega]

theorem frame_lt : pteFrame e < 2^40 := by
  apply Nat.lt_pow_two_of_testBit
  intro i hi
  rw [frame_bit]
  simp [show ¬ i < 40 by omega]

theorem frame_congr (e' : Pte) (h : ∀ i, 12 ≤ i → i < 52 → bit e i = bit e' i) : pteFrame e = pteFrame e' := by
  apply Nat.eq_of_testBit_eq
  intro i
  rw [frame_bit, frame_bit]
  by_cases hi : i < 40
  · rw [h (i+12) (by omega) (by omega)]
  · simp [hi]

theorem address_bit : bit (BitVec.ofNat 64 (pageSize*f)) i =
    (decide (i < 64) && (decide (12 ≤ i) && f.testBit (i-12))) := by
  rw [bit, BitVec.getLsbD_ofNat, show pageSize = 2^12 from rfl, Nat.mul_comm,
    Nat.testBit_mul_two_pow]

theorem frame_of_bits (hf : f < 2^40) (e : Pte) (h : ∀ i < 40, bit e (i+12) = f.testBit i) : pteFrame e = f := by
  apply Nat.eq_of_testBit_eq
  intro i
  rw [frame_bit]
  by_cases hi : i < 40
  · simp [hi, h i hi]
  · rw [Nat.testBit_lt_two_pow (lt_of_lt_of_le hf (Nat.pow_le_pow_right (by decide) (by omega)))]
    simp [hi]

theorem frame_compose (hf : f < 2^40) (g : Pte) (hg : ∀ i, 12 ≤ i → i < 52 → bit g i = false) : pteFrame (frameWord f ||| g) = f := by
  apply frame_of_bits f hf
  intro i hi
  simp [frameWord, address_bit, hg (i+12) (by omega) (by omega),
    show i+12 < 52 by omega, show i+12 < 64 by omega]

theorem compose_bit (g : Pte) {i : ℕ} (hi : i < 12 ∨ 52 ≤ i) : bit (frameWord f ||| g) i = bit g i := by
  rcases hi with h | h
  · simp [frameWord, show ¬ 12 ≤ i by omega]
  · simp [frameWord, show ¬ i < 52 by omega]

theorem flags_bit (hi : i < 12 ∨ 52 ≤ i) (h64 : i < 64) : bit (e &&& ~~~pteAddrMask) i = bit e i := by
  rcases hi with h | h
  · simp [show ¬ 12 ≤ i by omega, h64]
  · simp [show ¬ i < 52 by omega, h64]

end HobbyOS.PageEntry
