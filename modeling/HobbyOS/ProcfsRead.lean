import Mathlib.Algebra.BigOperators.Group.List.Basic
import HobbyOS.ByteStore

/-!
# Reads of procfs files

The five generators of `procfs.c` end in the same lines, which copy a part of
the text. Offset and size are cut to the 32 bits of an `int` on the way.
-/

namespace HobbyOS.ProcfsRead

def signed (w : ℕ) (n : ℤ) : ℤ := if n % 2^w < 2^(w-1) then n % 2^w else n % 2^w-2^w

/-- The value returned, and the place in the text and number of the bytes that
`memcpy` is asked to copy. -/
structure Window where
  ret : ℤ
  src : ℕ
  count : ℕ

variable (len offset size : ℕ)

def toCopy : ℤ :=
  let avail := signed 32 (len-signed 32 offset)
  if signed 32 size < avail then signed 32 size else avail

def procfsWindow : Window :=
  if (len : ℤ) ≤ signed 64 offset then ⟨0,0,0⟩
  else ⟨toCopy len offset size,offset,(toCopy len offset size % 2^64).toNat⟩

/-- The value returned alone. -/
def procfsRead : ℤ := if (len : ℤ) ≤ signed 64 offset then 0 else toCopy len offset size

theorem window_ret : (procfsWindow len offset size).ret = procfsRead len offset size := by
  rw [procfsWindow, procfsRead, apply_ite Window.ret]

/-- The part of the text from the offset on that has room is copied. -/
def Law : Prop :=
  (procfsWindow len offset size).ret = min size (len-offset) ∧
    (procfsWindow len offset size).count = min size (len-offset) ∧
    (offset < len → (procfsWindow len offset size).src = offset)

def SizeFits : Prop := size < 2^31 ∨ len-offset ≤ size % 2^32 ∧ size % 2^32 < 2^31

theorem window_inside (hlen : len < 2^31) (h : offset < len) : procfsWindow len offset size =
    ⟨min (signed 32 size) (len-offset),offset,(min (signed 32 size) (len-offset) % 2^64).toNat⟩ := by
  have h64 : signed 64 offset = offset := by
    unfold signed
    split_ifs <;> omega
  have h32 : signed 32 offset = offset := by
    unfold signed
    split_ifs <;> omega
  have havail : signed 32 (len-offset) = len-offset := by
    unfold signed
    split_ifs <;> omega
  have hcopy : toCopy len offset size = min (signed 32 size) (len-offset) := by
    rw [toCopy, h32, havail, min_def_lt]
  rw [procfsWindow, h64, if_neg (by omega), hcopy]

theorem window_past (h : len ≤ offset) (ho : offset < 2^63) :
    procfsWindow len offset size = ⟨0,0,0⟩ := by
  have h64 : signed 64 offset = offset := by
    unfold signed
    split_ifs <;> omega
  rw [procfsWindow, h64, if_pos (by omega)]

theorem procfs_read_le (hlen : len < 2^31) (ho : offset < 2^63) :
    procfsRead len offset size ≤ (len-offset : ℕ) := by
  rw [← window_ret]
  by_cases h : offset < len
  · rw [window_inside len offset size hlen h]
    dsimp only
    omega
  · rw [window_past len offset size (by omega) ho]
    exact Int.natCast_nonneg _

theorem law_iff (hlen : len < 2^31) (ho : offset < 2^63) :
    Law len offset size ↔ len ≤ offset ∨ SizeFits len offset size := by
  by_cases h : len ≤ offset
  · refine iff_of_true ?_ (.inl h)
    rw [Law, window_past len offset size h ho]
    exact ⟨by simp [h],by simp [h],fun hlt => absurd hlt (by omega)⟩
  · rw [Law, window_inside len offset size hlen (by omega)]
    unfold SizeFits signed
    dsimp only
    split_ifs <;> omega

/-- The bytes that successive reads of these sizes return. -/
def pieces (text : List UInt8) : ℕ → List ℕ → List UInt8
  | _, [] => []
  | offset, size::sizes =>
    let w := procfsWindow text.length offset size
    (text.drop w.src).take w.count++pieces text (offset+w.ret.toNat) sizes

theorem pieces_eq (text : List UInt8) (hlen : text.length < 2^31) (sizes : List ℕ) (hs : ∀ n ∈ sizes, n < 2^31)
    (offset : ℕ) (ho : offset ≤ text.length) : pieces text offset sizes = (text.drop offset).take sizes.sum := by
  induction sizes generalizing offset with
  | nil => simp [pieces]
  | cons n sizes ih =>
    obtain ⟨hret,hcount,hsrc⟩ := (law_iff text.length offset n hlen (by omega)).mpr
      (.inr (.inl (hs n List.mem_cons_self)))
    have hnext : offset+min n (text.length-offset) ≤ text.length := by omega
    have htake : (text.drop (procfsWindow text.length offset n).src).take (min n (text.length-offset)) =
        (text.drop offset).take n := by
      by_cases h : offset < text.length
      · rw [hsrc h, ← List.length_drop, ← List.take_eq_take_min]
      · simp [show text.length-offset = 0 by omega, List.drop_eq_nil_of_le (Nat.le_of_not_lt h)]
    have hdrop : text.drop (offset+min n (text.length-offset)) = (text.drop offset).drop n := by
      rw [List.drop_drop]
      by_cases h : n ≤ text.length-offset
      · rw [min_eq_left h]
      · rw [List.drop_eq_nil_of_le (by omega), List.drop_eq_nil_of_le (by omega)]
    rw [pieces, hret, hcount, Int.toNat_natCast, htake, ih (fun k hk => hs k (List.mem_cons_of_mem _ hk)) _ hnext,
      hdrop, List.sum_cons, List.take_add]

/-- Behind the sign bit nothing may be copied, and something is unless the
lower half of the offset or of the size happens to say so. -/
theorem law_behind_iff (ho : 2^63 ≤ offset) (hlen : len < 2^31) :
    (Law len offset size ↔ (procfsWindow len offset size).ret = 0) ∧
    ((procfsWindow len offset size).ret = 0 ↔ len ≤ signed 64 offset ∨
      min (signed 32 size) (signed 32 (len-signed 32 offset)) = 0) := by
  have hnone : min size (len-offset) = 0 := by omega
  unfold Law procfsWindow
  rw [hnone]
  split_ifs with h
  · exact ⟨by simp; omega,by simp [h]⟩
  · dsimp only [toCopy]
    rw [← min_def_lt]
    refine ⟨⟨fun hl => hl.1,fun hz => ?_⟩,by simp [h]⟩
    rw [hz]
    exact ⟨rfl,rfl,by omega⟩

/-- A read is a window of the text exactly if the text has ended or the size
survives the cut, and then the parts of a text make up the text. Behind the
sign bit an offset is right only by chance, when nothing is copied. -/
theorem procfs_windows (hlen : len < 2^31) :
    (offset < 2^63 → (Law len offset size ↔ len ≤ offset ∨ SizeFits len offset size)) ∧
    (2^63 ≤ offset → (Law len offset size ↔ (procfsWindow len offset size).ret = 0) ∧
      ((procfsWindow len offset size).ret = 0 ↔ len ≤ signed 64 offset ∨
        min (signed 32 size) (signed 32 (len-signed 32 offset)) = 0)) ∧
    ∀ text : List UInt8, text.length = len → ∀ sizes : List ℕ, (∀ n ∈ sizes, n < 2^31) →
      pieces text 0 sizes = text.take sizes.sum := by
  refine ⟨law_iff len offset size hlen,fun ho => law_behind_iff len offset size ho hlen,?_⟩
  rintro text rfl sizes hs
  exact pieces_eq text hlen sizes hs 0 (Nat.zero_le _)

theorem procfs_windows_short : Law 30 0 4096 :=
  ((procfs_windows 30 0 4096 (by decide)).1 (by decide)).mpr (.inr (.inl (by decide)))

theorem huge_copy : (procfsWindow 30 0 (2^31) = ⟨-2^31,0,2^64-2^31⟩ ∧ ¬Law 30 0 (2^31)) ∧
    procfsWindow 30 (2^63) 8 = ⟨8,2^63,8⟩ ∧ ¬Law 30 (2^63) 8 :=
  ⟨⟨rfl,fun h => absurd h.1 (by decide)⟩,rfl,fun h => absurd h.1 (by decide)⟩

end HobbyOS.ProcfsRead
