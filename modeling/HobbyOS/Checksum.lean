import HobbyOS.Ipv4

/-!
# The internet checksum

The words are added up modulo 65535; the folded sum is its representative
that is zero only for a buffer of zeros.
-/

namespace HobbyOS.Checksum
open Ipv4

theorem fold_carry_spec (n : ℕ) (hn : n < 2^32) :
    foldCarry 3 n < 2^16 ∧ foldCarry 3 n % 65535 = n % 65535 ∧ (0 < n → 0 < foldCarry 3 n) := by
  simp only [foldCarry]
  split_ifs <;> omega

theorem fold_complement {n : ℕ} (hn : n < 2^31) : foldCarry 3 (n+(2^16-1-foldCarry 3 n)) = 2^16-1 := by
  have hzero : foldCarry 3 0 = 0 := rfl
  obtain ⟨h1,h2,h3⟩ := fold_carry_spec n (by omega)
  obtain ⟨k1,k2,k3⟩ := fold_carry_spec (n+(2^16-1-foldCarry 3 n)) (by omega)
  have hpos : 0 < n+(2^16-1-foldCarry 3 n) := by
    rcases Nat.eq_zero_or_pos n with rfl | h0
    · rw [hzero]
      decide
    · omega
  have := k3 hpos
  omega

theorem fold_twice {n : ℕ} (hn : n < 2^31) : foldCarry 2 n = foldCarry 3 n := by
  simp only [foldCarry]
  split_ifs <;> omega

theorem sum_append (p q : List UInt8) (hp : p.length % 2 = 0) : sum16 (p++q) = sum16 p+sum16 q := by
  induction p using sum16.induct with
  | case1 a b rest ih =>
    simp only [List.cons_append, sum16, ih (by simp only [List.length_cons] at hp; omega)]
    omega
  | case2 a => simp at hp
  | case3 => simp [sum16]

theorem sum_le (l : List UInt8) : sum16 l ≤ 65535*((l.length+1)/2) := by
  induction l using sum16.induct with
  | case1 a b rest ih =>
    have ha := a.toNat_lt
    have hb := b.toNat_lt
    simp only [sum16, List.length_cons]
    omega
  | case2 a =>
    have ha := a.toNat_lt
    simp only [sum16, List.length_singleton]
    omega
  | case3 => exact le_refl 0

theorem checksum_eq {l : List UInt8} (hl : l.length ≤ 65535) :
    sum16 l < 2^31 ∧ ipChecksum l = 2^16-1-foldCarry 3 (sum16 l) := by
  have hle := sum_le l
  have hlt : sum16 l < 2^31 := by omega
  obtain ⟨hf,-⟩ := fold_carry_spec (sum16 l) (by omega)
  exact ⟨hlt,by rw [ipChecksum, Nat.mod_eq_of_lt (show sum16 l < 2^32 by omega), Nat.mod_eq_of_lt hf]⟩

/-- A 16-bit field between two parts of a buffer. -/
def withField (p q : List UInt8) (x : ℕ) : List UInt8 := p++[UInt8.ofNat x,UInt8.ofNat (x/256)]++q

theorem field_sum (p q : List UInt8) (hp : p.length % 2 = 0) {x : ℕ} (hx : x < 2^16) :
    sum16 (withField p q x) = sum16 (withField p q 0)+x := by
  simp only [withField, List.append_assoc, sum_append p _ hp, List.cons_append, List.nil_append, sum16,
    UInt8.toNat_ofNat']
  omega

theorem field_checked (p q : List UInt8) (hp : p.length % 2 = 0) (hl : p.length+2+q.length ≤ 65535) :
    ipChecksum (withField p q (ipChecksum (withField p q 0))) = 0 := by
  have hlen : ∀ x, (withField p q x).length ≤ 65535 := fun x => by
    simp only [withField, List.length_append, List.length_cons, List.length_nil]
    omega
  obtain ⟨hlt,hsum⟩ := checksum_eq (hlen 0)
  rw [(checksum_eq (hlen _)).2, field_sum p q hp (by omega), hsum, fold_complement hlt,
    Nat.sub_self]

/-- The pseudo-header of `tcp_checksum`. -/
def tcpPseudo (srcIp dstIp : Ip) (tcpLen : ℕ) : List UInt8 := be32 srcIp++be32 dstIp++[0,6]++be16 tcpLen

/-- Both loops add to one 32-bit sum. -/
def tcpChecksum (seg : List UInt8) (srcIp dstIp : Ip) : ℕ :=
  2^16-1-foldCarry 3 ((sum16 (tcpPseudo srcIp dstIp seg.length)+sum16 seg) % 2^32) % 2^16

theorem checksum_law :
    (∀ l, l.length ≤ 65535 → sum16 l < 2^32 ∧ foldCarry 2 (sum16 l) < 2^16 ∧
      ipChecksum l = 2^16-1-foldCarry 2 (sum16 l)) ∧
    (∀ p q, p.length % 2 = 0 → p.length+2+q.length ≤ 65535 →
      ipChecksum (withField p q (ipChecksum (withField p q 0))) = 0) ∧
    ∀ seg srcIp dstIp, tcpChecksum seg srcIp dstIp = ipChecksum (tcpPseudo srcIp dstIp seg.length++seg) := by
  refine ⟨fun l hl => ?_,field_checked,fun seg srcIp dstIp => ?_⟩
  · obtain ⟨hlt,heq⟩ := checksum_eq hl
    rw [fold_twice hlt]
    exact ⟨by omega,(fold_carry_spec _ (by omega)).1,heq⟩
  · rw [tcpChecksum, ipChecksum, sum_append]
    simp [tcpPseudo, be32, be16]

theorem checksum_law_header : ipChecksum [0x45,0,0xBA,0xFF] = 0 :=
  checksum_law.2.1 [0x45,0] [] rfl (by decide)

end HobbyOS.Checksum
