import Nachos.Lib.Bytes
import Mathlib.Tactic.Linarith

namespace Nachos.WordArith

variable (x y w : Word)

theorem and_sign_eq_zero : x &&& 0x80000000 = 0 ↔ x.msb = false := by
  have hmask : ∀ i < 32, (0x80000000 : Word).getLsbD i = decide (i = 31) := by decide
  rw [BitVec.msb_eq_getLsbD_last]
  constructor
  · intro h
    have hb := congrArg (BitVec.getLsbD · 31) h
    simpa using hb
  · intro h
    apply BitVec.eq_of_getLsbD_eq
    intro i hi
    rw [BitVec.getLsbD_and, hmask i hi]
    by_cases h31 : i = 31
    · subst h31
      simpa using h
    · simp [h31]

theorem xor_sign_eq_zero : (x ^^^ y) &&& 0x80000000 = 0 ↔ x.msb = y.msb := by
  rw [and_sign_eq_zero, BitVec.msb_xor]
  cases x.msb <;> cases y.msb <;> simp

theorem add_overflow :
    ((x ^^^ y) &&& 0x80000000 = 0 ∧ (x ^^^ (x + y)) &&& 0x80000000 ≠ 0) ↔
      ¬(-2 ^ 31 ≤ x.toInt + y.toInt ∧ x.toInt + y.toInt < 2 ^ 31) := by
  have h := BitVec.saddOverflow_eq x y
  simp only [BitVec.saddOverflow, Nat.add_one_sub_one] at h
  rw [Ne, xor_sign_eq_zero, xor_sign_eq_zero]
  cases hx : x.msb <;> cases hy : y.msb <;> cases hs : (x + y).msb <;>
    simp [hx, hy, hs] at h ⊢ <;> omega

theorem sub_overflow :
    ((x ^^^ y) &&& 0x80000000 ≠ 0 ∧ (x ^^^ (x - y)) &&& 0x80000000 ≠ 0) ↔
      ¬(-2 ^ 31 ≤ x.toInt - y.toInt ∧ x.toInt - y.toInt < 2 ^ 31) := by
  have h := BitVec.ssubOverflow_eq x y
  simp only [BitVec.ssubOverflow, Nat.add_one_sub_one] at h
  rw [Ne, Ne, xor_sign_eq_zero, xor_sign_eq_zero]
  cases hx : x.msb <;> cases hy : y.msb <;> cases hs : (x - y).msb <;>
    simp [hx, hy, hs] at h ⊢ <;> omega

theorem sign_eq_zero_iff : x &&& 0x80000000 = 0 ↔ 0 ≤ x.toInt := by
  rw [and_sign_eq_zero, BitVec.msb_eq_toInt]
  simp

theorem sign_ne_zero_iff : x &&& 0x80000000 ≠ 0 ↔ x.toInt < 0 := by
  rw [Ne, sign_eq_zero_iff, Int.not_le]

theorem toNat_and_low (n : Nat) (hn : n ≤ 32) : (x &&& .ofNat 32 (2 ^ n - 1)).toNat = x.toNat % 2 ^ n := by
  have hle : 2 ^ n ≤ 2 ^ 32 := Nat.pow_le_pow_right (by decide) hn
  rw [BitVec.toNat_and, BitVec.toNat_ofNat, Nat.mod_eq_of_lt (by omega), Nat.and_two_pow_sub_one_eq_mod]

theorem sshiftRight_eq_div (n : Nat) : x.sshiftRight n = .ofInt 32 (x.toInt / 2 ^ n) := by
  rw [← BitVec.ofInt_toInt (x := x.sshiftRight n), BitVec.toInt_sshiftRight, Int.shiftRight_eq_div_pow]
  norm_cast

theorem ushiftRight_eq_div (n : Nat) : x >>> n = .ofNat 32 (x.toNat / 2 ^ n) := by
  apply BitVec.eq_of_toNat_eq
  have hx := x.isLt
  rw [BitVec.toNat_ushiftRight, Nat.shiftRight_eq_div_pow, BitVec.toNat_ofNat,
    Nat.mod_eq_of_lt ((Nat.div_le_self ..).trans_lt hx)]

theorem shiftLeft_eq_mul (n : Nat) : x <<< n = .ofNat 32 (x.toNat * 2 ^ n) := by
  apply BitVec.eq_of_toNat_eq
  rw [BitVec.toNat_shiftLeft, BitVec.toNat_ofNat, Nat.shiftLeft_eq]

theorem sshiftRight_eq_ushiftRight {n : Nat} (hn : n < 32) :
    x.sshiftRight n = x >>> n ↔ n = 0 ∨ x.msb = false := by
  constructor
  · intro h
    by_contra hc
    push Not at hc
    have hm : x.msb = true := by simpa using hc.2
    have h1 := congrArg BitVec.msb h
    rw [BitVec.msb_sshiftRight, BitVec.msb_ushiftRight, hm] at h1
    simp [hc.1] at h1
  · rintro (rfl | h)
    · simp
    · exact BitVec.sshiftRight_eq_of_msb_false h

theorem or_self_eq_or : x ||| x = x ||| y ↔ y &&& ~~~x = 0 := by
  have hz (i : Nat) : (0 : Word).getLsbD i = false := BitVec.getLsbD_zero
  constructor
  · intro h
    apply BitVec.eq_of_getLsbD_eq
    intro i hi
    have hb := congrArg (BitVec.getLsbD · i) h
    simp only [BitVec.getLsbD_or, Bool.or_self] at hb
    rw [BitVec.getLsbD_and, BitVec.getLsbD_not, hz, hb]
    cases x.getLsbD i <;> cases y.getLsbD i <;> simp
  · intro h
    apply BitVec.eq_of_getLsbD_eq
    intro i hi
    have hb := congrArg (BitVec.getLsbD · i) h
    simp only [BitVec.getLsbD_and, BitVec.getLsbD_not, hz, hi, decide_true, Bool.true_and] at hb
    rw [BitVec.getLsbD_or, BitVec.getLsbD_or]
    revert hb
    cases x.getLsbD i <;> cases y.getLsbD i <;> decide

end Nachos.WordArith
