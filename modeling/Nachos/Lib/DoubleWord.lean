import Mathlib.Data.Int.ModEq
import Mathlib.Data.Nat.ModEq
import Mathlib.Tactic.LinearCombination
import Mathlib.Tactic.Zify

/-! Numbers of two words, the high one first. -/

namespace Nachos.DoubleWord

variable {w : Nat} (hi lo hi' lo' : BitVec w)

def value : Nat := hi.toNat * 2 ^ w + lo.toNat

theorem value_lt : value hi lo < 2 ^ w * 2 ^ w := by
  have hlo := lo.isLt
  have hhi : (hi.toNat + 1) * 2 ^ w ≤ 2 ^ w * 2 ^ w := Nat.mul_le_mul_right _ hi.isLt
  rw [Nat.add_mul, Nat.one_mul] at hhi
  rw [value]
  omega

theorem toNat_append : (hi ++ lo).toNat = value hi lo := by
  rw [BitVec.toNat_append, ← Nat.shiftLeft_add_eq_or_of_lt lo.isLt, Nat.shiftLeft_eq, value]

theorem lt_of_carry : lo + lo' < lo' ↔ 2 ^ w ≤ lo.toNat + lo'.toNat := by
  have hlo := lo.isLt
  have hlo' := lo'.isLt
  rw [BitVec.lt_def, BitVec.toNat_add]
  by_cases hc : lo.toNat + lo'.toNat < 2 ^ w
  · rw [Nat.mod_eq_of_lt hc]
    omega
  · rw [Nat.mod_eq_sub_mod (by omega), Nat.mod_eq_of_lt (by omega)]
    omega

theorem value_add : value ((if lo + lo' < lo' then hi + 1 else hi) + hi') (lo + lo') ≡ value hi lo + value hi' lo'
    [MOD 2 ^ w * 2 ^ w] := by
  have hlo := lo.isLt
  have hlo' := lo'.isLt
  set carry := (lo.toNat + lo'.toNat) / 2 ^ w with hcarry
  have hl : (lo + lo').toNat + 2 ^ w * carry = lo.toNat + lo'.toNat := by
    rw [BitVec.toNat_add, Nat.mod_add_div]
  have hh : ((if lo + lo' < lo' then hi + 1 else hi) + hi').toNat = (hi.toNat + carry + hi'.toNat) % 2 ^ w := by
    rw [BitVec.toNat_add]
    split_ifs with h
    · rw [lt_of_carry] at h
      have hone : carry = 1 := Nat.div_eq_of_lt_le (by omega) (by omega)
      have h1 : BitVec.toNat (1 : BitVec w) = 1 % 2 ^ w := BitVec.toNat_ofNat 1 w
      rw [BitVec.toNat_add, Nat.mod_add_mod, hone, h1, Nat.add_right_comm, Nat.add_right_comm _ 1, Nat.add_mod_mod]
    · rw [lt_of_carry] at h
      rw [hcarry, Nat.div_eq_of_lt (by omega), Nat.add_zero]
  have hd := Nat.mod_add_div (hi.toNat + carry + hi'.toNat) (2 ^ w)
  rw [← hh] at hd
  apply Nat.ModEq.symm
  rw [Nat.modEq_iff_dvd]
  refine ⟨-((hi.toNat + carry + hi'.toNat) / 2 ^ w : Nat), ?_⟩
  simp only [value]
  zify at hl hd ⊢
  linear_combination hl + 2 ^ w * hd

theorem value_neg : value (if ~~~lo + 1 = 0 then ~~~hi + 1 else ~~~hi) (~~~lo + 1) + value hi lo ≡ 0
    [MOD 2 ^ w * 2 ^ w] := by
  have hlo := lo.isLt
  have hhi := hi.isLt
  have hneg (x : BitVec w) : ~~~x + 1 = -x := (BitVec.neg_eq_not_add x).symm
  rw [hneg, hneg]
  split_ifs with h
  · have hz : lo = 0 := by simpa using h
    subst hz
    rw [Nat.modEq_zero_iff_dvd]
    have hs : (-hi).toNat + hi.toNat = 2 ^ w * (1 - (2 ^ w - hi.toNat) / 2 ^ w) := by
      rw [BitVec.toNat_neg]
      by_cases h0 : hi.toNat = 0
      · simp [h0]
      · rw [Nat.mod_eq_of_lt (by omega), Nat.div_eq_of_lt (by omega)]
        omega
    refine ⟨1 - (2 ^ w - hi.toNat) / 2 ^ w, ?_⟩
    simp only [value, BitVec.neg_zero, BitVec.toNat_zero, BitVec.ofNat_eq_ofNat, Nat.add_zero]
    rw [← Nat.add_mul, hs, Nat.mul_right_comm]
  · have hz : lo.toNat ≠ 0 := by
      intro h0
      exact h (by simp [BitVec.eq_of_toNat_eq (x := lo) (y := 0) (by simpa using h0)])
    rw [Nat.modEq_zero_iff_dvd]
    refine ⟨1, ?_⟩
    rw [value, value, BitVec.toNat_neg, BitVec.toNat_not, Nat.mod_eq_of_lt (by omega)]
    have hm : (2 ^ w - 1 - hi.toNat) * 2 ^ w + hi.toNat * 2 ^ w + 2 ^ w = 2 ^ w * 2 ^ w := by
      rw [← Nat.add_mul, ← Nat.succ_mul]
      congr 1
      omega
    omega

end Nachos.DoubleWord
