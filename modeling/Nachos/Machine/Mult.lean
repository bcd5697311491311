import Nachos.Lib.DoubleWord
import Nachos.Lib.WordArith
import Nachos.Machine.Access
import Nachos.Machine.OneInstruction

namespace Nachos

open DoubleWord WordArith

theorem odd_iff (a : Word) : a &&& 1 ≠ 0 ↔ a.toNat % 2 = 1 := by
  have h : (a &&& 1).toNat = a.toNat % 2 := toNat_and_low a 1 (by decide)
  rw [Ne, ← BitVec.toNat_inj, h]
  simp

theorem last_of_and_eq_zero {a : Word} (h : a &&& 0xfffffffe = 0) : a.toNat / 2 = 0 := by
  have hmask : ∀ i < 32, (0xfffffffe : Word).getLsbD i = decide (i ≠ 0) := by decide
  have hz : a >>> 1 = 0 := by
    apply BitVec.eq_of_getLsbD_eq
    intro i hi
    by_cases hlt : 1 + i < 32
    · have hb := congrArg (fun w : Word => w.getLsbD (1 + i)) h
      rw [BitVec.getLsbD_and, hmask _ hlt] at hb
      simpa using hb
    · rw [BitVec.getLsbD_ushiftRight, BitVec.getLsbD_of_ge _ _ (by omega)]
      simp
  have hn := congrArg BitVec.toNat hz
  rwa [BitVec.toNat_ushiftRight, Nat.shiftRight_eq_div_pow] at hn

theorem sshiftRight_mod (a : Word) {n : Nat} (hn : n < 32) : (a.sshiftRight 1).toNat % 2 ^ n = a.toNat / 2 % 2 ^ n := by
  have ha := a.isLt
  cases hm : a.msb with
  | false => rw [BitVec.sshiftRight_eq_of_msb_false hm, BitVec.toNat_ushiftRight, Nat.shiftRight_eq_div_pow, Nat.pow_one]
  | true =>
    have he : (a.sshiftRight 1).toNat = a.toNat / 2 + 2 ^ n * 2 ^ (31 - n) := by
      rw [BitVec.sshiftRight_eq_of_msb_true hm, BitVec.toNat_not, BitVec.toNat_ushiftRight, BitVec.toNat_not,
        Nat.shiftRight_eq_div_pow, ← Nat.pow_add, Nat.add_sub_cancel' (by omega)]
      omega
    rw [he, Nat.add_mul_mod_self_left]

theorem value_shift (bHi bLo : Word) :
    value (if bLo &&& 0x80000000 ≠ 0 then bHi <<< 1 ||| 1 else bHi <<< 1) (bLo <<< 1) ≡ 2 * value bHi bLo
      [MOD 2 ^ 64] := by
  have hlt := bLo.isLt
  have hhi := bHi.isLt
  have hsign : bLo &&& 0x80000000 ≠ 0 ↔ 2 ^ 31 ≤ bLo.toNat := by
    rw [sign_ne_zero_iff, BitVec.toInt_eq_toNat_cond]
    split_ifs <;> omega
  have hor : (bHi <<< 1 ||| 1).toNat = 2 * bHi.toNat % 2 ^ 32 + 1 := by
    have he : 2 * bHi.toNat % 2 ^ 32 = (bHi.toNat % 2 ^ 31) <<< 1 := by
      rw [Nat.shiftLeft_eq]
      omega
    rw [BitVec.toNat_or, BitVec.toNat_shiftLeft, Nat.shiftLeft_eq, Nat.pow_one, Nat.mul_comm, he]
    exact (Nat.shiftLeft_add_eq_or_of_lt (by decide) _).symm
  simp only [Nat.ModEq, value]
  split_ifs with h
  · rw [hsign] at h
    rw [hor, BitVec.toNat_shiftLeft, Nat.shiftLeft_eq]
    omega
  · rw [hsign] at h
    rw [BitVec.toNat_shiftLeft, BitVec.toNat_shiftLeft, Nat.shiftLeft_eq, Nat.shiftLeft_eq]
    omega

theorem multLoop_value {n : Nat} (hn : n ≤ 32) (a bLo bHi hi lo : Word) :
    value (multLoop n a bLo bHi hi lo).1 (multLoop n a bLo bHi hi lo).2 ≡
      value hi lo + a.toNat % 2 ^ n * value bHi bLo [MOD 2 ^ 64] := by
  induction n generalizing a bLo bHi hi lo with
  | zero =>
    rw [Nat.pow_zero, Nat.mod_one, Nat.zero_mul, Nat.add_zero]
    rfl
  | succ n ih =>
    have hmod : a.toNat % 2 ^ (n + 1) = a.toNat % 2 + 2 * (a.toNat / 2 % 2 ^ n) := by
      rw [Nat.pow_succ', Nat.mod_mul]
    have hnext (bHi' hi' lo' : Word) (hb : value bHi' (bLo <<< 1) ≡ 2 * value bHi bLo [MOD 2 ^ 64])
        (h : value hi' lo' ≡ value hi lo + a.toNat % 2 * value bHi bLo [MOD 2 ^ 64]) :
        value (multLoop n (a.sshiftRight 1) (bLo <<< 1) bHi' hi' lo').1
          (multLoop n (a.sshiftRight 1) (bLo <<< 1) bHi' hi' lo').2 ≡
        value hi lo + a.toNat % 2 ^ (n + 1) * value bHi bLo [MOD 2 ^ 64] := by
      have hr := ih (by omega) (a.sshiftRight 1) (bLo <<< 1) bHi' hi' lo'
      rw [sshiftRight_mod a (by omega)] at hr
      refine (hr.trans (h.add (hb.mul_left _))).trans ?_
      rw [hmod, Nat.add_mul, Nat.add_assoc, Nat.mul_left_comm, Nat.mul_assoc]
    by_cases ho : a &&& 1 ≠ 0
    · have hodd := (odd_iff a).mp ho
      have hadd := value_add hi lo bHi bLo
      rw [← Nat.pow_add] at hadd
      simp only [multLoop, if_pos ho]
      by_cases hz : a &&& 0xfffffffe = 0
      · rw [if_pos ⟨ho, hz⟩, hmod, last_of_and_eq_zero hz, hodd, Nat.zero_mod, Nat.mul_zero, Nat.add_zero, Nat.one_mul]
        exact hadd
      · rw [if_neg (fun h => hz h.2)]
        apply hnext _ _ _ (value_shift bHi bLo)
        rw [hodd, Nat.one_mul]
        exact hadd
    · have heven : a.toNat % 2 = 0 := by
        have h1 := mt (odd_iff a).mpr ho
        omega
      simp only [multLoop, if_neg ho]
      rw [if_neg (fun h => ho h.1)]
      apply hnext _ _ _ (value_shift bHi bLo)
      rw [heven, Nat.zero_mul, Nat.add_zero]

theorem multLoop_product (a b : Word) :
    value (multLoop 32 a b 0 0 0).1 (multLoop 32 a b 0 0 0).2 = a.toNat * b.toNat := by
  have h := multLoop_value (le_refl 32) a b 0 0 0
  have hlt := value_lt (multLoop 32 a b 0 0 0).1 (multLoop 32 a b 0 0 0).2
  rw [← Nat.pow_add] at hlt
  have hp : a.toNat * b.toNat < 2 ^ 32 * 2 ^ 32 := Nat.mul_lt_mul'' a.isLt b.isLt
  have h0 : value (0 : Word) 0 = 0 := rfl
  have hb : value 0 b = b.toNat := by simp [value]
  rw [h0, hb, Nat.zero_add, Nat.mod_eq_of_lt a.isLt] at h
  exact h.eq_of_lt_of_lt hlt hp

theorem neg_toNat {a : Word} (h : a.toInt < 0) : ((-a).toNat : Int) = -a.toInt := by
  have ha := a.isLt
  rw [BitVec.toInt_eq_toNat_cond] at h ⊢
  rw [BitVec.toNat_neg]
  split_ifs at h ⊢ <;> omega

theorem mult_magnitude (a : Word) : ((if true && a.slt 0 then -a else a).toNat : Int) = |a.toInt| := by
  rw [Bool.true_and]
  split_ifs with h
  · have hneg : a.toInt < 0 := by simpa [BitVec.slt] using h
    rw [neg_toNat hneg, abs_of_neg hneg]
  · have hpos : 0 ≤ a.toInt := by simpa [BitVec.slt] using h
    rw [abs_of_nonneg hpos, BitVec.toInt_eq_toNat_of_msb]
    rw [BitVec.msb_eq_toInt]
    simpa using hpos

theorem append_eq_ofInt {hi lo : Word} {z : Int} (h : (value hi lo : Int) ≡ z [ZMOD 2 ^ 64]) :
    hi ++ lo = BitVec.ofInt 64 z := by
  have hlt := value_lt hi lo
  rw [← Nat.pow_add] at hlt
  apply BitVec.eq_of_toNat_eq
  rw [toNat_append, BitVec.toNat_ofInt]
  have hz : z % 2 ^ 64 = value hi lo := by
    rw [← h]
    exact Int.emod_eq_of_lt (Int.natCast_nonneg _) (by exact_mod_cast hlt)
  exact (congrArg Int.toNat hz).symm

theorem mult_signed {a b : Word} (hz : ¬(a = 0 ∨ b = 0)) :
    (mult a b true).1 ++ (mult a b true).2 = BitVec.ofInt 64 (a.toInt * b.toInt) := by
  have hp := multLoop_product (if true && a.slt 0 then -a else a) (if true && b.slt 0 then -b else b)
  have hm : mult a b true =
      if (true && a.slt 0) ≠ (true && b.slt 0) then
        let x := multLoop 32 (if true && a.slt 0 then -a else a) (if true && b.slt 0 then -b else b) 0 0 0
        (if ~~~x.2 + 1 = 0 then ~~~x.1 + 1 else ~~~x.1, ~~~x.2 + 1)
      else multLoop 32 (if true && a.slt 0 then -a else a) (if true && b.slt 0 then -b else b) 0 0 0 := by
    rw [mult, if_neg hz]
  generalize multLoop 32 (if true && a.slt 0 then -a else a) (if true && b.slt 0 then -b else b) 0 0 0 = x at hp hm
  have hv : (value x.1 x.2 : Int) = |a.toInt| * |b.toInt| := by
    rw [hp, Nat.cast_mul, mult_magnitude, mult_magnitude]
  have hs : ((true && a.slt 0) ≠ (true && b.slt 0)) ↔ ¬(a.toInt < 0 ↔ b.toInt < 0) := by
    simp [BitVec.slt]
  rw [hm]
  split_ifs with h
  · apply append_eq_ofInt
    have hneg := value_neg x.1 x.2
    rw [← Nat.pow_add] at hneg
    have hsum : (value (if ~~~x.2 + 1 = 0 then ~~~x.1 + 1 else ~~~x.1) (~~~x.2 + 1) : Int) +
        value x.1 x.2 ≡ 0 [ZMOD 2 ^ 64] := by
      exact_mod_cast Int.natCast_modEq_iff.mpr hneg
    have hprod : a.toInt * b.toInt = -(|a.toInt| * |b.toInt|) := by
      rw [hs] at h
      rcases lt_or_ge a.toInt 0 with ha | ha
      · rw [abs_of_neg ha, abs_of_nonneg (by omega), neg_mul, neg_neg]
      · rw [abs_of_nonneg ha, abs_of_neg (by omega), mul_neg, neg_neg]
    rw [hprod, ← hv]
    simpa using hsum.sub_right (value x.1 x.2 : Int)
  · apply append_eq_ofInt
    have hprod : a.toInt * b.toInt = |a.toInt| * |b.toInt| := by
      rw [hs, not_not] at h
      rcases lt_or_ge a.toInt 0 with ha | ha
      · rw [abs_of_neg ha, abs_of_neg (h.mp ha), neg_mul_neg]
      · rw [abs_of_nonneg ha, abs_of_nonneg (by omega)]
    rw [hprod, ← hv]

theorem mult_full_product (a b : Word) :
    (mult a b true).1 ++ (mult a b true).2 = BitVec.ofInt 64 (a.toInt * b.toInt) ∧
      ((mult a b false).1 ++ (mult a b false).2).toNat = a.toNat * b.toNat := by
  by_cases hz : a = 0 ∨ b = 0
  · have hm (s : Bool) : mult a b s = (0, 0) := if_pos hz
    rw [hm, hm]
    rcases hz with rfl | rfl
    · simp
    · simp
  · refine ⟨mult_signed hz, ?_⟩
    have hm : mult a b false = multLoop 32 a b 0 0 0 := by
      rw [mult, if_neg hz]
      rfl
    rw [toNat_append, hm, multLoop_product]

end Nachos
