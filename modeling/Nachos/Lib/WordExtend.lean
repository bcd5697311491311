import Nachos.Lib.Bytes

namespace Nachos.WordArith

open Buffer

theorem bits_80 : ∀ i < 32, (0x80 : Word).getLsbD i = decide (i = 7) := by decide

theorem bits_ff : ∀ i < 32, (0xff : Word).getLsbD i = decide (i ≤ 7) := by decide

theorem bits_ffffff00 : ∀ i < 32, (0xffffff00 : Word).getLsbD i = decide (7 < i) := by decide

theorem bits_8000 : ∀ i < 32, (0x8000 : Word).getLsbD i = decide (i = 15) := by decide

theorem bits_ffff : ∀ i < 32, (0xffff : Word).getLsbD i = decide (i ≤ 15) := by decide

theorem bits_ffff0000 : ∀ i < 32, (0xffff0000 : Word).getLsbD i = decide (15 < i) := by decide

theorem bit_iff {mask : Word} {n : Nat} (hn : n < 32) (hm : ∀ i < 32, mask.getLsbD i = decide (i = n)) (x : Word) :
    x &&& mask ≠ 0 ↔ x.getLsbD n = true := by
  constructor
  · intro h
    by_contra hc
    apply h
    apply BitVec.eq_of_getLsbD_eq
    intro i hi
    rw [BitVec.getLsbD_and, hm i hi]
    by_cases he : i = n
    · rw [he, Bool.not_eq_true _ |>.mp hc]
      simp
    · simp [he]
  · intro h hc
    have hb := congrArg (BitVec.getLsbD · n) hc
    simp [BitVec.getLsbD_and, hm n hn, h] at hb

theorem extend_signed {n : Nat} {high : Word} (hh : ∀ i < 32, high.getLsbD i = decide (n < i)) {low : Word}
    (hl : ∀ i < 32, low.getLsbD i = decide (i ≤ n)) (x : Word) {b : BitVec (n + 1)}
    (hb : ∀ i ≤ n, x.getLsbD i = b.getLsbD i) :
    (if x.getLsbD n = true then x ||| high else x &&& low) = b.signExtend 32 := by
  have hmsb : b.msb = x.getLsbD n := by
    rw [BitVec.msb_eq_getLsbD_last, hb n (Nat.le_refl n)]
    rfl
  apply BitVec.eq_of_getLsbD_eq
  intro i hi
  have hbit : (if i < n + 1 then b.getLsbD i else x.getLsbD n) = if i ≤ n then x.getLsbD i else x.getLsbD n := by
    by_cases hin : i ≤ n
    · rw [if_pos hin, if_pos (by omega), hb i hin]
    · rw [if_neg hin, if_neg (by omega)]
  rw [BitVec.getLsbD_signExtend, hmsb, hbit]
  by_cases hs : x.getLsbD n = true
  · rw [if_pos hs, BitVec.getLsbD_or, hh i hi, hs]
    by_cases hin : i ≤ n
    · simp [hin, hi, Nat.not_lt.mpr hin]
    · simp [hin, hi, Nat.lt_of_not_le hin]
  · rw [if_neg hs, BitVec.getLsbD_and, hl i hi]
    by_cases hin : i ≤ n
    · simp [hin, hi]
    · simp [hin, hs]

theorem extend_unsigned {n : Nat} {low : Word} (hl : ∀ i < 32, low.getLsbD i = decide (i ≤ n)) (x : Word)
    {b : BitVec (n + 1)} (hb : ∀ i ≤ n, x.getLsbD i = b.getLsbD i) : x &&& low = b.setWidth 32 := by
  apply BitVec.eq_of_getLsbD_eq
  intro i hi
  rw [BitVec.getLsbD_and, hl i hi, BitVec.getLsbD_setWidth]
  by_cases hin : i ≤ n
  · rw [hb i hin]
    simp [hin, hi]
  · simp [hin, BitVec.getLsbD_of_ge b i (by omega)]

variable {x : Word} {b c : Byte}

theorem byte_bits (h : byteOf x 0 = b) : ∀ i ≤ 7, x.getLsbD i = b.getLsbD i := by
  intro i hi
  have hlt : i < 8 := by omega
  rw [← h, byteOf, BitVec.getLsbD_extractLsb']
  simp [hlt]

theorem half_bits (h : byteOf x 0 = b) (h' : byteOf x 1 = c) : ∀ i ≤ 15, x.getLsbD i = (c ++ b).getLsbD i := by
  intro i hi
  rw [← h, ← h', byteOf, byteOf, BitVec.getLsbD_append, BitVec.getLsbD_extractLsb', BitVec.getLsbD_extractLsb']
  by_cases hlt : i < 8
  · simp [hlt]
  · have hsub : i - 8 < 8 := by omega
    have hadd : 8 + (i - 8) = i := by omega
    simp [hlt, hsub, hadd]

theorem byte_signed (h : byteOf x 0 = b) : (if x &&& 0x80 ≠ 0 then x ||| 0xffffff00 else x &&& 0xff) = b.signExtend 32 := by
  have hbit : x &&& 0x80 ≠ 0 ↔ x.getLsbD 7 = true := bit_iff (by decide) bits_80 x
  simp only [hbit]
  exact extend_signed bits_ffffff00 bits_ff x (byte_bits h)

theorem byte_unsigned (h : byteOf x 0 = b) : x &&& 0xff = b.setWidth 32 := extend_unsigned bits_ff x (byte_bits h)

theorem half_signed (h : byteOf x 0 = b) (h' : byteOf x 1 = c) :
    (if x &&& 0x8000 ≠ 0 then x ||| 0xffff0000 else x &&& 0xffff) = (c ++ b).signExtend 32 := by
  have hbit : x &&& 0x8000 ≠ 0 ↔ x.getLsbD 15 = true := bit_iff (by decide) bits_8000 x
  simp only [hbit]
  exact extend_signed bits_ffff0000 bits_ffff x (half_bits h h')

theorem half_unsigned (h : byteOf x 0 = b) (h' : byteOf x 1 = c) : x &&& 0xffff = (c ++ b).setWidth 32 :=
  extend_unsigned bits_ffff x (half_bits h h')

end Nachos.WordArith
