import Mathlib.Tactic.NormNum

namespace Nachos.CInt

/-- The value of a 32-bit `int` expression whose exact value is `x`. -/
def wrap (x : Int) : Int := x.bmod (2 ^ 32)

def intMax : Int := 2 ^ 31 - 1

theorem wrap_of_range {x : Int} (hl : -2 ^ 31 ≤ x) (hu : x ≤ intMax) : wrap x = x := by
  apply Int.bmod_eq_of_le
  · norm_num at *; omega
  · norm_num [intMax] at *; omega

theorem wrap_of_over {x : Int} (hl : intMax < x) (hu : x < 2 ^ 32) : wrap x = x - 2 ^ 32 := by
  simp only [intMax] at hl
  rw [wrap, Int.bmod_def]
  norm_num at *
  omega

theorem neg_le_wrap (x : Int) : -2 ^ 31 ≤ wrap x := by
  have hl := Int.le_bmod (x := x) (m := 2 ^ 32) (by decide)
  norm_num at hl
  exact hl

theorem toInt_range (w : BitVec 32) : -2 ^ 31 ≤ w.toInt ∧ w.toInt ≤ intMax := by
  have hl := BitVec.le_two_mul_toInt (x := w)
  have hu := BitVec.two_mul_toInt_lt (x := w)
  simp only [intMax]
  norm_num at *
  omega

theorem toInt_ofInt {x : Int} (hl : -2 ^ 31 ≤ x) (hu : x ≤ intMax) :
    (BitVec.ofInt 32 x).toInt = x := by
  rw [BitVec.toInt_ofInt]
  exact wrap_of_range hl hu

theorem tdiv_of_nonneg {n s : Int} (hn : 0 ≤ n) : n.tdiv s = n / s :=
  Int.tdiv_eq_ediv_of_nonneg hn

theorem tmod_of_nonneg {n s : Int} (hn : 0 ≤ n) : n.tmod s = n % s :=
  Int.tmod_eq_emod_of_nonneg hn

end Nachos.CInt
