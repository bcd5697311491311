import Nachos.Lib.Bytes
import Mathlib.Logic.Function.Basic

namespace Nachos

abbrev Words := Nat → Word

namespace Words

def mask (i : Nat) : Word := 1#32 <<< (i % 32)

def test (m : Words) (i : Nat) : Bool := m (i / 32) &&& mask i != 0

def mark (m : Words) (i : Nat) : Words := Function.update m (i / 32) (m (i / 32) ||| mask i)

def clear (m : Words) (i : Nat) : Words := Function.update m (i / 32) (m (i / 32) &&& ~~~mask i)

theorem getLsbD_mask (i j : Nat) (hj : j < 32) : (mask i).getLsbD j = decide (j = i % 32) := by
  simp only [mask, BitVec.getLsbD_shiftLeft, hj, decide_true, Bool.true_and, BitVec.getLsbD_one]
  grind

theorem test_eq (m : Words) (i : Nat) : m.test i = (m (i / 32)).getLsbD (i % 32) := by
  have hi : i % 32 < 32 := Nat.mod_lt _ (by omega)
  rw [test, Bool.eq_iff_iff, bne_iff_ne]
  constructor
  · intro h
    by_contra hb
    apply h
    apply BitVec.eq_of_getLsbD_eq
    intro j hj
    by_cases hji : j = i % 32
    · subst hji; simp [hb]
    · simp [BitVec.getLsbD_and, getLsbD_mask i j hj, hji]
  · intro hb h
    have := congrArg (fun w : Word => w.getLsbD (i % 32)) h
    simp [BitVec.getLsbD_and, getLsbD_mask i _ hi, hb] at this

theorem index_eq {i j : Nat} (hd : i / 32 = j / 32) (hm : i % 32 = j % 32) : i = j := by omega

theorem test_mark (m : Words) (i j : Nat) : (m.mark i).test j = (m.test j || decide (j = i)) := by
  have hj : j % 32 < 32 := Nat.mod_lt _ (by omega)
  simp only [test_eq, mark]
  by_cases hd : j / 32 = i / 32
  · rw [hd, Function.update_self, BitVec.getLsbD_or, getLsbD_mask i _ hj]
    have he : j % 32 = i % 32 ↔ j = i := ⟨index_eq hd, fun h => by rw [h]⟩
    simp only [he]
  · have hne : j ≠ i := fun h => hd (by rw [h])
    simp [Function.update_of_ne hd, hne]

theorem test_clear (m : Words) (i j : Nat) : (m.clear i).test j = (m.test j && decide (j ≠ i)) := by
  have hj : j % 32 < 32 := Nat.mod_lt _ (by omega)
  simp only [test_eq, clear]
  by_cases hd : j / 32 = i / 32
  · rw [hd, Function.update_self, BitVec.getLsbD_and, BitVec.getLsbD_not, getLsbD_mask i _ hj]
    have he : j % 32 = i % 32 ↔ j = i := ⟨index_eq hd, fun h => by rw [h]⟩
    simp only [hj, decide_true, Bool.true_and, he, ne_eq, decide_not]
  · have hne : j ≠ i := fun h => hd (by rw [h])
    simp [Function.update_of_ne hd, hne]

end Words

end Nachos
