import Mathlib.Tactic.Common

namespace Nachos

abbrev Byte := BitVec 8
abbrev Word := BitVec 32
abbrev Buffer := Nat → Byte

namespace Buffer

def copy (dst : Buffer) (start : Nat) (src : Buffer) (n : Nat) : Buffer :=
  fun k => if start ≤ k ∧ k < start + n then src (k - start) else dst k

theorem copy_inside {dst src : Buffer} {start n k : Nat} (hl : start ≤ k) (hu : k < start + n) :
    dst.copy start src n k = src (k - start) := if_pos ⟨hl, hu⟩

theorem copy_outside {dst src : Buffer} {start n k : Nat} (h : k < start ∨ start + n ≤ k) :
    dst.copy start src n k = dst k := if_neg (by omega)

def wordAt (b : Buffer) (i : Nat) : Word := b (i + 3) ++ b (i + 2) ++ b (i + 1) ++ b i

def byteOf (w : Word) (i : Nat) : Byte := w.extractLsb' (8 * i) 8

def ofWords (f : Nat → Word) : Buffer := fun k => byteOf (f (k / 4)) (k % 4)

theorem byteOf_wordAt (b : Buffer) (i j : Nat) (hj : j < 4) : byteOf (b.wordAt i) j = b (i + j) := by
  have hc : j = 0 ∨ j = 1 ∨ j = 2 ∨ j = 3 := by omega
  apply BitVec.eq_of_getLsbD_eq
  intro k hk
  rcases hc with rfl | rfl | rfl | rfl
  all_goals
    simp only [byteOf, wordAt, BitVec.getLsbD_extractLsb', BitVec.getLsbD_append, hk, decide_true,
      Bool.true_and]
    grind

theorem wordAt_byteOf {b : Buffer} {i : Nat} {w : Word} (h : ∀ j < 4, b (i + j) = byteOf w j) :
    b.wordAt i = w := by
  have h0 := h 0 (by omega)
  simp only [Nat.add_zero] at h0
  rw [wordAt, h0, h 1 (by omega), h 2 (by omega), h 3 (by omega)]
  apply BitVec.eq_of_getLsbD_eq
  intro k hk
  simp only [byteOf, BitVec.getLsbD_append, BitVec.getLsbD_extractLsb']
  grind

theorem wordAt_congr {b c : Buffer} {i j : Nat} (h : ∀ k < 4, b (i + k) = c (j + k)) :
    b.wordAt i = c.wordAt j :=
  wordAt_byteOf (fun k hk => by rw [h k hk, byteOf_wordAt _ _ _ hk])

theorem wordAt_ofWords (f : Nat → Word) (i : Nat) : (ofWords f).wordAt (4 * i) = f i := by
  apply wordAt_byteOf
  intro j hj
  have hd : (4 * i + j) / 4 = i := by omega
  have hm : (4 * i + j) % 4 = j := by omega
  simp only [ofWords, hd, hm]

theorem ofWords_wordAt (b : Buffer) : ofWords (fun i => b.wordAt (4 * i)) = b := by
  funext k
  have hk : 4 * (k / 4) + k % 4 = k := by omega
  rw [ofWords, byteOf_wordAt _ _ _ (by omega), hk]

end Buffer

end Nachos
