import Nachos.FileSys.Disk
import Nachos.Lib.WordBits
import Mathlib.Data.Finset.Card
import Mathlib.Data.Finset.Range

namespace Nachos

structure BitMap where
  numBits : Nat
  map : Words

namespace BitMap

def bitsInByte : Nat := 8
def bitsInWord : Nat := 32

def numWords (b : BitMap) : Nat := (divRoundUp b.numBits bitsInWord).toNat

def new (nitems : Nat) (heap : Words) : BitMap :=
  ⟨nitems, (List.range nitems).foldl Words.clear heap⟩

def mark (b : BitMap) (which : Int) : Except Fault BitMap := do
  assert (which ≥ 0 ∧ which < b.numBits)
  .ok { b with map := b.map.mark which.toNat }

def clear (b : BitMap) (which : Int) : Except Fault BitMap := do
  assert (which ≥ 0 ∧ which < b.numBits)
  .ok { b with map := b.map.clear which.toNat }

def test (b : BitMap) (which : Int) : Except Fault Bool := do
  assert (which ≥ 0 ∧ which < b.numBits)
  .ok (b.map.test which.toNat)

def find (b : BitMap) : Int × BitMap :=
  match (List.range b.numBits).find? (fun i => !b.map.test i) with
  | some i => (i, { b with map := b.map.mark i })
  | none => (-1, b)

def numClear (b : BitMap) : Nat := (List.range b.numBits).countP (fun i => !b.map.test i)

def marked (b : BitMap) : Finset Nat := (Finset.range b.numBits).filter (fun i => b.map.test i)

def firstClear (n : Nat) (m : Finset Nat) : Nat := ((List.range n).find? (fun i => decide (i ∉ m))).getD 0

def firstFit (n : Nat) (m : Finset Nat) : Nat → List Nat
  | 0 => []
  | k + 1 => firstFit n m k ++ [firstClear n (m ∪ (firstFit n m k).toFinset)]

theorem mem_marked {b : BitMap} {i : Nat} : i ∈ b.marked ↔ i < b.numBits ∧ b.map.test i = true := by
  simp [marked]

theorem foldl_clear_test (m : Words) (n i : Nat) :
    ((List.range n).foldl Words.clear m).test i = (m.test i && decide (n ≤ i)) := by
  induction n with
  | zero => simp
  | succ n ih =>
    rw [List.range_succ, List.foldl_append, List.foldl_cons, List.foldl_nil, Words.test_clear, ih]
    grind

@[simp] theorem new_numBits (n : Nat) (heap : Words) : (new n heap).numBits = n := rfl

theorem marked_new (n : Nat) (heap : Words) : (new n heap).marked = ∅ := by
  ext i
  simp only [mem_marked, new, foldl_clear_test]
  grind

theorem mark_eq {b : BitMap} {i : Nat} (h : i < b.numBits) :
    b.mark i = .ok { b with map := b.map.mark i } := by
  rw [mark, assert_pos (show (i : Int) ≥ 0 ∧ (i : Int) < b.numBits by omega)]
  rfl

theorem clear_eq {b : BitMap} {i : Nat} (h : i < b.numBits) :
    b.clear i = .ok { b with map := b.map.clear i } := by
  rw [clear, assert_pos (show (i : Int) ≥ 0 ∧ (i : Int) < b.numBits by omega)]
  rfl

theorem test_eq {b : BitMap} {i : Nat} (h : i < b.numBits) : b.test i = .ok (b.map.test i) := by
  rw [test, assert_pos (show (i : Int) ≥ 0 ∧ (i : Int) < b.numBits by omega)]
  rfl

theorem marked_mark {b : BitMap} {i : Nat} (h : i < b.numBits) :
    marked { b with map := b.map.mark i } = insert i b.marked := by
  ext j
  simp only [mem_marked, Words.test_mark, Finset.mem_insert]
  grind

theorem marked_clear {b : BitMap} {i : Nat} :
    marked { b with map := b.map.clear i } = b.marked.erase i := by
  ext j
  simp only [mem_marked, Words.test_clear, Finset.mem_erase]
  grind

theorem numClear_add_card (b : BitMap) : b.numClear + b.marked.card = b.numBits := by
  have hc : b.marked.card = (List.range b.numBits).countP (fun i => b.map.test i) := by
    simp only [marked, Finset.card_def, Finset.filter_val, Finset.range_val, Multiset.range,
      Multiset.filter_coe, Multiset.coe_card, List.countP_eq_length_filter, Bool.decide_eq_true]
  have hl := List.length_eq_countP_add_countP (fun i => b.map.test i) (l := List.range b.numBits)
  have hn : b.numClear = (List.range b.numBits).countP (fun i => decide (¬b.map.test i = true)) := by
    apply List.countP_congr
    intro i _
    cases b.map.test i <;> simp
  rw [List.length_range] at hl
  omega

theorem firstClear_eq {n i : Nat} {m : Finset Nat} (hi : i < n) (hm : i ∉ m) (hl : ∀ j < i, j ∈ m) :
    firstClear n m = i := by
  have hf : (List.range n).find? (fun i => decide (i ∉ m)) = some i :=
    List.find?_range_eq_some.mpr ⟨by simpa using hm, List.mem_range.mpr hi, fun j hj => by simpa using hl j hj⟩
  rw [firstClear, hf, Option.getD_some]

theorem find_of_clear {b : BitMap} (h : 0 < b.numClear) :
    ∃ i, i < b.numBits ∧ i ∉ b.marked ∧ firstClear b.numBits b.marked = i ∧
      b.find = ((i : Int), { b with map := b.map.mark i }) := by
  obtain ⟨k, hk, hkt⟩ := List.countP_pos_iff.mp h
  cases hf : (List.range b.numBits).find? (fun i => !b.map.test i) with
  | none => exact absurd hkt (List.find?_eq_none.mp hf k hk)
  | some i =>
    have hi : b.map.test i = false := by simpa using List.find?_some hf
    have hin : i < b.numBits := List.mem_range.mp (List.mem_of_find?_eq_some hf)
    have hfree : i ∉ b.marked := by simp [mem_marked, hi]
    refine ⟨i, hin, hfree, firstClear_eq hin hfree (fun j hj => ?_), by simp [find, hf]⟩
    have hb := (List.find?_range_eq_some.mp hf).2.2 j hj
    exact mem_marked.mpr ⟨by omega, by simpa using hb⟩

theorem find_of_full {b : BitMap} (h : b.numClear = 0) : b.find = (-1, b) := by
  have hf : (List.range b.numBits).find? (fun i => !b.map.test i) = none := by
    apply List.find?_eq_none.mpr
    exact List.countP_eq_zero.mp h
  simp [find, hf]

end BitMap

end Nachos
