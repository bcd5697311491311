import Mathlib.Data.Nat.Find
import Nachos.Lib.Bytes

namespace Nachos.CString

def compareFrom (a b : Buffer) : Nat → Nat → Int
  | 0, _ => 0
  | n + 1, i =>
    if a i ≠ b i then ((a i).toNat : Int) - (b i).toNat
    else if a i = 0#8 then 0
    else compareFrom a b n (i + 1)

def strncmp (a b : Buffer) (n : Nat) : Int := compareFrom a b n 0

def keyFrom (a : Buffer) : Nat → Nat → List Byte
  | 0, _ => []
  | n + 1, i => if a i = 0#8 then [] else a i :: keyFrom a n (i + 1)

def key (n : Nat) (a : Buffer) : List Byte := keyFrom a n 0

theorem compareFrom_eq_zero (a b : Buffer) (n i : Nat) :
    compareFrom a b n i = 0 ↔ keyFrom a n i = keyFrom b n i := by
  induction n generalizing i with
  | zero => simp [compareFrom, keyFrom]
  | succ n ih =>
    simp only [compareFrom, keyFrom]
    by_cases hab : a i = b i
    · by_cases h0 : b i = 0#8
      · simp [hab, h0]
      · simp [hab, h0, ih]
    · have hne : ((a i).toNat : Int) - (b i).toNat ≠ 0 := by
        intro hc
        exact hab (BitVec.eq_of_toNat_eq (by omega))
      simp only [ne_eq, hab, not_false_eq_true, ↓reduceIte, hne, false_iff]
      split_ifs with ha hb
      · exact fun _ => hab (by rw [ha, hb])
      · simp
      · simp
      · simp [hab]

theorem strncmp_eq_zero {a b : Buffer} {n : Nat} : strncmp a b n = 0 ↔ key n a = key n b :=
  compareFrom_eq_zero a b n 0

def strncpy (dst src : Buffer) (n : Nat) : Buffer :=
  fun k => if k < n then if ∃ j < k + 1, src j = 0#8 then 0#8 else src k else dst k

theorem keyFrom_strncpy (dst src : Buffer) (m n i : Nat) (hi : i + n ≤ m)
    (h : ∀ j < i, src j ≠ 0#8) : keyFrom (strncpy dst src m) n i = keyFrom src n i := by
  induction n generalizing i with
  | zero => rfl
  | succ n ih =>
    have hlt : i < m := by omega
    by_cases h0 : src i = 0#8
    · have he : ∃ j < i + 1, src j = 0#8 := ⟨i, by omega, h0⟩
      simp only [keyFrom, h0, strncpy, hlt, he, ↓reduceIte]
    · have hall : ∀ j < i + 1, src j ≠ 0#8 := by
        intro j hj
        by_cases hji : j = i
        · rwa [hji]
        · exact h j (by omega)
      have he : ¬∃ j < i + 1, src j = 0#8 := fun ⟨j, hj, hz⟩ => hall j hj hz
      have hs : strncpy dst src m i = src i := by simp only [strncpy, hlt, he, ↓reduceIte]
      simp only [keyFrom, hs, h0, ↓reduceIte, ih (i + 1) (by omega) hall]

theorem key_strncpy (dst src : Buffer) (n : Nat) : key n (strncpy dst src n) = key n src :=
  keyFrom_strncpy dst src n n 0 (by omega) (by omega)

theorem keyFrom_congr {a b : Buffer} (n i : Nat) (h : ∀ k < i + n, a k = b k) :
    keyFrom a n i = keyFrom b n i := by
  induction n generalizing i with
  | zero => rfl
  | succ n ih => simp only [keyFrom, h i (by omega), ih (i + 1) (fun k hk => h k (by omega))]

theorem key_congr {a b : Buffer} {n : Nat} (h : ∀ k < n, a k = b k) : key n a = key n b :=
  keyFrom_congr n 0 (fun k hk => h k (by omega))

/-- What `printf` makes of `%s` in a field of `n` bytes from `i` on; `none` if it runs out of the field. -/
def textFrom (a : Buffer) : Nat → Nat → Option (List Byte)
  | 0, _ => none
  | n + 1, i => if a i = 0#8 then some [] else (textFrom a n (i + 1)).map (a i :: ·)

def text (n : Nat) (a : Buffer) : Option (List Byte) := textFrom a n 0

theorem length_keyFrom_lt_iff {a : Buffer} {n i : Nat} : (keyFrom a n i).length < n ↔ ∃ k < n, a (i + k) = 0#8 := by
  induction n generalizing i with
  | zero => simp
  | succ n ih =>
    rw [keyFrom]
    split_ifs with h0
    · exact iff_of_true (Nat.succ_pos n) ⟨0, Nat.succ_pos n, h0⟩
    · rw [List.length_cons, Nat.add_lt_add_iff_right, ih]
      constructor
      · rintro ⟨k, hk, hz⟩
        exact ⟨k + 1, by omega, by rw [← hz]; congr 1; omega⟩
      · rintro ⟨k, hk, hz⟩
        cases k with
        | zero => exact absurd hz h0
        | succ k => exact ⟨k, by omega, by rw [← hz]; congr 1; omega⟩

theorem textFrom_succ (a : Buffer) (n i : Nat) :
    textFrom a (n + 1) i = if (keyFrom a n i).length < n ∨ a (i + n) = 0#8 then some (keyFrom a n i) else none := by
  induction n generalizing i with
  | zero =>
    simp only [textFrom, keyFrom, List.length_nil, lt_irrefl, false_or, Nat.add_zero, Option.map_none]
  | succ n ih =>
    rw [textFrom, keyFrom]
    by_cases h0 : a i = 0#8
    · rw [if_pos h0, if_pos h0, if_pos (.inl (Nat.succ_pos n))]
    · rw [if_neg h0, if_neg h0]
      simp only [ih, List.length_cons, Nat.add_lt_add_iff_right, Nat.add_assoc, Nat.add_comm 1 n]
      split_ifs <;> rfl

structure Name where
  bytes : Buffer
  terminated : ∃ k, bytes k = 0#8

namespace Name

def strlen (name : Name) : Nat := Nat.find name.terminated

def take (name : Name) (n : Nat) : List Byte := (List.range (min name.strlen n)).map name.bytes

theorem keyFrom_eq (name : Name) (n i : Nat) (hi : i ≤ name.strlen) :
    keyFrom name.bytes n i = (List.range' i (min (name.strlen - i) n)).map name.bytes := by
  induction n generalizing i with
  | zero => simp [keyFrom]
  | succ n ih =>
    rw [keyFrom]
    split_ifs with h0
    · have hle : name.strlen ≤ i := Nat.find_min' name.terminated h0
      rw [Nat.sub_eq_zero_of_le hle, Nat.zero_min]
      rfl
    · have hlt : i < name.strlen := lt_of_le_of_ne hi fun he => h0 (he ▸ Nat.find_spec name.terminated)
      have hmin : min (name.strlen - i) (n + 1) = min (name.strlen - (i + 1)) n + 1 := by omega
      rw [ih (i + 1) hlt, hmin, List.range'_succ, List.map_cons]

theorem key_eq (name : Name) (n : Nat) : key n name.bytes = name.take n := by
  rw [key, keyFrom_eq name n 0 (Nat.zero_le _), take, List.range_eq_range', Nat.sub_zero]

theorem length_take (name : Name) (n : Nat) : (name.take n).length = min name.strlen n := by
  rw [take, List.length_map, List.length_range]

end Name

end Nachos.CString
