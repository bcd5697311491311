import Nachos.Lib.BoundedMap
import Mathlib.Data.Fintype.Card

namespace Nachos.SlotTable

open BoundedMap

variable {K V : Type} [DecidableEq K] {n : Nat}

/-- A table of `n` slots that holds each key once. -/
structure Represents (slots : Fin n → Option (K × V)) (m : Map K V) : Prop where
  unique : ∀ i j k v w, slots i = some (k, v) → slots j = some (k, w) → i = j
  lookup : ∀ k v, m.lookup k = some v ↔ ∃ i, slots i = some (k, v)

theorem represents_empty : Represents (fun _ : Fin n => (none : Option (K × V))) ∅ := by
  refine ⟨fun _ _ _ _ _ h => (by cases h), fun k v => ?_⟩
  rw [Finmap.lookup_empty]
  simp

namespace Represents

variable {slots : Fin n → Option (K × V)} {m : Map K V} (h : Represents slots m)
include h

theorem mem {k : K} : k ∈ m ↔ ∃ i v, slots i = some (k, v) := by
  rw [Finmap.mem_iff]
  simp only [h.lookup]
  exact exists_comm

theorem keys_card : m.keys.card = (Finset.univ.filter fun i => (slots i).isSome = true).card := by
  symm
  apply Finset.card_bij (fun i hi => ((slots i).get (Finset.mem_filter.mp hi).2).1)
  · intro i hi
    rw [Finmap.mem_keys, h.mem]
    exact ⟨i, _, (Option.some_get _).symm⟩
  · intro i hi j hj he
    obtain ⟨⟨k, v⟩, hk⟩ := Option.isSome_iff_exists.mp (Finset.mem_filter.mp hi).2
    obtain ⟨⟨k', w⟩, hk'⟩ := Option.isSome_iff_exists.mp (Finset.mem_filter.mp hj).2
    simp only [hk, hk', Option.get_some] at he
    subst he
    exact h.unique i j k v w hk hk'
  · intro k hk
    obtain ⟨i, v, hi⟩ := h.mem.mp (Finmap.mem_keys.mp hk)
    refine ⟨i, Finset.mem_filter.mpr ⟨Finset.mem_univ i, by rw [hi]; rfl⟩, ?_⟩
    simp only [hi, Option.get_some]

theorem room : m.keys.card < n ↔ ∃ i, slots i = none := by
  rw [h.keys_card]
  constructor
  · intro hlt
    by_contra hall
    have hfull : Finset.univ.filter (fun i => (slots i).isSome = true) = Finset.univ := by
      apply Finset.filter_true_of_mem
      intro i _
      exact Option.isSome_iff_ne_none.mpr fun hi => hall ⟨i, hi⟩
    rw [hfull, Finset.card_fin] at hlt
    exact lt_irrefl n hlt
  · rintro ⟨i, hi⟩
    have hlt := Finset.card_lt_univ_of_notMem (s := Finset.univ.filter fun i => (slots i).isSome = true) (x := i)
      (by simp [hi])
    rwa [Fintype.card_fin] at hlt

theorem insert {k : K} (hk : k ∉ m) {i : Fin n} (hi : slots i = none) (v : V) :
    Represents (Function.update slots i (some (k, v))) (m.insert k v) := by
  have hother {j : Fin n} {w : V} : slots j ≠ some (k, w) := fun hj => hk (h.mem.mpr ⟨j, w, hj⟩)
  constructor
  · intro j l k' w x hj hl
    by_cases hji : j = i <;> by_cases hli : l = i
    · rw [hji, hli]
    · subst hji
      rw [Function.update_self] at hj
      obtain ⟨rfl, -⟩ := Prod.mk.inj (Option.some.inj hj)
      rw [Function.update_of_ne hli] at hl
      exact absurd hl hother
    · subst hli
      rw [Function.update_self] at hl
      obtain ⟨rfl, -⟩ := Prod.mk.inj (Option.some.inj hl)
      rw [Function.update_of_ne hji] at hj
      exact absurd hj hother
    · rw [Function.update_of_ne hji] at hj
      rw [Function.update_of_ne hli] at hl
      exact h.unique j l k' w x hj hl
  · intro k' w
    rw [lookup_insert_ite]
    split_ifs with hkk
    · subst hkk
      constructor
      · rintro ⟨⟩
        exact ⟨i, Function.update_self ..⟩
      · rintro ⟨j, hj⟩
        by_cases hji : j = i
        · subst hji
          rw [Function.update_self] at hj
          rw [(Prod.mk.inj (Option.some.inj hj)).2]
        · rw [Function.update_of_ne hji] at hj
          exact absurd hj hother
    · rw [h.lookup]
      apply exists_congr
      intro j
      by_cases hji : j = i
      · subst hji
        rw [Function.update_self, hi]
        simp [hkk]
      · rw [Function.update_of_ne hji]

theorem erase {k : K} {v : V} {i : Fin n} (hi : slots i = some (k, v)) :
    Represents (Function.update slots i none) (m.erase k) := by
  have hold {j : Fin n} {p : K × V} (hj : Function.update slots i none j = some p) : j ≠ i ∧ slots j = some p := by
    by_cases hji : j = i
    · subst hji
      rw [Function.update_self] at hj
      cases hj
    · exact ⟨hji, (Function.update_of_ne hji ..).symm.trans hj⟩
  constructor
  · exact fun j l k' w x hj hl => h.unique j l k' w x (hold hj).2 (hold hl).2
  · intro k' w
    rw [lookup_erase_ite]
    split_ifs with hkk
    · subst hkk
      refine iff_of_false (by simp) ?_
      rintro ⟨j, hj⟩
      obtain ⟨hji, hj⟩ := hold hj
      exact hji (h.unique j i _ _ _ hj hi)
    · rw [h.lookup]
      constructor
      · rintro ⟨j, hj⟩
        refine ⟨j, (Function.update_of_ne ?_ ..).trans hj⟩
        rintro rfl
        exact hkk (Prod.mk.inj (Option.some.inj (hi.symm.trans hj))).1
      · rintro ⟨j, hj⟩
        exact ⟨j, (hold hj).2⟩

end Represents

end Nachos.SlotTable
