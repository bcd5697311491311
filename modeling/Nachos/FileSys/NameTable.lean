import Nachos.FileSys.Directory
import Nachos.Lib.BoundedMap
import Mathlib.Data.Fintype.Card

namespace Nachos.Directory

open CString CInt BoundedMap

variable {n : Nat}

abbrev nameKey (name : Buffer) : List Byte := CString.key fileNameMaxLen name

def perform (dir : Directory n) : Op Buffer Int → Bool × Directory n
  | .add name sector => dir.add name sector
  | .remove name => dir.remove name

structure Represents (dir : Directory n) (m : Map (List Byte) Int) : Prop where
  unique : dir.Unique
  lookup : ∀ k s, m.lookup k = some s ↔
    ∃ i, (dir.table i).inUse = true ∧ (dir.table i).key = k ∧ (dir.table i).sector.toInt = s

namespace Represents

variable {dir : Directory n} {m : Map (List Byte) Int}

theorem mem (h : dir.Represents m) {k : List Byte} :
    k ∈ m ↔ ∃ i, (dir.table i).inUse = true ∧ (dir.table i).key = k := by
  rw [Finmap.mem_iff]
  constructor
  · rintro ⟨s, hs⟩
    obtain ⟨i, hu, hk, -⟩ := (h.lookup k s).mp hs
    exact ⟨i, hu, hk⟩
  · rintro ⟨i, hu, hk⟩
    exact ⟨_, (h.lookup k _).mpr ⟨i, hu, hk, rfl⟩⟩

theorem keys_card (h : dir.Represents m) :
    m.keys.card = (Finset.univ.filter fun i => (dir.table i).inUse = true).card := by
  have hi : m.keys = (Finset.univ.filter fun i => (dir.table i).inUse = true).image fun i => (dir.table i).key := by
    ext k
    simp only [Finmap.mem_keys, h.mem, Finset.mem_image, Finset.mem_filter, Finset.mem_univ, true_and]
  rw [hi]
  apply Finset.card_image_of_injOn
  intro i hi j hj hk
  simp only [Finset.coe_filter, Finset.mem_univ, true_and, Set.mem_ofPred_eq] at hi hj
  exact h.unique i j hi hj hk

theorem keys_card_lt (h : dir.Represents m) : m.keys.card < n ↔ ∃ i, (dir.table i).inUse = false := by
  rw [h.keys_card]
  constructor
  · intro hlt
    by_contra hall
    have hu : (Finset.univ.filter fun i => (dir.table i).inUse = true) = Finset.univ := by
      apply Finset.filter_true_of_mem
      intro i _
      by_contra hi
      exact hall ⟨i, by simpa using hi⟩
    rw [hu, Finset.card_univ, Fintype.card_fin] at hlt
    omega
  · rintro ⟨i, hi⟩
    have hlt : (Finset.univ.filter fun i => (dir.table i).inUse = true).card < (Finset.univ : Finset (Fin n)).card := by
      apply Finset.card_lt_card
      apply Finset.filter_ssubset.mpr
      exact ⟨i, Finset.mem_univ i, by simp [hi]⟩
    rwa [Finset.card_univ, Fintype.card_fin] at hlt

theorem findIndex_eq_none (h : dir.Represents m) {name : Buffer} :
    dir.findIndex name = none ↔ nameKey name ∉ m := by
  rw [findIndex_none, h.mem, not_exists]
  exact forall_congr' fun i => not_and.symm

theorem find (h : dir.Represents m) (name : Buffer) : dir.find name = (m.lookup (nameKey name)).getD (-1) := by
  cases hf : dir.findIndex name with
  | none =>
    rw [Finmap.lookup_eq_none.mpr (h.findIndex_eq_none.mp hf)]
    simp only [Directory.find, hf, Option.getD_none]
  | some i =>
    obtain ⟨hu, hk⟩ := findIndex_some hf
    rw [(h.lookup _ _).mpr ⟨i, hu, hk, rfl⟩]
    simp only [Directory.find, hf, Option.getD_some]

theorem insert (h : dir.Represents m) {name : Buffer} (hn : dir.findIndex name = none) {i : Fin n}
    (hi : (dir.table i).inUse = false) {s : Int} (h0 : 0 ≤ s) (hs : s ≤ intMax) :
    (dir.update i ((dir.table i).fill name s)).Represents (m.insert (nameKey name) s) := by
  have hsec : ((dir.table i).fill name s).sector.toInt = s := toInt_ofInt (by omega) hs
  refine ⟨h.unique.fill hn i s, ?_⟩
  intro k t
  rw [lookup_insert_ite]
  split_ifs with hk
  · subst hk
    constructor
    · intro ht
      refine ⟨i, ?_⟩
      rw [update_self, DirectoryEntry.key_fill, hsec]
      exact ⟨rfl, rfl, Option.some.inj ht⟩
    · rintro ⟨j, hj, hkj, ht⟩
      by_cases hji : j = i
      · subst hji
        rw [update_self, hsec] at ht
        rw [ht]
      · rw [update_of_ne dir hji] at hj hkj
        exact absurd hkj (findIndex_none.mp hn j hj)
  · rw [h.lookup]
    constructor
    · rintro ⟨j, hj, hkj, ht⟩
      have hji : j ≠ i := by
        rintro rfl
        simp [hi] at hj
      refine ⟨j, ?_⟩
      rw [update_of_ne dir hji]
      exact ⟨hj, hkj, ht⟩
    · rintro ⟨j, hj, hkj, ht⟩
      by_cases hji : j = i
      · subst hji
        rw [update_self, DirectoryEntry.key_fill] at hkj
        exact absurd hkj hk
      · rw [update_of_ne dir hji] at hj hkj ht
        exact ⟨j, hj, hkj, ht⟩

theorem erase (h : dir.Represents m) {name : Buffer} {i : Fin n} (hf : dir.findIndex name = some i) :
    (dir.update i (dir.table i).release).Represents (m.erase (nameKey name)) := by
  obtain ⟨hu, hki⟩ := findIndex_some hf
  have hout (j : Fin n) (hj : ((dir.update i (dir.table i).release).table j).inUse = true) : j ≠ i := by
    rintro rfl
    rw [update_self] at hj
    exact absurd hj (by simp [DirectoryEntry.release])
  refine ⟨h.unique.clear i, ?_⟩
  intro k t
  rw [lookup_erase_ite]
  split_ifs with hk
  · refine iff_of_false (by simp) ?_
    rintro ⟨j, hj, hkj, -⟩
    have hji := hout j hj
    rw [update_of_ne dir hji] at hj hkj
    exact hji (h.unique j i hj hu (hkj.trans (hk.symm.trans hki.symm)))
  · rw [h.lookup]
    constructor
    · rintro ⟨j, hj, hkj, ht⟩
      have hji : j ≠ i := by
        rintro rfl
        exact hk (hki.symm.trans hkj)
      refine ⟨j, ?_⟩
      rw [update_of_ne dir hji]
      exact ⟨hj, hkj, ht⟩
    · rintro ⟨j, hj, hkj, ht⟩
      have hji := hout j hj
      rw [update_of_ne dir hji] at hj hkj ht
      exact ⟨j, hj, hkj, ht⟩

end Represents

def Addressed : Op Buffer Int → Prop
  | .add _ sector => 0 ≤ sector ∧ sector ≤ intMax
  | .remove _ => True

theorem new_represents (n : Nat) (heap : Buffer) : (new n heap).Represents ∅ := by
  have hout (i : Fin n) : ((new n heap).table i).inUse ≠ true := by simp [new, DirectoryEntry.release]
  refine ⟨fun i _ hi => absurd hi (hout i), ?_⟩
  intro k s
  rw [Finmap.lookup_empty]
  refine iff_of_false (by simp) ?_
  rintro ⟨i, hi, -⟩
  exact hout i hi

theorem add_eq_true {dir : Directory n} {name : Buffer} {s : Int} :
    (dir.add name s).1 = true ↔ dir.findIndex name = none ∧ ∃ i, (dir.table i).inUse = false := by
  constructor
  · intro h
    obtain ⟨hn, i, hi, -⟩ := add_true (Prod.ext h rfl)
    exact ⟨hn, i, hi⟩
  · rintro ⟨hn, hf⟩
    exact add_of_free hn hf s

theorem perform_represents {dir : Directory n} {m : Map (List Byte) Int} (h : dir.Represents m)
    (op : Op Buffer Int) (ha : Addressed op) :
    (dir.perform op).1 = (BoundedMap.perform n m (op.mapKey nameKey)).1 ∧
      (dir.perform op).2.Represents (BoundedMap.perform n m (op.mapKey nameKey)).2 := by
  cases op with
  | add name sector =>
    simp only [perform, add, Op.mapKey, BoundedMap.perform]
    cases hf : dir.findIndex name with
    | some i =>
      have hin : ¬(nameKey name ∉ m ∧ m.keys.card < n) := by
        rintro ⟨hout, -⟩
        rw [h.findIndex_eq_none.mpr hout] at hf
        cases hf
      rw [if_neg hin]
      exact ⟨rfl, h⟩
    | none =>
      have hout := h.findIndex_eq_none.mp hf
      cases hs : (List.finRange n).find? (fun i => !(dir.table i).inUse) with
      | some i =>
        have hi : (dir.table i).inUse = false := by simpa using List.find?_some hs
        rw [if_pos ⟨hout, h.keys_card_lt.mpr ⟨i, hi⟩⟩]
        exact ⟨rfl, h.insert hf hi ha.1 ha.2⟩
      | none =>
        have hfull : ¬(nameKey name ∉ m ∧ m.keys.card < n) := by
          rintro ⟨-, hlt⟩
          obtain ⟨i, hi⟩ := h.keys_card_lt.mp hlt
          exact List.find?_eq_none.mp hs i (List.mem_finRange i) (by rw [hi]; rfl)
        rw [if_neg hfull]
        exact ⟨rfl, h⟩
  | remove name =>
    simp only [perform, remove, Op.mapKey, BoundedMap.perform]
    cases hf : dir.findIndex name with
    | none =>
      rw [if_neg (h.findIndex_eq_none.mp hf)]
      exact ⟨rfl, h⟩
    | some i =>
      obtain ⟨hu, hk⟩ := findIndex_some hf
      rw [if_pos (h.mem.mpr ⟨i, hu, hk⟩)]
      exact ⟨rfl, h.erase hf⟩

theorem perform_failed {dir : Directory n} {op : Op Buffer Int} (h : (dir.perform op).1 = false) :
    (dir.perform op).2 = dir := by
  cases op with
  | add name sector =>
    simp only [perform, add] at h ⊢
    split at h
    · rfl
    · split at h
      · cases h
      · rfl
  | remove name =>
    simp only [perform, remove] at h ⊢
    split at h
    · rfl
    · cases h

theorem refines_map (n : Nat) (heap : Buffer) {ops : List (Op Buffer Int)} (ha : ∀ op ∈ ops, Addressed op)
    {history : List (Op Buffer Int × Bool)} {dir : Directory n} (hr : run perform (new n heap) ops = (history, dir)) :
    dir.Unique ∧
      ∃ m : Map (List Byte) Int,
        run (BoundedMap.perform n) ∅ (ops.map (Op.mapKey nameKey)) =
            (history.map (Prod.map (Op.mapKey nameKey) id), m) ∧
          (∀ k, m.lookup k = held k none (history.map (Prod.map (Op.mapKey nameKey) id))) ∧
          (∀ name, dir.find name = (m.lookup (nameKey name)).getD (-1)) ∧
          (∀ name sector, (dir.add name sector).1 = true ↔ nameKey name ∉ m ∧ m.keys.card < n) ∧
          ∀ op, (dir.perform op).1 = false → (dir.perform op).2 = dir := by
  obtain ⟨hh, hm⟩ := run_simulation (R := Represents) (f := Op.mapKey nameKey)
    (fun _ _ op h => perform_represents h op) (new_represents n heap) ha
  rw [hr] at hh hm
  refine ⟨hm.unique, (run (BoundedMap.perform n) ∅ (ops.map (Op.mapKey nameKey))).2, ?_, ?_, hm.find, ?_,
    fun _ => perform_failed⟩
  · rw [hh]
  · intro k
    rw [hh, lookup_run, Finmap.lookup_empty]
  · intro name sector
    rw [add_eq_true, hm.findIndex_eq_none, hm.keys_card_lt]

def longName (c : Byte) : Buffer := fun k => if k < 12 then c else 0

def oneSlot : List (Op Buffer Int) :=
  [.add (longName 97) 5, .add (longName 98) 7, .remove (longName 97), .add (longName 98) 3]

theorem refines_map_oneSlot :
    (run perform (new 1 fun _ => 0) oneSlot).1.map Prod.snd = [true, false, true, true] ∧
      (run perform (new 1 fun _ => 0) oneSlot).2.Unique ∧
        (run perform (new 1 fun _ => 0) oneSlot).2.find (longName 98) = 3 := by
  have ha : ∀ op ∈ oneSlot, Addressed op := by simp [oneSlot, Addressed, intMax]
  obtain ⟨hu, -⟩ := refines_map 1 (fun _ => 0) ha rfl
  exact ⟨by decide +kernel, hu, by decide +kernel⟩

end Nachos.Directory
