import Mathlib.Data.List.Perm.Basic
import Mathlib.Data.List.ReduceOption

namespace Nachos

/-- What may happen to a cell that hands over one item at a time. -/
inductive Handover (α : Type) where
  -- overwrites what the cell holds
  | put (a : α)
  -- empties the cell
  | take
  deriving DecidableEq

abbrev Handovers (α : Type) := List (Handover α)

namespace Handovers

variable {α : Type}

def held : Handovers α → Option α
  | .put a :: _ => some a
  | _ => none

def puts : Handovers α → List α
  | [] => []
  | .put a :: l => a :: puts l
  | .take :: l => puts l

def taken : Handovers α → List α
  | [] => []
  | .put _ :: l => taken l
  | .take :: l => (held l).toList ++ taken l

def found : Handovers α → List (Option α)
  | [] => []
  | .put _ :: l => held l :: found l
  | .take :: l => found l

def Spaced (l : Handovers α) : Prop := l.IsChain (fun x y => x = .take ∨ y = .take)

instance [DecidableEq α] (l : Handovers α) : Decidable l.Spaced := inferInstanceAs (Decidable (l.IsChain _))

theorem spaced_put (a : α) (l : Handovers α) : Spaced (.put a :: l) ↔ held l = none ∧ Spaced l := by
  cases l with
  | nil => exact ⟨fun _ => ⟨rfl, .nil⟩, fun _ => .singleton _⟩
  | cons e l =>
    unfold Spaced
    rw [List.isChain_cons_cons]
    apply and_congr_left'
    cases e with
    | put b => simp [held]
    | take => simp [held]

theorem spaced_take (l : Handovers α) : Spaced (.take :: l) ↔ Spaced l := by
  cases l with
  | nil => exact ⟨fun _ => .nil, fun _ => .singleton _⟩
  | cons e l =>
    unfold Spaced
    rw [List.isChain_cons_cons]
    exact and_iff_right (.inl rfl)

theorem found_none_iff (l : Handovers α) : (∀ o ∈ found l, o = none) ↔ Spaced l := by
  induction l with
  | nil => exact ⟨fun _ => .nil, fun _ o ho => by cases ho⟩
  | cons e l ih =>
    cases e with
    | put a => rw [spaced_put, ← ih, found, List.forall_mem_cons]
    | take => rw [spaced_take, ← ih, found]

theorem conservation (l : Handovers α) : (puts l).Perm ((held l).toList ++ taken l ++ (found l).reduceOption) := by
  induction l with
  | nil => exact .nil
  | cons e l ih =>
    cases e with
    | put a =>
      apply List.Perm.cons a
      apply ih.trans
      simp only [found]
      cases held l with
      | none =>
        rw [List.reduceOption_cons_of_none]
        exact .refl _
      | some b =>
        rw [List.reduceOption_cons_of_some]
        exact List.perm_middle.symm
    | take =>
      simp only [puts, held, taken, found, Option.toList_none, List.nil_append]
      exact ih

theorem found_reduceOption (l : Handovers α) : (found l).reduceOption = [] ↔ Spaced l := by
  rw [← found_none_iff, List.reduceOption_eq_nil_iff]
  constructor
  · rintro ⟨n, hn⟩ o ho
    rw [hn] at ho
    exact List.eq_of_mem_replicate ho
  · intro h
    exact ⟨_, List.eq_replicate_iff.mpr ⟨rfl, h⟩⟩

variable {l : Handovers α}

theorem mem_puts_of_held {a : α} (h : held l = some a) : a ∈ puts l := by
  rw [(conservation l).mem_iff, h]
  simp

variable [DecidableEq α]

def Delivered (l : Handovers α) : Prop :=
  ∀ a ∈ puts l, (taken l).count a = 1 ∧ held l ≠ some a ∨ (taken l).count a = 0 ∧ held l = some a

theorem count_puts (l : Handovers α) (a : α) : (puts l).count a =
    (held l).toList.count a + (taken l).count a + (found l).reduceOption.count a := by
  rw [(conservation l).count_eq, List.count_append, List.count_append]

theorem count_held (o : Option α) (a : α) : o.toList.count a = if o = some a then 1 else 0 := by
  cases o with
  | none => rfl
  | some b =>
    rw [Option.toList_some, List.count_singleton]
    simp [beq_iff_eq]

theorem delivered_iff (hn : (puts l).Nodup) : Delivered l ↔ Spaced l := by
  rw [← found_reduceOption]
  constructor
  · intro h
    rw [List.eq_nil_iff_forall_not_mem]
    intro a ha
    have hc := count_puts l a
    have hm : a ∈ puts l := (conservation l).mem_iff.mpr (List.mem_append_right _ ha)
    have hf := List.count_pos_iff.mpr ha
    rw [hn.count, if_pos hm, count_held] at hc
    obtain ⟨h1, -⟩ | ⟨-, h0⟩ := h a hm
    · omega
    · rw [if_pos h0] at hc
      omega
  · intro h a ha
    have hc := count_puts l a
    rw [hn.count, if_pos ha, count_held, h, List.count_nil, Nat.add_zero] at hc
    by_cases hh : held l = some a
    · rw [if_pos hh] at hc
      exact .inr ⟨by omega, hh⟩
    · rw [if_neg hh] at hc
      exact .inl ⟨by omega, hh⟩

end Handovers

end Nachos
