import Mathlib.Tactic.Common

namespace Nachos

section

variable {S A : Type} {init : S → Prop} {step : S → A → S → Prop}

inductive Reachable (init : S → Prop) (step : S → A → S → Prop) : S → Prop where
  | start {s : S} : init s → Reachable init step s
  | next {s t : S} (a : A) : Reachable init step s → step s a t → Reachable init step t

theorem Reachable.invariant {I : S → Prop} (hi : ∀ s, init s → I s)
    (hs : ∀ s a t, I s → step s a t → I t) {s : S} (h : Reachable init step s) : I s := by
  induction h with
  | start h0 => exact hi _ h0
  | next a _ ht ih => exact hs _ a _ ih ht

theorem Reachable.mono {step' : S → A → S → Prop} (h : ∀ s a t, step s a t → step' s a t)
    {s : S} (hr : Reachable init step s) : Reachable init step' s := by
  induction hr with
  | start h0 => exact .start h0
  | next a _ ht ih => exact .next a ih (h _ a _ ht)

theorem Reachable.trans {init' : S → Prop} (h : ∀ s, init' s → Reachable init step s) {s : S}
    (hr : Reachable init' step s) : Reachable init step s := by
  induction hr with
  | start h0 => exact h _ h0
  | next a _ ht ih => exact .next a ih ht

end

end Nachos
