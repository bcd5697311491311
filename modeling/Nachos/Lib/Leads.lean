import Mathlib.Tactic.Common

namespace Nachos

section

variable {S : Type} {next : S → S → Prop} {P Q : S → Prop} {s t : S}

/-- Every run from `s` comes to a state of `Q`. -/
inductive Leads (next : S → S → Prop) (Q : S → Prop) : S → Prop where
  | now {s : S} : Q s → Leads next Q s
  | later {s t : S} : next s t → (∀ u, next s u → Leads next Q u) → Leads next Q s

theorem Leads.trans (h : Leads next P s) (hq : ∀ t, P t → Leads next Q t) : Leads next Q s := by
  induction h with
  | now hp => exact hq _ hp
  | later hn _ ih => exact .later hn ih

theorem Leads.mono (h : Leads next P s) (hq : ∀ t, P t → Q t) : Leads next Q s :=
  h.trans fun t ht => .now (hq t ht)

theorem Leads.step (hn : next s t) (hu : ∀ u, next s u → u = t) (h : Leads next Q t) : Leads next Q s := by
  apply Leads.later hn
  intro u hs
  rw [hu u hs]
  exact h

end

end Nachos
