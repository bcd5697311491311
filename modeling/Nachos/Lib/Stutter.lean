import Mathlib.Tactic.Common

namespace Nachos

section

variable {C A E : Type} {step : C → E → C → Prop} {silent : E → Prop} {next : A → A → Prop} {R : C → A → Prop}

inductive Steps (next : A → A → Prop) (a : A) : Nat → A → Prop where
  | zero : Steps next a 0 a
  | succ {n : Nat} {b c : A} : Steps next a n b → next b c → Steps next a (n + 1) c

theorem Steps.split {a c : A} {n m : Nat} (h : Steps next a (n + m) c) : ∃ b, Steps next a n b ∧ Steps next b m c := by
  induction m generalizing c with
  | zero => exact ⟨c, h, .zero⟩
  | succ m ih =>
    cases h with
    | succ h hn =>
      obtain ⟨b, hb, hm⟩ := ih h
      exact ⟨b, hb, hm.succ hn⟩

theorem Steps.trans {a b c : A} {n m : Nat} (h : Steps next a n b) (h' : Steps next b m c) : Steps next a (n + m) c := by
  induction h' with
  | zero => exact h
  | succ _ hn ih => exact ih.succ hn

theorem Steps.one_iff {a b : A} : Steps next a 1 b ↔ next a b := by
  constructor
  · intro h
    cases h with
    | succ h hn =>
      cases h with
      | zero => exact hn
  · exact fun h => .succ .zero h

theorem Steps.head_iff {a c : A} {n : Nat} : Steps next a (n + 1) c ↔ ∃ b, next a b ∧ Steps next b n c := by
  rw [Nat.add_comm]
  constructor
  · intro h
    obtain ⟨b, hb, hm⟩ := h.split
    exact ⟨b, one_iff.mp hb, hm⟩
  · rintro ⟨b, hb, hm⟩
    exact (one_iff.mpr hb).trans hm

theorem Steps.unique (hd : ∀ a b c, next a b → next a c → b = c) {a b b' : A} {n : Nat} (h : Steps next a n b)
    (h' : Steps next a n b') : b = b' := by
  induction n generalizing b b' with
  | zero =>
    cases h
    cases h'
    rfl
  | succ n ih =>
    cases h with
    | succ h hn =>
      cases h' with
      | succ h' hn' =>
        obtain rfl := ih h h'
        exact hd _ _ _ hn hn'

/-- A run in which `n` steps are not silent. -/
inductive Observed (step : C → E → C → Prop) (silent : E → Prop) (c : C) : Nat → C → Prop where
  | start : Observed step silent c 0 c
  | silent {n : Nat} {d d' : C} (e : E) : Observed step silent c n d → step d e d' → silent e →
    Observed step silent c n d'
  | visible {n : Nat} {d d' : C} (e : E) : Observed step silent c n d → step d e d' → ¬silent e →
    Observed step silent c (n + 1) d'

/-- Each step of the concrete system is one of the abstract system or, if it is silent, none. -/
structure Simulates (step : C → E → C → Prop) (silent : E → Prop) (next : A → A → Prop) (R : C → A → Prop) : Prop where
  visible : ∀ c e c' a, R c a → step c e c' → ¬silent e → ∃ a', next a a' ∧ R c' a'
  silent : ∀ c e c' a, R c a → step c e c' → silent e → R c' a

theorem Simulates.run (h : Simulates step silent next R) {c c' : C} {a : A} {n : Nat} (hr : R c a)
    (hc : Observed step silent c n c') : ∃ a', Steps next a n a' ∧ R c' a' := by
  induction hc with
  | start => exact ⟨a, .zero, hr⟩
  | silent e _ hs he ih =>
    obtain ⟨b, hb, hrb⟩ := ih
    exact ⟨b, hb, h.silent _ e _ b hrb hs he⟩
  | visible e _ hs he ih =>
    obtain ⟨b, hb, hrb⟩ := ih
    obtain ⟨b', hn, hr'⟩ := h.visible _ e _ b hrb hs he
    exact ⟨b', hb.succ hn, hr'⟩

/-- Each step of the abstract system is made by the concrete one, after silent steps that lower the rank. -/
def Serves (step : C → E → C → Prop) (silent : E → Prop) (next : A → A → Prop) (R : C → A → Prop) (rank : C → Nat) :
    Prop :=
  ∀ c a a', R c a → next a a' → (∃ e c', step c e c' ∧ ¬silent e ∧ R c' a') ∨
    ∃ e c', step c e c' ∧ silent e ∧ R c' a ∧ rank c' < rank c

theorem Observed.trans {c d d' : C} {n m : Nat} (h : Observed step silent c n d) (h' : Observed step silent d m d') :
    Observed step silent c (n + m) d' := by
  induction h' with
  | start => exact h
  | silent e _ hs he ih => exact ih.silent e hs he
  | visible e _ hs he ih => exact ih.visible e hs he

theorem Serves.one {rank : C → Nat} (h : Serves step silent next R rank) {c : C} {a a' : A} (hr : R c a)
    (hn : next a a') : ∃ c', Observed step silent c 1 c' ∧ R c' a' := by
  induction hk : rank c using Nat.strongRecOn generalizing c with
  | ind k ih =>
    rcases h c a a' hr hn with ⟨e, c', hs, he, hr'⟩ | ⟨e, c', hs, he, hr', hlt⟩
    · exact ⟨c', .visible e .start hs he, hr'⟩
    · obtain ⟨d, hd, hrd⟩ := ih (rank c') (hk ▸ hlt) hr' rfl
      have hfirst : Observed step silent c 0 c' := .silent e .start hs he
      exact ⟨d, (Nat.zero_add 1) ▸ hfirst.trans hd, hrd⟩

theorem Serves.run {rank : C → Nat} (h : Serves step silent next R rank) {c : C} {a a' : A} {n : Nat} (hr : R c a)
    (ha : Steps next a n a') : ∃ c', Observed step silent c n c' ∧ R c' a' := by
  induction ha with
  | zero => exact ⟨c, .start, hr⟩
  | succ _ hn ih =>
    obtain ⟨d, hd, hrd⟩ := ih
    obtain ⟨d', hd', hr'⟩ := h.one hrd hn
    exact ⟨d', hd.trans hd', hr'⟩

end

end Nachos
