import Mathlib.Data.Finmap

namespace Nachos.BoundedMap

section Run

variable {S T O P : Type}

def run (perform : S → O → Bool × S) (s : S) : List O → List (O × Bool) × S
  | [] => ([], s)
  | o :: os =>
    let next := run perform (perform s o).2 os
    ((o, (perform s o).1) :: next.1, next.2)

theorem run_simulation {perform : S → O → Bool × S} {perform' : T → P → Bool × T} {f : O → P}
    {R : S → T → Prop} {valid : O → Prop}
    (hstep : ∀ s t o, R s t → valid o →
      (perform s o).1 = (perform' t (f o)).1 ∧ R (perform s o).2 (perform' t (f o)).2)
    {s : S} {t : T} (hr : R s t) {os : List O} (hv : ∀ o ∈ os, valid o) :
    (run perform s os).1.map (Prod.map f id) = (run perform' t (os.map f)).1 ∧
      R (run perform s os).2 (run perform' t (os.map f)).2 := by
  induction os generalizing s t with
  | nil => exact ⟨rfl, hr⟩
  | cons o os ih =>
    obtain ⟨hb, hn⟩ := hstep s t o hr (hv o List.mem_cons_self)
    obtain ⟨hh, hl⟩ := ih hn (fun p hp => hv p (List.mem_cons_of_mem _ hp))
    refine ⟨?_, hl⟩
    simp only [run, List.map_cons, Prod.map, id, hb]
    exact congrArg _ hh

end Run

inductive Op (K V : Type) where
  | add (k : K) (v : V)
  | remove (k : K)

variable {K L V : Type}

def Op.mapKey (f : K → L) : Op K V → Op L V
  | .add k v => .add (f k) v
  | .remove k => .remove (f k)

variable [DecidableEq K]

abbrev Map (K V : Type) := Finmap fun _ : K => V

/-- A map of at most `n` keys, which refuses a key it holds. -/
def perform (n : Nat) (m : Map K V) : Op K V → Bool × Map K V
  | .add k v => if k ∉ m ∧ m.keys.card < n then (true, m.insert k v) else (false, m)
  | .remove k => if k ∈ m then (true, m.erase k) else (false, m)

/-- What the last successful `add` of `k` gave, unless a `remove` of `k` came after it; `v` before the first. -/
def held (k : K) (v : Option V) : List (Op K V × Bool) → Option V
  | [] => v
  | (.add k' v', true) :: h => held k (if k' = k then some v' else v) h
  | (.add _ _, false) :: h => held k v h
  | (.remove k', _) :: h => held k (if k' = k then none else v) h

theorem lookup_insert_ite (m : Map K V) (k k' : K) (v : V) :
    (m.insert k' v).lookup k = if k' = k then some v else m.lookup k := by
  split_ifs with h
  · subst h
    exact Finmap.lookup_insert m
  · exact Finmap.lookup_insert_of_ne m (Ne.symm h)

theorem lookup_erase_ite (m : Map K V) (k k' : K) :
    (m.erase k').lookup k = if k' = k then none else m.lookup k := by
  split_ifs with h
  · subst h
    exact Finmap.lookup_erase k' m
  · exact Finmap.lookup_erase_ne (Ne.symm h)

theorem lookup_run (n : Nat) (m : Map K V) (ops : List (Op K V)) (k : K) :
    (run (perform n) m ops).2.lookup k = held k (m.lookup k) (run (perform n) m ops).1 := by
  induction ops generalizing m with
  | nil => rfl
  | cons op ops ih =>
    cases op with
    | add k' v =>
      by_cases h : k' ∉ m ∧ m.keys.card < n
      · simp only [run, perform, if_pos h, held, ih, lookup_insert_ite]
      · simp only [run, perform, if_neg h, held, ih]
    | remove k' =>
      by_cases h : k' ∈ m
      · simp only [run, perform, if_pos h, held, ih, lookup_erase_ite]
      · have hk : (if k' = k then none else m.lookup k) = m.lookup k := by
          split_ifs with he
          · rw [← he, Finmap.lookup_eq_none.mpr h]
          · rfl
        simp only [run, perform, if_neg h, held, ih, hk]

end Nachos.BoundedMap
