import Mathlib.Data.List.Nodup
import Mathlib.Logic.Function.Basic

namespace Nachos

variable {P C : Type}

/-- The pointers from `p` lead through the cells `l` and end in `q`. -/
def Chain (next : C → Option P) (mem : P → Option C) : Option P → List (P × C) → Option P → Prop
  | p, [], q => p = q
  | p, (a, c) :: l, q => p = some a ∧ mem a = some c ∧ Chain next mem (next c) l q

namespace Chain

variable {next : C → Option P} {mem mem' : P → Option C} {p q : Option P} {a b : P} {c e : C} {l m : List (P × C)}

theorem append_iff : Chain next mem p (l ++ m) q ↔ ∃ r, Chain next mem p l r ∧ Chain next mem r m q := by
  induction l generalizing p with
  | nil => simp [Chain]
  | cons x l ih =>
    simp only [List.cons_append, Chain, ih]
    constructor
    · rintro ⟨hp, hx, r, hl, hm⟩
      exact ⟨r, ⟨hp, hx, hl⟩, hm⟩
    · rintro ⟨r, ⟨hp, hx, hl⟩, hm⟩
      exact ⟨hp, hx, r, hl, hm⟩

theorem mem_eq (h : Chain next mem p l q) : ∀ x ∈ l, mem x.1 = some x.2 := by
  induction l generalizing p with
  | nil => simp
  | cons x l ih => exact List.forall_mem_cons.mpr ⟨h.2.1, ih h.2.2⟩

theorem not_mem_of_free (h : Chain next mem p l q) (ha : mem a = none) : a ∉ l.map Prod.fst := by
  intro hm
  obtain ⟨x, hx, rfl⟩ := List.mem_map.mp hm
  simp [h.mem_eq x hx] at ha

theorem frame (h : Chain next mem p l q) (ha : ∀ x ∈ l, mem' x.1 = mem x.1) : Chain next mem' p l q := by
  induction l generalizing p with
  | nil => exact h
  | cons x l ih =>
    obtain ⟨hx, hl⟩ := List.forall_mem_cons.mp ha
    exact ⟨h.1, hx.trans h.2.1, ih h.2.2 hl⟩

theorem next_eq (h : Chain next mem p (l ++ (b, c) :: m) none) : next c = m.head?.map Prod.fst := by
  obtain ⟨r, -, -, -, hm⟩ := append_iff.mp h
  cases m with
  | nil => exact hm
  | cons x m => exact hm.1

section Update

variable [DecidableEq P]

theorem update (h : Chain next mem p l q) (ha : a ∉ l.map Prod.fst) (v : Option C) :
    Chain next (Function.update mem a v) p l q := by
  apply h.frame
  intro x hx
  apply Function.update_of_ne
  rintro rfl
  exact ha (List.mem_map_of_mem hx)

theorem insertAfter {c' : C} (h : Chain next mem p (l ++ (b, c) :: m) q)
    (hd : ((l ++ (b, c) :: m).map Prod.fst).Nodup) (ha : a ∉ (l ++ (b, c) :: m).map Prod.fst) (hmem : mem a = some e)
    (hc : next c' = some a) (he : next e = next c) :
    Chain next (Function.update mem b (some c')) p (l ++ (b, c') :: (a, e) :: m) q := by
  simp only [List.map_append, List.map_cons, List.mem_append, List.mem_cons, not_or] at ha
  rw [List.map_append, List.map_cons, List.nodup_middle, List.nodup_cons, List.mem_append, not_or] at hd
  obtain ⟨r, hl, hb, -, hm⟩ := append_iff.mp h
  apply append_iff.mpr
  refine ⟨r, hl.update hd.1.1 _, hb, Function.update_self .., hc, ?_, ?_⟩
  · rw [Function.update_of_ne ha.2.1, hmem]
  · rw [he]
    exact hm.update hd.1.2 _

end Update

end Chain

end Nachos
