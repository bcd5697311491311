import Mathlib.Data.List.Sort
import Mathlib.Order.Lattice

namespace Nachos

variable {α κ : Type} [LinearOrder κ]

/-- The element goes in front of the first one with a greater key. -/
def sortedInsert (key : α → κ) (x : α) (l : List α) : List α := l.orderedInsert (fun a b => key a < key b) x

def SortedBy (key : α → κ) (l : List α) : Prop := l.Pairwise (fun a b => key a ≤ key b)

def StableBy (key : α → κ) (r : α → α → Prop) (l : List α) : Prop := l.Pairwise (fun a b => key a = key b → r a b)

variable {key : α → κ} {x y : α} {l : List α}

theorem sortedInsert_perm (key : α → κ) (x : α) (l : List α) : (sortedInsert key x l).Perm (x :: l) :=
  List.perm_orderedInsert ..

theorem mem_sortedInsert : y ∈ sortedInsert key x l ↔ y = x ∨ y ∈ l := by
  rw [(sortedInsert_perm key x l).mem_iff, List.mem_cons]

theorem SortedBy.sortedInsert (h : SortedBy key l) (x : α) : SortedBy key (sortedInsert key x l) := by
  induction l with
  | nil => exact List.pairwise_singleton ..
  | cons y l ih =>
    obtain ⟨hy, hl⟩ := List.pairwise_cons.mp h
    rw [Nachos.sortedInsert, List.orderedInsert_cons]
    split_ifs with hxy
    · refine List.pairwise_cons.mpr ⟨fun z hz => ?_, h⟩
      obtain rfl | hz := List.mem_cons.mp hz
      · exact hxy.le
      · exact hxy.le.trans (hy z hz)
    · refine List.pairwise_cons.mpr ⟨fun z hz => ?_, ih hl⟩
      obtain rfl | hz := mem_sortedInsert.mp hz
      · exact not_lt.mp hxy
      · exact hy z hz

theorem SortedBy.lt_of_lt_head (h : SortedBy key (y :: l)) (hx : key x < key y) : ∀ z ∈ y :: l, key x < key z := by
  intro z hz
  obtain rfl | hz := List.mem_cons.mp hz
  · exact hx
  · exact hx.trans_le ((List.pairwise_cons.mp h).1 z hz)

theorem StableBy.sortedInsert {r : α → α → Prop} (h : StableBy key r l) (hs : SortedBy key l) (hx : ∀ y ∈ l, r y x) :
    StableBy key r (sortedInsert key x l) := by
  induction l with
  | nil => exact List.pairwise_singleton ..
  | cons y l ih =>
    obtain ⟨hy, hl⟩ := List.pairwise_cons.mp h
    rw [Nachos.sortedInsert, List.orderedInsert_cons]
    split_ifs with hxy
    · exact List.pairwise_cons.mpr ⟨fun z hz he => absurd he (hs.lt_of_lt_head hxy z hz).ne, h⟩
    · refine List.pairwise_cons.mpr ⟨fun z hz he => ?_,
        ih hl (List.pairwise_cons.mp hs).2 fun z hz => hx z (List.mem_cons_of_mem _ hz)⟩
      obtain rfl | hz := mem_sortedInsert.mp hz
      · exact hx y List.mem_cons_self
      · exact hy z hz he

theorem filter_sortedInsert (h : SortedBy key l) (x : α) (k : κ) :
    (sortedInsert key x l).filter (fun y => key y = k) =
      l.filter (fun y => key y = k) ++ [x].filter (fun y => key y = k) := by
  induction l with
  | nil => rfl
  | cons y l ih =>
    rw [Nachos.sortedInsert, List.orderedInsert_cons]
    split_ifs with hxy
    · by_cases hx : key x = k
      · have hnone : (y :: l).filter (fun y => key y = k) = [] := by
          rw [List.filter_eq_nil_iff]
          intro z hz
          simpa [← hx] using (h.lt_of_lt_head hxy z hz).ne'
        rw [List.filter_cons, hnone]
        simp [hx]
      · simp [List.filter_cons, hx]
    · rw [List.filter_cons, List.filter_cons]
      change (if _ then y :: (Nachos.sortedInsert key x l).filter _ else (Nachos.sortedInsert key x l).filter _) = _
      rw [ih (List.pairwise_cons.mp h).2]
      split_ifs <;> rfl

theorem sortedInsert_eq_cons_iff (h : SortedBy key (x :: l)) :
    sortedInsert key x l = x :: l ↔ ∀ y ∈ l, key y = key x → y = x := by
  induction l with
  | nil => simp [Nachos.sortedInsert]
  | cons y l ih =>
    obtain ⟨hx, hl⟩ := List.pairwise_cons.mp h
    have hxl : SortedBy key (x :: l) :=
      List.pairwise_cons.mpr ⟨fun z hz => hx z (List.mem_cons_of_mem _ hz), (List.pairwise_cons.mp hl).2⟩
    rw [Nachos.sortedInsert, List.orderedInsert_cons]
    split_ifs with hxy
    · simp only [true_iff]
      exact fun z hz he => absurd he (SortedBy.lt_of_lt_head hl hxy z hz).ne'
    · have he : key y = key x := le_antisymm (not_lt.mp hxy) (hx y List.mem_cons_self)
      rw [List.cons.injEq, List.forall_mem_cons]
      constructor
      · rintro ⟨rfl, hi⟩
        exact ⟨fun _ => rfl, (ih hxl).mp hi⟩
      · rintro ⟨hyx, hrest⟩
        obtain rfl := hyx he
        exact ⟨rfl, (ih hxl).mpr hrest⟩

end Nachos
