import Mathlib.Data.List.Nodup
import Mathlib.Data.List.Perm.Basic

namespace Nachos

variable {α : Type}

/-- A queue that some items enter at the front. -/
structure FrontQueue (α : Type) where
  items : List α
  -- history: what was taken, and what entered at the front
  taken : List α
  urgent : List α

namespace FrontQueue

variable {x x' : FrontQueue α} {a : α} {ahead before l urgent : List α}

structure Step (x : FrontQueue α) (front out back : List α) (x' : FrontQueue α) : Prop where
  fresh : (front ++ x.items).Nodup
  items : front ++ x.items ++ back = out ++ x'.items
  taken : x'.taken = x.taken ++ out
  urgent : x'.urgent = x.urgent ++ front

/-- Those of `ahead` in their order, with those who entered at the front and no others. -/
structure Merged (ahead urgent l : List α) : Prop where
  order : ahead.Sublist l
  perm : l.Perm (urgent ++ ahead)

theorem Merged.length (h : Merged ahead urgent l) : l.length = urgent.length + ahead.length := by
  rw [h.perm.length_eq, List.length_append]

theorem Merged.enter {taken waiting front : List α} (h : Merged ahead urgent (taken ++ waiting)) :
    Merged ahead (urgent ++ front) (taken ++ (front ++ waiting)) := by
  constructor
  · apply h.order.trans
    apply List.Sublist.append_left
    exact List.sublist_append_right front waiting
  · have hswap : (taken ++ (front ++ waiting)).Perm (front ++ (taken ++ waiting)) := by
      rw [← List.append_assoc, ← List.append_assoc]
      exact List.perm_append_comm.append_right waiting
    apply hswap.trans
    apply (h.perm.append_left front).trans
    rw [← List.append_assoc]
    exact List.perm_append_comm.append_right ahead

inductive Turn (a : α) (before : List α) (x : FrontQueue α) : Prop
  | waits {ahead behind : List α} (items : x.items = ahead ++ a :: behind) (taken : a ∉ x.taken)
      (merged : Merged before x.urgent (x.taken ++ ahead))
  | served {earlier later urgent : List α} (taken : x.taken = earlier ++ a :: later) (first : a ∉ earlier)
      (entered : urgent.IsPrefix x.urgent) (merged : Merged before urgent earlier)

theorem Turn.start {behind : List α} (hi : x.items = before ++ a :: behind) (ht : x.taken = []) (hu : x.urgent = []) :
    Turn a before x := by
  refine .waits hi (by simp [ht]) ?_
  rw [ht, hu]
  exact ⟨List.Sublist.refl _, List.Perm.refl _⟩

theorem Turn.step {front out back : List α} (h : Turn a before x) (hs : x.Step front out back x') :
    Turn a before x' := by
  cases h with
  | @served earlier later urgent taken first entered merged =>
    have htaken : x'.taken = earlier ++ a :: (later ++ out) := by
      rw [hs.taken, taken, List.append_assoc, List.cons_append]
    refine .served htaken first ?_ merged
    rw [hs.urgent]
    exact entered.trans (List.prefix_append x.urgent front)
  | @waits ahead behind items taken merged =>
    have hfresh := hs.fresh
    rw [items, ← List.append_assoc] at hfresh
    have hnot : a ∉ front ++ ahead := fun hm => (List.disjoint_of_nodup_append hfresh) hm List.mem_cons_self
    have hitems := hs.items
    rw [items, ← List.append_assoc, List.append_assoc, List.cons_append] at hitems
    have hmerged : Merged before x'.urgent (x.taken ++ (front ++ ahead)) := by
      rw [hs.urgent]
      exact merged.enter
    rcases List.append_eq_append_iff.mp hitems with ⟨more, hout, hmore⟩ | ⟨ahead', hahead, hitems'⟩
    · cases more with
      | nil =>
        rw [List.append_nil] at hout
        rw [List.nil_append] at hmore
        have hnext : x'.items = [] ++ a :: (behind ++ back) := hmore.symm
        refine .waits hnext ?_ ?_
        · rw [hs.taken, hout]
          exact fun hm => (List.mem_append.mp hm).elim taken hnot
        · rw [hs.taken, hout, List.append_nil]
          exact hmerged
      | cons b more =>
        obtain ⟨rfl, -⟩ := List.cons.inj hmore
        have htaken : x'.taken = (x.taken ++ (front ++ ahead)) ++ a :: more := by
          rw [hs.taken, hout, ← List.append_assoc]
        refine .served htaken ?_ (List.prefix_refl _) hmerged
        exact fun hm => (List.mem_append.mp hm).elim taken hnot
    · refine .waits hitems' ?_ ?_
      · rw [hs.taken]
        refine fun hm => (List.mem_append.mp hm).elim taken fun hm => hnot ?_
        rw [hahead]
        exact List.mem_append_left _ hm
      · rw [hs.taken, List.append_assoc, ← hahead]
        exact hmerged

theorem Turn.bounded (h : Turn a before x) : a ∈ x.taken ∨ x.taken.length ≤ before.length + x.urgent.length := by
  cases h with
  | served taken =>
    refine .inl ?_
    rw [taken]
    simp
  | waits items taken merged =>
    have hlen := merged.length
    rw [List.length_append] at hlen
    omega

end FrontQueue

end Nachos
