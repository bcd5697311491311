import Nachos.Lib.CInt

namespace Nachos

/-- A list object that counts its items in an `int`. -/
structure SizedList (α : Type) where
  items : List α
  size : BitVec 32

namespace SizedList

variable {α β : Type}

def empty : SizedList α := ⟨[], 0⟩

def append (l : SizedList α) (item : α) : SizedList α := ⟨l.items ++ [item], l.size + 1⟩

-- the count goes down even when there is nothing to remove
def remove (l : SizedList α) : Option α × SizedList α := (l.items.head?, ⟨l.items.tail, l.size - 1⟩)

def Exact (l : SizedList α) : Prop := l.size.toInt = l.items.length

theorem toInt_sub_one {w : BitVec 32} (h : 0 < w.toInt) : (w - 1).toInt = w.toInt - 1 := by
  have hw := CInt.toInt_range w
  rw [BitVec.toInt_sub]
  apply CInt.wrap_of_range
  · change _ ≤ w.toInt - 1
    omega
  · change w.toInt - 1 ≤ _
    omega

theorem toInt_add_one {w : BitVec 32} (h : w.toInt < CInt.intMax) : (w + 1).toInt = w.toInt + 1 := by
  have hw := CInt.toInt_range w
  rw [BitVec.toInt_add]
  apply CInt.wrap_of_range
  · change _ ≤ w.toInt + 1
    omega
  · change w.toInt + 1 ≤ _
    omega

def turn (visit : β → α → β) : Nat → β → SizedList α → Option (β × SizedList α)
  | 0, b, l => some (b, l)
  | n + 1, b, l =>
    match l.remove.1 with
    | none => none
    | some x => turn visit n (visit b x) (l.remove.2.append x)

/-- The rounds from `i` on that append again what is not to be dropped, as long as the count, which they change,
is above `i`. -/
def sweep (drop : α → Prop) [DecidablePred drop] (i : Nat) (l : SizedList α) : Option (SizedList α) :=
  if i < l.size.toInt then
    match l.remove.1 with
    | none => none
    | some x => sweep drop (i + 1) (if drop x then l.remove.2 else l.remove.2.append x)
  else some l
termination_by (l.size.toInt - i).toNat
decreasing_by
  have hs := toInt_sub_one (w := l.size) (by omega)
  split
  · change ((l.size - 1).toInt - _).toNat < _
    omega
  · change ((l.size - 1 + 1).toInt - _).toNat < _
    rw [BitVec.sub_add_cancel]
    omega

section

variable {l : SizedList α} {x : α} {rest : List α}

theorem Exact.append (h : l.Exact) (hl : l.size.toInt < CInt.intMax) (x : α) : (l.append x).Exact := by
  unfold Exact at h ⊢
  rw [SizedList.append, toInt_add_one hl, h, List.length_append]
  rfl

theorem Exact.remove (h : l.Exact) (hx : l.items = x :: rest) : l.remove.2.Exact := by
  have hs : l.size.toInt = rest.length + 1 := by
    rw [h, hx]
    rfl
  change (l.size - 1).toInt = l.items.tail.length
  rw [toInt_sub_one (by omega), hs, hx]
  exact add_sub_cancel_right ..

theorem Exact.requeue (h : l.Exact) (hx : l.items = x :: rest) : (l.remove.2.append x).Exact := by
  change (l.size - 1 + 1).toInt = (l.items.tail ++ [x]).length
  rw [BitVec.sub_add_cancel, h, hx]
  simp

theorem turn_append (visit : β → α → β) (a b : List α) (c : β) (size : BitVec 32) :
    turn visit a.length c ⟨a ++ b, size⟩ = some (a.foldl visit c, ⟨b ++ a, size⟩) := by
  induction a generalizing b c with
  | nil => simp [turn]
  | cons x a ih =>
    have hl : (remove ⟨x :: a ++ b, size⟩).2.append x = ⟨a ++ (b ++ [x]), size⟩ := by
      simp only [remove, SizedList.append, BitVec.sub_add_cancel, List.cons_append, List.tail_cons, List.append_assoc]
    change turn visit a.length (visit c x) ((remove ⟨x :: a ++ b, size⟩).2.append x) = _
    rw [hl, ih]
    simp

theorem Exact.turn (h : l.Exact) (visit : β → α → β) (c : β) :
    SizedList.turn visit l.size.toInt.toNat c l = some (l.items.foldl visit c, l) := by
  have ht := turn_append visit l.items [] c l.size
  rw [List.append_nil, List.nil_append] at ht
  rw [h, Int.toNat_natCast]
  exact ht

theorem sweep_done {drop : α → Prop} [DecidablePred drop] {i : Nat} (h : l.Exact) (hi : l.items.length ≤ i) :
    l.sweep drop i = some l := by
  unfold Exact at h
  rw [sweep, if_neg (by omega)]

theorem sweep_round {drop : α → Prop} [DecidablePred drop] {i : Nat} (h : l.Exact) (hi : i < l.items.length)
    (hx : l.items = x :: rest) :
    l.sweep drop i = (if drop x then l.remove.2 else l.remove.2.append x).sweep drop (i + 1) := by
  unfold Exact at h
  have hr : l.remove.1 = some x := by
    change l.items.head? = _
    rw [hx]
    rfl
  rw [sweep, if_pos (by omega), hr]

end

end SizedList

end Nachos
