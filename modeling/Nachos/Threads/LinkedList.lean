import Nachos.Lib.Chain
import Nachos.Lib.Heap
import Nachos.Lib.Run
import Nachos.Lib.SizedList
import Nachos.Lib.SortedList

namespace Nachos

structure ListElement (P ι : Type) where
  next : Option P
  key : Int
  item : Option ι
  deriving DecidableEq, Repr

/-- The list object, with the memory its elements lie in. -/
structure LinkedList (P ι : Type) where
  cells : P → Option (ListElement P ι)
  first : Option P
  last : Option P
  size : BitVec 32

namespace LinkedList

variable {P ι : Type}

def new (cells : P → Option (ListElement P ι)) : LinkedList P ι := ⟨cells, none, none, 0⟩

def isEmpty (s : LinkedList P ι) : Prop := s.first = none

instance (s : LinkedList P ι) : Decidable s.isEmpty := decidable_of_iff (s.first.isNone = true) Option.isNone_iff_eq_none

def getSize (s : LinkedList P ι) : Int := s.size.toInt

def load (s : LinkedList P ι) (p : Option P) : Except Fault (ListElement P ι) :=
  match p.bind s.cells with
  | some c => .ok c
  | none => .error .outOfBounds

section Operations

variable [DecidableEq P]

def store (s : LinkedList P ι) (p : Option P) (c : Option (ListElement P ι)) : Except Fault (LinkedList P ι) :=
  match p with
  | some a => .ok { s with cells := Function.update s.cells a c }
  | none => .error .outOfBounds

def setNext (s : LinkedList P ι) (p q : Option P) : Except Fault (LinkedList P ι) := do
  let c ← s.load p
  s.store p (some { c with next := q })

def newElement (s : LinkedList P ι) (element : P) (item : Option ι) (sortKey : Int) : LinkedList P ι :=
  { s with cells := Function.update s.cells element (some ⟨none, sortKey, item⟩) }

def delete (s : LinkedList P ι) (p : Option P) : Except Fault (LinkedList P ι) := do
  let _ ← s.load p
  s.store p none

def putLast (s : LinkedList P ι) (element : P) : Except Fault (LinkedList P ι) := do
  let s ← s.setNext s.last (some element)
  .ok { s with last := some element }

def putFirst (s : LinkedList P ι) (element : P) : Except Fault (LinkedList P ι) := do
  let s ← s.setNext (some element) s.first
  .ok { s with first := some element }

def append (s : LinkedList P ι) (element : P) (item : Option ι) : Except Fault (LinkedList P ι) :=
  let s := { s.newElement element item 0 with size := s.size + 1 }
  if s.isEmpty then .ok { s with first := some element, last := some element } else s.putLast element

def prepend (s : LinkedList P ι) (element : P) (item : Option ι) : Except Fault (LinkedList P ι) :=
  let s := { s.newElement element item 0 with size := s.size + 1 }
  if s.isEmpty then .ok { s with first := some element, last := some element } else s.putFirst element

def insertLoop (s : LinkedList P ι) (element : P) (sortKey : Int) :
    Nat → Option P → Except Fault (Option (LinkedList P ι))
  -- the loop of `SortedInsert` and what follows it; without a result it is still running
  | 0, _ => .ok none
  | fuel + 1, ptr => do
    let c ← s.load ptr
    if c.next = none then
      let s ← s.putLast element
      .ok (some s)
    else
      let d ← s.load c.next
      if sortKey < d.key then
        let s ← s.setNext (some element) c.next
        let s ← s.setNext ptr (some element)
        .ok (some s)
      else insertLoop s element sortKey fuel c.next

def sortedInsert (s : LinkedList P ι) (fuel : Nat) (element : P) (item : Option ι) (sortKey : Int) :
    Except Fault (Option (LinkedList P ι)) := do
  let s := s.newElement element item sortKey
  if s.isEmpty then .ok (some { s with first := some element, last := some element })
  else
    let c ← s.load s.first
    if sortKey < c.key then
      let s ← s.putFirst element
      .ok (some s)
    else s.insertLoop element sortKey fuel s.first

def sortedRemove (s : LinkedList P ι) (keyPtr : Bool) : Except Fault ((Option ι × Option Int) × LinkedList P ι) :=
  -- `keyPtr` says whether the caller wants the key
  let element := s.first
  if s.isEmpty then .ok ((none, none), s)
  else do
    let c ← s.load element
    let s := if s.first = s.last then { s with first := none, last := none } else { s with first := c.next }
    let s ← s.delete element
    .ok ((c.item, if keyPtr then some c.key else none), s)

def remove (s : LinkedList P ι) : Except Fault ((Option ι × Option Int) × LinkedList P ι) :=
  { s with size := s.size - 1 }.sortedRemove false

end Operations

structure Entry (ι : Type) where
  key : Int
  item : Option ι
  deriving DecidableEq, Repr

def entry (x : P × ListElement P ι) : Entry ι := ⟨x.2.key, x.2.item⟩

structure Holds (s : LinkedList P ι) (l : List (P × ListElement P ι)) : Prop where
  chain : Chain ListElement.next s.cells s.first l none
  distinct : (l.map Prod.fst).Nodup
  last : s.last = l.getLast?.map Prod.fst

section Spec

variable {s : LinkedList P ι} {l m : List (P × ListElement P ι)} {a b : P} {c e : ListElement P ι} {q : Option P}
  {key : Int} {item : Option ι}

theorem load_some (h : s.cells a = some c) : s.load (some a) = .ok c := by
  rw [load, Option.bind_some, h]

theorem Holds.isEmpty_iff (h : s.Holds l) : s.isEmpty ↔ l = [] := by
  have hc := h.chain
  cases l with
  | nil => exact iff_of_true hc rfl
  | cons x l => simp [isEmpty, hc.1]

theorem Holds.resize (h : s.Holds l) (size : BitVec 32) : Holds { s with size } l := ⟨h.chain, h.distinct, h.last⟩

theorem holds_only (ha : s.cells a = some ⟨none, key, item⟩) :
    Holds { s with first := some a, last := some a } [(a, ⟨none, key, item⟩)] :=
  ⟨⟨rfl, ha, rfl⟩, List.nodup_singleton a, rfl⟩

variable [DecidableEq P]

theorem setNext_some (h : s.cells a = some c) :
    s.setNext (some a) q = .ok { s with cells := Function.update s.cells a (some { c with next := q }) } := by
  rw [setNext, load_some h]
  rfl

theorem delete_some (h : s.cells a = some c) :
    s.delete (some a) = .ok { s with cells := Function.update s.cells a none } := by
  rw [delete, load_some h]
  rfl

theorem putFirst_some (h : s.cells a = some c) :
    s.putFirst a =
      .ok { s with cells := Function.update s.cells a (some { c with next := s.first }), first := some a } := by
  rw [putFirst, setNext_some h]
  rfl

theorem putLast_some (hlast : s.last = some b) (h : s.cells b = some c) :
    s.putLast a =
      .ok { s with cells := Function.update s.cells b (some { c with next := some a }), last := some a } := by
  rw [putLast, hlast, setNext_some h]
  rfl

theorem Holds.update (h : s.Holds l) (ha : a ∉ l.map Prod.fst) (v : Option (ListElement P ι)) :
    Holds { s with cells := Function.update s.cells a v } l :=
  ⟨h.chain.update ha v, h.distinct, h.last⟩

theorem Holds.putFirst (h : s.Holds l) (hl : l ≠ []) (hc : s.cells a = some c) (ha : a ∉ l.map Prod.fst) :
    s.putFirst a =
        .ok { s with cells := Function.update s.cells a (some { c with next := s.first }), first := some a } ∧
      Holds { s with cells := Function.update s.cells a (some { c with next := s.first }), first := some a }
        ((a, { c with next := s.first }) :: l) := by
  refine ⟨putFirst_some hc, ⟨rfl, Function.update_self .., h.chain.update ha _⟩,
    List.nodup_cons.mpr ⟨ha, h.distinct⟩, ?_⟩
  rw [List.getLast?_cons_of_ne_nil hl]
  exact h.last

theorem Holds.redirect (h : s.Holds (l ++ (b, c) :: m)) (he : s.cells a = some e)
    (ha : a ∉ (l ++ (b, c) :: m).map Prod.fst) (hnext : e.next = c.next) {last : Option P}
    (hlast : last = ((a, e) :: m).getLast?.map Prod.fst) :
    Holds { s with cells := Function.update s.cells b (some { c with next := some a }), last }
      (l ++ (b, { c with next := some a }) :: (a, e) :: m) := by
  have hd := h.distinct
  refine ⟨h.chain.insertAfter hd ha he rfl hnext, ?_, ?_⟩
  · simp only [List.map_append, List.map_cons] at hd ha ⊢
    rw [List.append_cons, List.nodup_middle]
    exact List.nodup_cons.mpr ⟨by simpa using ha, by simpa using hd⟩
  · simp [hlast, List.getLast?_cons]

theorem Holds.putLast (h : s.Holds (l ++ [(b, c)])) (he : s.cells a = some ⟨none, key, item⟩)
    (ha : a ∉ (l ++ [(b, c)]).map Prod.fst) :
    s.putLast a = .ok { s with cells := Function.update s.cells b (some { c with next := some a }), last := some a } ∧
      Holds { s with cells := Function.update s.cells b (some { c with next := some a }), last := some a }
        (l ++ [(b, { c with next := some a }), (a, ⟨none, key, item⟩)]) :=
  ⟨putLast_some (by simp [h.last]) (h.chain.mem_eq (b, c) (by simp)), h.redirect he ha h.chain.next_eq.symm rfl⟩

theorem Holds.putBetween {d : P} {f : ListElement P ι} (h : s.Holds (l ++ (b, c) :: (d, f) :: m))
    (he : s.cells a = some ⟨none, key, item⟩) (ha : a ∉ (l ++ (b, c) :: (d, f) :: m).map Prod.fst) :
    ∃ s' t, s.setNext (some a) (some d) = .ok s' ∧ s'.setNext (some b) (some a) = .ok t ∧ t.size = s.size ∧
      t.Holds (l ++ (b, { c with next := some a }) :: (a, ⟨some d, key, item⟩) :: (d, f) :: m) := by
  have hnext : c.next = some d := h.chain.next_eq
  have hs := h.update ha (some ⟨some d, key, item⟩)
  have hb : Function.update s.cells a (some ⟨some d, key, item⟩) b = some c := hs.chain.mem_eq (b, c) (by simp)
  have hlast : s.last = ((a, ⟨some d, key, item⟩) :: (d, f) :: m).getLast?.map Prod.fst := by
    simp [h.last, List.getLast?_cons]
  exact ⟨_, _, setNext_some he, setNext_some hb, rfl, hs.redirect (Function.update_self ..) ha hnext.symm hlast⟩

end Spec

inductive Op (ι : Type) where
  | append (item : Option ι)
  | prepend (item : Option ι)
  | remove
  | sortedInsert (item : Option ι) (sortKey : Int)
  | sortedRemove (keyPtr : Bool)

def exec [DecidableEq P] (fuel : Nat) (element : P) (s : LinkedList P ι) :
    Op ι → Except Fault (Option ((Option ι × Option Int) × LinkedList P ι))
  | .append item => do
    let s ← s.append element item
    .ok (some ((none, none), s))
  | .prepend item => do
    let s ← s.prepend element item
    .ok (some ((none, none), s))
  | .remove => do
    let r ← s.remove
    .ok (some r)
  | .sortedInsert item sortKey => do
    let r ← s.sortedInsert fuel element item sortKey
    .ok (r.map fun s => ((none, none), s))
  | .sortedRemove keyPtr => do
    let r ← s.sortedRemove keyPtr
    .ok (some r)

namespace Op

def result : Op ι → List (Entry ι) → Option ι × Option Int
  | .remove, l => (l.head?.bind Entry.item, none)
  | .sortedRemove keyPtr, l => (l.head?.bind Entry.item, if keyPtr then l.head?.map Entry.key else none)
  | _, _ => (none, none)

def apply : Op ι → List (Entry ι) → List (Entry ι)
  | .append item, l => l ++ [⟨0, item⟩]
  | .prepend item, l => ⟨0, item⟩ :: l
  | .sortedInsert item sortKey, l => Nachos.sortedInsert Entry.key ⟨sortKey, item⟩ l
  | .remove, l | .sortedRemove _, l => l.tail

def count : Op ι → BitVec 32 → BitVec 32
  | .append _, size | .prepend _, size => size + 1
  | .remove, size => size - 1
  | .sortedInsert _ _, size | .sortedRemove _, size => size

end Op

section Refines

variable [DecidableEq P] {s t : LinkedList P ι} {l m : List (P × ListElement P ι)} {a b : P} {c : ListElement P ι}
  {key : Int} {item : Option ι}

theorem Holds.append (h : s.Holds l) (ha : s.cells a = none) (item : Option ι) :
    ∃ t, s.append a item = .ok t ∧ t.size = s.size + 1 ∧ ∃ m, t.Holds m ∧ m.map entry = l.map entry ++ [⟨0, item⟩] := by
  have hm := h.chain.not_mem_of_free ha
  have hs := (h.update hm (some ⟨none, 0, item⟩)).resize (s.size + 1)
  have he : Function.update s.cells a (some ⟨none, 0, item⟩) a = _ := Function.update_self ..
  rw [LinkedList.append]
  obtain rfl | ⟨l, x, rfl⟩ := List.eq_nil_or_concat' l
  · refine ⟨_, if_pos (hs.isEmpty_iff.mpr rfl), rfl, _, holds_only he, rfl⟩
  · obtain ⟨ht, hh⟩ := hs.putLast he hm
    refine ⟨_, (if_neg (mt hs.isEmpty_iff.mp (by simp))).trans ht, rfl, _, hh, ?_⟩
    simp [entry]

theorem Holds.prepend (h : s.Holds l) (ha : s.cells a = none) (item : Option ι) :
    ∃ t, s.prepend a item = .ok t ∧ t.size = s.size + 1 ∧ ∃ m, t.Holds m ∧ m.map entry = ⟨0, item⟩ :: l.map entry := by
  have hm := h.chain.not_mem_of_free ha
  have hs := (h.update hm (some ⟨none, 0, item⟩)).resize (s.size + 1)
  have he : Function.update s.cells a (some ⟨none, 0, item⟩) a = _ := Function.update_self ..
  rw [LinkedList.prepend]
  by_cases hl : l = []
  · subst hl
    refine ⟨_, if_pos (hs.isEmpty_iff.mpr rfl), rfl, _, holds_only he, rfl⟩
  · obtain ⟨ht, hh⟩ := hs.putFirst hl he hm
    refine ⟨_, (if_neg (mt hs.isEmpty_iff.mp hl)).trans ht, rfl, _, hh, ?_⟩
    simp [entry]

theorem Holds.insertLoop (h : s.Holds (l ++ (b, c) :: m)) (he : s.cells a = some ⟨none, key, item⟩)
    (ha : a ∉ (l ++ (b, c) :: m).map Prod.fst) :
    ∃ n t, n ≤ m.length + 1 ∧
      (∀ fuel, s.insertLoop a key fuel (some b) = .ok (if n ≤ fuel then some t else none)) ∧ t.size = s.size ∧
      ∃ k, t.Holds k ∧ k.map entry =
        l.map entry ++ entry (b, c) :: Nachos.sortedInsert Entry.key ⟨key, item⟩ (m.map entry) := by
  induction m generalizing l b c with
  | nil =>
    have hb : s.cells b = some c := h.chain.mem_eq (b, c) (by simp)
    have hnext : c.next = none := h.chain.next_eq
    obtain ⟨ht, hh⟩ := h.putLast he ha
    refine ⟨1, _, le_refl _, fun fuel => ?_, ?_, _, hh, by simp [entry, Nachos.sortedInsert]⟩
    · cases fuel with
      | zero => rfl
      | succ fuel =>
        rw [LinkedList.insertLoop, load_some hb, ok_bind, if_pos hnext, ht]
        simp
    · rfl
  | cons x m ih =>
    obtain ⟨d, e⟩ := x
    have hb : s.cells b = some c := h.chain.mem_eq (b, c) (by simp)
    have hd : s.cells d = some e := h.chain.mem_eq (d, e) (by simp)
    have hnext : c.next = some d := h.chain.next_eq
    have hloop (fuel : Nat) : s.insertLoop a key (fuel + 1) (some b) = if key < e.key then (do
        let s ← s.setNext (some a) (some d)
        let s ← s.setNext (some b) (some a)
        .ok (some s)) else s.insertLoop a key fuel (some d) := by
      rw [LinkedList.insertLoop, load_some hb, ok_bind, hnext, if_neg (by simp), load_some hd, ok_bind]
    by_cases hkey : key < e.key
    · obtain ⟨s', t, hs, ht, hsize, hh⟩ := h.putBetween he ha
      refine ⟨1, t, by simp, fun fuel => ?_, hsize, _, hh, ?_⟩
      · cases fuel with
        | zero => rfl
        | succ fuel =>
          rw [hloop, if_pos hkey, hs, ok_bind, ht]
          simp
      · simp [entry, Nachos.sortedInsert, hkey]
    · obtain ⟨n, t, hn, hrun, hsize, k, hk, hmap⟩ := ih (l := l ++ [(b, c)]) (b := d) (c := e) (by simpa using h)
        (by simpa using ha)
      refine ⟨n + 1, t, by simpa using hn, fun fuel => ?_, hsize, k, hk, ?_⟩
      · cases fuel with
        | zero => rfl
        | succ fuel =>
          rw [hloop, if_neg hkey, hrun]
          simp only [Nat.add_le_add_iff_right]
      · rw [hmap]
        simp [entry, Nachos.sortedInsert, hkey]

theorem Holds.sortedInsert (h : s.Holds l) (ha : s.cells a = none) (item : Option ι) (key : Int) :
    ∃ n t, n ≤ l.length ∧
      (∀ fuel, s.sortedInsert fuel a item key = .ok (if n ≤ fuel then some t else none)) ∧ t.size = s.size ∧
      ∃ k, t.Holds k ∧ k.map entry = Nachos.sortedInsert Entry.key ⟨key, item⟩ (l.map entry) := by
  have hm := h.chain.not_mem_of_free ha
  have hs : (s.newElement a item key).Holds l := h.update hm _
  have he : (s.newElement a item key).cells a = some ⟨none, key, item⟩ := Function.update_self ..
  cases l with
  | nil =>
    refine ⟨0, _, le_refl _, fun fuel => ?_, ?_, _, holds_only he, rfl⟩
    · rw [LinkedList.sortedInsert, if_pos (hs.isEmpty_iff.mpr rfl), if_pos (Nat.zero_le _)]
    · rfl
  | cons x l =>
    obtain ⟨b, c⟩ := x
    have hb : (s.newElement a item key).load (s.newElement a item key).first = .ok c := by
      rw [hs.chain.1]
      exact load_some hs.chain.2.1
    have hrun (fuel : Nat) : s.sortedInsert fuel a item key = if key < c.key then (do
        let t ← (s.newElement a item key).putFirst a
        .ok (some t)) else (s.newElement a item key).insertLoop a key fuel (some b) := by
      rw [LinkedList.sortedInsert, if_neg (mt hs.isEmpty_iff.mp (by simp)), hb, hs.chain.1]
      rfl
    by_cases hkey : key < c.key
    · obtain ⟨ht, hh⟩ := hs.putFirst (by simp) he hm
      refine ⟨0, _, Nat.zero_le _, fun fuel => ?_, ?_, _, hh, ?_⟩
      · rw [hrun, if_pos hkey, ht, if_pos (Nat.zero_le _)]
        rfl
      · rfl
      · simp [entry, Nachos.sortedInsert, hkey]
    · obtain ⟨n, t, hn, hloop, hsize, k, hk, hmap⟩ := Holds.insertLoop (l := []) hs he hm
      refine ⟨n, t, hn, fun fuel => ?_, hsize, k, hk, ?_⟩
      · rw [hrun, if_neg hkey]
        exact hloop fuel
      · rw [hmap]
        simp [entry, Nachos.sortedInsert, hkey]

theorem Holds.sortedRemove (h : s.Holds l) (keyPtr : Bool) :
    ∃ t, s.sortedRemove keyPtr = .ok (Op.result (.sortedRemove keyPtr) (l.map entry), t) ∧ t.size = s.size ∧
      t.Holds l.tail := by
  rw [LinkedList.sortedRemove]
  cases l with
  | nil => exact ⟨s, by rw [if_pos (h.isEmpty_iff.mpr rfl)]; simp [Op.result], rfl, h⟩
  | cons x l =>
    obtain ⟨b, c⟩ := x
    obtain ⟨hfirst, hb, hl⟩ := h.chain
    obtain ⟨hm, hd⟩ := List.nodup_cons.mp h.distinct
    have hlast := h.last
    rw [if_neg (mt h.isEmpty_iff.mp (by simp)), hfirst, load_some hb, ok_bind]
    cases l with
    | nil =>
      refine ⟨{ s with cells := Function.update s.cells b none, first := none, last := none }, ?_, rfl, rfl, hd, rfl⟩
      have hone : some b = s.last := hlast.symm
      rw [if_pos hone]
      dsimp only
      rw [delete_some (s := { s with first := none, last := none }) hb]
      simp [Op.result, entry]
    | cons y l =>
      rw [List.getLast?_cons_of_ne_nil (by simp)] at hlast
      have hne : some b ≠ s.last := by
        intro he
        obtain ⟨z, hz, hzb⟩ := Option.map_eq_some_iff.mp (hlast.symm.trans he.symm)
        exact hm (List.mem_map.mpr ⟨z, List.mem_of_getLast? hz, hzb⟩)
      refine ⟨{ s with cells := Function.update s.cells b none, first := c.next }, ?_, rfl, hl.update hm none, hd, hlast⟩
      rw [if_neg hne]
      dsimp only
      rw [delete_some (s := { s with first := c.next }) hb]
      simp [Op.result, entry]

theorem Holds.exec (h : s.Holds l) (ha : s.cells a = none) (op : Op ι) :
    ∃ n t, (∀ fuel, s.exec fuel a op = .ok (if n ≤ fuel then some (op.result (l.map entry), t) else none)) ∧
      t.size = op.count s.size ∧ ∃ k, t.Holds k ∧ k.map entry = op.apply (l.map entry) := by
  cases op with
  | append item =>
    obtain ⟨t, ht, hsize, k, hk, hmap⟩ := h.append ha item
    exact ⟨0, t, fun fuel => by rw [LinkedList.exec, ht]; rfl, hsize, k, hk, hmap⟩
  | prepend item =>
    obtain ⟨t, ht, hsize, k, hk, hmap⟩ := h.prepend ha item
    exact ⟨0, t, fun fuel => by rw [LinkedList.exec, ht]; rfl, hsize, k, hk, hmap⟩
  | remove =>
    obtain ⟨t, ht, hsize, hk⟩ := (h.resize (s.size - 1)).sortedRemove false
    exact ⟨0, t, fun fuel => by rw [LinkedList.exec, LinkedList.remove, ht]; rfl, hsize, _, hk, List.map_tail ..⟩
  | sortedInsert item sortKey =>
    obtain ⟨n, t, -, hrun, hsize, k, hk, hmap⟩ := h.sortedInsert ha item sortKey
    refine ⟨n, t, fun fuel => ?_, hsize, k, hk, hmap⟩
    rw [LinkedList.exec, hrun, ok_bind]
    split_ifs <;> rfl
  | sortedRemove keyPtr =>
    obtain ⟨t, ht, hsize, hk⟩ := h.sortedRemove keyPtr
    exact ⟨0, t, fun fuel => by rw [LinkedList.exec, ht]; rfl, hsize, _, hk, List.map_tail ..⟩

end Refines

/-- The list beside the sequence it stands for, what was ever put on it and what has left it, in order. -/
structure State (P ι : Type) where
  list : LinkedList P ι
  items : List (Entry ι)
  inserted : List (Entry ι)
  left : List (Entry ι)

namespace Op

def inserted : Op ι → List (Entry ι)
  | .append item | .prepend item => [⟨0, item⟩]
  | .sortedInsert item sortKey => [⟨sortKey, item⟩]
  | .remove | .sortedRemove _ => []

def left : Op ι → List (Entry ι) → List (Entry ι)
  | .remove, l | .sortedRemove _, l => l.take 1
  | _, _ => []

def Sorted : Op ι → Prop
  | .sortedInsert _ _ | .sortedRemove _ => True
  | _ => False

def Counted (n : Nat) : Op ι → Prop
  | .append _ | .prepend _ => n < CInt.intMax
  | .remove => 0 < n
  | .sortedInsert _ _ => False
  | .sortedRemove _ => n = 0

end Op

def State.Initial (s : State P ι) : Prop := ∃ cells, s = ⟨new cells, [], [], []⟩

section Runs

variable [DecidableEq P]

def State.Step (s : State P ι) (op : Op ι) (t : State P ι) : Prop :=
  ∃ fuel element returned list, s.list.cells element = none ∧
    s.list.exec fuel element op = .ok (some (returned, list)) ∧
    t = ⟨list, op.apply s.items, s.inserted ++ op.inserted, s.left ++ op.left s.items⟩

def State.SortedStep (s : State P ι) (op : Op ι) (t : State P ι) : Prop := op.Sorted ∧ s.Step op t

def State.CountedStep (s : State P ι) (op : Op ι) (t : State P ι) : Prop := op.Counted s.items.length ∧ s.Step op t

def State.Refines (s : State P ι) : Prop := ∃ l, s.list.Holds l ∧ l.map entry = s.items

variable {s t : State P ι} {op : Op ι}

theorem State.Refines.exec (h : s.Refines) {a : P} (ha : s.list.cells a = none) (op : Op ι) :
    ∃ n t, (∀ fuel, s.list.exec fuel a op = .ok (if n ≤ fuel then some (op.result s.items, t) else none)) ∧
      t.size = op.count s.list.size ∧ ∃ k, t.Holds k ∧ k.map entry = op.apply s.items := by
  obtain ⟨l, hl, hitems⟩ := h
  rw [← hitems]
  exact hl.exec ha op

theorem State.Refines.step (h : s.Refines) (hs : s.Step op t) : t.Refines ∧ t.list.size = op.count s.list.size := by
  obtain ⟨fuel, element, returned, list, ha, hrun, rfl⟩ := hs
  obtain ⟨n, t, ht, hsize, hk⟩ := h.exec ha op
  rw [ht] at hrun
  split_ifs at hrun
  · obtain ⟨-, rfl⟩ := Prod.mk.inj (Option.some.inj (Except.ok.inj hrun))
    exact ⟨hk, hsize⟩
  · cases hrun

theorem State.refines (h : Reachable State.Initial State.Step s) : s.Refines := by
  refine Reachable.invariant (fun _ h0 => ?_) (fun _ _ _ hi hs => (hi.step hs).1) h
  obtain ⟨cells, rfl⟩ := h0
  exact ⟨[], ⟨rfl, List.nodup_nil, rfl⟩, rfl⟩

structure State.Stable (s : State P ι) : Prop where
  sorted : SortedBy Entry.key s.items
  order : ∀ key, (s.left ++ s.items).filter (fun x => x.key = key) = s.inserted.filter (fun x => x.key = key)

theorem State.Stable.step (h : s.Stable) (hs : s.SortedStep op t) : t.Stable := by
  obtain ⟨hop, fuel, element, returned, list, -, -, rfl⟩ := hs
  cases op with
  | sortedInsert item sortKey =>
    refine ⟨h.sorted.sortedInsert _, fun key => ?_⟩
    have ho := h.order key
    rw [List.filter_append] at ho
    simp only [Op.apply, Op.left, Op.inserted, List.append_nil, List.filter_append, filter_sortedInsert h.sorted]
    rw [← List.append_assoc, ho]
  | sortedRemove keyPtr =>
    refine ⟨List.Pairwise.tail h.sorted, fun key => ?_⟩
    simp only [Op.apply, Op.left, Op.inserted, List.append_nil]
    rw [← h.order, List.append_assoc, ← List.drop_one, List.take_append_drop]
  | append item | prepend item | remove => exact hop.elim

theorem State.stable (h : Reachable State.Initial State.SortedStep s) : s.Stable := by
  refine Reachable.invariant (fun _ h0 => ?_) (fun _ _ _ hi hs => hi.step hs) h
  obtain ⟨cells, rfl⟩ := h0
  exact ⟨List.Pairwise.nil, fun _ => rfl⟩

/-- The list is the sequence its operations make, and a stable queue under the sorted ones. -/
theorem list_is_sequence {P ι : Type} [DecidableEq P] :
    (∀ s : State P ι, Reachable State.Initial State.Step s → (∃ l, s.list.Holds l ∧ l.map entry = s.items) ∧
      ∀ (op : Op ι) (element : P), s.list.cells element = none → ∃ n t, ∀ fuel, n ≤ fuel →
        s.list.exec fuel element op = .ok (some (op.result s.items, t))) ∧
      ∀ s : State P ι, Reachable State.Initial State.SortedStep s → SortedBy Entry.key s.items ∧
        ∀ key, (s.left ++ s.items).filter (fun x => x.key = key) = s.inserted.filter (fun x => x.key = key) := by
  refine ⟨fun s h => ⟨State.refines h, fun op element ha => ?_⟩,
    fun s h => ⟨(State.stable h).sorted, (State.stable h).order⟩⟩
  obtain ⟨n, t, ht, -⟩ := (State.refines h).exec ha op
  refine ⟨n, t, fun fuel hn => ?_⟩
  rw [ht, if_pos hn]

theorem list_is_sequence_equal_keys : ∃ s : State Nat Nat, s.inserted = [⟨5, some 1⟩, ⟨5, some 2⟩] ∧
    s.left = [⟨5, some 1⟩] ∧ (s.left ++ s.items).filter (fun x => x.key = 5) = s.inserted.filter (fun x => x.key = 5) := by
  have h0 : Reachable State.Initial State.SortedStep (⟨new (fun _ => none), [], [], []⟩ : State Nat Nat) :=
    .start ⟨_, rfl⟩
  have h1 := Reachable.next (Op.sortedInsert (some 1) 5) h0 ⟨trivial, 0, 100, _, _, rfl, rfl, rfl⟩
  have h2 := Reachable.next (Op.sortedInsert (some 2) 5) h1 ⟨trivial, 1, 200, _, _, rfl, rfl, rfl⟩
  have h3 := Reachable.next (Op.sortedRemove true) h2 ⟨trivial, 0, 300, _, _, rfl, rfl, rfl⟩
  exact ⟨_, rfl, rfl, (list_is_sequence.2 _ h3).2 5⟩

theorem State.Step.length (hs : s.Step op t) :
    t.items.length + (op.left s.items).length = s.items.length + op.inserted.length := by
  obtain ⟨fuel, element, returned, list, -, -, rfl⟩ := hs
  cases op with
  | append item | prepend item => simp [Op.apply, Op.left, Op.inserted]
  | sortedInsert item sortKey =>
    simp [Op.apply, Op.left, Op.inserted, (sortedInsert_perm Entry.key _ s.items).length_eq]
  | remove | sortedRemove keyPtr =>
    simp only [Op.apply, Op.left, Op.inserted, List.length_tail, List.length_take, List.length_nil]
    omega

def State.Exact (s : State P ι) : Prop := s.list.getSize = s.items.length

theorem toInt_add_one_iff {w : BitVec 32} : (w + 1).toInt = w.toInt + 1 ↔ w.toInt < CInt.intMax := by
  constructor
  · intro h
    have hw := CInt.toInt_range (w + 1)
    omega
  · exact SizedList.toInt_add_one

theorem State.Exact.step_iff (h : s.Exact) (hr : s.Refines) (hs : s.Step op t) :
    t.Exact ↔ op.Counted s.items.length := by
  have hsize := (hr.step hs).2
  have hlen := hs.length
  unfold State.Exact LinkedList.getSize at h ⊢
  rw [hsize]
  cases op with
  | append item | prepend item =>
    simp only [Op.left, Op.inserted, List.length_nil, List.length_singleton] at hlen
    simp only [Op.count, Op.Counted, ← h, ← toInt_add_one_iff]
    omega
  | remove =>
    simp only [Op.left, Op.inserted, List.length_nil, List.length_take] at hlen
    simp only [Op.count, Op.Counted]
    by_cases hpos : 0 < s.items.length
    · rw [SizedList.toInt_sub_one (by omega)]
      omega
    · rw [Nat.eq_zero_of_not_pos hpos] at h
      have hzero : s.list.size = 0 := BitVec.eq_of_toInt_eq h
      rw [hzero]
      refine iff_of_false (fun he => ?_) hpos
      have hneg : ((0 : BitVec 32) - 1).toInt = -1 := by decide
      omega
  | sortedInsert item sortKey =>
    simp only [Op.left, Op.inserted, List.length_nil, List.length_singleton] at hlen
    simp only [Op.count, Op.Counted, iff_false]
    omega
  | sortedRemove keyPtr =>
    simp only [Op.left, Op.inserted, List.length_nil, List.length_take] at hlen
    simp only [Op.count, Op.Counted]
    omega

theorem State.exact (h : Reachable State.Initial State.CountedStep s) : s.Refines ∧ s.Exact := by
  refine Reachable.invariant (I := fun s => s.Refines ∧ s.Exact) (fun _ h0 => ?_) (fun s op t hi hs => ?_) h
  · obtain ⟨cells, rfl⟩ := h0
    exact ⟨State.refines (.start ⟨cells, rfl⟩), rfl⟩
  · exact ⟨(hi.1.step hs.2).1, (hi.2.step_iff hi.1 hs.2).mpr hs.1⟩

/-- The counter is exact as long as each operation meets its condition, and wrong after the first that does not. -/
theorem getSize_exact {P ι : Type} [DecidableEq P] (s : State P ι) (h : Reachable State.Initial State.CountedStep s) :
    (∃ l, s.list.Holds l ∧ l.map entry = s.items) ∧ s.list.getSize = s.items.length ∧
      ∀ op t, s.Step op t → (t.list.getSize = t.items.length ↔ op.Counted s.items.length) := by
  obtain ⟨hr, he⟩ := State.exact h
  exact ⟨hr, he, fun op t hs => he.step_iff hr hs⟩

theorem getSize_exact_append : ∃ s : State Nat Nat, s.items = [⟨0, some 1⟩] ∧ s.list.getSize = 1 := by
  have hc : Op.Counted 0 (.append (some 1) : Op Nat) := by
    simp [Op.Counted, CInt.intMax]
  have h0 : Reachable State.Initial State.CountedStep (⟨new (fun _ => none), [], [], []⟩ : State Nat Nat) :=
    .start ⟨_, rfl⟩
  have h1 := Reachable.next (Op.append (some 1)) h0 ⟨hc, 0, 100, _, _, rfl, rfl, rfl⟩
  exact ⟨_, rfl, (getSize_exact _ h1).2.1⟩

theorem getSize_off_by_one :
    (∃ s : State Nat Nat, Reachable State.Initial State.Step s ∧ s.items = [] ∧ s.list.getSize = -1) ∧
      ∃ s : State Nat Nat, Reachable State.Initial State.Step s ∧ s.items = [⟨5, some 1⟩] ∧ s.list.getSize = 0 := by
  have h0 : Reachable State.Initial State.Step (⟨new (fun _ => none), [], [], []⟩ : State Nat Nat) := .start ⟨_, rfl⟩
  exact ⟨⟨_, .next .remove h0 ⟨0, 100, _, _, rfl, rfl, rfl⟩, rfl, rfl⟩,
    ⟨_, .next (.sortedInsert (some 1) 5) h0 ⟨0, 100, _, _, rfl, rfl, rfl⟩, rfl, rfl⟩⟩

end Runs

end LinkedList

end Nachos
