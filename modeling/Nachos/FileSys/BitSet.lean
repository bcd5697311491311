import Mathlib.Data.List.Find
import Nachos.FileSys.Fetch
import Nachos.Lib.Run

namespace Nachos.BitMap

open Layout

def leastClear (n : Nat) (m : Finset Nat) : Option Nat := (List.range n).find? (fun i => decide (i ∉ m))

def allocate (n : Nat) (m : Finset Nat) : Int × Finset Nat :=
  match leastClear n m with
  | some i => (i, insert i m)
  | none => (-1, m)

structure Stored where
  bits : BitMap
  disk : Disk
  set : Finset Nat
  saved : Option (OpenFile × Finset Nat)

inductive Op where
  | mark (which : Int)
  | clear (which : Int)
  | find
  | writeBack (file : OpenFile)
  | fetchFrom
  | elsewhere

namespace Stored

def Initial (nitems : Nat) (s : Stored) : Prop :=
  (∃ heap, s.bits = new nitems heap) ∧ s.set = ∅ ∧ s.saved = none

inductive Step (s : Stored) : Op → Stored → Prop
  | mark {which : Int} {bits : BitMap} (h : s.bits.mark which = .ok bits) :
      Step s (.mark which) { s with bits, set := insert which.toNat s.set }
  | clear {which : Int} {bits : BitMap} (h : s.bits.clear which = .ok bits) :
      Step s (.clear which) { s with bits, set := s.set.erase which.toNat }
  | find {bits : BitMap} {found : Int} (h : s.bits.find = (found, bits)) :
      Step s .find { s with bits, set := (allocate s.bits.numBits s.set).2 }
  | writeBack {file : OpenFile} {heap : Heap} {disk : Disk} (hv : file.hdr.Valid)
      (hl : (4 * s.bits.numWords : Nat) ≤ file.length) (h : s.bits.writeBack s.disk file heap = .ok disk) :
      Step s (.writeBack file) { s with disk, saved := some (file, s.set) }
  | fetchFrom {file : OpenFile} {m : Finset Nat} {heap : Buffer} {bits : BitMap} (hm : s.saved = some (file, m))
      (h : s.bits.fetchFrom s.disk file heap = .ok bits) : Step s .fetchFrom { s with bits, set := m }
  -- other files are written
  | elsewhere {disk : Disk} (h : ∀ file m, s.saved = some (file, m) →
        ∀ k < 4 * s.bits.numWords, file.hdr.content disk k = file.hdr.content s.disk k) :
      Step s .elsewhere { s with disk }

structure Holds (s : Stored) (file : OpenFile) (m : Finset Nat) : Prop where
  valid : file.hdr.Valid
  fits : (4 * s.bits.numWords : Nat) ≤ file.length
  content : ∃ map, marked ⟨s.bits.numBits, map⟩ = m ∧
    ∀ k < 4 * s.bits.numWords, file.hdr.content s.disk k = Buffer.ofWords map k

structure Inv (nitems : Nat) (s : Stored) : Prop where
  numBits : s.bits.numBits = nitems
  marked : s.bits.marked = s.set
  saved : ∀ file m, s.saved = some (file, m) → s.Holds file m

end Stored

section Sets

variable {b : BitMap} {i : Nat}

theorem div_lt_numWords (h : i < b.numBits) : i / 32 < b.numWords := by
  rw [numWords, divRoundUp_of_nonneg (Int.natCast_nonneg _) (show (0 : Int) < bitsInWord by decide)]
  simp only [bitsInWord]
  omega

theorem numWords_congr {b' : BitMap} (h : b'.numBits = b.numBits) : b'.numWords = b.numWords := by
  rw [numWords, numWords, h]

theorem marked_congr {b' : BitMap} (hn : b'.numBits = b.numBits) (hw : ∀ w < b.numWords, b'.map w = b.map w) :
    b'.marked = b.marked := by
  ext i
  rw [mem_marked, mem_marked, hn]
  refine and_congr_right fun hi => ?_
  rw [Words.test_eq, Words.test_eq, hw _ (div_lt_numWords hi)]

theorem test_eq_mem (h : i < b.numBits) : b.test i = .ok (decide (i ∈ b.marked)) := by
  rw [test_eq h]
  congr 1
  rw [Bool.eq_iff_iff, decide_eq_true_iff, mem_marked]
  exact ⟨fun ht => ⟨h, ht⟩, And.right⟩

theorem leastClear_marked (b : BitMap) :
    leastClear b.numBits b.marked = (List.range b.numBits).find? (fun i => !b.map.test i) := by
  apply List.find?_congr
  intro i hi
  rw [List.mem_range] at hi
  simp [mem_marked, hi]

theorem leastClear_eq_some {n : Nat} {m : Finset Nat} :
    leastClear n m = some i ↔ IsLeast {i | i < n ∧ i ∉ m} i := by
  rw [leastClear, List.find?_range_eq_some]
  constructor
  · rintro ⟨hm, hi, hl⟩
    refine ⟨⟨List.mem_range.mp hi, by simpa using hm⟩, fun j hj => ?_⟩
    by_contra hlt
    exact hj.2 (by simpa using hl j (by omega))
  · rintro ⟨⟨hi, hm⟩, hl⟩
    refine ⟨by simpa using hm, List.mem_range.mpr hi, fun j hj => ?_⟩
    by_contra hne
    have := hl ⟨hj.trans hi, by simpa using hne⟩
    omega

theorem leastClear_eq_none {n : Nat} {m : Finset Nat} : leastClear n m = none ↔ ∀ i < n, i ∈ m := by
  simp [leastClear]

theorem find_refines (b : BitMap) :
    b.find.1 = (allocate b.numBits b.marked).1 ∧ b.find.2.numBits = b.numBits ∧
      b.find.2.marked = (allocate b.numBits b.marked).2 := by
  rw [find, allocate, leastClear_marked]
  cases hf : (List.range b.numBits).find? (fun i => !b.map.test i) with
  | none => exact ⟨rfl, rfl, rfl⟩
  | some i => exact ⟨rfl, rfl, marked_mark (List.mem_range.mp (List.mem_of_find?_eq_some hf))⟩

theorem numClear_eq (b : BitMap) : b.numClear = (Finset.range b.numBits \ b.marked).card := by
  have hsub : b.marked ⊆ Finset.range b.numBits := Finset.filter_subset ..
  have hc := numClear_add_card b
  rw [Finset.card_sdiff_of_subset hsub, Finset.card_range]
  omega

theorem mark_ok {b' : BitMap} {which : Int} (h : b.mark which = .ok b') :
    b'.numBits = b.numBits ∧ b'.marked = insert which.toNat b.marked := by
  obtain ⟨_, ha, h⟩ := bind_eq_ok.mp h
  obtain ⟨h0, hlt⟩ := (assert_ok_iff _).mp ha
  obtain rfl := Except.ok.inj h
  exact ⟨rfl, marked_mark (by omega)⟩

theorem clear_ok {b' : BitMap} {which : Int} (h : b.clear which = .ok b') :
    b'.numBits = b.numBits ∧ b'.marked = b.marked.erase which.toNat := by
  obtain ⟨_, ha, h⟩ := bind_eq_ok.mp h
  obtain rfl := Except.ok.inj h
  exact ⟨rfl, marked_clear⟩

end Sets

namespace Stored

variable {nitems : Nat} {s t : Stored} {op : Op}

theorem Holds.congr {file : OpenFile} {m : Finset Nat} (h : s.Holds file m) (hn : t.bits.numBits = s.bits.numBits)
    (hd : ∀ k < 4 * s.bits.numWords, file.hdr.content t.disk k = file.hdr.content s.disk k) : t.Holds file m := by
  have hw := numWords_congr hn
  obtain ⟨map, hm, hc⟩ := h.content
  refine ⟨h.valid, hw ▸ h.fits, map, hn ▸ hm, fun k hk => ?_⟩
  rw [hw] at hk
  rw [hd k hk, hc k hk]

theorem Inv.bits (h : Inv nitems s) {bits : BitMap} {set : Finset Nat} (hn : bits.numBits = s.bits.numBits)
    (hm : bits.marked = set) : Inv nitems { s with bits, set } :=
  ⟨hn.trans h.numBits, hm, fun file m hs => (h.saved file m hs).congr hn fun _ _ => rfl⟩

theorem Inv.writeBack (h : Inv nitems s) {file : OpenFile} {heap : Heap} {disk : Disk} (hv : file.hdr.Valid)
    (hl : (4 * s.bits.numWords : Nat) ≤ file.length) (hd : s.bits.writeBack s.disk file heap = .ok disk) :
    Inv nitems { s with disk, saved := some (file, s.set) } := by
  refine ⟨h.numBits, h.marked, fun file' m hs => ?_⟩
  obtain ⟨rfl, rfl⟩ := Prod.mk.inj (Option.some.inj hs)
  obtain ⟨d', he, hc, -⟩ := writeBack_ok (d := s.disk) hv s.bits hl heap
  obtain rfl := Except.ok.inj (hd.symm.trans he)
  exact ⟨hv, hl, s.bits.map, h.marked, hc⟩

theorem Holds.fetchFrom {file : OpenFile} {m : Finset Nat} (h : s.Holds file m) {heap : Buffer} {bits : BitMap}
    (hf : s.bits.fetchFrom s.disk file heap = .ok bits) : bits.numBits = s.bits.numBits ∧ bits.marked = m := by
  obtain ⟨map, hm, hc⟩ := h.content
  obtain ⟨b', he, hn, hw⟩ := fetchFrom_ok (d := s.disk) h.valid s.bits h.fits heap
  obtain rfl := Except.ok.inj (hf.symm.trans he)
  refine ⟨hn, (marked_congr (b := ⟨s.bits.numBits, map⟩) hn fun w hlt => ?_).trans hm⟩
  -- the words of the file are the words of the map
  have hlt' : w < s.bits.numWords := hlt
  refine (hw w hlt').trans ?_
  refine (Buffer.wordAt_congr fun k hk => ?_).trans (Buffer.wordAt_ofWords map w)
  exact hc _ (by omega)

theorem Inv.step (h : Inv nitems s) (hs : Step s op t) : Inv nitems t := by
  cases hs with
  | mark hm =>
    obtain ⟨hn, hset⟩ := mark_ok hm
    exact h.bits hn (by rw [hset, h.marked])
  | clear hm =>
    obtain ⟨hn, hset⟩ := clear_ok hm
    exact h.bits hn (by rw [hset, h.marked])
  | find hf =>
    obtain ⟨-, hn, hset⟩ := find_refines s.bits
    rw [hf] at hn hset
    exact h.bits hn (by rw [hset, h.marked])
  | writeBack hv hl hd => exact h.writeBack hv hl hd
  | fetchFrom hm hf =>
    obtain ⟨hn, hset⟩ := (h.saved _ _ hm).fetchFrom hf
    exact h.bits hn hset
  | elsewhere hd => exact ⟨h.numBits, h.marked, fun file m hs => (h.saved file m hs).congr rfl (hd file m hs)⟩

theorem Inv.run (h : Reachable (Initial nitems) Step s) : Inv nitems s := by
  refine Reachable.invariant (fun _ h0 => ?_) (fun _ _ _ hi hs => hi.step hs) h
  obtain ⟨⟨heap, hb⟩, hset, hsaved⟩ := h0
  refine ⟨by rw [hb]; rfl, by rw [hb, hset, marked_new], fun file m hs => ?_⟩
  rw [hsaved] at hs
  cases hs

theorem Inv.test (h : Inv nitems s) {i : Nat} (hi : i < nitems) : s.bits.test i = .ok (decide (i ∈ s.set)) := by
  rw [← h.marked]
  exact test_eq_mem (h.numBits ▸ hi)

theorem Inv.find (h : Inv nitems s) {found : Int} {bits : BitMap} (hf : s.bits.find = (found, bits)) :
    (found = -1 ∧ bits = s.bits ∧ ∀ i < nitems, i ∈ s.set) ∨
      ∃ i : Nat, IsLeast {i | i < nitems ∧ i ∉ s.set} i ∧ found = i ∧
        ∀ j < nitems, bits.test j = .ok (decide (j ∈ insert i s.set)) := by
  cases hl : leastClear nitems s.set with
  | none =>
    rw [BitMap.find, ← leastClear_marked, h.marked, h.numBits, hl] at hf
    obtain ⟨rfl, rfl⟩ := Prod.mk.inj hf
    exact .inl ⟨rfl, rfl, leastClear_eq_none.mp hl⟩
  | some i =>
    obtain ⟨hr, hn, hset⟩ := find_refines s.bits
    rw [hf, allocate, h.marked, h.numBits, hl] at hr hset
    rw [hf, h.numBits] at hn
    refine .inr ⟨i, leastClear_eq_some.mp hl, hr, fun j hj => ?_⟩
    rw [test_eq_mem (hn ▸ hj), hset]

theorem bitmap_refines_set {nitems : Nat} {s : Stored} (h : Reachable (Initial nitems) Step s) :
    (∀ i : Nat, i < nitems → s.bits.test i = .ok (decide (i ∈ s.set))) ∧
      (∀ found bits, s.bits.find = (found, bits) →
        (found = -1 ∧ bits = s.bits ∧ ∀ i < nitems, i ∈ s.set) ∨
          ∃ i : Nat, IsLeast {i | i < nitems ∧ i ∉ s.set} i ∧ found = i ∧
            ∀ j < nitems, bits.test j = .ok (decide (j ∈ insert i s.set))) ∧
      s.bits.numClear = (Finset.range nitems \ s.set).card ∧
      (∀ i : Nat, i < nitems → (∃ bits, s.bits.mark i = .ok bits) ∧ ∃ bits, s.bits.clear i = .ok bits) ∧
      (∀ (file : OpenFile) (heap : Heap), file.hdr.Valid → (4 * s.bits.numWords : Nat) ≤ file.length →
        ∃ disk, s.bits.writeBack s.disk file heap = .ok disk) ∧
      ∀ file m heap, s.saved = some (file, m) → ∃ bits, s.bits.fetchFrom s.disk file heap = .ok bits := by
  have hi := Inv.run h
  refine ⟨fun i => hi.test, fun found bits => hi.find, ?_, fun i hlt => ?_, fun file heap hv hl => ?_,
    fun file m heap hs => ?_⟩
  · rw [numClear_eq, hi.numBits, hi.marked]
  · rw [← hi.numBits] at hlt
    exact ⟨⟨_, mark_eq hlt⟩, ⟨_, clear_eq hlt⟩⟩
  · obtain ⟨disk, hd, -⟩ := writeBack_ok (d := s.disk) hv s.bits hl heap
    exact ⟨disk, hd⟩
  · obtain ⟨hv, hl, -⟩ := hi.saved file m hs
    obtain ⟨bits, hb, -⟩ := fetchFrom_ok (d := s.disk) hv s.bits hl heap
    exact ⟨bits, hb⟩

theorem bitmap_refines_set_two_words : ∃ s, Reachable (Initial 33) Step s ∧ s.set = {31} ∧
    s.bits.test 31 = .ok true ∧ s.bits.test 32 = .ok false ∧ s.bits.numClear = 32 := by
  have h0 : Reachable (Initial 33) Step ⟨new 33 (fun _ => -1), fun _ _ => 0, ∅, none⟩ := .start ⟨⟨_, rfl⟩, rfl, rfl⟩
  obtain ⟨bits, hb⟩ := ((bitmap_refines_set h0).2.2.2.1 31 (by decide)).1
  have h1 := Reachable.next (Op.mark 31) h0 (.mark hb)
  obtain ⟨ht, -, hc, -⟩ := bitmap_refines_set h1
  exact ⟨_, h1, rfl, ht 31 (by decide), ht 32 (by decide), hc⟩

end Stored

end Nachos.BitMap
