import Nachos.FileSys.Bounds
import Mathlib.Algebra.BigOperators.Intervals
import Mathlib.Algebra.Order.BigOperators.Group.Finset
import Mathlib.Data.List.GetD

namespace Nachos.OpenFile

open Disk CInt

variable {d : Disk} {h : FileHeader}

def bytesOf (c : List Byte) : Buffer := fun k => c.getD k 0

theorem bytesOf_append_left {c e : List Byte} {k : Nat} (hk : k < c.length) : bytesOf (c ++ e) k = bytesOf c k :=
  List.getD_append _ _ _ _ hk

theorem bytesOf_append_right {c e : List Byte} {k : Nat} (hk : c.length ≤ k) :
    bytesOf (c ++ e) k = bytesOf e (k - c.length) := List.getD_append_right _ _ _ _ hk

def writeChunks (f : OpenFile) (d : Disk) (heap : Nat → Heap) :
    List (List Byte) → Except Fault (List Int × Disk × OpenFile)
  | [] => .ok ([], d, f)
  | c :: cs => do
    let (n, d, f) ← f.write d (heap cs.length) (bytesOf c) c.length
    let (ns, d, f) ← writeChunks f d heap cs
    .ok (n :: ns, d, f)

/-- `while ((amountRead = openFile->Read(buffer, size)) > 0)`; `none` while the loop is still running. -/
def readLoop (d : Disk) (heap : Nat → Buffer) (sizes : Nat → Int) :
    Nat → Nat → OpenFile → Except Fault (Option (List Byte))
  | 0, _, _ => .ok none
  | fuel + 1, k, f => do
    let (amountRead, data, f) ← f.read d (heap k) (sizes k)
    if amountRead > 0 then do
      let rest ← readLoop d heap sizes fuel (k + 1) f
      .ok (rest.map ((List.range amountRead.toNat).map data ++ ·))
    else .ok (some [])

def fileBytes (h : FileHeader) (d : Disk) (q : Nat) : List Byte :=
  (List.range (h.len - q)).map fun i => h.content d (q + i)

theorem transferred_of_le {q n : Nat} (hq : q ≤ h.len) (hv : h.Valid) :
    transferred h.fileLength n q = (min n (h.len - q) : Nat) := by
  rw [hv.fileLength_eq, transferred]
  split_ifs <;> omega

theorem write_law (d : Disk) (hv : h.Valid) (heap : Heap) (src : Buffer) {q n : Nat} (hq : q ≤ h.len)
    (ho : (q : Int) + n ≤ intMax) :
    ∃ d', (⟨h, q⟩ : OpenFile).write d heap src n =
        .ok ((min n (h.len - q) : Nat), d', ⟨h, (q + min n (h.len - q) : Nat)⟩) ∧
      ∀ i < h.len, h.content d' i = if q ≤ i ∧ i < q + n then src (i - q) else h.content d i := by
  have hl := h.len_le
  obtain ⟨d', he, hc, -⟩ := writeAt_law d hv heap src n q (by omega) ho
  rw [transferred_of_le hq hv] at he hc
  refine ⟨d', ?_, ?_⟩
  · simp only [write, he, ok_bind, seek]
    rw [wrap_of_range (by omega) (by omega), Nat.cast_add]
  · intro i hi
    rw [hc i (by rw [hv.fileLength_eq]; omega)]
    have hiff : (q : Int) ≤ i ∧ (i : Int) < q + (min n (h.len - q) : Nat) ↔ q ≤ i ∧ i < q + n := by omega
    simp only [hiff, Int.toNat_natCast]

theorem read_law (d : Disk) (hv : h.Valid) (heap : Buffer) {q n : Nat} (hq : q ≤ h.len)
    (ho : (q : Int) + n ≤ intMax) :
    ∃ data, (⟨h, q⟩ : OpenFile).read d heap n =
        .ok ((min n (h.len - q) : Nat), data, ⟨h, (q + min n (h.len - q) : Nat)⟩) ∧
      ∀ k < min n (h.len - q), data k = h.content d (q + k) := by
  have hl := h.len_le
  obtain ⟨data, he, hc⟩ := readAt_law d hv heap n q (by omega) ho
  rw [transferred_of_le hq hv] at he hc
  refine ⟨data, ?_, ?_⟩
  · simp only [read, he, ok_bind, seek]
    rw [wrap_of_range (by omega) (by omega), Nat.cast_add]
  · intro k hk
    exact hc k (by exact_mod_cast hk)

theorem writeChunks_law (hv : h.Valid) (heap : Nat → Heap) (cs : List (List Byte)) (d : Disk) {q : Nat}
    (hq : q ≤ h.len) (ho : (q : Int) + cs.flatten.length ≤ intMax) :
    ∃ counts d', writeChunks ⟨h, q⟩ d heap cs =
        .ok (counts, d', ⟨h, (q + min cs.flatten.length (h.len - q) : Nat)⟩) ∧
      counts.sum = (min cs.flatten.length (h.len - q) : Nat) ∧
      ∀ i < h.len, h.content d' i =
        if q ≤ i ∧ i < q + cs.flatten.length then bytesOf cs.flatten (i - q) else h.content d i := by
  induction cs generalizing d q with
  | nil =>
    refine ⟨[], d, by simp [writeChunks], by simp, ?_⟩
    intro i _
    rw [if_neg (by simp)]
  | cons c cs ih =>
    rw [List.flatten_cons, List.length_append] at *
    obtain ⟨d1, hw, hc1⟩ := write_law d hv (heap cs.length) (bytesOf c) (n := c.length) hq (by omega)
    obtain ⟨counts, d2, hws, hsum, hc2⟩ := ih d1 (q := q + min c.length (h.len - q)) (by omega) (by omega)
    have hpos : q + min c.length (h.len - q) + min cs.flatten.length (h.len - (q + min c.length (h.len - q))) =
        q + min (c.length + cs.flatten.length) (h.len - q) := by omega
    rw [hpos] at hws
    refine ⟨(min c.length (h.len - q) : Nat) :: counts, d2, ?_, ?_, ?_⟩
    · simp only [writeChunks, hw, hws, ok_bind]
    · rw [List.sum_cons, hsum]
      omega
    · intro i hi
      rw [hc2 i hi, hc1 i hi]
      by_cases hlate : q + c.length ≤ i
      · have hm : min c.length (h.len - q) = c.length := by omega
        rw [hm, if_neg (show ¬(q ≤ i ∧ i < q + c.length) by omega), bytesOf_append_right (by omega),
          Nat.sub_sub]
        simp only [show q ≤ i by omega, hlate, true_and, Nat.add_assoc]
      · rw [if_neg (by omega)]
        by_cases hqi : q ≤ i
        · rw [if_pos (by omega), if_pos (by omega), bytesOf_append_left (by omega)]
        · rw [if_neg (by omega), if_neg (by omega)]

theorem write_full (hv : h.Valid) (d : Disk) (heap : Heap) (src : Buffer) (n : Int) :
    (⟨h, h.len⟩ : OpenFile).write d heap src n = .ok (0, d, ⟨h, h.len⟩) := by
  have hl := h.len_le
  simp only [write, writeAt, if_pos (show n ≤ 0 ∨ (h.len : Int) ≥ h.fileLength from .inr hv.fileLength_eq.le),
    ok_bind, seek]
  rw [Int.add_zero, wrap_of_range (by omega) hl]

theorem read_end (hv : h.Valid) (d : Disk) (heap : Buffer) (n : Int) :
    (⟨h, h.len⟩ : OpenFile).read d heap n = .ok (0, fun _ => 0, ⟨h, h.len⟩) := by
  have hl := h.len_le
  simp only [read, readAt, if_pos (show n ≤ 0 ∨ (h.len : Int) ≥ h.fileLength from .inr hv.fileLength_eq.le),
    ok_bind, seek]
  rw [Int.add_zero, wrap_of_range (by omega) hl]

theorem fileBytes_split (h : FileHeader) (d : Disk) {q m : Nat} (hm : q + m ≤ h.len) :
    fileBytes h d q = (List.range m).map (fun i => h.content d (q + i)) ++ fileBytes h d (q + m) := by
  have hr : h.len - q = m + (h.len - (q + m)) := by omega
  rw [fileBytes, hr, List.range_add, List.map_append, List.map_map, fileBytes]
  simp only [Function.comp_def, Nat.add_assoc]

section Reads

variable {sizes : Nat → Int}

def readSum (sizes : Nat → Int) (k : Nat) : Int := ∑ j ∈ Finset.range k, sizes j

theorem readSum_succ (sizes : Nat → Int) (k : Nat) : readSum sizes (k + 1) = readSum sizes k + sizes k :=
  Finset.sum_range_succ ..

theorem readSum_mono (hs : ∀ k, 0 < sizes k) {j k : Nat} (hjk : j ≤ k) : readSum sizes j ≤ readSum sizes k := by
  induction hjk with
  | refl => exact le_refl _
  | step _ ih =>
    rw [Nat.succ_eq_add_one, readSum_succ]
    exact ih.trans (le_add_of_nonneg_right (hs _).le)

theorem readLoop_law (hv : h.Valid) (d : Disk) (heap : Nat → Buffer) (hs : ∀ k, 0 < sizes k)
    (hb : ∀ k, readSum sizes k < h.fileLength → readSum sizes (k + 1) ≤ intMax) (fuel : Nat) {k q : Nat}
    (hq : (q : Int) = min (readSum sizes k) h.len) (hf : h.len < q + fuel) :
    readLoop d heap sizes fuel k ⟨h, q⟩ = .ok (some (fileBytes h d q)) := by
  induction fuel generalizing k q with
  | zero => omega
  | succ fuel ih =>
    by_cases hend : q = h.len
    · subst hend
      simp only [readLoop, read_end hv, ok_bind]
      rw [if_neg (by omega), fileBytes, Nat.sub_self]
      rfl
    · have hsum := readSum_succ sizes k
      have hk := hs k
      have hbk := hb k (by rw [hv.fileLength_eq]; omega)
      obtain ⟨n, hn⟩ := Int.eq_ofNat_of_zero_le hk.le
      obtain ⟨data, hr, hdata⟩ := read_law d hv (heap k) (q := q) (n := n) (by omega) (by omega)
      have hrest := ih (k := k + 1) (q := q + min n (h.len - q)) (by omega) (by omega)
      simp only [readLoop, hn, hr, hrest, ok_bind]
      rw [if_pos (by omega), fileBytes_split h d (q := q) (m := min n (h.len - q)) (by omega), Option.map_some,
        Int.toNat_natCast, List.map_congr_left (fun i hi => hdata i (List.mem_range.mp hi))]

theorem rest_eq_some {x : Except Fault (Option (List Byte))} {read bytes : List Byte}
    (he : (do let rest ← x; .ok (rest.map (read ++ ·))) = Except.ok (ε := Fault) (some bytes)) :
    ∃ rest, x = .ok (some rest) ∧ bytes = read ++ rest := by
  obtain ⟨rest, hx, hr⟩ := bind_eq_ok.mp he
  obtain ⟨rest', rfl, hb⟩ := Option.map_eq_some_iff.mp (Except.ok.inj hr)
  exact ⟨rest', hx, hb.symm⟩

theorem readLoop_long (hv : h.Valid) (d : Disk) (heap : Nat → Buffer) (hs : ∀ k, 0 < sizes k ∧ sizes k ≤ intMax)
    {k : Nat} (hk : readSum sizes k < h.fileLength) (ho : intMax < readSum sizes (k + 1)) (fuel : Nat) {j q : Nat}
    (hjk : j ≤ k) (hq : (q : Int) = readSum sizes j) {bytes : List Byte}
    (he : readLoop d heap sizes fuel j ⟨h, q⟩ = .ok (some bytes)) : h.len < q + bytes.length := by
  induction fuel generalizing j q bytes with
  | zero => cases he
  | succ fuel ih =>
    have hf := hv.fileLength_eq
    have hl := h.len_le
    have hmono := readSum_mono (fun k => (hs k).1) hjk
    simp only [readLoop, bind_eq_ok] at he
    obtain ⟨⟨amount, data, f'⟩, hr, he⟩ := he
    -- at `k` the count is not clipped, and before `k` no read reaches the end of the file
    by_cases hkj : j = k
    · subst hkj
      have hsum := readSum_succ sizes j
      have hc : ¬(sizes j ≤ 0 ∨ (q : Int) ≥ h.fileLength) := by
        have := (hs j).1
        omega
      simp only [read, bind_eq_ok] at hr
      obtain ⟨⟨n, data'⟩, hread, hok⟩ := hr
      obtain ⟨rfl, -⟩ := Prod.mk.inj (Except.ok.inj hok)
      have hn := readAt_count hc hread
      obtain ⟨hpos, hesc⟩ := clip_escapes hv.length_nonneg ⟨by omega, by omega⟩ (hs j).2 hc (by omega)
      rw [if_pos (by omega)] at he
      obtain ⟨rest, -, rfl⟩ := rest_eq_some he
      rw [List.length_append, List.length_map, List.length_range]
      omega
    · have hsum := readSum_succ sizes j
      have hmono' := readSum_mono (fun k => (hs k).1) (show j + 1 ≤ k by omega)
      have hpos := (hs j).1
      obtain ⟨n, hn⟩ := Int.eq_ofNat_of_zero_le hpos.le
      obtain ⟨data', hr', -⟩ := read_law d hv (heap j) (q := q) (n := n) (by omega) (by omega)
      rw [hn, hr'] at hr
      obtain ⟨rfl, hrest⟩ := Prod.mk.inj (Except.ok.inj hr)
      obtain ⟨-, rfl⟩ := Prod.mk.inj hrest
      rw [if_pos (by omega)] at he
      obtain ⟨rest, hrest, rfl⟩ := rest_eq_some he
      have hlong := ih (j := j + 1) (q := q + min n (h.len - q)) (by omega) (by omega) hrest
      rw [List.length_append, List.length_map, List.length_range]
      omega

def ReadsBack (h : FileHeader) (sizes : Nat → Int) : Prop :=
  ∃ fuel, ∀ d heap, readLoop d heap sizes fuel 0 ⟨h, 0⟩ = .ok (some ((List.range h.len).map (h.content d)))

theorem fileBytes_zero (h : FileHeader) (d : Disk) : fileBytes h d 0 = (List.range h.len).map (h.content d) := by
  simp only [fileBytes, Nat.sub_zero, Nat.zero_add]

theorem readsBack_of_bounded (hv : h.Valid) (hs : ∀ k, 0 < sizes k)
    (hb : ∀ k, readSum sizes k < h.fileLength → readSum sizes (k + 1) ≤ intMax) : ReadsBack h sizes := by
  refine ⟨h.len + 1, fun d heap => ?_⟩
  rw [← fileBytes_zero]
  exact readLoop_law hv d heap hs hb (h.len + 1) (k := 0) (q := 0) (by simp [readSum]) (by omega)

theorem not_readsBack_of_overflow (hv : h.Valid) (hs : ∀ k, 0 < sizes k ∧ sizes k ≤ intMax) {k : Nat}
    (hk : readSum sizes k < h.fileLength) (ho : intMax < readSum sizes (k + 1)) : ¬ReadsBack h sizes := by
  rintro ⟨fuel, hr⟩
  have hlong := readLoop_long hv (fun _ _ => 0) (fun _ _ => 0) hs hk ho fuel (j := 0) (q := 0) (Nat.zero_le k)
    (by simp [readSum]) (hr _ _)
  rw [List.length_map, List.length_range] at hlong
  omega

end Reads

theorem sequential_transfers (hv : h.Valid) :
    (∀ d heap heap' (cs : List (List Byte)), cs.flatten.length ≤ intMax →
      ∃ counts d' f' d'', writeChunks ⟨h, 0⟩ d heap cs = .ok (counts, d', f') ∧
        writeAt d h heap' (bytesOf cs.flatten) cs.flatten.length 0 = .ok (counts.sum, d'') ∧
        counts.sum = min (cs.flatten.length : Int) h.fileLength ∧
        (∀ i < h.len, h.content d' i = h.content d'' i) ∧
        (h.fileLength ≤ cs.flatten.length → ∀ d heap src n, f'.write d heap src n = .ok (0, d, f'))) ∧
      ∀ sizes : Nat → Int, (∀ k, 0 < sizes k ∧ sizes k ≤ intMax) →
        (ReadsBack h sizes ↔ ∀ k, readSum sizes k < h.fileLength → readSum sizes (k + 1) ≤ intMax) := by
  have hf := hv.fileLength_eq
  constructor
  · intro d heap heap' cs hcs
    obtain ⟨counts, d', hws, hsum, hc⟩ := writeChunks_law hv heap cs d (Nat.zero_le _) (by omega)
    obtain ⟨d'', hw, hc', -⟩ := writeAt_law d hv heap' (bytesOf cs.flatten) cs.flatten.length 0 (le_refl 0) (by omega)
    have ht := transferred_of_le (n := cs.flatten.length) (Nat.zero_le h.len) hv
    rw [Nat.cast_zero] at ht
    rw [ht, ← hsum] at hw
    rw [ht] at hc'
    refine ⟨counts, d', _, d'', hws, hw, by rw [hsum, hf]; omega, ?_, ?_⟩
    · intro i hi
      have hiff : (0 : Int) ≤ i ∧ (i : Int) < 0 + (min cs.flatten.length (h.len - 0) : Nat) ↔
          0 ≤ i ∧ i < 0 + cs.flatten.length := by omega
      rw [hc i hi, hc' i (by omega)]
      simp only [hiff, Int.toNat_zero]
    · intro hfull e heap src n
      have hend : 0 + min cs.flatten.length (h.len - 0) = h.len := by omega
      rw [hend]
      exact write_full hv e heap src n
  · intro sizes hs
    constructor
    · intro hr k hk
      by_contra ho
      exact not_readsBack_of_overflow hv hs hk (by omega) hr
    · exact readsBack_of_bounded hv (fun k => (hs k).1)

theorem sequential_transfers_sample : sampleHeader.Valid ∧ ReadsBack sampleHeader fun _ => 10 := by
  refine ⟨sampleHeader_valid, ((sequential_transfers sampleHeader_valid).2 (fun _ => 10) (fun _ => by decide)).mpr ?_⟩
  intro k hk
  have hl : sampleHeader.fileLength = 300 := by decide
  rw [readSum_succ]
  simp only [intMax]
  omega

def oneThenAll : Nat → Int := fun k => if k = 0 then 1 else intMax

theorem reads_not_sequential : ¬ReadsBack sampleHeader oneThenAll := by
  refine not_readsBack_of_overflow sampleHeader_valid ?_ (k := 1) (by decide) (by decide)
  intro k
  simp only [oneThenAll, intMax]
  split_ifs <;> decide

end Nachos.OpenFile
