import Nachos.FileSys.ReadWriteLaw

namespace Nachos

open Disk CInt

namespace FileHeader

variable {h : FileHeader} {b : BitMap} {fileSize : Int}

inductive StaysInside (h : FileHeader) (b : BitMap) (fileSize : Int) : Prop where
  | refused {h' : FileHeader} : h.allocate b fileSize = .ok (false, h', b) → StaysInside h b fileSize
  | filled {h' : FileHeader} {b' : BitMap} : h.allocate b fileSize = .ok (true, h', b') → 0 ≤ fileSize →
      h'.numSectors.toInt = (fileSize + sectorSize - 1) / sectorSize → h'.numSectors.toInt ≤ numDirect →
      (∀ i < h'.size, h'.sector i = h'.block i) → (h'.blocks h'.size).Nodup →
      (∀ s ∈ h'.blocks h'.size, s < b.numBits ∧ s ∉ b.marked) → b'.numBits = b.numBits →
      b'.marked = b.marked ∪ (h'.blocks h'.size).toFinset → StaysInside h b fileSize

theorem allocateSectors_overrun (h : FileHeader) (b : BitMap) {n : Nat} (hn : numDirect < n) :
    ∃ e, allocateSectors h b n = .error e := by
  induction n with
  | zero => omega
  | succ n ih =>
    cases hr : allocateSectors h b n with
    | error e => exact ⟨e, by simp only [allocateSectors, hr, error_bind]⟩
    | ok r =>
      have hle : ¬n < numDirect := by
        intro hlt
        omega
      by_cases hlt : numDirect < n
      · obtain ⟨e, he⟩ := ih hlt
        rw [hr] at he
        cases he
      · exact ⟨.outOfBounds, by simp only [allocateSectors, hr, ok_bind, setSector, dif_neg hle, error_bind]⟩

theorem divRoundUp_nonpos {n s : Int} (hn : n ≤ 0) (hs : 0 ≤ s) : divRoundUp n s ≤ 0 := by
  have hd := Int.tdiv_nonneg (show 0 ≤ -n by omega) hs
  have hm := Int.tmod_nonneg s (show 0 ≤ -n by omega)
  rw [Int.neg_tdiv] at hd
  rw [Int.neg_tmod] at hm
  rw [divRoundUp, if_neg (by omega)]
  omega

theorem allocate_negative (h : FileHeader) (b : BitMap) (hn : fileSize < 0) :
    ∃ h', h.allocate b fileSize = .ok (true, h', b) := by
  have hd := divRoundUp_nonpos hn.le (show 0 ≤ (sectorSize : Int) by omega)
  have hc : ¬(b.numClear : Int) < divRoundUp fileSize sectorSize := by omega
  have h0 : (divRoundUp fileSize sectorSize).toNat = 0 := by omega
  simp only [allocate, if_neg hc, h0, allocateSectors, ok_bind]
  exact ⟨_, rfl⟩

theorem allocate_overrun (h : FileHeader) (b : BitMap) (hm : maxFileSize < fileSize)
    (hc : divRoundUp fileSize sectorSize ≤ b.numClear) : ∃ e, h.allocate b fileSize = .error e := by
  have hd : numDirect < (divRoundUp fileSize sectorSize).toNat := by
    rw [maxFileSize_eq] at hm
    rw [sectorSize_eq, divRoundUp_of_nonneg (by omega) (by decide), numDirect_eq]
    omega
  obtain ⟨e, he⟩ := allocateSectors_overrun
    { h with numBytes := .ofInt 32 fileSize, numSectors := .ofInt 32 (divRoundUp fileSize sectorSize) } b hd
  exact ⟨e, by simp only [allocate, he, if_neg (Int.not_lt.mpr hc), error_bind]⟩

/-- `Allocate` never compares the size with `MaxFileSize`: only a lack of clear sectors stops it. -/
theorem allocate_staysInside (h : FileHeader) {b : BitMap} (hb : b.numBits = Disk.numSectors) (fileSize : Int) :
    StaysInside h b fileSize ↔
      (0 ≤ fileSize ∧ fileSize ≤ maxFileSize) ∨ b.numClear < divRoundUp fileSize sectorSize := by
  by_cases hc : b.numClear < divRoundUp fileSize sectorSize
  · obtain ⟨h', he⟩ := allocate_of_full h b hc
    exact iff_of_true (.refused he) (.inr hc)
  by_cases h0 : fileSize < 0
  · obtain ⟨h', he⟩ := allocate_negative h b h0
    refine iff_of_false ?_ (by omega)
    rintro (hr | ⟨-, hn, -⟩)
    · rw [he] at hr
      cases hr
    · omega
  by_cases hm : maxFileSize < fileSize
  · obtain ⟨e, he⟩ := allocate_overrun h b hm (by omega)
    refine iff_of_false ?_ (by omega)
    rintro (hr | ⟨hr, -⟩)
    all_goals
      rw [he] at hr
      cases hr
  · obtain ⟨h', b', he, -, hn, ha⟩ := allocate_of_room h b (by rw [hb]; decide) fileSize (by omega) (by omega)
      (by omega)
    refine iff_of_true (.filled he (by omega) ?_ ?_ ha.sector ha.nodup ?_ ha.numBits ha.marked) (by omega)
    · rw [hn, divRoundUp_of_nonneg (by omega) (by rw [sectorSize_eq]; decide)]
    · rw [hn]
      exact (numSectors_range (by omega) (by omega)).2
    · exact fun s hs => ⟨ha.bound s hs, ha.fresh s hs⟩

def emptyMap : BitMap := .new Disk.numSectors fun _ => 0

theorem emptyMap_numClear : emptyMap.numClear = 1024 := by
  have hn := emptyMap.numClear_add_card
  have hm : emptyMap.marked.card = 0 := by rw [emptyMap, BitMap.marked_new, Finset.card_empty]
  have hb : emptyMap.numBits = 1024 := rfl
  omega

theorem allocate_staysInside_small :
    emptyMap.numBits = Disk.numSectors ∧ StaysInside (decode fun _ => 0) emptyMap 300 :=
  ⟨rfl, (allocate_staysInside _ rfl 300).mpr (.inl (by rw [maxFileSize_eq]; decide))⟩

theorem allocate_leaves_header : ¬StaysInside (decode fun _ => 0) emptyMap 15873 := by
  obtain ⟨e, he⟩ := allocate_overrun (decode fun _ => 0) emptyMap
    (show (maxFileSize : Int) < 15873 by rw [maxFileSize_eq]; decide) (by rw [emptyMap_numClear, sectorSize_eq]; decide)
  rintro (hr | ⟨hr, -⟩)
  all_goals
    rw [he] at hr
    cases hr

end FileHeader

namespace OpenFile

variable {d : Disk} {h : FileHeader} {numBytes position : Int}

structure Untouched (h : FileHeader) (numBytes position : Int) : Prop where
  read : ∀ d heap, readAt d h heap numBytes position = .ok (0, fun _ => 0)
  write : ∀ d heap src, writeAt d h heap src numBytes position = .ok (0, d)

structure Transfers (h : FileHeader) (numBytes position : Int) (n : Nat) : Prop where
  pos : 0 < n
  count_le : n ≤ numBytes
  position_nonneg : 0 ≤ position
  fits : position + n ≤ h.fileLength
  read : ∀ d heap, ∃ data, readAt d h heap numBytes position = .ok ((n : Int), data) ∧
    ∀ k < n, data k = h.content d (position.toNat + k)
  write : ∀ d heap src, ∃ d', writeAt d h heap src numBytes position = .ok ((n : Int), d') ∧
    ∀ k < n, h.content d' (position.toNat + k) = src k

structure Checked (h : FileHeader) (numBytes position : Int) : Prop where
  -- every access out of a buffer or of the header's table is a fault of the model, and so neither outcome;
  -- `indices` says that no entry of the table past `numSectors` is consulted
  outcome : Untouched h numBytes position ∨ ∃ n, Transfers h numBytes position n
  indices : ∀ h', Agrees h h' → ∀ d heap src,
    readAt d h' (heap 0) numBytes position = readAt d h (heap 0) numBytes position ∧
      writeAt d h' heap src numBytes position = writeAt d h heap src numBytes position

theorem untouched (hc : numBytes ≤ 0 ∨ position ≥ h.fileLength) : Untouched h numBytes position := by
  refine ⟨?_, ?_⟩
  · intro d heap
    rw [readAt, if_pos hc]
  · intro d heap src
    rw [writeAt, if_pos hc]

theorem transfers (hv : h.Valid) {p n : Nat} (r : Request h numBytes position p n)
    (ho : position + numBytes ≤ intMax) : Transfers h numBytes position n := by
  have hp := r.position_eq
  have hn := r.pos
  have hc := r.count
  have hf := hv.fileLength_eq
  have hl := r.fits
  have hpn : position.toNat = p := by omega
  refine ⟨hn, by omega, by omega, by omega, ?_, ?_⟩
  · intro d heap
    rw [hpn]
    exact readAt_request hv r ho heap
  · intro d heap src
    obtain ⟨d', he, hcontent, -⟩ := writeAt_request (d := d) hv r ho heap src
    refine ⟨d', he, ?_⟩
    intro k hk
    rw [hcontent _ (by omega), if_pos (by omega), hpn, Nat.add_sub_cancel_left]

theorem readAt_count {heap data : Buffer} {n : Int} (hc : ¬(numBytes ≤ 0 ∨ position ≥ h.fileLength))
    (he : readAt d h heap numBytes position = .ok (n, data)) : n = clip h.fileLength numBytes position := by
  simp only [readAt, if_neg hc, bind_eq_ok] at he
  obtain ⟨_, -, _, -, _, -, hr⟩ := he
  exact (Prod.mk.inj (Except.ok.inj hr)).1.symm

/-- A negative offset is never clipped to the file, nor is a sum of `int`s that overflows. -/
theorem clip_escapes (h0 : 0 ≤ h.fileLength) (hp : -2 ^ 31 ≤ position ∧ position ≤ intMax) (hn : numBytes ≤ intMax)
    (hc : ¬(numBytes ≤ 0 ∨ position ≥ h.fileLength)) (ho : ¬(0 ≤ position ∧ position + numBytes ≤ intMax)) :
    0 < clip h.fileLength numBytes position ∧
      ¬(0 ≤ position ∧ position + clip h.fileLength numBytes position ≤ h.fileLength) := by
  have hl : -2 ^ 31 ≤ h.fileLength ∧ h.fileLength ≤ intMax := toInt_range h.numBytes
  simp only [clip, intMax] at *
  by_cases hneg : position < 0
  · rw [wrap_of_range (by omega) (by simp only [intMax]; omega)]
    split_ifs with hs
    · rw [wrap_of_range (by omega) (by simp only [intMax]; omega)]
      omega
    · omega
  · rw [wrap_of_over (by simp only [intMax]; omega) (by omega), if_neg (by omega)]
    omega

theorem not_checked (h0 : 0 ≤ h.fileLength) (hp : -2 ^ 31 ≤ position ∧ position ≤ intMax) (hn : numBytes ≤ intMax)
    (hc : ¬(numBytes ≤ 0 ∨ position ≥ h.fileLength)) (ho : ¬(0 ≤ position ∧ position + numBytes ≤ intMax)) :
    ¬Checked h numBytes position := by
  obtain ⟨hpos, hout⟩ := clip_escapes h0 hp hn hc ho
  rintro ⟨hu | ⟨n, ht⟩, -⟩
  · have he := readAt_count hc (hu.read (fun _ _ => 0) fun _ => 0)
    omega
  · obtain ⟨data, he, -⟩ := ht.read (fun _ _ => 0) fun _ => 0
    have hn := readAt_count hc he
    have hp := ht.position_nonneg
    have hf := ht.fits
    omega

theorem readAt_writeAt_checked (hv : h.Valid) (hp : -2 ^ 31 ≤ position ∧ position ≤ intMax)
    (hn : -2 ^ 31 ≤ numBytes ∧ numBytes ≤ intMax) :
    Checked h numBytes position ↔
      numBytes ≤ 0 ∨ position ≥ h.fileLength ∨ (0 ≤ position ∧ position + numBytes ≤ intMax) := by
  by_cases hc : numBytes ≤ 0 ∨ position ≥ h.fileLength
  · refine iff_of_true ⟨.inl (untouched hc), ?_⟩ (by omega)
    intro h' ha d heap src
    simp only [readAt, writeAt, ha.fileLength, if_pos hc, and_self]
  by_cases ho : 0 ≤ position ∧ position + numBytes ≤ intMax
  · have r := request (h := h) ho.1 (show 0 < numBytes by omega) (by omega)
    refine iff_of_true ⟨.inr ⟨_, transfers hv r ho.2⟩, ?_⟩ (by omega)
    intro h' ha d heap src
    exact ⟨readAt_congr hv ha _ ho.1 ho.2, writeAt_congr hv ha heap src ho.1 ho.2⟩
  · exact iff_of_false (not_checked hv.length_nonneg hp hn.2 hc ho) (by omega)

theorem readAt_writeAt_checked_sample :
    sampleHeader.Valid ∧ Checked sampleHeader 100 250 :=
  ⟨sampleHeader_valid, (readAt_writeAt_checked sampleHeader_valid (by decide) (by decide)).mpr (by decide)⟩

theorem readAt_writeAt_unchecked : ¬Checked sampleHeader 1 (-5) ∧ ¬Checked sampleHeader 2147483647 1 := by
  constructor
  · exact not_checked (by decide) (by decide) (by decide) (by decide) (by decide)
  · exact not_checked (by decide) (by decide) (by decide) (by decide) (by decide)

theorem writeSectors_negative (d : Disk) (h : FileHeader) {first : Int} (hf : first < 0) (hl : -2 ^ 23 ≤ first)
    (buf : Block) (n : Nat) : ∃ e, writeSectors d h first buf (n + 1) = .error e := by
  induction n with
  | zero =>
    refine ⟨.outOfBounds, ?_⟩
    have hw : wrap ((first + (0 : Nat)) * sectorSize) = first * sectorSize := by
      rw [Nat.cast_zero, Int.add_zero, sectorSize_eq]
      exact wrap_of_range (by omega) (by simp only [intMax]; omega)
    have hd : divRoundDown (first * sectorSize) sectorSize = first :=
      Int.mul_tdiv_cancel _ (by have := sectorSize_pos; omega)
    simp only [writeSectors, ok_bind, hw, FileHeader.byteToSector, hd, FileHeader.getSector]
    rw [if_neg (by omega), error_bind]
  | succ n ih =>
    obtain ⟨e, he⟩ := ih
    exact ⟨e, by rw [writeSectors, he, error_bind]⟩

theorem divRoundDown_of_neg {n : Int} (hn : n < 0) : divRoundDown n sectorSize = -((-n) / 256) := by
  rw [divRoundDown, ← Int.neg_neg n, Int.neg_tdiv, tdiv_of_nonneg (by omega), sectorSize_eq, Int.neg_neg]
  rfl

theorem clip_of_neg (h0 : 0 ≤ h.fileLength) (hp : -2 ^ 31 ≤ position ∧ position < 0) (h1 : 0 < numBytes)
    (hn : numBytes ≤ intMax) :
    0 < clip h.fileLength numBytes position ∧ clip h.fileLength numBytes position ≤ intMax := by
  simp only [clip, intMax] at *
  rw [wrap_of_range (by omega) (by simp only [intMax]; omega)]
  split_ifs with hs
  · rw [wrap_of_range (by omega) (by simp only [intMax]; omega)]
    omega
  · omega

theorem writeAt_negative {heap : Heap} {src : Buffer} {n : Int} {d' : Disk} (h0 : 0 ≤ h.fileLength)
    (hp : -2 ^ 31 ≤ position ∧ position < 0) (hn : numBytes ≤ intMax)
    (he : writeAt d h heap src numBytes position = .ok (n, d')) : d' = d := by
  by_cases hc : numBytes ≤ 0 ∨ position ≥ h.fileLength
  · simp only [writeAt, if_pos hc] at he
    exact (Prod.mk.inj (Except.ok.inj he)).2.symm
  exfalso
  obtain ⟨hm0, hm1⟩ := clip_of_neg h0 hp (show 0 < numBytes by omega) hn
  simp only [writeAt, if_neg hc, bind_eq_ok] at he
  generalize clip h.fileLength numBytes position = m at *
  have hfirst := divRoundDown_of_neg hp.2
  have hlast : -((-position) / 256) ≤ divRoundDown (wrap (wrap (position + m) - 1)) sectorSize := by
    simp only [intMax] at hm1
    rw [wrap_of_range (x := position + m) (by omega) (by simp only [intMax]; omega),
      wrap_of_range (by omega) (by simp only [intMax]; omega)]
    by_cases hneg : position + m - 1 < 0
    · rw [divRoundDown_of_neg hneg]
      omega
    · rw [divRoundDown, tdiv_of_nonneg (by omega), sectorSize_eq]
      omega
  have hoff : wrap (position - wrap (-((-position) / 256) * sectorSize)) = -((-position) % 256) := by
    rw [sectorSize_eq, wrap_of_range (x := -((-position) / 256) * (256 : Nat)) (by omega)
      (by simp only [intMax]; omega), wrap_of_range (by omega) (by simp only [intMax]; omega)]
    omega
  rw [hfirst] at he
  obtain ⟨b0, -, b1, -, b2, -, b3, hstore, d1, hs, -⟩ := he
  rw [hoff, Block.store] at hstore
  split_ifs at hstore with hfit
  obtain ⟨k, hk⟩ : ∃ k, (1 + divRoundDown (wrap (wrap (position + m) - 1)) sectorSize -
      -((-position) / 256)).toNat = k + 1 := Nat.exists_eq_add_of_le' (by omega)
  obtain ⟨e, herr⟩ := writeSectors_negative d h (show -((-position) / 256) < 0 by omega) (by omega) b3 k
  rw [hk, herr] at hs
  cases hs

theorem writeAt_frame_int (hv : h.Valid) {heap : Heap} {src : Buffer} {n : Int} {d' : Disk}
    (hp : -2 ^ 31 ≤ position) (hn : numBytes ≤ intMax)
    (he : writeAt d h heap src numBytes position = .ok (n, d')) : ∀ s, s ∉ h.blocks h.size → d' s = d s := by
  by_cases hneg : position < 0
  · rw [writeAt_negative hv.length_nonneg ⟨hp, hneg⟩ hn he]
    exact fun _ _ => rfl
  · exact writeAt_frame hv (by omega) hn he

end OpenFile

end Nachos
