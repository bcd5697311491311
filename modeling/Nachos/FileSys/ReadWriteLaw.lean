import Nachos.FileSys.Update

namespace Nachos.OpenFile

open Disk CInt

variable {d : Disk} {h h' : FileHeader}

structure Agrees (h h' : FileHeader) : Prop where
  numBytes : h'.numBytes = h.numBytes
  numSectors : h'.numSectors = h.numSectors
  sector : ∀ i < h.size, h'.sector i = h.sector i

theorem Agrees.fileLength (ha : Agrees h h') : h'.fileLength = h.fileLength := by
  rw [FileHeader.fileLength, FileHeader.fileLength, ha.numBytes]

theorem readSectors_congr (hv : h.Valid) (ha : Agrees h h') (first : Nat) (buf : Block) (n : Nat)
    (hn : first + n ≤ h.size) : readSectors d h' first buf n = readSectors d h first buf n := by
  induction n with
  | zero => rfl
  | succ n ih =>
    have hi : first + n < numDirect := by have := hv.size_le; omega
    have h1 := FileHeader.byteToSector_eq (h := h) hi
    have h2 := FileHeader.byteToSector_eq (h := h') hi
    rw [ha.sector _ (by omega), ← h1, Nat.cast_add] at h2
    simp only [readSectors, ih (by omega), h2]

theorem writeSectors_congr (hv : h.Valid) (ha : Agrees h h') (first : Nat) (buf : Block) (n : Nat)
    (hn : first + n ≤ h.size) : writeSectors d h' first buf n = writeSectors d h first buf n := by
  induction n with
  | zero => rfl
  | succ n ih =>
    have hi : first + n < numDirect := by have := hv.size_le; omega
    have h1 := FileHeader.byteToSector_eq (h := h) hi
    have h2 := FileHeader.byteToSector_eq (h := h') hi
    rw [ha.sector _ (by omega), ← h1, Nat.cast_add] at h2
    simp only [writeSectors, ih (by omega), h2]

theorem readAt_congr (hv : h.Valid) (ha : Agrees h h') (heap : Buffer) {numBytes position : Int}
    (hp : 0 ≤ position) (ho : position + numBytes ≤ intMax) :
    readAt d h' heap numBytes position = readAt d h heap numBytes position := by
  by_cases hc : numBytes ≤ 0 ∨ position ≥ h.fileLength
  · simp only [readAt, ha.fileLength, if_pos hc]
  · have r := request (h := h) hp (show 0 < numBytes by omega) (by omega)
    obtain ⟨hle, hlt⟩ := r.sectors_lt hv
    obtain ⟨hcount, -⟩ := Request.span_eq hle (hlt.trans_le hv.size_le)
    simp only [readAt, ha.fileLength, if_neg hc, r.clip_eq ho, r.first_eq, r.last_eq, hcount]
    congr 1
    funext buf
    rw [readSectors_congr hv ha _ _ _ (by omega)]

theorem readPartial_congr (hv : h.Valid) (ha : Agrees h h') (c : Prop) [Decidable c] (heap : Buffer)
    (buf : Block) (start : Int) {j : Nat} (hj : j < numDirect) :
    readPartial c d h' heap buf start (wrap (j * sectorSize)) =
      readPartial c d h heap buf start (wrap (j * sectorSize)) := by
  have hb : j * sectorSize ≤ 62 * 256 := Nat.mul_le_mul (by have := numDirect_eq; omega) sectorSize_eq.le
  have hS := sectorSize_eq
  rw [← Nat.cast_mul]
  generalize j * sectorSize = q at *
  rw [wrap_of_range (by omega) (by simp only [intMax]; omega), readPartial, readPartial,
    readAt_congr hv ha heap (by omega) (by simp only [intMax]; omega)]

theorem writeAt_congr (hv : h.Valid) (ha : Agrees h h') (heap : Heap) (src : Buffer)
    {numBytes position : Int} (hp : 0 ≤ position) (ho : position + numBytes ≤ intMax) :
    writeAt d h' heap src numBytes position = writeAt d h heap src numBytes position := by
  by_cases hc : numBytes ≤ 0 ∨ position ≥ h.fileLength
  · simp only [writeAt, ha.fileLength, if_pos hc]
  · have r := request (h := h) hp (show 0 < numBytes by omega) (by omega)
    obtain ⟨hle, hlt⟩ := r.sectors_lt hv
    obtain ⟨hcount, -⟩ := Request.span_eq hle (hlt.trans_le hv.size_le)
    have hb := hlt.trans_le hv.size_le
    have hpart := fun c [Decidable c] heap buf start =>
      readPartial_congr (d := d) hv ha c heap buf start (hle.trans_lt hb)
    have hpart' := fun c [Decidable c] heap buf start => readPartial_congr (d := d) hv ha c heap buf start hb
    simp only [writeAt, ha.fileLength, if_neg hc, r.clip_eq ho, r.first_eq, r.last_eq, hcount, hpart, hpart']
    congr 1; funext buf
    congr 1; funext buf
    congr 1; funext buf
    congr 1; funext buf
    rw [writeSectors_congr hv ha _ _ _ (by omega)]

def transferred (fileLength numBytes position : Int) : Int :=
  if numBytes ≤ 0 ∨ position ≥ fileLength then 0 else min numBytes (fileLength - position)

theorem transferred_eq {numBytes position : Int} {p n : Nat} (r : Request h numBytes position p n) :
    transferred h.fileLength numBytes position = n := by
  rw [transferred, if_neg r.check, r.count]

theorem readAt_law (d : Disk) (hv : h.Valid) (heap : Buffer) (numBytes position : Int)
    (hp : 0 ≤ position) (ho : position + numBytes ≤ intMax) :
    ∃ data, readAt d h heap numBytes position = .ok (transferred h.fileLength numBytes position, data) ∧
      ∀ k : Nat, k < transferred h.fileLength numBytes position → data k = h.content d (position.toNat + k) := by
  by_cases hc : numBytes ≤ 0 ∨ position ≥ h.fileLength
  · simp only [readAt, transferred, if_pos hc]
    exact ⟨_, rfl, fun k hk => by omega⟩
  · have r := request (h := h) hp (show 0 < numBytes by omega) (by omega)
    obtain ⟨data, he, hdata⟩ := readAt_request (d := d) hv r ho heap
    rw [transferred_eq r]
    exact ⟨data, he, fun k hk => hdata k (by omega)⟩

theorem writeAt_law (d : Disk) (hv : h.Valid) (heap : Heap) (src : Buffer) (numBytes position : Int)
    (hp : 0 ≤ position) (ho : position + numBytes ≤ intMax) :
    ∃ d', writeAt d h heap src numBytes position = .ok (transferred h.fileLength numBytes position, d') ∧
      (∀ i : Nat, i < h.fileLength → h.content d' i =
        if position ≤ i ∧ i < position + transferred h.fileLength numBytes position
        then src (i - position.toNat) else h.content d i) ∧
      ∀ s, s ∉ h.blocks h.size → d' s = d s := by
  by_cases hc : numBytes ≤ 0 ∨ position ≥ h.fileLength
  · simp only [writeAt, transferred, if_pos hc]
    exact ⟨d, rfl, fun i _ => by rw [if_neg (by omega)], fun _ _ => rfl⟩
  · have r := request (h := h) hp (show 0 < numBytes by omega) (by omega)
    obtain ⟨d', he, hcontent, hother⟩ := writeAt_request (d := d) hv r ho heap src
    rw [transferred_eq r]
    refine ⟨d', he, fun i hi => ?_, hother⟩
    rw [hcontent i hi]
    have hpos := r.position_eq
    congr 1
    exact propext (by omega)

theorem writeSectors_bound {first : Nat} (hf : first ≤ numDirect) {buf : Block} {n : Nat} {d' : Disk}
    (he : writeSectors d h first buf n = .ok d') : first + n ≤ numDirect := by
  induction n generalizing d' with
  | zero => exact hf
  | succ n ih =>
    simp only [writeSectors, bind_eq_ok] at he
    obtain ⟨d1, h1, s, h2, -⟩ := he
    by_contra hlt
    have hd := numDirect_eq
    have heq : (first : Int) + n = 62 := by have := ih h1; omega
    have hdiv : divRoundDown (wrap (62 * (256 : Nat))) (256 : Nat) = 62 := by decide
    rw [heq, FileHeader.byteToSector, sectorSize_eq, hdiv, FileHeader.getSector, if_neg (by omega)] at h2
    exact absurd h2 (by simp)

theorem writeAt_frame (hv : h.Valid) {heap : Heap} {src : Buffer} {numBytes position n : Int} {d' : Disk}
    (hp : 0 ≤ position) (hn : numBytes ≤ intMax) (he : writeAt d h heap src numBytes position = .ok (n, d')) :
    ∀ s, s ∉ h.blocks h.size → d' s = d s := by
  by_cases ho : position + numBytes ≤ intMax
  · obtain ⟨d1, he1, -, hother⟩ := writeAt_law d hv heap src numBytes position hp ho
    rw [he1] at he
    obtain ⟨-, rfl⟩ := Prod.mk.inj (Except.ok.inj he)
    exact hother
  · by_cases hc : numBytes ≤ 0 ∨ position ≥ h.fileLength
    · simp only [writeAt, if_pos hc] at he
      obtain ⟨-, rfl⟩ := Prod.mk.inj (Except.ok.inj he)
      exact fun _ _ => rfl
    have hlen : h.fileLength ≤ 62 * 256 := by
      have h1 := hv.len_le_size
      have h2 := hv.size_le
      have h3 := hv.fileLength_eq
      rw [sectorSize_eq] at h1
      rw [numDirect_eq] at h2
      omega
    simp only [intMax] at hn ho
    have hw : wrap (position + numBytes) = position + numBytes - 2 ^ 32 :=
      wrap_of_over (by simp only [intMax]; omega) (by omega)
    have hclip : clip h.fileLength numBytes position = numBytes := by rw [clip, if_neg (by omega)]
    have hfirst : divRoundDown position sectorSize = ((position / 256).toNat : Nat) := by
      rw [divRoundDown, tdiv_of_nonneg hp, sectorSize_eq]
      omega
    simp only [writeAt, if_neg hc, hclip, hw, hfirst, bind_eq_ok] at he
    obtain ⟨b0, -, b1, -, b2, -, b3, -, d1, hs, hr⟩ := he
    obtain ⟨-, rfl⟩ := Prod.mk.inj (Except.ok.inj hr)
    -- the last byte is past the largest `int` by one, or its sector number is negative
    by_cases hone : position + numBytes = 2 ^ 31
    · have hb := writeSectors_bound (by rw [numDirect_eq]; omega) hs
      rw [numDirect_eq, hone, sectorSize_eq, divRoundDown] at hb
      have hl : (wrap (2 ^ 31 - 2 ^ 32 - 1)).tdiv (256 : Nat) = 8388607 := by decide
      rw [hl] at hb
      omega
    · have hl : divRoundDown (wrap (position + numBytes - 2 ^ 32 - 1)) sectorSize ≤ -1 := by
        rw [divRoundDown, wrap_of_range (by omega) (by simp only [intMax]; omega), sectorSize_eq,
          ← Int.neg_neg (position + _ - _ - _), Int.neg_tdiv, tdiv_of_nonneg (by omega)]
        omega
      have hcount : (1 + divRoundDown (wrap (position + numBytes - 2 ^ 32 - 1)) sectorSize -
          ((position / 256).toNat : Nat)).toNat = 0 := by omega
      rw [hcount] at hs
      rw [← Except.ok.inj hs]
      exact fun _ _ => rfl

/-- The read/write law of open files. The last clause says that no entry of the header past
`numSectors` is ever consulted. -/
theorem read_write_law (d : Disk) (h : FileHeader) (hv : h.Valid) (heap : Heap) (src : Buffer)
    (numBytes position : Int) (hp : 0 ≤ position) (ho : position + numBytes ≤ intMax) :
    (∃ d', writeAt d h heap src numBytes position = .ok (transferred h.fileLength numBytes position, d') ∧
      (∀ i : Nat, i < h.fileLength → h.content d' i =
        if position ≤ i ∧ i < position + transferred h.fileLength numBytes position
        then src (i - position.toNat) else h.content d i) ∧
      ∀ s, s ∉ h.blocks h.size → d' s = d s) ∧
    (∃ data, readAt d h (heap 0) numBytes position =
        .ok (transferred h.fileLength numBytes position, data) ∧
      ∀ k : Nat, k < transferred h.fileLength numBytes position →
        data k = h.content d (position.toNat + k)) ∧
    ∀ h', Agrees h h' →
      writeAt d h' heap src numBytes position = writeAt d h heap src numBytes position ∧
      readAt d h' (heap 0) numBytes position = readAt d h (heap 0) numBytes position :=
  ⟨writeAt_law d hv heap src numBytes position hp ho, readAt_law d hv (heap 0) numBytes position hp ho, fun _ ha =>
    ⟨writeAt_congr hv ha heap src hp ho, readAt_congr hv ha (heap 0) hp ho⟩⟩

def sampleHeader : FileHeader := ⟨300, 2, fun i => if i.val = 0 then 5 else 6⟩

theorem sampleHeader_blocks : sampleHeader.size = 2 ∧ sampleHeader.blocks 2 = [5, 6] := by
  have hd : 1 < numDirect := by rw [numDirect_eq]; decide
  refine ⟨by decide, ?_⟩
  simp [FileHeader.blocks, List.range_succ, FileHeader.block, FileHeader.sector, sampleHeader, hd,
    Nat.zero_lt_of_lt hd]

theorem sampleHeader_valid : sampleHeader.Valid := by
  obtain ⟨hs, hb⟩ := sampleHeader_blocks
  have hd := numDirect_eq
  refine ⟨by decide, ?_, by omega, ?_, ?_, ?_⟩
  · rw [sectorSize_eq]
    decide
  · intro i hi
    have hlt : i < numDirect := by omega
    simp only [FileHeader.block, FileHeader.sector, sampleHeader, hlt, ↓reduceDIte]
    split_ifs <;> rfl
  · rw [hs, hb]
    decide
  · rw [hs, hb]
    decide

theorem read_write_law_sample :
    ∃ d', writeAt (fun _ _ => 0) sampleHeader (fun _ _ => 0) (fun _ => 7) 100 250 = .ok (50, d') ∧
      sampleHeader.content d' 250 = 7 := by
  obtain ⟨⟨d', he, hc, -⟩, -⟩ := read_write_law (fun _ _ => 0) sampleHeader sampleHeader_valid (fun _ _ => 0)
    (fun _ => 7) 100 250 (by decide) (by decide)
  have ht : transferred sampleHeader.fileLength 100 250 = 50 := by decide
  rw [ht] at he hc
  exact ⟨d', he, by simpa using hc 250 (by decide)⟩

end Nachos.OpenFile
