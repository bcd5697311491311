import Nachos.FileSys.OpenFile

namespace Nachos

open Disk CInt

structure FileHeader.Valid (h : FileHeader) : Prop where
  length_nonneg : 0 ≤ h.fileLength
  numSectors : h.numSectors.toInt = divRoundUp h.fileLength sectorSize
  size_le : h.size ≤ numDirect
  sector : ∀ i < h.size, h.sector i = h.block i
  bound : ∀ s ∈ h.blocks h.size, s < Disk.numSectors
  nodup : (h.blocks h.size).Nodup

namespace FileHeader

def content (h : FileHeader) (d : Disk) (i : Nat) : Byte := d (h.block (i / sectorSize)) (i % sectorSize)

variable {h : FileHeader}

def len (h : FileHeader) : Nat := h.fileLength.toNat

theorem Valid.fileLength_eq (hv : h.Valid) : h.fileLength = h.len := (Int.toNat_of_nonneg hv.length_nonneg).symm

theorem len_le (h : FileHeader) : (h.len : Int) ≤ intMax := by
  have hl := toInt_range h.numBytes
  simp only [len, fileLength, intMax] at *
  omega

theorem Valid.len_le_size (hv : h.Valid) : h.len ≤ h.size * sectorSize := by
  have hn := hv.numSectors
  have h0 := hv.length_nonneg
  rw [divRoundUp_of_nonneg h0 (by simp [sectorSize])] at hn
  simp only [len, size, sectorSize] at *
  omega

theorem Valid.block_mem {i : Nat} (hi : i < h.size) : h.block i ∈ h.blocks h.size :=
  mem_blocks.mpr ⟨i, hi, rfl⟩

theorem Valid.block_inj (hv : h.Valid) {i j : Nat} (hi : i < h.size) (hj : j < h.size)
    (he : h.block i = h.block j) : i = j := by
  have hinj := List.inj_on_of_nodup_map hv.nodup
  exact hinj (List.mem_range.mpr hi) (List.mem_range.mpr hj) he

theorem Allocated.valid {b b' : BitMap} {fileSize : Int} (ha : Allocated b h.size h b')
    (hb : b.numBits = Disk.numSectors) (h0 : 0 ≤ fileSize) (hm : fileSize ≤ maxFileSize)
    (hl : h.fileLength = fileSize) (hs : h.numSectors.toInt = divRoundUp fileSize sectorSize) : h.Valid := by
  obtain ⟨-, hu⟩ := numSectors_range h0 hm
  exact ⟨hl ▸ h0, hl ▸ hs, by rw [size, hs]; omega, ha.sector, hb ▸ ha.bound, ha.nodup⟩

theorem byteToSector_eq {i : Nat} (hi : i < numDirect) :
    h.byteToSector (wrap ((i : Int) * sectorSize)) = .ok (h.sector i) := by
  have hd := numDirect_eq
  have hw : wrap ((i : Int) * sectorSize) = (i : Int) * sectorSize := by
    apply wrap_of_range <;> simp only [sectorSize, intMax] <;> omega
  have he : divRoundDown ((i : Int) * sectorSize) sectorSize = i := by
    rw [divRoundDown, tdiv_of_nonneg (by simp only [sectorSize]; omega)]
    simp only [sectorSize]
    omega
  rw [byteToSector, hw, he, getSector_ok hi]

end FileHeader

namespace OpenFile

variable {d : Disk} {h : FileHeader}

theorem readSectors_spec (hv : h.Valid) (first : Nat) (buf : Block) (n : Nat)
    (hn : first + n ≤ h.size) (hb : (n : Int) * sectorSize ≤ buf.size) :
    ∃ bytes, readSectors d h first buf n = .ok ⟨buf.size, bytes⟩ ∧
      ∀ k < n * sectorSize, bytes k = h.content d (first * sectorSize + k) := by
  induction n with
  | zero => exact ⟨buf.bytes, rfl, by simp⟩
  | succ n ih =>
    have hd := numDirect_eq
    have hsize := hv.size_le
    obtain ⟨bytes, he, hc⟩ := ih (by omega) (by simp only [sectorSize] at *; push_cast at hb; omega)
    have hi : first + n < h.size := by omega
    have hsec := hv.sector _ hi
    have hlt := hv.bound _ (FileHeader.Valid.block_mem hi)
    have hw : wrap ((n : Int) * sectorSize) = (n * sectorSize : Nat) := by
      rw [wrap_of_range (by simp only [sectorSize]; omega) (by simp only [sectorSize, intMax]; omega)]
      rfl
    refine ⟨bytes.copy (n * sectorSize) (d (h.block (first + n))) sectorSize, ?_, ?_⟩
    · have hb2s := FileHeader.byteToSector_eq (h := h) (show first + n < numDirect by omega)
      rw [hsec, Nat.cast_add] at hb2s
      simp only [readSectors, he, ok_bind, hb2s, hw]
      rw [readSector_ok (by omega) (by omega), ok_bind, Block.store_of_fits (by omega)
        (by simp only [sectorSize] at *; push_cast at *; omega)]
      rfl
    · intro k hk
      by_cases hkn : k < n * sectorSize
      · rw [Buffer.copy_outside (.inl hkn)]
        exact hc k hkn
      · rw [Buffer.copy_inside (by omega) (by simp only [sectorSize] at *; omega), FileHeader.content]
        have h1 : (first * sectorSize + k) / sectorSize = first + n := by
          simp only [sectorSize] at *; omega
        have h2 : (first * sectorSize + k) % sectorSize = k - n * sectorSize := by
          simp only [sectorSize] at *; omega
        rw [h1, h2]

theorem writeSectors_spec (hv : h.Valid) (first : Nat) (buf : Block) (n : Nat)
    (hn : first + n ≤ h.size) (hb : (n : Int) * sectorSize ≤ buf.size) :
    ∃ d', writeSectors d h first buf n = .ok d' ∧
      (∀ i < n, ∀ o < sectorSize, d' (h.block (first + i)) o = buf.bytes (i * sectorSize + o)) ∧
      ∀ s, (∀ i < n, h.block (first + i) ≠ s) → d' s = d s := by
  induction n with
  | zero => exact ⟨d, rfl, by simp, fun _ _ => rfl⟩
  | succ n ih =>
    have hd := numDirect_eq
    have hsize := hv.size_le
    obtain ⟨d1, he, hin, hout⟩ := ih (by omega) (by simp only [sectorSize] at *; push_cast at hb; omega)
    have hi : first + n < h.size := by omega
    have hsec := hv.sector _ hi
    have hlt := hv.bound _ (FileHeader.Valid.block_mem hi)
    have hw : wrap ((n : Int) * sectorSize) = (n * sectorSize : Nat) := by
      rw [wrap_of_range (by simp only [sectorSize]; omega) (by simp only [sectorSize, intMax]; omega)]
      rfl
    refine ⟨Function.update d1 (h.block (first + n)) ((d1 (h.block (first + n))).copy 0
      (fun k => buf.bytes (n * sectorSize + k)) sectorSize), ?_, ?_, ?_⟩
    · have hb2s := FileHeader.byteToSector_eq (h := h) (show first + n < numDirect by omega)
      rw [hsec, Nat.cast_add] at hb2s
      simp only [writeSectors, he, ok_bind, hb2s, hw]
      rw [Block.load_of_fits (by omega) (by simp only [sectorSize] at *; push_cast at *; omega), ok_bind,
        writeSector_ok (by omega) (by omega)]
      rfl
    · intro i hi' o ho
      by_cases hin' : i = n
      · subst hin'
        rw [Function.update_self, Buffer.copy_inside (by omega) (by omega)]
        simp
      · have hne : h.block (first + i) ≠ h.block (first + n) := fun hc =>
          hin' (by have := hv.block_inj (by omega) (by omega) hc; omega)
        rw [Function.update_of_ne hne]
        exact hin i (by omega) o ho
    · intro s hs
      rw [Function.update_of_ne (hs n (by omega)).symm]
      exact hout s (fun i hi' => hs i (by omega))

structure Request (h : FileHeader) (numBytes position : Int) (p n : Nat) : Prop where
  position_eq : position = p
  pos : 0 < n
  count : (n : Int) = min numBytes (h.fileLength - position)
  fits : p + n ≤ h.len

theorem request {numBytes position : Int} (hp : 0 ≤ position) (hn : 0 < numBytes)
    (hl : position < h.fileLength) :
    Request h numBytes position position.toNat (min numBytes (h.fileLength - position)).toNat := by
  refine ⟨by omega, by omega, by omega, ?_⟩
  rw [FileHeader.len]
  omega

namespace Request

variable {numBytes position : Int} {p n : Nat}

theorem sectors_lt (r : Request h numBytes position p n) (hv : h.Valid) :
    p / sectorSize ≤ (p + n - 1) / sectorSize ∧ (p + n - 1) / sectorSize < h.size := by
  have hl := r.fits.trans hv.len_le_size
  have hp := r.pos
  exact ⟨Nat.div_le_div_right (by omega), (Nat.div_lt_iff_lt_mul sectorSize_pos).mpr (by omega)⟩

theorem clip_eq (r : Request h numBytes position p n) (ho : position + numBytes ≤ intMax) :
    clip h.fileLength numBytes position = n := by
  have hp := r.position_eq
  have hc := r.count
  have hn := r.pos
  have hl := toInt_range h.numBytes
  simp only [FileHeader.fileLength] at *
  rw [clip, wrap_of_range (by omega) ho, wrap_of_range (by omega) (by omega)]
  split_ifs <;> omega

theorem first_eq (r : Request h numBytes position p n) :
    divRoundDown position sectorSize = (p / sectorSize : Nat) := by
  rw [r.position_eq, divRoundDown, tdiv_of_nonneg (by omega)]
  rfl

theorem sum_eq (r : Request h numBytes position p n) : wrap (position + n) = (p + n : Nat) := by
  have hp := r.position_eq
  have hf := r.fits
  have hl := h.len_le
  rw [wrap_of_range (by omega) (by omega), hp]
  rfl

theorem last_eq (r : Request h numBytes position p n) :
    divRoundDown (wrap (wrap (position + n) - 1)) sectorSize = ((p + n - 1) / sectorSize : Nat) := by
  have hn := r.pos
  have hf := r.fits
  have hl := h.len_le
  rw [r.sum_eq, wrap_of_range (by omega) (by omega), divRoundDown, tdiv_of_nonneg (by omega)]
  push_cast [hn]
  congr 1
  omega

theorem check (r : Request h numBytes position p n) : ¬(numBytes ≤ 0 ∨ position ≥ h.fileLength) := by
  have hp := r.position_eq
  have hc := r.count
  have hn := r.pos
  omega

theorem span_eq {a b : Nat} (hab : a ≤ b) (hb : b < numDirect) :
    (1 + (b : Int) - a).toNat = b + 1 - a ∧
      wrap (wrap (1 + (b : Int) - a) * sectorSize) = ((b + 1 - a : Nat) : Int) * sectorSize := by
  have hd := numDirect_eq
  refine ⟨by omega, ?_⟩
  have he : 1 + (b : Int) - a = (b + 1 - a : Nat) := by omega
  rw [he, wrap_of_range (x := ((b + 1 - a : Nat) : Int)) (by omega) (by simp only [intMax]; omega),
    wrap_of_range (by simp only [sectorSize]; omega) (by simp only [intMax, sectorSize]; omega)]

theorem offset_eq {p : Nat} (hp : (p : Int) ≤ intMax) :
    wrap (p - wrap ((p / sectorSize : Nat) * (sectorSize : Int))) = (p % sectorSize : Nat) := by
  simp only [sectorSize, intMax] at *
  rw [wrap_of_range (x := ((p / 256 : Nat) : Int) * (256 : Nat)) (by omega) (by simp only [intMax]; omega),
    wrap_of_range (by omega) (by simp only [intMax]; omega)]
  omega

theorem position_le (r : Request h numBytes position p n) : (p : Int) ≤ intMax := by
  have hf := r.fits
  have hl := h.len_le
  omega

end Request

theorem readAt_request (hv : h.Valid) {numBytes position : Int} {p n : Nat}
    (r : Request h numBytes position p n) (ho : position + numBytes ≤ intMax) (heap : Buffer) :
    ∃ data, readAt d h heap numBytes position = .ok ((n : Int), data) ∧
      ∀ k < n, data k = h.content d (p + k) := by
  obtain ⟨hle, hlt⟩ := r.sectors_lt hv
  obtain ⟨hcount, hsize⟩ := Request.span_eq hle (hlt.trans_le hv.size_le)
  obtain ⟨bytes, hread, hbytes⟩ := readSectors_spec (d := d) hv (p / sectorSize)
    ⟨((p + n - 1) / sectorSize + 1 - p / sectorSize : Nat) * sectorSize, heap⟩
    ((p + n - 1) / sectorSize + 1 - p / sectorSize) (by omega) (le_refl _)
  refine ⟨fun k => bytes (p % sectorSize + k), ?_, ?_⟩
  · simp only [readAt, if_neg r.check, r.clip_eq ho, r.first_eq, r.last_eq, hcount, hsize]
    rw [Block.new_of_nonneg (by simp only [sectorSize]; omega), ok_bind, hread, ok_bind,
      show position = p from r.position_eq, Request.offset_eq r.position_le, Block.load_of_fits (by omega) ?_]
    · rfl
    · have hn := r.pos
      simp only [sectorSize]
      omega
  · intro k hk
    have hn := r.pos
    apply (hbytes (p % sectorSize + k) (by simp only [sectorSize]; omega)).trans
    congr 1
    simp only [sectorSize]
    omega

end OpenFile

end Nachos
