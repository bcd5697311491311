import Nachos.FileSys.Bounds

namespace Nachos

open Disk CInt

theorem Disk.writeSector_congr {d : Disk} {s : Int} {data data' : Buffer}
    (h : ∀ k < sectorSize, data k = data' k) : d.writeSector s data = d.writeSector s data' := by
  have hcopy : (d s.toNat).copy 0 data sectorSize = (d s.toNat).copy 0 data' sectorSize := by
    funext k
    by_cases hk : k < sectorSize
    · rw [Buffer.copy_inside (by omega) (by omega), Buffer.copy_inside (by omega) (by omega)]
      exact h _ (by omega)
    · rw [Buffer.copy_outside (by omega), Buffer.copy_outside (by omega)]
  rw [writeSector, writeSector, hcopy]

namespace OpenFile

variable {d : Disk} {h : FileHeader} {numBytes position : Int}

theorem writeSectors_bytes {first : Nat} {size : Int} {bytes bytes' : Buffer} {n : Nat} (hn : n ≤ numDirect)
    (hb : ∀ k < n * sectorSize, bytes k = bytes' k) :
    writeSectors d h first ⟨size, bytes⟩ n = writeSectors d h first ⟨size, bytes'⟩ n := by
  induction n with
  | zero => rfl
  | succ n ih =>
    have hw : wrap ((n : Int) * sectorSize) = (n * sectorSize : Nat) := by
      rw [← Nat.cast_mul]
      have hd := numDirect_eq
      apply wrap_of_range <;> simp only [sectorSize_eq, intMax] <;> omega
    have hload (d : Disk) (s : Int) :
        ((Block.mk size bytes).load (n * sectorSize : Nat) sectorSize >>= d.writeSector s) =
          ((Block.mk size bytes').load (n * sectorSize : Nat) sectorSize >>= d.writeSector s) := by
      simp only [Block.load]
      split_ifs with hfit
      · apply writeSector_congr
        intro k hk
        apply hb
        rw [Nat.add_mul, Nat.one_mul, Int.toNat_natCast]
        omega
      · rfl
    simp only [writeSectors, hw, hload]
    rw [ih (by omega) (fun k hk => hb k (hk.trans_le (Nat.mul_le_mul_right _ (by omega))))]

structure KeepsRest (h : FileHeader) (numBytes position : Int) : Prop where
  rest : ∀ d heap src, ∃ d',
    writeAt d h heap src numBytes position = .ok (transferred h.fileLength numBytes position, d') ∧
      ∀ i < h.size, ∀ o < sectorSize,
        ¬(position ≤ (i * sectorSize + o : Nat) ∧
          (i * sectorSize + o : Nat) < position + transferred h.fileLength numBytes position) →
        d' (h.block i) o = d (h.block i) o
  function : ∀ d src heap heap',
    writeAt d h heap src numBytes position = writeAt d h heap' src numBytes position

def WholeSectors (h : FileHeader) (numBytes position : Int) : Prop :=
  h.fileLength % sectorSize = 0 ∨ position + numBytes ≤ h.fileLength / sectorSize * sectorSize

theorem WholeSectors.last_le (hw : WholeSectors h numBytes position) (hv : h.Valid) {p n : Nat}
    (r : Request h numBytes position p n) : (p + n - 1) / sectorSize * sectorSize + sectorSize ≤ h.len := by
  have hp := r.position_eq
  have hn := r.pos
  have hc := r.count
  have hf := hv.fileLength_eq
  simp only [WholeSectors, sectorSize_eq] at *
  omega

theorem last_of_not_whole (hw : ¬WholeSectors h numBytes position) (hv : h.Valid) {p n : Nat}
    (r : Request h numBytes position p n) :
    p / sectorSize ≤ h.len / sectorSize ∧ (p + n - 1) / sectorSize = h.len / sectorSize ∧
      h.len ≤ h.len / sectorSize * sectorSize + (sectorSize - 1) := by
  have hp := r.position_eq
  have hn := r.pos
  have hc := r.count
  have hf := hv.fileLength_eq
  simp only [WholeSectors, sectorSize_eq] at *
  omega

theorem keepsRest_of_whole (hv : h.Valid) {p n : Nat} (r : Request h numBytes position p n)
    (ho : position + numBytes ≤ intMax) (hw : WholeSectors h numBytes position) :
    KeepsRest h numBytes position := by
  have hlast := hw.last_le hv r
  have hp := r.position_eq
  constructor
  · intro d heap src
    obtain ⟨d', he, hsectors, -⟩ := writeAt_sectors (d := d) hv r ho heap src
    rw [transferred_eq r]
    refine ⟨d', he, ?_⟩
    intro i hi o hos hout
    rw [hsectors i hi o hos]
    split_ifs with hab hl hr
    · rfl
    · have hm := Nat.mul_le_mul_right sectorSize (show i ≤ (p + n - 1) / sectorSize by omega)
      omega
    · omega
    · rfl
  · intro d src heap heap'
    obtain ⟨-, hlt⟩ := r.sectors_lt hv
    obtain ⟨bytes, he, hb, -⟩ := writeAt_buffer (d := d) hv r ho rfl rfl heap src
    obtain ⟨bytes', he', hb', -⟩ := writeAt_buffer (d := d) hv r ho rfl rfl heap' src
    have hcount : (p + n - 1) / sectorSize + 1 - p / sectorSize ≤ numDirect :=
      (Nat.sub_le _ _).trans (Nat.succ_le_of_lt (hlt.trans_le hv.size_le))
    rw [he, he', writeSectors_bytes hcount]
    intro k hk
    have hwidth := (span p r.pos).width
    rw [hb k hk (by omega), hb' k hk (by omega)]

theorem writeAt_count {heap : Heap} {src : Buffer} {n : Int} {d' : Disk}
    (hc : ¬(numBytes ≤ 0 ∨ position ≥ h.fileLength))
    (he : writeAt d h heap src numBytes position = .ok (n, d')) : n = clip h.fileLength numBytes position := by
  simp only [writeAt, if_neg hc, bind_eq_ok] at he
  obtain ⟨_, -, _, -, _, -, _, -, _, -, hr⟩ := he
  exact (Prod.mk.inj (Except.ok.inj hr)).1.symm

theorem not_keepsRest_of_overflow (hv : h.Valid) {p n : Nat} (r : Request h numBytes position p n)
    (hn : numBytes ≤ intMax) (ho : ¬position + numBytes ≤ intMax) : ¬KeepsRest h numBytes position := by
  have hp := r.position_eq
  have hfits := r.fits
  have hf := hv.fileLength_eq
  have hl := h.len_le
  intro hk
  obtain ⟨d', he, -⟩ := hk.rest (fun _ _ => 0) (fun _ _ => 0) fun _ => 0
  rw [transferred_eq r] at he
  obtain ⟨-, hesc⟩ := clip_escapes hv.length_nonneg ⟨by omega, by omega⟩ hn r.check (by omega)
  rw [← writeAt_count r.check he] at hesc
  omega

theorem not_keepsRest_of_unaligned (hv : h.Valid) {p n : Nat} (r : Request h numBytes position p n)
    (ho : position + numBytes ≤ intMax) (hw : ¬WholeSectors h numBytes position) :
    ¬KeepsRest h numBytes position := by
  obtain ⟨hfirst, hlast, hend⟩ := last_of_not_whole hw hv r
  obtain ⟨-, hlt⟩ := r.sectors_lt hv
  have hp := r.position_eq
  have hfits := r.fits
  have hS := sectorSize_pos
  intro hk
  obtain ⟨d', he, hrest⟩ := hk.rest (fun _ _ => 0) (fun _ _ => 1) fun _ => 0
  obtain ⟨d1, he1, hsectors, -⟩ := writeAt_sectors (d := fun _ _ => 0) hv r ho (fun _ _ => 1) fun _ => 0
  rw [he1] at he
  obtain ⟨-, rfl⟩ := Prod.mk.inj (Except.ok.inj he)
  have h0 := hrest (h.len / sectorSize) (by omega) (sectorSize - 1) (by omega) (by rw [transferred_eq r]; omega)
  rw [hsectors _ (by omega) _ (by omega), if_neg (by omega), if_pos hend] at h0
  exact absurd h0 (by decide)

theorem writeAt_keepsRest (hv : h.Valid) (hp : 0 ≤ position) (hl : position < h.fileLength) (h0 : 0 < numBytes)
    (hn : numBytes ≤ intMax) :
    KeepsRest h numBytes position ↔
      position + numBytes ≤ intMax ∧
        (h.fileLength % sectorSize = 0 ∨ position + numBytes ≤ h.fileLength / sectorSize * sectorSize) := by
  have r := request (h := h) hp h0 hl
  by_cases ho : position + numBytes ≤ intMax
  · by_cases hw : WholeSectors h numBytes position
    · exact iff_of_true (keepsRest_of_whole hv r ho hw) ⟨ho, hw⟩
    · exact iff_of_false (not_keepsRest_of_unaligned hv r ho hw) (fun hc => hw hc.2)
  · exact iff_of_false (not_keepsRest_of_overflow hv r hn ho) (fun hc => ho hc.1)

theorem writeAt_keepsRest_sample : sampleHeader.Valid ∧ KeepsRest sampleHeader 10 100 := by
  refine ⟨sampleHeader_valid, (writeAt_keepsRest sampleHeader_valid (by decide) (by decide) (by decide)
    (by decide)).mpr ⟨by decide, ?_⟩⟩
  rw [sectorSize_eq]
  decide

theorem writeAt_clobbers_rest : ¬KeepsRest sampleHeader 10 256 := by
  have r := request (h := sampleHeader) (show 0 ≤ 256 by decide) (show 0 < 10 by decide) (by decide)
  apply not_keepsRest_of_unaligned sampleHeader_valid r (by decide)
  rw [WholeSectors, sectorSize_eq]
  decide

end OpenFile

end Nachos
