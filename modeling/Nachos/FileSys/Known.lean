import Nachos.FileSys.CreateRemove

namespace Nachos

open Disk CInt FileSystem Layout

namespace FileHeader

variable {h h' : FileHeader}

def Clobbers (h : FileHeader) (p n s k : Nat) : Prop :=
  0 < n ∧ ∃ j < h.size, p / sectorSize ≤ j ∧ j ≤ (p + n - 1) / sectorSize ∧ h.block j = s ∧
    h.len ≤ j * sectorSize + k

theorem encode_decode (b : Buffer) {k : Nat} (hk : k < sectorSize) : (decode b).encode k = b k := by
  have hd := numDirect_eq
  rw [sectorSize_eq] at hk
  have hw : (decode b).words (k / 4) = b.wordAt (4 * (k / 4)) := by
    rcases hq : k / 4 with _ | _ | i
    · rfl
    · rfl
    · have hi : i < numDirect := by omega
      simp only [words, decode, hi, ↓reduceDIte]
      congr 1
      omega
  rw [encode, Buffer.ofWords, hw, Buffer.byteOf_wordAt b _ _ (Nat.mod_lt _ (by omega)), Nat.div_add_mod]

end FileHeader

namespace OpenFile

variable {d : Disk} {h h' : FileHeader}

namespace Agrees

theorem refl (h : FileHeader) : Agrees h h := ⟨rfl, rfl, fun _ _ => rfl⟩

variable (ha : Agrees h h')
include ha

theorem size : h'.size = h.size := by rw [FileHeader.size, FileHeader.size, ha.numSectors]

theorem len : h'.len = h.len := by rw [FileHeader.len, FileHeader.len, ha.fileLength]

theorem block {i : Nat} (hi : i < h.size) : h'.block i = h.block i := by
  rw [FileHeader.block, FileHeader.block, ha.sector i hi]

theorem dataSectors : dataSectors h' = dataSectors h := by
  rw [Layout.dataSectors, Layout.dataSectors, ha.size]
  exact FileHeader.blocks_congr ha.sector

theorem clobbers {p n s k : Nat} : h'.Clobbers p n s k ↔ h.Clobbers p n s k := by
  simp only [FileHeader.Clobbers, ha.size, ha.len]
  refine and_congr_right fun _ => exists_congr fun j => and_congr_right fun hj => ?_
  rw [ha.block hj]

theorem encode {k : Nat} (hk : k < 8 + 4 * h.size) (hs : h.size ≤ numDirect) : h'.encode k = h.encode k := by
  have hd := numDirect_eq
  have hw : h'.words (k / 4) = h.words (k / 4) := by
    rcases hq : k / 4 with _ | _ | i
    · exact ha.numBytes
    · exact ha.numSectors
    · have hi : i < numDirect := by omega
      have hsec := ha.sector i (by omega)
      simp only [FileHeader.sector, hi, ↓reduceDIte] at hsec
      simp only [FileHeader.words, hi, ↓reduceDIte]
      exact BitVec.eq_of_toInt_eq hsec
  rw [FileHeader.encode, FileHeader.encode, Buffer.ofWords, Buffer.ofWords, hw]

end Agrees

theorem Agrees.of_valid (hv : h.Valid) (hv' : h'.Valid) (hl : h'.fileLength = h.fileLength)
    (hs : Layout.dataSectors h' = Layout.dataSectors h) : Agrees h h' := by
  have hnum : h'.numSectors = h.numSectors := BitVec.eq_of_toInt_eq (by rw [hv.numSectors, hv'.numSectors, hl])
  have hsize : h'.size = h.size := by rw [FileHeader.size, FileHeader.size, hnum]
  refine ⟨BitVec.eq_of_toInt_eq hl, hnum, fun i hi => ?_⟩
  rw [hv.sector i hi, hv'.sector i (hsize ▸ hi)]
  rw [Layout.dataSectors, Layout.dataSectors, hsize] at hs
  simp only [FileHeader.blocks, List.map_inj_left, List.mem_range] at hs
  rw [hs i hi]

theorem fileLength_le (hv : h.Valid) : h.fileLength ≤ maxFileSize := by
  have h1 := hv.len_le_size
  have h2 := Nat.mul_le_mul_right sectorSize hv.size_le
  rw [hv.fileLength_eq, maxFileSize]
  omega

variable {numBytes position : Int}

theorem readAt_within (d : Disk) (hv : h.Valid) (heap : Buffer) (hp : 0 ≤ position) (hn : numBytes ≤ maxFileSize) :
    ∃ data, readAt d h heap numBytes position = .ok (transferred h.fileLength numBytes position, data) ∧
      ∀ k : Nat, k < transferred h.fileLength numBytes position → data k = h.content d (position.toNat + k) := by
  have hl := fileLength_le hv
  have hm := maxFileSize_eq
  by_cases hc : numBytes ≤ 0 ∨ position ≥ h.fileLength
  · simp only [readAt, transferred, if_pos hc]
    exact ⟨_, rfl, fun k hk => by omega⟩
  · exact readAt_law d hv heap numBytes position hp (by simp only [intMax]; omega)

structure Written (h : FileHeader) (src : Buffer) (p n : Nat) (d d' : Disk) : Prop where
  fits : 0 < n → p + n ≤ h.len
  bytes : ∀ i < h.size, ∀ o < sectorSize, ¬h.Clobbers p n (h.block i) o → d' (h.block i) o =
    if p ≤ i * sectorSize + o ∧ i * sectorSize + o < p + n then src (i * sectorSize + o - p) else d (h.block i) o
  frame : ∀ s, s ∉ dataSectors h → d' s = d s

theorem writeAt_within (d : Disk) (hv : h.Valid) (heap : Heap) (src : Buffer) (hp : 0 ≤ position)
    (hn : numBytes ≤ maxFileSize) :
    ∃ (n : Nat) (d' : Disk), transferred h.fileLength numBytes position = n ∧
      writeAt d h heap src numBytes position = .ok ((n : Int), d') ∧ Written h src position.toNat n d d' := by
  have hl := fileLength_le hv
  have hm := maxFileSize_eq
  by_cases hc : numBytes ≤ 0 ∨ position ≥ h.fileLength
  · simp only [writeAt, transferred, if_pos hc]
    exact ⟨0, d, rfl, rfl, by omega, fun i _ o _ _ => by rw [if_neg (by omega)], fun _ _ => rfl⟩
  have r := request (h := h) hp (show 0 < numBytes by omega) (by omega)
  obtain ⟨d', he, hsectors, hframe⟩ := writeAt_sectors (d := d) hv r (by simp only [intMax]; omega) heap src
  refine ⟨_, d', transferred_eq r, he, fun _ => r.fits, fun i hi o ho hclob => ?_, hframe⟩
  have hpos := r.pos
  have hfits := r.fits
  rw [hsectors i hi o ho]
  by_cases hr : position.toNat ≤ i * sectorSize + o ∧ i * sectorSize + o < position.toNat +
      (min numBytes (h.fileLength - position)).toNat
  · rw [if_pos hr, if_neg ?_, if_neg (by omega)]
    simp only [sectorSize_eq] at *
    omega
  · rw [if_neg hr, ite_eq_left_iff, not_or, not_lt, not_lt, ite_eq_right_iff]
    intro hab hend
    exact absurd ⟨hpos, i, hi, by omega, by omega, rfl, hend⟩ hclob

end OpenFile

/-- The bytes of the disk, by sector and place, that do not depend on what uninitialised memory held. -/
abbrev Known := Nat → Nat → Prop

namespace Known

def content (known : Known) (h : FileHeader) (y : Nat) : Prop := known (h.block (y / sectorSize)) (y % sectorSize)

def written (known : Known) (h : FileHeader) (p n : Nat) : Known := fun s k =>
  (known s k ∧ ¬h.Clobbers p n s k) ∨ ∃ y, p ≤ y ∧ y < p + n ∧ h.block (y / sectorSize) = s ∧ y % sectorSize = k

def created (known : Known) (d : Disk) (sector : Nat) : Known := fun s k =>
  if s = sector then k < 8 + 4 * (header d sector).size else known s k

end Known

namespace OpenFile.Written

variable {h h' : FileHeader} {src : Buffer} {p n s k : Nat} {d d' d1 d1' : Disk} {known : Known}

theorem inside (hw : Written h src p n d d1) (hv : h.Valid) {y : Nat} (hy : p ≤ y) (hyn : y < p + n) :
    y < h.len ∧ y / sectorSize < h.size := by
  have hl := hw.fits (by omega)
  exact ⟨by omega, (Nat.div_lt_iff_lt_mul sectorSize_pos).mpr (lt_of_lt_of_le (by omega) hv.len_le_size)⟩

theorem place (hw : Written h src p n d d1) (hv : h.Valid) {i y : Nat} (hi : i < h.size) (hy : p ≤ y) (hyn : y < p + n)
    (hb : h.block (y / sectorSize) = h.block i) (hk : y % sectorSize = k) : y = i * sectorSize + k := by
  rw [← hv.block_inj (hw.inside hv hy hyn).2 hi hb, ← hk, Nat.div_add_mod']

theorem agree (hw : Written h src p n d d1) (hw' : Written h' src p n d' d1') (hh : Agrees h h') (hv : h.Valid)
    (hk : k < sectorSize) (hknown : known.written h p n s k) (hold : known s k → d' s k = d s k) :
    d1' s k = d1 s k := by
  by_cases hmem : s ∈ dataSectors h
  · obtain ⟨i, hi, rfl⟩ := FileHeader.mem_blocks.mp hmem
    have hclob : ¬h.Clobbers p n (h.block i) k := by
      obtain ⟨-, hnot⟩ | ⟨y, hy, hyn, hb, hyk⟩ := hknown
      · exact hnot
      · rintro ⟨-, j, hj, -, -, hji, hend⟩
        obtain rfl := hv.block_inj hj hi hji
        have hlt := (hw.inside hv hy hyn).1
        rw [hw.place hv hi hy hyn hb hyk] at hlt
        omega
    have hnew := hw'.bytes i (hh.size ▸ hi) k hk (by rwa [hh.clobbers, hh.block hi])
    rw [hh.block hi] at hnew
    rw [hnew, hw.bytes i hi k hk hclob]
    split_ifs with hr
    · rfl
    · obtain ⟨hs, -⟩ | ⟨y, hy, hyn, hb, hyk⟩ := hknown
      · exact hold hs
      · exact absurd (hw.place hv hi hy hyn hb hyk ▸ ⟨hy, hyn⟩) hr
  · rw [hw.frame s hmem, hw'.frame s (hh.dataSectors ▸ hmem)]
    obtain ⟨hs, -⟩ | ⟨y, hy, hyn, rfl, -⟩ := hknown
    · exact hold hs
    · exact absurd (FileHeader.Valid.block_mem (hw.inside hv hy hyn).2) hmem

end OpenFile.Written

namespace Layout

structure Alike (known : Known) (d d' : Disk) : Prop where
  special : d' 0 = d 0 ∧ d' 1 = d 1
  bitmap : ∀ k < 128, (mapHeader d).content d' k = (mapHeader d).content d k
  directory : ∀ k < 200, (dirHeader d).content d' k = (dirHeader d).content d k
  header : ∀ i, InUse d i → OpenFile.Agrees (fileHeader d i) (fileHeader d' i)
  bytes : ∀ s k, s ∉ system d → k < sectorSize → known s k → d' s k = d s k

variable {d d' d1 d1' : Disk} {known : Known}

theorem mapHeader_congr (h : d' 0 = d 0) : mapHeader d' = mapHeader d := by
  rw [mapHeader, mapHeader, Layout.header, Layout.header, h]

theorem dirHeader_congr (h : d' 1 = d 1) : dirHeader d' = dirHeader d := by
  rw [dirHeader, dirHeader, Layout.header, Layout.header, h]

theorem system_congr (h : d' 0 = d 0 ∧ d' 1 = d 1) : system d' = system d := by
  rw [system, system, mapHeader_congr h.1, dirHeader_congr h.2]

theorem bitmap_of_marked (hm : (freeMap d').marked = (freeMap d).marked) {k : Nat} (hk : k < 128) :
    (mapHeader d').content d' k = (mapHeader d).content d k := by
  have hn : Disk.numSectors = 1024 := by decide
  have hw : (freeMap d').map (k / 4) = (freeMap d).map (k / 4) := by
    apply BitVec.eq_of_getLsbD_eq
    intro j hj
    have ht := congrArg (32 * (k / 4) + j ∈ ·) hm
    have hlt : 32 * (k / 4) + j < Disk.numSectors := by omega
    simp only [BitMap.mem_marked, freeMap, hlt, true_and, Words.test_eq, eq_iff_iff] at ht
    rw [show (32 * (k / 4) + j) / 32 = k / 4 by omega, show (32 * (k / 4) + j) % 32 = j by omega] at ht
    exact Bool.eq_iff_iff.mpr ht
  have hb := congrArg (Buffer.byteOf · (k % 4)) hw
  simp only [freeMap] at hb
  rwa [Buffer.byteOf_wordAt _ _ _ (Nat.mod_lt _ (by omega)), Buffer.byteOf_wordAt _ _ _ (Nat.mod_lt _ (by omega)),
    Nat.div_add_mod] at hb

namespace Alike

theorem refl (known : Known) (d : Disk) : Alike known d d :=
  ⟨⟨rfl, rfl⟩, fun _ _ => rfl, fun _ _ => rfl, fun _ _ => .refl _, fun _ _ _ _ _ => rfl⟩

variable (ha : Alike known d d')
include ha

theorem marked_eq : (freeMap d').marked = (freeMap d).marked := by
  apply freeMap_marked rfl
  intro k hk
  rw [mapHeader_congr ha.special.1, ha.bitmap k hk, freeMap, Buffer.ofWords_wordAt]

theorem directory_eq : Layout.directory d' = Layout.directory d := by
  rw [Layout.directory, Layout.directory, dirHeader_congr ha.special.2]
  apply Directory.decode_congr
  intro k hk
  exact ha.directory k (by simpa [numDirEntries, DirectoryEntry.sizeof] using hk)

theorem inUse {i : Fin numDirEntries} : InUse d' i ↔ InUse d i := by rw [InUse, InUse, ha.directory_eq]

theorem entrySector (i : Fin numDirEntries) : entrySector d' i = entrySector d i := by
  rw [Layout.entrySector, Layout.entrySector, ha.directory_eq]

theorem fileSectors {i : Fin numDirEntries} (hi : InUse d i) : fileSectors d' i = fileSectors d i := by
  rw [Layout.fileSectors, Layout.fileSectors, ha.entrySector, (ha.header i hi).dataSectors]

theorem content (hc : Consistent d) {i : Fin numDirEntries} (hi : InUse d i) {y : Nat}
    (hy : y < (fileHeader d i).len) (hk : known.content (fileHeader d i) y) :
    (fileHeader d' i).content d' y = (fileHeader d i).content d y := by
  have hv := hc.valid i hi
  have hlt : y / sectorSize < (fileHeader d i).size :=
    (Nat.div_lt_iff_lt_mul sectorSize_pos).mpr (hy.trans_le hv.len_le_size)
  have hmem := List.mem_cons_of_mem (Layout.entrySector d i) (FileHeader.Valid.block_mem hlt)
  rw [FileHeader.content, FileHeader.content, (ha.header i hi).block hlt]
  exact ha.bytes _ _ (fun hs => hc.systemDisjoint i hi hs hmem) (Nat.mod_lt _ sectorSize_pos) hk

theorem refused (name : Buffer) (size : Int) : Refused d' name size ↔ Refused d name size := by
  simp only [Refused, ha.directory_eq, ha.inUse, ha.marked_eq]

theorem created {name : Buffer} {size : Int} {i i' : Fin numDirEntries} (hcr : Created d name size i d1)
    (hcr' : Created d' name size i' d1') :
    Alike (known.created d1 (Layout.entrySector d1 i)) d1 d1' := by
  have hsectors : Layout.fileSectors d1' i' = Layout.fileSectors d1 i := by
    rw [hcr'.sectors, hcr.sectors, ha.marked_eq]
  obtain ⟨hentry, hdata⟩ := List.cons.inj hsectors
  have hdir : Layout.directory d1' = Layout.directory d1 := by
    have hadd := hcr'.added
    rw [show Layout.entrySector d1' i' = Layout.entrySector d1 i from hentry, ha.directory_eq, hcr.added] at hadd
    exact (Prod.mk.inj hadd).2.symm
  have hfind := Directory.findIndex_unique hcr.consistent.unique hcr.inUse hcr.key
  have hfind' := Directory.findIndex_unique hcr'.consistent.unique hcr'.inUse hcr'.key
  rw [hdir] at hfind'
  obtain rfl : i = i' := Option.some.inj (hfind.symm.trans hfind')
  have hspecial : d1' 0 = d1 0 ∧ d1' 1 = d1 1 :=
    ⟨by rw [hcr'.system.1, hcr.system.1, ha.special.1], by rw [hcr'.system.2, hcr.system.2, ha.special.2]⟩
  have hmarked : (freeMap d1').marked = (freeMap d1).marked := by
    rw [hcr'.marked, hcr.marked, hsectors, ha.marked_eq]
  have hnew : OpenFile.Agrees (fileHeader d1 i) (fileHeader d1' i) :=
    .of_valid (hcr.consistent.valid i hcr.inUse) (hcr'.consistent.valid i hcr'.inUse)
      (hcr'.length.trans hcr.length.symm) hdata
  refine ⟨hspecial, fun k hk => ?_, fun k hk => ?_, fun j hj => ?_, fun s k hs hk hknown => ?_⟩
  · have hb := bitmap_of_marked hmarked hk
    rwa [mapHeader_congr hspecial.1] at hb
  · rw [hcr.written k hk, ← dirHeader_congr hspecial.2, hcr'.written k hk, hdir]
  · by_cases hji : j = i
    · exact hji ▸ hnew
    · have hju : InUse d j := by rwa [InUse, ← hcr.entry j hji]
      rw [(hcr.kept j hju).fileHeader, (hcr'.kept j (ha.inUse.mpr hju)).fileHeader]
      exact ha.header j hju
  · rw [system_congr hcr.system] at hs
    by_cases hse : s = Layout.entrySector d1 i
    · subst hse
      rw [Known.created, if_pos rfl] at hknown
      rw [← FileHeader.encode_decode (d1 _) hk, ← FileHeader.encode_decode (d1' _) hk]
      have he := hnew.encode hknown (hcr.consistent.valid i hcr.inUse).size_le
      rwa [fileHeader, fileHeader, show Layout.entrySector d1' i = _ from hentry] at he
    · rw [Known.created, if_neg hse] at hknown
      rw [hcr.frame s hs hse, hcr'.frame s (by rwa [system_congr ha.special]) (by rwa [show _ = _ from hentry])]
      exact ha.bytes s k hs hk hknown

theorem removed {i : Fin numDirEntries} (hr : Removed d i d1) (hr' : Removed d' i d1') : Alike known d1 d1' := by
  have hdir : Layout.directory d1' = Layout.directory d1 := by rw [hr.released, hr'.released, ha.directory_eq]
  have hspecial : d1' 0 = d1 0 ∧ d1' 1 = d1 1 :=
    ⟨by rw [hr'.system.1, hr.system.1, ha.special.1], by rw [hr'.system.2, hr.system.2, ha.special.2]⟩
  have hmarked : (freeMap d1').marked = (freeMap d1).marked := by
    rw [hr'.marked, hr.marked, ha.fileSectors hr.inUse, ha.marked_eq]
  refine ⟨hspecial, fun k hk => ?_, fun k hk => ?_, fun j hj => ?_, fun s k hs hk hknown => ?_⟩
  · have hb := bitmap_of_marked hmarked hk
    rwa [mapHeader_congr hspecial.1] at hb
  · rw [hr.written k hk, ← dirHeader_congr hspecial.2, hr'.written k hk, hdir]
  · have hji : j ≠ i := by rintro rfl; exact hr.gone hj
    have hju : InUse d j := by rwa [InUse, ← hr.entry j hji]
    rw [(hr.kept j hji hju).fileHeader, (hr'.kept j hji (ha.inUse.mpr hju)).fileHeader]
    exact ha.header j hju
  · rw [system_congr hr.system] at hs
    obtain ⟨hm, hd⟩ := mem_system_data hs
    rw [hr.frame s hm hd, hr'.frame s (by rwa [mapData, mapHeader_congr ha.special.1])
      (by rwa [dirData, dirHeader_congr ha.special.2])]
    exact ha.bytes s k hs hk hknown

theorem metadata {s : Nat} : Metadata d' s ↔ Metadata d s := by
  simp only [Metadata, system_congr ha.special, ha.inUse, ha.entrySector]

theorem written (hc : Consistent d) (hc' : Consistent d') {h h' : FileHeader} (hh : OpenFile.Agrees h h')
    (hv : h.Valid) (hv' : h'.Valid) (hmeta : ∀ s ∈ dataSectors h, ¬Metadata d s) (src : Buffer)
    {numBytes position : Int} (hp : 0 ≤ position) (hn : numBytes ≤ maxFileSize) (heap heap' : Heap) :
    ∃ (n : Nat) (d1 d1' : Disk), OpenFile.writeAt d h heap src numBytes position = .ok ((n : Int), d1) ∧
      OpenFile.writeAt d' h' heap' src numBytes position = .ok ((n : Int), d1') ∧
      Alike (known.written h position.toNat n) d1 d1' := by
  obtain ⟨n, d1, ht, he, hw⟩ := OpenFile.writeAt_within d hv heap src hp hn
  obtain ⟨n', d1', ht', he', hw'⟩ := OpenFile.writeAt_within d' hv' heap' src hp hn
  obtain rfl : n = n' := by rw [hh.fileLength] at ht'; exact Int.ofNat.inj (ht.symm.trans ht')
  have hm (s) (hs : Metadata d s) : d1 s = d s := hw.frame s (fun hmem => hmeta s hmem hs)
  have hm' (s) (hs : Metadata d' s) : d1' s = d' s :=
    hw'.frame s (fun hmem => hmeta s (hh.dataSectors ▸ hmem) (ha.metadata.mp hs))
  have hsystem (s) (hs : s ∈ system d) : d1 s = d s ∧ d1' s = d' s :=
    ⟨hm s (.inl hs), hm' s (.inl (by rwa [system_congr ha.special]))⟩
  obtain ⟨h0, h0'⟩ := hsystem 0 (by simp [system])
  obtain ⟨h1, h1'⟩ := hsystem 1 (by simp [system])
  refine ⟨n, d1, d1', he, he', ⟨by rw [h0, h0', ha.special.1], by rw [h1, h1', ha.special.2]⟩, fun k hk => ?_,
    fun k hk => ?_, fun j hj => ?_, fun s k hs hk hknown => ?_⟩
  · have hlen : k < (mapHeader d).len := by rwa [len_eq (hc.mapLength.trans freeMapFileSize_eq)]
    rw [mapHeader_frame hm, content_congr hc.mapValid (fun s hs => (hsystem s (by simp [system, hs])).2) hlen,
      content_congr hc.mapValid (fun s hs => (hsystem s (by simp [system, hs])).1) hlen, ha.bitmap k hk]
  · have hlen : k < (dirHeader d).len := by rwa [len_eq (hc.dirLength.trans directoryFileSize_eq)]
    rw [dirHeader_frame hm, content_congr hc.dirValid (fun s hs => (hsystem s (by simp [system, hs])).2) hlen,
      content_congr hc.dirValid (fun s hs => (hsystem s (by simp [system, hs])).1) hlen, ha.directory k hk]
  · have hju := (inUse_frame hm hc).mp hj
    rw [fileHeader_frame hm hc hju, fileHeader_frame hm' hc' (ha.inUse.mpr hju)]
    exact ha.header j hju
  · rw [system_frame hm] at hs
    exact hw.agree hw' hh hv hk hknown (ha.bytes s k hs hk)

end Alike

end Layout

end Nachos
