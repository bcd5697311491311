import Nachos.FileSys.ReadWriteLaw
import Nachos.FileSys.FileSystem

namespace Nachos

open Disk CInt FileSystem

namespace Layout

def header (d : Disk) (s : Nat) : FileHeader := FileHeader.decode (d s)

def mapHeader (d : Disk) : FileHeader := header d 0
def dirHeader (d : Disk) : FileHeader := header d 1

def directory (d : Disk) : Directory numDirEntries := Directory.decode ((dirHeader d).content d)

def freeMap (d : Disk) : BitMap :=
  ⟨Disk.numSectors, fun i => Buffer.wordAt ((mapHeader d).content d) (4 * i)⟩

variable (d : Disk) (i j : Fin numDirEntries)

def InUse : Prop := ((directory d).table i).inUse = true

def entrySector : Nat := ((directory d).table i).sector.toInt.toNat

def fileHeader : FileHeader := header d (entrySector d i)

def dataSectors (h : FileHeader) : List Nat := h.blocks h.size

def system : List Nat := 0 :: 1 :: (dataSectors (mapHeader d) ++ dataSectors (dirHeader d))

def fileSectors : List Nat := entrySector d i :: dataSectors (fileHeader d i)

structure System : Prop where
  mapValid : (mapHeader d).Valid
  mapLength : (mapHeader d).fileLength = freeMapFileSize
  dirValid : (dirHeader d).Valid
  dirLength : (dirHeader d).fileLength = directoryFileSize
  systemNodup : (system d).Nodup

structure Consistent : Prop extends System d where
  unique : (directory d).Unique
  sector : ∀ i, InUse d i → ((directory d).table i).sector.toInt = entrySector d i
  valid : ∀ i, InUse d i → (fileHeader d i).Valid
  fileNodup : ∀ i, InUse d i → (fileSectors d i).Nodup
  systemDisjoint : ∀ i, InUse d i → (system d).Disjoint (fileSectors d i)
  fileDisjoint : ∀ i j, InUse d i → InUse d j → i ≠ j → (fileSectors d i).Disjoint (fileSectors d j)
  marked : ∀ s, s ∈ (freeMap d).marked ↔ s ∈ system d ∨ ∃ i, InUse d i ∧ s ∈ fileSectors d i

variable {d : Disk} {d' : Disk} {i j : Fin numDirEntries}

theorem content_congr {h : FileHeader} (hv : h.Valid) (hd : ∀ s ∈ dataSectors h, d' s = d s) {k : Nat}
    (hk : k < h.len) : h.content d' k = h.content d k := by
  have hlt : k / sectorSize < h.size := (Nat.div_lt_iff_lt_mul sectorSize_pos).mpr (hk.trans_le hv.len_le_size)
  rw [FileHeader.content, FileHeader.content, hd _ (FileHeader.Valid.block_mem hlt)]

theorem freeMapFileSize_eq : freeMapFileSize = 128 := by decide

theorem directoryFileSize_eq : directoryFileSize = 200 := by decide

theorem len_eq {h : FileHeader} {n : Nat} (hl : h.fileLength = n) : h.len = n := by
  rw [FileHeader.len, hl, Int.toNat_natCast]

theorem directory_eq {dir : Directory numDirEntries}
    (hc : ∀ k < 200, (dirHeader d).content d k = dir.encode k) : directory d = dir := by
  rw [directory, ← Directory.decode_encode dir]
  apply Directory.decode_congr
  intro k hk
  exact hc k (by simpa [numDirEntries, DirectoryEntry.sizeof] using hk)

theorem freeMap_marked {b : BitMap} (hb : b.numBits = Disk.numSectors)
    (hc : ∀ k < 128, (mapHeader d).content d k = Buffer.ofWords b.map k) : (freeMap d).marked = b.marked := by
  have hn : Disk.numSectors = 1024 := by decide
  ext s
  simp only [BitMap.mem_marked, freeMap, hb, and_congr_right_iff, Words.test_eq]
  intro hs
  have hw : Buffer.wordAt ((mapHeader d).content d) (4 * (s / 32)) = b.map (s / 32) := by
    rw [← Buffer.wordAt_ofWords b.map]
    exact Buffer.wordAt_congr (fun k hk => hc _ (by omega))
  rw [hw]

def Metadata (d : Disk) (s : Nat) : Prop := s ∈ system d ∨ ∃ i, InUse d i ∧ s = entrySector d i

section Frame

variable (h : ∀ s, Metadata d s → d' s = d s)
include h

theorem mapHeader_frame : mapHeader d' = mapHeader d := by
  rw [mapHeader, mapHeader, header, header, h 0 (.inl (by simp [system]))]

theorem dirHeader_frame : dirHeader d' = dirHeader d := by
  rw [dirHeader, dirHeader, header, header, h 1 (.inl (by simp [system]))]

theorem system_frame : system d' = system d := by
  rw [system, system, mapHeader_frame h, dirHeader_frame h]

variable (hc : Consistent d)
include hc

theorem directory_frame : directory d' = directory d := by
  rw [directory, directory, dirHeader_frame h]
  apply Directory.decode_congr
  intro k hk
  apply content_congr hc.dirValid
  · intro s hs
    exact h s (.inl (by simp [system, hs]))
  · rw [len_eq (hc.dirLength.trans directoryFileSize_eq)]
    simpa [numDirEntries, DirectoryEntry.sizeof] using hk

theorem freeMap_frame : (freeMap d').marked = (freeMap d).marked := by
  apply freeMap_marked rfl
  intro k hk
  rw [mapHeader_frame h, freeMap, Buffer.ofWords_wordAt]
  apply content_congr hc.mapValid
  · intro s hs
    exact h s (.inl (by simp [system, hs]))
  · rwa [len_eq (hc.mapLength.trans freeMapFileSize_eq)]

theorem inUse_frame : InUse d' i ↔ InUse d i := by rw [InUse, InUse, directory_frame h hc]

theorem entrySector_frame : entrySector d' i = entrySector d i := by
  rw [entrySector, entrySector, directory_frame h hc]

theorem fileHeader_frame (hi : InUse d i) : fileHeader d' i = fileHeader d i := by
  rw [fileHeader, fileHeader, header, header, entrySector_frame h hc, h _ (.inr ⟨i, hi, rfl⟩)]

theorem fileSectors_frame (hi : InUse d i) : fileSectors d' i = fileSectors d i := by
  rw [fileSectors, fileSectors, entrySector_frame h hc, fileHeader_frame h hc hi]

theorem Consistent.frame : Consistent d' := by
  have hs := system_frame h
  have hi (i) : InUse d' i → InUse d i := (inUse_frame h hc).mp
  constructor
  · constructor
    · rw [mapHeader_frame h]; exact hc.mapValid
    · rw [mapHeader_frame h]; exact hc.mapLength
    · rw [dirHeader_frame h]; exact hc.dirValid
    · rw [dirHeader_frame h]; exact hc.dirLength
    · rw [hs]; exact hc.systemNodup
  · rw [directory_frame h hc]; exact hc.unique
  · intro i hu
    rw [directory_frame h hc, entrySector_frame h hc]
    exact hc.sector i (hi i hu)
  · intro i hu
    rw [fileHeader_frame h hc (hi i hu)]
    exact hc.valid i (hi i hu)
  · intro i hu
    rw [fileSectors_frame h hc (hi i hu)]
    exact hc.fileNodup i (hi i hu)
  · intro i hu
    rw [hs, fileSectors_frame h hc (hi i hu)]
    exact hc.systemDisjoint i (hi i hu)
  · intro i j hu hu' hne
    rw [fileSectors_frame h hc (hi i hu), fileSectors_frame h hc (hi j hu')]
    exact hc.fileDisjoint i j (hi i hu) (hi j hu') hne
  · intro s
    rw [freeMap_frame h hc, hs, hc.marked]
    apply or_congr Iff.rfl
    apply exists_congr
    intro i
    rw [inUse_frame h hc]
    exact and_congr_right (fun hu => by rw [fileSectors_frame h hc hu])

end Frame

theorem not_metadata (hc : Consistent d) (hi : InUse d i) {s : Nat} (hs : s ∈ dataSectors (fileHeader d i)) :
    ¬Metadata d s := by
  have hmem : s ∈ fileSectors d i := List.mem_cons_of_mem _ hs
  rintro (hsys | ⟨j, hj, rfl⟩)
  · exact hc.systemDisjoint i hi hsys hmem
  · by_cases hij : i = j
    · subst hij
      exact (List.nodup_cons.mp (hc.fileNodup i hi)).1 hs
    · exact hc.fileDisjoint i j hi hj hij hmem (List.mem_cons_self ..)

theorem mem_lt (hc : Consistent d) {s : Nat} (h : s ∈ system d ∨ ∃ i, InUse d i ∧ s ∈ fileSectors d i) :
    s < Disk.numSectors := (BitMap.mem_marked.mp ((hc.marked s).mpr h)).1

end Layout

end Nachos
