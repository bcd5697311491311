import Nachos.FileSys.Layout

namespace Nachos

open Disk CInt FileSystem Layout

theorem OpenFile.transferred_front {h : FileHeader} {n : Nat} (hn : n ≤ h.fileLength) :
    OpenFile.transferred h.fileLength n 0 = n := by
  rw [OpenFile.transferred]
  split_ifs <;> omega

theorem OpenFile.readAt_front {d : Disk} {h : FileHeader} (hv : h.Valid) (heap : Buffer) {n : Nat}
    (hn : n ≤ h.fileLength) :
    ∃ data, OpenFile.readAt d h heap n 0 = .ok ((n : Int), data) ∧ ∀ k < n, data k = h.content d k := by
  have hl := (toInt_range h.numBytes).2
  have hn' : n ≤ h.numBytes.toInt := hn
  obtain ⟨data, he, hd⟩ := OpenFile.readAt_law d hv heap n 0 (by omega) (by omega)
  rw [transferred_front hn] at he hd
  exact ⟨data, he, fun k hk => by simpa using hd k (by omega)⟩

theorem OpenFile.writeAt_front {d : Disk} {h : FileHeader} (hv : h.Valid) (heap : Heap) (src : Buffer)
    {n : Nat} (hn : n ≤ h.fileLength) :
    ∃ d', OpenFile.writeAt d h heap src n 0 = .ok ((n : Int), d') ∧
      (∀ k < n, h.content d' k = src k) ∧ ∀ s, s ∉ dataSectors h → d' s = d s := by
  have hl := (toInt_range h.numBytes).2
  have hn' : n ≤ h.numBytes.toInt := hn
  obtain ⟨d', he, hd, ho⟩ := OpenFile.writeAt_law d hv heap src n 0 (by omega) (by omega)
  rw [transferred_front hn] at he hd
  refine ⟨d', he, fun k hk => ?_, ho⟩
  rw [hd k (by omega), if_pos (by omega)]
  rfl

theorem BitMap.numWords_sectors {b : BitMap} (hb : b.numBits = Disk.numSectors) : b.numWords = 32 := by
  rw [numWords, hb]
  decide

theorem BitMap.size_eq (b : BitMap) : (b.numWords : Int) * sizeofInt = (4 * b.numWords : Nat) := by
  rw [Nat.cast_mul, mul_comm]
  rfl

theorem BitMap.fetchFrom_ok {d : Disk} {file : OpenFile} (hv : file.hdr.Valid) (b : BitMap)
    (hl : (4 * b.numWords : Nat) ≤ file.hdr.fileLength) (heap : Buffer) :
    ∃ b', b.fetchFrom d file heap = .ok b' ∧ b'.numBits = b.numBits ∧
      ∀ w < b.numWords, b'.map w = Buffer.wordAt (file.hdr.content d) (4 * w) := by
  obtain ⟨data, he, hd⟩ := OpenFile.readAt_front (d := d) hv heap hl
  rw [fetchFrom, size_eq, he]
  refine ⟨_, rfl, rfl, fun w hw => ?_⟩
  apply Buffer.wordAt_congr
  intro k hk
  rw [Buffer.copy_inside (by omega) (by rw [Int.toNat_natCast]; omega)]
  exact hd (4 * w + k) (by omega)

theorem BitMap.writeBack_ok {d : Disk} {file : OpenFile} (hv : file.hdr.Valid) (b : BitMap)
    (hl : (4 * b.numWords : Nat) ≤ file.hdr.fileLength) (heap : Heap) :
    ∃ d', b.writeBack d file heap = .ok d' ∧
      (∀ k < 4 * b.numWords, file.hdr.content d' k = Buffer.ofWords b.map k) ∧
      ∀ s, s ∉ dataSectors file.hdr → d' s = d s := by
  obtain ⟨d', he, hd, ho⟩ := OpenFile.writeAt_front (d := d) hv heap (Buffer.ofWords b.map) hl
  exact ⟨d', by rw [writeBack, size_eq, he]; rfl, hd, ho⟩

theorem Directory.fetchFrom_ok {d : Disk} {file : OpenFile} (hv : file.hdr.Valid)
    (hl : file.hdr.fileLength = directoryFileSize) (dir : Directory numDirEntries) (heap : Buffer) :
    dir.fetchFrom d file heap = .ok (decode (file.hdr.content d)) := by
  obtain ⟨data, he, hd⟩ := OpenFile.readAt_front (d := d) (n := 200) hv heap (hl.trans directoryFileSize_eq).ge
  have hs : (numDirEntries : Int) * DirectoryEntry.sizeof = (200 : Nat) := by decide
  rw [fetchFrom, hs, he]
  apply congrArg Except.ok
  apply decode_congr
  intro k hk
  have hk' : k < 200 := by simpa [numDirEntries, DirectoryEntry.sizeof] using hk
  rw [Buffer.copy_inside (by omega) (by rw [Int.toNat_natCast]; omega)]
  exact hd k hk'

theorem Directory.writeBack_ok {d : Disk} {file : OpenFile} (hv : file.hdr.Valid)
    (hl : file.hdr.fileLength = directoryFileSize) (dir : Directory numDirEntries) (heap : Heap) :
    ∃ d', dir.writeBack d file heap = .ok d' ∧ (∀ k < 200, file.hdr.content d' k = dir.encode k) ∧
      ∀ s, s ∉ dataSectors file.hdr → d' s = d s := by
  obtain ⟨d', he, hd, ho⟩ := OpenFile.writeAt_front (d := d) (n := 200) hv heap dir.encode
    (hl.trans directoryFileSize_eq).ge
  have hs : (numDirEntries : Int) * DirectoryEntry.sizeof = (200 : Nat) := by decide
  exact ⟨d', by rw [writeBack, hs, he]; rfl, hd, ho⟩

structure FileSystem.Mounted (fs : FileSystem) (d : Disk) : Prop where
  freeMapFile : fs.freeMapFile.hdr = mapHeader d
  directoryFile : fs.directoryFile.hdr = dirHeader d

namespace FileSystem

variable {fs : FileSystem} {d : Disk}

theorem fetchDirectory_ok (hc : System d) (hm : fs.Mounted d) (heap : Heap) :
    fs.fetchDirectory d heap = .ok (directory d) := by
  have hv := hc.dirValid
  have hl := hc.dirLength
  rw [← hm.directoryFile] at hv hl
  rw [fetchDirectory, Directory.fetchFrom_ok hv hl, hm.directoryFile]
  rfl

theorem fetchFreeMap_ok (hc : System d) (hm : fs.Mounted d) (heap : Heap) :
    ∃ b, fs.fetchFreeMap d heap = .ok b ∧ b.numBits = Disk.numSectors ∧ b.marked = (freeMap d).marked := by
  have hv := hc.mapValid
  have hl := hc.mapLength
  rw [← hm.freeMapFile] at hv hl
  have hwords := BitMap.numWords_sectors (b := .new Disk.numSectors (heapWords (heap 2))) rfl
  obtain ⟨b, he, hn, hw⟩ := BitMap.fetchFrom_ok (d := d) hv (.new Disk.numSectors (heapWords (heap 2)))
    (by rw [hwords]; exact (hl.trans freeMapFileSize_eq).ge) (heap 3)
  refine ⟨b, he, hn, (freeMap_marked hn (fun k hk => ?_)).symm⟩
  rw [Buffer.ofWords, hw _ (by omega), Buffer.byteOf_wordAt _ _ _ (by omega), hm.freeMapFile,
    Nat.div_add_mod]

theorem Mounted.congr {d' : Disk} (hm : fs.Mounted d) (h0 : d' 0 = d 0) (h1 : d' 1 = d 1) : fs.Mounted d' :=
  ⟨by rw [hm.freeMapFile, mapHeader, mapHeader, header, header, h0],
    by rw [hm.directoryFile, dirHeader, dirHeader, header, header, h1]⟩

end FileSystem

namespace Layout

variable {d d' : Disk}

def mapData (d : Disk) : List Nat := dataSectors (mapHeader d)
def dirData (d : Disk) : List Nat := dataSectors (dirHeader d)

theorem System.congr (hs : System d) (h0 : d' 0 = d 0) (h1 : d' 1 = d 1) :
    mapHeader d' = mapHeader d ∧ dirHeader d' = dirHeader d ∧ System d' := by
  have hm : mapHeader d' = mapHeader d := by rw [mapHeader, mapHeader, header, header, h0]
  have hd : dirHeader d' = dirHeader d := by rw [dirHeader, dirHeader, header, header, h1]
  refine ⟨hm, hd, ?_⟩
  constructor
  · rw [hm]; exact hs.mapValid
  · rw [hm]; exact hs.mapLength
  · rw [hd]; exact hs.dirValid
  · rw [hd]; exact hs.dirLength
  · rw [system, hm, hd]; exact hs.systemNodup

theorem System.apart (hs : System d) :
    0 ∉ mapData d ∧ 0 ∉ dirData d ∧ 1 ∉ mapData d ∧ 1 ∉ dirData d ∧ (mapData d).Disjoint (dirData d) := by
  have hn := hs.systemNodup
  simp only [system, List.nodup_cons, List.mem_cons, List.mem_append, not_or] at hn
  exact ⟨hn.1.2.1, hn.1.2.2, hn.2.1.1, hn.2.1.2, List.disjoint_of_nodup_append hn.2.2⟩

structure Flushed (d : Disk) (dir : Directory numDirEntries) (b : BitMap) (d' : Disk) : Prop where
  directory : directory d' = dir
  written : ∀ k < 200, (dirHeader d').content d' k = dir.encode k
  marked : (freeMap d').marked = b.marked
  frame : ∀ s, s ∉ mapData d → s ∉ dirData d → d' s = d s

section Flush

variable {fs : FileSystem} (hs : System d) (hm : fs.Mounted d) (dir : Directory numDirEntries) (b : BitMap)
include hs hm

theorem directory_written (heap : Heap) :
    ∃ d', dir.writeBack d fs.directoryFile heap = .ok d' ∧
      (∀ k < 200, (dirHeader d').content d' k = dir.encode k) ∧
      (∀ s, s ∉ dirData d → d' s = d s) ∧ d' 0 = d 0 ∧ d' 1 = d 1 := by
  obtain ⟨-, h0, -, h1, -⟩ := hs.apart
  have hv := hs.dirValid
  have hl := hs.dirLength
  rw [← hm.directoryFile] at hv hl
  obtain ⟨d', he, hc, ho⟩ := Directory.writeBack_ok (d := d) hv hl dir heap
  rw [hm.directoryFile] at hc ho
  refine ⟨d', he, ?_, ho, ho 0 h0, ho 1 h1⟩
  rwa [(hs.congr (ho 0 h0) (ho 1 h1)).2.1]

theorem freeMap_written (hb : b.numBits = Disk.numSectors) (heap : Heap) :
    ∃ d', b.writeBack d fs.freeMapFile heap = .ok d' ∧
      (∀ k < 128, (mapHeader d').content d' k = Buffer.ofWords b.map k) ∧
      (∀ s, s ∉ mapData d → d' s = d s) ∧ d' 0 = d 0 ∧ d' 1 = d 1 := by
  obtain ⟨h0, -, h1, -, -⟩ := hs.apart
  have hv := hs.mapValid
  have hl := hs.mapLength
  rw [← hm.freeMapFile] at hv hl
  have hwords := BitMap.numWords_sectors hb
  obtain ⟨d', he, hc, ho⟩ := BitMap.writeBack_ok (d := d) hv b
    (by rw [hwords]; exact (hl.trans freeMapFileSize_eq).ge) heap
  rw [hm.freeMapFile, hwords] at hc
  rw [hm.freeMapFile] at ho
  refine ⟨d', he, ?_, ho, ho 0 h0, ho 1 h1⟩
  rwa [(hs.congr (ho 0 h0) (ho 1 h1)).1]

theorem flush_directory_first (hb : b.numBits = Disk.numSectors) (heap heap' : Heap) :
    ∃ d1 d', dir.writeBack d fs.directoryFile heap = .ok d1 ∧
      b.writeBack d1 fs.freeMapFile heap' = .ok d' ∧ Flushed d dir b d' := by
  obtain ⟨d1, he, hdir, ho, h0, h1⟩ := directory_written hs hm dir heap
  obtain ⟨hmap, hdh, hs1⟩ := hs.congr h0 h1
  obtain ⟨d', he', hfree, ho', h0', h1'⟩ := freeMap_written hs1 (hm.congr h0 h1) b hb heap'
  rw [mapData, hmap] at ho'
  have hwritten (k) (hk : k < 200) : (dirHeader d').content d' k = dir.encode k := by
    rw [(hs1.congr h0' h1').2.1, ← hdir k hk]
    apply content_congr hs1.dirValid
    · intro s hmem
      rw [hdh] at hmem
      exact ho' s (fun hin => hs.apart.2.2.2.2 hin hmem)
    · rwa [len_eq (hs1.dirLength.trans directoryFileSize_eq)]
  exact ⟨d1, d', he, he', directory_eq hwritten, hwritten, freeMap_marked hb hfree,
    fun s hsm hsd => (ho' s hsm).trans (ho s hsd)⟩

theorem flush_freeMap_first (hb : b.numBits = Disk.numSectors) (heap heap' : Heap) :
    ∃ d1 d', b.writeBack d fs.freeMapFile heap = .ok d1 ∧
      dir.writeBack d1 fs.directoryFile heap' = .ok d' ∧ Flushed d dir b d' := by
  obtain ⟨d1, he, hfree, ho, h0, h1⟩ := freeMap_written hs hm b hb heap
  obtain ⟨hmap, hdh, hs1⟩ := hs.congr h0 h1
  obtain ⟨d', he', hdir, ho', h0', h1'⟩ := directory_written hs1 (hm.congr h0 h1) dir heap'
  rw [dirData, hdh] at ho'
  refine ⟨d1, d', he, he', directory_eq hdir, hdir, ?_, fun s hsm hsd => (ho' s hsd).trans (ho s hsm)⟩
  apply freeMap_marked hb
  intro k hk
  rw [(hs1.congr h0' h1').1, ← hfree k hk]
  apply content_congr hs1.mapValid
  · intro s hmem
    rw [hmap] at hmem
    exact ho' s (fun hin => hs.apart.2.2.2.2 hmem hin)
  · rwa [len_eq (hs1.mapLength.trans freeMapFileSize_eq)]

end Flush

theorem Flushed.system {dir : Directory numDirEntries} {b : BitMap} (hf : Flushed d dir b d') (hs : System d) :
    d' 0 = d 0 ∧ d' 1 = d 1 := by
  obtain ⟨h0, h0', h1, h1', -⟩ := hs.apart
  exact ⟨hf.frame 0 h0 h0', hf.frame 1 h1 h1'⟩

end Layout

end Nachos
