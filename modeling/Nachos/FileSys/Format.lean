import Nachos.FileSys.Fetch

namespace Nachos

open Disk CInt FileSystem Layout

theorem FileHeader.fetchFrom_ok (d : Disk) {s : Nat} (hs : s < Disk.numSectors) :
    FileHeader.fetchFrom d s = .ok (header d s) := by
  rw [fetchFrom, readSector_ok (by omega) (by omega)]
  rfl

theorem FileHeader.writeBack_ok (h : FileHeader) (d : Disk) {s : Nat} (hs : s < Disk.numSectors) :
    ∃ d', h.writeBack d s = .ok d' ∧ header d' s = h ∧ ∀ t, t ≠ s → d' t = d t := by
  refine ⟨_, writeSector_ok (by omega) (by omega) h.encode, ?_, fun t ht => ?_⟩
  · rw [header, Int.toNat_natCast, Function.update_self]
    exact (decode_congr (fun k hk => Buffer.copy_inside (by omega) (by omega))).trans h.decode_encode
  · exact Function.update_of_ne ht ..

namespace FileSystem

def opened (d : Disk) : FileSystem := ⟨⟨mapHeader d, 0⟩, ⟨dirHeader d, 0⟩⟩

theorem opened_mounted (d : Disk) : (opened d).Mounted d := ⟨rfl, rfl⟩

theorem opened_congr {d d' : Disk} (h0 : d' 0 = d 0) (h1 : d' 1 = d 1) : opened d' = opened d := by
  rw [opened, opened, mapHeader, mapHeader, dirHeader, dirHeader, header, header, header, header, h0, h1]

theorem mount_ok (d : Disk) : mount d = .ok (opened d) := by
  have h0 := FileHeader.fetchFrom_ok d (s := 0) (by decide)
  have h1 := FileHeader.fetchFrom_ok d (s := 1) (by decide)
  rw [mount, OpenFile.new, OpenFile.new, show freeMapSector = (0 : Nat) from rfl,
    show directorySector = (1 : Nat) from rfl, h0, h1]
  rfl

theorem marked_reserved (heap : Words) :
    ∃ b b', (BitMap.new Disk.numSectors heap).mark freeMapSector = .ok b ∧ b.mark directorySector = .ok b' ∧
      b'.numBits = Disk.numSectors ∧ b'.marked = {0, 1} := by
  have h0 : 0 < Disk.numSectors := by decide
  have h1 : 1 < Disk.numSectors := by decide
  refine ⟨_, _, BitMap.mark_eq (i := 0) h0, BitMap.mark_eq (i := 1) h1, rfl, ?_⟩
  rw [BitMap.marked_mark (by exact h1), BitMap.marked_mark (by exact h0), BitMap.marked_new]
  decide

theorem one_sector {n : Int} (h0 : 0 < n) (h1 : n ≤ 256) : divRoundUp n sectorSize = 1 := by
  rw [sectorSize_eq, divRoundUp_of_nonneg h0.le (by decide)]
  omega

theorem system_allocated {b : BitMap} (hb : b.numBits = Disk.numSectors) (hm : b.marked = {0, 1})
    (m f : FileHeader) :
    ∃ mapHdr b1 dirHdr b2, m.allocate b freeMapFileSize = .ok (true, mapHdr, b1) ∧
      f.allocate b1 directoryFileSize = .ok (true, dirHdr, b2) ∧ b2.numBits = Disk.numSectors ∧
      mapHdr.Valid ∧ mapHdr.fileLength = freeMapFileSize ∧ dirHdr.Valid ∧ dirHdr.fileLength = directoryFileSize ∧
      (0 :: 1 :: (dataSectors mapHdr ++ dataSectors dirHdr)).Nodup ∧
      ∀ s, s ∈ b2.marked ↔ s ∈ 0 :: 1 :: (dataSectors mapHdr ++ dataSectors dirHdr) := by
  have hn : Disk.numSectors = 1024 := by decide
  have hmax := maxFileSize_eq
  have hfs := freeMapFileSize_eq
  have hds := directoryFileSize_eq
  have hc := b.numClear_add_card
  rw [hm, hb, show ({0, 1} : Finset Nat).card = 2 by decide] at hc
  have hone : divRoundUp freeMapFileSize sectorSize = 1 := one_sector (by omega) (by omega)
  have hone' : divRoundUp directoryFileSize sectorSize = 1 := one_sector (by omega) (by omega)
  obtain ⟨mapHdr, b1, he, hl, hs, ha⟩ := m.allocate_of_room b (by omega) freeMapFileSize
    (by omega) (by omega) (by omega)
  have hb1 : b1.numBits = Disk.numSectors := ha.numBits.trans hb
  have hc1 := b1.numClear_add_card
  have hcard : b1.marked.card = 3 := by
    rw [ha.marked, Finset.card_union_of_disjoint, List.toFinset_card_of_nodup ha.nodup, hm]
    · simp [FileHeader.blocks, FileHeader.size, hs, hone]
    · exact Finset.disjoint_right.mpr (fun s hs => ha.fresh s (List.mem_toFinset.mp hs))
  obtain ⟨dirHdr, b2, he', hl', hs', ha'⟩ := f.allocate_of_room b1 (by omega) directoryFileSize
    (by omega) (by omega) (by omega)
  refine ⟨mapHdr, b1, dirHdr, b2, he, he', ha'.numBits.trans hb1, ha.valid hb (by omega) (by omega) hl hs, hl,
    ha'.valid hb1 (by omega) (by omega) hl' hs', hl', ?_, ?_⟩
  · have hfresh := ha.fresh
    have hfresh' := ha'.fresh
    simp only [ha.marked, hm, Finset.mem_union, Finset.mem_insert, Finset.mem_singleton, List.mem_toFinset,
      not_or] at hfresh hfresh'
    simp only [List.nodup_cons, List.mem_cons, List.mem_append, not_or]
    refine ⟨⟨by decide, fun h => (hfresh 0 h).1 rfl, fun h => (hfresh' 0 h).1.1 rfl⟩,
      ⟨fun h => (hfresh 1 h).2 rfl, fun h => (hfresh' 1 h).1.2 rfl⟩, ?_⟩
    exact List.Nodup.append ha.nodup ha'.nodup (fun s h h' => (hfresh' s h').2 h)
  · intro s
    simp only [ha'.marked, ha.marked, hm, Finset.mem_union, Finset.mem_insert, Finset.mem_singleton,
      List.mem_toFinset, List.mem_cons, List.mem_append, dataSectors]
    tauto

theorem format_ok (d : Disk) (heap : Heap) :
    ∃ d', format d heap = .ok (opened d', d') ∧ Consistent d' ∧ ∀ i, ¬InUse d' i := by
  obtain ⟨b, b0, hmark, hmark', hb, hm⟩ := marked_reserved (heapWords (heap 0))
  obtain ⟨mapHdr, b1, dirHdr, b2, ha, ha', hb2, hmv, hml, hdv, hdl, hnodup, hmarked⟩ :=
    system_allocated hb hm (FileHeader.decode (heap 2)) (FileHeader.decode (heap 3))
  obtain ⟨d1, hw, hh, hf⟩ := mapHdr.writeBack_ok d (s := 0) (by decide)
  obtain ⟨d2, hw', hh', hf'⟩ := dirHdr.writeBack_ok d1 (s := 1) (by decide)
  change mapHdr.writeBack d freeMapSector = _ at hw
  change dirHdr.writeBack d1 directorySector = _ at hw'
  have hmap : mapHeader d2 = mapHdr := by rw [mapHeader, header, hf' 0 (by decide)]; exact hh
  have hdir : dirHeader d2 = dirHdr := hh'
  have hs : System d2 := ⟨hmap ▸ hmv, hmap ▸ hml, hdir ▸ hdv, hdir ▸ hdl, by rwa [system, hmap, hdir]⟩
  obtain ⟨d3, d', hfl, hfl', hflushed⟩ := flush_freeMap_first hs (opened_mounted d2) (Directory.new numDirEntries (heap 1))
    b2 hb2 (heap.after 4) (heap.after 7)
  obtain ⟨h0, h1⟩ := hflushed.system hs
  obtain ⟨hmap', hdir', hs'⟩ := hs.congr h0 h1
  have hempty (i) : ¬InUse d' i := by simp [InUse, hflushed.directory, Directory.new, DirectoryEntry.release]
  refine ⟨d', ?_, ?_, hempty⟩
  · rw [format, hmark, ok_bind, hmark', ok_bind, ha, ok_bind]
    dsimp only
    rw [assert_pos rfl, ok_bind, ha', ok_bind]
    dsimp only
    rw [assert_pos rfl, ok_bind, hw, ok_bind, hw', ok_bind, mount_ok, ok_bind, hfl, ok_bind, hfl', ok_bind,
      opened_congr h0 h1]
  · refine ⟨hs', ?_, ?_, ?_, ?_, ?_, ?_, ?_⟩
    · exact fun i _ hi => absurd hi (hempty i)
    · exact fun i hi => absurd hi (hempty i)
    · exact fun i hi => absurd hi (hempty i)
    · exact fun i hi => absurd hi (hempty i)
    · exact fun i hi => absurd hi (hempty i)
    · exact fun i _ hi => absurd hi (hempty i)
    · intro s
      rw [hflushed.marked, hmarked, system, hmap', hdir', hmap, hdir]
      refine ⟨.inl, fun h => h.resolve_right ?_⟩
      rintro ⟨i, hi, -⟩
      exact hempty i hi

end FileSystem

end Nachos
