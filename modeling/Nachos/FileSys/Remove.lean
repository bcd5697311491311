import Nachos.FileSys.Create

namespace Nachos

open Disk CInt FileSystem Layout

namespace Layout

structure Removed (d : Disk) (i : Fin numDirEntries) (d' : Disk) : Prop where
  inUse : InUse d i
  gone : ¬InUse d' i
  released : directory d' = (directory d).update i ((directory d).table i).release
  written : ∀ k < 200, (dirHeader d').content d' k = (directory d').encode k
  entry : ∀ j, j ≠ i → (directory d').table j = (directory d).table j
  kept : ∀ j, j ≠ i → InUse d j → Kept d d' j
  frame : ∀ s, s ∉ mapData d → s ∉ dirData d → d' s = d s
  system : d' 0 = d 0 ∧ d' 1 = d 1
  marked : (freeMap d').marked = (freeMap d).marked \ (fileSectors d i).toFinset
  consistent : Consistent d'

theorem deallocate_ok {d : Disk} (hc : Consistent d) {i : Fin numDirEntries} (hi : InUse d i) {b : BitMap}
    (hn : b.numBits = Disk.numSectors) (hb : b.marked = (freeMap d).marked) :
    ∃ b1 b2, (fileHeader d i).deallocate b = .ok b1 ∧ b1.clear (entrySector d i) = .ok b2 ∧
      b2.numBits = Disk.numSectors ∧ b2.marked = (freeMap d).marked \ (fileSectors d i).toFinset := by
  have hv := hc.valid i hi
  have hin (s) (hs : s ∈ dataSectors (fileHeader d i)) : s ∈ b.marked := by
    rw [hb]
    exact hc.file_marked hi (List.mem_cons_of_mem _ hs)
  obtain ⟨b1, he, hn1, hm1⟩ := FileHeader.deallocateSectors_spec (fileHeader d i).size hv.size_le hv.sector hin
    hv.nodup
  refine ⟨b1, _, he, BitMap.clear_eq (by rw [hn1, hn]; exact hc.entrySector_lt hi), hn1.trans hn, ?_⟩
  rw [BitMap.marked_clear, hm1, hb]
  ext s
  simp only [fileSectors, dataSectors, List.toFinset_cons, Finset.mem_erase, Finset.mem_sdiff,
    Finset.mem_insert, List.mem_toFinset, not_or]
  exact and_left_comm

theorem removed {fs : FileSystem} {d : Disk} (hc : Consistent d) (hm : fs.Mounted d) {i : Fin numDirEntries}
    (hi : InUse d i) {b : BitMap} (hn : b.numBits = Disk.numSectors)
    (hb : b.marked = (freeMap d).marked \ (fileSectors d i).toFinset) (heap heap' : Heap) :
    ∃ d1 d', b.writeBack d fs.freeMapFile heap = .ok d1 ∧
      ((directory d).update i ((directory d).table i).release).writeBack d1 fs.directoryFile heap' = .ok d' ∧
      Removed d i d' := by
  obtain ⟨d1, d', hw, hw', hfl⟩ := flush_freeMap_first hc.toSystem hm
    ((directory d).update i ((directory d).table i).release) b hn heap heap'
  obtain ⟨h0, h1⟩ := hfl.system hc.toSystem
  have hentry (j) (hj : j ≠ i) : (directory d').table j = (directory d).table j := by
    rw [hfl.directory, Directory.update_of_ne _ hj]
  have hgone : ¬InUse d' i := by simp [InUse, hfl.directory, Directory.update_self, DirectoryEntry.release]
  have hkept (j) (hji : j ≠ i) (hj : InUse d j) : Kept d d' j := by
    refine ⟨hentry j hji, fun t ht => ?_⟩
    obtain ⟨hm1, hm2⟩ := mem_system_data (fun hsys => hc.systemDisjoint j hj hsys ht)
    exact hfl.frame t hm1 hm2
  have hwritten (k) (hk : k < 200) : (dirHeader d').content d' k = (directory d').encode k := by
    rw [hfl.directory]
    exact hfl.written k hk
  refine ⟨d1, d', hw, hw', ⟨hi, hgone, hfl.directory, hwritten, hentry, hkept, hfl.frame, ⟨h0, h1⟩,
    hfl.marked.trans hb, ?_⟩⟩
  apply hc.change (i := i) h0 h1 _ hentry hkept (fun h => absurd h hgone)
  · intro t
    rw [hfl.marked, hb, Finset.mem_sdiff, hc.marked, List.mem_toFinset]
    constructor
    · rintro ⟨hsys | ⟨j, hj, hmem⟩, hnot⟩
      · exact .inl hsys
      · exact .inr (.inr ⟨j, by rintro rfl; exact hnot hmem, hj, hmem⟩)
    · rintro (hsys | ⟨h, -⟩ | ⟨j, hji, hj, hmem⟩)
      · exact ⟨.inl hsys, fun hmem => hc.systemDisjoint i hi hsys hmem⟩
      · exact absurd h hgone
      · exact ⟨.inr ⟨j, hj, hmem⟩, fun hmem' => hc.fileDisjoint j i hj hi hji hmem hmem'⟩
  · rw [hfl.directory]
    exact hc.unique.clear i

end Layout

namespace FileSystem

variable {fs : FileSystem} {d : Disk} (hc : Consistent d) (hm : fs.Mounted d) (heap : Heap) (name : Buffer)
include hc hm

theorem lookup_ok : fs.lookup d heap name = .ok ((directory d).find name) := by
  simp only [lookup, fetchDirectory_ok hc.toSystem hm, ok_bind]

theorem remove_cases :
    ((directory d).findIndex name = none ∧ fs.remove d heap name = .ok (false, d)) ∨
      ∃ d' i, (directory d).findIndex name = some i ∧ fs.remove d heap name = .ok (true, d') ∧
        Removed d i d' := by
  have hfetch := fetchDirectory_ok hc.toSystem hm heap
  cases hf : (directory d).findIndex name with
  | none =>
    refine .inl ⟨rfl, ?_⟩
    simp only [remove, hfetch, ok_bind, find_of_absent hf, ↓reduceIte]
  | some i =>
    right
    have hi : InUse d i := (Directory.findIndex_some hf).1
    obtain ⟨b, hb, hn, hbm⟩ := fetchFreeMap_ok hc.toSystem hm heap
    obtain ⟨b1, b2, hdealloc, hclear, hn2, hm2⟩ := deallocate_ok hc hi hn hbm
    obtain ⟨d1, d', hw, hw', hr⟩ := removed hc hm hi hn2 hm2 (heap.after 4) (heap.after 7)
    have hhdr : FileHeader.fetchFrom d (entrySector d i) = .ok (fileHeader d i) :=
      FileHeader.fetchFrom_ok d (hc.entrySector_lt hi)
    refine ⟨d', i, rfl, ?_, hr⟩
    simp only [remove, hfetch, ok_bind, find_of_inUse hc hf, Directory.remove, hf]
    rw [if_neg (by omega)]
    simp only [hhdr, hb, hdealloc, hclear, hw, hw', ok_bind]

theorem openFile_of_absent (hf : (directory d).findIndex name = none) :
    fs.openFile d heap name = .ok none := by
  simp only [openFile, lookup_ok hc hm, find_of_absent hf, ok_bind]
  rfl

theorem openFile_of_found {i : Fin numDirEntries} (hf : (directory d).findIndex name = some i) :
    fs.openFile d heap name = .ok (some ⟨fileHeader d i, 0⟩) := by
  have hi : InUse d i := (Directory.findIndex_some hf).1
  have hhdr : FileHeader.fetchFrom d (entrySector d i) = .ok (fileHeader d i) :=
    FileHeader.fetchFrom_ok d (hc.entrySector_lt hi)
  simp only [openFile, lookup_ok hc hm, find_of_inUse hc hf, ok_bind, OpenFile.new, hhdr]
  rw [if_pos (by omega)]

theorem openFile_cases :
    ((directory d).findIndex name = none ∧ fs.openFile d heap name = .ok none) ∨
      ∃ i, (directory d).findIndex name = some i ∧
        fs.openFile d heap name = .ok (some ⟨fileHeader d i, 0⟩) := by
  cases hf : (directory d).findIndex name with
  | none => exact .inl ⟨rfl, openFile_of_absent hc hm heap name hf⟩
  | some i => exact .inr ⟨i, rfl, openFile_of_found hc hm heap name hf⟩

end FileSystem

end Nachos
