import Nachos.FileSys.Entries
import Nachos.FileSys.Format

namespace Nachos

open Disk CInt FileSystem Layout

namespace Layout

def placement (m : Finset Nat) (n : Nat) : List Nat :=
  BitMap.firstClear Disk.numSectors m ::
    BitMap.firstFit Disk.numSectors (insert (BitMap.firstClear Disk.numSectors m) m) n

structure Created (d : Disk) (name : Buffer) (size : Int) (i : Fin numDirEntries) (d' : Disk) : Prop where
  absent : (directory d).findIndex name = none
  unused : ¬InUse d i
  inUse : InUse d' i
  key : ((directory d').table i).key = CString.key fileNameMaxLen name
  length : (fileHeader d' i).fileLength = size
  sectors : fileSectors d' i = placement (freeMap d).marked (divRoundUp size sectorSize).toNat
  fresh : ∀ s ∈ fileSectors d' i, s ∉ (freeMap d).marked
  added : (directory d).add name (entrySector d' i) = (true, directory d')
  written : ∀ k < 200, (dirHeader d').content d' k = (directory d').encode k
  entry : ∀ j, j ≠ i → (directory d').table j = (directory d).table j
  kept : ∀ j, InUse d j → Kept d d' j
  frame : ∀ s, s ∉ system d → s ≠ entrySector d' i → d' s = d s
  system : d' 0 = d 0 ∧ d' 1 = d 1
  marked : (freeMap d').marked = (freeMap d).marked ∪ (fileSectors d' i).toFinset
  consistent : Consistent d'

theorem Created.marked_sdiff {d d' : Disk} {name : Buffer} {size : Int} {i : Fin numDirEntries}
    (hcr : Created d name size i d') :
    (freeMap d').marked \ (fileSectors d' i).toFinset = (freeMap d).marked := by
  rw [hcr.marked, Finset.union_sdiff_right, Finset.sdiff_eq_self_iff_disjoint]
  exact Finset.disjoint_right.mpr (fun x hx => hcr.fresh x (List.mem_toFinset.mp hx))

theorem mem_system_data {d : Disk} {s : Nat} (hs : s ∉ system d) : s ∉ mapData d ∧ s ∉ dirData d := by
  simp only [system, List.mem_cons, List.mem_append, not_or] at hs
  exact hs.2.2

theorem find_of_inUse {d : Disk} (hc : Consistent d) {name : Buffer} {i : Fin numDirEntries}
    (hf : (directory d).findIndex name = some i) : (directory d).find name = entrySector d i := by
  simp only [Directory.find, hf]
  exact hc.sector i (Directory.findIndex_some hf).1

theorem find_of_absent {d : Disk} {name : Buffer} (hf : (directory d).findIndex name = none) :
    (directory d).find name = -1 := by simp only [Directory.find, hf]

theorem fill_inUse (e : DirectoryEntry) (name : Buffer) (s : Int) : (e.fill name s).inUse = true := rfl

theorem fill_sector (e : DirectoryEntry) (name : Buffer) {s : Nat} (hs : s < Disk.numSectors) :
    (e.fill name s).sector.toInt = s := by
  have hn : Disk.numSectors = 1024 := by decide
  exact toInt_ofInt (by omega) (by simp only [intMax]; omega)

theorem created {fs : FileSystem} {d : Disk} (hc : Consistent d) (hm : fs.Mounted d) {name : Buffer}
    {i : Fin numDirEntries} (habsent : (directory d).findIndex name = none) (hi : ¬InUse d i) {b b1 b2 : BitMap}
    (hb : b.marked = (freeMap d).marked) {s : Nat} (hs : s < Disk.numSectors) (hfree : s ∉ b.marked)
    (hadd : (directory d).add name s = (true, (directory d).update i (((directory d).table i).fill name s)))
    (hfirst : BitMap.firstClear Disk.numSectors b.marked = s) (hb1 : b1.marked = insert s b.marked) (hn1 : b1.numBits = Disk.numSectors) {h : FileHeader} (hv : h.Valid)
    (ha : FileHeader.Allocated b1 h.size h b2) (heap heap' : Heap) :
    ∃ d1 d2 d', h.writeBack d s = .ok d1 ∧
      ((directory d).update i (((directory d).table i).fill name s)).writeBack d1 fs.directoryFile heap = .ok d2 ∧
      b2.writeBack d2 fs.freeMapFile heap' = .ok d' ∧ Created d name h.fileLength i d' ∧ fileHeader d' i = h := by
  rw [hb] at hfree hb1 hfirst
  have hfresh (t) (ht : t ∈ s :: dataSectors h) : t ∉ (freeMap d).marked := by
    obtain rfl | ht := List.mem_cons.mp ht
    · exact hfree
    · have := ha.fresh t ht
      rw [hb1, Finset.mem_insert, not_or] at this
      exact this.2
  have hnodup : (s :: dataSectors h).Nodup := List.nodup_cons.mpr
    ⟨fun hmem => ha.fresh s hmem (by rw [hb1]; exact Finset.mem_insert_self ..), ha.nodup⟩
  have hne (t) (ht : t ∈ (freeMap d).marked) : t ≠ s := by rintro rfl; exact hfree ht
  obtain ⟨d1, hw, hh, hf⟩ := h.writeBack_ok d hs
  have h0 : d1 0 = d 0 := hf 0 (hne 0 (hc.system_marked (by simp [system])))
  have h1 : d1 1 = d 1 := hf 1 (hne 1 (hc.system_marked (by simp [system])))
  obtain ⟨hmap, hdir, hs1⟩ := hc.toSystem.congr h0 h1
  obtain ⟨d2, d', hw', hw'', hfl⟩ := flush_directory_first hs1 (hm.congr h0 h1)
    ((directory d).update i (((directory d).table i).fill name s)) b2 (ha.numBits.trans hn1) heap heap'
  have hframe (t) (ht : t ∉ system d) : d' t = d1 t := by
    obtain ⟨hm1, hm2⟩ := mem_system_data ht
    exact hfl.frame t (by rwa [mapData, hmap]) (by rwa [dirData, hdir])
  obtain ⟨h0', h1'⟩ := hfl.system hs1
  have hentry (j) (hj : j ≠ i) : (directory d').table j = (directory d).table j := by
    rw [hfl.directory, Directory.update_of_ne _ hj]
  have hself : (directory d').table i = ((directory d).table i).fill name s := by
    rw [hfl.directory, Directory.update_self]
  have hin : InUse d' i := by rw [InUse, hself, fill_inUse]
  have hsector : entrySector d' i = s := by
    rw [entrySector, hself, fill_sector _ _ hs, Int.toNat_natCast]
  have hheader : fileHeader d' i = h := by
    rw [fileHeader, hsector, header, hframe s (hc.fresh_of_clear hfree).1]
    exact hh
  have hsectors : fileSectors d' i = s :: dataSectors h := by rw [fileSectors, hsector, hheader]
  have hkept (j) (hj : InUse d j) : Kept d d' j := by
    refine ⟨hentry j (by rintro rfl; exact hi hj), fun t ht => ?_⟩
    rw [hframe t (fun hsys => hc.systemDisjoint j hj hsys ht), hf t (hne t (hc.file_marked hj ht))]
  have hmarked : (freeMap d').marked = (freeMap d).marked ∪ (fileSectors d' i).toFinset := by
    rw [hfl.marked, ha.marked, hb1, hsectors, List.toFinset_cons, Finset.insert_union, Finset.union_insert]
    rfl
  have hadded : (directory d).add name (entrySector d' i) = (true, directory d') := by
    rw [hsector, hadd, hfl.directory]
  have hwritten (k) (hk : k < 200) : (dirHeader d').content d' k = (directory d').encode k := by
    rw [hfl.directory]
    exact hfl.written k hk
  have hrest (t) (ht : t ∉ system d) (hts : t ≠ entrySector d' i) : d' t = d t := by
    rw [hframe t ht, hf t (hsector ▸ hts)]
  refine ⟨d1, d2, d', hw, hw', hw'', ⟨habsent, hi, hin, ?_, by rw [hheader], ?_, hsectors ▸ hfresh, hadded, hwritten,
    hentry, hkept, hrest, ⟨h0'.trans h0, h1'.trans h1⟩, hmarked, ?_⟩, hheader⟩
  · rw [hself, DirectoryEntry.key_fill]
  · rw [hsectors, placement, hfirst, ← hb1, ← hn1, ← hv.numSectors]
    exact congrArg _ ha.fit
  · apply hc.change (i := i) (h0'.trans h0) (h1'.trans h1) _ hentry (fun j _ hj => hkept j hj)
    · intro _
      refine ⟨by rw [hself, fill_sector _ _ hs, hsector], hheader ▸ hv, hsectors ▸ hnodup, fun t ht => ?_⟩
      obtain ⟨hsys, hfiles⟩ := hc.fresh_of_clear (hfresh t (hsectors ▸ ht))
      exact ⟨hsys, fun j _ hj => hfiles j hj⟩
    · intro t
      rw [hmarked, Finset.mem_union, hc.marked, List.mem_toFinset]
      constructor
      · rintro ((hsys | ⟨j, hj, hmem⟩) | hmem)
        · exact .inl hsys
        · exact .inr (.inr ⟨j, by rintro rfl; exact hi hj, hj, hmem⟩)
        · exact .inr (.inl ⟨hin, hmem⟩)
      · rintro (hsys | ⟨-, hmem⟩ | ⟨j, -, hj, hmem⟩)
        · exact .inl (.inl hsys)
        · exact .inr hmem
        · exact .inl (.inr ⟨j, hj, hmem⟩)
    · rw [hfl.directory]
      exact hc.unique.fill habsent i s

end Layout

namespace FileSystem

def Refused (d : Disk) (name : Buffer) (size : Int) : Prop :=
  (directory d).findIndex name ≠ none ∨ (∀ i, InUse d i) ∨
    (Disk.numSectors : Int) < (freeMap d).marked.card + 1 + divRoundUp size sectorSize

theorem create_cases {fs : FileSystem} {d : Disk} (hc : Consistent d) (hm : fs.Mounted d) (heap : Heap)
    (name : Buffer) {size : Int} (h0 : 0 ≤ size) (hmax : size ≤ maxFileSize) :
    (Refused d name size ∧ fs.create d heap name size = .ok (false, d)) ∨
      ∃ d' i, fs.create d heap name size = .ok (true, d') ∧ Created d name size i d' ∧
        ∀ j, (fileHeader d' i).size ≤ j → (fileHeader d' i).sector j = (FileHeader.decode (heap 4)).sector j := by
  have hfetch := fetchDirectory_ok hc.toSystem hm heap
  cases hf : (directory d).findIndex name with
  | some i =>
    left
    have hfind := find_of_inUse hc hf
    refine ⟨.inl (by simp [hf]), ?_⟩
    simp only [create, hfetch, ok_bind, hfind]
    rw [if_pos (by omega)]
  | none =>
    have hfind := find_of_absent hf
    obtain ⟨b, hb, hn, hbm⟩ := fetchFreeMap_ok hc.toSystem hm heap
    simp only [create, hfetch, ok_bind, hfind, hb, ne_eq, not_true_eq_false, ↓reduceIte]
    have hcount := b.numClear_add_card
    rw [hn, hbm] at hcount
    have hsize := (FileHeader.numSectors_range h0 hmax).1
    by_cases hclear : b.numClear = 0
    · refine .inl ⟨.inr (.inr (by omega)), ?_⟩
      rw [BitMap.find_of_full hclear]
      rfl
    obtain ⟨s, hs, hfree, hfirst, hfs⟩ := BitMap.find_of_clear (Nat.pos_of_ne_zero hclear)
    simp only [hfs]
    rw [if_neg (by omega)]
    cases hadd : (directory d).add name s with
    | mk added dir' =>
      cases added with
      | false =>
        refine .inl ⟨.inr (.inl (fun i => ?_)), rfl⟩
        by_contra hi
        have := Directory.add_of_free hf ⟨i, by simpa [InUse] using hi⟩ s
        rw [hadd] at this
        exact absurd this (by simp)
      | true =>
        obtain ⟨-, i, hi, rfl⟩ := Directory.add_true hadd
        have hb1 : BitMap.marked { b with map := b.map.mark s } = insert s b.marked := BitMap.marked_mark hs
        rw [hn] at hs hfirst
        by_cases hroom : divRoundUp size sectorSize ≤ BitMap.numClear { b with map := b.map.mark s }
        · right
          have hn' : Disk.numSectors = 1024 := by decide
          obtain ⟨h, b2, he, hl, hsz, ha⟩ := (FileHeader.decode (heap 4)).allocate_of_room
            { b with map := b.map.mark s } (by simp only [hn]; omega) size h0 hmax hroom
          obtain ⟨d1, d2, d', hw, hw', hw'', hcr, hheader⟩ := created (i := i) hc hm hf (by simp [InUse, hi]) hbm hs hfree
            hadd hfirst hb1 hn (ha.valid hn h0 hmax hl hsz) ha (heap.after 5) (heap.after 8)
          refine ⟨d', i, ?_, hl ▸ hcr, hheader ▸ FileHeader.allocate_rest he (by rw [FileHeader.size, hsz])⟩
          simp only [he, ok_bind, hw, hw', hw'', not_true_eq_false, ↓reduceIte]
        · have hcount1 := BitMap.numClear_add_card { b with map := b.map.mark s }
          rw [hb1, Finset.card_insert_of_notMem hfree, hbm] at hcount1
          change _ = b.numBits at hcount1
          refine .inl ⟨.inr (.inr (by omega)), ?_⟩
          obtain ⟨h, he⟩ := (FileHeader.decode (heap 4)).allocate_of_full { b with map := b.map.mark s }
            (Int.not_le.mp hroom)
          simp [he]

end FileSystem

end Nachos
