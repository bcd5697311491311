import Nachos.FileSys.CreateRemove
import Nachos.FileSys.Sequential
import Nachos.Lib.SlotTable

namespace Nachos

open Disk CInt FileSystem Layout
open Directory (nameKey)

def stringBuffer (s : String) : Buffer := OpenFile.bytesOf (s.toList.map fun c => .ofNat 8 c.toNat)

theorem FileHeader.Valid.len_le_maxFileSize {h : FileHeader} (hv : h.Valid) : h.len ≤ maxFileSize := by
  rw [maxFileSize]
  exact hv.len_le_size.trans (Nat.mul_le_mul_right _ hv.size_le)

namespace OpenFile

variable {h : FileHeader} {d d' : Disk}

theorem write_frame (hv : h.Valid) {heap : Heap} {src : Buffer} {q n : Nat} {count : Int} {f : OpenFile}
    (ho : (q : Int) + n ≤ intMax) (he : (⟨h, q⟩ : OpenFile).write d heap src n = .ok (count, d', f)) :
    ∀ s, s ∉ h.blocks h.size → d' s = d s := by
  obtain ⟨⟨m, d''⟩, hw, he⟩ := bind_eq_ok.mp he
  obtain ⟨-, he⟩ := Prod.mk.inj (Except.ok.inj he)
  obtain ⟨rfl, -⟩ := Prod.mk.inj he
  exact writeAt_frame hv (Int.natCast_nonneg q) (by omega) hw

theorem writeChunks_frame (hv : h.Valid) {heap : Nat → Heap} {cs : List (List Byte)} {q : Nat} {counts : List Int}
    {f : OpenFile} (hq : q ≤ h.len) (ho : (q : Int) + cs.flatten.length ≤ intMax)
    (he : writeChunks ⟨h, q⟩ d heap cs = .ok (counts, d', f)) : ∀ s, s ∉ h.blocks h.size → d' s = d s := by
  induction cs generalizing d q counts with
  | nil =>
    obtain ⟨-, he⟩ := Prod.mk.inj (Except.ok.inj he)
    obtain ⟨rfl, -⟩ := Prod.mk.inj he
    exact fun _ _ => rfl
  | cons c cs ih =>
    rw [List.flatten_cons, List.length_append] at ho
    obtain ⟨d₁, hw, -⟩ := write_law d hv (heap cs.length) (bytesOf c) (n := c.length) hq (by omega)
    rw [writeChunks, hw, ok_bind] at he
    obtain ⟨⟨counts', d₂, f'⟩, hws, he⟩ := bind_eq_ok.mp he
    obtain ⟨-, he⟩ := Prod.mk.inj (Except.ok.inj he)
    obtain ⟨rfl, rfl⟩ := Prod.mk.inj he
    intro s hs
    rw [ih (q := q + min c.length (h.len - q)) (by omega) (by omega) hws s hs, write_frame hv (by omega) hw s hs]

end OpenFile

namespace FileSystem

def transferSize : Nat := 10

def chunks (n : Nat) : Nat → List Byte → List (List Byte)
  -- what `fread` puts in a buffer of `n` bytes, round after round
  | 0, _ => []
  | rounds + 1, bytes => if bytes = [] then [] else bytes.take n :: chunks n rounds (bytes.drop n)

def copy (fs : FileSystem) (d : Disk) (heap : Nat → Heap) (contents : List Byte) (toName : Buffer) :
    Except Fault (Bool × Disk) := do
  let (success, d) ← fs.create d (heap 0) toName contents.length
  if ¬success then .ok (false, d)
  else do
    let openFile ← fs.openFile d (heap 1) toName
    match openFile with
    | none => .error .assertion
    | some f => do
      let (_, d, _) ← OpenFile.writeChunks f d (fun k => heap (2 + k)) (chunks transferSize contents.length contents)
      .ok (true, d)

inductive Answer where
  | flag (success : Bool)
  | printed (contents : Option (List Byte))
  | running
  | tested (written read removed : Bool)
  deriving DecidableEq

def print (fs : FileSystem) (d : Disk) (heap : Nat → Heap) (name : Buffer) (fuel : Nat) : Except Fault Answer := do
  let openFile ← fs.openFile d (heap 0) name
  match openFile with
  | none => .ok (.printed none)
  | some f => do
    let contents ← OpenFile.readLoop d (fun k => heap (1 + k) 0) (fun _ => transferSize) fuel 0 f
    match contents with
    | none => .ok .running
    | some bytes => .ok (.printed (some bytes))

def fileName : Buffer := stringBuffer "TestFile"

def testContents : Buffer := stringBuffer "1234567890"

def contentSize : Nat := 10

def fileSize : Nat := contentSize * 5000

def writeRounds (f : OpenFile) (d : Disk) (heap : Nat → Heap) : Nat → Except Fault (Bool × Disk)
  | 0 => .ok (true, d)
  | rounds + 1 => do
    let (numBytes, d, f) ← f.write d (heap rounds) testContents contentSize
    if numBytes < 10 then .ok (false, d) else writeRounds f d heap rounds

def fileWrite (fs : FileSystem) (d : Disk) (heap : Nat → Heap) : Except Fault (Bool × Disk) := do
  let (success, d) ← fs.create d (heap 0) fileName 0
  if ¬success then .ok (false, d)
  else do
    let openFile ← fs.openFile d (heap 1) fileName
    match openFile with
    | none => .ok (false, d)
    | some f => writeRounds f d (fun k => heap (2 + k)) (fileSize / contentSize)

def readRounds (f : OpenFile) (d : Disk) (heap : Nat → Heap) : Nat → Except Fault Bool
  | 0 => .ok true
  | rounds + 1 => do
    let (numBytes, buffer, f) ← f.read d (heap rounds 0) contentSize
    if numBytes < 10 ∨ CString.strncmp buffer testContents contentSize ≠ 0 then .ok false else readRounds f d heap rounds

def fileRead (fs : FileSystem) (d : Disk) (heap : Nat → Heap) : Except Fault Bool := do
  let openFile ← fs.openFile d (heap 0) fileName
  match openFile with
  | none => .ok false
  | some f => readRounds f d (fun k => heap (1 + k)) (fileSize / contentSize)

def performanceTest (fs : FileSystem) (d : Disk) (heap : Nat → Nat → Heap) : Except Fault (Answer × Disk) := do
  let (written, d) ← fs.fileWrite d (heap 0)
  let read ← fs.fileRead d (heap 1)
  let (removed, d) ← fs.remove d (heap 2 0) fileName
  .ok (.tested written read removed, d)

end FileSystem

theorem chunks_flatten {n rounds : Nat} {bytes : List Byte} (hn : 0 < n) (hl : bytes.length ≤ rounds) :
    (chunks n rounds bytes).flatten = bytes := by
  induction rounds generalizing bytes with
  | zero => rw [List.length_eq_zero_iff.mp (Nat.le_zero.mp hl)]; rfl
  | succ rounds ih =>
    rw [chunks]
    split_ifs with hb
    · rw [hb]
      rfl
    · have hpos := List.length_pos_iff.mpr hb
      rw [List.flatten_cons, ih, List.take_append_drop]
      rw [List.length_drop]
      omega

theorem readRounds_short {h : FileHeader} (hv : h.Valid) (d : Disk) (heap : Nat → Heap) {q rounds : Nat} (hq : q ≤ h.len)
    (hshort : h.len < q + 10 * rounds) : readRounds ⟨h, q⟩ d heap rounds = .ok false := by
  induction rounds generalizing q with
  | zero => omega
  | succ rounds ih =>
    have hlen := hv.len_le_maxFileSize
    rw [maxFileSize_eq] at hlen
    obtain ⟨data, hr, -⟩ := OpenFile.read_law d hv (heap rounds 0) (q := q) (n := contentSize) hq (by
      simp only [contentSize, intMax]
      omega)
    rw [readRounds, hr, ok_bind]
    dsimp only
    by_cases hend : h.len < q + 10
    · have hfew : ((min contentSize (h.len - q) : Nat) : Int) < 10 := by
        simp only [contentSize]
        omega
      rw [if_pos (.inl hfew)]
    · have hten : min contentSize (h.len - q) = 10 := by
        simp only [contentSize]
        omega
      rw [hten]
      split_ifs
      · rfl
      · exact ih (q := q + 10) (by omega) (by omega)

inductive Command where
  | copy (contents : List Byte) (toName : Buffer)
  | print (name : Buffer)
  | remove (name : Buffer)
  | performanceTest

namespace Command

def run (fuel : Nat) (d : Disk) (heap : Nat → Nat → Heap) (c : Command) : Except Fault (Answer × Disk) := do
  let fs ← mount d
  match c with
  | copy contents toName => do
    let (success, d) ← fs.copy d (heap 0) contents toName
    .ok (.flag success, d)
  | print name => do
    let answer ← fs.print d (heap 0) name fuel
    .ok (answer, d)
  | remove name => do
    let (success, d) ← fs.remove d (heap 0 0) name
    .ok (.flag success, d)
  | performanceTest => fs.performanceTest d heap

def runAll (fuel : Nat) (d : Disk) : List ((Nat → Nat → Heap) × Command) → Except Fault (List Answer × Disk)
  | [] => .ok ([], d)
  | (heap, c) :: cs => do
    let (answer, d) ← c.run fuel d heap
    let (answers, d) ← runAll fuel d cs
    .ok (answer :: answers, d)

end Command

namespace Layout

variable {d d' : Disk} {i j : Fin numDirEntries} {name : Buffer}

def fileContents (d : Disk) (i : Fin numDirEntries) : List Byte := OpenFile.fileBytes (fileHeader d i) d 0

def slots (d : Disk) (i : Fin numDirEntries) : Option (List Byte × List Byte) :=
  if ((directory d).table i).inUse then some (((directory d).table i).key, fileContents d i) else none

theorem slots_inUse (hi : InUse d i) : slots d i = some (((directory d).table i).key, fileContents d i) := if_pos hi

theorem slots_unused (hi : ¬InUse d i) : slots d i = none := if_neg hi

theorem inUse_of_slots {p : List Byte × List Byte} (h : slots d i = some p) :
    InUse d i ∧ ((directory d).table i).key = p.1 ∧ fileContents d i = p.2 := by
  by_cases hi : InUse d i
  · rw [slots_inUse hi] at h
    obtain rfl := Option.some.inj h
    exact ⟨hi, rfl, rfl⟩
  · rw [slots_unused hi] at h
    cases h

theorem fileContents_congr (hv : (fileHeader d i).Valid) (hh : fileHeader d' i = fileHeader d i)
    (hs : ∀ s ∈ dataSectors (fileHeader d i), d' s = d s) : fileContents d' i = fileContents d i := by
  rw [fileContents, fileContents, OpenFile.fileBytes_zero, OpenFile.fileBytes_zero, hh]
  apply List.map_congr_left
  intro k hk
  exact content_congr hv hs (List.mem_range.mp hk)

theorem Kept.slots (hk : Kept d d' j) (hc : Consistent d) (hj : InUse d j) : slots d' j = slots d j := by
  rw [slots_inUse hj, slots_inUse (hk.inUse.mpr hj), hk.entry,
    fileContents_congr (hc.valid j hj) hk.fileHeader fun s hs => hk.sectors s (List.mem_cons_of_mem _ hs)]

theorem system_length (hc : System d) : (system d).length = 4 := by
  have hmap := hc.mapValid.numSectors
  have hdir := hc.dirValid.numSectors
  have hfs := freeMapFileSize_eq
  have hds := directoryFileSize_eq
  rw [hc.mapLength, one_sector (by omega) (by omega)] at hmap
  rw [hc.dirLength, one_sector (by omega) (by omega)] at hdir
  simp [system, dataSectors, FileHeader.blocks, FileHeader.size, hmap, hdir]

theorem fileSectors_card (hv : (fileHeader d i).Valid) : (fileSectors d i).toFinset.card ≤ 63 := by
  have hsize := hv.size_le
  rw [numDirect_eq] at hsize
  refine (List.toFinset_card_le _).trans ?_
  simp only [fileSectors, dataSectors, FileHeader.blocks, List.length_cons, List.length_map, List.length_range]
  omega

end Layout

abbrev Store := BoundedMap.Map (List Byte) (List Byte)

structure Holds (d : Disk) (m : Store) : Prop where
  consistent : Consistent d
  represents : SlotTable.Represents (slots d) m

namespace Holds

variable {d d' : Disk} {m : Store} {i : Fin numDirEntries} {name : Buffer} (h : Holds d m)
include h

theorem absent_iff : (directory d).findIndex name = none ↔ nameKey name ∉ m := by
  rw [Directory.findIndex_none, h.represents.mem]
  constructor
  · rintro hall ⟨i, v, hi⟩
    obtain ⟨hu, hk, -⟩ := inUse_of_slots hi
    exact hall i hu hk
  · intro hn i hu hk
    exact hn ⟨i, fileContents d i, by rw [slots_inUse hu, hk]⟩

theorem lookup_found (hf : (directory d).findIndex name = some i) : m.lookup (nameKey name) = some (fileContents d i) := by
  obtain ⟨hu, hk⟩ := Directory.findIndex_some hf
  exact (h.represents.lookup _ _).mpr ⟨i, by rw [slots_inUse hu, hk]⟩

theorem removed (hf : (directory d).findIndex name = some i) (hr : Removed d i d') : Holds d' (m.erase (nameKey name)) := by
  obtain ⟨hu, hk⟩ := Directory.findIndex_some hf
  refine ⟨hr.consistent, ?_⟩
  have hs : slots d' = Function.update (slots d) i none := by
    funext j
    by_cases hj : j = i
    · subst hj
      rw [Function.update_self, slots_unused hr.gone]
    · rw [Function.update_of_ne hj]
      by_cases hju : InUse d j
      · exact (hr.kept j hj hju).slots h.consistent hju
      · rw [slots_unused hju, slots_unused]
        rwa [InUse, hr.entry j hj]
  rw [hs]
  exact h.represents.erase (v := fileContents d i) (by rw [slots_inUse hu, hk])

theorem remove_ok (heap : Heap) (name : Buffer) : ∃ d',
    (opened d).remove d heap name = .ok ((BoundedMap.perform numDirEntries m (.remove (nameKey name))).1, d') ∧
      Holds d' (BoundedMap.perform numDirEntries m (.remove (nameKey name))).2 := by
  rcases remove_cases h.consistent (opened_mounted d) heap name with ⟨hf, he⟩ | ⟨d', i, hf, he, hr⟩
  · have hk := h.absent_iff.mp hf
    simp only [BoundedMap.perform, if_neg hk]
    exact ⟨d, he, h⟩
  · have hk : nameKey name ∈ m := by
      by_contra hk
      rw [h.absent_iff.mpr hk] at hf
      cases hf
    simp only [BoundedMap.perform, if_pos hk]
    exact ⟨d', he, h.removed hf hr⟩

theorem print_ok (heap : Nat → Heap) (name : Buffer) {fuel : Nat} (hfuel : maxFileSize < fuel) :
    (opened d).print d heap name fuel = .ok (.printed (m.lookup (nameKey name))) := by
  rcases openFile_cases h.consistent (opened_mounted d) (heap 0) name with ⟨hf, he⟩ | ⟨i, hf, he⟩
  · rw [print, he, ok_bind, Finmap.lookup_eq_none.mpr (h.absent_iff.mp hf)]
  · have hv := h.consistent.valid i (Directory.findIndex_some hf).1
    have hlen := hv.len_le_maxFileSize
    have hpos : ∀ k : Nat, 0 < (fun _ : Nat => (transferSize : Int)) k := fun _ => show (0 : Int) < transferSize by decide
    have hloop := OpenFile.readLoop_law hv d (fun k => heap (1 + k) 0) hpos ?_ fuel (k := 0) (q := 0) (by simp [OpenFile.readSum]) (by omega)
    · rw [Nat.cast_zero] at hloop
      rw [print, he, ok_bind, h.lookup_found hf]
      change (OpenFile.readLoop d (fun k => heap (1 + k) 0) (fun _ => transferSize) fuel 0 ⟨fileHeader d i, 0⟩ >>= _) = _
      rw [hloop]
      rfl
    · intro k hk
      rw [maxFileSize_eq] at hlen
      rw [hv.fileLength_eq] at hk
      have hten : (transferSize : Int) = 10 := rfl
      rw [OpenFile.readSum_succ, hten]
      rw [hten] at hk
      simp only [intMax]
      omega

theorem marked_card : (freeMap d).marked.card ≤ 4 + m.keys.card * 63 := by
  have hc := h.consistent
  have hsub : (freeMap d).marked ⊆ (system d).toFinset ∪
      (Finset.univ.filter fun i => (slots d i).isSome = true).biUnion fun i => (fileSectors d i).toFinset := by
    intro s hs
    rw [Finset.mem_union, Finset.mem_biUnion]
    rcases (hc.marked s).mp hs with hsys | ⟨i, hi, hmem⟩
    · exact .inl (List.mem_toFinset.mpr hsys)
    · refine .inr ⟨i, Finset.mem_filter.mpr ⟨Finset.mem_univ i, ?_⟩, List.mem_toFinset.mpr hmem⟩
      rw [slots_inUse hi]
      rfl
  have hsystem : (system d).toFinset.card ≤ 4 := (List.toFinset_card_le _).trans (system_length hc.toSystem).le
  have hfiles : ((Finset.univ.filter fun i => (slots d i).isSome = true).biUnion
      fun i => (fileSectors d i).toFinset).card ≤ m.keys.card * 63 := by
    rw [h.represents.keys_card]
    apply Finset.card_biUnion_le_card_mul
    intro i hi
    obtain ⟨p, hp⟩ := Option.isSome_iff_exists.mp (Finset.mem_filter.mp hi).2
    exact fileSectors_card (hc.valid i (inUse_of_slots hp).1)
  calc (freeMap d).marked.card ≤ _ := Finset.card_le_card hsub
    _ ≤ _ := Finset.card_union_le ..
    _ ≤ 4 + m.keys.card * 63 := Nat.add_le_add hsystem hfiles

theorem create_ok (heap : Heap) (name : Buffer) {size : Int} (h0 : 0 ≤ size) (hmax : size ≤ maxFileSize) :
    (¬(nameKey name ∉ m ∧ m.keys.card < numDirEntries) ∧ (opened d).create d heap name size = .ok (false, d)) ∨
      (nameKey name ∉ m ∧ m.keys.card < numDirEntries) ∧
        ∃ d' i, (opened d).create d heap name size = .ok (true, d') ∧ Created d name size i d' := by
  rcases create_cases h.consistent (opened_mounted d) heap name h0 hmax with ⟨hr, he⟩ | ⟨d', i, he, hcr, -⟩
  · refine .inl ⟨?_, he⟩
    rintro ⟨hk, hroom⟩
    rcases hr with hf | hall | hfull
    · exact hf (h.absent_iff.mpr hk)
    · obtain ⟨i, hi⟩ := h.represents.room.mp hroom
      rw [slots_inUse (hall i)] at hi
      cases hi
    · have hcard := h.marked_card
      have hsize := (FileHeader.numSectors_range h0 hmax).2
      have hn : Disk.numSectors = 1024 := by decide
      rw [numDirect_eq] at hsize
      simp only [numDirEntries] at hroom
      omega
  · refine .inr ⟨⟨h.absent_iff.mp hcr.absent, h.represents.room.mpr ⟨i, slots_unused hcr.unused⟩⟩, d', i, he, hcr⟩

theorem written {d₁ d₂ : Disk} {contents : List Byte} (hcr : Created d name contents.length i d₁)
    (hframe : ∀ x, x ∉ dataSectors (fileHeader d₁ i) → d₂ x = d₁ x)
    (hc : ∀ k < contents.length, (fileHeader d₁ i).content d₂ k = OpenFile.bytesOf contents k) :
    Holds d₂ (m.insert (nameKey name) contents) := by
  have hmeta := written_metadata hcr hframe
  have hc₁ := hcr.consistent
  have hdir := directory_frame hmeta hc₁
  have hkey := h.absent_iff.mp hcr.absent
  refine ⟨hc₁.frame hmeta, ?_⟩
  have hs : slots d₂ = Function.update (slots d) i (some (nameKey name, contents)) := by
    funext j
    by_cases hj : j = i
    · subst hj
      have hlen : (fileHeader d₁ j).len = contents.length := len_eq hcr.length
      have hcontents : fileContents d₂ j = contents := by
        rw [fileContents, OpenFile.fileBytes_zero, fileHeader_frame hmeta hc₁ hcr.inUse, hlen]
        apply List.ext_getElem
        · simp
        · intro k hk hk'
          rw [List.getElem_map, List.getElem_range, hc k hk', OpenFile.bytesOf, List.getD_eq_getElem _ _ hk']
      rw [Function.update_self, slots_inUse ((inUse_frame hmeta hc₁).mpr hcr.inUse), hcontents, hdir, hcr.key]
    · rw [Function.update_of_ne hj]
      by_cases hju : InUse d j
      · have hk := hcr.kept j hju
        exact (hk.trans (written_kept hcr hframe (hk.inUse.mpr hju) hj)).slots h.consistent hju
      · rw [slots_unused hju, slots_unused]
        rwa [InUse, hdir, hcr.entry j hj]
  rw [hs]
  exact h.represents.insert hkey (slots_unused hcr.unused) contents

theorem copy_ok (heap : Nat → Heap) (toName : Buffer) {contents : List Byte} (hl : contents.length ≤ maxFileSize) :
    ∃ d', (opened d).copy d heap contents toName =
        .ok ((BoundedMap.perform numDirEntries m (.add (nameKey toName) contents)).1, d') ∧
      Holds d' (BoundedMap.perform numDirEntries m (.add (nameKey toName) contents)).2 := by
  rcases h.create_ok (heap 0) toName (Int.natCast_nonneg contents.length) (by exact_mod_cast hl) with
    ⟨hn, he⟩ | ⟨hy, d₁, i, he, hcr⟩
  · simp only [BoundedMap.perform, if_neg hn]
    exact ⟨d, by rw [copy, he]; rfl, h⟩
  · simp only [BoundedMap.perform, if_pos hy]
    have hv := hcr.consistent.valid i hcr.inUse
    have hlen : (fileHeader d₁ i).len = contents.length := len_eq hcr.length
    have hopen := openFile_of_found hcr.consistent (opened_mounted d₁) (heap 1) toName
      (Directory.findIndex_unique hcr.consistent.unique hcr.inUse hcr.key)
    rw [opened_congr hcr.system.1 hcr.system.2] at hopen
    have hflat := chunks_flatten (show 0 < transferSize by decide) (le_refl contents.length)
    have hbound : ((0 : Nat) : Int) + (chunks transferSize contents.length contents).flatten.length ≤ intMax := by
      rw [hflat, ← hlen, Nat.cast_zero, Int.zero_add]
      exact (fileHeader d₁ i).len_le
    obtain ⟨counts, d₂, hws, -, hc⟩ := OpenFile.writeChunks_law hv (fun k => heap (2 + k)) _ d₁ (Nat.zero_le _) hbound
    rw [hflat] at hc
    refine ⟨d₂, ?_, h.written hcr (OpenFile.writeChunks_frame hv (Nat.zero_le _) hbound hws) fun k hk => ?_⟩
    · rw [copy, he, ok_bind]
      simp only [not_true_eq_false, if_false, hopen, ok_bind]
      rw [Nat.cast_zero] at hws
      rw [hws]
      rfl
    · rw [hc k (hlen ▸ hk), if_pos (by omega), Nat.sub_zero]

theorem fileWrite_ok (heap : Nat → Heap) : ∃ d', (opened d).fileWrite d heap = .ok (false, d') ∧ opened d' = opened d ∧
    Holds d' (BoundedMap.perform numDirEntries m (.add (nameKey fileName) [])).2 := by
  rcases h.create_ok (heap 0) fileName (le_refl 0) (Int.natCast_nonneg _) with ⟨hn, he⟩ | ⟨hy, d₁, i, he, hcr⟩
  · simp only [BoundedMap.perform, if_neg hn]
    exact ⟨d, by rw [fileWrite, he]; rfl, rfl, h⟩
  · simp only [BoundedMap.perform, if_pos hy]
    have hv := hcr.consistent.valid i hcr.inUse
    have hlen : (fileHeader d₁ i).len = 0 := len_eq hcr.length
    have hopen := openFile_of_found hcr.consistent (opened_mounted d₁) (heap 1) fileName
      (Directory.findIndex_unique hcr.consistent.unique hcr.inUse hcr.key)
    rw [opened_congr hcr.system.1 hcr.system.2] at hopen
    have hnew : Created d fileName ([] : List Byte).length i d₁ := hcr
    refine ⟨d₁, ?_, opened_congr hcr.system.1 hcr.system.2, h.written hnew (fun _ _ => rfl) ?_⟩
    · have hfull := OpenFile.write_full hv d₁ (heap (2 + 4999)) testContents contentSize
      rw [hlen] at hfull
      rw [fileWrite, he, ok_bind]
      simp only [not_true_eq_false, if_false, hopen, ok_bind]
      change (OpenFile.write ⟨fileHeader d₁ i, (0 : Nat)⟩ d₁ (heap (2 + 4999)) testContents contentSize >>= _) = _
      rw [hfull]
      rfl
    · intro k hk
      cases hk

theorem fileRead_ok (heap : Nat → Heap) : (opened d).fileRead d heap = .ok false := by
  rcases openFile_cases h.consistent (opened_mounted d) (heap 0) fileName with ⟨-, he⟩ | ⟨i, hf, he⟩
  · rw [fileRead, he]
    rfl
  · have hv := h.consistent.valid i (Directory.findIndex_some hf).1
    have hlen := hv.len_le_maxFileSize
    rw [maxFileSize_eq] at hlen
    rw [fileRead, he, ok_bind]
    exact readRounds_short hv d _ (Nat.zero_le _) (show (fileHeader d i).len < 0 + 10 * 5000 by omega)

theorem performanceTest_ok (heap : Nat → Nat → Heap) :
    ∃ d', (opened d).performanceTest d heap = .ok (.tested false false (BoundedMap.perform numDirEntries
        (BoundedMap.perform numDirEntries m (.add (nameKey fileName) [])).2 (.remove (nameKey fileName))).1, d') ∧
      Holds d' (BoundedMap.perform numDirEntries
        (BoundedMap.perform numDirEntries m (.add (nameKey fileName) [])).2 (.remove (nameKey fileName))).2 := by
  obtain ⟨d₁, hw, hfs, h₁⟩ := h.fileWrite_ok (heap 0)
  obtain ⟨d₂, hr, h₂⟩ := h₁.remove_ok (heap 2 0) fileName
  have hread := h₁.fileRead_ok (heap 1)
  rw [hfs] at hread hr
  refine ⟨d₂, ?_, h₂⟩
  rw [performanceTest, hw, ok_bind]
  simp only [hread, hr, ok_bind]

end Holds

def Store.run (m : Store) : Command → Answer × Store
  | .copy contents toName =>
    let r := BoundedMap.perform numDirEntries m (.add (nameKey toName) contents)
    (.flag r.1, r.2)
  | .print name => (.printed (m.lookup (nameKey name)), m)
  | .remove name =>
    let r := BoundedMap.perform numDirEntries m (.remove (nameKey name))
    (.flag r.1, r.2)
  | .performanceTest =>
    let r := BoundedMap.perform numDirEntries (BoundedMap.perform numDirEntries m (.add (nameKey fileName) [])).2
      (.remove (nameKey fileName))
    (.tested false false r.1, r.2)

def Store.runAll (m : Store) : List Command → List Answer × Store
  | [] => ([], m)
  | c :: cs => ((m.run c).1 :: (Store.runAll (m.run c).2 cs).1, (Store.runAll (m.run c).2 cs).2)

def Command.Fits : Command → Prop
  | .copy contents _ => contents.length ≤ maxFileSize
  | _ => True

theorem Holds.run {d : Disk} {m : Store} (h : Holds d m) {c : Command} (hc : c.Fits) {fuel : Nat} (hfuel : maxFileSize < fuel)
    (heap : Nat → Nat → Heap) : ∃ d', c.run fuel d heap = .ok ((Store.run m c).1, d') ∧ Holds d' (Store.run m c).2 := by
  cases c with
  | copy contents toName =>
    obtain ⟨d', he, h'⟩ := h.copy_ok (heap 0) toName hc
    refine ⟨d', ?_, h'⟩
    rw [Command.run, mount_ok, ok_bind]
    simp only [he, ok_bind]
    rfl
  | print name =>
    refine ⟨d, ?_, h⟩
    rw [Command.run, mount_ok, ok_bind]
    simp only [h.print_ok (heap 0) name hfuel, ok_bind]
    rfl
  | remove name =>
    obtain ⟨d', he, h'⟩ := h.remove_ok (heap 0 0) name
    refine ⟨d', ?_, h'⟩
    rw [Command.run, mount_ok, ok_bind]
    simp only [he, ok_bind]
    rfl
  | performanceTest =>
    obtain ⟨d', he, h'⟩ := h.performanceTest_ok heap
    refine ⟨d', ?_, h'⟩
    rw [Command.run, mount_ok, ok_bind]
    exact he

theorem Holds.runAll {d : Disk} {m : Store} (h : Holds d m) {cs : List ((Nat → Nat → Heap) × Command)}
    (hcs : ∀ c ∈ cs, c.2.Fits) {fuel : Nat} (hfuel : maxFileSize < fuel) :
    ∃ d', Command.runAll fuel d cs = .ok ((Store.runAll m (cs.map Prod.snd)).1, d') ∧
      Holds d' (Store.runAll m (cs.map Prod.snd)).2 := by
  induction cs generalizing d m with
  | nil => exact ⟨d, rfl, h⟩
  | cons a cs ih =>
    obtain ⟨heap, c⟩ := a
    obtain ⟨d₁, he, h₁⟩ := h.run (hcs _ List.mem_cons_self) hfuel heap
    obtain ⟨d₂, hes, h₂⟩ := ih h₁ (fun c hc => hcs c (List.mem_cons_of_mem _ hc))
    refine ⟨d₂, ?_, h₂⟩
    simp only [Command.runAll, he, hes, ok_bind]
    rfl

theorem commands_refine (d : Disk) (heap : Heap) {cs : List ((Nat → Nat → Heap) × Command)} (hcs : ∀ c ∈ cs, c.2.Fits)
    {fuel : Nat} (hfuel : maxFileSize < fuel) : ∃ fs d₀ d', format d heap = .ok (fs, d₀) ∧
      Command.runAll fuel d₀ cs = .ok ((Store.runAll ∅ (cs.map Prod.snd)).1, d') ∧
      Holds d' (Store.runAll ∅ (cs.map Prod.snd)).2 := by
  obtain ⟨d₀, he, hc, hempty⟩ := format_ok d heap
  have h : Holds d₀ ∅ := by
    refine ⟨hc, ?_⟩
    have hs : slots d₀ = fun _ => none := funext fun i => slots_unused (hempty i)
    rw [hs]
    exact SlotTable.represents_empty
  obtain ⟨d', hr, h'⟩ := h.runAll hcs hfuel
  exact ⟨_, d₀, d', he, hr, h'⟩

theorem commands_refine_sample : ∃ fs d₀ d', format (fun _ _ => 0) (fun _ _ => 0) = .ok (fs, d₀) ∧
    Command.runAll 20000 d₀ [(fun _ _ _ _ => 0, .copy [104, 105] (stringBuffer "greeting.txt")),
      (fun _ _ _ _ => 0, .print (stringBuffer "greeting.c")), (fun _ _ _ _ => 0, .performanceTest)] =
        .ok ([.flag true, .printed (some [104, 105]), .tested false false true], d') := by
  have hcs : ∀ c ∈ [((fun _ _ _ _ => 0 : Nat → Nat → Heap), Command.copy [104, 105] (stringBuffer "greeting.txt")),
      (fun _ _ _ _ => 0, .print (stringBuffer "greeting.c")), (fun _ _ _ _ => 0, .performanceTest)], c.2.Fits := by
    intro c hc
    simp only [List.mem_cons, List.not_mem_nil, or_false] at hc
    rcases hc with rfl | rfl | rfl
    · simp [Command.Fits, maxFileSize_eq]
    · trivial
    · trivial
  have hfuel : maxFileSize < 20000 := by
    rw [maxFileSize_eq]
    decide
  obtain ⟨fs, d₀, d', hf, hr, -⟩ := commands_refine (fun _ _ => 0) (fun _ _ => 0) hcs hfuel
  have hanswers : (Store.runAll ∅ [.copy [104, 105] (stringBuffer "greeting.txt"), .print (stringBuffer "greeting.c"),
      .performanceTest]).1 = [.flag true, .printed (some [104, 105]), .tested false false true] := by decide +kernel
  exact ⟨fs, d₀, d', hf, hr.trans (congrArg (fun answers => Except.ok (answers, d')) hanswers)⟩

end Nachos
