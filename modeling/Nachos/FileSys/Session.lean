import Nachos.FileSys.Client
import Nachos.FileSys.Remove
import Nachos.Lib.Run

namespace Nachos

open Disk CInt FileSystem Layout

structure Handle.Live (d : Disk) (h : Handle) (i : Fin numDirEntries) : Prop where
  inUse : InUse d i
  key : ((directory d).table i).key = CString.key fileNameMaxLen h.name
  sector : h.sector = entrySector d i
  header : h.file.hdr = fileHeader d i

def Handle.Good (d : Disk) (h : Handle) : Prop :=
  match h.standing with
  | .live => ∃ i, h.Live d i
  | .removed => h.file.hdr.Valid ∧ ∀ s ∈ dataSectors h.file.hdr, s ∉ (freeMap d).marked
  | .overtaken => h.file.hdr.Valid

namespace Handle

variable {d d' : Disk} {h : Handle} {i : Fin numDirEntries}

theorem Live.kept (hl : h.Live d i) (hk : Kept d d' i) : h.Live d' i :=
  ⟨hk.inUse.mpr hl.inUse, hk.entry ▸ hl.key, by rw [hk.entrySector]; exact hl.sector,
    by rw [hk.fileHeader]; exact hl.header⟩

theorem Good.live (hg : h.Good d) (hs : h.standing = .live) : ∃ i, h.Live d i := by
  unfold Good at hg
  rwa [hs] at hg

theorem Good.free (hg : h.Good d) (hs : h.standing = .removed) :
    h.file.hdr.Valid ∧ ∀ s ∈ dataSectors h.file.hdr, s ∉ (freeMap d).marked := by
  unfold Good at hg
  rwa [hs] at hg

theorem Good.valid (hg : h.Good d) (hc : Consistent d) : h.file.hdr.Valid := by
  cases hst : h.standing with
  | live =>
    obtain ⟨i, hl⟩ := hg.live hst
    exact hl.header ▸ hc.valid i hl.inUse
  | removed => exact (hg.free hst).1
  | overtaken =>
    unfold Good at hg
    rwa [hst] at hg

theorem Good.writable (hg : h.Good d) (hc : Consistent d) (hs : h.standing ≠ .overtaken) :
    h.file.hdr.Valid ∧ ∀ s ∈ dataSectors h.file.hdr, ¬Metadata d s := by
  refine ⟨hg.valid hc, fun s hmem hm => ?_⟩
  cases hst : h.standing with
  | live =>
    obtain ⟨i, hl⟩ := hg.live hst
    rw [hl.header] at hmem
    exact not_metadata hc hl.inUse hmem hm
  | removed =>
    refine (hg.free hst).2 s hmem ?_
    obtain hsys | ⟨j, hj, rfl⟩ := hm
    · exact hc.system_marked hsys
    · exact hc.file_marked hj (List.mem_cons_self ..)
  | overtaken => exact absurd hst hs

theorem Good.frame (hg : h.Good d) (hc : Consistent d) (hf : ∀ s, Metadata d s → d' s = d s) : h.Good d' := by
  unfold Good at hg ⊢
  cases hst : h.standing with
  | live =>
    rw [hst] at hg
    obtain ⟨i, hl⟩ := hg
    exact ⟨i, (inUse_frame hf hc).mpr hl.inUse, by rw [directory_frame hf hc]; exact hl.key,
      by rw [entrySector_frame hf hc]; exact hl.sector, by rw [fileHeader_frame hf hc hl.inUse]; exact hl.header⟩
  | removed =>
    rw [hst] at hg
    exact ⟨hg.1, by rw [freeMap_frame hf hc]; exact hg.2⟩
  | overtaken => rw [hst] at hg; exact hg

theorem against_live {marked : Finset Nat} (hs : h.standing = .live) : h.against marked = h := if_pos hs

theorem against_good (hs : h.standing ≠ .live) (hv : h.file.hdr.Valid) : (h.against (freeMap d).marked).Good d := by
  rw [against, if_neg hs]
  by_cases hm : ∃ x ∈ dataSectors h.file.hdr, x ∈ (freeMap d).marked
  · rw [if_pos hm]
    exact hv
  · rw [if_neg hm]
    exact ⟨hv, fun x hx hmem => hm ⟨x, hx, hmem⟩⟩

theorem Good.created (hg : h.Good d) (hc : Consistent d) {name : Buffer} {size : Int}
    (hcr : Created d name size i d') : (h.against (freeMap d').marked).Good d' := by
  by_cases hst : h.standing = .live
  · obtain ⟨j, hl⟩ := hg.live hst
    rw [against_live hst, Good, hst]
    exact ⟨j, hl.kept (hcr.kept j hl.inUse)⟩
  · exact against_good hst (hg.valid hc)

theorem Good.removed (hg : h.Good d) (hc : Consistent d) (hr : Removed d i d') :
    ((h.afterRemove (entrySector d i)).against (freeMap d').marked).Good d' := by
  have hv := hg.valid hc
  by_cases hs : h.standing = .live ∧ h.sector = entrySector d i
  · rw [afterRemove, if_pos hs]
    exact against_good (by simp) hv
  rw [afterRemove, if_neg hs]
  by_cases hst : h.standing = .live
  · obtain ⟨j, hl⟩ := hg.live hst
    have hne : j ≠ i := by rintro rfl; exact hs ⟨hst, hl.sector⟩
    rw [against_live hst, Good, hst]
    exact ⟨j, hl.kept (hr.kept j hne hl.inUse)⟩
  · exact against_good hst hv

theorem Good.withFile (hg : h.Good d) {f : OpenFile} (hf : f.hdr = h.file.hdr) :
    Good d { h with file := f } := by
  unfold Good at hg ⊢
  cases hst : h.standing with
  | live =>
    rw [hst] at hg
    obtain ⟨i, hl⟩ := hg
    exact ⟨i, hl.inUse, hl.key, hl.sector, hf.trans hl.header⟩
  | removed =>
    rw [hst] at hg
    simpa only [hf] using hg
  | overtaken =>
    rw [hst] at hg
    simpa only [hf] using hg

end Handle

namespace Layout

theorem empty_card {d : Disk} (hc : Consistent d) (he : ∀ i, ¬InUse d i) : (freeMap d).marked.card ≤ 4 := by
  have hsub : (freeMap d).marked ⊆ (system d).toFinset := by
    intro x hx
    exact List.mem_toFinset.mpr (((hc.marked x).mp hx).resolve_right (fun ⟨i, hi, _⟩ => he i hi))
  have hmap := hc.mapValid.numSectors
  have hdir := hc.dirValid.numSectors
  have hfs := freeMapFileSize_eq
  have hds := directoryFileSize_eq
  rw [hc.mapLength, one_sector (by omega) (by omega)] at hmap
  rw [hc.dirLength, one_sector (by omega) (by omega)] at hdir
  calc (freeMap d).marked.card ≤ (system d).toFinset.card := Finset.card_le_card hsub
    _ ≤ (system d).length := List.toFinset_card_le _
    _ = 4 := by simp [system, dataSectors, FileHeader.blocks, FileHeader.size, hmap, hdir]

theorem not_refused {d : Disk} (hc : Consistent d) (he : ∀ i, ¬InUse d i) (name : Buffer) {size : Int}
    (hs : divRoundUp size sectorSize ≤ 1) : ¬Refused d name size := by
  have hcard := empty_card hc he
  have hn : Disk.numSectors = 1024 := by decide
  rintro (h | h | h)
  · exact h (Directory.findIndex_none.mpr (fun i hi => absurd hi (he i)))
  · exact he ⟨0, by decide⟩ (h _)
  · omega

end Layout

namespace Session

structure Inv (s : Session) : Prop where
  consistent : Consistent s.disk
  fs : s.fs = opened s.disk
  handles : ∀ h ∈ s.handles, h.Good s.disk

def Permitted (reads writes : Standing → Prop) (s : Session) : Op → Prop
  -- the operations a client may ask for; `reads` and `writes` say which handles it may use
  | .create _ initialSize => 0 ≤ initialSize ∧ initialSize ≤ maxFileSize
  | .openFile _ => True
  | .remove _ => True
  | .seek _ _ => True
  | .readAt k numBytes position =>
    numBytes ≤ intMax ∧ 0 ≤ position ∧ ∀ h, s.handles[k]? = some h → reads h.standing
  | .writeAt k _ numBytes position =>
    numBytes ≤ intMax ∧ 0 ≤ position ∧ ∀ h, s.handles[k]? = some h → writes h.standing
  | .read k numBytes =>
    numBytes ≤ intMax ∧ ∀ h, s.handles[k]? = some h → 0 ≤ h.file.seekPosition ∧ reads h.standing
  | .write k _ numBytes =>
    numBytes ≤ intMax ∧ ∀ h, s.handles[k]? = some h → 0 ≤ h.file.seekPosition ∧ writes h.standing

def Step (reads writes : Standing → Prop) (s : Session) (a : Heap × Op) (t : Session) : Prop :=
  s.Permitted reads writes a.2 ∧ ∃ result, s.step a.1 a.2 = .ok (t, result)

def Started (s : Session) : Prop := ∃ d heap, start d heap = .ok s

def Reached (reads writes : Standing → Prop) (s : Session) : Prop := Reachable Started (Step reads writes) s

variable {s t : Session} {heap : Heap}

theorem Inv.mounted (hi : s.Inv) : s.fs.Mounted s.disk := by
  rw [hi.fs]
  exact opened_mounted s.disk

theorem start_ok (d : Disk) (heap : Heap) :
    ∃ s, start d heap = .ok s ∧ s.Inv ∧ s.handles = [] ∧ ∀ i, ¬InUse s.disk i := by
  obtain ⟨d', he, hc, hempty⟩ := format_ok d heap
  exact ⟨⟨d', opened d', []⟩, by simp only [start, he, ok_bind], ⟨hc, rfl, by simp⟩, rfl, hempty⟩

theorem started_inv (h : Started s) : s.Inv := by
  obtain ⟨d, heap, h⟩ := h
  obtain ⟨s', he, hi, -⟩ := start_ok d heap
  rw [h] at he
  rwa [Except.ok.inj he]

theorem Inv.frame (hi : s.Inv) {d' : Disk} (hf : ∀ x, Metadata s.disk x → d' x = s.disk x) :
    Inv { s with disk := d' } := by
  have h0 : d' 0 = s.disk 0 := hf 0 (.inl (by simp [system]))
  have h1 : d' 1 = s.disk 1 := hf 1 (.inl (by simp [system]))
  exact ⟨hi.consistent.frame hf, hi.fs.trans (opened_congr h0 h1).symm,
    fun h hh => (hi.handles h hh).frame hi.consistent hf⟩

theorem Inv.setFile (hi : s.Inv) {k : Nat} {h : Handle} (hk : s.handles[k]? = some h) {f : OpenFile}
    (hf : f.hdr = h.file.hdr) : (s.setFile k h f).Inv := by
  refine ⟨hi.consistent, hi.fs, fun h' hh => ?_⟩
  obtain hmem | rfl := List.mem_or_eq_of_mem_set hh
  · exact hi.handles h' hmem
  · exact (hi.handles h (List.mem_of_getElem? hk)).withFile hf

theorem Inv.writeAt (hi : s.Inv) {h : Handle} (hh : h ∈ s.handles) (hs : h.standing ≠ .overtaken)
    {src : Buffer} {numBytes position n : Int} (hp : 0 ≤ position) (hn : numBytes ≤ intMax) {d' : Disk}
    (he : OpenFile.writeAt s.disk h.file.hdr heap src numBytes position = .ok (n, d')) :
    Inv { s with disk := d' } := by
  obtain ⟨hv, hm⟩ := (hi.handles h hh).writable hi.consistent hs
  exact hi.frame (fun x hx => OpenFile.writeAt_frame hv hp hn he x (fun hmem => hm x hmem hx))

theorem step_create (hi : s.Inv) (heap : Heap) (name : Buffer) {size : Int} (h0 : 0 ≤ size)
    (hmax : size ≤ maxFileSize) :
    (Refused s.disk name size ∧ s.step heap (.create name size) = .ok (s, .flag false)) ∨
      ∃ d' i, Created s.disk name size i d' ∧ s.step heap (.create name size) =
        .ok ({ s with disk := d', handles := s.handles.map (·.against (freeMap d').marked) }, .flag true) := by
  obtain ⟨hr, he⟩ | ⟨d', i, he, hcr, -⟩ := create_cases hi.consistent hi.mounted heap name h0 hmax
  · exact .inl ⟨hr, by simp [step, he]⟩
  · exact .inr ⟨d', i, hcr, by simp [step, he]⟩

theorem step_openFile (hi : s.Inv) (heap : Heap) (name : Buffer) :
    ((directory s.disk).findIndex name = none ∧ s.step heap (.openFile name) = .ok (s, .flag false)) ∨
      ∃ i, (directory s.disk).findIndex name = some i ∧ s.step heap (.openFile name) =
        .ok ({ s with handles := s.handles ++
          [⟨⟨fileHeader s.disk i, 0⟩, name, entrySector s.disk i, .live⟩] }, .flag true) := by
  have hlookup := lookup_ok hi.consistent hi.mounted heap name
  obtain ⟨hf, he⟩ | ⟨i, hf, he⟩ := openFile_cases hi.consistent hi.mounted heap name
  · exact .inl ⟨hf, by simp only [step, he, hlookup, ok_bind]⟩
  · exact .inr ⟨i, hf, by simp only [step, he, hlookup, find_of_inUse hi.consistent hf, ok_bind]⟩

theorem step_remove (hi : s.Inv) (heap : Heap) (name : Buffer) :
    ((directory s.disk).findIndex name = none ∧ s.step heap (.remove name) = .ok (s, .flag false)) ∨
      ∃ d' i, (directory s.disk).findIndex name = some i ∧ Removed s.disk i d' ∧ s.step heap (.remove name) =
        .ok ({ s with
          disk := d'
          handles := s.handles.map fun h => (h.afterRemove (entrySector s.disk i)).against (freeMap d').marked },
          .flag true) := by
  have hlookup := lookup_ok hi.consistent hi.mounted heap name
  obtain ⟨hf, he⟩ | ⟨d', i, hf, he, hr⟩ := remove_cases hi.consistent hi.mounted heap name
  · exact .inl ⟨hf, by simp [step, he, hlookup]⟩
  · exact .inr ⟨d', i, hf, hr, by simp [step, he, hlookup, find_of_inUse hi.consistent hf]⟩

theorem Inv.created (hi : s.Inv) {name : Buffer} {size : Int} {d' : Disk} {i : Fin numDirEntries}
    (hcr : Created s.disk name size i d') :
    Inv { s with disk := d', handles := s.handles.map (·.against (freeMap d').marked) } := by
  refine ⟨hcr.consistent, hi.fs.trans (opened_congr hcr.system.1 hcr.system.2).symm, ?_⟩
  simp only [List.mem_map]
  rintro _ ⟨h, hh, rfl⟩
  exact (hi.handles h hh).created hi.consistent hcr

theorem Inv.removed (hi : s.Inv) {d' : Disk} {i : Fin numDirEntries} (hr : Removed s.disk i d') :
    Inv { s with
      disk := d'
      handles := s.handles.map fun h => (h.afterRemove (entrySector s.disk i)).against (freeMap d').marked } := by
  refine ⟨hr.consistent, hi.fs.trans (opened_congr hr.system.1 hr.system.2).symm, ?_⟩
  simp only [List.mem_map]
  rintro _ ⟨h, hh, rfl⟩
  exact (hi.handles h hh).removed hi.consistent hr

theorem Inv.opened (hi : s.Inv) {name : Buffer} {i : Fin numDirEntries}
    (hf : (directory s.disk).findIndex name = some i) :
    Inv { s with handles := s.handles ++
      [⟨⟨fileHeader s.disk i, 0⟩, name, entrySector s.disk i, .live⟩] } := by
  obtain ⟨hin, hkey⟩ := Directory.findIndex_some hf
  refine ⟨hi.consistent, hi.fs, ?_⟩
  simp only [List.mem_append, List.mem_singleton]
  rintro h (hh | rfl)
  · exact hi.handles h hh
  · exact ⟨i, hin, hkey, rfl, rfl⟩

theorem Inv.step (hi : s.Inv) {a : Heap × Op} (h : Step (fun _ => True) (· ≠ .overtaken) s a t) : t.Inv := by
  obtain ⟨heap, op⟩ := a
  obtain ⟨hp, result, h⟩ := h
  cases op with
  | create name size =>
    obtain ⟨-, he⟩ | ⟨d', i, hcr, he⟩ := step_create hi heap name hp.1 hp.2
    all_goals
      rw [he] at h
      obtain ⟨rfl, -⟩ := Prod.mk.inj (Except.ok.inj h)
    · exact hi
    · exact hi.created hcr
  | openFile name =>
    obtain ⟨-, he⟩ | ⟨i, hf, he⟩ := step_openFile hi heap name
    all_goals
      rw [he] at h
      obtain ⟨rfl, -⟩ := Prod.mk.inj (Except.ok.inj h)
    · exact hi
    · exact hi.opened hf
  | remove name =>
    obtain ⟨-, he⟩ | ⟨d', i, -, hr, he⟩ := step_remove hi heap name
    all_goals
      rw [he] at h
      obtain ⟨rfl, -⟩ := Prod.mk.inj (Except.ok.inj h)
    · exact hi
    · exact hi.removed hr
  | seek k position =>
    obtain rfl | ⟨f, hk, h⟩ := withHandle_ok h
    · exact hi
    · rw [← (Prod.mk.inj (Except.ok.inj h)).1]
      exact hi.setFile hk rfl
  | readAt k numBytes position =>
    obtain rfl | ⟨f, hk, h⟩ := withHandle_ok h
    · exact hi
    · simp only [bind_eq_ok, Except.ok.injEq, Prod.mk.injEq] at h
      obtain ⟨-, -, rfl, -⟩ := h
      exact hi
  | writeAt k src numBytes position =>
    obtain rfl | ⟨f, hk, h⟩ := withHandle_ok h
    · exact hi
    · simp only [bind_eq_ok, Except.ok.injEq, Prod.mk.injEq] at h
      obtain ⟨⟨n, d'⟩, he, rfl, -⟩ := h
      exact hi.writeAt (List.mem_of_getElem? hk) (hp.2.2 f hk) hp.2.1 hp.1 he
  | read k numBytes =>
    obtain rfl | ⟨f, hk, h⟩ := withHandle_ok h
    · exact hi
    · simp only [OpenFile.read, bind_eq_ok, Except.ok.injEq, Prod.mk.injEq] at h
      obtain ⟨-, ⟨-, -, rfl⟩, rfl, -⟩ := h
      exact hi.setFile hk rfl
  | write k src numBytes =>
    obtain rfl | ⟨f, hk, h⟩ := withHandle_ok h
    · exact hi
    · simp only [OpenFile.write, bind_eq_ok, Except.ok.injEq, Prod.mk.injEq] at h
      obtain ⟨-, ⟨⟨n, d'⟩, he, rfl⟩, rfl, -⟩ := h
      obtain ⟨hpos, hst⟩ := hp.2 f hk
      exact Inv.setFile (hi.writeAt (List.mem_of_getElem? hk) hst hpos hp.1 he) hk rfl

theorem Reached.inv (h : Reached (fun _ => True) (· ≠ .overtaken) s) : s.Inv :=
  h.invariant (fun _ => started_inv) (fun _ _ _ hi hs => hi.step hs)

theorem Reached.live (h : Reached (· = .live) (· = .live) s) : Reached (fun _ => True) (· ≠ .overtaken) s := by
  apply h.mono
  rintro s ⟨heap, op⟩ t ⟨hp, hr⟩
  refine ⟨?_, hr⟩
  cases op with
  | create name size => exact hp
  | openFile name => trivial
  | remove name => trivial
  | seek k position => trivial
  | readAt k numBytes position => exact ⟨hp.1, hp.2.1, fun _ _ => trivial⟩
  | writeAt k src numBytes position => exact ⟨hp.1, hp.2.1, fun f hk => by simp [hp.2.2 f hk]⟩
  | read k numBytes => exact ⟨hp.1, fun f hk => ⟨(hp.2 f hk).1, trivial⟩⟩
  | write k src numBytes => exact ⟨hp.1, fun f hk => ⟨(hp.2 f hk).1, by simp [(hp.2 f hk).2]⟩⟩

theorem Reached.next {reads writes : Standing → Prop} (hr : Reached reads writes s) (heap : Heap) (op : Op)
    (hp : s.Permitted reads writes op) {result : Result} (he : s.step heap op = .ok (t, result)) :
    Reached reads writes t := Reachable.next (heap, op) hr ⟨hp, result, he⟩

def nameA : Buffer := fun k => if k = 0 then 97 else 0

theorem opened_file (reads writes : Standing → Prop) :
    ∃ d d1 fs i, (∀ i, ¬InUse d i) ∧ Created d nameA 256 i d1 ∧
      Reached reads writes ⟨d1, fs, [⟨⟨fileHeader d1 i, 0⟩, nameA, entrySector d1 i, .live⟩]⟩ ∧
      Inv ⟨d1, fs, [⟨⟨fileHeader d1 i, 0⟩, nameA, entrySector d1 i, .live⟩]⟩ := by
  have hmax : (256 : Int) ≤ maxFileSize := by rw [maxFileSize_eq]; decide
  obtain ⟨⟨d, fs, handles⟩, he, hi, rfl, hempty⟩ := start_ok (fun _ _ => 0) (fun _ _ => 0)
  have hr : Reached reads writes ⟨d, fs, []⟩ := .start ⟨_, _, he⟩
  obtain ⟨href, -⟩ | ⟨d1, i, hcr, h1⟩ := step_create hi (fun _ _ => 0) nameA (by decide) hmax
  · exact absurd href (not_refused hi.consistent hempty nameA (one_sector (by decide) (by decide)).le)
  have hi1 : Inv ⟨d1, fs, []⟩ := hi.created hcr
  have hfind := Directory.findIndex_unique hi1.consistent.unique hcr.inUse hcr.key
  obtain ⟨hnone, -⟩ | ⟨i', hf, h2⟩ := step_openFile hi1 (fun _ _ => 0) nameA
  · exact absurd (hfind.symm.trans hnone) (by simp)
  obtain rfl : i = i' := Option.some.inj (hfind.symm.trans hf)
  have hr1 : Reached reads writes ⟨d1, fs, []⟩ := hr.next _ (.create nameA 256) ⟨by decide, hmax⟩ h1
  exact ⟨d, d1, fs, i, hempty, hcr, hr1.next _ (.openFile nameA) trivial h2, hi1.opened hf⟩

end Session

end Nachos
