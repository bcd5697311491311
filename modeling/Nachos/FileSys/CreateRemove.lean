import Nachos.FileSys.Bounds
import Nachos.FileSys.NameTable
import Nachos.FileSys.Session

namespace Nachos

open Disk CInt FileSystem Layout Directory

namespace Layout

variable {d d' d'' : Disk} {name : Buffer} {size : Int} {i : Fin numDirEntries}

structure SameFile (d d' : Disk) (name : Buffer) : Prop where
  index : (directory d').findIndex name = (directory d).findIndex name
  kept : ∀ j, (directory d).findIndex name = some j → Kept d d' j

theorem sameFile_of (hc' : Consistent d')
    (hold : ∀ j, InUse d j → ((directory d).table j).key = nameKey name → Kept d d' j)
    (hnew : ∀ j, InUse d' j → ((directory d').table j).key = nameKey name →
      (directory d').table j = (directory d).table j) : SameFile d d' name := by
  cases hf : (directory d).findIndex name with
  | some j =>
    obtain ⟨hu, hk⟩ := findIndex_some hf
    have hkept := hold j hu hk
    refine ⟨?_, ?_⟩
    · rw [hf]
      exact findIndex_unique hc'.unique (hkept.inUse.mpr hu) (by rw [hkept.entry]; exact hk)
    · intro j' hj
      rw [hf] at hj
      exact Option.some.inj hj ▸ hkept
  | none =>
    refine ⟨?_, fun j hj => absurd (hf.symm.trans hj) (by simp)⟩
    rw [hf, findIndex_none]
    intro j hj hk
    have he := hnew j hj hk
    exact findIndex_none.mp hf j (by rwa [← he]) (he ▸ hk)

theorem Created.sameFile (hcr : Created d name size i d') {other : Buffer} (hne : nameKey other ≠ nameKey name) :
    SameFile d d' other := by
  apply sameFile_of hcr.consistent (fun j hj _ => hcr.kept j hj)
  intro j _ hk
  apply hcr.entry
  rintro rfl
  exact hne (hk.symm.trans hcr.key)

theorem Created.room (hcr : Created d name size i d') :
    ((freeMap d).marked.card : Int) + 1 + divRoundUp size sectorSize ≤ Disk.numSectors := by
  have hv := hcr.consistent.valid i hcr.inUse
  have hn := hv.numSectors
  have hcard : (freeMap d').marked.card = (freeMap d).marked.card + (fileSectors d' i).length := by
    rw [hcr.marked, Finset.card_union_of_disjoint,
      List.toFinset_card_of_nodup (hcr.consistent.fileNodup i hcr.inUse)]
    exact Finset.disjoint_right.mpr (fun x hx => hcr.fresh x (List.mem_toFinset.mp hx))
  have hlen : (fileSectors d' i).length = 1 + (fileHeader d' i).size := by
    simp [fileSectors, dataSectors, FileHeader.blocks, Nat.add_comm]
  have hbound := (freeMap d').numClear_add_card
  have hbits : (freeMap d').numBits = Disk.numSectors := rfl
  rw [hcr.length] at hn
  have hsize : (fileHeader d' i).size = (divRoundUp size sectorSize).toNat := by rw [FileHeader.size, hn]
  omega

structure Creatable (d : Disk) (name : Buffer) (size : Int) : Prop where
  absent : ∀ i, InUse d i → ((directory d).table i).key ≠ nameKey name
  slot : ∃ i, ¬InUse d i
  room : 1 + (size + sectorSize - 1) / sectorSize ≤ (freeMap d).numClear

theorem not_refused_iff (h0 : 0 ≤ size) : ¬Refused d name size ↔ Creatable d name size := by
  have hcard := (freeMap d).numClear_add_card
  have hbits : (freeMap d).numBits = Disk.numSectors := rfl
  have hup := divRoundUp_of_nonneg h0 (show 0 < (sectorSize : Int) by have := sectorSize_pos; omega)
  constructor
  · intro hn
    simp only [Refused, not_or] at hn
    obtain ⟨hf, hs, hr⟩ := hn
    exact ⟨findIndex_none.mp (not_not.mp hf), by simpa using hs, by omega⟩
  · rintro ⟨ha, ⟨i, hi⟩, hr⟩ (hf | hs | hc)
    · exact hf (findIndex_none.mpr ha)
    · exact hi (hs i)
    · omega

theorem Created.creatable (hcr : Created d name size i d') (h0 : 0 ≤ size) : Creatable d name size := by
  apply (not_refused_iff h0).mp
  rintro (hf | hs | hc)
  · exact hf hcr.absent
  · exact hcr.unused (hs i)
  · have := hcr.room
    omega

theorem Kept.trans {j : Fin numDirEntries} (hk : Kept d d' j) (hk' : Kept d' d'' j) : Kept d d'' j := by
  refine ⟨hk'.entry.trans hk.entry, fun x hx => ?_⟩
  rw [hk'.sectors x (by rw [hk.fileSectors]; exact hx), hk.sectors x hx]

section Undo

variable {d1 d2 d3 : Disk} (hcr : Created d name size i d1)
  (hframe : ∀ x, x ∉ dataSectors (fileHeader d1 i) → d2 x = d1 x) (hr : Removed d2 i d3)
include hcr hframe

theorem written_metadata (x : Nat) (hx : Metadata d1 x) : d2 x = d1 x :=
  hframe x (fun hmem => not_metadata hcr.consistent hcr.inUse hmem hx)

theorem written_kept {j : Fin numDirEntries} (hj : InUse d1 j) (hne : j ≠ i) : Kept d1 d2 j := by
  refine ⟨by rw [directory_frame (written_metadata hcr hframe) hcr.consistent], fun x hx => hframe x ?_⟩
  intro hmem
  exact hcr.consistent.fileDisjoint j i hj hcr.inUse hne hx (List.mem_cons_of_mem _ hmem)

include hr

theorem undone_sameFile (other : Buffer) : SameFile d d3 other := by
  have hmeta := written_metadata hcr hframe
  apply sameFile_of hr.consistent
  · intro j hj _
    have hne : j ≠ i := by rintro rfl; exact hcr.unused hj
    have hj1 : InUse d1 j := (hcr.kept j hj).inUse.mpr hj
    exact (hcr.kept j hj).trans ((written_kept hcr hframe hj1 hne).trans
      (hr.kept j hne ((inUse_frame hmeta hcr.consistent).mpr hj1)))
  · intro j hj _
    have hne : j ≠ i := by rintro rfl; exact hr.gone hj
    rw [hr.entry j hne, directory_frame hmeta hcr.consistent, hcr.entry j hne]

theorem undone_marked : (freeMap d3).marked = (freeMap d).marked := by
  have hmeta := written_metadata hcr hframe
  rw [hr.marked, freeMap_frame hmeta hcr.consistent, fileSectors_frame hmeta hcr.consistent hcr.inUse,
    hcr.marked_sdiff]

end Undo

end Layout

namespace Session

variable {s t : Session} {name : Buffer} {size : Int}

structure Unchanged (s t : Session) (name : Buffer) : Prop where
  lookup : ∀ heap, t.fs.lookup t.disk heap name = s.fs.lookup s.disk heap name
  file : ∀ heap, t.fs.openFile t.disk heap name = s.fs.openFile s.disk heap name
  content : ∀ heap f, s.fs.openFile s.disk heap name = .ok (some f) →
    ∀ k < f.hdr.len, f.hdr.content t.disk k = f.hdr.content s.disk k

theorem Inv.unchanged (hs : s.Inv) (ht : t.Inv) (h : SameFile s.disk t.disk name) : Unchanged s t name := by
  cases hf : (directory s.disk).findIndex name with
  | none =>
    have hf' := h.index.trans hf
    have hopen (heap : Heap) := openFile_of_absent hs.consistent hs.mounted heap name hf
    refine ⟨fun heap => ?_, fun heap => ?_, fun heap f he => ?_⟩
    · rw [lookup_ok hs.consistent hs.mounted, lookup_ok ht.consistent ht.mounted, find_of_absent hf,
        find_of_absent hf']
    · rw [hopen, openFile_of_absent ht.consistent ht.mounted heap name hf']
    · rw [hopen] at he
      cases he
  | some j =>
    have hf' := h.index.trans hf
    have hk := h.kept j hf
    have hu : InUse s.disk j := (findIndex_some hf).1
    have hopen (heap : Heap) := openFile_of_found hs.consistent hs.mounted heap name hf
    refine ⟨fun heap => ?_, fun heap => ?_, fun heap f he k hlt => ?_⟩
    · rw [lookup_ok hs.consistent hs.mounted, lookup_ok ht.consistent ht.mounted,
        find_of_inUse hs.consistent hf, find_of_inUse ht.consistent hf', hk.entrySector]
    · rw [hopen, openFile_of_found ht.consistent ht.mounted heap name hf', hk.fileHeader]
    · rw [hopen] at he
      cases he
      exact content_congr (hs.consistent.valid j hu) (fun x hx => hk.sectors x (List.mem_cons_of_mem _ hx)) hlt

theorem create_exact (hr : Reached (· = .live) (· = .live) s) (heap : Heap) (name : Buffer) (h0 : 0 ≤ size)
    (hmax : size ≤ maxFileSize) :
    ∃ t success, s.step heap (.create name size) = .ok (t, .flag success) ∧
      (success = true ↔ Creatable s.disk name size) ∧
      (success = false → t.disk = s.disk) ∧
      (success = true →
        (∀ heap', ∃ f, t.fs.openFile t.disk heap' name = .ok (some f) ∧ f.length = size) ∧
          ∀ other, nameKey other ≠ nameKey name → Unchanged s t other) := by
  have hi := hr.live.inv
  obtain ⟨href, he⟩ | ⟨d', i, hcr, he⟩ := step_create hi heap name h0 hmax
  · refine ⟨s, false, he, iff_of_false (by simp) ?_, fun _ => rfl, by simp⟩
    exact fun hc => (not_refused_iff h0).mpr hc href
  · have ht := hi.created hcr
    refine ⟨_, true, he, iff_of_true rfl (hcr.creatable h0), by simp, fun _ => ⟨fun heap' => ?_, ?_⟩⟩
    · have hf := findIndex_unique hcr.consistent.unique hcr.inUse hcr.key
      exact ⟨_, openFile_of_found ht.consistent ht.mounted heap' name hf, hcr.length⟩
    · exact fun other hne => hi.unchanged ht (hcr.sameFile hne)

theorem create_exact_empty :
    ∃ s t : Session, s.step (fun _ _ => 0) (.create nameA 256) = .ok (t, .flag true) ∧ Creatable s.disk nameA 256 := by
  have hmax : (256 : Int) ≤ maxFileSize := by rw [maxFileSize_eq]; decide
  obtain ⟨s, he, hi, -, hempty⟩ := start_ok (fun _ _ => 0) (fun _ _ => 0)
  have hone : divRoundUp 256 sectorSize ≤ 1 := (one_sector (by decide) (by decide)).le
  have hc := (not_refused_iff (by decide)).mp (not_refused hi.consistent hempty nameA hone)
  obtain ⟨t, success, hstep, hiff, -⟩ := create_exact (.start ⟨_, _, he⟩) (fun _ _ => 0) nameA (by decide) hmax
  rw [hiff.mpr hc] at hstep
  exact ⟨s, t, hstep, hc⟩

def OnFile (name : Buffer) (m : Nat) : Op → Prop
  | .openFile other => other = name
  | .seek k position => m ≤ k ∧ -2 ^ 31 ≤ position ∧ position ≤ intMax
  | .readAt k _ _ => m ≤ k
  | .read k _ => m ≤ k
  | .writeAt k _ numBytes position => m ≤ k ∧ numBytes ≤ intMax ∧ -2 ^ 31 ≤ position ∧ position ≤ intMax
  | .write k _ numBytes => m ≤ k ∧ numBytes ≤ intMax
  | .create _ _ => False
  | .remove _ => False

structure Writing (d : Disk) (i : Fin numDirEntries) (m : Nat) (s : Session) : Prop where
  inv : s.Inv
  frame : ∀ x, x ∉ dataSectors (fileHeader d i) → s.disk x = d x
  handles : ∀ k, m ≤ k → ∀ h, s.handles[k]? = some h →
    h.file.hdr = fileHeader d i ∧ -2 ^ 31 ≤ h.file.seekPosition

section Writing

variable {d : Disk} {i : Fin numDirEntries} {m : Nat} {heap : Heap}

namespace Writing

theorem metadata (hw : Writing d i m s) (hc : Consistent d) (hi : InUse d i) (x : Nat) (hx : Metadata d x) :
    s.disk x = d x := hw.frame x (fun hmem => not_metadata hc hi hmem hx)

theorem setFile (hw : Writing d i m s) {k : Nat} (hm : m ≤ k) {h : Handle} (hk : s.handles[k]? = some h)
    {f : OpenFile} (hf : f.hdr = h.file.hdr) (hp : -2 ^ 31 ≤ f.seekPosition) : Writing d i m (s.setFile k h f) := by
  refine ⟨hw.inv.setFile hk hf, hw.frame, ?_⟩
  intro k' hm' h' hk'
  rw [Session.setFile, List.getElem?_set] at hk'
  split_ifs at hk' with hkk hlt
  · obtain rfl := Option.some.inj hk'
    exact ⟨hf.trans (hw.handles k hm h hk).1, hp⟩
  · exact hw.handles k' hm' h' hk'

theorem write (hw : Writing d i m s) (hc : Consistent d) (hi : InUse d i) {src : Buffer}
    {numBytes position n : Int} (hp : -2 ^ 31 ≤ position) (hn : numBytes ≤ intMax) {d' : Disk}
    (he : OpenFile.writeAt s.disk (fileHeader d i) heap src numBytes position = .ok (n, d')) :
    Writing d i m { s with disk := d' } := by
  have hmeta := hw.metadata hc hi
  have hframe := OpenFile.writeAt_frame_int (hc.valid i hi) hp hn he
  have hhdr := fileHeader_frame hmeta hc hi
  refine ⟨hw.inv.frame (fun x hx => hframe x (fun hmem => ?_)), fun x hx => ?_, hw.handles⟩
  · exact not_metadata hw.inv.consistent ((inUse_frame hmeta hc).mpr hi) (hhdr ▸ hmem) hx
  · exact (hframe x hx).trans (hw.frame x hx)

theorem step (hw : Writing d i m s) (hc : Consistent d) (hi : InUse d i)
    (hk : ((directory d).table i).key = nameKey name) {op : Op} (hop : OnFile name m op) {result : Result}
    (h : s.step heap op = .ok (t, result)) : Writing d i m t := by
  cases op with
  | create other size => exact absurd hop id
  | remove other => exact absurd hop id
  | openFile other =>
    obtain rfl : other = name := hop
    have hmeta := hw.metadata hc hi
    have hf := findIndex_unique hc.unique hi hk
    rw [← directory_frame hmeta hc] at hf
    obtain ⟨hn, -⟩ | ⟨j, hj, he⟩ := step_openFile hw.inv heap other
    · exact absurd (hf.symm.trans hn) (by simp)
    obtain rfl := Option.some.inj (hf.symm.trans hj)
    rw [he] at h
    obtain ⟨rfl, -⟩ := Prod.mk.inj (Except.ok.inj h)
    refine ⟨hw.inv.opened hf, hw.frame, ?_⟩
    intro k hm f hf'
    rw [List.getElem?_append] at hf'
    split_ifs at hf' with hlt
    · exact hw.handles k hm f hf'
    · obtain rfl := List.mem_singleton.mp (List.mem_of_getElem? hf')
      exact ⟨fileHeader_frame hmeta hc hi, show (-2 ^ 31 : Int) ≤ 0 by decide⟩
  | seek k position =>
    obtain rfl | ⟨f, hf, h⟩ := withHandle_ok h
    · exact hw
    · rw [← (Prod.mk.inj (Except.ok.inj h)).1]
      exact hw.setFile hop.1 hf rfl hop.2.1
  | readAt k numBytes position =>
    obtain rfl | ⟨f, hf, h⟩ := withHandle_ok h
    · exact hw
    · simp only [bind_eq_ok, Except.ok.injEq, Prod.mk.injEq] at h
      obtain ⟨-, -, rfl, -⟩ := h
      exact hw
  | writeAt k src numBytes position =>
    obtain rfl | ⟨f, hf, h⟩ := withHandle_ok h
    · exact hw
    · simp only [bind_eq_ok, Except.ok.injEq, Prod.mk.injEq] at h
      obtain ⟨⟨n, d'⟩, he, rfl, -⟩ := h
      rw [(hw.handles k hop.1 f hf).1] at he
      exact hw.write hc hi hop.2.2.1 hop.2.1 he
  | read k numBytes =>
    obtain rfl | ⟨f, hf, h⟩ := withHandle_ok h
    · exact hw
    · simp only [OpenFile.read, bind_eq_ok, Except.ok.injEq, Prod.mk.injEq] at h
      obtain ⟨-, ⟨-, -, rfl⟩, rfl, -⟩ := h
      exact hw.setFile hop hf rfl (neg_le_wrap _)
  | write k src numBytes =>
    obtain rfl | ⟨f, hf, h⟩ := withHandle_ok h
    · exact hw
    · simp only [OpenFile.write, bind_eq_ok, Except.ok.injEq, Prod.mk.injEq] at h
      obtain ⟨-, ⟨⟨n, d'⟩, he, rfl⟩, rfl, -⟩ := h
      obtain ⟨hhdr, hpos⟩ := hw.handles k hop.1 f hf
      rw [hhdr] at he
      exact (hw.write hc hi hpos hop.2 he).setFile hop.1 hf rfl (neg_le_wrap _)

theorem run (hw : Writing d i m s) (hc : Consistent d) (hi : InUse d i)
    (hk : ((directory d).table i).key = nameKey name) {ops : List (Heap × Op)}
    (hops : ∀ a ∈ ops, OnFile name m a.2) {results : List Result} (h : s.run ops = .ok (t, results)) :
    Writing d i m t := by
  induction ops generalizing s results with
  | nil =>
    obtain ⟨rfl, -⟩ := Prod.mk.inj (Except.ok.inj h)
    exact hw
  | cons a ops ih =>
    obtain ⟨heap, op⟩ := a
    simp only [Session.run, bind_eq_ok] at h
    obtain ⟨⟨s1, r⟩, hs, ⟨s2, rs⟩, hr, he⟩ := h
    obtain ⟨rfl, -⟩ := Prod.mk.inj (Except.ok.inj he)
    exact ih (hw.step hc hi hk (hops _ List.mem_cons_self) hs) (fun a ha => hops a (List.mem_cons_of_mem _ ha)) hr

end Writing

end Writing

/-- `Remove` undoes `Create`, whatever was written to the file between them. -/
theorem remove_undoes_create (hr : Reached (· = .live) (· = .live) s) (h0 : 0 ≤ size) (hmax : size ≤ maxFileSize)
    {heap : Heap} {s1 : Session} (hcreate : s.step heap (.create name size) = .ok (s1, .flag true))
    {ops : List (Heap × Op)} (hops : ∀ a ∈ ops, OnFile name s.handles.length a.2) {s2 : Session}
    {results : List Result} (hrun : s1.run ops = .ok (s2, results)) (heap' : Heap) :
    ∃ t, s2.step heap' (.remove name) = .ok (t, .flag true) ∧
      (∀ x < Disk.numSectors, (freeMap t.disk).map.test x = (freeMap s.disk).map.test x) ∧
      (∀ other, (directory t.disk).find other = (directory s.disk).find other) ∧
      ∀ other, Unchanged s t other := by
  have hi := hr.live.inv
  obtain ⟨-, he⟩ | ⟨d1, i, hcr, he⟩ := step_create hi heap name h0 hmax
  · rw [hcreate] at he
    cases he
  rw [hcreate] at he
  obtain ⟨rfl, -⟩ := Prod.mk.inj (Except.ok.inj he)
  have hw : Writing d1 i s.handles.length s2 := by
    apply Writing.run _ hcr.consistent hcr.inUse hcr.key hops hrun
    refine ⟨hi.created hcr, fun _ _ => rfl, ?_⟩
    intro k hk h hh
    have hlt := List.getElem?_eq_some_iff.mp hh
    simp only [List.length_map] at hlt
    obtain ⟨hlt, -⟩ := hlt
    omega
  have hf := findIndex_unique hcr.consistent.unique hcr.inUse hcr.key
  rw [← directory_frame (written_metadata hcr hw.frame) hcr.consistent] at hf
  obtain ⟨hn, -⟩ | ⟨d3, j, hj, hrm, hstep⟩ := step_remove hw.inv heap' name
  · exact absurd (hf.symm.trans hn) (by simp)
  obtain rfl := Option.some.inj (hf.symm.trans hj)
  have hmarked := undone_marked hcr hw.frame hrm
  have hsame := undone_sameFile hcr hw.frame hrm
  have hti := hw.inv.removed hrm
  refine ⟨_, hstep, ?_, ?_, fun other => hi.unchanged hti (hsame other)⟩
  · intro x hx
    have hiff : x ∈ (freeMap d3).marked ↔ x ∈ (freeMap s.disk).marked := by rw [hmarked]
    rw [BitMap.mem_marked, BitMap.mem_marked] at hiff
    rw [Bool.eq_iff_iff]
    exact ⟨fun h => (hiff.mp ⟨hx, h⟩).2, fun h => (hiff.mpr ⟨hx, h⟩).2⟩
  · intro other
    have hl := (hi.unchanged hti (hsame other)).lookup heap'
    rw [lookup_ok hi.consistent hi.mounted, lookup_ok hti.consistent hti.mounted] at hl
    exact Except.ok.inj hl

theorem remove_undoes_create_written :
    ∃ (s s1 s2 t : Session) (results : List Result),
      s.step (fun _ _ => 0) (.create nameA 256) = .ok (s1, .flag true) ∧
      s1.run [(fun _ _ => 0, .openFile nameA), (fun _ _ => 0, .write 0 (fun _ => 7) 10)] = .ok (s2, results) ∧
      s2.step (fun _ _ => 0) (.remove nameA) = .ok (t, .flag true) ∧
      ∀ other, (directory t.disk).find other = (directory s.disk).find other := by
  have hmax : (256 : Int) ≤ maxFileSize := by rw [maxFileSize_eq]; decide
  obtain ⟨⟨d, fs, handles⟩, he, hi, rfl, hempty⟩ := start_ok (fun _ _ => 0) (fun _ _ => 0)
  obtain ⟨href, -⟩ | ⟨d1, i, hcr, h1⟩ := step_create hi (fun _ _ => 0) nameA (by decide) hmax
  · exact absurd href (not_refused hi.consistent hempty nameA (one_sector (by decide) (by decide)).le)
  have hi1 : Inv ⟨d1, fs, []⟩ := hi.created hcr
  have hfind := findIndex_unique hi1.consistent.unique hcr.inUse hcr.key
  obtain ⟨hnone, -⟩ | ⟨j, hf, h2⟩ := step_openFile hi1 (fun _ _ => 0) nameA
  · exact absurd (hfind.symm.trans hnone) (by simp)
  obtain rfl := Option.some.inj (hfind.symm.trans hf)
  obtain ⟨d2, hw, -⟩ := OpenFile.writeAt_law d1 (hcr.consistent.valid i hcr.inUse) (fun _ _ => 0) (fun _ => 7) 10 0
    (by decide) (by decide)
  obtain ⟨s2, results, hrun⟩ : ∃ s2 results, Session.run ⟨d1, fs, []⟩
      [(fun _ _ => 0, .openFile nameA), (fun _ _ => 0, .write 0 (fun _ => 7) 10)] = .ok (s2, results) := by
    simp only [Session.run, h2, ok_bind]
    simp only [Session.step, withHandle, List.nil_append, List.getElem?_cons_zero, OpenFile.write, hw, ok_bind]
    exact ⟨_, _, rfl⟩
  have hops : ∀ a ∈ [((fun _ _ => 0 : Heap), Op.openFile nameA), (fun _ _ => 0, .write 0 (fun _ => 7) 10)],
      OnFile nameA ([] : List Handle).length a.2 := by
    simp [OnFile, intMax]
  obtain ⟨t, hrm, -, hfd, -⟩ := remove_undoes_create (.start ⟨_, _, he⟩) (by decide) hmax h1 hops hrun fun _ _ => 0
  exact ⟨_, _, s2, t, results, h1, hrun, hrm, hfd⟩

end Session

end Nachos
