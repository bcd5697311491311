import Nachos.FileSys.Session

namespace Nachos

open Disk CInt FileSystem Layout

def Handle.Owns (h : Handle) (d : Disk) (i : Fin numDirEntries) : Prop :=
  h.standing = .live ∧ h.sector = entrySector d i

theorem Handle.Good.apart {d : Disk} {h : Handle} (hg : h.Good d) (hc : Consistent d)
    (hs : h.standing ≠ .overtaken) {i : Fin numDirEntries} (hi : InUse d i) (ho : ¬h.Owns d i) :
    (dataSectors h.file.hdr).Disjoint (fileSectors d i) := by
  cases hst : h.standing with
  | live =>
    obtain ⟨j, hl⟩ := hg.live hst
    have hne : j ≠ i := by rintro rfl; exact ho ⟨hst, hl.sector⟩
    rw [hl.header]
    exact fun x hx hx' => hc.fileDisjoint j i hl.inUse hi hne (List.mem_cons_of_mem _ hx) hx'
  | removed => exact fun x hx hx' => (hg.free hst).2 x hx (hc.file_marked hi hx')
  | overtaken => exact absurd hst hs

theorem Handle.against_free {h : Handle} {marked : Finset Nat} (hs : h.standing ≠ .live)
    (hf : ∀ x ∈ dataSectors h.file.hdr, x ∉ marked) : h.against marked = { h with standing := .removed } := by
  have hn : ¬∃ x ∈ dataSectors h.file.hdr, x ∈ marked := by
    rintro ⟨x, hx, hm⟩
    exact hf x hx hm
  rw [against, if_neg hs, if_neg hn]

theorem Handle.against_taken {h : Handle} {marked : Finset Nat} (hs : h.standing ≠ .live) {x : Nat}
    (hx : x ∈ dataSectors h.file.hdr) (hm : x ∈ marked) : h.against marked = { h with standing := .overtaken } := by
  rw [against, if_neg hs, if_pos ⟨x, hx, hm⟩]

namespace Layout

theorem Removed.handle {d d' : Disk} {i : Fin numDirEntries} (hr : Removed d i d') {name : Buffer} {position : Int} :
    (Handle.afterRemove ⟨⟨fileHeader d i, position⟩, name, entrySector d i, .live⟩ (entrySector d i)).against
        (freeMap d').marked = ⟨⟨fileHeader d i, position⟩, name, entrySector d i, .removed⟩ := by
  rw [Handle.afterRemove, if_pos ⟨rfl, rfl⟩, Handle.against_free (by simp)]
  intro x hx
  rw [hr.marked, Finset.mem_sdiff, List.mem_toFinset]
  exact fun hm => hm.2 (List.mem_cons_of_mem _ hx)

theorem reused {d d1 d2 d3 : Disk} {a b : Buffer} {size : Int} {i j : Fin numDirEntries}
    (hcr : Created d a size i d1) (hr : Removed d1 i d2) (hcr' : Created d2 b size j d3) :
    fileSectors d3 j = fileSectors d1 i := by
  have hm : (freeMap d2).marked = (freeMap d).marked := by rw [hr.marked, hcr.marked_sdiff]
  rw [hcr'.sectors, hcr.sectors, hm]

end Layout

namespace Session

variable {s t : Session} {heap : Heap}

/-- Writes through a handle that was not overtaken reach nothing but the file it was opened for. -/
theorem writeAt_isolated (hr : Reached (fun _ => True) (· ≠ .overtaken) s) {k : Nat} {h : Handle}
    (hk : s.handles[k]? = some h) (hs : h.standing ≠ .overtaken) {src : Buffer} {numBytes position : Int}
    (hn : numBytes ≤ intMax) (hp : 0 ≤ position) {result : Result}
    (he : s.step heap (.writeAt k src numBytes position) = .ok (t, result)) :
    (∀ x ∈ system s.disk, t.disk x = s.disk x) ∧
      (∀ i, InUse s.disk i → t.disk (entrySector s.disk i) = s.disk (entrySector s.disk i)) ∧
      ∀ i, InUse s.disk i → ¬h.Owns s.disk i → ∀ y < (fileHeader s.disk i).len,
        (fileHeader s.disk i).content t.disk y = (fileHeader s.disk i).content s.disk y := by
  have hi := hr.inv
  have hg := hi.handles h (List.mem_of_getElem? hk)
  obtain ⟨hv, hm⟩ := hg.writable hi.consistent hs
  simp only [step, withHandle, hk, bind_eq_ok, Except.ok.injEq, Prod.mk.injEq] at he
  obtain ⟨⟨n, d'⟩, hw, rfl, -⟩ := he
  have hframe := OpenFile.writeAt_frame hv hp hn hw
  refine ⟨fun x hx => hframe x (fun hmem => hm x hmem (.inl hx)),
    fun i hin => hframe _ (fun hmem => hm _ hmem (.inr ⟨i, hin, rfl⟩)), fun i hin ho y hy => ?_⟩
  apply content_congr (hi.consistent.valid i hin) _ hy
  exact fun x hx => hframe x (fun hmem => hg.apart hi.consistent hs hin ho hmem (List.mem_cons_of_mem _ hx))

def nameB : Buffer := fun k => if k = 0 then 98 else 0

theorem removed_file (reads writes : Standing → Prop) :
    ∃ d d1 d2 fs i, Created d nameA 256 i d1 ∧ Removed d1 i d2 ∧ (∀ j, ¬InUse d2 j) ∧
      Reached reads writes ⟨d2, fs, [⟨⟨fileHeader d1 i, 0⟩, nameA, entrySector d1 i, .removed⟩]⟩ ∧
      Inv ⟨d2, fs, [⟨⟨fileHeader d1 i, 0⟩, nameA, entrySector d1 i, .removed⟩]⟩ := by
  obtain ⟨d, d1, fs, i, hempty, hcr, hr, hi⟩ := opened_file reads writes
  have hfind := Directory.findIndex_unique hi.consistent.unique hcr.inUse hcr.key
  obtain ⟨hnone, -⟩ | ⟨d2, i', hf, hrm, h3⟩ := step_remove hi (fun _ _ => 0) nameA
  · exact absurd (hfind.symm.trans hnone) (by simp)
  obtain rfl : i = i' := Option.some.inj (hfind.symm.trans hf)
  have hi3 := hi.removed hrm
  have hr3 := hr.next _ (.remove nameA) trivial h3
  simp only [List.map_cons, List.map_nil, hrm.handle] at hi3 hr3
  refine ⟨d, d1, d2, fs, i, hcr, hrm, fun j => ?_, hr3, hi3⟩
  by_cases hj : j = i
  · rw [hj]
    exact hrm.gone
  · rw [InUse, hrm.entry j hj, hcr.entry j hj]
    exact hempty j

theorem writeAt_isolated_removed :
    ∃ (s t : Session) (h : Handle) (result : Result) (j : Fin numDirEntries),
      s.handles[0]? = some h ∧ h.standing = .removed ∧ InUse s.disk j ∧ h.sector = entrySector s.disk j ∧
      s.step (fun _ _ => 0) (.writeAt 0 (fun _ => 7) 256 0) = .ok (t, result) ∧
      t.disk (entrySector s.disk j) = s.disk (entrySector s.disk j) := by
  have hmax : (0 : Int) ≤ maxFileSize := by rw [maxFileSize_eq]; decide
  have hnone : divRoundUp 0 sectorSize = 0 := by rw [sectorSize_eq]; rfl
  obtain ⟨d, d1, d2, fs, i, hcr, hrm, hempty, hr, hi⟩ := removed_file (fun _ => True) (· ≠ .overtaken)
  obtain ⟨href, -⟩ | ⟨d3, j, hcr', h4⟩ := step_create hi (fun _ _ => 0) nameB (le_refl 0) hmax
  · exact absurd href (not_refused hrm.consistent hempty nameB (hnone.trans_le Int.one_nonneg))
  have hr4 := hr.next _ (.create nameB 0) ⟨le_refl 0, hmax⟩ h4
  have hfile : fileSectors d3 j = [entrySector d1 i] := by
    have hm : (freeMap d2).marked = (freeMap d).marked := by rw [hrm.marked, hcr.marked_sdiff]
    have hfirst := (List.cons.inj hcr.sectors).1
    rw [hcr'.sectors, hm, placement, hnone, hfirst]
    rfl
  have hsector : entrySector d3 j = entrySector d1 i := (List.cons.inj hfile).1
  have hfree : ∀ x ∈ dataSectors (fileHeader d1 i), x ∉ (freeMap d3).marked := by
    intro x hx
    rw [hcr'.marked, hfile, Finset.mem_union, not_or]
    refine ⟨?_, ?_⟩
    · rw [hrm.marked, Finset.mem_sdiff, List.mem_toFinset]
      exact fun hm => hm.2 (List.mem_cons_of_mem _ hx)
    · rw [List.toFinset_cons, List.toFinset_nil, insert_empty_eq, Finset.mem_singleton]
      rintro rfl
      exact (List.nodup_cons.mp (hcr.consistent.fileNodup i hcr.inUse)).1 hx
  have hh := Handle.against_free (h := ⟨⟨fileHeader d1 i, 0⟩, nameA, entrySector d1 i, .removed⟩) (by simp) hfree
  obtain ⟨d', he, -⟩ := OpenFile.writeAt_law d3 (hcr.consistent.valid i hcr.inUse) (fun _ _ => 0) (fun _ => 7)
    256 0 (by decide) (by decide)
  have hk : ([⟨⟨fileHeader d1 i, 0⟩, nameA, entrySector d1 i, .removed⟩].map
      (Handle.against · (freeMap d3).marked))[0]? = some ⟨⟨fileHeader d1 i, 0⟩, nameA, entrySector d1 i, .removed⟩ :=
    congrArg some hh
  have hstep := step_writeAt (s := ⟨d3, fs, _⟩) hk he
  have hsame := (writeAt_isolated hr4 hk (by simp) (by decide) (by decide) hstep).2.1 j hcr'.inUse
  have hsec : (entrySector d1 i : Int) = entrySector d3 j := by rw [hsector]
  exact ⟨⟨d3, fs, _⟩, _, _, _, j, hk, rfl, hcr'.inUse, hsec, hstep, hsame⟩

theorem overtaken_shares :
    ∃ s h j, Reached (fun _ => True) (fun _ => True) s ∧ s.handles[0]? = some h ∧ h.standing = .overtaken ∧
      h.file.hdr.Valid ∧ h.file.hdr.fileLength = 256 ∧ InUse s.disk j ∧ (fileHeader s.disk j).Valid ∧
      (fileHeader s.disk j).fileLength = 256 ∧ dataSectors h.file.hdr = dataSectors (fileHeader s.disk j) := by
  have hmax : (256 : Int) ≤ maxFileSize := by rw [maxFileSize_eq]; decide
  obtain ⟨d, d1, d2, fs, i, hcr, hrm, hempty, hr, hi⟩ := removed_file (fun _ => True) (fun _ => True)
  obtain ⟨href, -⟩ | ⟨d3, j, hcr', h4⟩ := step_create hi (fun _ _ => 0) nameB (by decide) hmax
  · exact absurd href (not_refused hrm.consistent hempty nameB (one_sector (by decide) (by decide)).le)
  have hr4 := hr.next _ (.create nameB 256) ⟨by decide, hmax⟩ h4
  have hv := hcr.consistent.valid i hcr.inUse
  have hsame := (List.cons.inj (reused hcr hrm hcr')).2
  have hmem : (fileHeader d1 i).block 0 ∈ dataSectors (fileHeader d1 i) := by
    apply FileHeader.Valid.block_mem
    rw [FileHeader.size, hv.numSectors, hcr.length, one_sector (by decide) (by decide)]
    decide
  have hmarked : (fileHeader d1 i).block 0 ∈ (freeMap d3).marked :=
    hcr'.consistent.file_marked hcr'.inUse (List.mem_cons_of_mem _ (hsame ▸ hmem))
  have hh := Handle.against_taken (h := ⟨⟨fileHeader d1 i, 0⟩, nameA, entrySector d1 i, .removed⟩) (by simp) hmem
    hmarked
  exact ⟨_, _, j, hr4, congrArg some hh, rfl, hv, hcr.length, hcr'.inUse, hcr'.consistent.valid j hcr'.inUse,
    hcr'.length, hsame.symm⟩

theorem block_eq {h h' : FileHeader} (hv : h.Valid) (hv' : h'.Valid) (hl : h.fileLength = 256)
    (hl' : h'.fileLength = 256) (hs : dataSectors h = dataSectors h') : h.block 0 = h'.block 0 := by
  have h1 := hv.numSectors
  have h2 := hv'.numSectors
  rw [hl, one_sector (by decide) (by decide)] at h1
  rw [hl', one_sector (by decide) (by decide)] at h2
  simpa [dataSectors, FileHeader.blocks, FileHeader.size, h1, h2] using hs

theorem isolation_fails :
    ¬∀ s, Reached (fun _ => True) (fun _ => True) s → ∀ k h, s.handles[k]? = some h →
      ∀ src numBytes position heap t result, numBytes ≤ intMax → 0 ≤ position →
        s.step heap (.writeAt k src numBytes position) = .ok (t, result) →
        ∀ i, InUse s.disk i → ¬h.Owns s.disk i → ∀ y < (fileHeader s.disk i).len,
          (fileHeader s.disk i).content t.disk y = (fileHeader s.disk i).content s.disk y := by
  intro hall
  obtain ⟨s, h, j, hr, hk, hst, hv, hl, hin, hv', hl', hs⟩ := overtaken_shares
  have hb := block_eq hv hv' hl hl' hs
  obtain ⟨d', he, hc, -⟩ := OpenFile.writeAt_law s.disk hv (fun _ _ => 0)
    (fun _ => (fileHeader s.disk j).content s.disk 0 + 1) 256 0 (by decide) (by decide)
  have hstep := step_writeAt hk he
  have hsame := hall s hr 0 h hk _ 256 0 _ _ _ (by decide) (by decide) hstep j hin
    (fun ho => absurd (hst.symm.trans ho.1) (by decide)) 0 (by rw [len_eq hl']; decide)
  have hnew := hc 0 (by rw [hl]; decide)
  rw [hl, if_pos (by decide)] at hnew
  have hzero (d : Disk) : h.file.hdr.content d 0 = (fileHeader s.disk j).content d 0 := by
    rw [FileHeader.content, FileHeader.content, Nat.zero_div, hb]
  rw [hzero, hsame] at hnew
  exact absurd hnew (by simp)

end Session

end Nachos
