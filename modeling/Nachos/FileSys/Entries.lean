import Nachos.FileSys.Fetch

namespace Nachos.Layout

open Disk FileSystem

variable {d d' : Disk} {i j : Fin numDirEntries}

structure Kept (d d' : Disk) (j : Fin numDirEntries) : Prop where
  entry : (directory d').table j = (directory d).table j
  sectors : ∀ s ∈ fileSectors d j, d' s = d s

namespace Kept

variable (hk : Kept d d' j)
include hk

theorem inUse : InUse d' j ↔ InUse d j := by rw [InUse, InUse, hk.entry]

theorem entrySector : entrySector d' j = entrySector d j := by
  rw [Layout.entrySector, Layout.entrySector, hk.entry]

theorem fileHeader : fileHeader d' j = fileHeader d j := by
  rw [Layout.fileHeader, Layout.fileHeader, header, header, hk.entrySector,
    hk.sectors _ (List.mem_cons_self ..)]

theorem fileSectors : fileSectors d' j = fileSectors d j := by
  rw [Layout.fileSectors, Layout.fileSectors, hk.entrySector, hk.fileHeader]

end Kept

structure Fits (d d' : Disk) (i : Fin numDirEntries) : Prop where
  sector : ((directory d').table i).sector.toInt = entrySector d' i
  valid : (fileHeader d' i).Valid
  nodup : (fileSectors d' i).Nodup
  fresh : ∀ s ∈ fileSectors d' i, s ∉ system d ∧ ∀ j, j ≠ i → InUse d j → s ∉ fileSectors d j

theorem Consistent.change (hc : Consistent d) (h0 : d' 0 = d 0) (h1 : d' 1 = d 1)
    (hu : (directory d').Unique) (hentry : ∀ j, j ≠ i → (directory d').table j = (directory d).table j)
    (hkept : ∀ j, j ≠ i → InUse d j → Kept d d' j) (hi : InUse d' i → Fits d d' i)
    (hm : ∀ s, s ∈ (freeMap d').marked ↔ s ∈ system d ∨ (InUse d' i ∧ s ∈ fileSectors d' i) ∨
      ∃ j, j ≠ i ∧ InUse d j ∧ s ∈ fileSectors d j) : Consistent d' := by
  obtain ⟨hmap, hdir, hs⟩ := hc.toSystem.congr h0 h1
  have hsys : system d' = system d := by rw [system, system, hmap, hdir]
  have hold (j) (hj : j ≠ i) (h : InUse d' j) : InUse d j := by rwa [InUse, ← hentry j hj]
  have hsec (j) (hj : j ≠ i) (h : InUse d' j) : fileSectors d' j = fileSectors d j :=
    (hkept j hj (hold j hj h)).fileSectors
  refine ⟨hs, hu, ?_, ?_, ?_, ?_, ?_, ?_⟩
  · intro j hj
    by_cases hji : j = i
    · subst hji; exact (hi hj).sector
    · have hk := hkept j hji (hold j hji hj)
      rw [hk.entry, hk.entrySector]
      exact hc.sector j (hold j hji hj)
  · intro j hj
    by_cases hji : j = i
    · subst hji; exact (hi hj).valid
    · rw [(hkept j hji (hold j hji hj)).fileHeader]
      exact hc.valid j (hold j hji hj)
  · intro j hj
    by_cases hji : j = i
    · subst hji; exact (hi hj).nodup
    · rw [hsec j hji hj]
      exact hc.fileNodup j (hold j hji hj)
  · intro j hj
    rw [hsys]
    by_cases hji : j = i
    · subst hji; exact fun s hs hs' => ((hi hj).fresh s hs').1 hs
    · rw [hsec j hji hj]
      exact hc.systemDisjoint j (hold j hji hj)
  · intro j k hj hk hjk
    by_cases hji : j = i
    · subst hji
      rw [hsec k hjk.symm hk]
      exact fun s hs hs' => ((hi hj).fresh s hs).2 k hjk.symm (hold k hjk.symm hk) hs'
    · rw [hsec j hji hj]
      by_cases hki : k = i
      · subst hki
        exact fun s hs hs' => ((hi hk).fresh s hs').2 j hji (hold j hji hj) hs
      · rw [hsec k hki hk]
        exact hc.fileDisjoint j k (hold j hji hj) (hold k hki hk) hjk
  · intro s
    rw [hm, hsys]
    apply or_congr Iff.rfl
    constructor
    · rintro (⟨hi', hmem⟩ | ⟨j, hji, hj, hmem⟩)
      · exact ⟨i, hi', hmem⟩
      · have hk := hkept j hji hj
        exact ⟨j, hk.inUse.mpr hj, hk.fileSectors ▸ hmem⟩
    · rintro ⟨j, hj, hmem⟩
      by_cases hji : j = i
      · subst hji; exact .inl ⟨hj, hmem⟩
      · exact .inr ⟨j, hji, hold j hji hj, hsec j hji hj ▸ hmem⟩

theorem Consistent.fresh_of_clear (hc : Consistent d) {s : Nat} (hs : s ∉ (freeMap d).marked) :
    s ∉ system d ∧ ∀ j, InUse d j → s ∉ fileSectors d j := by
  rw [hc.marked, not_or] at hs
  exact ⟨hs.1, fun j hj hmem => hs.2 ⟨j, hj, hmem⟩⟩

theorem Consistent.system_marked (hc : Consistent d) {s : Nat} (hs : s ∈ system d) : s ∈ (freeMap d).marked :=
  (hc.marked s).mpr (.inl hs)

theorem Consistent.file_marked (hc : Consistent d) (hi : InUse d i) {s : Nat} (hs : s ∈ fileSectors d i) :
    s ∈ (freeMap d).marked := (hc.marked s).mpr (.inr ⟨i, hi, hs⟩)

theorem Consistent.entrySector_lt (hc : Consistent d) (hi : InUse d i) : entrySector d i < Disk.numSectors :=
  mem_lt hc (.inr ⟨i, hi, List.mem_cons_self ..⟩)

end Nachos.Layout
