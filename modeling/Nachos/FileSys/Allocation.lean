import Nachos.FileSys.Session
import Mathlib.Data.List.Nodup

namespace Nachos

open Disk CInt FileSystem Layout

namespace Layout

def listed (h : FileHeader) : List Int := (List.range h.numSectors.toInt.toNat).map h.sector

def inUse (d : Disk) : List (Fin numDirEntries) :=
  (List.finRange numDirEntries).filter fun i => ((directory d).table i).inUse

def entryOwned (d : Disk) (i : Fin numDirEntries) : List Int :=
  ((directory d).table i).sector.toInt :: listed (header d ((directory d).table i).sector.toInt.toNat)

def owned (d : Disk) : List Int :=
  freeMapSector :: directorySector :: (listed (mapHeader d) ++ listed (dirHeader d)) ++
    (inUse d).flatMap (entryOwned d)

variable {d : Disk}

theorem mem_inUse {i : Fin numDirEntries} : i ∈ inUse d ↔ InUse d i := by
  simp [inUse, InUse, List.mem_finRange]

theorem listed_eq {h : FileHeader} (hv : h.Valid) : listed h = (dataSectors h).map Int.ofNat := by
  rw [listed, dataSectors, FileHeader.blocks, List.map_map]
  apply List.map_congr_left
  intro i hi
  exact hv.sector i (List.mem_range.mp hi)

def ownedBlocks (d : Disk) : List Nat := system d ++ (inUse d).flatMap (fileSectors d)

theorem owned_eq (hc : Consistent d) : owned d = (ownedBlocks d).map Int.ofNat := by
  have he (i) (hi : i ∈ inUse d) : entryOwned d i = (fileSectors d i).map Int.ofNat := by
    have hi := mem_inUse.mp hi
    rw [entryOwned, hc.sector i hi, Int.toNat_natCast, ← fileHeader, listed_eq (hc.valid i hi), fileSectors,
      List.map_cons, Int.ofNat_eq_natCast]
  rw [owned, ownedBlocks, listed_eq hc.mapValid, listed_eq hc.dirValid, List.map_append, List.map_flatMap,
    List.flatMap_congr he]
  simp [system, freeMapSector, directorySector]

theorem mem_ownedBlocks {s : Nat} :
    s ∈ ownedBlocks d ↔ s ∈ system d ∨ ∃ i, InUse d i ∧ s ∈ fileSectors d i := by
  simp only [ownedBlocks, List.mem_append, List.mem_flatMap, mem_inUse]

theorem ownedBlocks_nodup (hc : Consistent d) : (ownedBlocks d).Nodup := by
  apply List.Nodup.append hc.systemNodup
  · rw [List.nodup_flatMap]
    refine ⟨fun i hi => hc.fileNodup i (mem_inUse.mp hi), ?_⟩
    have hn : (inUse d).Nodup := (List.nodup_finRange _).filter _
    apply hn.imp_of_mem
    intro i j hi hj hne
    exact hc.fileDisjoint i j (mem_inUse.mp hi) (mem_inUse.mp hj) hne
  · intro s hs hmem
    obtain ⟨i, hi, hsec⟩ := List.mem_flatMap.mp hmem
    exact hc.systemDisjoint i (mem_inUse.mp hi) hs hsec

end Layout

namespace Session

theorem allocation_invariant (s : Session) (h : Reached (· = .live) (· = .live) s) :
    (owned s.disk).Nodup ∧
      (∀ x ∈ owned s.disk, 0 ≤ x ∧ x < Disk.numSectors) ∧
      (∀ x : Nat, x < Disk.numSectors → ((freeMap s.disk).map.test x = true ↔ (x : Int) ∈ owned s.disk)) ∧
      ∀ name heap, ∃ result, s.fs.remove s.disk heap name = .ok result := by
  have hi := h.live.inv
  have hc := hi.consistent
  rw [owned_eq hc]
  refine ⟨(ownedBlocks_nodup hc).map (fun _ _ => Int.ofNat.inj), ?_, ?_, ?_⟩
  · intro x hx
    obtain ⟨s, hs, rfl⟩ := List.mem_map.mp hx
    have := mem_lt hc (mem_ownedBlocks.mp hs)
    rw [Int.ofNat_eq_natCast]
    omega
  · intro x hx
    rw [← Int.ofNat_eq_natCast, List.mem_map_of_injective (fun _ _ => Int.ofNat.inj), mem_ownedBlocks, ← hc.marked, BitMap.mem_marked]
    exact (and_iff_right hx).symm
  · intro name heap
    obtain ⟨-, he⟩ | ⟨d', i, -, he, -⟩ := remove_cases hc hi.mounted heap name
    · exact ⟨_, he⟩
    · exact ⟨_, he⟩

theorem allocation_invariant_opened :
    ∃ s : Session, s.handles.length = 1 ∧ (owned s.disk).Nodup := by
  obtain ⟨d, d1, fs, i, -, -, hr, -⟩ := opened_file (· = .live) (· = .live)
  exact ⟨_, rfl, (allocation_invariant _ hr).1⟩

end Session

end Nachos
