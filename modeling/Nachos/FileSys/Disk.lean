import Nachos.Lib.CInt
import Nachos.Lib.Heap
import Mathlib.Logic.Function.Basic
import Mathlib.Tactic.Linarith

namespace Nachos

def divRoundDown (n s : Int) : Int := n.tdiv s
def divRoundUp (n s : Int) : Int := n.tdiv s + if n.tmod s > 0 then 1 else 0

theorem divRoundUp_of_nonneg {n s : Int} (hn : 0 ≤ n) (hs : 0 < s) : divRoundUp n s = (n + s - 1) / s := by
  rw [divRoundUp, CInt.tdiv_of_nonneg hn, CInt.tmod_of_nonneg hn]
  have hd := Int.mul_ediv_add_emod n s
  have hl := Int.emod_nonneg n hs.ne'
  have hu := Int.emod_lt_of_pos n hs
  symm
  split_ifs with h
  · rw [Int.ediv_eq_iff_of_pos hs]
    constructor <;> nlinarith
  · rw [Int.ediv_eq_iff_of_pos hs]
    constructor <;> nlinarith

/-- The bytes of every sector; only the first `sectorSize` bytes of the first
`numSectors` sectors exist on the device. -/
abbrev Disk := Nat → Buffer

namespace Disk

@[irreducible] def sectorSize : Nat := 256
def sectorsPerTrack : Nat := 32
def numTracks : Nat := 32
def numSectors : Nat := sectorsPerTrack * numTracks

theorem sectorSize_eq : sectorSize = 256 := by rw [sectorSize]

theorem sectorSize_pos : 0 < sectorSize := by rw [sectorSize]; decide

def readSector (d : Disk) (sector : Int) : Except Fault Buffer := do
  assert (0 ≤ sector ∧ sector < numSectors)
  .ok (d sector.toNat)

def writeSector (d : Disk) (sector : Int) (data : Buffer) : Except Fault Disk := do
  assert (0 ≤ sector ∧ sector < numSectors)
  .ok (Function.update d sector.toNat ((d sector.toNat).copy 0 data sectorSize))

variable {d : Disk} {sector : Int}

theorem readSector_ok (h : 0 ≤ sector) (h' : sector < numSectors) :
    d.readSector sector = .ok (d sector.toNat) := by
  simp [readSector, assert_pos (And.intro h h')]

theorem writeSector_ok (h : 0 ≤ sector) (h' : sector < numSectors) (data : Buffer) :
    d.writeSector sector data =
      .ok (Function.update d sector.toNat ((d sector.toNat).copy 0 data sectorSize)) := by
  simp [writeSector, assert_pos (And.intro h h')]

end Disk

end Nachos
