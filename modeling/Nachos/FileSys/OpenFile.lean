import Nachos.FileSys.FileHeader

namespace Nachos

open Disk CInt

/-- What the blocks allocated by an operation hold before they are written, in order of allocation. -/
abbrev Heap := Nat → Buffer

structure OpenFile where
  hdr : FileHeader
  seekPosition : Int

namespace OpenFile

def new (d : Disk) (sector : Int) : Except Fault OpenFile := do
  let hdr ← FileHeader.fetchFrom d sector
  .ok ⟨hdr, 0⟩

def seek (f : OpenFile) (position : Int) : OpenFile := { f with seekPosition := position }

def length (f : OpenFile) : Int := f.hdr.fileLength

def clip (fileLength numBytes position : Int) : Int :=
  if wrap (position + numBytes) > fileLength then wrap (fileLength - position) else numBytes

def readSectors (d : Disk) (h : FileHeader) (firstSector : Int) (buf : Block) : Nat → Except Fault Block
  | 0 => .ok buf
  | n + 1 => do
    let buf ← readSectors d h firstSector buf n
    let s ← h.byteToSector (wrap ((firstSector + n) * sectorSize))
    let data ← d.readSector s
    buf.store (wrap (n * sectorSize)) data sectorSize

def readAt (d : Disk) (h : FileHeader) (heap : Buffer) (numBytes position : Int) :
    Except Fault (Int × Buffer) :=
  if numBytes ≤ 0 ∨ position ≥ h.fileLength then .ok (0, fun _ => 0)
  else do
    let numBytes := clip h.fileLength numBytes position
    let firstSector := divRoundDown position sectorSize
    let lastSector := divRoundDown (wrap (wrap (position + numBytes) - 1)) sectorSize
    let numSectors := wrap (1 + lastSector - firstSector)
    let buf ← Block.new heap (wrap (numSectors * sectorSize))
    let buf ← readSectors d h firstSector buf (1 + lastSector - firstSector).toNat
    let data ← buf.load (wrap (position - wrap (firstSector * sectorSize))) numBytes
    .ok (numBytes, data)

def writeSectors (d : Disk) (h : FileHeader) (firstSector : Int) (buf : Block) : Nat → Except Fault Disk
  | 0 => .ok d
  | n + 1 => do
    let d ← writeSectors d h firstSector buf n
    let s ← h.byteToSector (wrap ((firstSector + n) * sectorSize))
    let data ← buf.load (wrap (n * sectorSize)) sectorSize
    d.writeSector s data

def readPartial (partially : Prop) [Decidable partially] (d : Disk) (h : FileHeader) (heap : Buffer)
    (buf : Block) (start position : Int) : Except Fault Block :=
  -- `ReadAt(&buf[start], SectorSize, position)`, done only for a sector that is partially modified
  if partially then do
    let (n, data) ← readAt d h heap sectorSize position
    buf.store start data n
  else .ok buf

def writeAt (d : Disk) (h : FileHeader) (heap : Heap) (src : Buffer) (numBytes position : Int) :
    Except Fault (Int × Disk) :=
  if numBytes ≤ 0 ∨ position ≥ h.fileLength then .ok (0, d)
  else do
    let numBytes := clip h.fileLength numBytes position
    let firstSector := divRoundDown position sectorSize
    let lastSector := divRoundDown (wrap (wrap (position + numBytes) - 1)) sectorSize
    let numSectors := wrap (1 + lastSector - firstSector)
    let buf ← Block.new (heap 0) (wrap (numSectors * sectorSize))
    let firstAligned := position = wrap (firstSector * sectorSize)
    let lastAligned := wrap (position + numBytes) = wrap (wrap (lastSector + 1) * sectorSize)
    let buf ← readPartial (¬firstAligned) d h (heap 1) buf 0 (wrap (firstSector * sectorSize))
    let buf ← readPartial (¬lastAligned ∧ (firstSector ≠ lastSector ∨ firstAligned)) d h (heap 2) buf
      (wrap (wrap (lastSector - firstSector) * sectorSize)) (wrap (lastSector * sectorSize))
    let buf ← buf.store (wrap (position - wrap (firstSector * sectorSize))) src numBytes
    let d ← writeSectors d h firstSector buf (1 + lastSector - firstSector).toNat
    .ok (numBytes, d)

def read (f : OpenFile) (d : Disk) (heap : Buffer) (numBytes : Int) :
    Except Fault (Int × Buffer × OpenFile) := do
  let (result, data) ← readAt d f.hdr heap numBytes f.seekPosition
  .ok (result, data, f.seek (wrap (f.seekPosition + result)))

def write (f : OpenFile) (d : Disk) (heap : Heap) (src : Buffer) (numBytes : Int) :
    Except Fault (Int × Disk × OpenFile) := do
  let (result, d) ← writeAt d f.hdr heap src numBytes f.seekPosition
  .ok (result, d, f.seek (wrap (f.seekPosition + result)))

end OpenFile

end Nachos
