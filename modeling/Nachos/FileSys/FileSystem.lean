import Nachos.FileSys.OpenFile
import Nachos.FileSys.Directory

namespace Nachos

open Disk CInt

def Heap.after (heap : Heap) (n : Nat) : Heap := fun k => heap (n + k)

def BitMap.fetchFrom (b : BitMap) (d : Disk) (file : OpenFile) (heap : Buffer) : Except Fault BitMap := do
  let (n, data) ← OpenFile.readAt d file.hdr heap (b.numWords * sizeofInt) 0
  .ok { b with map := fun i => ((Buffer.ofWords b.map).copy 0 data n.toNat).wordAt (4 * i) }

def BitMap.writeBack (b : BitMap) (d : Disk) (file : OpenFile) (heap : Heap) : Except Fault Disk := do
  let (_, d) ← OpenFile.writeAt d file.hdr heap (Buffer.ofWords b.map) (b.numWords * sizeofInt) 0
  .ok d

def Directory.fetchFrom {n : Nat} (dir : Directory n) (d : Disk) (file : OpenFile) (heap : Buffer) :
    Except Fault (Directory n) := do
  let (k, data) ← OpenFile.readAt d file.hdr heap (n * DirectoryEntry.sizeof) 0
  .ok (decode (dir.encode.copy 0 data k.toNat))

def Directory.writeBack {n : Nat} (dir : Directory n) (d : Disk) (file : OpenFile) (heap : Heap) :
    Except Fault Disk := do
  let (_, d) ← OpenFile.writeAt d file.hdr heap dir.encode (n * DirectoryEntry.sizeof) 0
  .ok d

structure FileSystem where
  freeMapFile : OpenFile
  directoryFile : OpenFile

namespace FileSystem

def freeMapSector : Int := 0
def directorySector : Int := 1
def freeMapFileSize : Int := Disk.numSectors / BitMap.bitsInByte
def numDirEntries : Nat := 10
def directoryFileSize : Int := DirectoryEntry.sizeof * numDirEntries

def mount (d : Disk) : Except Fault FileSystem := do
  let freeMapFile ← OpenFile.new d freeMapSector
  let directoryFile ← OpenFile.new d directorySector
  .ok ⟨freeMapFile, directoryFile⟩

def heapWords (heap : Buffer) : Words := fun i => heap.wordAt (4 * i)

def format (d : Disk) (heap : Heap) : Except Fault (FileSystem × Disk) := do
  let freeMap := BitMap.new Disk.numSectors (heapWords (heap 0))
  let directory := Directory.new numDirEntries (heap 1)
  let freeMap ← freeMap.mark freeMapSector
  let freeMap ← freeMap.mark directorySector
  let (success, mapHdr, freeMap) ← (FileHeader.decode (heap 2)).allocate freeMap freeMapFileSize
  assert (success = true)
  let (success, dirHdr, freeMap) ← (FileHeader.decode (heap 3)).allocate freeMap directoryFileSize
  assert (success = true)
  let d ← mapHdr.writeBack d freeMapSector
  let d ← dirHdr.writeBack d directorySector
  let fs ← mount d
  let d ← freeMap.writeBack d fs.freeMapFile (heap.after 4)
  let d ← directory.writeBack d fs.directoryFile (heap.after 7)
  .ok (fs, d)

def fetchDirectory (fs : FileSystem) (d : Disk) (heap : Heap) : Except Fault (Directory numDirEntries) :=
  (Directory.new numDirEntries (heap 0)).fetchFrom d fs.directoryFile (heap 1)

def fetchFreeMap (fs : FileSystem) (d : Disk) (heap : Heap) : Except Fault BitMap :=
  (BitMap.new Disk.numSectors (heapWords (heap 2))).fetchFrom d fs.freeMapFile (heap 3)

def create (fs : FileSystem) (d : Disk) (heap : Heap) (name : Buffer) (initialSize : Int) :
    Except Fault (Bool × Disk) := do
  let directory ← fs.fetchDirectory d heap
  if directory.find name ≠ -1 then .ok (false, d)
  else do
    let freeMap ← fs.fetchFreeMap d heap
    let (sector, freeMap) := freeMap.find
    if sector = -1 then .ok (false, d)
    else
      match directory.add name sector with
      | (false, _) => .ok (false, d)
      | (true, directory) => do
        let (success, hdr, freeMap) ← (FileHeader.decode (heap 4)).allocate freeMap initialSize
        if ¬success then .ok (false, d)
        else do
          let d ← hdr.writeBack d sector
          let d ← directory.writeBack d fs.directoryFile (heap.after 5)
          let d ← freeMap.writeBack d fs.freeMapFile (heap.after 8)
          .ok (true, d)

def lookup (fs : FileSystem) (d : Disk) (heap : Heap) (name : Buffer) : Except Fault Int := do
  let directory ← fs.fetchDirectory d heap
  .ok (directory.find name)

def openFile (fs : FileSystem) (d : Disk) (heap : Heap) (name : Buffer) : Except Fault (Option OpenFile) := do
  let sector ← fs.lookup d heap name
  if sector ≥ 0 then do
    let file ← OpenFile.new d sector
    .ok (some file)
  else .ok none

def remove (fs : FileSystem) (d : Disk) (heap : Heap) (name : Buffer) : Except Fault (Bool × Disk) := do
  let directory ← fs.fetchDirectory d heap
  let sector := directory.find name
  if sector = -1 then .ok (false, d)
  else do
    let fileHdr ← FileHeader.fetchFrom d sector
    let freeMap ← fs.fetchFreeMap d heap
    let freeMap ← fileHdr.deallocate freeMap
    let freeMap ← freeMap.clear sector
    let (_, directory) := directory.remove name
    let d ← freeMap.writeBack d fs.freeMapFile (heap.after 4)
    let d ← directory.writeBack d fs.directoryFile (heap.after 7)
    .ok (true, d)

end FileSystem

end Nachos
