import Nachos.Machine.Translate

namespace Nachos

abbrev Name := List Byte

structure UnixFile where
  length : Nat
  bytes : Buffer

namespace UnixFile

def empty : UnixFile := ⟨0, fun _ => 0⟩

def readAt (f : UnixFile) (into : Buffer) (start numBytes : Nat) (position : Int) : Except Fault (Nat × Buffer) := do
  -- `OpenFile::ReadAt(into + start, numBytes, position)` of the stub: `Lseek` asserts, and `ReadPartial` stops at
  -- the end of the file
  assert (0 ≤ position)
  let n := min numBytes (f.length - position.toNat)
  .ok (n, into.copy start (fun k => f.bytes (position.toNat + k)) n)

def writeAt (f : UnixFile) (src : Buffer) (numBytes : Nat) (position : Int) : Except Fault UnixFile := do
  assert (0 ≤ position)
  if numBytes = 0 then .ok f
  else
    -- a hole between the old end and `position` reads as zeroes
    let old : Buffer := fun k => if k < f.length then f.bytes k else 0
    .ok ⟨max f.length (position.toNat + numBytes), old.copy position.toNat src numBytes⟩

end UnixFile

abbrev Files := Name → Option UnixFile

structure Segment where
  virtualAddr : Word
  inFileAddr : Word
  size : Word

structure NoffHeader where
  noffMagic : Word
  code : Segment
  initData : Segment
  uninitData : Segment

def noffMagic : Word := 0xbadfad

def noffHeaderSize : Nat := 40

namespace NoffHeader

def load (host : Host) (b : Buffer) : NoffHeader :=
  let word := fun i => host.loadWord b (4 * i)
  let segment := fun i => Segment.mk (word i) (word (i + 1)) (word (i + 2))
  ⟨word 0, segment 1, segment 4, segment 7⟩

def swapHeader (host : Host) (h : NoffHeader) : NoffHeader :=
  let swap := fun s : Segment =>
    Segment.mk (wordToHost host s.virtualAddr) (wordToHost host s.inFileAddr) (wordToHost host s.size)
  ⟨wordToHost host h.noffMagic, swap h.code, swap h.initData, swap h.uninitData⟩

def toHost (host : Host) (h : NoffHeader) : NoffHeader :=
  if h.noffMagic ≠ Nachos.noffMagic ∧ wordToHost host h.noffMagic = Nachos.noffMagic then h.swapHeader host
  else h

def userStackSize : Word := 1024

def size (h : NoffHeader) : Word := h.code.size + h.initData.size + h.uninitData.size + userStackSize

end NoffHeader

/-- What memory holds that nobody has initialised: the header on the stack, the copy buffer and the
page table on the heap. -/
structure Garbage where
  header : Buffer
  buffer : Buffer
  entries : Nat → TranslationEntry

structure AddrSpace where
  pageTable : Nat → TranslationEntry
  numPages : Word
  swapFileName : Name

namespace AddrSpace

def swapName (threadID : Nat) : Name := (toString threadID ++ ".swap").toList.map (fun c => .ofNat 8 c.toNat)

def pagesFor (size : Word) : Word := size / .ofNat 32 pageSize + if size % .ofNat 32 pageSize = 0 then 0 else 1

def emptyTable (entries : Nat → TranslationEntry) (numPages : Nat) : Nat → TranslationEntry := fun i =>
  if i < numPages then
    { entries i with virtualPage := .ofNat 32 i, valid := false, use := false, dirty := false, readOnly := false }
  else entries i

def readHeader (host : Host) (garbage : Garbage) (executable : UnixFile) : Except Fault NoffHeader := do
  let (_, raw) ← executable.readAt garbage.header 0 noffHeaderSize 0
  .ok ((NoffHeader.load host raw).toHost host)

def makeSwap (garbage : Garbage) (files : Files) (executable swapFileName : Name) (size : Word) :
    Except Fault Files := do
  -- create the swap file and copy what follows the header of the executable into it. `Create` truncates, also when
  -- the executable itself has that name
  let files := Function.update files swapFileName (some .empty)
  let block ← Block.new garbage.buffer size.toInt
  let some f := files executable | .error .indeterminate
  let (_, buffer) ← f.readAt block.bytes 0 size.toNat noffHeaderSize
  let swapFile ← UnixFile.empty.writeAt buffer size.toNat 0
  .ok (Function.update files swapFileName (some swapFile))

def new (host : Host) (garbage : Garbage) (files : Files) (executable : Name) (threadID : Nat) :
    Except Fault (Option AddrSpace × Files) := do
  -- `AddrSpace::AddrSpace` on the open file `executable`; no space when the magic number is wrong and the
  -- constructor returns with every member indeterminate
  let some f := files executable | .error .indeterminate
  let noffH ← readHeader host garbage f
  if noffH.noffMagic ≠ noffMagic then .ok (none, files)
  else
    let numPages := pagesFor noffH.size
    let files ← makeSwap garbage files executable (swapName threadID) (numPages * .ofNat 32 pageSize)
    .ok (some ⟨emptyTable garbage.entries numPages.toNat, numPages, swapName threadID⟩, files)

def initRegisters (s : AddrSpace) : Register → Word :=
  Function.update (Function.update (fun _ => 0) nextPCReg 4) stackReg (s.numPages * .ofNat 32 pageSize - 16)

end AddrSpace

end Nachos
