import Nachos.Lib.CString
import Nachos.UserProg.AddrSpace

namespace Nachos

namespace NoffHeader

def words (h : NoffHeader) : Nat → Word
  | 0 => h.noffMagic
  | 1 => h.code.virtualAddr
  | 2 => h.code.inFileAddr
  | 3 => h.code.size
  | 4 => h.initData.virtualAddr
  | 5 => h.initData.inFileAddr
  | 6 => h.initData.size
  | 7 => h.uninitData.virtualAddr
  | 8 => h.uninitData.inFileAddr
  | _ => h.uninitData.size

def store (host : Host) (h : NoffHeader) : Buffer := fun k =>
  Buffer.byteOf (h.words (k / 4)) (match host with | .littleEndian => k % 4 | .bigEndian => 3 - k % 4)

end NoffHeader

namespace Coff2Noff

inductive Failure where
  | tooShort
  | unableToWrite
  | notMipsel
  | notOmagic
  | dataAndRdata
  | bssAndSbss
  | unknownSegment
  deriving DecidableEq, Repr

structure Descriptor where
  file : UnixFile
  position : Nat

-- the largest `off_t` of a 32-bit host
def fileMax : Nat := 2 ^ 31 - 1

namespace Descriptor

def lseek (fd : Descriptor) (offset : Word) : Descriptor :=
  -- the call fails on a negative offset, and nobody looks
  if offset.toInt < 0 then fd else { fd with position := offset.toNat }

def read (fd : Descriptor) (nBytes : Word) : Except Failure (Buffer × Descriptor) :=
  -- `Read` into a buffer of its own. A negative count makes `read` return -1, which is what `Read` expects when
  -- the count is -1
  let buf : Buffer := fun k => fd.file.bytes (fd.position + k)
  if nBytes.toInt < 0 then
    if nBytes = -1 then .ok (buf, fd) else .error .tooShort
  else if min nBytes.toNat (fd.file.length - fd.position) ≠ nBytes.toNat then .error .tooShort
  else .ok (buf, { fd with position := fd.position + nBytes.toNat })

def write (fd : Descriptor) (buf : Buffer) (nBytes : Word) : Except Failure Descriptor :=
  if nBytes.toInt < 0 then
    if nBytes = -1 then .ok fd else .error .unableToWrite
  else if fileMax < fd.position + nBytes.toNat then .error .unableToWrite
  else
    match fd.file.writeAt buf nBytes.toNat fd.position with
    | .error _ => .error .unableToWrite
    | .ok file => .ok ⟨file, fd.position + nBytes.toNat⟩

end Descriptor

structure Section where
  name : Buffer
  paddr : Word
  size : Word
  scnptr : Word

def filehdrSize : Nat := 20
def aouthdrSize : Nat := 56
def scnhdrSize : Nat := 40

def mipselMagic : BitVec 16 := 0x0162
def omagic : BitVec 16 := 0x0107

inductive Kind where
  | text
  | data
  | bss
  deriving DecidableEq, Repr

namespace Section

def load (host : Host) (sections : Buffer) (i : Nat) : Section :=
  let word := fun offset => wordToHost host (host.loadWord sections (scnhdrSize * i + offset))
  ⟨fun k => sections (scnhdrSize * i + k), word 8, word 16, word 20⟩

def isNamed (sec : Section) (name : List Char) : Bool :=
  -- `!strcmp(s_name, name)`, which stops inside `s_name` on the names below
  CString.strncmp sec.name (fun k => (name.map fun c => BitVec.ofNat 8 c.toNat).getD k 0) 8 = 0

def kind (sec : Section) : Option Kind :=
  if sec.isNamed ['.', 't', 'e', 'x', 't'] then some .text
  else if sec.isNamed ['.', 'd', 'a', 't', 'a'] || sec.isNamed ['.', 'r', 'd', 'a', 't', 'a'] then some .data
  else if sec.isNamed ['.', 'b', 's', 's'] || sec.isNamed ['.', 's', 'b', 's', 's'] then some .bss
  else none

end Section

structure State where
  fdIn : Descriptor
  fdOut : Descriptor
  noffH : NoffHeader
  inNoffFile : Word

namespace State

def copySegment (s : State) (sec : Section) : Except Failure State := do
  let (buffer, fdIn) ← (s.fdIn.lseek sec.scnptr).read sec.size
  let fdOut ← s.fdOut.write buffer sec.size
  .ok { s with fdIn, fdOut, inNoffFile := s.inNoffFile + sec.size }

def copySection (s : State) (sec : Section) : Except Failure State :=
  let segment : Segment := ⟨sec.paddr, s.inNoffFile, sec.size⟩
  if sec.size = 0 then .ok s
  else
    match sec.kind with
    | some .text => { s with noffH := { s.noffH with code := segment } }.copySegment sec
    | some .data =>
      if s.noffH.initData.size ≠ 0 then .error .dataAndRdata
      else { s with noffH := { s.noffH with initData := segment } }.copySegment sec
    | some .bss =>
      let uninitData := s.noffH.uninitData
      if uninitData.size ≠ 0 then
        if sec.paddr = uninitData.virtualAddr + uninitData.size then .error .bssAndSbss
        else .ok { s with noffH := { s.noffH with uninitData := { uninitData with size := uninitData.size + sec.size } } }
      else .ok { s with
        noffH := { s.noffH with uninitData := { uninitData with virtualAddr := sec.paddr, size := sec.size } } }
    | none => .error .unknownSegment

end State

def initialHeader (garbage : NoffHeader) : NoffHeader :=
  ⟨noffMagic, { garbage.code with size := 0 }, { garbage.initData with size := 0 },
    { garbage.uninitData with size := 0 }⟩

def main (host : Host) (garbage : NoffHeader) (coff : UnixFile) : Except Failure UnixFile := do
  let (fileh, fdIn) ← Descriptor.read ⟨coff, 0⟩ (.ofNat 32 filehdrSize)
  if shortToHost host (host.loadShort fileh 0) ≠ mipselMagic then .error .notMipsel
  else
    let (systemh, fdIn) ← fdIn.read (.ofNat 32 aouthdrSize)
    if shortToHost host (host.loadShort systemh 0) ≠ omagic then .error .notOmagic
    else
      let numsections := (shortToHost host (host.loadShort fileh 2)).toNat
      let (sections, fdIn) ← fdIn.read (.ofNat 32 (numsections * scnhdrSize))
      let fdOut := Descriptor.lseek ⟨.empty, 0⟩ (.ofNat 32 noffHeaderSize)
      let s ← ((List.range numsections).map (Section.load host sections)).foldlM State.copySection
        ⟨fdIn, fdOut, initialHeader garbage, .ofNat 32 noffHeaderSize⟩
      let fdOut ← (s.fdOut.lseek 0).write (s.noffH.store host) (.ofNat 32 noffHeaderSize)
      .ok fdOut.file

end Coff2Noff

end Nachos
