import Nachos.Machine.Machine
import Mathlib.Data.List.FinRange

namespace Nachos

open Machine

def wordToHost (host : Host) (word : Word) : Word :=
  match host with
  | .littleEndian => word
  | .bigEndian =>
    ((word >>> 24) &&& 0x000000ff) ||| ((word >>> 8) &&& 0x0000ff00) ||| ((word <<< 8) &&& 0x00ff0000) |||
      ((word <<< 24) &&& 0xff000000)

def shortToHost (host : Host) (shortword : BitVec 16) : BitVec 16 :=
  match host with
  | .littleEndian => shortword
  | .bigEndian => ((shortword <<< 8) &&& 0xff00) ||| ((shortword >>> 8) &&& 0x00ff)

def wordToMachine (host : Host) (word : Word) : Word := wordToHost host word

def shortToMachine (host : Host) (shortword : BitVec 16) : BitVec 16 := shortToHost host shortword

def Host.loadWord (host : Host) (mem : Buffer) (a : Nat) : Word :=
  match host with
  | .littleEndian => mem (a + 3) ++ mem (a + 2) ++ mem (a + 1) ++ mem a
  | .bigEndian => mem a ++ mem (a + 1) ++ mem (a + 2) ++ mem (a + 3)

theorem Host.loadWord_congr (host : Host) {b c : Buffer} {i j : Nat} (h : ∀ k < 4, b (i + k) = c (j + k)) :
    host.loadWord b i = host.loadWord c j := by
  have h0 := h 0 (by omega)
  simp only [Nat.add_zero] at h0
  cases host with
  | littleEndian => simp only [Host.loadWord, h0, h 1 (by omega), h 2 (by omega), h 3 (by omega)]
  | bigEndian => simp only [Host.loadWord, h0, h 1 (by omega), h 2 (by omega), h 3 (by omega)]

def Host.loadShort (host : Host) (mem : Buffer) (a : Nat) : BitVec 16 :=
  match host with
  | .littleEndian => mem (a + 1) ++ mem a
  | .bigEndian => mem a ++ mem (a + 1)

def Host.storeWord (host : Host) (mem : Buffer) (a : Nat) (w : Word) : Buffer :=
  mem.copy a (fun k => Buffer.byteOf w (match host with | .littleEndian => k | .bigEndian => 3 - k)) 4

def Host.storeShort (host : Host) (mem : Buffer) (a : Nat) (w : BitVec 16) : Buffer :=
  mem.copy a (fun k => w.extractLsb' (8 * match host with | .littleEndian => k | .bigEndian => 1 - k) 8) 2

inductive Translation where
  | fail (which : ExceptionType)
  | ok (physAddr : Nat) (m : Machine)

namespace Machine

def useEntry (entry : TranslationEntry) (put : TranslationEntry → Machine) (offset size : Nat) (writing : Bool) :
    Except Fault Translation :=
  if entry.readOnly ∧ writing then .ok (.fail .readOnlyException)
  else
    let pageFrame := entry.physicalPage.toNat
    if pageFrame ≥ numPhysPages then .ok (.fail .busErrorException)
    else do
      let physAddr := pageFrame * pageSize + offset
      assert (physAddr + size ≤ memorySize)
      .ok (.ok physAddr (put { entry with use := true, dirty := entry.dirty || writing }))

def misaligned (virtAddr : Word) (size : Nat) : Prop :=
  (size = 4 ∧ virtAddr &&& 3 ≠ 0) ∨ (size = 2 ∧ virtAddr &&& 1 ≠ 0)

instance (virtAddr : Word) (size : Nat) : Decidable (misaligned virtAddr size) :=
  inferInstanceAs (Decidable (_ ∨ _))

def translateTLB (m : Machine) (tlb : Fin tlbSize → TranslationEntry) (vpn offset size : Nat) (writing : Bool) :
    Except Fault Translation :=
  match (List.finRange tlbSize).find? (fun i => (tlb i).valid && (tlb i).virtualPage.toNat == vpn) with
  | none => .ok (.fail .pageFaultException)
  | some i => useEntry (tlb i) (fun e => { m with tlb := some (Function.update tlb i e) }) offset size writing

def translateTable (m : Machine) (pageTable : Nat → TranslationEntry) (vpn offset size : Nat) (writing : Bool) :
    Except Fault Translation :=
  if vpn ≥ m.pageTableSize.toNat then .ok (.fail .addressErrorException)
  else if (pageTable vpn).valid = false then .ok (.fail .pageFaultException)
  else
    useEntry (pageTable vpn) (fun e => { m with pageTable := some (Function.update pageTable vpn e) }) offset size
      writing

def translate (m : Machine) (virtAddr : Word) (size : Nat) (writing : Bool) : Except Fault Translation :=
  if misaligned virtAddr size then .ok (.fail .addressErrorException)
  else
    let vpn := virtAddr.toNat / pageSize
    let offset := virtAddr.toNat % pageSize
    match m.tlb, m.pageTable with
    | some tlb, none => m.translateTLB tlb vpn offset size writing
    | none, some pageTable => m.translateTable pageTable vpn offset size writing
    -- `ASSERT(tlb == NULL || pageTable == NULL)` and `ASSERT(tlb != NULL || pageTable != NULL)`
    | some _, some _ => .error .assertion
    | none, none => .error .assertion

def readMem (m : Machine) (addr : Word) (size : Nat) : Except Fault (Outcome Word) := do
  match ← m.translate addr size false with
  | .fail which => m.raiseException which addr
  | .ok a m =>
    if size = 1 then .ok (.value ((m.mainMemory a).signExtend 32) m)
    else if size = 2 then
      .ok (.value ((shortToHost m.host (m.host.loadShort m.mainMemory a)).setWidth 32) m)
    else if size = 4 then .ok (.value (wordToHost m.host (m.host.loadWord m.mainMemory a)) m)
    else .error .assertion

def writeMem (m : Machine) (addr : Word) (size : Nat) (value : Word) : Except Fault (Outcome Unit) := do
  match ← m.translate addr size true with
  | .fail which => m.raiseException which addr
  | .ok a m =>
    if size = 1 then
      .ok (.value () { m with mainMemory := Function.update m.mainMemory a ((value &&& 0xff).setWidth 8) })
    else if size = 2 then
      let data := shortToMachine m.host ((value &&& 0xffff).setWidth 16)
      .ok (.value () { m with mainMemory := m.host.storeShort m.mainMemory a data })
    else if size = 4 then
      .ok (.value () { m with mainMemory := m.host.storeWord m.mainMemory a (wordToMachine m.host value) })
    else .error .assertion

end Machine

end Nachos
