import Nachos.FileSys.Disk

namespace Nachos

inductive ExceptionType where
  | noException
  | syscallException
  | pageFaultException
  | readOnlyException
  | busErrorException
  | addressErrorException
  | overflowException
  | illegalInstrException
  deriving DecidableEq, Repr

structure TranslationEntry where
  virtualPage : Word
  physicalPage : Word
  valid : Bool
  readOnly : Bool
  use : Bool
  dirty : Bool

inductive Host where
  | littleEndian
  | bigEndian
  deriving DecidableEq

def pageSize : Nat := Disk.sectorSize
def numPhysPages : Nat := 32
def memorySize : Nat := numPhysPages * pageSize
def tlbSize : Nat := 4
abbrev numGPRegs : Nat := 32
abbrev numTotalRegs : Nat := 40

instance : NeZero numGPRegs := ⟨by decide⟩

theorem pageSize_eq : pageSize = 256 := Disk.sectorSize_eq

abbrev Register := Fin numTotalRegs

def stackReg : Register := ⟨29, by decide⟩
def retAddrReg : Register := ⟨31, by decide⟩
def hiReg : Register := ⟨32, by decide⟩
def loReg : Register := ⟨33, by decide⟩
def pcReg : Register := ⟨34, by decide⟩
def nextPCReg : Register := ⟨35, by decide⟩
def prevPCReg : Register := ⟨36, by decide⟩
def loadReg : Register := ⟨37, by decide⟩
def loadValueReg : Register := ⟨38, by decide⟩
def badVAddrReg : Register := ⟨39, by decide⟩

def gpReg (i : Fin numGPRegs) : Register := i.castLE (by decide)

structure Machine where
  host : Host
  registers : Register → Word
  mainMemory : Buffer
  tlb : Option (Fin tlbSize → TranslationEntry)
  pageTable : Option (Nat → TranslationEntry)
  pageTableSize : Word

/-- How a step of the simulation ends: with a value, or in `ExceptionHandler(which)`. -/
inductive Outcome (α : Type) where
  | value (a : α) (m : Machine)
  | exception (which : ExceptionType) (m : Machine)

namespace Machine

def set (m : Machine) (r : Register) (v : Word) : Machine :=
  { m with registers := Function.update m.registers r v }

@[simp] theorem set_self (m : Machine) (r : Register) (v : Word) : (m.set r v).registers r = v :=
  Function.update_self ..

theorem set_of_ne (m : Machine) {r r' : Register} (h : r' ≠ r) (v : Word) :
    (m.set r v).registers r' = m.registers r' := Function.update_of_ne h ..

def delayedLoad (m : Machine) (nextReg nextValue : Word) : Except Fault Machine :=
  if h : (m.registers loadReg).toNat < numTotalRegs then
    .ok ((((m.set ⟨_, h⟩ (m.registers loadValueReg)).set loadReg nextReg).set loadValueReg nextValue).set
      (gpReg 0) 0)
  else .error .outOfBounds

def raiseException {α : Type} (m : Machine) (which : ExceptionType) (badVAddr : Word) :
    Except Fault (Outcome α) := do
  let m ← (m.set badVAddrReg badVAddr).delayedLoad 0 0
  .ok (.exception which m)

end Machine

def andThen {α β : Type} (x : Except Fault (Outcome α)) (f : α → Machine → Except Fault (Outcome β)) :
    Except Fault (Outcome β) := do
  match ← x with
  | .exception which m => .ok (.exception which m)
  | .value a m => f a m

@[simp] theorem andThen_value {α β : Type} (a : α) (m : Machine) (f : α → Machine → Except Fault (Outcome β)) :
    andThen (.ok (.value a m)) f = f a m := rfl

end Nachos
