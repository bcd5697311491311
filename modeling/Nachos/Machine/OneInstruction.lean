import Nachos.Machine.Translate
import Nachos.Machine.Decode

namespace Nachos

def signBit : Word := 0x80000000

def indexToAddr (x : Word) : Word := x <<< 2

def multLoop : Nat → Word → Word → Word → Word → Word → Word × Word
  | 0, _, _, _, hi, lo => (hi, lo)
  | n + 1, a, bLo, bHi, hi, lo =>
    let odd := a &&& 1 ≠ 0
    let lo' := if odd then lo + bLo else lo
    let hi' := if odd then (if lo' < bLo then hi + 1 else hi) + bHi else hi
    if odd ∧ a &&& 0xfffffffe = 0 then (hi', lo')
    else
      let bHi' := if bLo &&& 0x80000000 ≠ 0 then bHi <<< 1 ||| 1 else bHi <<< 1
      multLoop n (a.sshiftRight 1) (bLo <<< 1) bHi' hi' lo'

def mult (a b : Word) (signedArith : Bool) : Word × Word :=
  if a = 0 ∨ b = 0 then (0, 0)
  else
    let negA := signedArith && a.slt 0
    let negB := signedArith && b.slt 0
    let (hi, lo) := multLoop 32 (if negA then -a else a) (if negB then -b else b) 0 0 0
    if negA ≠ negB then
      let hi := ~~~hi
      let lo := ~~~lo + 1
      (if lo = 0 then hi + 1 else hi, lo)
    else (hi, lo)

namespace Machine

open Instruction

def gpr (m : Machine) (i : Fin numGPRegs) : Word := m.registers (gpReg i)

def setGpr (m : Machine) (i : Fin numGPRegs) (v : Word) : Machine := m.set (gpReg i) v

def nextPC (m : Machine) : Word := m.registers nextPCReg

def finish (m : Machine) (nextLoadReg nextLoadValue pcAfter : Word) : Except Fault (Outcome Unit) := do
  let m ← m.delayedLoad nextLoadReg nextLoadValue
  let m := m.set prevPCReg (m.registers pcReg)
  let m := m.set pcReg (m.registers nextPCReg)
  .ok (.value () (m.set nextPCReg pcAfter))

def branch (m : Machine) (instr : Instruction) (taken : Prop) [Decidable taken] : Except Fault (Outcome Unit) :=
  m.finish 0 0 (if taken then m.nextPC + indexToAddr instr.extra else m.nextPC + 4)

def assign (m : Machine) (i : Fin numGPRegs) (v : Word) : Except Fault (Outcome Unit) :=
  (m.setGpr i v).finish 0 0 (m.nextPC + 4)

def address (m : Machine) (instr : Instruction) : Word := m.gpr instr.rs + instr.extra

def setHiLo (m : Machine) (hi lo : Word) : Machine := (m.set loReg lo).set hiReg hi

def load (m : Machine) (instr : Instruction) (value : Word) : Except Fault (Outcome Unit) :=
  m.finish (.ofNat 32 instr.rt) value (m.nextPC + 4)

def loadTarget (m : Machine) (instr : Instruction) : Word :=
  if m.registers loadReg = .ofNat 32 instr.rt then m.registers loadValueReg else m.gpr instr.rt

def mergeLWL (tmp old value : Word) : Word :=
  if tmp &&& 3 = 0 then value
  else if tmp &&& 3 = 1 then (old &&& 0xff) ||| (value <<< 8)
  else if tmp &&& 3 = 2 then (old &&& 0xffff) ||| (value <<< 16)
  else (old &&& 0xffffff) ||| (value <<< 24)

def mergeLWR (tmp old value : Word) : Word :=
  if tmp &&& 3 = 0 then (old &&& 0xffffff00) ||| (value.sshiftRight 24 &&& 0xff)
  else if tmp &&& 3 = 1 then (old &&& 0xffff0000) ||| (value.sshiftRight 16 &&& 0xffff)
  else if tmp &&& 3 = 2 then (old &&& 0xff000000) ||| (value.sshiftRight 8 &&& 0xffffff)
  else value

def mergeSWL (tmp value rt : Word) : Word :=
  if tmp &&& 3 = 0 then rt
  else if tmp &&& 3 = 1 then (value &&& 0xff000000) ||| (rt.sshiftRight 8 &&& 0xffffff)
  else if tmp &&& 3 = 2 then (value &&& 0xffff0000) ||| (rt.sshiftRight 16 &&& 0xffff)
  else (value &&& 0xffffff00) ||| (rt.sshiftRight 24 &&& 0xff)

def mergeSWR (tmp value rt : Word) : Word :=
  if tmp &&& 3 = 0 then (value &&& 0xffffff) ||| (rt <<< 24)
  else if tmp &&& 3 = 1 then (value &&& 0xffff) ||| (rt <<< 16)
  else if tmp &&& 3 = 2 then (value &&& 0xff) ||| (rt <<< 8)
  else rt

def loadPartial (m : Machine) (instr : Instruction) (merge : Word → Word → Word → Word) :
    Except Fault (Outcome Unit) := do
  let tmp := m.address instr
  assert (tmp &&& 3 = 0)
  andThen (m.readMem tmp 4) fun value m => m.load instr (merge tmp (m.loadTarget instr) value)

def storePartial (m : Machine) (instr : Instruction) (merge : Word → Word → Word → Word) :
    Except Fault (Outcome Unit) := do
  let tmp := m.address instr
  assert (tmp &&& 3 = 0)
  andThen (m.readMem (tmp &&& ~~~3) 4) fun value m =>
    andThen (m.writeMem (tmp &&& ~~~3) 4 (merge tmp value (m.gpr instr.rt))) fun _ m =>
      m.finish 0 0 (m.nextPC + 4)

def loadByte (m : Machine) (instr : Instruction) : Except Fault (Outcome Unit) :=
  andThen (m.readMem (m.address instr) 1) fun value m =>
    m.load instr (if value &&& 0x80 ≠ 0 ∧ instr.opCode = .lb then value ||| 0xffffff00 else value &&& 0xff)

def loadHalf (m : Machine) (instr : Instruction) : Except Fault (Outcome Unit) :=
  let tmp := m.address instr
  if tmp &&& 1 ≠ 0 then m.raiseException .addressErrorException tmp
  else
    andThen (m.readMem tmp 2) fun value m =>
      m.load instr (if value &&& 0x8000 ≠ 0 ∧ instr.opCode = .lh then value ||| 0xffff0000 else value &&& 0xffff)

def store (m : Machine) (instr : Instruction) (size : Nat) : Except Fault (Outcome Unit) :=
  andThen (m.writeMem (m.address instr) size (m.gpr instr.rt)) fun _ m => m.finish 0 0 (m.nextPC + 4)

def divide (a b : Word) : Except Fault (Word × Word) :=
  if b = 0 then .error .divide
  else if a = signBit ∧ b = -1 then .error .divide
  else .ok (a.sdiv b, a.srem b)

def execute (m : Machine) (instr : Instruction) : Except Fault (Outcome Unit) :=
  let rs := m.gpr instr.rs
  let rt := m.gpr instr.rt
  let extra := instr.extra
  match instr.opCode with
  | .add =>
    let sum := rs + rt
    if (rs ^^^ rt) &&& signBit = 0 ∧ (rs ^^^ sum) &&& signBit ≠ 0 then m.raiseException .overflowException 0
    else m.assign instr.rd sum
  | .addi =>
    let sum := rs + extra
    if (rs ^^^ extra) &&& signBit = 0 ∧ (extra ^^^ sum) &&& signBit ≠ 0 then m.raiseException .overflowException 0
    else m.assign instr.rt sum
  | .addiu => m.assign instr.rt (rs + extra)
  | .addu => m.assign instr.rd (rs + rt)
  | .and => m.assign instr.rd (rs &&& rt)
  | .andi => m.assign instr.rt (rs &&& (extra &&& 0xffff))
  | .beq => m.branch instr (rs = rt)
  | .bgezal =>
    let m := m.set retAddrReg (m.nextPC + 4)
    m.branch instr (m.gpr instr.rs &&& signBit = 0)
  | .bgez => m.branch instr (rs &&& signBit = 0)
  | .bgtz => m.branch instr (BitVec.slt 0 rs)
  | .blez => m.branch instr (BitVec.sle rs 0)
  | .bltzal =>
    let m := m.set retAddrReg (m.nextPC + 4)
    m.branch instr (m.gpr instr.rs &&& signBit ≠ 0)
  | .bltz => m.branch instr (rs &&& signBit ≠ 0)
  | .bne => m.branch instr (rs ≠ rt)
  | .div =>
    if rt = 0 then (m.setHiLo 0 0).finish 0 0 (m.nextPC + 4)
    else do
      let (q, r) ← divide rs rt
      (m.setHiLo r q).finish 0 0 (m.nextPC + 4)
  | .divu =>
    if rt = 0 then (m.setHiLo 0 0).finish 0 0 (m.nextPC + 4)
    else (m.setHiLo (rs.umod rt) (rs.udiv rt)).finish 0 0 (m.nextPC + 4)
  | .jal =>
    (m.set retAddrReg (m.nextPC + 4)).finish 0 0 (((m.nextPC + 4) &&& 0xf0000000) ||| indexToAddr extra)
  | .j => m.finish 0 0 (((m.nextPC + 4) &&& 0xf0000000) ||| indexToAddr extra)
  | .jalr =>
    let m := m.setGpr instr.rd (m.nextPC + 4)
    m.finish 0 0 (m.gpr instr.rs)
  | .jr => m.finish 0 0 rs
  | .lb => m.loadByte instr
  | .lbu => m.loadByte instr
  | .lh => m.loadHalf instr
  | .lhu => m.loadHalf instr
  | .lui => m.assign instr.rt (extra <<< 16)
  | .lw =>
    let tmp := m.address instr
    if tmp &&& 3 ≠ 0 then m.raiseException .addressErrorException tmp
    else andThen (m.readMem tmp 4) fun value m => m.load instr value
  | .lwl => m.loadPartial instr mergeLWL
  | .lwr => m.loadPartial instr mergeLWR
  | .mfhi => m.assign instr.rd (m.registers hiReg)
  | .mflo => m.assign instr.rd (m.registers loReg)
  | .mthi => (m.set hiReg rs).finish 0 0 (m.nextPC + 4)
  | .mtlo => (m.set loReg rs).finish 0 0 (m.nextPC + 4)
  | .mult => (m.setHiLo (mult rs rt true).1 (mult rs rt true).2).finish 0 0 (m.nextPC + 4)
  | .multu => (m.setHiLo (mult rs rt false).1 (mult rs rt false).2).finish 0 0 (m.nextPC + 4)
  | .nor => m.assign instr.rd (~~~(rs ||| rt))
  | .or => m.assign instr.rd (rs ||| rs)
  | .ori => m.assign instr.rt (rs ||| (extra &&& 0xffff))
  | .sb => m.store instr 1
  | .sh => m.store instr 2
  | .sll => m.assign instr.rd (rt <<< extra)
  | .sllv => m.assign instr.rd (rt <<< (rs &&& 0x1f))
  | .slt => m.assign instr.rd (if rs.slt rt then 1 else 0)
  | .slti => m.assign instr.rt (if rs.slt extra then 1 else 0)
  | .sltiu => m.assign instr.rt (if rs < extra then 1 else 0)
  | .sltu => m.assign instr.rd (if rs < rt then 1 else 0)
  | .sra => m.assign instr.rd (rt.sshiftRight' extra)
  | .srav => m.assign instr.rd (rt.sshiftRight' (rs &&& 0x1f))
  | .srl => m.assign instr.rd (rt.sshiftRight' extra)
  | .srlv => m.assign instr.rd (rt.sshiftRight' (rs &&& 0x1f))
  | .sub =>
    let diff := rs - rt
    if (rs ^^^ rt) &&& signBit ≠ 0 ∧ (rs ^^^ diff) &&& signBit ≠ 0 then m.raiseException .overflowException 0
    else m.assign instr.rd diff
  | .subu => m.assign instr.rd (rs - rt)
  | .sw => m.store instr 4
  | .swl => m.storePartial instr mergeSWL
  | .swr => m.storePartial instr mergeSWR
  | .syscall => m.raiseException .syscallException 0
  | .xor => m.assign instr.rd (rs ^^^ rt)
  | .xori => m.assign instr.rt (rs ^^^ (extra &&& 0xffff))
  | .res => m.raiseException .illegalInstrException 0
  | .unimp => m.raiseException .illegalInstrException 0
  | .rfe => .error .assertion
  | .special => .error .assertion
  | .bcond => .error .assertion

def oneInstruction (m : Machine) : Except Fault (Outcome Unit) :=
  andThen (m.readMem (m.registers pcReg) 4) fun raw m => m.execute (decode raw)

end Machine

end Nachos
