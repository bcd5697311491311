import Nachos.Machine.Reference
import Nachos.Machine.Restart

namespace Nachos

attribute [ext] Cpu

/-- A MIPS processor with its own memory; `loading` is the register that the last instruction loads. -/
structure Processor where
  cpu : Cpu
  memory : Buffer
  size : Nat
  loading : Option (Fin numGPRegs)

namespace Processor

open Buffer

variable (p : Processor) (w : Word)

def rs : Fin numGPRegs := Fin.ofNat 32 (w.toNat / 2 ^ 21)

def rt : Fin numGPRegs := Fin.ofNat 32 (w.toNat / 2 ^ 16)

def address : Word := .ofInt 32 ((p.cpu.gpr (rs w)).toInt + (w.setWidth 16).toInt)

def Inside (a : Word) (bytes : Nat) : Prop := bytes ∣ a.toNat ∧ a.toNat + bytes ≤ p.size

instance (a : Word) (bytes : Nat) : Decidable (p.Inside a bytes) := inferInstanceAs (Decidable (_ ∧ _))

def load (bytes : Nat) (value : Nat → Word) : Except ExceptionType Processor :=
  if p.Inside (p.address w) bytes then
    let cpu := (p.cpu.put (rt w) (value (p.address w).toNat)).advance
    .ok { p with cpu, loading := some (rt w) }
  else .error .addressErrorException

def store (bytes : Nat) : Except ExceptionType Processor :=
  if p.Inside (p.address w) bytes then
    let memory := p.memory.copy (p.address w).toNat (byteOf (p.cpu.gpr (rt w))) bytes
    .ok { p with cpu := p.cpu.advance, memory, loading := none }
  else .error .addressErrorException

def halfAt (b : Buffer) (i : Nat) : BitVec 16 := b (i + 1) ++ b i

def hiLo (hi lo : Word) : Processor :=
  { p with cpu := { p.cpu with hi := hi, lo := lo }.advance, loading := none }

def product (x : BitVec 64) : Processor := p.hiLo (x.extractLsb' 32 32) (x.extractLsb' 0 32)

def perform (op : OpCode) : Except ExceptionType Processor :=
  let rs := p.cpu.gpr (rs w)
  let rt := p.cpu.gpr (rt w)
  match op with
  | .lb => p.load w 1 fun a => (p.memory a).signExtend 32
  | .lbu => p.load w 1 fun a => (p.memory a).setWidth 32
  | .lh => p.load w 2 fun a => (halfAt p.memory a).signExtend 32
  | .lhu => p.load w 2 fun a => (halfAt p.memory a).setWidth 32
  | .lw => p.load w 4 p.memory.wordAt
  | .sb => p.store w 1
  | .sh => p.store w 2
  | .sw => p.store w 4
  | .mult => .ok (p.product (.ofInt 64 (rs.toInt * rt.toInt)))
  | .multu => .ok (p.product (.ofNat 64 (rs.toNat * rt.toNat)))
  | .div => .ok (p.hiLo (.ofInt 32 (rs.toInt.tmod rt.toInt)) (.ofInt 32 (rs.toInt.tdiv rt.toInt)))
  | .syscall => .error .syscallException
  | .res | .unimp => .error .illegalInstrException
  | _ =>
    match p.cpu.step op w with
    | some cpu => .ok { p with cpu, loading := none }
    | none => .error .overflowException

def fetched : Word := p.memory.wordAt p.cpu.pc.toNat

def step : Except ExceptionType Processor :=
  if p.Inside p.cpu.pc 4 then p.perform p.fetched (Instruction.decode p.fetched).opCode
  else .error .addressErrorException

end Processor

def Cpu.Defined (c : Cpu) (instr : Instruction) : Prop :=
  match instr.opCode with
  | .or => c.gpr instr.rt &&& ~~~c.gpr instr.rs = 0 ∨ instr.rd = 0
  | .srl => (instr.extra.toNat = 0 ∨ (c.gpr instr.rt).msb = false) ∨ instr.rd = 0
  | .srlv => ((c.gpr instr.rs).toNat % 32 = 0 ∨ (c.gpr instr.rt).msb = false) ∨ instr.rd = 0
  | .j | .jal => (c.nextPC + 4).toNat / 2 ^ 28 = c.nextPC.toNat / 2 ^ 28
  | .bgezal | .bltzal => instr.rs ≠ 31
  | .jalr => instr.rs ≠ instr.rd
  | .divu => c.gpr instr.rt ≠ 0
  | .div => c.gpr instr.rt ≠ 0 ∧ ¬(c.gpr instr.rs = signBit ∧ c.gpr instr.rt = -1)
  | .lwl | .lwr | .swl | .swr => False
  | _ => True

structure Processor.Supported (p : Processor) : Prop where
  defined : p.Inside p.cpu.pc 4 → p.cpu.Defined (Instruction.decode p.fetched)
  delay : p.Inside p.cpu.pc 4 → ∀ i ∈ (Instruction.decode p.fetched).reads ++ (Instruction.decode p.fetched).writes,
    p.loading ≠ some i

end Nachos
