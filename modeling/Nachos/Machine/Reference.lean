import Nachos.Machine.OneInstruction

namespace Nachos

structure Cpu where
  gpr : Fin numGPRegs → Word
  hi : Word
  lo : Word
  pc : Word
  nextPC : Word

namespace Cpu

def put (c : Cpu) (r : Fin numGPRegs) (v : Word) : Cpu :=
  if r = 0 then c else { c with gpr := Function.update c.gpr r v }

def jump (c : Cpu) (target : Word) : Cpu := { c with pc := c.nextPC, nextPC := target }

def advance (c : Cpu) : Cpu := c.jump (c.nextPC + 4)

def signed (x : Int) : Option Word :=
  if -2 ^ 31 ≤ x ∧ x < 2 ^ 31 then some (.ofInt 32 x) else none

def flag (b : Prop) [Decidable b] : Word := if b then 1 else 0

end Cpu

/-- The MIPS I integer instructions over the fields of the word `w`; `none` is a trap. -/
def Cpu.step (c : Cpu) (op : OpCode) (w : Word) : Option Cpu :=
  let rsField : Fin numGPRegs := Fin.ofNat 32 (w.toNat / 2 ^ 21)
  let rtField : Fin numGPRegs := Fin.ofNat 32 (w.toNat / 2 ^ 16)
  let rd : Fin numGPRegs := Fin.ofNat 32 (w.toNat / 2 ^ 11)
  let shamt := w.toNat / 2 ^ 6 % 32
  let immediate := w.toNat % 2 ^ 16
  let offset := (w.setWidth 16).toInt
  let index := w.toNat % 2 ^ 26
  let rs := c.gpr rsField
  let rt := c.gpr rtField
  let link := c.nextPC + 4
  let branch (c : Cpu) (taken : Bool) : Cpu :=
    if taken then c.jump (.ofInt 32 (c.nextPC.toNat + 4 * offset)) else c.advance
  let region := c.nextPC.toNat / 2 ^ 28 * 2 ^ 28
  match op with
  | .add => (Cpu.signed (rs.toInt + rt.toInt)).map fun v => (c.put rd v).advance
  | .addi => (Cpu.signed (rs.toInt + offset)).map fun v => (c.put rtField v).advance
  | .addiu => (c.put rtField (.ofInt 32 (rs.toInt + offset))).advance
  | .addu => (c.put rd (.ofNat 32 (rs.toNat + rt.toNat))).advance
  | .and => (c.put rd (rs &&& rt)).advance
  | .andi => (c.put rtField (rs &&& .ofNat 32 immediate)).advance
  | .nor => (c.put rd (~~~(rs ||| rt))).advance
  | .or => (c.put rd (rs ||| rt)).advance
  | .ori => (c.put rtField (rs ||| .ofNat 32 immediate)).advance
  | .xor => (c.put rd (rs ^^^ rt)).advance
  | .xori => (c.put rtField (rs ^^^ .ofNat 32 immediate)).advance
  | .sll => (c.put rd (.ofNat 32 (rt.toNat * 2 ^ shamt))).advance
  | .sllv => (c.put rd (.ofNat 32 (rt.toNat * 2 ^ (rs.toNat % 32)))).advance
  | .sra => (c.put rd (.ofInt 32 (rt.toInt / 2 ^ shamt))).advance
  | .srav => (c.put rd (.ofInt 32 (rt.toInt / 2 ^ (rs.toNat % 32)))).advance
  | .srl => (c.put rd (.ofNat 32 (rt.toNat / 2 ^ shamt))).advance
  | .srlv => (c.put rd (.ofNat 32 (rt.toNat / 2 ^ (rs.toNat % 32)))).advance
  | .slt => (c.put rd (Cpu.flag (rs.toInt < rt.toInt))).advance
  | .slti => (c.put rtField (Cpu.flag (rs.toInt < offset))).advance
  | .sltiu => (c.put rtField (Cpu.flag (rs.toNat < offset % 2 ^ 32))).advance
  | .sltu => (c.put rd (Cpu.flag (rs.toNat < rt.toNat))).advance
  | .sub => (Cpu.signed (rs.toInt - rt.toInt)).map fun v => (c.put rd v).advance
  | .subu => (c.put rd (.ofInt 32 (rs.toInt - rt.toInt))).advance
  | .lui => (c.put rtField (.ofNat 32 (immediate * 2 ^ 16))).advance
  | .mfhi => (c.put rd c.hi).advance
  | .mflo => (c.put rd c.lo).advance
  | .mthi => { c with hi := rs }.advance
  | .mtlo => { c with lo := rs }.advance
  | .divu => { c with lo := .ofNat 32 (rs.toNat / rt.toNat), hi := .ofNat 32 (rs.toNat % rt.toNat) }.advance
  | .beq => branch c (rs = rt)
  | .bne => branch c (rs ≠ rt)
  | .bgez => branch c (0 ≤ rs.toInt)
  | .bgtz => branch c (0 < rs.toInt)
  | .blez => branch c (rs.toInt ≤ 0)
  | .bltz => branch c (rs.toInt < 0)
  | .bgezal => branch (c.put 31 link) (0 ≤ rs.toInt)
  | .bltzal => branch (c.put 31 link) (rs.toInt < 0)
  | .j => c.jump (.ofNat 32 (region + 4 * index))
  | .jal => (c.put 31 link).jump (.ofNat 32 (region + 4 * index))
  | .jr => c.jump rs
  | .jalr => (c.put rd link).jump rs
  | _ => none

end Nachos
