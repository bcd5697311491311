import Nachos.Lib.Bytes
import Mathlib.Tactic.FinCases

namespace Nachos

inductive OpCode where
  | add | addi | addiu | addu | and | andi | beq | bgez | bgezal | bgtz | blez | bltz | bltzal | bne
  | div | divu | j | jal | jalr | jr | lb | lbu | lh | lhu | lui | lw | lwl | lwr
  | mfhi | mflo | mthi | mtlo | mult | multu | nor | or | ori | rfe | sb | sh | sll | sllv
  | slt | slti | sltiu | sltu | sra | srav | srl | srlv | sub | subu | sw | swl | swr
  | xor | xori | syscall | unimp | res | special | bcond
  deriving DecidableEq, Repr

inductive Format where
  | ifmt
  | jfmt
  | rfmt
  deriving DecidableEq, Repr

structure OpInfo where
  opCode : OpCode
  format : Format

def opTable : Vector OpInfo 64 := #v[
  ⟨.special, .rfmt⟩, ⟨.bcond, .ifmt⟩, ⟨.j, .jfmt⟩, ⟨.jal, .jfmt⟩,
  ⟨.beq, .ifmt⟩, ⟨.bne, .ifmt⟩, ⟨.blez, .ifmt⟩, ⟨.bgtz, .ifmt⟩,
  ⟨.addi, .ifmt⟩, ⟨.addiu, .ifmt⟩, ⟨.slti, .ifmt⟩, ⟨.sltiu, .ifmt⟩,
  ⟨.andi, .ifmt⟩, ⟨.ori, .ifmt⟩, ⟨.xori, .ifmt⟩, ⟨.lui, .ifmt⟩,
  ⟨.unimp, .ifmt⟩, ⟨.unimp, .ifmt⟩, ⟨.unimp, .ifmt⟩, ⟨.unimp, .ifmt⟩,
  ⟨.res, .ifmt⟩, ⟨.res, .ifmt⟩, ⟨.res, .ifmt⟩, ⟨.res, .ifmt⟩,
  ⟨.res, .ifmt⟩, ⟨.res, .ifmt⟩, ⟨.res, .ifmt⟩, ⟨.res, .ifmt⟩,
  ⟨.res, .ifmt⟩, ⟨.res, .ifmt⟩, ⟨.res, .ifmt⟩, ⟨.res, .ifmt⟩,
  ⟨.lb, .ifmt⟩, ⟨.lh, .ifmt⟩, ⟨.lwl, .ifmt⟩, ⟨.lw, .ifmt⟩,
  ⟨.lbu, .ifmt⟩, ⟨.lhu, .ifmt⟩, ⟨.lwr, .ifmt⟩, ⟨.res, .ifmt⟩,
  ⟨.sb, .ifmt⟩, ⟨.sh, .ifmt⟩, ⟨.swl, .ifmt⟩, ⟨.sw, .ifmt⟩,
  ⟨.res, .ifmt⟩, ⟨.res, .ifmt⟩, ⟨.swr, .ifmt⟩, ⟨.res, .ifmt⟩,
  ⟨.unimp, .ifmt⟩, ⟨.unimp, .ifmt⟩, ⟨.unimp, .ifmt⟩, ⟨.unimp, .ifmt⟩,
  ⟨.res, .ifmt⟩, ⟨.res, .ifmt⟩, ⟨.res, .ifmt⟩, ⟨.res, .ifmt⟩,
  ⟨.unimp, .ifmt⟩, ⟨.unimp, .ifmt⟩, ⟨.unimp, .ifmt⟩, ⟨.unimp, .ifmt⟩,
  ⟨.res, .ifmt⟩, ⟨.res, .ifmt⟩, ⟨.res, .ifmt⟩, ⟨.res, .ifmt⟩]

def specialTable : Vector OpCode 64 := #v[
  .sll, .res, .srl, .sra, .sllv, .res, .srlv, .srav,
  .jr, .jalr, .res, .res, .syscall, .unimp, .res, .res,
  .mfhi, .mthi, .mflo, .mtlo, .res, .res, .res, .res,
  .mult, .multu, .div, .divu, .res, .res, .res, .res,
  .add, .addu, .sub, .subu, .and, .or, .xor, .nor,
  .res, .res, .slt, .sltu, .res, .res, .res, .res,
  .res, .res, .res, .res, .res, .res, .res, .res,
  .res, .res, .res, .res, .res, .res, .res, .res]

structure Instruction where
  value : Word
  opCode : OpCode
  rs : Fin 32
  rt : Fin 32
  rd : Fin 32
  extra : Word

namespace Instruction

def low5 (w : Word) : Fin 32 := (w.setWidth 5).toFin

def low6 (w : Word) : Fin 64 := (w.setWidth 6).toFin

def decodeExtra (value : Word) : Format → Word
  | .ifmt =>
    let extra := value &&& 0xffff
    if extra &&& 0x8000 ≠ 0 then extra ||| 0xffff0000 else extra
  | .rfmt => (value >>> 6) &&& 0x1f
  | .jfmt => value &&& 0x3ffffff

def decodeBCond (value : Word) : OpCode :=
  let i := value &&& 0x1f0000
  if i = 0 then .bltz
  else if i = 0x10000 then .bgez
  else if i = 0x100000 then .bltzal
  else if i = 0x110000 then .bgezal
  else .unimp

def decode (value : Word) : Instruction :=
  let opPtr := opTable.get (low6 (value >>> 26))
  { value := value
    rs := low5 (value >>> 21)
    rt := low5 (value >>> 16)
    rd := low5 (value >>> 11)
    extra := decodeExtra value opPtr.format
    opCode :=
      if opPtr.opCode = .special then specialTable.get (low6 value)
      else if opPtr.opCode = .bcond then decodeBCond value
      else opPtr.opCode }

def Unhandled (op : OpCode) : Prop := op = .rfe ∨ op = .special ∨ op = .bcond

instance (op : OpCode) : Decidable (Unhandled op) := inferInstanceAs (Decidable (_ ∨ _))

theorem specialTable_handled : ∀ i, ¬Unhandled (specialTable.get i) := by decide

theorem opTable_handled : ∀ i, (opTable.get i).opCode ≠ .special → (opTable.get i).opCode ≠ .bcond →
    ¬Unhandled (opTable.get i).opCode := by decide

theorem decode_handled (value : Word) : ¬Unhandled (decode value).opCode := by
  simp only [decode]
  split_ifs with hs hb
  · exact specialTable_handled _
  · simp only [decodeBCond]
    split_ifs <;> decide
  · exact opTable_handled _ hs hb

end Instruction

end Nachos
