import Nachos.Machine.Access
import Nachos.Machine.OneInstruction

namespace Nachos.Machine

open Instruction

def Partial (op : OpCode) : Prop := op = .lwl ∨ op = .lwr ∨ op = .swl ∨ op = .swr

def Fatal (m : Machine) (instr : Instruction) : Prop :=
  (Partial instr.opCode ∧ m.address instr &&& 3 ≠ 0) ∨
    (instr.opCode = .div ∧ m.gpr instr.rs = signBit ∧ m.gpr instr.rt = -1)

theorem gpReg_ne_loadReg (i : Fin numGPRegs) : gpReg i ≠ loadReg := by
  intro h
  have hv : (i : Nat) = 37 := congrArg Fin.val h
  have hi : (i : Nat) < 32 := i.isLt
  omega

variable {m : Machine} {instr : Instruction}

namespace Sane

variable (hs : m.Sane)
include hs

theorem finish (r v pc : Word) : Completes (m.finish r v pc) := by
  obtain ⟨m', he⟩ := hs.delayedLoad r v
  exact ⟨_, by simp only [Machine.finish, he, ok_bind]; rfl⟩

theorem raise (which : ExceptionType) (v : Word) : Completes (m.raiseException (α := Unit) which v) := by
  obtain ⟨m', he⟩ := hs.raiseException (α := Unit) which v
  exact ⟨_, he⟩

theorem setGpr (i : Fin numGPRegs) (v : Word) : (m.setGpr i v).Sane := hs.set (gpReg_ne_loadReg i) v

theorem setHiLo (hi lo : Word) : (m.setHiLo hi lo).Sane :=
  (hs.set (r := loReg) (by decide) lo).set (r := hiReg) (by decide) hi

theorem assign (i : Fin numGPRegs) (v : Word) : Completes (m.assign i v) := (hs.setGpr i v).finish ..

theorem branch (instr : Instruction) (taken : Prop) [Decidable taken] : Completes (m.branch instr taken) :=
  hs.finish ..

theorem load (instr : Instruction) (v : Word) : Completes (m.load instr v) := hs.finish ..

theorem loadByte (instr : Instruction) : Completes (m.loadByte instr) :=
  hs.andThen_readMem _ (.inl rfl) (fun _ _ hs' => hs'.load ..)

theorem loadHalf (instr : Instruction) : Completes (m.loadHalf instr) := by
  simp only [Machine.loadHalf]
  split_ifs
  · exact hs.raise ..
  · exact hs.andThen_readMem _ (.inr (.inl rfl)) (fun _ _ hs' => hs'.load ..)

theorem store (instr : Instruction) {size : Nat} (hsize : AccessSize size) : Completes (m.store instr size) :=
  hs.andThen_writeMem _ hsize _ (fun _ _ hs' => hs'.finish ..)

theorem loadPartial (merge : Word → Word → Word → Word) :
    Completes (m.loadPartial instr merge) ↔ m.address instr &&& 3 = 0 := by
  by_cases ha : m.address instr &&& 3 = 0
  · refine iff_of_true ?_ ha
    simp only [Machine.loadPartial, assert_pos ha, ok_bind]
    exact hs.andThen_readMem _ (.inr (.inr rfl)) (fun _ _ hs' => hs'.load ..)
  · refine iff_of_false ?_ ha
    simp only [Machine.loadPartial, assert_neg ha, error_bind]
    exact not_completes_error _

theorem storePartial (merge : Word → Word → Word → Word) :
    Completes (m.storePartial instr merge) ↔ m.address instr &&& 3 = 0 := by
  by_cases ha : m.address instr &&& 3 = 0
  · refine iff_of_true ?_ ha
    simp only [Machine.storePartial, assert_pos ha, ok_bind]
    exact hs.andThen_readMem _ (.inr (.inr rfl)) (fun _ _ hs' =>
      hs'.andThen_writeMem _ (.inr (.inr rfl)) _ (fun _ _ hs'' => hs''.finish ..))
  · refine iff_of_false ?_ ha
    simp only [Machine.storePartial, assert_neg ha, error_bind]
    exact not_completes_error _

theorem div (hop : instr.opCode = .div) :
    Completes (m.execute instr) ↔ ¬(m.gpr instr.rs = signBit ∧ m.gpr instr.rt = -1) := by
  simp only [execute, hop]
  by_cases hz : m.gpr instr.rt = 0
  · rw [if_pos hz, hz]
    exact iff_of_true ((hs.setHiLo 0 0).finish ..) (fun h => absurd h.2 (by decide))
  · rw [if_neg hz, divide, if_neg hz]
    by_cases hf : m.gpr instr.rs = signBit ∧ m.gpr instr.rt = -1
    · rw [if_pos hf]
      exact iff_of_false (not_completes_error _) (not_not.mpr hf)
    · rw [if_neg hf]
      exact iff_of_true ((hs.setHiLo _ _).finish ..) hf

theorem execute_iff (hh : ¬Unhandled instr.opCode) : Completes (m.execute instr) ↔ ¬m.Fatal instr := by
  have hsafe (hp : ¬Partial instr.opCode) (hd : instr.opCode ≠ .div) : ¬m.Fatal instr := by
    rintro (h | h)
    · exact hp h.1
    · exact hd h.1
  have hlink := fun v => hs.set (r := retAddrReg) (by decide) v
  cases hop : instr.opCode
  -- the three codes without a case, the four partial transfers and the signed division
  case rfe => exact absurd (.inl hop) hh
  case special => exact absurd (.inr (.inl hop)) hh
  case bcond => exact absurd (.inr (.inr hop)) hh
  case lwl => simpa [Fatal, Partial, hop, execute] using hs.loadPartial mergeLWL
  case lwr => simpa [Fatal, Partial, hop, execute] using hs.loadPartial mergeLWR
  case swl => simpa [Fatal, Partial, hop, execute] using hs.storePartial mergeSWL
  case swr => simpa [Fatal, Partial, hop, execute] using hs.storePartial mergeSWR
  case div => simpa [Fatal, Partial, hop] using hs.div hop
  all_goals
    refine iff_of_true ?_ (hsafe (by simp [Partial, hop]) (by simp [hop]))
    simp only [execute, hop]
  case lw =>
    split_ifs
    · exact hs.raise ..
    · exact hs.andThen_readMem _ (.inr (.inr rfl)) (fun _ _ hs' => hs'.load ..)
  case lb | lbu => exact hs.loadByte instr
  case lh | lhu => exact hs.loadHalf instr
  case sb => exact hs.store instr (.inl rfl)
  case sh => exact hs.store instr (.inr (.inl rfl))
  case sw => exact hs.store instr (.inr (.inr rfl))
  case syscall | res | unimp => exact hs.raise ..
  case add | addi | sub =>
    split_ifs
    · exact hs.raise ..
    · exact hs.assign ..
  case divu =>
    split_ifs
    · exact (hs.setHiLo 0 0).finish ..
    · exact (hs.setHiLo _ _).finish ..
  case mult | multu => exact (hs.setHiLo _ _).finish ..
  case mthi => exact (hs.set (r := hiReg) (by decide) _).finish ..
  case mtlo => exact (hs.set (r := loReg) (by decide) _).finish ..
  case beq | bne | bgez | bgtz | blez | bltz => exact hs.branch ..
  case bgezal | bltzal => exact (hlink _).branch ..
  case j | jr => exact hs.finish ..
  case jal => exact (hlink _).finish ..
  case jalr => exact (hs.setGpr _ _).finish ..
  all_goals exact hs.assign ..

end Sane

theorem oneInstruction_completes (m : Machine) (hs : m.Sane) :
    Completes m.oneInstruction ↔
      ¬∃ raw m', m.readMem (m.registers pcReg) 4 = .ok (.value raw m') ∧ m.Fatal (decode raw) := by
  obtain ⟨which, m', he⟩ | ⟨raw, t, he⟩ := hs.readMem (m.registers pcReg) (.inr (.inr rfl))
  · refine iff_of_true ?_ (by simp [he])
    rw [oneInstruction, he]
    exact ⟨_, rfl⟩
  · rw [oneInstruction, he, andThen_value, (hs.withTable t).execute_iff (decode_handled raw)]
    apply not_congr
    constructor
    · exact fun hf => ⟨raw, _, rfl, hf⟩
    · rintro ⟨raw', m', hr, hf⟩
      obtain ⟨rfl, -⟩ := Outcome.value.inj (Except.ok.inj hr)
      exact hf

def filled (w : Word) (r : Register → Word) : Machine :=
  ⟨.littleEndian, r, Buffer.ofWords (fun _ => w), none, some (fun _ => ⟨0, 0, true, false, false, false⟩), 1⟩

theorem filled_sane {w : Word} {r : Register → Word} (hr : (r loadReg).toNat < numGPRegs) : (filled w r).Sane :=
  ⟨⟨rfl, by simp [filled]⟩, hr⟩

theorem filled_fetch (w : Word) (r : Register → Word) :
    ∃ t, (filled w r).readMem 0 4 = .ok (.value w { filled w r with pageTable := some t }) := by
  have ha : ¬misaligned 0 4 := by decide
  have ht : (filled w r).tlb = none := rfl
  have hp : (filled w r).pageTable = some (fun _ => ⟨0, 0, true, false, false, false⟩) := rfl
  have hw : Host.loadWord .littleEndian (Buffer.ofWords fun _ => w) 0 = w := Buffer.wordAt_ofWords (fun _ => w) 0
  refine ⟨Function.update (fun _ => ⟨0, 0, true, false, false, false⟩) 0 ⟨0, 0, true, false, true, false⟩, ?_⟩
  rw [readMem, translate_table ht hp false ha, translateTable, useEntry_eq (offset_le (.inr (.inr rfl)) ha)]
  simp [filled, wordToHost, hw, numPhysPages]

theorem filled_oneInstruction (w : Word) {r : Register → Word} (hr : r pcReg = 0) :
    ∃ t, (filled w r).oneInstruction = execute { filled w r with pageTable := some t } (decode w) := by
  obtain ⟨t, ht⟩ := filled_fetch w r
  exact ⟨t, by rw [oneInstruction, show (filled w r).registers pcReg = 0 from hr, ht, andThen_value]⟩

theorem fatal_instructions :
    ((filled 0x88010001 (fun _ => 0)).Sane ∧ (filled 0x88010001 (fun _ => 0)).gpr 0 = 0 ∧
      (filled 0x88010001 (fun _ => 0)).oneInstruction = .error .assertion) ∧
    ((filled 0x0022001a (fun r => if r = 1 then signBit else if r = 2 then -1 else 0)).Sane ∧
      (filled 0x0022001a (fun r => if r = 1 then signBit else if r = 2 then -1 else 0)).gpr 0 = 0 ∧
      (filled 0x0022001a (fun r => if r = 1 then signBit else if r = 2 then -1 else 0)).oneInstruction =
        .error .divide) := by
  refine ⟨⟨filled_sane (by decide), by decide, ?_⟩, filled_sane (by decide), by decide, ?_⟩
  · obtain ⟨t, ht⟩ := filled_oneInstruction 0x88010001 (r := fun _ => 0) rfl
    have hop : (decode 0x88010001).opCode = .lwl := by decide
    rw [ht]
    simp only [execute, hop, loadPartial]
    rw [assert_neg (by change ¬((0 : Word) + (decode 0x88010001).extra) &&& 3 = 0; decide)]
    rfl
  · obtain ⟨t, ht⟩ := filled_oneInstruction 0x0022001a
      (r := fun r => if r = 1 then signBit else if r = 2 then -1 else 0) rfl
    have hop : (decode 0x0022001a).opCode = .div := by decide
    rw [ht]
    simp only [execute, hop]
    rfl

theorem oneInstruction_completes_addu : Completes (filled 0x00221821 (fun _ => 0)).oneInstruction := by
  rw [oneInstruction_completes _ (filled_sane (by decide))]
  rintro ⟨raw, m', hr, hf⟩
  obtain ⟨t, ht⟩ := filled_fetch 0x00221821 (fun _ => 0)
  rw [show (filled 0x00221821 (fun _ => 0)).registers pcReg = 0 from rfl, ht] at hr
  obtain ⟨rfl, -⟩ := Outcome.value.inj (Except.ok.inj hr)
  have hop : (decode 0x00221821).opCode = .addu := by decide
  simp only [Fatal, Partial, hop, reduceCtorEq, or_self, false_and] at hf

end Nachos.Machine
