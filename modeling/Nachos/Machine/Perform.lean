import Nachos.Machine.LoadDelay
import Nachos.Machine.Visible

namespace Nachos

open Machine Instruction

def Instruction.Transfers (instr : Instruction) : Prop :=
  match instr.opCode with
  | .lb | .lbu | .lh | .lhu | .lw | .lwl | .lwr | .sb | .sh | .sw | .swl | .swr => True
  | _ => False

namespace Machine

variable {m n m' : Machine} {instr : Instruction} {q : Processor} {w : Word}

inductive Local (m : Machine) : Except Fault (Outcome Unit) → Prop
  | finish {registers : Register → Word} (hl : registers loadReg = m.registers loadReg) (t : Word) :
    Local m (Machine.finish { m with registers } 0 0 t)
  | raise (which : ExceptionType) (v : Word) : Local m (m.raiseException which v)
  | error (e : Fault) : Local m (.error e)

theorem Local.idle (t : Word) : Local m (m.finish 0 0 t) := .finish rfl t

theorem Local.set {r : Register} (hr : loadReg ≠ r) (v t : Word) : Local m ((m.set r v).finish 0 0 t) :=
  .finish (set_of_ne m hr v) t

theorem Local.setHiLo (hi lo t : Word) : Local m ((m.setHiLo hi lo).finish 0 0 t) :=
  .finish ((set_of_ne _ (by decide) hi).trans (set_of_ne m (by decide) lo)) t

theorem Local.assign (i : Fin numGPRegs) (v : Word) : Local m (m.assign i v) := .set (gpReg_ne (by decide)).symm v _

theorem Local.checked (overflow : Prop) [Decidable overflow] (i : Fin numGPRegs) (v : Word) :
    Local m (if overflow then m.raiseException .overflowException 0 else m.assign i v) := by
  split_ifs
  · exact .raise ..
  · exact .assign i v

theorem execute_local (h : ¬instr.Transfers) : Local m (m.execute instr) := by
  cases hop : instr.opCode
  all_goals simp only [Instruction.Transfers, hop, not_true_eq_false] at h
  all_goals simp only [execute, hop]
  case add | addi | sub => exact .checked ..
  case syscall | res | unimp => exact .raise ..
  case rfe | special | bcond => exact .error _
  case div =>
    split_ifs
    · exact .setHiLo ..
    · cases divide (m.gpr instr.rs) (m.gpr instr.rt) with
      | error e => exact .error e
      | ok x => exact .setHiLo ..
  case divu =>
    split_ifs
    · exact .setHiLo ..
    · exact .setHiLo ..
  case mult | multu => exact .setHiLo ..
  case jalr => exact .set (gpReg_ne (by decide)).symm ..
  case bgezal | bltzal | jal | mthi | mtlo => exact .set (by decide) ..
  case beq | bne | bgez | bgtz | blez | bltz | j | jr => exact .idle _
  all_goals exact .assign ..

structure Clear (m : Machine) : Prop extends m.Ready where
  loadValue : m.registers loadValueReg = 0

theorem Local.value (hl : (m.registers loadReg).toNat < numGPRegs) {x : Except Fault (Outcome Unit)} (h : Local m x)
    (hx : x = .ok (.value () m')) : m'.Clear ∧ m' = { m with registers := m'.registers } := by
  cases h with
  | finish hload t =>
    rename_i registers
    have hl' : (registers loadReg).toNat < numGPRegs := hload ▸ hl
    obtain ⟨m₂, he, hf⟩ := finish_finished (m := { m with registers }) hl' 0 0 t
    obtain ⟨-, rfl⟩ := Outcome.value.inj (Except.ok.inj (hx.symm.trans he))
    exact ⟨⟨⟨hf.zero, hf.loadReg⟩, hf.loadValue⟩, hf.frame⟩
  | raise which v => exact absurd hx (raiseException_ne_value _ _)
  | error e => cases hx

theorem Local.exception (hl : (m.registers loadReg).toNat < numGPRegs) {x : Except Fault (Outcome Unit)}
    {which : ExceptionType} (h : Local m x) (hx : x = .ok (.exception which m')) :
    ∃ v, m' = { m with registers := m.trapRegisters v } := by
  cases h with
  | finish hload t =>
    rename_i registers
    have hl' : (registers loadReg).toNat < numGPRegs := hload ▸ hl
    obtain ⟨m₂, he, -⟩ := finish_finished (m := { m with registers }) hl' 0 0 t
    cases hx.symm.trans he
  | raise which' v =>
    rw [raiseException_eq hl] at hx
    obtain ⟨-, rfl⟩ := Outcome.exception.inj (Except.ok.inj hx)
    exact ⟨v, rfl⟩
  | error e => cases hx

inductive Does (q : Processor) : Except ExceptionType Processor → Except Fault (Outcome Unit) → Prop
  | value {m : Machine} : Does q (.ok { q with cpu := m.cpu, loading := none }) (.ok (.value () m))
  | exception {which : ExceptionType} {m : Machine} (h : which ≠ .pageFaultException) :
    Does q (.error which) (.ok (.exception which m))

theorem Does.of_yields {x : Except Fault (Outcome Unit)} {c : Cpu} (h : Yields x c) :
    Does q (.ok { q with cpu := c, loading := none }) x := by
  obtain ⟨m', rfl, rfl⟩ := h
  exact .value

theorem Does.raise (hl : (m.registers loadReg).toNat < numGPRegs) {which : ExceptionType}
    (h : which ≠ .pageFaultException) (v : Word) : Does q (.error which) (m.raiseException which v) := by
  rw [raiseException_eq hl]
  exact .exception h

def integer (q : Processor) : Option Cpu → Except ExceptionType Processor
  | some cpu => .ok { q with cpu, loading := none }
  | none => .error .overflowException

theorem Does.of_implements {x : Except Fault (Outcome Unit)} {c : Option Cpu} (h : Implements m x c) :
    Does q (integer q c) x := by
  cases c with
  | some c => exact .of_yields h
  | none =>
    obtain ⟨m', rfl, -⟩ := h
    exact .exception (by decide)

theorem hiLo_does (hr : m.Ready) (hq : q.cpu = m.cpu) (hi lo : Word) :
    Does q (.ok (q.hiLo hi lo)) ((m.setHiLo hi lo).finish 0 0 (m.nextPC + 4)) := by
  obtain ⟨hr', hcpu⟩ := setHiLo_cpu hr hi lo
  have hy := hr'.finish (m.nextPC + 4)
  rw [hcpu] at hy
  have hq' : q.hiLo hi lo = { q with cpu := { m.cpu with hi := hi, lo := lo }.jump (m.nextPC + 4), loading := none } := by
    rw [Processor.hiLo, hq]
    rfl
  rw [hq']
  exact .of_yields hy

theorem product_does (hr : m.Ready) (hq : q.cpu = m.cpu) {hi lo : Word} {x : BitVec 64} (h : hi ++ lo = x) :
    Does q (.ok (q.product x)) ((m.setHiLo hi lo).finish 0 0 (m.nextPC + 4)) := by
  have hhi : x.extractLsb' 32 32 = hi := by
    rw [← h]
    exact BitVec.extractLsb'_append_eq_left
  have hlo : x.extractLsb' 0 32 = lo := by
    rw [← h]
    exact BitVec.extractLsb'_append_eq_right
  rw [Processor.product, hhi, hlo]
  exact hiLo_does hr hq hi lo

theorem divide_eq {x y : Word} (hy : y ≠ 0) (ho : ¬(x = signBit ∧ y = -1)) :
    divide x y = .ok (.ofInt 32 (x.toInt.tdiv y.toInt), .ofInt 32 (x.toInt.tmod y.toInt)) := by
  have hq : x.sdiv y = .ofInt 32 (x.toInt.tdiv y.toInt) := by
    apply BitVec.eq_of_toInt_eq
    rw [BitVec.toInt_sdiv, BitVec.toInt_ofInt]
  have hr : x.srem y = .ofInt 32 (x.toInt.tmod y.toInt) := by
    rw [← BitVec.toInt_srem, BitVec.ofInt_toInt]
  rw [divide, if_neg hy, if_neg ho, hq, hr]

theorem perform_ready (hr : m.Ready) (hq : q.cpu = m.cpu) (ht : ¬(decode w).Transfers)
    (hd : m.cpu.Defined (decode w)) : Does q (q.perform w (decode w).opCode) (m.execute (decode w)) := by
  have hl : (m.registers loadReg).toNat < numGPRegs := by
    rw [hr.idle]
    decide
  have hrs : q.cpu.gpr (Processor.rs w) = m.gpr (decode w).rs := by rw [hq, decode_rs]; rfl
  have hrt : q.cpu.gpr (Processor.rt w) = m.gpr (decode w).rt := by rw [hq, decode_rt]; rfl
  have hi (hc : m.Covered (decode w)) (hf : m.Faithful (decode w)) :
      Does q (integer q (q.cpu.step (decode w).opCode w)) (m.execute (decode w)) := by
    rw [hq]
    exact .of_implements ((execute_reference hr w hc).mpr hf)
  cases hop : (decode w).opCode
  all_goals simp only [Instruction.Transfers, Cpu.Defined, hop, not_true_eq_false] at ht hd
  case rfe | special | bcond => exact absurd (by simp [Unhandled, hop]) (decode_handled w)
  case syscall | res | unimp =>
    simp only [execute, hop, Processor.perform]
    exact .raise hl (by decide) 0
  case mult =>
    simp only [execute, hop, Processor.perform, hrs, hrt]
    exact product_does hr hq (mult_full_product ..).1
  case multu =>
    simp only [execute, hop, Processor.perform, hrs, hrt]
    refine product_does hr hq ?_
    apply BitVec.eq_of_toNat_eq
    rw [(mult_full_product ..).2, BitVec.toNat_ofNat, Nat.mod_eq_of_lt]
    exact (Nat.mul_lt_mul'' (BitVec.isLt _) (BitVec.isLt _)).trans_eq (Nat.pow_add 2 32 32).symm
  case div =>
    have hy : m.gpr (decode w).rt ≠ 0 := hd.1
    have ho : ¬(m.gpr (decode w).rs = signBit ∧ m.gpr (decode w).rt = -1) := hd.2
    simp only [execute, hop, Processor.perform, hrs, hrt]
    rw [if_neg hy, divide_eq hy ho, ok_bind]
    exact hiLo_does hr hq ..
  all_goals simp only [Covered, Faithful, hop] at hi
  case or | srl | srlv | j | jal => exact hi trivial hd
  case divu | bgezal | bltzal | jalr => exact hi hd trivial
  all_goals exact hi trivial trivial

/-- What the interpreter and the processor do of an instruction, from the relation `P` between their results. A page
fault leaves the processor where it is. -/
inductive Tracks (P : Processor → Machine → Prop) (T : Machine → Prop) (q : Processor) :
    Except ExceptionType Processor → Except Fault (Outcome Unit) → Prop
  | completes {q' : Processor} {m : Machine} (h : P q' m) : Tracks P T q (.ok q') (.ok (.value () m))
  | traps {which : ExceptionType} {m : Machine} (hne : which ≠ .pageFaultException) (h : P q m) :
    Tracks P T q (.error which) (.ok (.exception which m))
  | faults {x : Except ExceptionType Processor} {m : Machine} (h : P q m) (ht : T m) :
    Tracks P T q x (.ok (.exception .pageFaultException m))

theorem Tracks.mono {P P' : Processor → Machine → Prop} {T T' : Machine → Prop} {x : Except ExceptionType Processor}
    {y : Except Fault (Outcome Unit)} (h : Tracks P T q x y) (hP : ∀ q' m, P q' m → P' q' m) (hT : ∀ m, T m → T' m) :
    Tracks P' T' q x y := by
  cases h with
  | completes h => exact .completes (hP _ _ h)
  | traps hne h => exact .traps hne (hP _ _ h)
  | faults h ht => exact .faults (hP _ _ h) (hT _ ht)

theorem perform_tracks {P : Processor → Machine → Prop} {T : Machine → Prop} (hs : m.Sane) (hz : m.gpr 0 = 0)
    (hu : m.Undisturbed (decode w)) (hq : q.cpu = m.visible) (ht : ¬(decode w).Transfers)
    (hd : q.cpu.Defined (decode w))
    (hP : ∀ m' loading, m'.Clear → m' = { m with registers := m'.registers } →
      P { q with cpu := m'.visible, loading } m') :
    Tracks P T q (q.perform w (decode w).opCode) (m.execute (decode w)) := by
  obtain ⟨n, -, hset, -, -⟩ := delayedLoad_settled hs hz
  have hn := hset.visible hz
  have hr : n.Ready := ⟨(congrFun (congrArg Cpu.gpr hn) 0).trans (visible_gpr m 0), hset.loadReg⟩
  have hdoes := perform_ready hr (hq.trans hn.symm) ht (by rw [hn, ← hq]; exact hd)
  have hmatch := execute_matches hset hz hu
  have hlocal := execute_local (m := m) ht
  generalize hx : m.execute (decode w) = x at hmatch hlocal
  generalize n.execute (decode w) = y at hmatch hdoes
  generalize q.perform w (decode w).opCode = c at hdoes
  cases hdoes with
  | value =>
    cases hmatch with
    | value _ hsame =>
      obtain ⟨hc, hframe⟩ := hlocal.value hs.loadReg rfl
      rename_i n' m'
      have hr' : n'.Ready := ⟨(hsame.registers _ (gpReg_ne (by decide))).trans hc.zero,
        (hsame.registers loadReg (by decide)).trans hc.idle⟩
      have hv : m'.visible = n'.cpu := (visible_congr hsame.registers).symm.trans hr'.visible
      rw [← hv]
      exact .completes (hP m' none hc hframe)
  | exception hne =>
    cases hmatch with
    | exception _ hsame =>
      obtain ⟨v, rfl⟩ := hlocal.exception hs.loadReg rfl
      refine .traps hne ?_
      have hP' := hP { m with registers := m.trapRegisters v } q.loading ⟨⟨rfl, rfl⟩, rfl⟩ rfl
      rw [visible_trapped hs.loadReg, ← hq] at hP'
      exact hP'

end Machine

end Nachos
