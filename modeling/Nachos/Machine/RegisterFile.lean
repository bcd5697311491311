import Nachos.Machine.Memory
import Nachos.Machine.Safety

namespace Nachos

open Machine Instruction

structure Tidy (registers : Register → Word) : Prop where
  zero : registers (gpReg 0) = 0
  loadReg : (registers loadReg).toNat < numGPRegs

theorem Tidy.update {registers : Register → Word} (h : Tidy registers) {r : Register} (h0 : r ≠ gpReg 0)
    (hl : r ≠ Nachos.loadReg) (v : Word) : Tidy (Function.update registers r v) := by
  constructor
  · rw [Function.update_of_ne h0.symm]
    exact h.zero
  · rw [Function.update_of_ne hl.symm]
    exact h.loadReg

theorem tidy_zero : Tidy (fun _ => 0) := ⟨rfl, by decide⟩

def Outcome.machine {α : Type} : Outcome α → Machine
  | .value _ m => m
  | .exception _ m => m

namespace Machine

variable {m n : Machine} {l : Word} {instr : Instruction}

def loadInto (m : Machine) (i : Fin numGPRegs) (nextReg nextValue : Word) : Machine :=
  (((m.set (gpReg i) (m.registers loadValueReg)).set loadReg nextReg).set loadValueReg nextValue).set (gpReg 0) 0

theorem delayedLoad_general (hl : (m.registers loadReg).toNat < numGPRegs) (nextReg nextValue : Word) :
    m.delayedLoad nextReg nextValue = .ok (m.loadInto ⟨_, hl⟩ nextReg nextValue) :=
  delayedLoad_eq (r := gpReg ⟨_, hl⟩) rfl nextReg nextValue

theorem loadInto_tidy (m : Machine) (i : Fin numGPRegs) {nextReg : Word} (hr : nextReg.toNat < numGPRegs)
    (nextValue : Word) : Tidy (m.loadInto i nextReg nextValue).registers := by
  constructor
  · exact set_self ..
  · rw [loadInto, set_of_ne _ (by decide), set_of_ne _ (by decide), set_self]
    exact hr

/-- What `OneInstruction` does once it has called nothing but `ReadMem` and `WriteMem`: it stops, or it ends in a
`DelayedLoad` that finds `l` in `LoadReg`. -/
inductive Delays (l : Word) : Except Fault (Outcome Unit) → Prop
  | stop {e : Fault} (he : e ≠ .outOfBounds) : Delays l (.error e)
  | finish {n : Machine} {nextReg : Word} (hn : n.registers loadReg = l) (hr : nextReg.toNat < numGPRegs)
      (nextValue pcAfter : Word) : Delays l (n.finish nextReg nextValue pcAfter)
  | raise {n : Machine} (hn : n.registers loadReg = l) (which : ExceptionType) (badVAddr : Word) :
      Delays l (n.raiseException which badVAddr)

theorem Delays.inBounds {x : Except Fault (Outcome Unit)} (h : Delays l x) (hl : l.toNat < numGPRegs) :
    x ≠ .error .outOfBounds := by
  cases h with
  | stop he =>
    intro hc
    exact he (Except.error.inj hc)
  | finish hn hr nextValue pcAfter =>
    rw [Machine.finish, delayedLoad_general (hn ▸ hl)]
    intro hc
    cases hc
  | raise hn which badVAddr =>
    rw [raiseException, delayedLoad_general (by rw [set_of_ne _ (by decide), hn]; exact hl)]
    intro hc
    cases hc

theorem Delays.tidy {x : Except Fault (Outcome Unit)} (h : Delays l x) (hl : l.toNat < numGPRegs)
    {o : Outcome Unit} (ho : x = .ok o) : Tidy o.machine.registers := by
  cases h with
  | stop he => cases ho
  | @finish n nextReg hn hr nextValue pcAfter =>
    rw [Machine.finish, delayedLoad_general (hn ▸ hl)] at ho
    obtain rfl := Except.ok.inj ho
    have ht := loadInto_tidy n ⟨_, hn ▸ hl⟩ hr nextValue
    exact ((ht.update (by decide) (by decide) _).update (by decide) (by decide) _).update (by decide) (by decide) _
  | raise hn which badVAddr =>
    rw [raiseException, delayedLoad_general (by rw [set_of_ne _ (by decide), hn]; exact hl)] at ho
    obtain rfl := Except.ok.inj ho
    exact loadInto_tidy _ _ (by decide) 0

theorem andThen_raiseException {α β : Type} (m : Machine) (which : ExceptionType) (v : Word)
    (f : α → Machine → Except Fault (Outcome β)) :
    andThen (m.raiseException which v) f = m.raiseException which v := by
  unfold raiseException
  cases (m.set badVAddrReg v).delayedLoad 0 0 with
  | error e => rfl
  | ok n => rfl

theorem useEntry_error {entry : TranslationEntry} {put : TranslationEntry → Machine} {offset size : Nat}
    {writing : Bool} {e : Fault} (h : useEntry entry put offset size writing = .error e) : e = .assertion := by
  simp only [useEntry] at h
  split_ifs at h
  by_cases ha : entry.physicalPage.toNat * pageSize + offset + size ≤ memorySize
  · rw [assert_pos ha] at h
    cases h
  · rw [assert_neg ha] at h
    exact (Except.error.inj h).symm

theorem translate_error {v : Word} {size : Nat} {writing : Bool} {e : Fault}
    (h : m.translate v size writing = .error e) : e = .assertion := by
  simp only [translate] at h
  split_ifs at h
  split at h
  · simp only [translateTLB] at h
    split at h
    · cases h
    · exact useEntry_error h
  · simp only [translateTable] at h
    split_ifs at h
    exact useEntry_error h
  · exact (Except.error.inj h).symm
  · exact (Except.error.inj h).symm

section Execute

variable {v : Word} {size : Nat}

theorem Delays.readMem (hm : m.registers loadReg = l) {f : Word → Machine → Except Fault (Outcome Unit)}
    (hf : ∀ a n, n.registers loadReg = l → Delays l (f a n)) : Delays l (andThen (m.readMem v size) f) := by
  cases ht : m.translate v size false with
  | error e =>
    obtain rfl := translate_error ht
    rw [Machine.readMem, ht]
    exact .stop (by decide)
  | ok r =>
    cases r with
    | fail which =>
      rw [readMem_of_fail ht, andThen_raiseException]
      exact .raise hm which v
    | ok a n =>
      have hn : n.registers loadReg = l := (congrFun (translate_registers ht) _).trans hm
      simp only [Machine.readMem, ht, ok_bind]
      split_ifs
      · exact hf _ n hn
      · exact hf _ n hn
      · exact hf _ n hn
      · exact .stop (by decide)

theorem Delays.writeMem (hm : m.registers loadReg = l) {value : Word}
    {f : Unit → Machine → Except Fault (Outcome Unit)}
    (hf : ∀ n, n.registers loadReg = l → Delays l (f () n)) : Delays l (andThen (m.writeMem v size value) f) := by
  cases ht : m.translate v size true with
  | error e =>
    obtain rfl := translate_error ht
    rw [Machine.writeMem, ht]
    exact .stop (by decide)
  | ok r =>
    cases r with
    | fail which =>
      rw [writeMem_of_fail ht, andThen_raiseException]
      exact .raise hm which v
    | ok a n =>
      have hn : n.registers loadReg = l := (congrFun (translate_registers ht) _).trans hm
      simp only [Machine.writeMem, ht, ok_bind]
      split_ifs
      · exact hf _ hn
      · exact hf _ hn
      · exact hf _ hn
      · exact .stop (by decide)

theorem Delays.settle (hm : m.registers loadReg = l) (pcAfter : Word) : Delays l (m.finish 0 0 pcAfter) :=
  .finish hm (by decide) 0 pcAfter

theorem Delays.load (hm : m.registers loadReg = l) (instr : Instruction) (value : Word) :
    Delays l (m.load instr value) := by
  refine .finish hm ?_ value _
  rw [BitVec.toNat_ofNat, Nat.mod_eq_of_lt (instr.rt.isLt.trans (by decide))]
  exact instr.rt.isLt

theorem Delays.assert {p : Prop} [Decidable p] {x : Except Fault (Outcome Unit)} (hx : Delays l x) :
    Delays l (Nachos.assert p >>= fun _ => x) := by
  by_cases hp : p
  · rw [assert_pos hp]
    exact hx
  · rw [assert_neg hp]
    exact .stop (by decide)

variable (hm : m.registers loadReg = l)
include hm

theorem loadReg_set {r : Register} (hr : r ≠ loadReg) (v : Word) : (m.set r v).registers loadReg = l :=
  (set_of_ne m hr.symm v).trans hm

theorem Delays.assign (i : Fin numGPRegs) (v : Word) : Delays l (m.assign i v) :=
  .settle (loadReg_set hm (gpReg_ne_loadReg i) v) _

theorem Delays.checked (overflow : Prop) [Decidable overflow] (i : Fin numGPRegs) (v : Word) :
    Delays l (if overflow then m.raiseException .overflowException 0 else m.assign i v) := by
  split_ifs
  · exact .raise hm _ _
  · exact .assign hm i v

theorem Delays.hiLo (hi lo pcAfter : Word) : Delays l ((m.setHiLo hi lo).finish 0 0 pcAfter) :=
  .settle (loadReg_set (loadReg_set hm (by decide) lo) (by decide) hi) _

theorem Delays.loadHalf (instr : Instruction) : Delays l (m.loadHalf instr) := by
  simp only [Machine.loadHalf]
  split_ifs
  · exact .raise hm _ _
  · exact .readMem hm fun _ _ hn => .load hn instr _

theorem Delays.store (instr : Instruction) : Delays l (m.store instr size) :=
  .writeMem hm fun _ hn => .settle hn _

theorem Delays.loadPartial (instr : Instruction) (merge : Word → Word → Word → Word) :
    Delays l (m.loadPartial instr merge) :=
  .assert (.readMem hm fun _ _ hn => .load hn instr _)

theorem Delays.storePartial (instr : Instruction) (merge : Word → Word → Word → Word) :
    Delays l (m.storePartial instr merge) :=
  .assert (.readMem hm fun _ _ hn => .writeMem hn fun _ hn' => .settle hn' _)

theorem execute_delays (instr : Instruction) : Delays l (m.execute instr) := by
  cases hop : instr.opCode
  all_goals simp only [execute, hop]
  case add | addi | sub => exact .checked hm _ _ _
  case beq | bgez | bgtz | blez | bltz | bne | j | jr => exact .settle hm _
  case bgezal | bltzal | jal => exact .settle (loadReg_set hm (by decide) _) _
  case jalr => exact .settle (loadReg_set hm (gpReg_ne_loadReg _) _) _
  case div =>
    split_ifs
    · exact .hiLo hm _ _ _
    · unfold divide
      split_ifs
      · exact .stop (by decide)
      · exact .hiLo hm _ _ _
  case divu =>
    split_ifs
    · exact .hiLo hm _ _ _
    · exact .hiLo hm _ _ _
  case mult | multu => exact .hiLo hm _ _ _
  case mthi | mtlo => exact .settle (loadReg_set hm (by decide) _) _
  case lb | lbu => exact .readMem hm fun _ _ hn => .load hn instr _
  case lh | lhu => exact .loadHalf hm instr
  case lw =>
    split_ifs
    · exact .raise hm _ _
    · exact .readMem hm fun _ _ hn => .load hn instr _
  case lwl | lwr => exact .loadPartial hm instr _
  case sb | sh | sw => exact .store hm instr
  case swl | swr => exact .storePartial hm instr _
  case syscall | res | unimp => exact .raise hm _ _
  case rfe | special | bcond => exact .stop (by decide)
  all_goals exact .assign hm _ _

end Execute

theorem oneInstruction_delays (m : Machine) : Delays (m.registers loadReg) m.oneInstruction :=
  .readMem rfl fun _ _ hn => execute_delays hn _

end Machine

end Nachos
