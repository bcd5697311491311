import Nachos.Machine.Trap

namespace Nachos

open Machine Instruction

def Instruction.reads (instr : Instruction) : List (Fin numGPRegs) :=
  match instr.opCode with
  | .add | .addu | .and | .nor | .slt | .sltu | .sub | .subu | .xor | .sllv | .srav | .srlv => [instr.rs, instr.rt]
  | .mult | .multu | .div | .divu | .beq | .bne => [instr.rs, instr.rt]
  | .sb | .sh | .sw | .swl | .swr | .lwl | .lwr => [instr.rs, instr.rt]
  | .sll | .sra | .srl => [instr.rt]
  -- `OP_OR` combines `registers[instr->rs]` with itself
  | .or | .addi | .addiu | .andi | .ori | .xori | .slti | .sltiu => [instr.rs]
  | .bgez | .bgezal | .bgtz | .blez | .bltz | .bltzal | .jr | .jalr => [instr.rs]
  | .lb | .lbu | .lh | .lhu | .lw | .mthi | .mtlo => [instr.rs]
  | .j | .jal | .lui | .mfhi | .mflo | .rfe | .syscall | .unimp | .res | .special | .bcond => []

def Instruction.writes (instr : Instruction) : List (Fin numGPRegs) :=
  match instr.opCode with
  | .add | .addu | .and | .nor | .or | .slt | .sltu | .sub | .subu | .xor | .mfhi | .mflo => [instr.rd]
  | .sll | .sllv | .sra | .srav | .srl | .srlv | .jalr => [instr.rd]
  | .addi | .addiu | .andi | .ori | .xori | .slti | .sltiu | .lui => [instr.rt]
  | .lb | .lbu | .lh | .lhu | .lw | .lwl | .lwr => [instr.rt]
  | .jal | .bgezal | .bltzal => [31]
  | .beq | .bne | .bgez | .bgtz | .blez | .bltz | .j | .jr | .mult | .multu | .div | .divu | .mthi | .mtlo => []
  | .sb | .sh | .sw | .swl | .swr | .rfe | .syscall | .unimp | .res | .special | .bcond => []

namespace Machine

variable {m n : Machine} {v : Word} {size : Nat} {instr : Instruction}

structure Same (m n : Machine) : Prop where
  registers : ∀ r, r ≠ badVAddrReg → n.registers r = m.registers r
  mainMemory : n.mainMemory = m.mainMemory
  mapping : ∃ t u, m.pageTable = some t ∧ n.pageTable = some u ∧ SameMapping t u

inductive Matches {α : Type} (P : Machine → Machine → Prop) :
    Except Fault (Outcome α) → Except Fault (Outcome α) → Prop
  | value (a : α) {m n : Machine} (h : P m n) : Matches P (.ok (.value a m)) (.ok (.value a n))
  | exception (which : ExceptionType) {m n : Machine} (h : Same m n) :
    Matches P (.ok (.exception which m)) (.ok (.exception which n))
  | error (e : Fault) : Matches P (.error e) (.error e)

theorem Matches.andThen {α β : Type} {P Q : Machine → Machine → Prop} {x y : Except Fault (Outcome α)}
    {f : α → Machine → Except Fault (Outcome β)} (h : Matches P x y)
    (hf : ∀ a m n, P m n → Matches Q (f a m) (f a n)) : Matches Q (andThen x f) (andThen y f) := by
  cases h with
  | value a h => exact hf a _ _ h
  | exception which h => exact .exception which h
  | error e => exact .error e

structure Settled (i : Fin numGPRegs) (m n : Machine) : Prop where
  host : n.host = m.host
  mainMemory : n.mainMemory = m.mainMemory
  tlb : m.tlb = none
  tlb' : n.tlb = none
  pageTableSize : n.pageTableSize = m.pageTableSize
  mapping : ∃ t u, m.pageTable = some t ∧ n.pageTable = some u ∧ SameMapping t u
  pending : (m.registers loadReg).toNat = i
  loadReg : n.registers loadReg = 0
  loadValue : n.registers loadValueReg = 0
  target : i ≠ 0 → n.registers (gpReg i) = m.registers loadValueReg
  same : ∀ r, r ≠ Nachos.loadReg → r ≠ loadValueReg → r ≠ badVAddrReg → (r = gpReg i → i = 0) →
    n.registers r = m.registers r

namespace Settled

variable {i : Fin numGPRegs} (h : Settled i m n)
include h

theorem set {r : Register} (hl : r ≠ Nachos.loadReg) (hv : r ≠ loadValueReg) (hi : r = gpReg i → i = 0) (v : Word) :
    Settled i (m.set r v) (n.set r v) := by
  refine ⟨h.host, h.mainMemory, h.tlb, h.tlb', h.pageTableSize, h.mapping, ?_, ?_, ?_, fun h0 => ?_, ?_⟩
  · rw [set_of_ne m hl.symm, h.pending]
  · rw [set_of_ne n hl.symm, h.loadReg]
  · rw [set_of_ne n hv.symm, h.loadValue]
  · rw [set_of_ne n (fun he => h0 (hi he.symm)), set_of_ne m hv.symm, h.target h0]
  · intro r' hl' hv' hb' hi'
    by_cases hr : r' = r
    · subst hr
      rw [set_self, set_self]
    · rw [set_of_ne n hr, set_of_ne m hr, h.same r' hl' hv' hb' hi']

theorem gpr {j : Fin numGPRegs} (hj : j = i → i = 0) : n.gpr j = m.gpr j :=
  h.same _ (gpReg_ne (by decide)) (gpReg_ne (by decide)) (gpReg_ne (by decide)) (fun he => hj (gpReg_inj he))

theorem register {r : Register} (hr : numGPRegs ≤ (r : Nat)) (hl : r ≠ Nachos.loadReg) (hv : r ≠ loadValueReg)
    (hb : r ≠ badVAddrReg) : n.registers r = m.registers r :=
  h.same r hl hv hb (fun he => absurd he (gpReg_ne hr).symm)

theorem nextPC : n.nextPC = m.nextPC := h.register (by decide) (by decide) (by decide) (by decide)

theorem setGpr {j : Fin numGPRegs} (hj : j = i → i = 0) (v : Word) : Settled i (m.setGpr j v) (n.setGpr j v) :=
  h.set (gpReg_ne (by decide)) (gpReg_ne (by decide)) (fun he => hj (gpReg_inj he)) v

theorem delayedLoad (r v : Word) : ∃ m' n', m.delayedLoad r v = .ok m' ∧ n.delayedLoad r v = .ok n' ∧
    Same m' n' := by
  have hn : (n.registers Nachos.loadReg).toNat = gpReg 0 := by rw [h.loadReg]; rfl
  have hm : (m.registers Nachos.loadReg).toNat = gpReg i := h.pending
  refine ⟨_, _, delayedLoad_eq hm r v, delayedLoad_eq hn r v, ⟨?_, h.mainMemory, h.mapping⟩⟩
  intro r' hb
  by_cases h0 : r' = gpReg 0
  · rw [h0, set_self, set_self]
  rw [set_of_ne _ h0, set_of_ne _ h0]
  by_cases hv : r' = loadValueReg
  · rw [hv, set_self, set_self]
  rw [set_of_ne _ hv, set_of_ne _ hv]
  by_cases hl : r' = Nachos.loadReg
  · rw [hl, set_self, set_self]
  rw [set_of_ne _ hl, set_of_ne _ hl, set_of_ne _ h0]
  by_cases hi : r' = gpReg i
  · subst hi
    rw [set_self, h.target (fun hz => h0 (by rw [hz]))]
  · rw [set_of_ne _ hi, h.same r' hl hv hb (fun he => absurd he hi)]

theorem finish (r v pc : Word) : Matches Same (m.finish r v pc) (n.finish r v pc) := by
  obtain ⟨m', n', hm, hn, hs⟩ := h.delayedLoad r v
  simp only [Machine.finish, hm, hn, ok_bind]
  refine .value () ⟨?_, hs.mainMemory, hs.mapping⟩
  intro r' hb
  have hpc := hs.registers pcReg (by decide)
  have hnext := hs.registers nextPCReg (by decide)
  simp only [Machine.set, Function.update_apply, hs.registers r' hb, hpc]
  split_ifs
  all_goals first | rfl | exact hnext

theorem raise {α : Type} {P : Machine → Machine → Prop} (which : ExceptionType) (v : Word) :
    Matches (α := α) P (m.raiseException which v) (n.raiseException which v) := by
  have hb := h.set (r := badVAddrReg) (by decide) (by decide) (fun he => absurd he.symm (gpReg_ne (by decide))) v
  obtain ⟨m', n', hm, hn, hs⟩ := hb.delayedLoad 0 0
  simp only [raiseException, hm, hn, ok_bind]
  exact .exception which hs

theorem withTable (v : Word) (hs : AccessSize size) (writing : Bool) :
    (∃ which, m.translate v size writing = .ok (.fail which) ∧ n.translate v size writing = .ok (.fail which)) ∨
      ∃ a m' n', m.translate v size writing = .ok (.ok a m') ∧ n.translate v size writing = .ok (.ok a n') ∧
        Settled i m' n' ∧ m'.registers = m.registers := by
  obtain ⟨t, u, ht, hu, hmap⟩ := h.mapping
  obtain ⟨which, -, hm, hn⟩ | ⟨a, hm, hn⟩ :=
    translate_matches h.tlb ht h.tlb' hu h.pageTableSize hmap v hs writing
  · exact .inl ⟨which, hm, hn⟩
  · refine .inr ⟨a, _, _, hm, hn, ?_, rfl⟩
    exact { h with mapping := ⟨_, _, rfl, rfl, touch_sameMapping hmap _ writing⟩ }

theorem readMem (v : Word) (hs : AccessSize size) :
    Matches (fun m' n' => Settled i m' n' ∧ m'.registers = m.registers) (m.readMem v size) (n.readMem v size) := by
  obtain ⟨which, hm, hn⟩ | ⟨a, m', n', hm, hn, hset, hr⟩ := h.withTable v hs false
  · rw [readMem_of_fail hm, readMem_of_fail hn]
    exact h.raise which v
  · rw [readMem_of_ok hs hm, readMem_of_ok hs hn, hset.host, hset.mainMemory]
    exact .value _ ⟨hset, hr⟩

theorem writeMem (v : Word) (hs : AccessSize size) (value : Word) :
    Matches (Settled i) (m.writeMem v size value) (n.writeMem v size value) := by
  obtain ⟨which, hm, hn⟩ | ⟨a, m', n', hm, hn, hset, -⟩ := h.withTable v hs true
  · rw [writeMem_of_fail hm, writeMem_of_fail hn]
    exact h.raise which v
  · rw [writeMem_of_ok hs hm, writeMem_of_ok hs hn, hset.host, hset.mainMemory]
    exact .value () { hset with host := rfl, mainMemory := rfl }

theorem address (hrs : instr.rs = i → i = 0) : n.address instr = m.address instr := by
  rw [Machine.address, h.gpr hrs]
  rfl

theorem advance : Matches Same (m.finish 0 0 (m.nextPC + 4)) (n.finish 0 0 (n.nextPC + 4)) := by
  rw [h.nextPC]
  exact h.finish ..

theorem load (instr : Instruction) (v : Word) : Matches Same (m.load instr v) (n.load instr v) := by
  rw [Machine.load, Machine.load, h.nextPC]
  exact h.finish ..

theorem assign {j : Fin numGPRegs} (hj : j = i → i = 0) (v : Word) : Matches Same (m.assign j v) (n.assign j v) := by
  rw [Machine.assign, Machine.assign, h.nextPC]
  exact (h.setGpr hj v).finish ..

theorem branch (instr : Instruction) (taken : Prop) [Decidable taken] :
    Matches Same (m.branch instr taken) (n.branch instr taken) := by
  rw [Machine.branch, Machine.branch, h.nextPC]
  exact h.finish ..

theorem setHiLo (hi lo : Word) : Settled i (m.setHiLo hi lo) (n.setHiLo hi lo) :=
  (h.set (r := loReg) (by decide) (by decide) (fun he => absurd he.symm (gpReg_ne (by decide))) lo).set
    (r := hiReg) (by decide) (by decide) (fun he => absurd he.symm (gpReg_ne (by decide))) hi

theorem readLoad (v : Word) (hs : AccessSize size) (instr : Instruction) (value : Word → Word) :
    Matches Same (andThen (m.readMem v size) fun raw m => m.load instr (value raw))
      (andThen (n.readMem v size) fun raw m => m.load instr (value raw)) :=
  (h.readMem v hs).andThen fun _ _ _ h' => h'.1.load instr _

theorem store (hs : AccessSize size) (hrs : instr.rs = i → i = 0) (hrt : instr.rt = i → i = 0) :
    Matches Same (m.store instr size) (n.store instr size) := by
  rw [Machine.store, Machine.store, h.address hrs, h.gpr hrt]
  exact (h.writeMem _ hs _).andThen fun _ _ _ h' => h'.advance

theorem storePartial (merge : Word → Word → Word → Word) (hrs : instr.rs = i → i = 0)
    (hrt : instr.rt = i → i = 0) : Matches Same (m.storePartial instr merge) (n.storePartial instr merge) := by
  simp only [Machine.storePartial, h.address hrs]
  by_cases ha : m.address instr &&& 3 = 0
  · rw [assert_pos ha]
    refine (h.readMem _ (.inr (.inr rfl))).andThen fun raw m' n' h' => ?_
    rw [h'.1.gpr hrt]
    exact (h'.1.writeMem _ (.inr (.inr rfl)) _).andThen fun _ _ _ h'' => h''.advance
  · rw [assert_neg ha]
    exact .error _

theorem loadTarget (hz : m.gpr 0 = 0) (hrt : instr.rt = i → i = 0 ∧ m.registers loadValueReg = 0) :
    n.loadTarget instr = m.loadTarget instr := by
  have hlt (j : Fin numGPRegs) : (j : Nat) < 2 ^ 32 := j.isLt.trans (by decide)
  have hof (x : Word) (j : Fin numGPRegs) : x = .ofNat 32 j ↔ x.toNat = j := by
    rw [← BitVec.toNat_inj, BitVec.toNat_ofNat, Nat.mod_eq_of_lt (hlt j)]
  unfold Machine.loadTarget
  simp only [hof, h.pending, h.loadReg, h.loadValue]
  by_cases h0 : instr.rt = 0
  · rw [if_pos (by rw [h0]; rfl)]
    split_ifs with hi
    · exact (hrt (Fin.ext hi.symm)).2.symm
    · rw [h0, hz]
  · rw [if_neg (fun hc => h0 (Fin.ext hc.symm)), h.gpr (fun he => (hrt he).1)]
    rw [if_neg]
    intro hi
    have he := (Fin.ext hi.symm : instr.rt = i)
    exact h0 (he.trans (hrt he).1)

theorem loadPartial (merge : Word → Word → Word → Word) (hz : m.gpr 0 = 0) (hrs : instr.rs = i → i = 0)
    (hrt : instr.rt = i → i = 0 ∧ m.registers loadValueReg = 0) :
    Matches Same (m.loadPartial instr merge) (n.loadPartial instr merge) := by
  simp only [Machine.loadPartial, h.address hrs]
  by_cases ha : m.address instr &&& 3 = 0
  · rw [assert_pos ha]
    refine (h.readMem _ (.inr (.inr rfl))).andThen fun raw m' n' h' => ?_
    have ht : n'.loadTarget instr = m'.loadTarget instr :=
      h'.1.loadTarget (by rw [Machine.gpr, h'.2]; exact hz) (by rw [h'.2]; exact hrt)
    rw [ht]
    exact h'.1.load instr _
  · rw [assert_neg ha]
    exact .error _

end Settled

def Undisturbed (m : Machine) (instr : Instruction) : Prop :=
  (m.registers loadReg = 0 ∧ m.registers loadValueReg = 0) ∨
    ∀ i ∈ instr.reads ++ instr.writes, (m.registers loadReg).toNat ≠ i

theorem Undisturbed.touched {i j : Fin numGPRegs} (hu : m.Undisturbed instr) (h : Settled i m n)
    (hj : j ∈ instr.reads ++ instr.writes) (he : j = i) : i = 0 ∧ m.registers loadValueReg = 0 := by
  obtain ⟨hl, hv⟩ | hu := hu
  · refine ⟨Fin.ext ?_, hv⟩
    rw [← h.pending, hl]
    rfl
  · exact absurd (h.pending.trans (congrArg Fin.val he.symm)) (hu j hj)

theorem Undisturbed.apart {i : Fin numGPRegs} (hu : m.Undisturbed instr) (h : Settled i m n) :
    ∀ j ∈ instr.reads ++ instr.writes, j = i → i = 0 := fun _ hj he => (hu.touched h hj he).1

namespace Settled

variable {i : Fin numGPRegs} (h : Settled i m n) (ht : ∀ j ∈ instr.reads ++ instr.writes, j = i → i = 0)
include h ht

theorem checked (hc : instr.opCode ∈ [OpCode.add, .addi, .sub]) : Matches Same (m.execute instr) (n.execute instr) := by
  simp only [List.mem_cons, List.not_mem_nil, or_false] at hc
  obtain hop | hop | hop := hc
  all_goals
    simp only [Instruction.reads, Instruction.writes, hop, List.mem_append, List.mem_cons, List.not_mem_nil, or_false] at ht
    simp only [execute, hop]
    rw [h.gpr (ht instr.rs (by simp))]
  · rw [h.gpr (ht instr.rt (by simp))]
    split_ifs
    · exact h.raise ..
    · exact h.assign (ht _ (by simp)) _
  · split_ifs
    · exact h.raise ..
    · exact h.assign (ht _ (by simp)) _
  · rw [h.gpr (ht instr.rt (by simp))]
    split_ifs
    · exact h.raise ..
    · exact h.assign (ht _ (by simp)) _

theorem threeRegisters (hc : instr.opCode ∈ [OpCode.addu, .and, .nor, .slt, .sltu, .subu, .xor, .sllv, .srav, .srlv]) :
    Matches Same (m.execute instr) (n.execute instr) := by
  simp only [List.mem_cons, List.not_mem_nil, or_false] at hc
  obtain hop | hop | hop | hop | hop | hop | hop | hop | hop | hop := hc
  all_goals
    simp only [Instruction.reads, Instruction.writes, hop, List.mem_append, List.mem_cons, List.not_mem_nil, or_false] at ht
    simp only [execute, hop]
    rw [h.gpr (ht instr.rs (by simp)), h.gpr (ht instr.rt (by simp))]
    exact h.assign (ht _ (by simp)) _

-- `OR` reads `rs` twice
theorem oneSource (hc : instr.opCode ∈ [OpCode.addiu, .andi, .or, .ori, .xori, .slti, .sltiu]) :
    Matches Same (m.execute instr) (n.execute instr) := by
  simp only [List.mem_cons, List.not_mem_nil, or_false] at hc
  obtain hop | hop | hop | hop | hop | hop | hop := hc
  all_goals
    simp only [Instruction.reads, Instruction.writes, hop, List.mem_append, List.mem_cons, List.not_mem_nil, or_false] at ht
    simp only [execute, hop]
    rw [h.gpr (ht instr.rs (by simp))]
    exact h.assign (ht _ (by simp)) _

theorem noSource (hc : instr.opCode ∈ [OpCode.sll, .sra, .srl, .lui, .mfhi, .mflo]) :
    Matches Same (m.execute instr) (n.execute instr) := by
  have hhi : n.registers hiReg = m.registers hiReg := h.register (by decide) (by decide) (by decide) (by decide)
  have hlo : n.registers loReg = m.registers loReg := h.register (by decide) (by decide) (by decide) (by decide)
  simp only [List.mem_cons, List.not_mem_nil, or_false] at hc
  obtain hop | hop | hop | hop | hop | hop := hc
  all_goals
    simp only [Instruction.reads, Instruction.writes, hop, List.mem_append, List.mem_cons, List.not_mem_nil, or_false] at ht
    simp only [execute, hop]
  · rw [h.gpr (ht instr.rt (by simp))]
    exact h.assign (ht _ (by simp)) _
  · rw [h.gpr (ht instr.rt (by simp))]
    exact h.assign (ht _ (by simp)) _
  · rw [h.gpr (ht instr.rt (by simp))]
    exact h.assign (ht _ (by simp)) _
  · exact h.assign (ht _ (by simp)) _
  · rw [hhi]
    exact h.assign (ht _ (by simp)) _
  · rw [hlo]
    exact h.assign (ht _ (by simp)) _

theorem branches (hc : instr.opCode ∈ [OpCode.beq, .bne, .bgez, .bgtz, .blez, .bltz]) :
    Matches Same (m.execute instr) (n.execute instr) := by
  simp only [List.mem_cons, List.not_mem_nil, or_false] at hc
  obtain hop | hop | hop | hop | hop | hop := hc
  all_goals
    simp only [Instruction.reads, Instruction.writes, hop, List.mem_append, List.mem_cons, List.not_mem_nil, or_false] at ht
    simp only [execute, hop]
    rw [h.gpr (ht instr.rs (by simp))]
  · rw [h.gpr (ht instr.rt (by simp))]
    exact h.branch ..
  · rw [h.gpr (ht instr.rt (by simp))]
    exact h.branch ..
  all_goals exact h.branch ..

theorem links (hc : instr.opCode ∈ [OpCode.bgezal, .bltzal]) : Matches Same (m.execute instr) (n.execute instr) := by
  simp only [List.mem_cons, List.not_mem_nil, or_false] at hc
  obtain hop | hop := hc
  all_goals
    simp only [Instruction.reads, Instruction.writes, hop, List.mem_append, List.mem_cons, List.not_mem_nil, or_false] at ht
    simp only [execute, hop]
    have h' := h.setGpr (j := 31) (ht _ (by simp)) (m.nextPC + 4)
    have hrs : (n.set retAddrReg (m.nextPC + 4)).gpr instr.rs = (m.set retAddrReg (m.nextPC + 4)).gpr instr.rs :=
      h'.gpr (ht _ (by simp))
    rw [h.nextPC]
    change Matches Same ((m.setGpr 31 _).branch ..) ((n.setGpr 31 _).branch ..)
    rw [hrs]
    exact h'.branch ..

theorem jumps (hc : instr.opCode ∈ [OpCode.j, .jr, .jal, .jalr]) : Matches Same (m.execute instr) (n.execute instr) := by
  simp only [List.mem_cons, List.not_mem_nil, or_false] at hc
  obtain hop | hop | hop | hop := hc
  all_goals
    simp only [Instruction.reads, Instruction.writes, hop, List.mem_append, List.mem_cons, List.not_mem_nil, or_false] at ht
    simp only [execute, hop]
  · rw [h.nextPC]
    exact h.finish ..
  · rw [h.gpr (ht instr.rs (by simp))]
    exact h.finish ..
  · rw [h.nextPC]
    exact (h.setGpr (j := 31) (ht _ (by simp)) (m.nextPC + 4)).finish ..
  · have h' := h.setGpr (j := instr.rd) (ht _ (by simp)) (m.nextPC + 4)
    rw [h.nextPC, h'.gpr (ht _ (by simp))]
    exact h'.finish ..

theorem products (hc : instr.opCode ∈ [OpCode.mult, .multu, .div, .divu, .mthi, .mtlo]) :
    Matches Same (m.execute instr) (n.execute instr) := by
  simp only [List.mem_cons, List.not_mem_nil, or_false] at hc
  obtain hop | hop | hop | hop | hop | hop := hc
  all_goals
    simp only [Instruction.reads, Instruction.writes, hop, List.mem_append, List.mem_cons, List.not_mem_nil, or_false] at ht
    simp only [execute, hop]
    rw [h.gpr (ht instr.rs (by simp)), h.nextPC]
  · rw [h.gpr (ht instr.rt (by simp))]
    exact (h.setHiLo _ _).finish ..
  · rw [h.gpr (ht instr.rt (by simp))]
    exact (h.setHiLo _ _).finish ..
  · rw [h.gpr (ht instr.rt (by simp))]
    split_ifs
    · exact (h.setHiLo _ _).finish ..
    · cases divide (m.gpr instr.rs) (m.gpr instr.rt) with
      | error e => exact .error e
      | ok qr => exact (h.setHiLo _ _).finish ..
  · rw [h.gpr (ht instr.rt (by simp))]
    split_ifs
    · exact (h.setHiLo _ _).finish ..
    · exact (h.setHiLo _ _).finish ..
  all_goals exact (h.set (by decide) (by decide) (fun he => absurd he.symm (gpReg_ne (by decide))) _).finish ..

theorem loads (hc : instr.opCode ∈ [OpCode.lb, .lbu, .lh, .lhu, .lw]) : Matches Same (m.execute instr) (n.execute instr) := by
  simp only [List.mem_cons, List.not_mem_nil, or_false] at hc
  obtain hop | hop | hop | hop | hop := hc
  all_goals
    simp only [Instruction.reads, Instruction.writes, hop, List.mem_append, List.mem_cons, List.not_mem_nil, or_false] at ht
    have haddr : n.address instr = m.address instr := h.address (ht _ (by simp))
    simp only [execute, hop, loadByte, loadHalf, haddr]
  · exact h.readLoad _ (.inl rfl) instr (fun _ => _)
  · exact h.readLoad _ (.inl rfl) instr (fun _ => _)
  · split_ifs
    · exact h.raise ..
    · exact h.readLoad _ (.inr (.inl rfl)) instr (fun _ => _)
  · split_ifs
    · exact h.raise ..
    · exact h.readLoad _ (.inr (.inl rfl)) instr (fun _ => _)
  · split_ifs
    · exact h.raise ..
    · exact h.readLoad _ (.inr (.inr rfl)) instr (fun raw => raw)

theorem stores (hc : instr.opCode ∈ [OpCode.sb, .sh, .sw, .swl, .swr]) : Matches Same (m.execute instr) (n.execute instr) := by
  simp only [List.mem_cons, List.not_mem_nil, or_false] at hc
  obtain hop | hop | hop | hop | hop := hc
  all_goals
    simp only [Instruction.reads, Instruction.writes, hop, List.mem_append, List.mem_cons, List.not_mem_nil, or_false] at ht
    simp only [execute, hop]
  · exact h.store (.inl rfl) (ht _ (by simp)) (ht _ (by simp))
  · exact h.store (.inr (.inl rfl)) (ht _ (by simp)) (ht _ (by simp))
  · exact h.store (.inr (.inr rfl)) (ht _ (by simp)) (ht _ (by simp))
  · exact h.storePartial _ (ht _ (by simp)) (ht _ (by simp))
  · exact h.storePartial _ (ht _ (by simp)) (ht _ (by simp))

end Settled

theorem execute_matches {i : Fin numGPRegs} (h : Settled i m n) (hz : m.gpr 0 = 0) (hu : m.Undisturbed instr) :
    Matches Same (m.execute instr) (n.execute instr) := by
  have ht := hu.apart h
  cases hop : instr.opCode
  case rfe | special | bcond =>
    simp only [execute, hop]
    exact .error _
  case syscall | res | unimp =>
    simp only [execute, hop]
    exact h.raise ..
  case add | addi | sub => exact h.checked ht (by simp [hop])
  case addu | and | nor | slt | sltu | subu | xor | sllv | srav | srlv => exact h.threeRegisters ht (by simp [hop])
  case addiu | andi | or | ori | xori | slti | sltiu => exact h.oneSource ht (by simp [hop])
  case sll | sra | srl | lui | mfhi | mflo => exact h.noSource ht (by simp [hop])
  case beq | bne | bgez | bgtz | blez | bltz => exact h.branches ht (by simp [hop])
  case bgezal | bltzal => exact h.links ht (by simp [hop])
  case j | jr | jal | jalr => exact h.jumps ht (by simp [hop])
  case mult | multu | div | divu | mthi | mtlo => exact h.products ht (by simp [hop])
  case lb | lbu | lh | lhu | lw => exact h.loads ht (by simp [hop])
  case sb | sh | sw | swl | swr => exact h.stores ht (by simp [hop])
  case lwl | lwr =>
    have hread : instr.rs ∈ instr.reads ++ instr.writes ∧ instr.rt ∈ instr.reads ++ instr.writes := by
      simp [Instruction.reads, hop]
    simp only [execute, hop]
    exact h.loadPartial _ hz (ht _ hread.1) (hu.touched h hread.2)

def pageIn (m : Machine) (p : Nat) (entry : TranslationEntry) (mem : Buffer) : Machine :=
  { m with pageTable := m.pageTable.map (Function.update · p entry), mainMemory := mem }

theorem Trapped.settled {m' : Machine} (h : Trapped m v m') (hs : m.Sane) (hz : m.gpr 0 = 0) (p : Nat)
    (entry : TranslationEntry) (mem : Buffer) :
    Settled ⟨_, hs.loadReg⟩ (m.pageIn p entry mem) (m'.pageIn p entry mem) := by
  obtain ⟨t, u, ht, hmap, rfl⟩ := h.mapping
  refine ⟨rfl, rfl, hs.tlb, hs.tlb, rfl, ⟨_, _, ?_, rfl, hmap.update p entry⟩, rfl, rfl, rfl, fun h0 => ?_, ?_⟩
  · simp only [pageIn, ht, Option.map_some]
  · change m.trapRegisters v _ = m.registers loadValueReg
    have hne : gpReg ⟨_, hs.loadReg⟩ ≠ gpReg 0 := fun he => h0 (gpReg_inj he)
    rw [trapRegisters, if_neg hne, if_neg (gpReg_ne (by decide)), if_neg (gpReg_ne (by decide))]
    exact if_pos rfl
  · intro r hl hv hb hi
    change m.trapRegisters v r = m.registers r
    by_cases h0 : r = gpReg 0
    · rw [trapRegisters, if_pos h0, h0]
      exact hz.symm
    rw [trapRegisters, if_neg h0, if_neg hv, if_neg hl, if_neg hb]
    split_ifs with ht'
    · have hr : r = gpReg ⟨_, hs.loadReg⟩ := Fin.ext ht'.symm
      exact absurd (hr.trans (congrArg gpReg (hi hr))) h0
    · rfl

theorem oneInstruction_matches {i : Fin numGPRegs} (h : Settled i m n) (hz : m.gpr 0 = 0)
    (hu : ∀ raw m', m.readMem (m.registers pcReg) 4 = .ok (.value raw m') → m.Undisturbed (decode raw)) :
    Matches Same m.oneInstruction n.oneInstruction := by
  have hpc : n.registers pcReg = m.registers pcReg := h.register (by decide) (by decide) (by decide) (by decide)
  rw [oneInstruction, oneInstruction, hpc]
  have hfetch := h.readMem (m.registers pcReg) (.inr (.inr rfl))
  generalize m.readMem (m.registers pcReg) 4 = x at hfetch hu ⊢
  generalize n.readMem (m.registers pcReg) 4 = y at hfetch ⊢
  cases hfetch with
  | value raw hs =>
    have hzr : gpr _ 0 = 0 := (congrFun hs.2 (gpReg 0)).trans hz
    refine execute_matches hs.1 hzr ?_
    rw [Undisturbed, hs.2]
    exact hu raw _ rfl
  | exception which hs => exact .exception which hs
  | error e => exact .error e

/-- Exceptions are precise, and the instruction that trapped can be run again once its page is resident. -/
theorem exception_restartable {m m' : Machine} {which : ExceptionType} (hs : m.Sane) (hz : m.gpr 0 = 0)
    (h : m.oneInstruction = .ok (.exception which m')) :
    (m'.mainMemory = m.mainMemory ∧
      (∀ r ∈ [pcReg, nextPCReg, prevPCReg, hiReg, loReg], m'.registers r = m.registers r) ∧
      (∀ i : Fin numGPRegs, m'.gpr i =
        if i = 0 then 0 else if (m.registers loadReg).toNat = i then m.registers loadValueReg else m.gpr i) ∧
      m'.registers loadReg = 0 ∧ m'.registers loadValueReg = 0 ∧ TrapCause m which (m'.registers badVAddrReg)) ∧
    ∀ (p : Nat) (entry : TranslationEntry) (mem : Buffer),
      (∀ raw m₁, (m.pageIn p entry mem).readMem (m.registers pcReg) 4 = .ok (.value raw m₁) →
        m.Undisturbed (decode raw)) →
      Matches Same (m.pageIn p entry mem).oneInstruction (m'.pageIn p entry mem).oneInstruction := by
  obtain ⟨v, hv, htrap⟩ := (oneInstruction_precise hs).trapped h
  constructor
  · obtain ⟨t, u, -, -, rfl⟩ := htrap.mapping
    refine ⟨rfl, fun r hr => trapRegisters_control hs.loadReg hr, fun i => trapRegisters_gpr i, rfl, rfl, ?_⟩
    change TrapCause m which (m.trapRegisters v badVAddrReg)
    rwa [trapRegisters_badVAddr hs.loadReg]
  · intro p entry mem hu
    exact oneInstruction_matches (htrap.settled hs hz p entry mem) hz hu

def absentPage : Machine :=
  ⟨.littleEndian, fun r => if r = loadReg then 5 else if r = loadValueReg then 7 else 0, fun _ => 0, none,
    some (Function.update (fun _ => ⟨0, 0, true, false, false, false⟩) 0 ⟨0, 0, false, false, false, false⟩), 1⟩

theorem absentPage_pageIn (w : Word) :
    absentPage.pageIn 0 ⟨0, 0, true, false, false, false⟩ (Buffer.ofWords fun _ => w) =
      filled w absentPage.registers := by
  simp only [pageIn, absentPage, filled, Option.map_some, Function.update_idem]
  rw [Function.update_eq_self_iff.mpr rfl]

theorem exception_restartable_addu : ∃ m', absentPage.oneInstruction = .ok (.exception .pageFaultException m') ∧
    m'.gpr 5 = 7 ∧ Matches Same
      (absentPage.pageIn 0 ⟨0, 0, true, false, false, false⟩ (Buffer.ofWords fun _ => 0x00221821)).oneInstruction
      (m'.pageIn 0 ⟨0, 0, true, false, false, false⟩ (Buffer.ofWords fun _ => 0x00221821)).oneInstruction := by
  have hs : absentPage.Sane := ⟨⟨rfl, by simp [absentPage]⟩, by decide⟩
  have h0 : (0 : Word).toNat / pageSize = 0 := Nat.zero_div _
  have hf : absentPage.translate 0 4 false = .ok (.fail .pageFaultException) :=
    translate_cold rfl rfl (by decide) (by rw [h0]; decide) (by rw [h0]; rfl) false
  have h : absentPage.oneInstruction =
      .ok (.exception .pageFaultException { absentPage with registers := absentPage.trapRegisters 0 }) := by
    rw [oneInstruction, show absentPage.registers pcReg = 0 from rfl, readMem_of_fail hf, raiseException_eq hs.loadReg]
    rfl
  refine ⟨_, h, by decide, (exception_restartable hs rfl h).2 0 _ _ ?_⟩
  intro raw m₁ hr
  obtain ⟨t, ht⟩ := filled_fetch 0x00221821 absentPage.registers
  rw [absentPage_pageIn, show absentPage.registers pcReg = 0 from rfl, ht] at hr
  obtain ⟨rfl, -⟩ := Outcome.value.inj (Except.ok.inj hr)
  exact .inr (by decide)

end Machine

end Nachos
