import Nachos.Machine.Memory
import Nachos.Machine.Conformance

namespace Nachos

open Machine Instruction

def SameMapping (t u : Nat → TranslationEntry) : Prop :=
  ∀ p, { u p with use := (t p).use, dirty := (t p).dirty } = t p

def AccessFault (which : ExceptionType) : Prop :=
  which = .pageFaultException ∨ which = .readOnlyException ∨ which = .busErrorException ∨
    which = .addressErrorException

theorem SameMapping.refl (t : Nat → TranslationEntry) : SameMapping t t := fun _ => rfl

theorem SameMapping.trans {t u w : Nat → TranslationEntry} (h : SameMapping t u) (h' : SameMapping u w) :
    SameMapping t w := by
  intro p
  have h1 := h p
  have h2 := h' p
  rw [← h2] at h1
  exact h1

theorem SameMapping.update {t u : Nat → TranslationEntry} (h : SameMapping t u) (p : Nat) (entry : TranslationEntry) :
    SameMapping (Function.update t p entry) (Function.update u p entry) := by
  intro q
  by_cases hq : q = p
  · subst hq
    simp
  · simp only [Function.update_of_ne hq]
    exact h q

namespace Machine

variable {m n : Machine} {t u : Nat → TranslationEntry} {v : Word} {size : Nat} {instr : Instruction}

theorem sameMapping_touch (t : Nat → TranslationEntry) (p : Nat) (writing : Bool) :
    SameMapping t (touch t p writing) := by
  intro q
  by_cases hq : q = p
  · subst hq
    simp [touch]
  · simp only [touch, Function.update_of_ne hq]

theorem touch_sameMapping (h : SameMapping t u) (p : Nat) (writing : Bool) :
    SameMapping (touch t p writing) (touch u p writing) := by
  intro q
  by_cases hq : q = p
  · subst hq
    have hp := h q
    simp only [Machine.touch, Function.update_self]
    rw [← hp]
  · simp only [Machine.touch, Function.update_of_ne hq]
    exact h q

theorem translate_matches (ht : m.tlb = none) (hp : m.pageTable = some t) (ht' : n.tlb = none)
    (hp' : n.pageTable = some u) (hsize : n.pageTableSize = m.pageTableSize) (hm : SameMapping t u)
    (v : Word) (hs : AccessSize size) (writing : Bool) :
    (∃ which, AccessFault which ∧ m.translate v size writing = .ok (.fail which) ∧
      n.translate v size writing = .ok (.fail which)) ∨
    ∃ a, m.translate v size writing =
        .ok (.ok a { m with pageTable := some (touch t (v.toNat / pageSize) writing) }) ∧
      n.translate v size writing =
        .ok (.ok a { n with pageTable := some (touch u (v.toNat / pageSize) writing) }) := by
  have hpage := hm (v.toNat / pageSize)
  have hvalid : (u (v.toNat / pageSize)).valid = (t (v.toNat / pageSize)).valid := by rw [← hpage]
  have hreadOnly : (u (v.toNat / pageSize)).readOnly = (t (v.toNat / pageSize)).readOnly := by rw [← hpage]
  have hframe : (u (v.toNat / pageSize)).physicalPage = (t (v.toNat / pageSize)).physicalPage := by rw [← hpage]
  have haddr : frameAddress u v.toNat = frameAddress t v.toNat := by rw [frameAddress, hframe, frameAddress]
  have hrange : n.OutOfRange v size ↔ m.OutOfRange v size := by rw [OutOfRange, hsize, OutOfRange]
  have hx := translate_answer ht hp v hs writing
  have hy := translate_answer ht' hp' v hs writing
  simp only [hrange, hvalid, hreadOnly, hframe, haddr] at hy
  by_cases ho : m.OutOfRange v size
  · rw [if_pos ho] at hx hy
    exact .inl ⟨.addressErrorException, .inr (.inr (.inr rfl)), hx, hy⟩
  rw [if_neg ho] at hx hy
  by_cases hv : (t (v.toNat / pageSize)).valid = false
  · rw [if_pos hv] at hx hy
    exact .inl ⟨.pageFaultException, .inl rfl, hx, hy⟩
  rw [if_neg hv] at hx hy
  by_cases hr : (t (v.toNat / pageSize)).readOnly ∧ writing
  · rw [if_pos hr] at hx hy
    exact .inl ⟨.readOnlyException, .inr (.inl rfl), hx, hy⟩
  rw [if_neg hr] at hx hy
  by_cases hf : numPhysPages ≤ (t (v.toNat / pageSize)).physicalPage.toNat
  · rw [if_pos hf] at hx hy
    exact .inl ⟨.busErrorException, .inr (.inr (.inl rfl)), hx, hy⟩
  rw [if_neg hf] at hx hy
  exact .inr ⟨frameAddress t v.toNat, hx, hy⟩

def trapRegisters (m : Machine) (badVAddr : Word) (r : Register) : Word :=
  if r = gpReg 0 then 0
  else if r = loadValueReg then 0
  else if r = loadReg then 0
  else if (m.registers loadReg).toNat = r then m.registers loadValueReg
  else if r = badVAddrReg then badVAddr
  else m.registers r

theorem trapRegisters_gpr (i : Fin numGPRegs) : m.trapRegisters v (gpReg i) =
    if i = 0 then 0 else if (m.registers loadReg).toNat = i then m.registers loadValueReg else m.gpr i := by
  by_cases h0 : i = 0
  · rw [if_pos h0, h0]
    rfl
  · rw [trapRegisters, if_neg h0, if_neg (fun he => h0 (gpReg_inj he)), if_neg (gpReg_ne (by decide)),
      if_neg (gpReg_ne (by decide)), if_neg (gpReg_ne (by decide) : gpReg i ≠ badVAddrReg)]
    rfl

theorem trapRegisters_control (hl : (m.registers loadReg).toNat < numGPRegs) {r : Register}
    (hr : r ∈ [pcReg, nextPCReg, prevPCReg, hiReg, loReg]) : m.trapRegisters v r = m.registers r := by
  have hge : numGPRegs ≤ (r : Nat) ∧ r ≠ loadValueReg ∧ r ≠ loadReg ∧ r ≠ badVAddrReg := by
    fin_cases hr <;> decide
  rw [trapRegisters, if_neg (gpReg_ne hge.1).symm, if_neg hge.2.1, if_neg hge.2.2.1, if_neg (by omega),
    if_neg hge.2.2.2]

theorem trapRegisters_badVAddr (hl : (m.registers loadReg).toNat < numGPRegs) :
    m.trapRegisters v badVAddrReg = v := by
  have hne : ¬(m.registers loadReg).toNat = badVAddrReg := fun hc => absurd hl (by rw [hc]; decide)
  rw [trapRegisters, if_neg (by decide), if_neg (by decide), if_neg (by decide), if_neg hne, if_pos rfl]

theorem raiseException_eq {α : Type} (hl : (m.registers loadReg).toNat < numGPRegs) (which : ExceptionType)
    (v : Word) : m.raiseException (α := α) which v =
      .ok (.exception which { m with registers := m.trapRegisters v }) := by
  have ht : ((m.set badVAddrReg v).registers loadReg).toNat = gpReg ⟨(m.registers loadReg).toNat, hl⟩ := by
    rw [set_of_ne m (by decide)]
    rfl
  rw [raiseException, delayedLoad_eq ht]
  refine congrArg (fun f => Except.ok (Outcome.exception which { m with registers := f })) ?_
  funext r
  have hr : r = gpReg ⟨(m.registers loadReg).toNat, hl⟩ ↔ (m.registers loadReg).toNat = (r : Nat) :=
    ⟨fun h => h ▸ rfl, fun h => Fin.ext h.symm⟩
  simp only [set, trapRegisters, Function.update_apply, hr]
  rfl

def faultAddress (m : Machine) (instr : Instruction) : ExceptionType → Word
  | .overflowException | .syscallException | .illegalInstrException => 0
  | _ => m.address instr

theorem faultAddress_access {which : ExceptionType} (h : AccessFault which) (m : Machine) (instr : Instruction) :
    m.faultAddress instr which = m.address instr := by
  obtain rfl | rfl | rfl | rfl := h
  all_goals rfl

structure Within (m m' : Machine) : Prop where
  tlb : m.tlb = none
  mapping : ∃ t u, m.pageTable = some t ∧ m' = { m with pageTable := some u } ∧ SameMapping t u
  loadReg : (m.registers loadReg).toNat < numGPRegs

theorem Sane.within (hs : m.Sane) : Within m m := by
  obtain ⟨t, ht⟩ := Option.ne_none_iff_exists'.mp hs.pageTable
  refine ⟨hs.tlb, ⟨t, t, ht, ?_, .refl t⟩, hs.loadReg⟩
  rw [← ht]

structure Trapped (m : Machine) (badVAddr : Word) (m' : Machine) : Prop where
  mapping : ∃ t u, m.pageTable = some t ∧ SameMapping t u ∧
    m' = { m with registers := m.trapRegisters badVAddr, pageTable := some u }

structure Precise {α : Type} (m : Machine) (P : ExceptionType → Word → Prop) (x : Except Fault (Outcome α)) :
    Prop where
  trapped : ∀ {which m'}, x = .ok (.exception which m') → ∃ v, P which v ∧ Trapped m v m'

section Precise

variable {α β : Type} {P : ExceptionType → Word → Prop}

theorem Precise.value (m m' : Machine) (a : α) : Precise m P (.ok (.value a m')) := by
  refine ⟨fun h => ?_⟩
  cases h

theorem Precise.error (m : Machine) (e : Fault) : Precise m P (.error e : Except Fault (Outcome α)) := by
  refine ⟨fun h => ?_⟩
  cases h

theorem Precise.bind {γ : Type} {x : Except Fault γ} {f : γ → Except Fault (Outcome α)}
    (hf : ∀ a, Precise m P (f a)) : Precise m P (x >>= f) := by
  cases x with
  | error e => exact .error m e
  | ok a => exact hf a

theorem Precise.andThen {x : Except Fault (Outcome α)} {f : α → Machine → Except Fault (Outcome β)}
    (hx : Precise m P x) (hf : ∀ a m', x = .ok (.value a m') → Precise m P (f a m')) : Precise m P (andThen x f) := by
  cases x with
  | error e => exact .error m e
  | ok o =>
    cases o with
    | value a m' => exact hf a m' rfl
    | exception w m' =>
      refine ⟨fun h => ?_⟩
      obtain ⟨rfl, rfl⟩ := Outcome.exception.inj (Except.ok.inj h)
      exact hx.trapped rfl

theorem Precise.finish (m m' : Machine) (r v pc : Word) : Precise m P (m'.finish r v pc) :=
  .bind fun _ => .value m _ ()

theorem Precise.raise {m' : Machine} (hm : Within m m') {which : ExceptionType} (hP : P which v) :
    Precise m P (m'.raiseException (α := α) which v) := by
  obtain ⟨t, u, ht, rfl, hmap⟩ := hm.mapping
  rw [raiseException_eq (m := { m with pageTable := some u }) hm.loadReg]
  refine ⟨fun h => ?_⟩
  obtain ⟨rfl, rfl⟩ := Outcome.exception.inj (Except.ok.inj h)
  exact ⟨v, hP, t, u, ht, hmap, rfl⟩

theorem Within.translate {m' : Machine} (hm : Within m m') (v : Word) (hs : AccessSize size) (writing : Bool) :
    (∃ which, AccessFault which ∧ m'.translate v size writing = .ok (.fail which)) ∨
      ∃ a m'', m'.translate v size writing = .ok (.ok a m'') ∧ Within m m'' := by
  obtain ⟨t, u, ht, rfl, hmap⟩ := hm.mapping
  obtain ⟨which, hw, h, -⟩ | ⟨a, h, -⟩ := translate_matches (m := { m with pageTable := some u })
    (n := { m with pageTable := some u }) hm.tlb rfl hm.tlb rfl rfl (.refl u) v hs writing
  · exact .inl ⟨which, hw, h⟩
  · exact .inr ⟨a, _, h, hm.tlb, ⟨t, _, ht, rfl, hmap.trans (sameMapping_touch u _ writing)⟩, hm.loadReg⟩

theorem Precise.readMem {m' : Machine} (hm : Within m m') (hs : AccessSize size)
    (hP : ∀ which, AccessFault which → P which v) {f : Word → Machine → Except Fault (Outcome β)}
    (hf : ∀ a m'', Within m m'' → Precise m P (f a m'')) : Precise m P (Nachos.andThen (m'.readMem v size) f) := by
  obtain ⟨which, hw, h⟩ | ⟨a, m'', h, hm''⟩ := hm.translate v hs false
  · rw [readMem_of_fail h]
    refine (Precise.raise hm (hP which hw)).andThen fun a m1 h1 => ?_
    obtain ⟨t, u, -, rfl, -⟩ := hm.mapping
    rw [raiseException_eq (m := { m with pageTable := some u }) hm.loadReg] at h1
    cases h1
  · rw [readMem_of_ok hs h]
    exact hf _ _ hm''

theorem Precise.writeMem {m' : Machine} (hm : Within m m') (hs : AccessSize size) (value : Word)
    (hP : ∀ which, AccessFault which → P which v) {f : Unit → Machine → Except Fault (Outcome β)}
    (hf : ∀ a m'', Precise m P (f a m'')) : Precise m P (Nachos.andThen (m'.writeMem v size value) f) := by
  obtain ⟨which, hw, h⟩ | ⟨a, m'', h, -⟩ := hm.translate v hs true
  · rw [writeMem_of_fail h]
    exact (Precise.raise hm (hP which hw)).andThen fun a m1 _ => hf a m1
  · rw [writeMem_of_ok hs h]
    exact hf _ _

end Precise

theorem aligned_and {a : Word} (h : a &&& 3 = 0) : a &&& ~~~3 = a := by
  apply BitVec.eq_of_getLsbD_eq
  intro k hk
  have hb := congrArg (fun w : Word => w.getLsbD k) h
  simp only [BitVec.getLsbD_and] at hb
  simp only [BitVec.getLsbD_and, BitVec.getLsbD_not, hk, decide_true, Bool.true_and]
  generalize a.getLsbD k = x at hb ⊢
  generalize (3 : Word).getLsbD k = y at hb ⊢
  revert hb
  cases x <;> cases y <;> simp

abbrev Culprit (m : Machine) (instr : Instruction) (which : ExceptionType) (v : Word) : Prop :=
  v = m.faultAddress instr which

section Trap

variable {m' : Machine} (hm : Within m m')
include hm

theorem Within.address (instr : Instruction) : m'.address instr = m.address instr := by
  obtain ⟨t, u, -, rfl, -⟩ := hm.mapping
  rfl

theorem Within.culprit {which : ExceptionType} (h : AccessFault which) (instr : Instruction) :
    Culprit m instr which (m'.address instr) := by
  rw [Culprit, faultAddress_access h, hm.address]

theorem Precise.load (instr : Instruction) (hs : AccessSize size) (value : Word → Machine → Word) :
    Precise m (Culprit m instr)
      (Nachos.andThen (m'.readMem (m'.address instr) size) fun raw m => m.load instr (value raw m)) :=
  .readMem hm hs (fun _ h => hm.culprit h instr) (fun _ _ _ => .finish ..)

theorem Precise.store (instr : Instruction) (hs : AccessSize size) : Precise m (Culprit m instr) (m'.store instr size) :=
  .writeMem hm hs _ (fun _ h => hm.culprit h instr) (fun _ _ => .finish ..)

theorem Precise.loadPartial (instr : Instruction) (merge : Word → Word → Word → Word) :
    Precise m (Culprit m instr) (m'.loadPartial instr merge) :=
  .bind fun _ => .load hm instr (.inr (.inr rfl)) (fun raw m => merge _ (m.loadTarget instr) raw)

theorem Precise.storePartial (instr : Instruction) (merge : Word → Word → Word → Word) :
    Precise m (Culprit m instr) (m'.storePartial instr merge) := by
  by_cases ha : m'.address instr &&& 3 = 0
  · simp only [Machine.storePartial, assert_pos ha, ok_bind, aligned_and ha]
    exact .readMem hm (.inr (.inr rfl)) (fun _ h => hm.culprit h instr) (fun _ _ hm'' =>
      .writeMem hm'' (.inr (.inr rfl)) _ (fun _ h => hm.culprit h instr) (fun _ _ => .finish ..))
  · simp only [Machine.storePartial, assert_neg ha, error_bind]
    exact .error ..

theorem Precise.checked (instr : Instruction) (overflow : Prop) [Decidable overflow] (i : Fin numGPRegs) (v : Word) :
    Precise m (Culprit m instr) (if overflow then m'.raiseException .overflowException 0 else m'.assign i v) := by
  split_ifs
  · exact .raise hm rfl
  · exact .finish ..

theorem execute_precise (instr : Instruction) : Precise m (Culprit m instr) (m'.execute instr) := by
  have haddr {w : ExceptionType} (h : AccessFault w) := hm.culprit h instr
  cases hop : instr.opCode
  all_goals simp only [execute, hop]
  case add | addi | sub => exact .checked hm instr _ _ _
  case lb | lbu => exact .load hm instr (.inl rfl) (fun _ _ => _)
  case lh | lhu =>
    simp only [loadHalf]
    split_ifs
    · exact .raise hm (haddr (.inr (.inr (.inr rfl))))
    · exact .load hm instr (.inr (.inl rfl)) (fun _ _ => _)
  case lw =>
    split_ifs
    · exact .raise hm (haddr (.inr (.inr (.inr rfl))))
    · exact .load hm instr (.inr (.inr rfl)) (fun raw _ => raw)
  case lwl | lwr => exact .loadPartial hm instr _
  case swl | swr => exact .storePartial hm instr _
  case sb => exact .store hm instr (.inl rfl)
  case sh => exact .store hm instr (.inr (.inl rfl))
  case sw => exact .store hm instr (.inr (.inr rfl))
  case syscall | res | unimp => exact .raise hm rfl
  case rfe | special | bcond => exact .error ..
  case div =>
    split_ifs
    · exact .finish ..
    · exact .bind fun _ => .finish ..
  case divu => split_ifs <;> exact .finish ..
  all_goals exact .finish ..

end Trap

def TrapCause (m : Machine) (which : ExceptionType) (v : Word) : Prop :=
  (AccessFault which ∧ v = m.registers pcReg) ∨
    ∃ raw m', m.readMem (m.registers pcReg) 4 = .ok (.value raw m') ∧ v = m.faultAddress (decode raw) which

theorem oneInstruction_precise (hs : m.Sane) : Precise m (TrapCause m) m.oneInstruction := by
  have hw := hs.within
  refine ⟨fun {which m'} h => ?_⟩
  obtain ⟨w, hw', hf⟩ | ⟨a, m1, hf, hm1⟩ := hw.translate (m.registers pcReg) (.inr (.inr rfl)) false
  · rw [oneInstruction, readMem_of_fail hf, raiseException_eq hs.loadReg] at h
    obtain ⟨rfl, rfl⟩ := Outcome.exception.inj (Except.ok.inj h)
    obtain ⟨t, ht⟩ := Option.ne_none_iff_exists'.mp hs.pageTable
    exact ⟨_, .inl ⟨hw', rfl⟩, t, t, ht, .refl t, by rw [← ht]⟩
  · have hread := readMem_of_ok (.inr (.inr rfl)) hf
    rw [oneInstruction, hread, andThen_value] at h
    obtain ⟨v, hv, htrap⟩ := (execute_precise hm1 _).trapped h
    exact ⟨v, .inr ⟨_, m1, hread, hv⟩, htrap⟩

end Machine

end Nachos
