import Nachos.Machine.RegisterFile
import Nachos.Threads.Switch

namespace Nachos

namespace Hardware

variable {hw hw' : Hardware}

theorem delayedLoad_tidy (h : Tidy hw.registers) (hd : hw.delayedLoad = .ok hw') : Tidy hw'.registers := by
  obtain ⟨m, hm, hd⟩ := bind_eq_ok.mp hd
  obtain rfl := Except.ok.inj hd
  rw [Machine.delayedLoad_general h.loadReg] at hm
  obtain rfl := Except.ok.inj hm
  exact Machine.loadInto_tidy _ _ (by decide) 0

theorem raiseException_tidy (h : Tidy hw.registers) {badVAddr : Word} (hr : hw.raiseException badVAddr = .ok hw') :
    Tidy hw'.registers := by
  obtain ⟨hw₁, hd, hr⟩ := bind_eq_ok.mp hr
  obtain rfl := Except.ok.inj hr
  have hb : Tidy (Function.update hw.registers badVAddrReg badVAddr) := h.update (by decide) (by decide) badVAddr
  exact (delayedLoad_tidy hb hd :)

theorem advancePC_tidy (h : Tidy hw.registers) : Tidy hw.advancePC.registers :=
  ((h.update (by decide) (by decide) _).update (by decide) (by decide) _).update (by decide) (by decide) _

end Hardware

theorem Space.initRegisters_tidy (σ : Space) : Tidy σ.initRegisters :=
  (tidy_zero.update (by decide) (by decide) 4).update (by decide) (by decide) _

theorem Control.tidy {assertMain : Bool} {hw hw' : Hardware} {stack stack' : List Frame}
    (h : Control assertMain hw stack hw' stack') (hw₀ : Tidy hw.registers)
    (hi : ∀ rest, stack = .oneInstruction :: rest → Tidy hw'.registers)
    (hk : ∀ rest, stack = .kernel :: rest → stack' = .kernel :: rest → Tidy hw'.registers) : Tidy hw'.registers := by
  cases h with
  | fire hf hd h => exact (Hardware.delayedLoad_tidy hw₀ hd :)
  | instruction => exact hi _ rfl
  | exception h => exact hi _ rfl
  | exceptionHandler h =>
    split_ifs
    · exact Hardware.advancePC_tidy hw₀
    · exact hw₀
  | kernelFault hne h => exact Hardware.raiseException_tidy hw₀ h
  | kernelWrite => exact hk _ rfl rfl
  | _ => exact hw₀

namespace ThreadSystem

variable {s t : ThreadSystem} {stack rest : List Frame}

/-- The registers that a step leaves behind where `Control` leaves them open: an instruction is run on the registers,
with whatever memory and page table, and the kernel calls `WriteRegister` on `r2` only. -/
structure Computes (s t : ThreadSystem) : Prop where
  instruction : ∀ rest, s.stack = .oneInstruction :: rest → ∃ (m : Machine) (o : Nachos.Outcome Unit),
    m.registers = s.hw.registers ∧ m.oneInstruction = .ok o ∧ t.hw.registers = o.machine.registers ∧
    match o with
    | .value _ _ => t.stack = .runTick :: rest
    | .exception which _ => t.stack = .exceptionHandler which :: .trapReturn :: .runTick :: rest
  writeRegister : ∀ rest, s.stack = .kernel :: rest → t.stack = .kernel :: rest →
    t.hw.registers = s.hw.registers ∨ ∃ result, t.hw.registers = Function.update s.hw.registers Kernel.resultReg result

def Computed : ThreadSystem → Prop :=
  Reachable (fun s => Initial s ∧ s.hw.registers = fun _ => 0) (fun s a t => Step s a t ∧ Computes s t)

theorem Computed.run (h : Computed s) : Run s := by
  refine Reachable.trans (fun _ hi => .start hi.1) (h.mono fun _ _ _ hs => hs.1)

structure Keeps (s : ThreadSystem) : Prop where
  registers : Tidy s.hw.registers
  left : ∀ u rest, (s.threads u).stack = .switched :: rest → Tidy (s.threads u).left

theorem Computes.tidy_instruction (hc : Computes s t) (h : Tidy s.hw.registers)
    (hs : s.stack = .oneInstruction :: rest) : Tidy t.hw.registers := by
  obtain ⟨m, o, hm, ho, ht, -⟩ := hc.instruction rest hs
  rw [ht]
  refine (Machine.oneInstruction_delays m).tidy ?_ ho
  rw [hm]
  exact h.loadReg

theorem Computes.tidy_kernel (hc : Computes s t) (h : Tidy s.hw.registers) (hs : s.stack = .kernel :: rest)
    (ht : t.stack = .kernel :: rest) : Tidy t.hw.registers := by
  obtain he | ⟨result, he⟩ := hc.writeRegister rest hs ht
  · rw [he]
    exact h
  · rw [he]
    exact h.update (by decide) (by decide) result

theorem scExec_tidy (h : Tidy s.hw.registers) (garbage : Register → Word) (σ : Space) :
    Tidy (s.scExec garbage σ rest).hw.registers := by
  unfold scExec
  split_ifs
  · exact h.update (by decide) (by decide) _
  · exact h.update (by decide) (by decide) _

theorem switched_tidy (h : Keeps s) (ht : Transparent s) (hs : s.stack = .switched :: rest)
    (he : s.switched rest = .ok t) : Tidy t.hw.registers := by
  cases hσ : s.current.space with
  | none =>
    obtain ⟨s', hd, he⟩ := bind_eq_ok.mp he
    obtain ⟨threadToBeDestroyed, rfl⟩ := deleteThread_ok hd
    obtain rfl := Except.ok.inj he
    rw [show ({ s with threadToBeDestroyed } : ThreadSystem).current.space = none from hσ]
    exact h.registers
  | some σ =>
    rw [(ht.switched hσ (.switched hs he)).2.1]
    exact h.left s.currentThread rest hs

theorem Keeps.step_registers {a : Action} (h : Keeps s) (ht : Transparent s) (hs : Step s a t) (hc : Computes s t) :
    Tidy t.hw.registers := by
  have hr := h.registers
  cases hs with
  | control hcon =>
    refine hcon.tidy hr (fun rest he => hc.tidy_instruction hr he) fun rest he he' => hc.tidy_kernel hr he ?_
    rw [setStack_stack]
    exact he'
  | idle hst hl hd hi => exact (Hardware.delayedLoad_tidy hr hd :)
  | dispatch hst hd =>
    obtain ⟨nextThread, readyList, -, rfl⟩ := dispatch_some hd
    exact hr
  | switched hst he => exact switched_tidy h ht hst he
  | @yield rest hst =>
    rw [(yield_cases s rest).1]
    exact hr
  | fork hst => exact hr
  | exec hst => exact scExec_tidy hr _ _
  | join hst he =>
    obtain ⟨-, hh⟩ | ⟨child, -, hh⟩ := scJoin_goes he
    · rw [hh]
      exact hr
    · rw [hh]
      exact hr
  | yieldReturn hst he =>
    obtain ⟨σ, rfl⟩ := scYieldReturn_ok he
    exact hr
  | finish hst he =>
    rw [(finish_goes he).2]
    exact hr
  | p hst he =>
    rw [(p_goes he).2]
    exact hr
  | @v semaphore f rest hf hst =>
    rw [(v_goes s semaphore (f :: rest)).2]
    exact hr
  | processCreator hst he =>
    obtain ⟨σ, threadToBeDestroyed, -, rfl⟩ := processCreator_ok he
    exact σ.initRegisters_tidy
  | @startProcess σ rest hst hn => exact σ.initRegisters_tidy

theorem Step.waits {a : Action} {u : Tid} (hd : Disciplined s) (hs : Step s a t)
    (he : (t.threads u).stack = .switched :: rest) :
    (t.threads u).left = s.hw.registers ∨
      (s.threads u).stack = .switched :: rest ∧ (t.threads u).left = (s.threads u).left := by
  by_cases hu : u = s.currentThread
  · subst hu
    exact .inl (hs.left_of_switched hd he)
  have of_context (hv : t.view Thread.context u = s.view Thread.context u) :
      (s.threads u).stack = .switched :: rest ∧ (t.threads u).left = (s.threads u).left :=
    ⟨(congrArg Context.stack hv).symm.trans he, congrArg Context.left hv⟩
  right
  cases hs.effect hd with
  | goes hg hr => exact of_context (by rw [hg.contexts, Function.update_of_ne hu])
  | enters σ rest hc hk hv hh => exact of_context (by rw [hv, Function.update_of_ne hu])
  | switches hk hv => exact of_context (by rw [hv, Function.update_of_ne hu])
  | forks hc hk hv ho =>
    refine of_context (ho u hu ?_)
    rintro rfl
    have hnew := congrFun hv s.created
    rw [Function.update_of_ne hu, Function.update_self] at hnew
    cases hnew.symm.trans he

theorem Keeps.step {a : Action} (h : Keeps s) (hr : Run s) (hs : Step s a t) (hc : Computes s t) : Keeps t := by
  constructor
  · exact h.step_registers hr.transparent hs hc
  · intro u rest he
    obtain hl | ⟨hst, hl⟩ := hs.waits hr.disciplined he
    · rw [hl]
      exact h.registers
    · rw [hl]
      exact h.left u rest hst

theorem Initial.keeps (h : Initial s) (hz : s.hw.registers = fun _ => 0) : Keeps s := by
  constructor
  · rw [hz]
    exact tidy_zero
  · intro u rest he
    obtain ⟨garbage, pending, hw, values, pooled, rfl⟩ := h
    have hb := congrFun (boot_frames garbage pending hw values pooled) u
    by_cases hu : u = main
    · rw [hu, Function.update_self] at hb
      subst hu
      cases hb.symm.trans he
    · rw [Function.update_of_ne hu] at hb
      cases hb.symm.trans he

theorem Computed.keeps (h : Computed s) : Keeps s := by
  induction h with
  | start h0 => exact h0.1.keeps h0.2
  | next a hr hs ih => exact ih.step (Computed.run hr) hs.1 hs.2

/-- Every instruction finds 0 in `r0` and the number of a general register in `LoadReg`. `DelayedLoad`, which every
instruction that does not stop the simulator ends with, writes to that register. -/
theorem register_file (h : Computed s) :
    (∀ rest, s.stack = .oneInstruction :: rest → s.hw.registers (gpReg 0) = 0 ∧
      0 ≤ (s.hw.registers loadReg).toInt ∧ (s.hw.registers loadReg).toInt ≤ 31) ∧
    (∀ m : Machine, m.registers = s.hw.registers →
      Machine.Delays (s.hw.registers loadReg) m.oneInstruction ∧ m.oneInstruction ≠ .error .outOfBounds) ∧
    ∀ m : Machine, m.registers loadReg = s.hw.registers loadReg → ∃ i : Fin numGPRegs, ∀ nextReg nextValue,
      m.delayedLoad nextReg nextValue = .ok (m.loadInto i nextReg nextValue) := by
  have ht := h.keeps.registers
  have hl : (s.hw.registers loadReg).toNat < 32 := ht.loadReg
  refine ⟨fun rest _ => ⟨ht.zero, ?_⟩, fun m hm => ?_, fun m hm => ?_⟩
  · rw [BitVec.toInt_eq_toNat_of_lt (by omega)]
    omega
  · rw [← hm]
    have hd := Machine.oneInstruction_delays m
    exact ⟨hd, hd.inBounds (by rw [hm]; exact hl)⟩
  · exact ⟨_, Machine.delayedLoad_general (by rw [hm]; exact hl)⟩

theorem advance_computes {c : Choice} (h : s.advance c = some t) (hi : ∀ rest, s.stack ≠ .oneInstruction :: rest) :
    Computes s t := by
  refine ⟨fun rest hs => absurd hs (hi rest), fun rest hs ht => ?_⟩
  unfold advance at h
  rw [hs] at h
  cases c with
  | go =>
    obtain rfl := Option.some.inj h
    rw [control, setStack_stack] at ht
    exact absurd ht (List.cons_ne_self _ _).symm
  | start σ =>
    dsimp only at h
    split_ifs at h
    obtain rfl := Option.some.inj h
    rw [startProcess, setStack_stack] at ht
    cases ht
  | trap which registers => cases h
  | spawn σ => cases h

def betweenInstructions (s : ThreadSystem) : Bool := s.stack.head? ≠ some .oneInstruction

theorem Computed.advances (h : Computed s) {choices : List Choice}
    (hc : choices.foldlM (fun s c => if s.betweenInstructions then s.advance c else none) s = some t) :
    Computed t := by
  induction choices generalizing s with
  | nil =>
    obtain rfl := Option.some.inj hc
    exact h
  | cons c choices ih =>
    obtain ⟨s', hs', hc⟩ := Option.bind_eq_some_iff.mp hc
    dsimp only at hs'
    split_ifs at hs' with hb
    refine ih (.next _ h ⟨advance_action hs', advance_computes hs' fun rest hst => ?_⟩) hc
    rw [betweenInstructions, hst] at hb
    cases hb

def loading : Except Fault (Nachos.Outcome Unit) → Option Word
  | .ok (.value _ m) => some (m.registers loadReg)
  | .ok (.exception _ _) => none
  | .error _ => none

theorem loading_eq_some {x : Except Fault (Nachos.Outcome Unit)} {r : Word} (h : loading x = some r) :
    ∃ m, x = .ok (.value () m) ∧ m.registers loadReg = r := by
  cases x with
  | error e => cases h
  | ok o =>
    cases o with
    | value u m => exact ⟨m, rfl, Option.some.inj h⟩
    | exception which m => cases h

theorem register_file_load : ∃ s : ThreadSystem, s.stack = [.oneInstruction, .kernel, .finish] ∧
    s.hw.registers loadReg = 5 ∧ s.hw.registers (gpReg 0) = 0 ∧ ∃ m : Machine, m.registers = s.hw.registers ∧
    m.oneInstruction ≠ .error .outOfBounds := by
  -- `lw r5, 0(r0)`
  let lw := Machine.filled 0x8c050000 (Space.initRegisters ⟨1, 4⟩)
  obtain ⟨m, hm, hl⟩ := loading_eq_some (by decide +kernel : loading lw.oneInstruction = some 5)
  obtain ⟨s₁, hs₁⟩ : ∃ s, mainStarts.foldlM (fun s c => if s.betweenInstructions then s.advance c else none) cleared =
    some s := ⟨_, rfl⟩
  have hc₁ : Computed s₁ := Computed.advances (.start ⟨⟨_, _, _, _, _, rfl⟩, rfl⟩) hs₁
  have hst₁ : s₁.stack = [.oneInstruction, .kernel, .finish] ∧ s₁.hw.registers = Space.initRegisters ⟨1, 4⟩ := by
    obtain rfl := Option.some.inj hs₁
    exact ⟨rfl, rfl⟩
  have hc₂ : Computed (s₁.control { s₁.hw with registers := m.registers } [.runTick, .kernel, .finish]) := by
    refine .next .control hc₁ ⟨.control (hst₁.1 ▸ .instruction), fun rest hr => ?_, fun rest hr => ?_⟩
    · obtain rfl := (List.cons.inj (hst₁.1.symm.trans hr)).2
      exact ⟨lw, _, hst₁.2.symm, hm, rfl, setStack_stack _ _⟩
    · cases hst₁.1.symm.trans hr
  obtain ⟨s₂, hs₂, hst₂, hr₂⟩ : ∃ s, [Choice.go, .go].foldlM
      (fun s c => if s.betweenInstructions then s.advance c else none)
      (s₁.control { s₁.hw with registers := m.registers } [.runTick, .kernel, .finish]) = some s ∧
      s.stack = [.oneInstruction, .kernel, .finish] ∧ s.hw.registers = m.registers := by
    obtain rfl := Option.some.inj hs₁
    exact ⟨_, rfl, rfl, rfl⟩
  obtain ⟨hentry, hone, -⟩ := register_file (hc₂.advances hs₂)
  exact ⟨s₂, hst₂, by rw [hr₂]; exact hl, (hentry _ hst₂).1, { lw with registers := s₂.hw.registers }, rfl,
    (hone _ rfl).2⟩

end ThreadSystem

end Nachos
