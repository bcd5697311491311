import Nachos.UserProg.Output

namespace Nachos

open Buffer Machine Instruction

namespace Processor

/-- What a program goes through: an instruction, or a system call that comes back with a value in `$2`. -/
inductive Event where
  | instruction
  | call (result : Word)

def returned (q : Processor) (result : Word) : Processor := { q.resumed with cpu := q.resumed.cpu.put 2 result }

def after (q : Processor) : Event → Option Processor
  | .instruction => q.step.toOption
  | .call result =>
    match q.step with
    | .error .syscallException => some (q.returned result)
    | _ => none

def replay (q : Processor) (events : List Event) : Option Processor := events.foldlM after q

/-- Whatever its system calls come back with, the program stays within what the interpreter supports. -/
def Obedient (p : Processor) : Prop := ∀ events q, p.replay events = some q → q.Supported

theorem replay_append (p : Processor) (events events' : List Event) :
    p.replay (events ++ events') = (p.replay events).bind fun q => q.replay events' := List.foldlM_append ..

theorem replay_instruction {q q' : Processor} (h : q.step = .ok q') : q.replay [.instruction] = some q' := by
  simp only [replay, List.foldlM_cons, List.foldlM_nil, after, h]
  rfl

theorem replay_call {q : Processor} (h : q.step = .error .syscallException) (result : Word) :
    q.replay [.call result] = some (q.returned result) := by
  simp only [replay, List.foldlM_cons, List.foldlM_nil, after, h]
  rfl

theorem obedient_of_invariant {I : Processor → Prop} {p : Processor} (hs : ∀ q, I q → q.Supported)
    (ha : ∀ q e q', I q → q.after e = some q' → I q') (h : I p) : p.Obedient := by
  intro events q hq
  induction events generalizing p with
  | nil =>
    obtain rfl := Option.some.inj hq
    exact hs p h
  | cons e events ih =>
    obtain ⟨p', hp, hq⟩ := Option.bind_eq_some_iff.mp hq
    exact ih (ha p e p' h hp) hq

theorem Obedient.disciplined {p : Processor} (h : p.Obedient) : p.Disciplined := by
  intro n q hn
  refine h (.replicate n .instruction) q ?_
  induction hn with
  | zero => rfl
  | succ _ hs ih =>
    rw [List.replicate_succ', replay_append, ih]
    exact replay_instruction hs

end Processor

structure Sees (registers : Register → Word) (s : AddrSpace) (q : Processor) : Prop where
  loadReg : (registers loadReg).toNat < numGPRegs
  size : q.size = s.numPages.toNat * pageSize
  cpu : ∀ m : Machine, m.registers = registers → q.cpu = m.visible
  zero : registers (gpReg 0) = 0
  loading : (registers Nachos.loadReg = 0 ∧ registers loadValueReg = 0) ∨
    ∃ i, q.loading = some i ∧ (registers Nachos.loadReg).toNat = i

namespace Sees

open Kernel

variable {registers : Register → Word} {s : AddrSpace} {q : Processor}

theorem unloaded (h : Sees registers s q) (hq : q.loading = none) :
    registers Nachos.loadReg = 0 ∧ registers loadValueReg = 0 := by
  rcases h.loading with hl | ⟨i, hi, -⟩
  · exact hl
  · cases hq.symm.trans hi

theorem returned (h : Sees registers s q.resumed) (result : Word) :
    Sees (Function.update registers resultReg result) s (q.returned result) := by
  obtain ⟨hl, hv⟩ := h.unloaded rfl
  have hother {r : Register} (hr : r ≠ resultReg) : Function.update registers resultReg result r = registers r :=
    Function.update_of_ne hr ..
  have hl' := (hother (r := Nachos.loadReg) (by decide)).trans hl
  have hz := (hother (r := gpReg 0) (by decide)).trans h.zero
  refine ⟨by rw [hl']; decide, h.size, ?_, hz, .inl ⟨hl', (hother (by decide)).trans hv⟩⟩
  rintro m hm
  have hm₀ := h.cpu { m with registers } rfl
  have hr₀ : Machine.Ready { m with registers } := ⟨h.zero, hl⟩
  have hr : m.Ready := ⟨(congrFun hm _).trans hz, (congrFun hm _).trans hl'⟩
  rw [hr₀.visible] at hm₀
  rw [hr.visible]
  change q.resumed.cpu.put 2 result = m.cpu
  rw [hm₀, Cpu.put, if_neg (by decide)]
  apply Cpu.ext
  · funext i
    change Function.update (fun i => registers (gpReg i)) 2 result i = m.registers (gpReg i)
    rw [hm]
    by_cases hi : i = 2
    · rw [hi, Function.update_self]
      exact (Function.update_self (f := registers) ..).symm
    · have hne : gpReg i ≠ resultReg := fun he => hi (gpReg_inj (j := 2) he)
      rw [Function.update_of_ne hi, Function.update_of_ne hne]
  · exact (hother (by decide)).symm.trans (congrFun hm hiReg).symm
  · exact (hother (by decide)).symm.trans (congrFun hm loReg).symm
  · exact (hother (by decide)).symm.trans (congrFun hm pcReg).symm
  · exact (hother (by decide)).symm.trans (congrFun hm nextPCReg).symm

theorem boot (s : AddrSpace) (memory : Buffer) : Sees s.initRegisters s (.boot memory (s.numPages.toNat * pageSize)) where
  loadReg := by
    rw [s.initRegisters_loadReg]
    decide
  size := rfl
  cpu m hm := (load_visible (Kernel.boot 0) s (fun _ => none) memory).trans
    (visible_congr fun r _ => (congrFun hm r).symm)
  zero := (initRegisters_gpr s 0).trans rfl
  loading := by
    refine .inl ⟨s.initRegisters_loadReg, ?_⟩
    rw [AddrSpace.initRegisters, Function.update_of_ne (by decide), Function.update_of_ne (by decide)]

end Sees

end Nachos
