import Nachos.Machine.Reference
import Nachos.Machine.Fields
import Nachos.Machine.Safety

namespace Nachos.Machine

open Instruction WordArith

def cpu (m : Machine) : Cpu :=
  ⟨m.gpr, m.registers hiReg, m.registers loReg, m.registers pcReg, m.registers nextPCReg⟩

structure Ready (m : Machine) : Prop where
  zero : m.gpr 0 = 0
  idle : m.registers loadReg = 0

variable {m : Machine} {instr : Instruction}

theorem gpReg_inj {i j : Fin numGPRegs} (h : gpReg i = gpReg j) : i = j :=
  Fin.ext (congrArg (fun r : Register => (r : Nat)) h)

theorem gpReg_ne {i : Fin numGPRegs} {r : Register} (hr : numGPRegs ≤ (r : Nat)) : gpReg i ≠ r := by
  intro h
  have hv : (i : Nat) = r := congrArg Fin.val h
  have hi := i.isLt
  omega

theorem set_gpr (r : Register) (hr : numGPRegs ≤ (r : Nat)) (v : Word) : (m.set r v).gpr = m.gpr := by
  funext i
  exact set_of_ne m (gpReg_ne hr) v

theorem setGpr_gpr (i : Fin numGPRegs) (v : Word) : (m.setGpr i v).gpr = Function.update m.gpr i v := by
  funext j
  by_cases h : j = i
  · subst h
    rw [Function.update_self]
    exact set_self ..
  · rw [Function.update_of_ne h]
    exact set_of_ne m (fun he => h (gpReg_inj he)) v

theorem setGpr_of_ge (i : Fin numGPRegs) (v : Word) {r : Register} (hr : numGPRegs ≤ (r : Nat)) :
    (m.setGpr i v).registers r = m.registers r := set_of_ne m (gpReg_ne hr).symm v

def settled (m : Machine) : Machine :=
  (((m.setGpr 0 (m.registers loadValueReg)).set loadReg 0).set loadValueReg 0).setGpr 0 0

theorem delayedLoad_idle (hl : m.registers loadReg = 0) : m.delayedLoad 0 0 = .ok m.settled := by
  simp only [delayedLoad, hl]
  exact dif_pos (by decide)

theorem settled_gpr (m : Machine) : m.settled.gpr = Function.update m.gpr 0 0 := by
  rw [settled, setGpr_gpr, set_gpr loadValueReg (by decide), set_gpr loadReg (by decide), setGpr_gpr,
    Function.update_idem]

theorem finish_cpu (hl : m.registers loadReg = 0) (t : Word) :
    ∃ m', m.finish 0 0 t = .ok (.value () m') ∧
      m'.cpu = ⟨Function.update m.gpr 0 0, m.registers hiReg, m.registers loReg, m.nextPC, t⟩ := by
  refine ⟨_, by simp only [finish, delayedLoad_idle hl, ok_bind]; rfl, ?_⟩
  rw [cpu, set_gpr nextPCReg (by decide), set_gpr pcReg (by decide), set_gpr prevPCReg (by decide), settled_gpr]
  rfl

def Yields (x : Except Fault (Outcome Unit)) (c : Cpu) : Prop := ∃ m', x = .ok (.value () m') ∧ m'.cpu = c

def Implements (m : Machine) (x : Except Fault (Outcome Unit)) : Option Cpu → Prop
  | some c => Yields x c
  | none => ∃ m', x = .ok (.exception .overflowException m') ∧ m'.cpu = m.cpu

theorem Yields.iff {x : Except Fault (Outcome Unit)} {c c' : Cpu} (h : Yields x c) : Yields x c' ↔ c = c' := by
  obtain ⟨m', rfl, rfl⟩ := h
  constructor
  · rintro ⟨m'', he, rfl⟩
    rw [(Outcome.value.inj (Except.ok.inj he)).2]
  · rintro rfl
    exact ⟨m', rfl, rfl⟩

theorem Ready.update_zero (hr : m.Ready) : Function.update m.gpr 0 0 = m.gpr := by
  rw [← hr.zero, Function.update_eq_self]

theorem Ready.finish (hr : m.Ready) (t : Word) : Yields (m.finish 0 0 t) (m.cpu.jump t) := by
  obtain ⟨m', he, hc⟩ := finish_cpu hr.idle t
  exact ⟨m', he, by rw [hc, hr.update_zero]; rfl⟩

theorem Ready.finish_setGpr (hr : m.Ready) (i : Fin numGPRegs) (v t : Word) :
    Yields ((m.setGpr i v).finish 0 0 t) ((m.cpu.put i v).jump t) := by
  obtain ⟨m', he, hc⟩ := finish_cpu (m := m.setGpr i v) (by rw [setGpr_of_ge i v (by decide)]; exact hr.idle) t
  refine ⟨m', he, ?_⟩
  have hh := setGpr_of_ge (m := m) i v (r := hiReg) (by decide)
  have hlo := setGpr_of_ge (m := m) i v (r := loReg) (by decide)
  have hn : (m.setGpr i v).nextPC = m.nextPC := setGpr_of_ge i v (by decide)
  rw [hc, setGpr_gpr, hh, hlo, hn, Cpu.put]
  split_ifs with hi
  · rw [hi, Function.update_idem, hr.update_zero]
    rfl
  · rw [Function.update_comm hi, hr.update_zero]
    rfl

theorem put_nextPC (c : Cpu) (i : Fin numGPRegs) (v : Word) : (c.put i v).nextPC = c.nextPC := by
  unfold Cpu.put
  split_ifs <;> rfl

theorem Ready.assign (hr : m.Ready) (i : Fin numGPRegs) (v : Word) :
    Yields (m.assign i v) (m.cpu.put i v).advance := by
  rw [Cpu.advance, put_nextPC]
  exact hr.finish_setGpr i v (m.nextPC + 4)

theorem put_advance_inj {c : Cpu} {i : Fin numGPRegs} {v v' : Word} :
    (c.put i v).advance = (c.put i v').advance ↔ v = v' ∨ i = 0 := by
  unfold Cpu.put
  split_ifs with hi
  · simp [hi]
  · simp only [hi, or_false]
    constructor
    · intro h
      have hg := congrFun (congrArg Cpu.gpr h) i
      simpa [Cpu.advance, Cpu.jump] using hg
    · rintro rfl
      rfl

theorem Ready.assign_iff (hr : m.Ready) (i : Fin numGPRegs) (v v' : Word) :
    Implements m (m.assign i v) (some (m.cpu.put i v').advance) ↔ v = v' ∨ i = 0 :=
  (hr.assign i v).iff.trans put_advance_inj

theorem Ready.assign_eq (hr : m.Ready) (i : Fin numGPRegs) {v v' : Word} (h : v = v') :
    Implements m (m.assign i v) (some (m.cpu.put i v').advance) := (hr.assign_iff i v v').mpr (.inl h)

theorem Ready.branch (hr : m.Ready) (taken : Prop) [Decidable taken] :
    Yields (m.branch instr taken)
      (if taken then m.cpu.jump (m.nextPC + indexToAddr instr.extra) else m.cpu.advance) := by
  unfold Machine.branch
  split_ifs
  · exact hr.finish _
  · exact hr.finish _

theorem Ready.link (hr : m.Ready) (i : Fin numGPRegs) (hi : i ≠ 0) (v : Word) :
    (m.setGpr i v).Ready ∧ (m.setGpr i v).cpu = m.cpu.put i v ∧ (m.setGpr i v).nextPC = m.nextPC := by
  refine ⟨⟨?_, by rw [setGpr_of_ge i v (by decide)]; exact hr.idle⟩, ?_, setGpr_of_ge i v (by decide)⟩
  · rw [setGpr_gpr, Function.update_of_ne hi.symm]
    exact hr.zero
  · rw [cpu, setGpr_gpr, setGpr_of_ge i v (by decide), setGpr_of_ge i v (by decide), setGpr_of_ge i v (by decide),
      setGpr_of_ge i v (by decide), Cpu.put, if_neg hi]
    rfl

theorem Ready.raise (hr : m.Ready) :
    ∃ m', m.raiseException (α := Unit) .overflowException 0 = .ok (.exception .overflowException m') ∧
      m'.cpu = m.cpu := by
  have hl : (m.set badVAddrReg 0).registers loadReg = 0 := hr.idle
  refine ⟨(m.set badVAddrReg 0).settled, by simp only [raiseException, delayedLoad_idle hl, ok_bind], ?_⟩
  rw [cpu, settled_gpr, set_gpr badVAddrReg (by decide), hr.update_zero]
  rfl

theorem setHiLo_cpu (hr : m.Ready) (hi lo : Word) :
    (m.setHiLo hi lo).Ready ∧ (m.setHiLo hi lo).cpu = { m.cpu with hi := hi, lo := lo } := by
  have hg : (m.setHiLo hi lo).gpr = m.gpr := by
    rw [setHiLo, set_gpr hiReg (by decide), set_gpr loReg (by decide)]
  refine ⟨⟨by rw [hg]; exact hr.zero, hr.idle⟩, ?_⟩
  rw [cpu, hg]
  rfl

theorem set_hi_cpu (hr : m.Ready) (v : Word) : (m.set hiReg v).Ready ∧ (m.set hiReg v).cpu = { m.cpu with hi := v } := by
  have hg := set_gpr (m := m) hiReg (by decide) v
  exact ⟨⟨by rw [hg]; exact hr.zero, hr.idle⟩, by rw [cpu, hg]; rfl⟩

theorem set_lo_cpu (hr : m.Ready) (v : Word) : (m.set loReg v).Ready ∧ (m.set loReg v).cpu = { m.cpu with lo := v } := by
  have hg := set_gpr (m := m) loReg (by decide) v
  exact ⟨⟨by rw [hg]; exact hr.zero, hr.idle⟩, by rw [cpu, hg]; rfl⟩

theorem Ready.checked (hr : m.Ready) (i : Fin numGPRegs) {overflow : Prop} [Decidable overflow] {v : Word} {sum : Int}
    (ho : overflow ↔ ¬(-2 ^ 31 ≤ sum ∧ sum < 2 ^ 31)) (hv : v = .ofInt 32 sum) :
    Implements m (if overflow then m.raiseException .overflowException 0 else m.assign i v)
      ((Cpu.signed sum).map fun v => (m.cpu.put i v).advance) := by
  unfold Cpu.signed
  by_cases h : overflow
  · rw [if_pos h, if_neg (ho.mp h)]
    exact hr.raise
  · rw [if_neg h, if_pos (by rwa [ho, not_not] at h), hv]
    exact hr.assign i _

end Nachos.Machine
