import Nachos.Machine.Integer
import Nachos.Machine.Mult
import Nachos.Machine.Processor

namespace Nachos.Machine

open Instruction

variable {m n m' : Machine} {instr : Instruction} {i : Fin numGPRegs} {v t : Word}

/-- The registers once the pending load is done. -/
def visible (m : Machine) : Cpu where
  gpr i := m.trapRegisters 0 (gpReg i)
  hi := m.trapRegisters 0 hiReg
  lo := m.trapRegisters 0 loReg
  pc := m.trapRegisters 0 pcReg
  nextPC := m.trapRegisters 0 nextPCReg

theorem visible_gpr (m : Machine) (i : Fin numGPRegs) : m.visible.gpr i =
    if i = 0 then 0 else if (m.registers loadReg).toNat = i then m.registers loadValueReg else m.gpr i :=
  trapRegisters_gpr i

theorem visible_control (hl : (m.registers loadReg).toNat < numGPRegs) : m.visible.hi = m.registers hiReg ∧
    m.visible.lo = m.registers loReg ∧ m.visible.pc = m.registers pcReg ∧ m.visible.nextPC = m.nextPC := by
  refine ⟨trapRegisters_control hl (r := hiReg) (by decide), trapRegisters_control hl (r := loReg) (by decide), ?_, ?_⟩
  · exact trapRegisters_control hl (r := pcReg) (by decide)
  · exact trapRegisters_control hl (r := nextPCReg) (by decide)

theorem visible_ext {c : Cpu} (hl : (m.registers loadReg).toNat < numGPRegs) (hg : ∀ i, m.visible.gpr i = c.gpr i)
    (hhi : m.registers hiReg = c.hi) (hlo : m.registers loReg = c.lo) (hpc : m.registers pcReg = c.pc)
    (hnext : m.registers nextPCReg = c.nextPC) : m.visible = c := by
  obtain ⟨h1, h2, h3, h4⟩ := visible_control hl
  apply Cpu.ext
  · exact funext hg
  · exact h1.trans hhi
  · exact h2.trans hlo
  · exact h3.trans hpc
  · exact h4.trans hnext

theorem Ready.visible (hr : m.Ready) : m.visible = m.cpu := by
  apply visible_ext
  · rw [hr.idle]
    decide
  · intro i
    rw [visible_gpr, hr.idle]
    split_ifs with h0 hl
    · rw [h0]
      exact hr.zero.symm
    · exact absurd (Fin.ext hl.symm) h0
    · rfl
  all_goals rfl

theorem Settled.visible (h : Settled i m n) (hz : m.gpr 0 = 0) : n.cpu = m.visible := by
  have hc {r : Register} (hr : r ∈ [hiReg, loReg, pcReg, nextPCReg]) : n.registers r = m.registers r := by
    fin_cases hr
    all_goals exact h.register (by decide) (by decide) (by decide) (by decide)
  symm
  apply visible_ext
  · rw [h.pending]
    exact i.isLt
  · intro j
    rw [visible_gpr, h.pending]
    split_ifs with h0 hl
    · rw [h0]
      exact (hz.symm.trans (h.gpr (fun he => he.symm)).symm)
    · obtain rfl := Fin.ext hl
      exact (h.target h0).symm
    · exact (h.gpr (fun he => absurd (congrArg Fin.val he).symm hl)).symm
  · exact (hc (by decide)).symm
  · exact (hc (by decide)).symm
  · exact (hc (by decide)).symm
  · exact (hc (by decide)).symm

theorem visible_congr (h : ∀ r, r ≠ badVAddrReg → n.registers r = m.registers r) : n.visible = m.visible := by
  have ht (r : Register) (hr : r ≠ badVAddrReg) : n.trapRegisters 0 r = m.trapRegisters 0 r := by
    simp only [trapRegisters, h loadReg (by decide), h loadValueReg (by decide), if_neg hr, h r hr]
  apply Cpu.ext
  · funext i
    exact ht _ (gpReg_ne (by decide))
  · exact ht hiReg (by decide)
  · exact ht loReg (by decide)
  · exact ht pcReg (by decide)
  · exact ht nextPCReg (by decide)

theorem visible_trapped (hl : (m.registers loadReg).toNat < numGPRegs) (v : Word) :
    visible { m with registers := m.trapRegisters v } = m.visible := by
  have hc (r : Register) (hr : r ∈ [pcReg, nextPCReg, prevPCReg, hiReg, loReg]) :
      m.trapRegisters v r = m.trapRegisters 0 r :=
    (trapRegisters_control hl hr).trans (trapRegisters_control hl hr).symm
  have hload : m.trapRegisters v loadReg = 0 := rfl
  apply visible_ext
  · simp only [hload]
    decide
  · intro i
    have hg : gpr { m with registers := m.trapRegisters v } i = _ := trapRegisters_gpr i
    rw [visible_gpr, visible_gpr, hg]
    simp only [hload]
    by_cases h0 : i = 0
    · rw [if_pos h0, if_pos h0]
    · rw [if_neg h0, if_neg h0, if_neg (fun he => h0 (Fin.ext he.symm))]
  · exact hc hiReg (by decide)
  · exact hc loReg (by decide)
  · exact hc pcReg (by decide)
  · exact hc nextPCReg (by decide)

theorem ofNat_gpr (i : Fin numGPRegs) : (BitVec.ofNat 32 i).toNat = i := by
  have hi : (i : Nat) < 32 := i.isLt
  rw [BitVec.toNat_ofNat]
  omega

theorem put_gpr {c : Cpu} (h0 : c.gpr 0 = 0) (i j : Fin numGPRegs) (v : Word) :
    (c.put i v).gpr j = if j = 0 then 0 else if i = j then v else c.gpr j := by
  unfold Cpu.put
  by_cases hi : i = 0
  · rw [if_pos hi]
    split_ifs with hj hij
    · rw [hj, h0]
    · exact absurd (hij.symm.trans hi) hj
    · rfl
  · rw [if_neg hi]
    simp only [Function.update_apply]
    split_ifs with hji hj hij hj hij
    · exact absurd (hji.symm.trans hj) hi
    · rfl
    · exact absurd hji.symm hij
    · rw [hj, h0]
    · exact absurd hij.symm hji
    · rfl

theorem put_control (c : Cpu) (i : Fin numGPRegs) (v : Word) :
    (c.put i v).hi = c.hi ∧ (c.put i v).lo = c.lo ∧ (c.put i v).nextPC = c.nextPC := by
  unfold Cpu.put
  split_ifs
  all_goals exact ⟨rfl, rfl, rfl⟩

/-- What an instruction that completes leaves: a load into `i` is pending, and nothing else. -/
structure Finished (m : Machine) (i : Fin numGPRegs) (v t : Word) (m' : Machine) : Prop where
  visible : m'.visible = (m.visible.put i v).jump t
  zero : m'.gpr 0 = 0
  loadReg : m'.registers loadReg = .ofNat 32 i
  loadValue : m'.registers loadValueReg = v
  frame : m' = { m with registers := m'.registers }

theorem finish_finished (hl : (m.registers loadReg).toNat < numGPRegs) (i : Fin numGPRegs) (v t : Word) :
    ∃ m', m.finish (.ofNat 32 i) v t = .ok (.value () m') ∧ m.Finished i v t m' := by
  let r : Fin numGPRegs := ⟨_, hl⟩
  have hm : (m.registers loadReg).toNat = gpReg r := rfl
  have hr {x : Register} (hx : numGPRegs ≤ (x : Nat)) : x ≠ gpReg r := (gpReg_ne hx).symm
  obtain ⟨hhi, hlo, -, hnext⟩ := visible_control hl
  obtain ⟨phi, plo, pnext⟩ := put_control m.visible i v
  refine ⟨_, by rw [finish, delayedLoad_eq hm, ok_bind], ?_, rfl, rfl, rfl, rfl⟩
  apply visible_ext
  · change (BitVec.ofNat 32 i).toNat < numGPRegs
    rw [ofNat_gpr]
    exact i.isLt
  · intro j
    have hg : j ≠ 0 → ∀ a b c d : Word, Machine.gpr ((((((m.set (gpReg r) (m.registers loadValueReg)).set
        Nachos.loadReg a).set loadValueReg v).setGpr 0 0).set prevPCReg b).set pcReg c |>.set nextPCReg d) j =
          if (m.registers Nachos.loadReg).toNat = j then m.registers loadValueReg else m.gpr j := by
      intro hj a b c d
      rw [set_gpr _ (by decide), set_gpr _ (by decide), set_gpr _ (by decide), setGpr_gpr, Function.update_of_ne hj,
        set_gpr _ (by decide), set_gpr _ (by decide)]
      change Machine.gpr (m.setGpr r _) j = _
      rw [setGpr_gpr, Function.update_apply]
      exact if_congr ⟨fun h => (congrArg Fin.val h).symm, fun h => Fin.ext h.symm⟩ rfl rfl
    change _ = (m.visible.put i v).gpr j
    rw [visible_gpr, put_gpr (by rw [visible_gpr, if_pos rfl])]
    by_cases h0 : j = 0
    · rw [if_pos h0, if_pos h0]
    · rw [if_neg h0, if_neg h0, visible_gpr, if_neg h0]
      refine if_congr ?_ rfl (hg h0 _ _ _ _)
      change (BitVec.ofNat 32 i).toNat = j ↔ i = j
      rw [ofNat_gpr]
      exact Fin.ext_iff.symm
  · change _ = (m.visible.put i v).hi
    rw [phi, hhi]
    simp only [set, Function.update_apply, hr (x := hiReg) (by decide)]
    rfl
  · change _ = (m.visible.put i v).lo
    rw [plo, hlo]
    simp only [set, Function.update_apply, hr (x := loReg) (by decide)]
    rfl
  · change _ = (m.visible.put i v).nextPC
    rw [pnext, hnext]
    simp only [set, Function.update_apply, hr (x := nextPCReg) (by decide), hr (x := pcReg) (by decide)]
    rfl
  · exact set_self ..

end Nachos.Machine
