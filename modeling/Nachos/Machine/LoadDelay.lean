import Nachos.Machine.Restart
import Nachos.Machine.VirtualMemory

namespace Nachos

open Machine Instruction

def Instruction.accesses (instr : Instruction) (addr : Word) : List (Nat × Bool) :=
  match instr.opCode with
  | .lb | .lbu | .lh | .lhu | .lw | .lwl | .lwr => [(addr.toNat / pageSize, false)]
  | .sb | .sh | .sw => [(addr.toNat / pageSize, true)]
  | .swl | .swr => [(addr.toNat / pageSize, false), (addr.toNat / pageSize, true)]
  | _ => []

namespace Machine

variable {m m' m₁ n : Machine} {l l₁ : List (Nat × Bool)} {instr : Instruction} {size : Nat} {v : Word}

structure Completed (m : Machine) (l : List (Nat × Bool)) (m' : Machine) : Prop where
  host : m'.host = m.host
  tlb : m'.tlb = m.tlb
  pageTableSize : m'.pageTableSize = m.pageTableSize
  badVAddr : m'.registers badVAddrReg = m.registers badVAddrReg
  pageTable : m'.pageTable = m.pageTable.map (fun t => l.foldl (fun t x => touch t x.1 x.2) t)

theorem Completed.trans (h : Completed m l m₁) (h' : Completed m₁ l₁ m') : Completed m (l ++ l₁) m' where
  host := h'.host.trans h.host
  tlb := h'.tlb.trans h.tlb
  pageTableSize := h'.pageTableSize.trans h.pageTableSize
  badVAddr := h'.badVAddr.trans h.badVAddr
  pageTable := by
    rw [h'.pageTable, h.pageTable, Option.map_map]
    simp only [Function.comp_def, List.foldl_append]

theorem Completed.refl (m : Machine) : Completed m [] m := ⟨rfl, rfl, rfl, rfl, by simp⟩

theorem Completed.set (h : Completed m l m₁) {r : Register} (hr : r ≠ badVAddrReg) (v : Word) :
    Completed m l (m₁.set r v) :=
  ⟨h.host, h.tlb, h.pageTableSize, (set_of_ne m₁ hr.symm v).trans h.badVAddr, h.pageTable⟩

theorem Completed.finish (h : Completed m l m₁) (hl : (m₁.registers loadReg).toNat < numGPRegs) {r v pc : Word}
    (hf : m₁.finish r v pc = .ok (.value () m')) : Completed m l m' := by
  have hm : (m₁.registers loadReg).toNat = gpReg ⟨(m₁.registers loadReg).toNat, hl⟩ := rfl
  rw [Machine.finish, delayedLoad_eq hm, ok_bind] at hf
  obtain ⟨-, rfl⟩ := Outcome.value.inj (Except.ok.inj hf)
  have hload := (((h.set (r := gpReg ⟨_, hl⟩) (gpReg_ne (by decide)) (m₁.registers loadValueReg)).set (r := loadReg)
    (by decide) r).set (r := loadValueReg) (by decide) v).set (r := gpReg 0) (by decide) 0
  exact ((hload.set (by decide) _).set (by decide) _).set (by decide) _

theorem andThen_eq_value {α β : Type} {x : Except Fault (Outcome α)} {f : α → Machine → Except Fault (Outcome β)} {b : β}
    (h : andThen x f = .ok (.value b m')) : ∃ a m₁, x = .ok (.value a m₁) ∧ f a m₁ = .ok (.value b m') := by
  obtain ⟨o, ho, h⟩ := bind_eq_ok.mp h
  cases o with
  | value a m₁ => exact ⟨a, m₁, ho, h⟩
  | exception which m₁ => cases h

theorem Completed.readMem {r : Word} (h : Completed m l m₁) (hs : m₁.Sane) (hsize : AccessSize size)
    (hr : m₁.readMem v size = .ok (.value r m')) : Completed m (l ++ [(v.toNat / pageSize, false)]) m' ∧ m'.Sane ∧
      m'.registers = m₁.registers := by
  obtain ⟨t, ht⟩ := Option.ne_none_iff_exists'.mp hs.pageTable
  obtain ⟨-, -, -, -, rfl⟩ := readMem_value hs.tlb ht hsize hr
  exact ⟨h.trans ⟨rfl, rfl, rfl, rfl, by simp [ht]⟩, hs.withTable _, rfl⟩

theorem Completed.writeMem {value : Word} (h : Completed m l m₁) (hs : m₁.Sane) (hsize : AccessSize size)
    (hw : m₁.writeMem v size value = .ok (.value () m')) : Completed m (l ++ [(v.toNat / pageSize, true)]) m' ∧ m'.Sane := by
  obtain ⟨t, ht⟩ := Option.ne_none_iff_exists'.mp hs.pageTable
  obtain ⟨-, -, -, rfl⟩ := writeMem_value hs.tlb ht hsize hw
  exact ⟨h.trans ⟨rfl, rfl, rfl, rfl, by simp [ht]⟩, (hs.withTable _).withMemory _⟩

section Execute

variable (hs : m.Sane)
include hs

theorem completed_finish {r v pc : Word} (h : m.finish r v pc = .ok (.value () m')) : Completed m [] m' :=
  (Completed.refl m).finish hs.loadReg h

theorem completed_assign {i : Fin numGPRegs} (h : m.assign i v = .ok (.value () m')) : Completed m [] m' :=
  ((Completed.refl m).set (gpReg_ne (by decide)) v).finish (hs.set (gpReg_ne_loadReg i) v).loadReg h

theorem completed_load {f : Word → Machine → Except Fault (Outcome Unit)} (hsize : AccessSize size)
    (hf : ∀ raw n, ∃ x, f raw n = n.load instr x) (h : andThen (m.readMem v size) f = .ok (.value () m')) :
    Completed m [(v.toNat / pageSize, false)] m' := by
  obtain ⟨raw, m₁, hr, h⟩ := andThen_eq_value h
  obtain ⟨hc, hs₁, -⟩ := (Completed.refl m).readMem hs hsize hr
  obtain ⟨x, hx⟩ := hf raw m₁
  rw [hx] at h
  exact hc.finish hs₁.loadReg h

theorem completed_store (hsize : AccessSize size) (h : m.store instr size = .ok (.value () m')) :
    Completed m [((m.address instr).toNat / pageSize, true)] m' := by
  obtain ⟨_, m₁, hw, h⟩ := andThen_eq_value h
  obtain ⟨hc, hs₁⟩ := (Completed.refl m).writeMem hs hsize hw
  exact hc.finish hs₁.loadReg h

theorem completed_storePartial {merge : Word → Word → Word → Word}
    (h : m.storePartial instr merge = .ok (.value () m')) :
    Completed m [((m.address instr).toNat / pageSize, false), ((m.address instr).toNat / pageSize, true)] m' := by
  obtain ⟨_, ha, h⟩ := bind_eq_ok.mp h
  have hz := (assert_ok_iff _).mp ha
  rw [aligned_and hz] at h
  obtain ⟨raw, m₁, hr, h⟩ := andThen_eq_value h
  obtain ⟨hc, hs₁, -⟩ := (Completed.refl m).readMem hs (.inr (.inr rfl)) hr
  obtain ⟨_, m₂, hw, h⟩ := andThen_eq_value h
  obtain ⟨hc₂, hs₂⟩ := hc.writeMem hs₁ (.inr (.inr rfl)) hw
  exact hc₂.finish hs₂.loadReg h

theorem execute_completed (h : m.execute instr = .ok (.value () m')) :
    Completed m (instr.accesses (m.address instr)) m' := by
  have hhilo (x y : Word) : (m.setHiLo x y).Sane ∧ Completed m [] (m.setHiLo x y) :=
    ⟨(hs.set (by decide) y).set (by decide) x, ((Completed.refl m).set (by decide) y).set (by decide) x⟩
  have hlink (x : Word) : (m.set retAddrReg x).Sane ∧ Completed m [] (m.set retAddrReg x) :=
    ⟨hs.set (by decide) x, (Completed.refl m).set (by decide) x⟩
  cases hop : instr.opCode
  all_goals
    simp only [execute, hop] at h
    simp only [Instruction.accesses, hop]
  case rfe | special | bcond => cases h
  case syscall | res | unimp => exact absurd h (raiseException_ne_value _ _)
  case add | addi | sub =>
    split_ifs at h
    · exact absurd h (raiseException_ne_value _ _)
    · exact completed_assign hs h
  case addiu | addu | and | andi | lui | mfhi | mflo | nor | or | ori | sll | sllv | slt | slti | sltiu | sltu | sra | srav
      | srl | srlv | subu | xor | xori => exact completed_assign hs h
  case beq | bgez | bgtz | blez | bltz | bne | j | jr => exact completed_finish hs h
  case bgezal | bltzal | jal => exact (hlink _).2.finish (hlink _).1.loadReg h
  case jalr => exact ((Completed.refl m).set (gpReg_ne (by decide)) _).finish (hs.set (gpReg_ne_loadReg _) _).loadReg h
  case mult | multu => exact (hhilo _ _).2.finish (hhilo _ _).1.loadReg h
  case div =>
    split_ifs at h
    · exact (hhilo _ _).2.finish (hhilo _ _).1.loadReg h
    · obtain ⟨qr, -, h⟩ := bind_eq_ok.mp h
      exact (hhilo _ _).2.finish (hhilo _ _).1.loadReg h
  case divu =>
    split_ifs at h
    · exact (hhilo _ _).2.finish (hhilo _ _).1.loadReg h
    · exact (hhilo _ _).2.finish (hhilo _ _).1.loadReg h
  case mthi | mtlo => exact ((Completed.refl m).set (by decide) _).finish (hs.set (by decide) _).loadReg h
  case lb | lbu => exact completed_load hs (.inl rfl) (fun _ _ => ⟨_, rfl⟩) h
  case lh | lhu =>
    simp only [loadHalf] at h
    split_ifs at h
    · exact absurd h (raiseException_ne_value _ _)
    · exact completed_load hs (.inr (.inl rfl)) (fun _ _ => ⟨_, rfl⟩) h
  case lw =>
    split_ifs at h
    · exact absurd h (raiseException_ne_value _ _)
    · exact completed_load hs (.inr (.inr rfl)) (fun _ _ => ⟨_, rfl⟩) h
  case lwl | lwr =>
    obtain ⟨_, -, h⟩ := bind_eq_ok.mp h
    exact completed_load hs (.inr (.inr rfl)) (fun _ _ => ⟨_, rfl⟩) h
  case sb => exact completed_store hs (.inl rfl) h
  case sh => exact completed_store hs (.inr (.inl rfl)) h
  case sw => exact completed_store hs (.inr (.inr rfl)) h
  case swl | swr => exact completed_storePartial hs h

end Execute

theorem delayedLoad_settled (hs : m.Sane) (hz : m.gpr 0 = 0) : ∃ n, m.delayedLoad 0 0 = .ok n ∧
    Settled ⟨_, hs.loadReg⟩ m n ∧ n.registers badVAddrReg = m.registers badVAddrReg ∧
    n = { m with registers := n.registers } := by
  have hm : (m.registers loadReg).toNat = gpReg ⟨(m.registers loadReg).toNat, hs.loadReg⟩ := rfl
  obtain ⟨t, ht⟩ := Option.ne_none_iff_exists'.mp hs.pageTable
  have hne (r : Register) (hr : numGPRegs ≤ (r : Nat)) : r ≠ gpReg ⟨_, hs.loadReg⟩ := (gpReg_ne hr).symm
  refine ⟨_, delayedLoad_eq hm 0 0, ⟨rfl, rfl, hs.tlb, hs.tlb, rfl, ⟨t, t, ht, ht, .refl t⟩, rfl, ?_, ?_, ?_, ?_⟩, ?_, rfl⟩
  · rw [set_of_ne _ (by decide), set_of_ne _ (by decide), set_self]
  · rw [set_of_ne _ (by decide), set_self]
  · intro h0
    rw [set_of_ne _ (fun he => h0 (gpReg_inj he)), set_of_ne _ (gpReg_ne (by decide)), set_of_ne _ (gpReg_ne (by decide)),
      set_self]
  · intro r hl hv hb hi
    by_cases h0 : r = gpReg 0
    · rw [h0, set_self]
      exact hz.symm
    rw [set_of_ne _ h0, set_of_ne _ hv, set_of_ne _ hl, set_of_ne]
    intro he
    exact h0 (he.trans (congrArg gpReg (hi he)))
  · rw [set_of_ne _ (by decide), set_of_ne _ (by decide), set_of_ne _ (by decide), set_of_ne _ (hne _ (by decide))]

theorem accesses_congr {a b : Word} (h : instr.rs ∈ instr.reads → a = b) : instr.accesses a = instr.accesses b := by
  unfold Instruction.accesses
  cases hop : instr.opCode
  case lb | lbu | lh | lhu | lw | lwl | lwr | sb | sh | sw | swl | swr => rw [h (by simp [Instruction.reads, hop])]
  all_goals rfl

theorem oneInstruction_completed (hs : m.Sane) (h : m.oneInstruction = .ok (.value () m')) :
    ∃ raw m₁, m.readMem (m.registers pcReg) 4 = .ok (.value raw m₁) ∧
      Completed m (((m.registers pcReg).toNat / pageSize, false) :: (decode raw).accesses (m.address (decode raw))) m' := by
  obtain ⟨raw, m₁, hr, h⟩ := andThen_eq_value h
  obtain ⟨hc, hs₁, hreg⟩ := (Completed.refl m).readMem hs (.inr (.inr rfl)) hr
  have haddr : m₁.address (decode raw) = m.address (decode raw) := by rw [address, gpr, hreg]; rfl
  exact ⟨raw, m₁, hr, haddr ▸ hc.trans (execute_completed hs₁ h)⟩

theorem Same.eq (h : Same m n) (hm : Completed m₁ l m) (hn : Completed m₁ l n) : n = m := by
  have hr : n.registers = m.registers := by
    funext r
    by_cases hb : r = badVAddrReg
    · rw [hb, hn.badVAddr, hm.badVAddr]
    · exact h.registers r hb
  have hh := hn.host.trans hm.host.symm
  have ht := hn.tlb.trans hm.tlb.symm
  have hp := hn.pageTable.trans hm.pageTable.symm
  have hsize := hn.pageTableSize.trans hm.pageTableSize.symm
  have hmem := h.mainMemory
  cases m
  cases n
  simp only at hr hh ht hp hsize hmem
  simp only [hr, hh, ht, hp, hsize, hmem]

/-- `CheckIfDue` performs a pending load when an interrupt is due before the next instruction; an instruction that
does not use the register of that load and completes cannot tell. -/
theorem interrupt_invisible {m m' : Machine} (hs : m.Sane) (hz : m.gpr 0 = 0)
    (hu : ∀ raw m₁, m.readMem (m.registers pcReg) 4 = .ok (.value raw m₁) →
      ∀ i ∈ (decode raw).reads ++ (decode raw).writes, (m.registers loadReg).toNat ≠ i)
    (h : m.oneInstruction = .ok (.value () m')) :
    ∃ n, m.delayedLoad 0 0 = .ok n ∧ n.oneInstruction = .ok (.value () m') := by
  obtain ⟨n, hn, hset, hbad, hreg⟩ := delayedLoad_settled hs hz
  refine ⟨n, hn, ?_⟩
  have hns : n.Sane := ⟨⟨hset.tlb', by rw [hreg]; exact hs.pageTable⟩, by rw [hset.loadReg]; decide⟩
  have hmatch := oneInstruction_matches hset hz (fun raw m₁ hr => .inr (hu raw m₁ hr))
  rw [h] at hmatch
  generalize hy : n.oneInstruction = y at hmatch
  cases hmatch with
  | value _ hsame =>
    obtain ⟨raw, m₁, hr, hc⟩ := oneInstruction_completed hs h
    obtain ⟨raw', n₁, hr', hc'⟩ := oneInstruction_completed hns hy
    have hpc : n.registers pcReg = m.registers pcReg := hset.register (by decide) (by decide) (by decide) (by decide)
    rw [hpc] at hr' hc'
    obtain ⟨t, ht⟩ := Option.ne_none_iff_exists'.mp hs.pageTable
    have ht' : n.pageTable = some t := by rw [hreg, ← ht]
    obtain ⟨-, -, -, rfl, -⟩ := readMem_value hs.tlb ht (.inr (.inr rfl)) hr
    obtain ⟨-, -, -, rfl, -⟩ := readMem_value hset.tlb' ht' (.inr (.inr rfl)) hr'
    rw [hset.host, hset.mainMemory] at hc'
    -- the address is computed from `rs`, which the instruction reads
    rw [accesses_congr (fun hrs => hset.address (fun he => absurd (congrArg Fin.val he).symm
      (hu _ _ hr _ (List.mem_append_left _ hrs))))] at hc'
    have hfrom : Completed m [] n := ⟨hset.host, hset.tlb'.trans hset.tlb.symm, hset.pageTableSize, hbad, by rw [ht', ht]; rfl⟩
    rw [hsame.eq hc (hfrom.trans hc')]

theorem interrupt_invisible_addu : ∃ m' n, (filled 0x00221821 absentPage.registers).oneInstruction = .ok (.value () m') ∧
    (filled 0x00221821 absentPage.registers).delayedLoad 0 0 = .ok n ∧ n.gpr 5 = 7 ∧
    n.oneInstruction = .ok (.value () m') := by
  have hs : (filled 0x00221821 absentPage.registers).Sane := filled_sane (by decide)
  have h : ∃ m', (filled 0x00221821 absentPage.registers).oneInstruction = .ok (.value () m') := by
    obtain ⟨t, ht⟩ := filled_oneInstruction 0x00221821 (r := absentPage.registers) rfl
    have hop : (decode 0x00221821).opCode = .addu := by decide
    rw [ht]
    simp only [execute, hop, assign, Machine.finish]
    rw [delayedLoad_eq (r := gpReg 5) (by rw [setGpr, set_of_ne _ (gpReg_ne_loadReg _).symm]; rfl)]
    exact ⟨_, rfl⟩
  obtain ⟨m', h⟩ := h
  obtain ⟨n, hn, hi⟩ := interrupt_invisible hs rfl (fun raw m₁ hr => by
    obtain ⟨t, ht⟩ := filled_fetch 0x00221821 absentPage.registers
    obtain ⟨rfl, -⟩ := Outcome.value.inj (Except.ok.inj (hr.symm.trans ht))
    decide) h
  refine ⟨m', n, h, hn, ?_, hi⟩
  rw [delayedLoad_eq (r := gpReg 5) rfl] at hn
  obtain rfl := Except.ok.inj hn
  rfl

end Machine

end Nachos
