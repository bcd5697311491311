import Nachos.Machine.Conformance

namespace Nachos.Machine

open Instruction WordArith

def Covered (m : Machine) (instr : Instruction) : Prop :=
  match instr.opCode with
  | .add | .addi | .addiu | .addu | .and | .andi | .nor | .or | .ori | .xor | .xori => True
  | .sll | .sllv | .sra | .srav | .srl | .srlv | .slt | .slti | .sltiu | .sltu => True
  | .sub | .subu | .lui | .mfhi | .mflo | .mthi | .mtlo => True
  | .beq | .bne | .bgez | .bgtz | .blez | .bltz | .j | .jal | .jr => True
  | .divu => m.gpr instr.rt ≠ 0
  | .bgezal | .bltzal => instr.rs ≠ 31
  | .jalr => instr.rs ≠ instr.rd
  | _ => False

/-- Where the arms of `OR`, of the logical shifts and of the jumps do what they should. -/
def Faithful (m : Machine) (instr : Instruction) : Prop :=
  match instr.opCode with
  | .or => m.gpr instr.rt &&& ~~~m.gpr instr.rs = 0 ∨ instr.rd = 0
  | .srl => (instr.extra.toNat = 0 ∨ (m.gpr instr.rt).msb = false) ∨ instr.rd = 0
  | .srlv => ((m.gpr instr.rs).toNat % 32 = 0 ∨ (m.gpr instr.rt).msb = false) ∨ instr.rd = 0
  | .j | .jal => (m.nextPC + 4).toNat / 2 ^ 28 = m.nextPC.toNat / 2 ^ 28
  | _ => True

section Fields

variable (w : Word)

theorem decode_rs : (decode w).rs = Fin.ofNat 32 (w.toNat / 2 ^ 21) := low5_shift w 21

theorem decode_rt : (decode w).rt = Fin.ofNat 32 (w.toNat / 2 ^ 16) := low5_shift w 16

theorem decode_rd : (decode w).rd = Fin.ofNat 32 (w.toNat / 2 ^ 11) := low5_shift w 11

variable {w}

theorem extra_of_ifmt (hl : Listed (decode w).opCode) (hf : formatOf (decode w).opCode = .ifmt) :
    (decode w).extra = .ofInt 32 (w.setWidth 16).toInt ∧
      (decode w).extra &&& 0xffff = .ofNat 32 (w.toNat % 2 ^ 16) := by
  rw [decode_extra hl, hf]
  exact ⟨extra_ifmt w, extra_low w⟩

theorem extra_of_rfmt (hl : Listed (decode w).opCode) (hf : formatOf (decode w).opCode = .rfmt) :
    (decode w).extra.toNat = w.toNat / 2 ^ 6 % 32 := by
  rw [decode_extra hl, hf]
  exact extra_rfmt w

theorem extra_of_jfmt (hl : Listed (decode w).opCode) (hf : formatOf (decode w).opCode = .jfmt) :
    (decode w).extra.toNat = w.toNat % 2 ^ 26 := by
  rw [decode_extra hl, hf]
  exact extra_jfmt w

end Fields

section Words

variable (x y : Word)

theorem add_eq_ofInt (z : Int) : x + .ofInt 32 z = .ofInt 32 (x.toInt + z) := by
  rw [BitVec.ofInt_add, BitVec.ofInt_toInt]

theorem add_eq_ofInt_toInt : x + y = .ofInt 32 (x.toInt + y.toInt) := by
  rw [BitVec.ofInt_add, BitVec.ofInt_toInt, BitVec.ofInt_toInt]

theorem sub_eq_ofInt_toInt : x - y = .ofInt 32 (x.toInt - y.toInt) := by
  rw [Int.sub_eq_add_neg, BitVec.ofInt_add, BitVec.ofInt_neg, BitVec.ofInt_toInt, BitVec.ofInt_toInt,
    BitVec.sub_eq_add_neg]

theorem add_eq_ofNat : x + y = .ofNat 32 (x.toNat + y.toNat) := by
  rw [BitVec.ofNat_add, BitVec.ofNat_toNat, BitVec.ofNat_toNat, BitVec.setWidth_eq, BitVec.setWidth_eq]

theorem low5_toNat : (x &&& 0x1f).toNat = x.toNat % 32 := toNat_and_low x 5 (by decide)

theorem udiv_eq : x.udiv y = .ofNat 32 (x.toNat / y.toNat) := by
  apply BitVec.eq_of_toNat_eq
  have hx := x.isLt
  rw [BitVec.toNat_ofNat, Nat.mod_eq_of_lt ((Nat.div_le_self ..).trans_lt hx)]
  exact BitVec.toNat_udiv

theorem umod_eq : x.umod y = .ofNat 32 (x.toNat % y.toNat) := by
  apply BitVec.eq_of_toNat_eq
  have hx := x.isLt
  rw [BitVec.toNat_ofNat, Nat.mod_eq_of_lt ((Nat.mod_le ..).trans_lt hx)]
  exact BitVec.toNat_umod

theorem lui_eq {n : Nat} (h : x &&& 0xffff = .ofNat 32 n) : x <<< 16 = .ofNat 32 (n * 2 ^ 16) := by
  have hx := congrArg BitVec.toNat h
  rw [low_half, BitVec.toNat_ofNat] at hx
  rw [shiftLeft_eq_mul]
  apply BitVec.eq_of_toNat_eq
  rw [BitVec.toNat_ofNat, BitVec.toNat_ofNat]
  omega

theorem branch_target (z : Int) : x + indexToAddr (.ofInt 32 z) = .ofInt 32 (x.toNat + 4 * z) := by
  have hx : BitVec.ofInt 32 x.toNat = x := by
    rw [BitVec.ofInt_natCast, BitVec.ofNat_toNat, BitVec.setWidth_eq]
  have h4 : BitVec.ofInt 32 4 = BitVec.twoPow 32 2 := by decide
  rw [BitVec.ofInt_add, hx, BitVec.ofInt_mul, h4, indexToAddr, BitVec.shiftLeft_eq_mul_twoPow, BitVec.mul_comm]

theorem region_eq : x &&& (0xf0000000 : Word) = (x >>> 28) <<< 28 := by
  have hmask : ∀ i < 32, (0xf0000000 : Word).getLsbD i = decide (28 ≤ i) := by decide
  apply BitVec.eq_of_getLsbD_eq
  intro i hi
  rw [BitVec.getLsbD_and, hmask i hi, BitVec.getLsbD_shiftLeft, BitVec.getLsbD_ushiftRight]
  by_cases h : 28 ≤ i
  · simp [h, hi, Nat.not_lt.mpr h, Nat.add_sub_cancel' h]
  · simp [h, Nat.lt_of_not_le h]

theorem jump_target {i : Word} (hi : i.toNat < 2 ^ 26) :
    (x &&& 0xf0000000) ||| indexToAddr i = .ofNat 32 (x.toNat / 2 ^ 28 * 2 ^ 28 + 4 * i.toNat) := by
  have hx := x.isLt
  have hr : ((x >>> 28) <<< 28).toNat = (x.toNat / 2 ^ 28) <<< 28 := by
    rw [BitVec.toNat_shiftLeft, BitVec.toNat_ushiftRight, Nat.shiftRight_eq_div_pow, Nat.shiftLeft_eq]
    omega
  have ht : (indexToAddr i).toNat = 4 * i.toNat := by
    rw [indexToAddr, BitVec.toNat_shiftLeft, Nat.shiftLeft_eq]
    omega
  apply BitVec.eq_of_toNat_eq
  rw [region_eq, BitVec.toNat_or, hr, ht, ← Nat.shiftLeft_add_eq_or_of_lt (by omega), Nat.shiftLeft_eq,
    BitVec.toNat_ofNat]
  omega

end Words

variable {m : Machine}

theorem Ready.branch_eq (hr : m.Ready) {instr : Instruction} {taken p : Prop} [Decidable taken] [Decidable p]
    {t : Word} (hb : taken ↔ p) (ht : m.nextPC + indexToAddr instr.extra = t) :
    Implements m (m.branch instr taken) (some (if decide p = true then m.cpu.jump t else m.cpu.advance)) := by
  have h : Yields (m.branch instr taken) _ := hr.branch taken
  rw [ht] at h
  by_cases hc : taken
  · rw [if_pos hc] at h
    rw [if_pos (decide_eq_true (hb.mp hc))]
    exact h
  · rw [if_neg hc] at h
    rw [if_neg (by simpa using mt hb.mpr hc)]
    exact h

theorem Ready.link_branch (hr : m.Ready) {instr : Instruction} {taken p : Prop} [Decidable taken] [Decidable p]
    {z : Int} (hb : taken ↔ p) (hz : instr.extra = .ofInt 32 z) :
    Implements m ((m.set retAddrReg (m.nextPC + 4)).branch instr taken)
      (some (if decide p = true then
        (m.cpu.put 31 (m.nextPC + 4)).jump (.ofInt 32 ((m.cpu.put 31 (m.nextPC + 4)).nextPC.toNat + 4 * z))
        else (m.cpu.put 31 (m.nextPC + 4)).advance)) := by
  obtain ⟨hr', hcpu, hn⟩ := hr.link 31 (by decide) (m.nextPC + 4)
  rw [put_nextPC, ← hcpu]
  have ht : (m.setGpr 31 (m.nextPC + 4)).nextPC + indexToAddr instr.extra = .ofInt 32 (m.nextPC.toNat + 4 * z) := by
    rw [hn, hz, branch_target]
  exact hr'.branch_eq hb ht

theorem link_gpr {i : Fin numGPRegs} (hi : i ≠ 31) (v : Word) : (m.set retAddrReg v).gpr i = m.gpr i := by
  change (m.setGpr 31 v).gpr i = _
  rw [setGpr_gpr, Function.update_of_ne hi]

theorem jump_iff {c c' : Cpu} (h : c.gpr = c'.gpr ∧ c.hi = c'.hi ∧ c.lo = c'.lo ∧ c.nextPC = c'.nextPC)
    {t t' : Word} : c.jump t = c'.jump t' ↔ t = t' := by
  obtain ⟨hg, hh, hl, hn⟩ := h
  simp [Cpu.jump, hg, hh, hl, hn]

theorem region_iff {i : Word} (hi : i.toNat < 2 ^ 26) :
    ((m.nextPC + 4) &&& 0xf0000000) ||| indexToAddr i =
        .ofNat 32 (m.nextPC.toNat / 2 ^ 28 * 2 ^ 28 + 4 * i.toNat) ↔
      (m.nextPC + 4).toNat / 2 ^ 28 = m.nextPC.toNat / 2 ^ 28 := by
  have h1 := (m.nextPC + 4).isLt
  have h2 := m.nextPC.isLt
  rw [jump_target _ hi]
  constructor
  · intro h
    have hn := congrArg BitVec.toNat h
    rw [BitVec.toNat_ofNat, BitVec.toNat_ofNat] at hn
    omega
  · intro h
    rw [h]

def Meets (m : Machine) (w : Word) : Prop :=
  Implements m (m.execute (decode w)) (m.cpu.step (decode w).opCode w) ↔ m.Faithful (decode w)

theorem Ready.meets_sum (hr : m.Ready) {w : Word}
    (hop : (decode w).opCode ∈ [OpCode.add, .addi, .addiu, .addu, .sub, .subu]) : m.Meets w := by
  have hi := @extra_of_ifmt w
  simp only [List.mem_cons, List.not_mem_nil, or_false] at hop
  obtain hop | hop | hop | hop | hop | hop := hop
  all_goals
    rw [hop] at hi
    simp only [Meets, execute, Cpu.step, Faithful, hop, ← decode_rs, ← decode_rt, ← decode_rd]
  · exact iff_of_true (hr.checked _ (add_overflow ..) (add_eq_ofInt_toInt ..)) trivial
  · obtain ⟨he, -⟩ := hi (by decide) rfl
    have hz : (decode w).extra.toInt = (w.setWidth 16).toInt := by rw [he]; exact BitVec.toInt_signExtend_of_le (by decide)
    refine iff_of_true (hr.checked _ ?_ (by rw [he]; exact add_eq_ofInt ..)) trivial
    rw [← hz, Int.add_comm, BitVec.xor_comm (m.gpr _), BitVec.add_comm (m.gpr _)]
    exact add_overflow ..
  · obtain ⟨he, -⟩ := hi (by decide) rfl
    exact iff_of_true (hr.assign_eq _ (by rw [he]; exact add_eq_ofInt ..)) trivial
  · exact iff_of_true (hr.assign_eq _ (add_eq_ofNat ..)) trivial
  · exact iff_of_true (hr.checked _ (sub_overflow ..) (sub_eq_ofInt_toInt ..)) trivial
  · exact iff_of_true (hr.assign_eq _ (sub_eq_ofInt_toInt ..)) trivial

theorem Ready.meets_bitwise (hr : m.Ready) {w : Word} (hop : (decode w).opCode ∈ [OpCode.and, .or, .xor, .nor]) : m.Meets w := by
  simp only [List.mem_cons, List.not_mem_nil, or_false] at hop
  obtain hop | hop | hop | hop := hop
  all_goals simp only [Meets, execute, Cpu.step, Faithful, hop, ← decode_rs, ← decode_rt, ← decode_rd]
  · exact iff_of_true (hr.assign_eq _ rfl) trivial
  -- `registers[rs] | registers[rs]`
  · exact (hr.assign_iff ..).trans (or_congr (or_self_eq_or ..) Iff.rfl)
  · exact iff_of_true (hr.assign_eq _ rfl) trivial
  · exact iff_of_true (hr.assign_eq _ rfl) trivial

theorem Ready.meets_immediate (hr : m.Ready) {w : Word} (hop : (decode w).opCode ∈ [OpCode.andi, .ori, .xori, .lui]) :
    m.Meets w := by
  have hi := @extra_of_ifmt w
  simp only [List.mem_cons, List.not_mem_nil, or_false] at hop
  obtain hop | hop | hop | hop := hop
  all_goals
    rw [hop] at hi
    obtain ⟨-, he⟩ := hi (by decide) rfl
    simp only [Meets, execute, Cpu.step, Faithful, hop, ← decode_rs, ← decode_rt]
    refine iff_of_true (hr.assign_eq _ ?_) trivial
  · rw [he]
    rfl
  · rw [he]
    rfl
  · rw [he]
    rfl
  · exact lui_eq _ he

theorem Ready.meets_shift (hr : m.Ready) {w : Word}
    (hop : (decode w).opCode ∈ [OpCode.sll, .sllv, .sra, .srav, .srl, .srlv]) : m.Meets w := by
  have hs := @extra_of_rfmt w
  simp only [List.mem_cons, List.not_mem_nil, or_false] at hop
  obtain hop | hop | hop | hop | hop | hop := hop
  all_goals
    rw [hop] at hs
    simp only [Meets, execute, Cpu.step, Faithful, hop, ← decode_rs, ← decode_rt, ← decode_rd]
  · have he := hs (by decide) rfl
    exact iff_of_true (hr.assign_eq _ (by rw [← he]; exact shiftLeft_eq_mul ..)) trivial
  · exact iff_of_true (hr.assign_eq _ (by rw [← low5_toNat]; exact shiftLeft_eq_mul ..)) trivial
  · have he := hs (by decide) rfl
    exact iff_of_true (hr.assign_eq _ (by rw [← he]; exact sshiftRight_eq_div ..)) trivial
  · exact iff_of_true (hr.assign_eq _ (by rw [← low5_toNat]; exact sshiftRight_eq_div ..)) trivial
  -- the logical shifts fill in the sign
  · have he := hs (by decide) rfl
    rw [hr.assign_iff, ← he, ← ushiftRight_eq_div]
    exact or_congr (sshiftRight_eq_ushiftRight _ (by omega)) Iff.rfl
  · have hlt : (m.gpr (decode w).rs &&& 0x1f).toNat < 32 := by rw [low5_toNat]; omega
    rw [hr.assign_iff, ← low5_toNat, ← low5_toNat, ← ushiftRight_eq_div]
    exact or_congr (sshiftRight_eq_ushiftRight _ hlt) Iff.rfl

theorem Ready.meets_compare (hr : m.Ready) {w : Word} (hop : (decode w).opCode ∈ [OpCode.slt, .slti, .sltiu, .sltu]) :
    m.Meets w := by
  have hi := @extra_of_ifmt w
  simp only [List.mem_cons, List.not_mem_nil, or_false] at hop
  obtain hop | hop | hop | hop := hop
  all_goals
    rw [hop] at hi
    simp only [Meets, execute, Cpu.step, Faithful, hop, ← decode_rs, ← decode_rt, ← decode_rd]
  · exact iff_of_true (hr.assign_eq _ (if_congr BitVec.slt_iff_toInt_lt rfl rfl)) trivial
  · obtain ⟨he, -⟩ := hi (by decide) rfl
    have hz : (decode w).extra.toInt = (w.setWidth 16).toInt := by rw [he]; exact BitVec.toInt_signExtend_of_le (by decide)
    rw [← hz]
    exact iff_of_true (hr.assign_eq _ (if_congr BitVec.slt_iff_toInt_lt rfl rfl)) trivial
  · obtain ⟨he, -⟩ := hi (by decide) rfl
    refine iff_of_true (hr.assign_eq _ (if_congr ?_ rfl rfl)) trivial
    rw [BitVec.lt_def, he, BitVec.toNat_ofInt]
    change _ ↔ ((m.gpr (decode w).rs).toNat : Int) < _
    omega
  · exact iff_of_true (hr.assign_eq _ (if_congr BitVec.lt_def rfl rfl)) trivial

theorem Ready.meets_hiLo (hr : m.Ready) {w : Word} (hop : (decode w).opCode ∈ [OpCode.mfhi, .mflo, .mthi, .mtlo, .divu])
    (hc : m.Covered (decode w)) : m.Meets w := by
  simp only [List.mem_cons, List.not_mem_nil, or_false] at hop
  obtain hop | hop | hop | hop | hop := hop
  all_goals
    simp only [Covered, hop] at hc
    simp only [Meets, execute, Cpu.step, Faithful, hop, ← decode_rs, ← decode_rt, ← decode_rd]
  · exact iff_of_true (hr.assign_eq _ rfl) trivial
  · exact iff_of_true (hr.assign_eq _ rfl) trivial
  · obtain ⟨hr', hcpu⟩ := set_hi_cpu hr (m.gpr (decode w).rs)
    exact iff_of_true (hcpu ▸ hr'.finish (m.nextPC + 4)) trivial
  · obtain ⟨hr', hcpu⟩ := set_lo_cpu hr (m.gpr (decode w).rs)
    exact iff_of_true (hcpu ▸ hr'.finish (m.nextPC + 4)) trivial
  · rw [if_neg hc, udiv_eq, umod_eq]
    obtain ⟨hr', hcpu⟩ := setHiLo_cpu hr (.ofNat 32 ((m.gpr (decode w).rs).toNat % (m.gpr (decode w).rt).toNat))
      (.ofNat 32 ((m.gpr (decode w).rs).toNat / (m.gpr (decode w).rt).toNat))
    exact iff_of_true (hcpu ▸ hr'.finish (m.nextPC + 4)) trivial

theorem Ready.meets_branch (hr : m.Ready) {w : Word}
    (hop : (decode w).opCode ∈ [OpCode.beq, .bne, .bgez, .bltz, .bgtz, .blez, .bgezal, .bltzal])
    (hc : m.Covered (decode w)) : m.Meets w := by
  have hi := @extra_of_ifmt w
  simp only [List.mem_cons, List.not_mem_nil, or_false] at hop
  obtain hop | hop | hop | hop | hop | hop | hop | hop := hop
  all_goals
    rw [hop] at hi
    obtain ⟨he, -⟩ := hi (by decide) rfl
    simp only [Covered, hop] at hc
    simp only [Meets, execute, Cpu.step, Faithful, hop, ← decode_rs, ← decode_rt]
    refine iff_of_true ?_ trivial
  · exact hr.branch_eq Iff.rfl (by rw [he]; exact branch_target ..)
  · exact hr.branch_eq Iff.rfl (by rw [he]; exact branch_target ..)
  · exact hr.branch_eq (sign_eq_zero_iff _) (by rw [he]; exact branch_target ..)
  · exact hr.branch_eq (sign_ne_zero_iff _) (by rw [he]; exact branch_target ..)
  · exact hr.branch_eq BitVec.slt_iff_toInt_lt (by rw [he]; exact branch_target ..)
  · exact hr.branch_eq BitVec.sle_iff_toInt_le (by rw [he]; exact branch_target ..)
  · refine hr.link_branch ?_ he
    rw [link_gpr hc]
    exact sign_eq_zero_iff _
  · refine hr.link_branch ?_ he
    rw [link_gpr hc]
    exact sign_ne_zero_iff _

theorem Ready.meets_jump (hr : m.Ready) {w : Word} (hop : (decode w).opCode ∈ [OpCode.j, .jal, .jr, .jalr])
    (hc : m.Covered (decode w)) : m.Meets w := by
  have hj := @extra_of_jfmt w
  simp only [List.mem_cons, List.not_mem_nil, or_false] at hop
  obtain hop | hop | hop | hop := hop
  all_goals
    rw [hop] at hj
    simp only [Covered, hop] at hc
    simp only [Meets, execute, Cpu.step, Faithful, hop, ← decode_rs, ← decode_rd]
  -- the region of the target is that of the instruction after the next
  · have he := hj (by decide) rfl
    rw [← he]
    exact ((hr.finish _).iff.trans (jump_iff ⟨rfl, rfl, rfl, rfl⟩)).trans (region_iff (by omega))
  · have he := hj (by decide) rfl
    rw [← he]
    exact ((hr.finish_setGpr 31 _ _).iff.trans (jump_iff ⟨rfl, rfl, rfl, rfl⟩)).trans (region_iff (by omega))
  · exact iff_of_true (hr.finish _) trivial
  · refine iff_of_true ?_ trivial
    have hg : (m.setGpr (decode w).rd (m.nextPC + 4)).gpr (decode w).rs = m.gpr (decode w).rs := by
      rw [setGpr_gpr, Function.update_of_ne hc]
    rw [hg]
    exact hr.finish_setGpr ..

theorem execute_reference (hr : m.Ready) (w : Word) (hc : m.Covered (decode w)) :
    Implements m (m.execute (decode w)) (m.cpu.step (decode w).opCode w) ↔ m.Faithful (decode w) := by
  change m.Meets w
  cases hop : (decode w).opCode
  case add | addi | addiu | addu | sub | subu => exact hr.meets_sum (by simp [hop])
  case and | or | xor | nor => exact hr.meets_bitwise (by simp [hop])
  case andi | ori | xori | lui => exact hr.meets_immediate (by simp [hop])
  case sll | sllv | sra | srav | srl | srlv => exact hr.meets_shift (by simp [hop])
  case slt | slti | sltiu | sltu => exact hr.meets_compare (by simp [hop])
  case mfhi | mflo | mthi | mtlo | divu => exact hr.meets_hiLo (by simp [hop]) hc
  case beq | bne | bgez | bltz | bgtz | blez | bgezal | bltzal => exact hr.meets_branch (by simp [hop]) hc
  case j | jal | jr | jalr => exact hr.meets_jump (by simp [hop]) hc
  -- the others are not covered
  all_goals simp only [Covered, hop] at hc

theorem cpu_congr {m' : Machine} (h : m'.registers = m.registers) :
    m'.cpu = m.cpu ∧ (m.Ready → m'.Ready) ∧ ∀ instr, (m'.Covered instr ↔ m.Covered instr) ∧
      (m'.Faithful instr ↔ m.Faithful instr) := by
  have hg : m'.gpr = m.gpr := by funext i; exact congrFun h _
  have hn : m'.nextPC = m.nextPC := congrFun h _
  refine ⟨by rw [cpu, cpu, hg, h], fun hr => ⟨by rw [hg]; exact hr.zero, by rw [h]; exact hr.idle⟩, fun instr => ?_⟩
  simp only [Covered, Faithful, hg, hn, and_self]

theorem oneInstruction_reference (m : Machine) (hr : m.Ready) {raw : Word} {m' : Machine}
    (hf : m.readMem (m.registers pcReg) 4 = .ok (.value raw m')) (hc : m.Covered (decode raw)) :
    Implements m m.oneInstruction (m.cpu.step (decode raw).opCode raw) ↔ m.Faithful (decode raw) := by
  obtain ⟨hcpu, hready, hcong⟩ := cpu_congr (readMem_registers hf)
  have h := execute_reference (hready hr) raw ((hcong _).1.mpr hc)
  rw [hcpu, (hcong _).2] at h
  rw [oneInstruction, hf, andThen_value, ← h]
  cases m.cpu.step (decode raw).opCode raw with
  | some c => exact Iff.rfl
  | none => simp only [Implements, hcpu]

theorem filled_ready {w : Word} {r : Register → Word} (h0 : r (gpReg 0) = 0) (hl : r loadReg = 0) :
    (filled w r).Ready := ⟨h0, hl⟩

theorem oneInstruction_reference_addu :
    Implements (filled 0x00221821 (fun _ => 0)) (filled 0x00221821 (fun _ => 0)).oneInstruction
      ((filled 0x00221821 (fun _ => 0)).cpu.step .addu 0x00221821) := by
  obtain ⟨t, ht⟩ := filled_fetch 0x00221821 (fun _ => 0)
  have hop : (decode 0x00221821).opCode = .addu := by decide
  have h := oneInstruction_reference _ (filled_ready rfl rfl) ht (by simp only [Covered, hop])
  rw [hop] at h
  exact h.mpr (by simp only [Faithful, hop])

def orMachine : Machine := filled 0x00221825 (fun r => if r = 2 then 1 else if r = nextPCReg then 4 else 0)

theorem or_deviates :
    orMachine.Ready ∧ (∃ m', orMachine.readMem (orMachine.registers pcReg) 4 = .ok (.value 0x00221825 m')) ∧
      orMachine.Covered (decode 0x00221825) ∧
      ¬Implements orMachine orMachine.oneInstruction (orMachine.cpu.step (decode 0x00221825).opCode 0x00221825) := by
  obtain ⟨t, ht⟩ := filled_fetch 0x00221825 (fun r => if r = 2 then 1 else if r = nextPCReg then 4 else 0)
  have hop : (decode 0x00221825).opCode = .or := by decide
  have hr : orMachine.Ready := filled_ready rfl rfl
  refine ⟨hr, ⟨_, ht⟩, by simp only [Covered, hop], ?_⟩
  obtain ⟨-, hready, hcong⟩ := cpu_congr (m := orMachine) (readMem_registers ht)
  have h := execute_reference (hready hr) 0x00221825 (by simp only [Covered, hop])
  have hno : ¬orMachine.Faithful (decode 0x00221825) := by
    simp only [Faithful, hop]
    decide
  rw [oneInstruction, show orMachine.registers pcReg = 0 from rfl, orMachine, ht, andThen_value]
  rw [hop] at h ⊢
  exact fun hi => hno ((hcong _).2.mp (h.mp hi))

end Nachos.Machine
