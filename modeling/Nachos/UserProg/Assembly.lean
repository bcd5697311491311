import Nachos.UserProg.Output

namespace Nachos

open Buffer Machine Instruction

namespace Processor

variable {q : Processor} {text : List Word} {w : Word} {i : Nat}

def assigned (q : Processor) (r : Fin numGPRegs) (v : Word) : Processor :=
  { q with cpu := (q.cpu.put r v).advance, loading := none }

def jumped (q : Processor) (target : Word) : Processor := { q with cpu := q.cpu.jump target, loading := none }

def called (q : Processor) (link target : Word) : Processor :=
  { q with cpu := (q.cpu.put 31 link).jump target, loading := none }

theorem perform_addiu {rs rt : Fin numGPRegs} {v : Int} (hrs : Fin.ofNat 32 (w.toNat / 2 ^ 21) = rs)
    (hrt : Fin.ofNat 32 (w.toNat / 2 ^ 16) = rt) (hv : (w.setWidth 16).toInt = v) :
    q.perform w .addiu = .ok (q.assigned rt (.ofInt 32 ((q.cpu.gpr rs).toInt + v))) := by
  simp only [perform, Cpu.step, hrs, hrt, hv]
  rfl

theorem perform_addu {rs rt rd : Fin numGPRegs} (hrs : Fin.ofNat 32 (w.toNat / 2 ^ 21) = rs)
    (hrt : Fin.ofNat 32 (w.toNat / 2 ^ 16) = rt) (hrd : Fin.ofNat 32 (w.toNat / 2 ^ 11) = rd) :
    q.perform w .addu = .ok (q.assigned rd (.ofNat 32 ((q.cpu.gpr rs).toNat + (q.cpu.gpr rt).toNat))) := by
  simp only [perform, Cpu.step, hrs, hrt, hrd]
  rfl

theorem perform_jr {rs : Fin numGPRegs} (hrs : Fin.ofNat 32 (w.toNat / 2 ^ 21) = rs) :
    q.perform w .jr = .ok (q.jumped (q.cpu.gpr rs)) := by
  simp only [perform, Cpu.step, hrs]
  rfl

theorem perform_jal {target : Word} (hi : 4 * (w.toNat % 2 ^ 26) = target.toNat) (hn : q.cpu.nextPC.toNat < 2 ^ 28) :
    q.perform w .jal = .ok (q.called (q.cpu.nextPC + 4) target) := by
  have hregion : q.cpu.nextPC.toNat / 2 ^ 28 * 2 ^ 28 + 4 * (w.toNat % 2 ^ 26) = target.toNat := by
    rw [Nat.div_eq_of_lt hn, Nat.zero_mul, Nat.zero_add, hi]
  simp only [perform, Cpu.step, hregion, BitVec.ofNat_toNat, BitVec.setWidth_eq]
  rfl

def At (q : Processor) (i : Nat) : Prop := q.cpu.pc = .ofNat 32 (4 * i) ∧ q.cpu.nextPC = .ofNat 32 (4 * (i + 1))

theorem at_next {c : Cpu} {memory : Buffer} {size : Nat} {loading : Option (Fin numGPRegs)}
    (h : c.nextPC = .ofNat 32 (4 * (i + 1))) : At ⟨c.advance, memory, size, loading⟩ (i + 1) := by
  refine ⟨h, ?_⟩
  change c.nextPC + 4 = _
  rw [h, Nat.mul_add 4 (i + 1) 1, BitVec.ofNat_add]
  rfl

theorem At.assigned (h : q.At i) (r : Fin numGPRegs) (v : Word) : (q.assigned r v).At (i + 1) :=
  at_next ((put_control q.cpu r v).2.2.trans h.2)

theorem At.advance (h : q.At i) : At { q with cpu := q.cpu.advance, loading := none } (i + 1) := at_next h.2

structure Coded (text : List Word) (q : Processor) : Prop where
  size : 4 * text.length ≤ q.size
  small : 4 * text.length < 2 ^ 32
  text : ∀ i w, text[i]? = some w → q.memory.wordAt (4 * i) = w

namespace Coded

theorem congr {q' : Processor} (h : Coded text q) (hm : q'.memory = q.memory) (hs : q'.size = q.size) : Coded text q' :=
  ⟨hs ▸ h.size, h.small, fun i w hw => hm ▸ h.text i w hw⟩

theorem fetches (h : Coded text q) (hpc : q.cpu.pc = .ofNat 32 (4 * i)) (hw : text[i]? = some w) :
    q.Inside q.cpu.pc 4 ∧ q.fetched = w := by
  obtain ⟨hi, -⟩ := List.getElem?_eq_some_iff.mp hw
  have hsize := h.size
  have hsmall := h.small
  have hnat : q.cpu.pc.toNat = 4 * i := by
    rw [hpc, BitVec.toNat_ofNat, Nat.mod_eq_of_lt]
    omega
  rw [Inside, hnat, fetched, hnat]
  exact ⟨⟨Nat.dvd_mul_right 4 i, by omega⟩, h.text i w hw⟩

theorem step (h : Coded text q) (hpc : q.cpu.pc = .ofNat 32 (4 * i)) (hw : text[i]? = some w) {op : OpCode}
    (hop : (decode w).opCode = op) : q.step = q.perform w op :=
  step_of_word (h.fetches hpc hw).1 (h.fetches hpc hw).2 hop

theorem nop (h : Coded text q) (hpc : q.cpu.pc = .ofNat 32 (4 * i)) (hw : text[i]? = some 0) :
    q.step = .ok { q with cpu := q.cpu.advance, loading := none } := by
  rw [h.step hpc hw (show (decode 0).opCode = .sll by decide)]
  exact Kernel.perform_nop q

theorem addiu (h : Coded text q) (hz : q.cpu.gpr 0 = 0) (hat : q.At i) (w : Word) (rt : Fin numGPRegs) (v : Word)
    (hw : text[i]? = some w) (hop : (decode w).opCode = .addiu ∧ Fin.ofNat 32 (w.toNat / 2 ^ 21) = 0)
    (hrt : Fin.ofNat 32 (w.toNat / 2 ^ 16) = rt) (hv : .ofInt 32 (w.setWidth 16).toInt = v) :
    q.step = .ok (q.assigned rt v) ∧ (q.assigned rt v).At (i + 1) ∧ Coded text (q.assigned rt v) := by
  refine ⟨?_, hat.assigned rt v, h.congr rfl rfl⟩
  rw [h.step hat.1 hw hop.1, perform_addiu hop.2 hrt rfl, hz, ← hv]
  simp

theorem syscall (h : Coded text q) (hat : q.At i) (hw : text[i]? = some 0x0000000c) : q.step = .error .syscallException := by
  rw [h.step hat.1 hw (show (decode 0x0000000c).opCode = .syscall by decide)]
  rfl

end Coded

end Processor

/-- The code is followed to its end; it does nothing but calls, moves and a `Write` of one string. -/
def Cpu.traced (text : List Word) (string : Word) : Nat → Cpu → Bool
  | 0, _ => false
  | n + 1, c =>
    match text[c.pc.toNat / 4]? with
    | none => false
    | some w =>
      let op := (decode w).opCode
      c.pc.toNat % 4 = 0 && (op ∈ [.addiu, .addu, .jr, .sll, .syscall] || op = .jal && c.nextPC.toNat < 2 ^ 27) &&
        match c.step op w with
        | some c' => c'.traced text string n
        | none => op = .syscall && (c.gpr 2 ≠ scWrite ||
            c.gpr 6 = 1 && c.gpr 4 = string && c.advance.traced text string n)

theorem Processor.perform_of_step {q : Processor} {op : OpCode} {w : Word} {c : Cpu} (h : q.cpu.step op w = some c) :
    q.perform w op = .ok { q with cpu := c, loading := none } := by
  cases op
  all_goals simp only [perform]
  all_goals first
    | rw [h]
    | cases h

namespace Computer

variable {c d : Computer}

def Sound (c : Computer) : Prop := c.processor.Supported ∧ (c.processor.step = .error .syscallException →
  c.processor.cpu.gpr 2 = scWrite →
    (c.processor.cpu.gpr 6).toInt = consoleOutput ∧ ∃ text, c.processor.Text (c.processor.cpu.gpr 4) text)

theorem Sound.disciplined (h : c.Sound) (hd : ∀ d, c.Next d → d.Disciplined) : c.Disciplined := by
  have hrun {n : Nat} {e : Computer} (hn : Steps Next c n e) : e.Sound := by
    cases n with
    | zero =>
      cases hn
      exact h
    | succ n =>
      obtain ⟨d, hnext, hn⟩ := Steps.head_iff.mp hn
      exact ⟨(hd d hnext).supported n e hn, (hd d hnext).write n e hn⟩
  exact ⟨fun n e hn => (hrun hn).1, fun n e hn => (hrun hn).2⟩

end Computer

theorem Cpu.traced_disciplined {text : List Word} {string : Word} {memory : Buffer} {size n : Nat} {c : Cpu}
    {bytes output : List Byte} (hsize : 4 * text.length ≤ size)
    (htext : ∀ i w, text[i]? = some w → memory.wordAt (4 * i) = w)
    (hs : ∀ c, Processor.Text ⟨c, memory, size, none⟩ string bytes) (h : c.traced text string n = true) :
    Computer.Disciplined ⟨⟨c, memory, size, none⟩, output⟩ := by
  induction n generalizing c output with
  | zero => cases h
  | succ n ih =>
    rw [traced] at h
    cases hw : text[c.pc.toNat / 4]? with
    | none =>
      rw [hw] at h
      cases h
    | some w =>
      rw [hw] at h
      simp only [Bool.and_eq_true, Bool.or_eq_true, decide_eq_true_eq] at h
      obtain ⟨⟨hpc, hop⟩, h⟩ := h
      have hlt := (List.getElem?_eq_some_iff.mp hw).1
      have hnat : 4 * (c.pc.toNat / 4) = c.pc.toNat := by omega
      have hf : Processor.fetched ⟨c, memory, size, none⟩ = w := by
        rw [← htext _ w hw, hnat]
        rfl
      have hin : Processor.Inside ⟨c, memory, size, none⟩ c.pc 4 :=
        ⟨Nat.dvd_of_mod_eq_zero hpc, show c.pc.toNat + 4 ≤ size by omega⟩
      have hstep := Processor.step_of_word hin hf rfl
      have hsupported : Processor.Supported ⟨c, memory, size, none⟩ := by
        refine ⟨fun _ => ?_, fun _ i _ => (Option.some_ne_none i).symm⟩
        rw [hf]
        rcases hop with hop | ⟨hop, hn⟩
        · simp only [List.mem_cons, List.not_mem_nil, or_false] at hop
          rcases hop with hop | hop | hop | hop | hop
          all_goals simp only [Cpu.Defined, hop]
        · simp only [Cpu.Defined, hop]
          rw [BitVec.toNat_add]
          change (c.nextPC.toNat + 4) % 2 ^ 32 / 2 ^ 28 = _
          omega
      cases hc : c.step (decode w).opCode w with
      | some c' =>
        rw [hc] at h
        rw [Processor.perform_of_step (q := ⟨c, memory, size, none⟩) hc] at hstep
        apply Computer.Sound.disciplined ⟨hsupported, fun htrap => (by cases hstep.symm.trans htrap)⟩
        intro d hd
        cases hd with
        | instruction hd =>
          obtain rfl := Except.ok.inj (hstep.symm.trans hd)
          exact ih h
        | write hd => cases hstep.symm.trans hd
      | none =>
        rw [hc] at h
        simp only [Bool.and_eq_true, Bool.or_eq_true, decide_eq_true_eq] at h
        obtain ⟨htrap, h⟩ := h
        have hcall (h2 : c.gpr 2 = scWrite) : c.gpr 6 = 1 ∧ c.gpr 4 = string ∧ c.advance.traced text string n = true := by
          rcases h with h | ⟨⟨h6, h4⟩, h⟩
          · exact absurd h2 h
          · exact ⟨h6, h4, h⟩
        rw [htrap] at hstep
        have hsound : Computer.Sound ⟨⟨c, memory, size, none⟩, output⟩ := by
          refine ⟨hsupported, fun _ h2 => ?_⟩
          obtain ⟨h6, h4, -⟩ := hcall h2
          have hid : (c.gpr 6).toInt = consoleOutput := by
            rw [h6]
            rfl
          exact ⟨hid, bytes, h4 ▸ hs c⟩
        apply hsound.disciplined
        intro d hd
        cases hd with
        | instruction hd => cases hstep.symm.trans hd
        | write _ h2 =>
          obtain ⟨-, -, hn⟩ := hcall h2
          exact ih hn

end Nachos
