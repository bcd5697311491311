import Nachos.UserProg.ConsoleOutput

namespace Nachos

open Buffer Machine Instruction Reply

def jal (target : Word) : Word := .ofNat 32 (3 * 2 ^ 26 + target.toNat / 4)

-- `addiu $2,$0,sc`, `syscall`, `j $31` and its delay slot
def stub (sc : Nat) : List Word := [.ofNat 32 (0x24020000 + sc), 0x0000000c, 0x03e00008, 0]

def scExit : Nat := 1

def numCalls : Nat := 11

def stubAddress (sc : Nat) : Word := .ofNat 32 (16 * (sc + 1))

/-- `start.s`: `__start`, which calls `main` and then `Exit(0)`, and the stubs. -/
def startText (main : Word) : List Word :=
  [jal main, 0, jal (stubAddress scExit), 0x00002021] ++ (List.range numCalls).flatMap stub

namespace Processor

variable {q : Processor} {main : Word} {i : Nat}

structure Linked (main : Word) (q : Processor) : Prop where
  target : 4 ∣ main.toNat ∧ main.toNat < 2 ^ 28
  size : 192 ≤ q.size
  text : ∀ i w, (startText main)[i]? = some w → q.memory.wordAt (4 * i) = w

theorem startText_length (main : Word) : (startText main).length = 48 := rfl

theorem startText_stub {sc : Nat} (h : sc < numCalls) (j : Nat) (hj : j < 4) :
    (startText main)[4 + 4 * sc + j]? = (stub sc)[j]? := by
  have h11 : numCalls = 11 := rfl
  rw [h11] at h
  interval_cases sc
  all_goals
    interval_cases j
    all_goals rfl

theorem decode_jal {target : Word} (h4 : 4 ∣ target.toNat) (hlt : target.toNat < 2 ^ 28) :
    (decode (jal target)).opCode = .jal ∧ 4 * ((jal target).toNat % 2 ^ 26) = target.toNat := by
  have hw : (jal target).toNat = 3 * 2 ^ 26 + target.toNat / 4 := by
    rw [jal, BitVec.toNat_ofNat, Nat.mod_eq_of_lt]
    omega
  have hop : low6 (jal target >>> 26) = 3 := by
    apply Fin.ext
    change ((jal target >>> 26).setWidth 6).toNat = 3
    rw [BitVec.toNat_setWidth, BitVec.toNat_ushiftRight, Nat.shiftRight_eq_div_pow, hw]
    omega
  constructor
  · simp only [decode, hop]
    rfl
  · rw [hw]
    omega

theorem Coded.call {text : List Word} (h : Coded text q) (hat : q.At i) {target : Word} (h4 : 4 ∣ target.toNat)
    (hlt : target.toNat < 2 ^ 28) (hi : 4 * (i + 1) < 2 ^ 28) (hw : text[i]? = some (jal target)) :
    q.step = .ok (q.called (.ofNat 32 (4 * (i + 2))) target) := by
  obtain ⟨hop, hindex⟩ := decode_jal h4 hlt
  have hlink : q.cpu.nextPC + 4 = .ofNat 32 (4 * (i + 2)) := by
    rw [hat.2, Nat.mul_add 4 (i + 1) 1, BitVec.ofNat_add]
    rfl
  rw [h.step hat.1 hw hop, perform_jal hindex, hlink]
  rw [hat.2, BitVec.toNat_ofNat]
  omega

namespace Linked

theorem coded (h : Linked main q) : Coded (startText main) q :=
  ⟨h.size, by rw [startText_length]; decide, h.text⟩

theorem congr {q' : Processor} (h : Linked main q) (hm : q'.memory = q.memory) (hs : q'.size = q.size) : Linked main q' :=
  ⟨h.target, hs ▸ h.size, fun i w hw => hm ▸ h.text i w hw⟩

theorem addiu_stub {sc : Nat} (hsc : sc < numCalls) : (decode (.ofNat 32 (0x24020000 + sc))).opCode = .addiu ∧
    Fin.ofNat 32 ((BitVec.ofNat 32 (0x24020000 + sc)).toNat / 2 ^ 21) = 0 ∧
    Fin.ofNat 32 ((BitVec.ofNat 32 (0x24020000 + sc)).toNat / 2 ^ 16) = 2 ∧
    ((BitVec.ofNat 32 (0x24020000 + sc)).setWidth 16).toInt = sc := by
  have h11 : numCalls = 11 := rfl
  rw [h11] at hsc
  interval_cases sc
  all_goals decide

theorem calls (h : Linked main q) (hz : q.cpu.gpr 0 = 0) {sc : Nat} (hsc : sc < numCalls) (hat : q.At (4 + 4 * sc)) :
    q.step = .ok (q.assigned 2 (.ofNat 32 sc)) ∧ (q.assigned 2 (.ofNat 32 sc)).At (4 + 4 * sc + 1) ∧
      (q.assigned 2 (.ofNat 32 sc)).step = .error .syscallException := by
  obtain ⟨hop, hrs, hrt, himm⟩ := addiu_stub hsc
  obtain ⟨hstep, hnext, hc⟩ := h.coded.addiu hz hat _ 2 (.ofNat 32 sc) (startText_stub hsc 0 (by decide)) ⟨hop, hrs⟩ hrt
    (by rw [himm, BitVec.ofInt_natCast])
  exact ⟨hstep, hnext, hc.syscall hnext (startText_stub hsc 1 (by decide))⟩

theorem returns (h : Linked main q) {sc : Nat} (hsc : sc < numCalls) (hat : q.At (4 + 4 * sc + 2)) :
    ∃ q', Steps Next q 2 q' ∧ q'.cpu.pc = q.cpu.gpr 31 ∧ q'.cpu.nextPC = q.cpu.gpr 31 + 4 ∧ q'.cpu.gpr = q.cpu.gpr ∧
      q'.memory = q.memory ∧ q'.size = q.size := by
  have hjr : q.step = .ok (q.jumped (q.cpu.gpr 31)) := by
    rw [h.coded.step hat.1 (startText_stub hsc 2 (by decide)) (show (decode 0x03e00008).opCode = .jr by decide)]
    exact perform_jr (by decide)
  have hl : Linked main (q.jumped (q.cpu.gpr 31)) := h.congr rfl rfl
  have hnop := hl.coded.nop (i := 4 + 4 * sc + 3) hat.2 (startText_stub hsc 3 (by decide))
  exact ⟨_, .succ (.succ .zero hjr) hnop, rfl, rfl, rfl, rfl, rfl⟩

theorem start (h : Linked main q) (hat : q.At 0) : ∃ q', Steps Next q 2 q' ∧ q'.cpu.pc = main ∧
    q'.cpu.nextPC = main + 4 ∧ q'.cpu.gpr = Function.update q.cpu.gpr 31 8 ∧ q'.memory = q.memory ∧ q'.size = q.size := by
  have hjal := h.coded.call hat h.target.1 h.target.2 (by decide) rfl
  have hl : Linked main (q.called (.ofNat 32 8) main) := h.congr rfl rfl
  have hnop := hl.coded.nop (i := 1) ((put_nextPC q.cpu 31 (.ofNat 32 8)).trans hat.2) rfl
  exact ⟨_, .succ (.succ .zero hjal) hnop, rfl, rfl, rfl, rfl, rfl⟩

theorem exit (h : Linked main q) (hz : q.cpu.gpr 0 = 0) (hat : q.At 2) : ∃ q', Steps Next q 3 q' ∧
    q'.step = .error .syscallException ∧ q'.loading = none ∧ q'.cpu.gpr 2 = .ofNat 32 scExit ∧ q'.cpu.gpr 4 = 0 := by
  have hjal := h.coded.call hat (show 4 ∣ (stubAddress scExit).toNat by decide) (by decide) (by decide) rfl
  obtain ⟨q₁, hq₁⟩ : ∃ q₁, q₁ = q.called (.ofNat 32 16) (stubAddress scExit) := ⟨_, rfl⟩
  have hl₁ : Linked main q₁ := hq₁ ▸ h.congr rfl rfl
  have hgpr₁ (i : Fin numGPRegs) (hi : i ≠ 31) : q₁.cpu.gpr i = q.cpu.gpr i := by
    rw [hq₁]
    exact Function.update_of_ne hi ..
  have hpc₁ : q₁.cpu.pc = .ofNat 32 (4 * 3) := by
    rw [hq₁]
    exact (put_nextPC q.cpu 31 (.ofNat 32 16)).trans hat.2
  have hnext₁ : q₁.cpu.nextPC = stubAddress scExit := by rw [hq₁, called, Cpu.jump]
  have hmove : q₁.step = .ok (q₁.assigned 4 0) := by
    rw [hl₁.coded.step hpc₁ (w := 0x00002021) rfl (show (decode 0x00002021).opCode = .addu by decide),
      perform_addu (show _ = 0 by decide) (show _ = 0 by decide) (show _ = 4 by decide), hgpr₁ 0 (by decide), hz]
    rfl
  have hl₂ : Linked main (q₁.assigned 4 0) := hl₁.congr rfl rfl
  have hat₂ : (q₁.assigned 4 0).At (4 + 4 * scExit) :=
    at_next (i := 4 + 4 * scExit - 1) ((put_nextPC q₁.cpu 4 0).trans hnext₁)
  have hz₂ : (q₁.assigned 4 0).cpu.gpr 0 = 0 := by
    change Function.update q₁.cpu.gpr 4 0 0 = 0
    rw [Function.update_of_ne (by decide), hgpr₁ 0 (by decide), hz]
  obtain ⟨hcall, -, htrap⟩ := hl₂.calls hz₂ (show scExit < numCalls by decide) hat₂
  refine ⟨_, .succ (.succ (.succ .zero hjal) (hq₁ ▸ hmove)) hcall, htrap, rfl, rfl, ?_⟩
  change Function.update (Function.update q₁.cpu.gpr 4 0) 2 (.ofNat 32 scExit) 4 = 0
  rw [Function.update_of_ne (by decide), Function.update_self]

theorem write (h : Linked main q) (hz : q.cpu.gpr 0 = 0) (hat : q.At 32) (hid : (q.cpu.gpr 6).toInt = consoleOutput)
    {text : List Byte} (ht : q.Text (q.cpu.gpr 4) text) (output : List Byte) : ∃ q',
      Steps Computer.Next ⟨q, output⟩ 4 ⟨q', output ++ text⟩ ∧ q'.cpu.pc = q.cpu.gpr 31 ∧
      q'.cpu.nextPC = q.cpu.gpr 31 + 4 ∧ q'.cpu.gpr = Function.update q.cpu.gpr 2 7 ∧ q'.memory = q.memory := by
  obtain ⟨hcall, hat₁, htrap⟩ := h.calls hz (show 7 < numCalls by decide) hat
  have hgpr (i : Fin numGPRegs) (hi : i ≠ 2) : (q.assigned 2 (.ofNat 32 7)).cpu.gpr i = q.cpu.gpr i :=
    Function.update_of_ne hi ..
  have hl : Linked main (q.assigned 2 (.ofNat 32 7)).resumed := h.congr rfl rfl
  obtain ⟨q', hq', hpc, hnext, hg, hm, -⟩ := hl.returns (show 7 < numCalls by decide) hat₁.advance
  have hwrite : Computer.Next ⟨q.assigned 2 (.ofNat 32 7), output⟩ ⟨(q.assigned 2 (.ofNat 32 7)).resumed, output ++ text⟩ := by
    refine .write htrap rfl ?_ ?_
    · rw [hgpr 6 (by decide)]
      exact hid
    · rw [hgpr 4 (by decide)]
      exact ht.congr rfl rfl
  have hstub : Steps Computer.Next ⟨q, output⟩ 2 _ := .succ (.succ .zero (.instruction hcall)) hwrite
  refine ⟨q', hstub.trans (Computer.instructions _ hq'), ?_, ?_, hg, hm⟩
  · exact hpc.trans (hgpr 31 (by decide))
  · rw [hnext]
    exact congrArg (· + 4) (hgpr 31 (by decide))

end Linked

end Processor

namespace Kernel

open Processor

variable {k k₀ : Kernel} {s : AddrSpace} {f : UnixFile} {q : Processor} {d e : Computer} {main : Word} {c : Nat}

theorem View.gpr_zero (h : View k s f q) : q.cpu.gpr 0 = 0 := by
  rw [h.cpu, visible_gpr, if_pos rfl]

/-- After `n` instructions the program traps, and `ExceptionHandler` is called with the registers `gpr`. -/
def Requests (k : Kernel) (n : Nat) (gpr : Fin numGPRegs → Word) : Prop :=
  ∃ k₁ k₂, Observed CallStep CallSilent k n k₁ ∧ k₁.turn = .ok (.handler .syscallException k₂) ∧
    ∀ i, k₂.registers (gpReg i) = gpr i

theorem Observed.calls {n : Nat} {k' : Kernel} (h : Observed UserStep Silent k n k') :
    Observed CallStep CallSilent k n k' := by
  induction h with
  | start => exact .start
  | silent e _ hs he ih => exact ih.silent (.user e) hs he
  | visible e _ hs he ih => exact ih.visible (.user e) hs he

theorem Executes.requests (hd : d.Disciplined) (h : Executes 0 d k e) {n : Nat} (hn : Steps Next e.processor n q)
    (hq : q.step = .error .syscallException) (hl : q.loading = none) : k.Requests n q.cpu.gpr := by
  obtain ⟨k₁, hobs, hr⟩ := (call_serves hd).run h (e.instructions hn)
  obtain ⟨m, hm⟩ := hr.reached
  obtain ⟨k₂, k₃, s, f, t, hobs', -, hturn, -, -, hview⟩ := hr.runs.traps (hd.processor hm) hq
  refine ⟨k₂, k₃, hobs.trans (Observed.calls hobs'), hturn, fun i => hview.gpr ?_⟩
  rw [hl]
  exact (Option.some_ne_none i).symm

structure Serviced (main : Word) (k : Kernel) (e : Computer) : Prop where
  request : ∀ sc < numCalls, e.processor.At (4 + 4 * sc) →
    k.Requests 1 (Function.update e.processor.cpu.gpr 2 (.ofNat 32 sc))
  write : e.processor.At 32 → (e.processor.cpu.gpr 6).toInt = consoleOutput → ∀ text,
    e.processor.Text (e.processor.cpu.gpr 4) text → ∃ k' q, Observed CallStep CallSilent k 4 k' ∧ k'.Shown q ∧
      q.cpu.pc = e.processor.cpu.gpr 31 ∧ q.cpu.nextPC = e.processor.cpu.gpr 31 + 4 ∧
      q.cpu.gpr = Function.update e.processor.cpu.gpr 2 7 ∧ q.memory = e.processor.memory ∧ k'.output 1 = e.output ++ text
  exit : e.processor.At 2 → ∃ gpr, k.Requests 3 gpr ∧ gpr 2 = .ofNat 32 Nachos.scExit ∧ gpr 4 = 0

theorem Executes.serviced (hd : d.Disciplined) (h : Executes 0 d k e) (hl : Processor.Linked main e.processor) :
    k.Serviced main e := by
  obtain ⟨s, f, hview, -⟩ := h.runs.view
  have hz := hview.gpr_zero
  constructor
  · intro sc hsc hat
    obtain ⟨hcall, -, htrap⟩ := hl.calls hz hsc hat
    exact h.requests hd (.succ .zero hcall) htrap rfl
  · intro hat hid text ht
    obtain ⟨q, hsteps, hpc, hnext, hgpr, hm⟩ := hl.write hz hat hid ht e.output
    obtain ⟨k', hobs, hr⟩ := (call_serves hd).run h hsteps
    exact ⟨k', q, hobs, hr.shown, hpc, hnext, hgpr, hm, hr.output⟩
  · intro hat
    obtain ⟨q, hsteps, htrap, hload, hgpr₂, hgpr₄⟩ := hl.exit hz hat
    exact ⟨q.cpu.gpr, h.requests hd hsteps htrap hload, hgpr₂, hgpr₄⟩

def helloText : List Word := startText 0xd0 ++ [0, 0, 0, 0] ++
  [0x03e08021, 0x240400ec, 0x24060001, jal 0x80, 0, 0x02000008, 0, 0x00000041]

end Kernel

namespace Kernel

open AddrSpace Processor

variable {k k₀ k' : Kernel} {s : AddrSpace} {f executable : UnixFile} {filename : Name} {noffH : NoffHeader} {main : Word}

theorem hello_starts : (programHeader helloText).size.toNat ≤ 2 ^ 32 - 256 ∧
    ∃ k₀ s f, (programKernel helloText).startProcess [112] = .ok (some k₀) ∧ k₀.space = .ok s ∧
      k₀.files s.swapFileName = some f ∧ s.numPages.toNat ≤ numPhysPages ∧
      Processor.Linked 0xd0 (.boot f.bytes (s.numPages.toNat * pageSize)) ∧
      Processor.Coded helloText (.boot f.bytes (s.numPages.toNat * pageSize)) ∧
      Processor.Text (.boot f.bytes (s.numPages.toNat * pageSize)) 0xec [0x41] ∧
      Computer.Disciplined ⟨.boot f.bytes (s.numPages.toNat * pageSize), k₀.output 1⟩ := by
  obtain ⟨hw, k₀, s, f, h, hs, hf, hfit, hc, ht, hd⟩ :=
    traced_starts helloText (i := 59) (n := 20) (by decide) rfl (by decide +kernel)
  have hsize : 4 * helloText.length ≤ s.numPages.toNat * pageSize := hc.size
  refine ⟨hw, k₀, s, f, h, hs, hf, hfit, ⟨by decide, (show 192 ≤ 4 * helloText.length by decide).trans hsize, ?_⟩, hc, ht, hd⟩
  intro i w hi
  obtain ⟨hlt, -⟩ := List.getElem?_eq_some_iff.mp hi
  apply hc.text
  rw [helloText, List.append_assoc, List.getElem?_append_left hlt, hi]

theorem hello_calls {q : Processor} (h : Coded helloText q) (hz : q.cpu.gpr 0 = 0) (hat : q.At 52) : ∃ q', Steps Next q 5 q' ∧
    q'.At 32 ∧ q'.cpu.gpr 6 = 1 ∧ q'.cpu.gpr 4 = 0xec ∧ q'.memory = q.memory ∧ q'.size = q.size := by
  have h₀ := h.step hat.1 (w := 0x03e08021) rfl (show _ = .addu by decide)
  rw [perform_addu (show _ = 31 by decide) (show _ = 0 by decide) (show _ = 16 by decide)] at h₀
  obtain ⟨v, hv⟩ : ∃ v, v = BitVec.ofNat 32 ((q.cpu.gpr 31).toNat + (q.cpu.gpr 0).toNat) := ⟨_, rfl⟩
  rw [← hv] at h₀
  have hc₁ : Coded helloText (q.assigned 16 v) := h.congr rfl rfl
  obtain ⟨h₁, hat₂, hc₂⟩ := hc₁.addiu hz (hat.assigned 16 v) 0x240400ec 4 0xec rfl (by decide) (by decide) (by decide)
  obtain ⟨h₂, hat₃, hc₃⟩ := hc₂.addiu hz hat₂ 0x24060001 6 1 rfl (by decide) (by decide) (by decide)
  have h₃ := hc₃.call hat₃ (show 4 ∣ (0x80 : Word).toNat by decide) (by decide) (by decide) rfl
  have hc₄ : Coded helloText ((((q.assigned 16 v).assigned 4 0xec).assigned 6 1).called (.ofNat 32 (4 * 57)) 0x80) :=
    hc₃.congr rfl rfl
  have h₄ := hc₄.nop (i := 56) ((put_control _ _ _).2.2.trans hat₃.2) rfl
  exact ⟨_, .succ (.succ (.succ (.succ (.succ .zero h₀) h₁) h₂) h₃) h₄, ⟨rfl, rfl⟩, rfl, rfl, rfl, rfl⟩

/-- A program that is linked with `start.s`, and that fits in memory, starts at `main` and comes to the handler with
what it asks for: a stub keeps the registers of its caller, `Write` comes back to it, and from `main` the program goes
to `Exit(0)`. -/
theorem startProcess_linked (hb : k.Booted) (he : k.files filename = some executable)
    (hh : readHeader k.host k.garbage executable = .ok noffH) (hw : noffH.size.toNat ≤ 2 ^ 32 - 256)
    (h : k.startProcess filename = .ok (some k₀)) (hs : k₀.space = .ok s) (hf : k₀.files s.swapFileName = some f)
    (hd : Computer.Disciplined ⟨.boot f.bytes (s.numPages.toNat * pageSize), k₀.output 1⟩)
    (hfit : s.numPages.toNat ≤ numPhysPages) (hl : Processor.Linked main (.boot f.bytes (s.numPages.toNat * pageSize))) :
    (∃ k' q, Observed CallStep CallSilent k₀ 2 k' ∧ k'.Shown q ∧ q.cpu.pc = main ∧ q.cpu.nextPC = main + 4 ∧
      q.cpu.gpr 31 = 8 ∧ q.cpu.gpr 29 = .ofNat 32 (s.numPages.toNat * pageSize) - 16) ∧
    ∀ n k', Observed CallStep CallSilent k₀ n k' →
      ∃ e, Steps Computer.Next ⟨.boot f.bytes (s.numPages.toNat * pageSize), k₀.output 1⟩ n e ∧ k'.Shown e.processor ∧
        k'.output 1 = e.output ∧ (Processor.Linked main e.processor → k'.Serviced main e) := by
  have hstart := startProcess_executes 0 hb he hh hw h hs hf hfit
  constructor
  · obtain ⟨q, hsteps, hpc, hnext, hgpr, -, -⟩ := hl.start ⟨rfl, rfl⟩
    obtain ⟨k', hobs, hr⟩ := (call_serves hd).run hstart (Computer.instructions _ hsteps)
    refine ⟨k', q, hobs, hr.shown, hpc, hnext, ?_, ?_⟩
    · rw [hgpr, Function.update_self]
    · rw [hgpr, Function.update_of_ne (by decide)]
      simp only [Processor.boot, Function.update_self]
  · intro n k' hn
    obtain ⟨e, hsteps, hr⟩ := (call_simulates 0 hd).run hstart hn
    exact ⟨e, hsteps, hr.shown, hr.output, hr.serviced hd⟩

theorem startProcess_linked_hello : ∃ k₀ s f, (programKernel helloText).startProcess [112] = .ok (some k₀) ∧
    k₀.space = .ok s ∧ k₀.files s.swapFileName = some f ∧ (∃ k' q, Observed CallStep CallSilent k₀ 2 k' ∧ k'.Shown q ∧
      q.cpu.pc = 0xd0 ∧ q.cpu.gpr 31 = 8) ∧
    ∃ k', Observed CallStep CallSilent k₀ 11 k' ∧ k'.output 1 = k₀.output 1 ++ [0x41] := by
  obtain ⟨hw, k₀, s, f, h, hs, hf, hfit, hl, hc, ht, hd⟩ := hello_starts
  obtain ⟨⟨k', q, hobs, hq, hpc, -, hra, -⟩, hall⟩ := startProcess_linked (programKernel_booted _) (programKernel_files _)
    (programFile_header _ _) hw h hs hf hd hfit hl
  refine ⟨k₀, s, f, h, hs, hf, ⟨k', q, hobs, hq, hpc, hra⟩, ?_⟩
  obtain ⟨q₂, hsteps, hpc₂, hnext₂, hgpr₂, hm₂, hsize₂⟩ := hl.start ⟨rfl, rfl⟩
  have hz₂ : q₂.cpu.gpr 0 = 0 := by
    rw [hgpr₂]
    rfl
  obtain ⟨q₃, hcalls, hat₃, h6, h4, hm₃, hsize₃⟩ := hello_calls (hc.congr hm₂ hsize₂) hz₂ ⟨hpc₂, hnext₂⟩
  have hstart := startProcess_executes 0 (programKernel_booted _) (programKernel_files _) (programFile_header _ _) hw h hs hf hfit
  obtain ⟨k₃, hobs₃, -⟩ := (call_serves hd).run hstart (Computer.instructions _ (hsteps.trans hcalls))
  obtain ⟨e, hsteps₃, -, -, hserv⟩ := hall 7 k₃ hobs₃
  obtain rfl := hsteps₃.unique Computer.next_unique (Computer.instructions _ (hsteps.trans hcalls))
  have hwrite := (hserv (hl.congr (hm₃.trans hm₂) (hsize₃.trans hsize₂))).write hat₃ (by rw [h6]; rfl) [0x41]
    (by rw [h4]; exact ht.congr (hm₃.trans hm₂) (hsize₃.trans hsize₂))
  obtain ⟨k₄, q₄, hobs₄, -, -, -, -, -, hout⟩ := hwrite
  exact ⟨k₄, hobs₃.trans hobs₄, hout⟩

end Kernel

end Nachos
