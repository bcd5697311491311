import Nachos.UserProg.ByteCounts
import Nachos.UserProg.Simulation

namespace Nachos

open Buffer Machine Instruction Reply

namespace Processor

-- a system call comes back, with the program counters advanced as `ExceptionHandler` does
def resumed (q : Processor) : Processor := { q with cpu := q.cpu.advance, loading := none }

def Spells (q : Processor) : Word → List Byte → Prop
  | _, [] => True
  | a, b :: bytes => q.Inside a 1 ∧ q.memory a.toNat = b ∧ q.Spells (a + 1) bytes

structure Text (q : Processor) (a : Word) (text : List Byte) : Prop where
  spells : q.Spells a (text ++ [0#8])
  noNul : 0#8 ∉ text
  short : text.length < Kernel.chSize

theorem Spells.congr {q q' : Processor} {a : Word} {bytes : List Byte} (h : q.Spells a bytes) (hm : q'.memory = q.memory)
    (hs : q'.size = q.size) : q'.Spells a bytes := by
  induction bytes generalizing a with
  | nil => trivial
  | cons b bytes ih =>
    obtain ⟨⟨hdvd, hle⟩, hbyte, hrest⟩ := h
    exact ⟨⟨hdvd, hs ▸ hle⟩, hm ▸ hbyte, ih hrest⟩

theorem Text.congr {q q' : Processor} {a : Word} {text : List Byte} (h : q.Text a text) (hm : q'.memory = q.memory)
    (hs : q'.size = q.size) : q'.Text a text :=
  ⟨h.spells.congr hm hs, h.noNul, h.short⟩

theorem Spells.unique {q : Processor} {a : Word} {text text' : List Byte} (h : q.Spells a (text ++ [0#8]))
    (h' : q.Spells a (text' ++ [0#8])) (hz : 0#8 ∉ text) (hz' : 0#8 ∉ text') : text = text' := by
  induction text generalizing a text' with
  | nil =>
    cases text' with
    | nil => rfl
    | cons b text' => exact absurd (List.mem_cons.mpr (.inl (h.2.1.symm.trans h'.2.1))) hz'
  | cons b text ih =>
    cases text' with
    | nil => exact absurd (List.mem_cons.mpr (.inl (h'.2.1.symm.trans h.2.1))) hz
    | cons b' text' =>
      obtain rfl : b = b' := h.2.1.symm.trans h'.2.1
      exact congrArg _ (ih h.2.2 h'.2.2 (List.not_mem_of_not_mem_cons hz) (List.not_mem_of_not_mem_cons hz'))

end Processor

def scWrite : Word := 7

def consoleOutput : Int := 1

structure Computer where
  processor : Processor
  output : List Byte

inductive Computer.Next : Computer → Computer → Prop
  | instruction {c : Computer} {q : Processor} (h : c.processor.step = .ok q) : Next c { c with processor := q }
  | write {c : Computer} {text : List Byte} (h : c.processor.step = .error .syscallException)
      (hcall : c.processor.cpu.gpr 2 = scWrite) (hid : (c.processor.cpu.gpr 6).toInt = consoleOutput)
      (ht : c.processor.Text (c.processor.cpu.gpr 4) text) :
      Next c ⟨c.processor.resumed, c.output ++ text⟩

/-- The program never leaves what the interpreter supports, and calls `Write` only with a string for the console. -/
structure Computer.Disciplined (c : Computer) : Prop where
  supported : ∀ n d, Steps Next c n d → d.processor.Supported
  write : ∀ n d, Steps Next c n d → d.processor.step = .error .syscallException → d.processor.cpu.gpr 2 = scWrite →
    (d.processor.cpu.gpr 6).toInt = consoleOutput ∧ ∃ text, d.processor.Text (d.processor.cpu.gpr 4) text

namespace Kernel

variable {k k₁ k' : Kernel} {s : AddrSpace} {f : UnixFile} {q : Processor} {a : Word} {c : Nat}

/-- What happens to a program until it ends; `write` is a call of `Write` that comes back. -/
inductive CallEvent where
  | user (e : Event)
  | write

def CallStep (k : Kernel) (e : CallEvent) (k' : Kernel) : Prop :=
  match e with
  | .user e => UserStep k e k'
  | .write => ∃ k₁ fuel, k.turn = .ok (.handler .syscallException k₁) ∧ k₁.registers resultReg = Nachos.scWrite ∧
      k₁.scWrite fuel = .ok (.returned () k')

def CallSilent (e : CallEvent) : Prop :=
  match e with
  | .user e => Silent e
  | .write => False

namespace View

theorem advance (h : View k s f q) (hl : k.registers loadReg = 0 ∧ k.registers loadValueReg = 0) :
    View k.advancePC s f q.resumed := by
  have hother {r : Register} (hr : r ∉ [prevPCReg, pcReg, nextPCReg]) : k.advancePC.registers r = k.registers r :=
    k.advancePC_other hr
  have hload := hother (r := loadReg) (by decide)
  have hvalue := hother (r := loadValueReg) (by decide)
  have hzero := hother (r := gpReg 0) (by decide)
  have hlt : (k.advancePC.registers loadReg).toNat < numGPRegs := by
    rw [hload, hl.1]
    decide
  change View { k with registers := k.advancePC.registers } s f q.resumed
  refine h.withRegisters hlt rfl rfl (Eq.symm ?_) (hzero.trans h.zero)
    (.inl ⟨hload.trans hl.1, hvalue.trans hl.2⟩)
  have hctl := visible_control (m := k.machine s) h.paged.loadReg
  rw [← h.cpu] at hctl
  apply visible_ext hlt
  · intro i
    change _ = q.cpu.gpr i
    rw [h.cpu, visible_gpr, visible_gpr]
    change (if i = 0 then 0 else if (k.advancePC.registers loadReg).toNat = i then k.advancePC.registers loadValueReg
      else k.advancePC.registers (gpReg i)) = if i = 0 then 0 else if (k.registers loadReg).toNat = i then
        k.registers loadValueReg else k.registers (gpReg i)
    have hi : gpReg i ∉ [prevPCReg, pcReg, nextPCReg] := by
      have hne {r : Register} (hr : numGPRegs ≤ (r : Nat)) : gpReg i ≠ r := gpReg_ne hr
      simp [hne (r := prevPCReg) (by decide), hne (r := pcReg) (by decide), hne (r := nextPCReg) (by decide)]
    rw [hload, hvalue, hother hi]
  · exact (hother (by decide)).trans hctl.1.symm
  · exact (hother (by decide)).trans hctl.2.1.symm
  · exact hctl.2.2.2.symm
  · exact congrArg (· + 4) hctl.2.2.2.symm

theorem trap_unloaded (h : View k s f q) {which : ExceptionType} (ht : k.turn = .ok (.handler which k₁)) :
    k₁.registers loadReg = 0 ∧ k₁.registers loadValueReg = 0 := by
  simp only [turn, h.paged.space, ok_bind] at ht
  obtain ⟨x, hx, ht⟩ := bind_eq_ok.mp ht
  cases x with
  | value _ m => cases ht
  | exception w m =>
    obtain ⟨rfl, rfl⟩ := Turn.handler.inj (Except.ok.inj ht)
    obtain ⟨v, -, htrap⟩ := (oneInstruction_precise h.sane).trapped hx
    obtain ⟨t, u, -, -, rfl⟩ := htrap.mapping
    exact ⟨rfl, rfl⟩

theorem readMem_trap (h : View k s f q) {which : ExceptionType}
    (ht : (k.machine s).translate a 1 false = .ok (.fail which)) :
    k.readMem a 1 = proceed ((k.resume s { k.machine s with registers := (k.machine s).trapRegisters a }).trap which)
      (fun _ k => .ok (.returned none k)) := by
  have hl : ((k.machine s).registers loadReg).toNat < numGPRegs := h.paged.loadReg
  rw [readMem, access, h.paged.space, ok_bind, readMem_of_fail ht, raiseException_eq hl]
  rfl

theorem readMem_cases (h : View k s f q) (a : Word) :
    (¬q.Inside a 1 ∧ ∀ r k', k.readMem a 1 ≠ .ok (.returned r k')) ∨
    (q.Inside a 1 ∧ ∃ k' t, k.readMem a 1 = .ok (.returned (some ((q.memory a.toNat).signExtend 32)) k') ∧
      SameMapping s.pageTable t ∧ k'.bitMap = k.bitMap ∧ View k' { s with pageTable := t } f q) ∨
    (q.Inside a 1 ∧ a.toNat / pageSize ∈ coldPages s ∧ (k.bitMap.numClear = 0 ∧ k.readMem a 1 = .ok .exited ∨
      ∃ k' i, k.readMem a 1 = .ok (.returned none k') ∧ View k' (s.enter (a.toNat / pageSize) i) f q ∧
        k'.bitMap.numClear + 1 = k.bitMap.numClear)) := by
  rcases h.translate (.inl rfl) a false with ⟨hout, ht⟩ | ⟨hin, hp, hv, ht⟩ | ⟨hin, ha, hp, hv, ht⟩
  · refine .inl ⟨hout, fun r k' hr => ?_⟩
    rw [h.readMem_trap ht] at hr
    exact proceed_fatal_ne_returned hr
  · refine .inr (.inr ⟨hin, ?_, ?_⟩)
    · exact Finset.mem_filter.mpr ⟨Finset.mem_range.mpr hp, hv⟩
    · obtain ⟨t, ht', -, -, hview⟩ := h.trapped a
      obtain rfl := Option.some.inj ht'
      have hbad : (k.resume s { k.machine s with registers := (k.machine s).trapRegisters a }).registers badVAddrReg = a :=
        trapRegisters_badVAddr (m := k.machine s) h.paged.loadReg
      have hserve := View.serve hview (by
        rw [hbad]
        exact Finset.mem_filter.mpr ⟨Finset.mem_range.mpr hp, hv⟩)
      rw [h.readMem_trap ht]
      rw [hbad] at hserve
      rcases hserve with ⟨hz, he⟩ | ⟨-, k₂, he, i, hv₂, hcount⟩
      · exact .inl ⟨hz, by rw [he]; rfl⟩
      · exact .inr ⟨k₂, i, by rw [he]; rfl, hv₂, hcount⟩
  · have hr := readMem_resident h.paged.space (.inl rfl) ha (h.paged.isResident hp hv)
    have hbyte : loaded k.host k.mainMemory (frameAddress s.pageTable a.toNat) 1 = (q.memory a.toNat).signExtend 32 := by
      have hres := h.paged.resident _ hp hv _ (Nat.mod_lt a.toNat (by rw [pageSize_eq]; omega))
      rw [Nat.div_add_mod'] at hres
      rw [← hres]
      rfl
    rw [hbyte] at hr
    exact .inr (.inl ⟨hin, _, _, hr, sameMapping_touch _ _ _, rfl, h.fetch a false⟩)

theorem read_resident (h : View k s f q) (hin : q.Inside a 1) (hc : a.toNat / pageSize ∉ coldPages s) :
    ∃ k' t, k.readMem a 1 = .ok (.returned (some ((q.memory a.toNat).signExtend 32)) k') ∧ SameMapping s.pageTable t ∧
      View k' { s with pageTable := t } f q := by
  rcases h.readMem_cases a with ⟨hout, -⟩ | ⟨-, k', t, he, hmap, -, hv⟩ | ⟨-, hcold, -⟩
  · exact absurd hin hout
  · exact ⟨k', t, he, hmap, hv⟩
  · exact absurd hcold hc

theorem reads_resident {text : List Byte} (h : View k s f q) (ht : q.Spells a text)
    (hc : ∀ j < text.length, (a + .ofNat 32 j).toNat / pageSize ∉ coldPages s) : ∃ k', Reads false k a text k' := by
  induction text generalizing k s a with
  | nil => exact ⟨k, .nil k a⟩
  | cons b text ih =>
    obtain ⟨hin, hb, ht⟩ := ht
    obtain ⟨k₁, t, he, hmap, hv⟩ := h.read_resident hin (by simpa using hc 0 (Nat.zero_lt_succ _))
    rw [hb] at he
    obtain ⟨k₂, hr⟩ := ih hv ht fun j hj => by
      have ha : a + 1 + .ofNat 32 j = a + .ofNat 32 (j + 1) := by
        rw [Nat.add_comm j 1, BitVec.ofNat_add, BitVec.add_assoc]
        rfl
      rw [coldPages_congr hmap, ha]
      exact hc (j + 1) (Nat.succ_lt_succ hj)
    exact ⟨k₂, .byte he hr⟩

theorem reads (h : View k s f q) (hroom : k.Roomy c s) {bytes : List Byte} (hr : Reads true k a bytes k') :
    ∃ s', View k' s' f q ∧ k'.Roomy c s' ∧ q.Spells a bytes := by
  induction hr generalizing s with
  | nil => exact ⟨s, h, hroom, trivial⟩
  | @fault k k₁ k₂ a b bytes _ hr _ ih =>
    rcases h.readMem_cases a with ⟨-, hn⟩ | ⟨-, _, _, he, -⟩ | ⟨-, hc, ⟨-, he⟩ | ⟨k₃, i, he, hv, hcount⟩⟩
    · exact absurd hr (hn _ _)
    · cases he.symm.trans hr
    · cases he.symm.trans hr
    · cases he.symm.trans hr
      refine ih hv ?_
      have hcold := coldPages_enter hc i
      unfold Roomy at hroom ⊢
      omega
  | @byte k k₁ k₂ a b bytes hr _ ih =>
    rcases h.readMem_cases a with ⟨-, hn⟩ | ⟨hin, _, t, he, hmap, hb, hv⟩ | ⟨-, -, ⟨-, he⟩ | ⟨k₃, i, he, -, -⟩⟩
    · exact absurd hr (hn _ _)
    · obtain ⟨hbyte, rfl⟩ := returned.inj (Except.ok.inj (he.symm.trans hr))
      have hbyte' : q.memory a.toNat = b := by
        rw [← setWidth_signExtend b, ← Option.some.inj hbyte, setWidth_signExtend]
      obtain ⟨s', hv', hroom', hs⟩ := ih hv (by
        rw [Roomy, coldPages_congr hmap, hb]
        exact hroom)
      exact ⟨s', hv', hroom', hin, hbyte', hs⟩
    · cases he.symm.trans hr
    · cases he.symm.trans hr

theorem reads_spelled (h : View k s f q) (hroom : k.Roomy 0 s) {bytes : List Byte} (hs : q.Spells a bytes) :
    ∃ k', Reads true k a bytes k' := by
  induction bytes generalizing k s a with
  | nil => exact ⟨k, .nil k a⟩
  | cons b bytes ih =>
    obtain ⟨hin, hbyte, hrest⟩ := hs
    have hread {k k₁ : Kernel} {s : AddrSpace} {t : Nat → TranslationEntry} (hroom : k.Roomy 0 s)
        (he : k.readMem a 1 = .ok (.returned (some ((q.memory a.toNat).signExtend 32)) k₁)) (hmap : SameMapping s.pageTable t)
        (hb : k₁.bitMap = k.bitMap) (hv : View k₁ { s with pageTable := t } f q) : ∃ k', Reads true k a (b :: bytes) k' := by
      obtain ⟨k', hk⟩ := ih hv (by
        rw [Roomy, coldPages_congr hmap, hb]
        exact hroom) hrest
      exact ⟨k', .byte (hbyte ▸ he) hk⟩
    rcases h.readMem_cases a with ⟨hn, -⟩ | ⟨-, k₁, t, he, hmap, hb, hv⟩ | ⟨-, hc, ⟨hz, -⟩ | ⟨k₁, i, he, hv, hcount⟩⟩
    · exact absurd hin hn
    · exact hread hroom he hmap hb hv
    · have hpos := Finset.card_pos.mpr ⟨_, hc⟩
      unfold Roomy at hroom
      omega
    · have hcold := coldPages_enter hc i
      have hroom₁ : k₁.Roomy 0 (s.enter (a.toNat / pageSize) i) := by
        unfold Roomy at hroom ⊢
        omega
      -- the page is now in memory
      rcases hv.readMem_cases a with ⟨hn, -⟩ | ⟨-, k₂, t, he₂, hmap, hb, hv₂⟩ | ⟨-, hc', -⟩
      · exact absurd hin hn
      · obtain ⟨k', hk⟩ := hread hroom₁ he₂ hmap hb hv₂
        exact ⟨k', .fault rfl he hk⟩
      · exact absurd (Finset.mem_filter.mp hc').2 (by simp [AddrSpace.enter])

theorem withOutput (h : View k s f q) (output : Int → List Byte) : View { k with output } s f q :=
  ⟨h.paged.congr h.paged.space rfl rfl rfl h.paged.loadReg, h.virtualOption, h.size, h.cpu, h.zero, h.loading⟩

theorem resumed_gpr (h : View k s f q) (hl : k.registers loadReg = 0 ∧ k.registers loadValueReg = 0) (i : Fin numGPRegs) :
    k.advancePC.registers (gpReg i) = q.cpu.gpr i :=
  (h.advance hl).gpr (q := q.resumed) (Option.some_ne_none i).symm

theorem scWrite (h : View k s f q) (hroom : k.Roomy c s) (hl : k.registers loadReg = 0 ∧ k.registers loadValueReg = 0)
    (hid : (q.cpu.gpr 6).toInt = consoleOutput) {text : List Byte} (ht : q.Text (q.cpu.gpr 4) text) {fuel : Nat}
    (hw : k.scWrite fuel = .ok (.returned () k')) :
    ∃ s', View k' s' f q.resumed ∧ k'.Roomy c s' ∧ k'.output 1 = k.output 1 ++ text := by
  have hview := h.advance hl
  have harg1 : k.advancePC.registers arg1Reg = q.cpu.gpr 4 := h.resumed_gpr hl 4
  have harg3 : k.advancePC.registers arg3Reg = q.cpu.gpr 6 := h.resumed_gpr hl 6
  obtain ⟨ch, k₂, hcopy, hw⟩ := proceed_eq_returned.mp hw
  obtain ⟨rest, hch, hreads, hz, -⟩ := reads_of_copyIn hcopy
  have h0 : k.advancePC.registers arg1Reg + .ofNat 32 ([] : List Byte).length = q.cpu.gpr 4 := by
    rw [harg1]
    exact BitVec.add_zero _
  rw [h0] at hreads
  obtain ⟨s', hv, hroom', hs⟩ := hview.reads (c := c) hroom hreads
  have hs' : q.Spells (q.cpu.gpr 4) (rest ++ [0#8]) := hs.congr rfl rfl
  obtain rfl := hs'.unique ht.spells hz ht.noNul
  obtain rfl : ch = rest := hch
  obtain ⟨-, registers, mainMemory, bitMap, ipt, iptVP, fifo, random, processes, hk₂⟩ := hreads.memoryOnly
  have hout : k₂.output = k.output := by
    rw [hk₂]
    rfl
  split_ifs at hw with hnil
  · obtain ⟨-, rfl⟩ := returned.inj (Except.ok.inj hw)
    refine ⟨s', hv, hroom', ?_⟩
    rw [hout, hnil, List.append_nil]
  · have hid' : (k.advancePC.registers arg3Reg).toInt = 1 := by rw [harg3, hid, consoleOutput]
    rw [hid', sWrite, if_pos rfl, ok_bind] at hw
    obtain ⟨-, rfl⟩ := returned.inj (Except.ok.inj hw)
    refine ⟨s', hv.withOutput _, hroom', ?_⟩
    simp [hout]

theorem scWrite_returns (h : View k s f q) (hroom : k.Roomy 0 s) (hl : k.registers loadReg = 0 ∧ k.registers loadValueReg = 0)
    (hid : (q.cpu.gpr 6).toInt = consoleOutput) {text : List Byte} (ht : q.Text (q.cpu.gpr 4) text) :
    ∃ fuel k', k.scWrite fuel = .ok (.returned () k') := by
  have hview := h.advance hl
  have harg1 : k.advancePC.registers arg1Reg = q.cpu.gpr 4 := h.resumed_gpr hl 4
  have harg3 : (k.advancePC.registers arg3Reg).toInt = 1 := (congrArg BitVec.toInt (h.resumed_gpr hl 6)).trans hid
  obtain ⟨k₁, hreads⟩ := hview.reads_spelled hroom (ht.spells.congr rfl rfl)
  have ha : q.cpu.gpr 4 = k.advancePC.registers arg1Reg + .ofNat 32 ([] : List Byte).length := by
    rw [harg1]
    exact (BitVec.add_zero _).symm
  obtain ⟨fuel, hcopy⟩ := hreads.copyIn ha rfl ht.noNul ht.short
  refine ⟨fuel, ?_⟩
  simp only [Kernel.scWrite, hcopy, proceed_returned, harg3]
  split_ifs
  · exact ⟨_, rfl⟩
  · exact ⟨_, rfl⟩

end View

/-- `k` runs the program of `e`, which `d` has reached. -/
structure Executes (c : Nat) (d : Computer) (k : Kernel) (e : Computer) : Prop where
  runs : Runs c e.processor k e.processor
  output : k.output 1 = e.output
  reached : ∃ n, Steps Computer.Next d n e

theorem View.calls (h : View k s f q) (hs : q.Supported) (hroom : k.Roomy c s) {which : ExceptionType}
    (ht : k.turn = .ok (.handler which k₁)) (hne : which ≠ .pageFaultException) :
    ∃ s₁, q.step = .error which ∧ View k₁ s₁ f q ∧ k₁.Roomy c s₁ := by
  rcases h.turn_cases hs with ⟨k₂, q', hk, -⟩ | ⟨k₂, which', hk, hq, -, t, hmap, hb, hv⟩ | ⟨k₂, hk, -⟩
  · cases hk.symm.trans ht
  · cases hk.symm.trans ht
    refine ⟨_, hq, hv, ?_⟩
    rw [Roomy, coldPages_congr hmap, hb]
    exact hroom
  · cases hk.symm.trans ht
    exact absurd rfl hne

theorem turn_memoryOnly {t : Turn} (ht : k.turn = .ok t) :
    (∀ k', t = .completed k' → k.MemoryOnly k') ∧ ∀ which k', t = .handler which k' → k.MemoryOnly k' := by
  obtain ⟨s, hs, ht⟩ := bind_eq_ok.mp ht
  obtain ⟨x, hx, ht⟩ := bind_eq_ok.mp ht
  cases x with
  | value _ m =>
    obtain rfl := Except.ok.inj ht
    refine ⟨fun k' hk => ?_, fun which k' hk => by cases hk⟩
    obtain rfl := Turn.completed.inj hk
    exact .resume hs m
  | exception which m =>
    obtain rfl := Except.ok.inj ht
    refine ⟨fun k' hk => (by cases hk), fun which k' hk => ?_⟩
    obtain ⟨rfl, rfl⟩ := Turn.handler.inj hk
    exact .resume hs m

theorem UserStep.memoryOnly {e : Event} (h : UserStep k e k') : k.MemoryOnly k' := by
  cases e with
  | instruction => exact (turn_memoryOnly h).1 _ rfl
  | pageFault =>
    obtain ⟨k₁, hk, ht⟩ := h
    exact ((turn_memoryOnly hk).2 _ _ rfl).trans (.trap ht)
  | interrupt =>
    obtain ⟨s, m, hs, -, rfl⟩ := h
    exact .resume hs m

theorem UserStep.output {e : Event} (h : UserStep k e k') : k'.output = k.output := h.memoryOnly.output.1

theorem MemoryOnly.observed {n : Nat} (h : Observed UserStep Silent k n k') : k.MemoryOnly k' := by
  induction h with
  | start => exact .refl k
  | silent _ _ hs _ ih => exact ih.trans hs.memoryOnly
  | visible _ _ hs _ ih => exact ih.trans hs.memoryOnly

end Kernel

namespace Computer

theorem next_unique (a b c : Computer) (h : a.Next b) (h' : a.Next c) : b = c := by
  cases h with
  | instruction h =>
    cases h' with
    | instruction h' => rw [Except.ok.inj (h.symm.trans h')]
    | write h' => cases h.symm.trans h'
  | write h hcall hid ht =>
    cases h' with
    | instruction h' => cases h.symm.trans h'
    | write h' hcall' hid' ht' => rw [ht.spells.unique ht'.spells ht.noNul ht'.noNul]

theorem instructions {q : Processor} {n : Nat} (c : Computer) (h : Steps Processor.Next c.processor n q) :
    Steps Next c n { c with processor := q } := by
  induction h with
  | zero => exact .zero
  | succ _ hq ih => exact ih.succ (.instruction hq)

theorem Disciplined.processor {d e : Computer} (h : d.Disciplined) {n : Nat} (hn : Steps Next d n e) :
    e.processor.Disciplined :=
  fun _ _ hm => h.supported _ _ (hn.trans (e.instructions hm))

end Computer

namespace Kernel

open AddrSpace

variable {k k' k₁ : Kernel} {s : AddrSpace} {f : UnixFile} {q : Processor} {c : Nat} {d e : Computer}

theorem Executes.step (h : Executes c d k e) {q : Processor} (hk : Runs c e.processor k' q) (ho : k'.output = k.output)
    (hs : e.processor.Next q) : Executes c d k' { e with processor := q } := by
  obtain ⟨n, hn⟩ := h.reached
  exact ⟨⟨hk.view, 0, .zero⟩, (congrFun ho 1).trans h.output, n + 1, hn.succ (.instruction hs)⟩

theorem call_simulates (c : Nat) (hd : d.Disciplined) :
    Simulates CallStep CallSilent Computer.Next (Executes c d) where
  visible := by
    intro k ev k' e h hs hv
    obtain ⟨n, hn⟩ := h.reached
    cases ev with
    | user ev =>
      obtain ⟨q, hq, hr⟩ := (simulates c (hd.processor hn)).visible k ev k' e.processor h.runs hs hv
      exact ⟨_, .instruction hq, h.step hr (UserStep.output hs) hq⟩
    | write =>
      obtain ⟨k₁, fuel, hk, hcall, hw⟩ := hs
      obtain ⟨s, f, hview, hroom⟩ := h.runs.view
      obtain ⟨s₁, hq, hview₁, hroom₁⟩ := hview.calls (hd.supported n e hn) hroom hk (by decide)
      have hl := hview.trap_unloaded hk
      have hcall' : e.processor.cpu.gpr 2 = Nachos.scWrite := by
        rw [← hview₁.resumed_gpr hl 2, ← hcall]
        exact k₁.advancePC_other (by decide)
      obtain ⟨hid, text, ht⟩ := hd.write n e hn hq hcall'
      obtain ⟨s', hv', hroom', hout⟩ := hview₁.scWrite hroom₁ hl hid ht hw
      refine ⟨_, .write hq hcall' hid ht, ⟨⟨s', f, hv', hroom'⟩, 0, .zero⟩, ?_, n + 1, hn.succ (.write hq hcall' hid ht)⟩
      rw [hout, ((turn_memoryOnly hk).2 _ _ rfl).output.1, h.output]
  silent := by
    intro k ev k' e h hs hv
    obtain ⟨n, hn⟩ := h.reached
    cases ev with
    | user ev =>
      have hr := (simulates c (hd.processor hn)).silent k ev k' e.processor h.runs hs hv
      exact ⟨hr, (congrFun (UserStep.output hs) 1).trans h.output, h.reached⟩
    | write => exact absurd hv id

theorem call_serves (hd : d.Disciplined) : Serves CallStep CallSilent Computer.Next (Executes 0 d) coldCount := by
  intro k e e' h hnext
  obtain ⟨n, hn⟩ := h.reached
  cases hnext with
  | @instruction q hq =>
    rcases serves (hd.processor hn) k e.processor q h.runs hq with ⟨ev, k', hs, hv, hr⟩ | ⟨ev, k', hs, hv, hr, hlt⟩
    · exact .inl ⟨.user ev, k', hs, hv, h.step hr (UserStep.output hs) hq⟩
    · exact .inr ⟨.user ev, k', hs, hv, ⟨hr, (congrFun (UserStep.output hs) 1).trans h.output, h.reached⟩, hlt⟩
  | @write text hq hcall hid ht =>
    obtain ⟨s, f, hview, hroom⟩ := h.runs.view
    rcases hview.turn_cases (hd.supported n e hn) with ⟨k₁, q', hk, hs, -⟩ | ⟨k₁, which, hk, hs, -, t, hmap, hb, hv⟩ |
      ⟨k₁, hk, -⟩
    · cases hs.symm.trans hq
    · obtain rfl := Except.error.inj (hs.symm.trans hq)
      have hl := hview.trap_unloaded hk
      have hroom₁ : k₁.Roomy 0 { s with pageTable := t } := by
        rw [Roomy, coldPages_congr hmap, hb]
        exact hroom
      obtain ⟨fuel, k', hw⟩ := hv.scWrite_returns hroom₁ hl hid ht
      obtain ⟨s', hv', hroom', hout⟩ := hv.scWrite hroom₁ hl hid ht hw
      have hcall' : k₁.registers resultReg = Nachos.scWrite := by
        rw [← hcall, ← hv.resumed_gpr hl 2]
        exact (k₁.advancePC_other (by decide)).symm
      refine .inl ⟨.write, k', ⟨k₁, fuel, hk, hcall', hw⟩, id, ⟨⟨s', f, hv', hroom'⟩, 0, .zero⟩, ?_, n + 1,
        hn.succ (.write hq hcall hid ht)⟩
      rw [hout, ((turn_memoryOnly hk).2 _ _ rfl).output.1, h.output]
    · obtain ⟨k₂, he, hr', hlt⟩ := h.runs.served (hd.processor hn) hk
      have hs : UserStep k .pageFault k₂ := ⟨k₁, hk, he⟩
      exact .inr ⟨.user .pageFault, k₂, hs, by simp [CallSilent, Silent],
        ⟨hr', (congrFun (UserStep.output hs) 1).trans h.output, h.reached⟩, hlt⟩

end Kernel

end Nachos
