import Nachos.Lib.WordExtend
import Nachos.Machine.Perform
import Nachos.UserProg.Paging

namespace Nachos

open Buffer Machine Instruction WordArith

namespace Kernel

/-- One turn of the loop of `Machine::Run`: the instruction is done, or `ExceptionHandler` starts. -/
inductive Turn where
  | completed (k : Kernel)
  | handler (which : ExceptionType) (k : Kernel)

def turn (k : Kernel) : Except Fault Turn := do
  let s ← k.space
  match ← (k.machine s).oneInstruction with
  | .value _ m => .ok (.completed (k.resume s m))
  | .exception which m => .ok (.handler which (k.resume s m))

def Covers (s : AddrSpace) (a : Nat) : Prop :=
  ∃ p < s.numPages.toNat, (s.pageTable p).valid = true ∧
    ∃ o < pageSize, a = (s.pageTable p).physicalPage.toNat * pageSize + o

/-- `k` runs the program of the processor `q`. -/
structure View (k : Kernel) (s : AddrSpace) (f : UnixFile) (q : Processor) : Prop where
  paged : Paged k s f q.memory
  virtualOption : k.virtualOption = 0
  size : q.size = s.numPages.toNat * pageSize
  cpu : q.cpu = (k.machine s).visible
  zero : k.registers (gpReg 0) = 0
  loading : (k.registers loadReg = 0 ∧ k.registers loadValueReg = 0) ∨
    ∃ i, q.loading = some i ∧ (k.registers loadReg).toNat = i

end Kernel

theorem Paged.congr {k k' : Kernel} {s : AddrSpace} {f : UnixFile} {v : Buffer} (h : Paged k s f v)
    (hs : k'.space = .ok s) (hf : k'.files = k.files) (hb : k'.bitMap = k.bitMap) (hm : k'.mainMemory = k.mainMemory)
    (hl : (k'.registers Nachos.loadReg).toNat < numGPRegs) : Paged k' s f v where
  space := hs
  swap := by rw [hf]; exact h.swap
  length := h.length
  bound := h.bound
  bits := by rw [hb]; exact h.bits
  loadReg := hl
  readOnly := h.readOnly
  frame := by rw [hb]; exact h.frame
  distinct := h.distinct
  resident := by rw [hm]; exact h.resident
  cold := h.cold

namespace Kernel

variable {k : Kernel} {s : AddrSpace} {f : UnixFile} {q : Processor} {w a : Word} {bytes : Nat} {m' : Machine}

theorem covers_congr {t : Nat → TranslationEntry} (hmap : SameMapping s.pageTable t) (b : Nat) :
    Covers { s with pageTable := t } b ↔ Covers s b := by
  simp only [Covers, hmap.valid, hmap.physicalPage]

theorem covers_access (hs : AccessSize bytes) (ha : ¬misaligned a bytes) (hp : a.toNat / pageSize < s.numPages.toNat)
    (hv : (s.pageTable (a.toNat / pageSize)).valid = true) {b : Nat}
    (hb : frameAddress s.pageTable a.toNat ≤ b ∧ b < frameAddress s.pageTable a.toNat + bytes) : Covers s b := by
  have hoff := offset_le hs ha
  rw [frameAddress] at hb
  exact ⟨_, hp, hv, b - (s.pageTable (a.toNat / pageSize)).physicalPage.toNat * pageSize, by omega, by omega⟩

theorem resume_space (h : k.space = .ok s) {m' : Machine} {t : Nat → TranslationEntry} (ht : m'.pageTable = some t) :
    (k.resume s m').space = .ok { s with pageTable := t } := by
  have hr := setSpace_space (k := { k with registers := m'.registers, mainMemory := m'.mainMemory }) (s := s) h
    { s with pageTable := t }
  rw [resume, ht]
  exact hr

/-- The machine `m'` that `k` has led to, once it is the machine of `k`, runs the program of `q'`, and has not touched
the frames of others. -/
def Shows (k : Kernel) (s : AddrSpace) (f : UnixFile) (q' : Processor) (m' : Machine) : Prop :=
  ∃ t, m'.pageTable = some t ∧ SameMapping s.pageTable t ∧ (∀ b, ¬Covers s b → m'.mainMemory b = k.mainMemory b) ∧
    View (k.resume s m') { s with pageTable := t } f q'

structure Missing (s : AddrSpace) (q : Processor) (w : Word) (badVAddr : Word) : Prop where
  needed : badVAddr = q.cpu.pc ∨ badVAddr = q.address w
  inside : badVAddr.toNat / pageSize < s.numPages.toNat
  cold : (s.pageTable (badVAddr.toNat / pageSize)).valid = false

abbrev Follows (k : Kernel) (s : AddrSpace) (f : UnixFile) (q : Processor) (w : Word) :
    Except ExceptionType Processor → Except Fault (Outcome Unit) → Prop :=
  Tracks (Shows k s f) (fun m => Missing s q w (m.registers badVAddrReg)) q

theorem guarded {m : Machine} (hl : (m.registers loadReg).toNat < numGPRegs) {bad : Prop} [Decidable bad]
    (hb : bad → misaligned a bytes) (g : Word → Machine → Except Fault (Outcome Unit)) :
    (if bad then m.raiseException .addressErrorException a else andThen (m.readMem a bytes) g) =
      andThen (m.readMem a bytes) g := by
  by_cases hc : bad
  · have ht : m.translate a bytes false = .ok (.fail .addressErrorException) := if_pos (hb hc)
    rw [if_pos hc, readMem_of_fail ht, raiseException_eq hl, raiseException_eq hl]
    rfl
  · exact if_neg hc

namespace View

variable (h : View k s f q)
include h

theorem sane : (k.machine s).Sane := ⟨⟨rfl, by simp [machine]⟩, h.paged.loadReg⟩

theorem inside_iff (hs : AccessSize bytes) (a : Word) :
    q.Inside a bytes ↔ ¬misaligned a bytes ∧ a.toNat / pageSize < s.numPages.toNat := by
  rw [misaligned_iff a hs, not_not, Processor.Inside, h.size, pageSize_eq]
  refine and_congr_right fun hd => ?_
  obtain ⟨c, hc⟩ := hd
  obtain rfl | rfl | rfl := hs
  · omega
  · omega
  · omega

theorem translate (hs : AccessSize bytes) (a : Word) (writing : Bool) :
    (¬q.Inside a bytes ∧ (k.machine s).translate a bytes writing = .ok (.fail .addressErrorException)) ∨
    (q.Inside a bytes ∧ a.toNat / pageSize < s.numPages.toNat ∧ (s.pageTable (a.toNat / pageSize)).valid = false ∧
      (k.machine s).translate a bytes writing = .ok (.fail .pageFaultException)) ∨
    (q.Inside a bytes ∧ ¬misaligned a bytes ∧ a.toNat / pageSize < s.numPages.toNat ∧
      (s.pageTable (a.toNat / pageSize)).valid = true ∧
      (k.machine s).translate a bytes writing = .ok (.ok (frameAddress s.pageTable a.toNat)
        { k.machine s with pageTable := some (touch s.pageTable (a.toNat / pageSize) writing) })) := by
  rcases h.paged.translate hs a writing with ⟨hout, ht⟩ | ⟨ha, hp, hv, ht⟩ | ⟨ha, hp, hv, ht⟩
  · refine .inl ⟨?_, ht⟩
    rw [h.inside_iff hs]
    rintro ⟨ha, hp⟩
    exact hout.elim ha (fun hp' => absurd hp (Nat.not_lt.mpr hp'))
  · exact .inr (.inl ⟨(h.inside_iff hs a).mpr ⟨ha, hp⟩, hp, hv, ht⟩)
  · exact .inr (.inr ⟨(h.inside_iff hs a).mpr ⟨ha, hp⟩, ha, hp, hv, ht⟩)

theorem gpr {i : Fin numGPRegs} (hi : q.loading ≠ some i) : (k.machine s).gpr i = q.cpu.gpr i := by
  rw [h.cpu, visible_gpr]
  change k.registers (gpReg i) = if i = 0 then 0 else if (k.registers loadReg).toNat = i then _ else k.registers (gpReg i)
  by_cases h0 : i = 0
  · rw [if_pos h0, h0]
    exact h.zero
  rw [if_neg h0, if_neg]
  intro hl
  rcases h.loading with ⟨hz, -⟩ | ⟨j, hj, hl'⟩
  · rw [hz] at hl
    exact h0 (Fin.ext hl.symm)
  · exact hi (hj.trans (congrArg some (Fin.ext (hl'.symm.trans hl))))

theorem undisturbed {instr : Instruction} (hi : ∀ i ∈ instr.reads ++ instr.writes, q.loading ≠ some i) :
    (k.machine s).Undisturbed instr := by
  rcases h.loading with hz | ⟨j, hj, hl⟩
  · exact .inl hz
  · refine .inr fun i hm he => hi i hm (hj.trans (congrArg some (Fin.ext (hl.symm.trans he))))

theorem nextPC : (k.machine s).nextPC = q.cpu.nextPC := by
  rw [h.cpu]
  exact (visible_control h.paged.loadReg).2.2.2.symm

theorem pc : k.registers pcReg = q.cpu.pc := by
  rw [h.cpu]
  exact (visible_control (m := k.machine s) h.paged.loadReg).2.2.1.symm

theorem resume {t : Nat → TranslationEntry} {q' : Processor}
    (hp : Paged (k.resume s m') { s with pageTable := t } f q'.memory) (hsize : q'.size = q.size)
    (hcpu : q'.cpu = m'.visible) (hz : m'.gpr 0 = 0)
    (hload : (m'.registers loadReg = 0 ∧ m'.registers loadValueReg = 0) ∨
      ∃ i, q'.loading = some i ∧ (m'.registers loadReg).toNat = i) :
    View (k.resume s m') { s with pageTable := t } f q' :=
  ⟨hp, h.virtualOption, hsize.trans h.size, hcpu, hz, hload⟩

theorem unwritten {t : Nat → TranslationEntry} (hmap : SameMapping s.pageTable t) (ht : m'.pageTable = some t)
    (hm : m'.mainMemory = k.mainMemory) (hl : (m'.registers loadReg).toNat < numGPRegs) :
    Paged (k.resume s m') { s with pageTable := t } f q.memory := by
  have hread (p : Nat) : (t p).readOnly = (s.pageTable p).readOnly := by rw [← hmap p]
  exact (h.paged.retable hmap.valid hread hmap.physicalPage).congr (resume_space h.paged.space ht) rfl rfl hm hl

theorem trapped (v : Word) :
    Shows k s f q { k.machine s with registers := (k.machine s).trapRegisters v } := by
  refine ⟨s.pageTable, rfl, .refl _, fun _ _ => rfl,
    h.resume (h.unwritten (.refl _) rfl rfl ?_) rfl ?_ rfl (.inl ⟨rfl, rfl⟩)⟩
  · change ((k.machine s).trapRegisters v loadReg).toNat < numGPRegs
    have hz : (k.machine s).trapRegisters v loadReg = 0 := rfl
    rw [hz]
    decide
  · rw [visible_trapped h.paged.loadReg, h.cpu]

theorem fault {x : Except ExceptionType Processor} (hn : a = q.cpu.pc ∨ a = q.address w)
    (hp : a.toNat / pageSize < s.numPages.toNat) (hv : (s.pageTable (a.toNat / pageSize)).valid = false) :
    Follows k s f q w x
      (.ok (.exception .pageFaultException { k.machine s with registers := (k.machine s).trapRegisters a })) := by
  apply Tracks.faults (h.trapped a)
  change Missing s q w ((k.machine s).trapRegisters a badVAddrReg)
  rw [trapRegisters_badVAddr h.paged.loadReg]
  exact ⟨hn, hp, hv⟩

theorem finish {m : Machine} {t : Nat → TranslationEntry} {i : Fin numGPRegs} {v : Word} {memory : Buffer}
    {loading : Option (Fin numGPRegs)} (hr : m.registers = k.registers) (ht : m.pageTable = some t)
    (hmap : SameMapping s.pageTable t) (hframe : ∀ b, ¬Covers s b → m.mainMemory b = k.mainMemory b)
    (hp : ∀ m', m'.mainMemory = m.mainMemory → m'.pageTable = some t → (m'.registers loadReg).toNat < numGPRegs →
      Paged (k.resume s m') { s with pageTable := t } f memory)
    (hi : (i = 0 ∧ v = 0) ∨ loading = some i) :
    Follows k s f q w (.ok ⟨(q.cpu.put i v).advance, memory, q.size, loading⟩)
      (m.finish (.ofNat 32 i) v (m.nextPC + 4)) := by
  have hvis : m.visible = q.cpu := (visible_congr (m := k.machine s) fun r _ => congrFun hr r).trans h.cpu.symm
  have hnext : m.nextPC = q.cpu.nextPC := (congrFun hr nextPCReg).trans h.nextPC
  obtain ⟨m', he, hf⟩ := finish_finished (m := m) (by rw [hr]; exact h.paged.loadReg) i v (m.nextPC + 4)
  have hmem : m'.mainMemory = m.mainMemory := by rw [hf.frame]
  have ht' : m'.pageTable = some t := by rw [hf.frame, ← ht]
  have hl : (m'.registers loadReg).toNat = i := by rw [hf.loadReg, ofNat_gpr]
  rw [he]
  refine .completes ⟨t, ht', hmap, hmem ▸ hframe, h.resume (hp m' hmem ht' (hl ▸ i.isLt)) rfl ?_ hf.zero ?_⟩
  · rw [hf.visible, hvis, hnext, Cpu.advance, put_nextPC]
  · rcases hi with ⟨rfl, rfl⟩ | hi
    · exact .inl ⟨hf.loadReg, hf.loadValue⟩
    · exact .inr ⟨i, hi, hl⟩

theorem load {i : Fin numGPRegs} (hi : i = Processor.rt w) (hs : AccessSize bytes) (value : Nat → Word) (ext : Word → Word)
    (he : ∀ raw, (∀ j < bytes, byteOf raw j = q.memory ((q.address w).toNat + j)) →
      ext raw = value (q.address w).toNat) :
    Follows k s f q w (q.load w bytes value)
      (andThen ((k.machine s).readMem (q.address w) bytes) fun raw m => m.finish (.ofNat 32 i) (ext raw) (m.nextPC + 4)) := by
  rcases h.translate hs (q.address w) false with ⟨hout, ht⟩ | ⟨hin, hp, hv, ht⟩ | ⟨hin, ha, hp, hv, ht⟩
  · rw [readMem_of_fail ht, Processor.load, if_neg hout, raiseException_eq h.paged.loadReg]
    exact .traps (by decide) (h.trapped _)
  · rw [readMem_of_fail ht, raiseException_eq h.paged.loadReg]
    exact h.fault (.inr rfl) hp hv
  · rw [readMem_of_ok hs ht, andThen_value, Processor.load, if_pos hin, hi]
    rw [← he _ fun j hj => h.paged.loaded_resident hs ha hp hv hj]
    have hmap := sameMapping_touch s.pageTable ((q.address w).toNat / pageSize) false
    exact h.finish rfl rfl hmap (fun _ _ => rfl) (fun m' hm ht' hl => h.unwritten hmap ht' hm hl) (.inr rfl)

theorem store {i : Fin numGPRegs} (hi : i = Processor.rt w) (hd : q.loading ≠ some i) (hs : AccessSize bytes) :
    Follows k s f q w (q.store w bytes)
      (andThen ((k.machine s).writeMem (q.address w) bytes ((k.machine s).gpr i)) fun _ m =>
        m.finish 0 0 (m.nextPC + 4)) := by
  rcases h.translate hs (q.address w) true with ⟨hout, ht⟩ | ⟨hin, hp, hv, ht⟩ | ⟨hin, ha, hp, hv, ht⟩
  · rw [writeMem_of_fail ht, Processor.store, if_neg hout, raiseException_eq h.paged.loadReg]
    exact .traps (by decide) (h.trapped _)
  · rw [writeMem_of_fail ht, raiseException_eq h.paged.loadReg]
    exact h.fault (.inr rfl) hp hv
  · rw [writeMem_of_ok hs ht, andThen_value, Processor.store, if_pos hin, h.gpr hd, hi]
    have hmap := sameMapping_touch s.pageTable ((q.address w).toNat / pageSize) true
    refine h.finish (i := 0) (v := 0) rfl rfl hmap (fun b hb => ?_) (fun m' hm ht' hl => ?_) (.inl ⟨rfl, rfl⟩)
    · change stored k.host k.mainMemory (frameAddress s.pageTable (q.address w).toNat) bytes _ b = _
      rw [stored_apply hs, if_neg]
      exact fun hin => hb (covers_access hs ha hp hv hin)
    exact ((h.paged.write hs ha hp hv).touch _ true).congr (resume_space h.paged.space ht') rfl rfl hm hl

theorem address (ht : (decode w).Transfers) (hi : ∀ i ∈ (decode w).reads ++ (decode w).writes, q.loading ≠ some i) :
    (k.machine s).address (decode w) = q.address w := by
  have hf : Instruction.Listed (decode w).opCode ∧ formatOf (decode w).opCode = .ifmt ∧ (decode w).rs ∈ (decode w).reads := by
    unfold Instruction.Transfers at ht
    unfold Instruction.reads
    split at ht
    all_goals simp_all [Instruction.Listed, formatOf]
  obtain ⟨hlisted, hifmt, hrs⟩ := hf
  rw [Machine.address, h.gpr (hi _ (List.mem_append_left _ hrs)), (extra_of_ifmt hlisted hifmt).1, add_eq_ofInt,
    Processor.address, decode_rs]
  rfl

theorem execute (hd : q.cpu.Defined (decode w)) (hi : ∀ i ∈ (decode w).reads ++ (decode w).writes, q.loading ≠ some i) :
    Follows k s f q w (q.perform w (decode w).opCode) ((k.machine s).execute (decode w)) := by
  by_cases ht : (decode w).Transfers
  · have haddr := h.address ht hi
    have hrt : (decode w).rt = Processor.rt w := decode_rt w
    cases hop : (decode w).opCode
    all_goals
      simp only [Instruction.Transfers, hop] at ht
    all_goals
      simp only [Cpu.Defined, hop] at hd
    all_goals
      simp only [Instruction.reads, Instruction.writes, hop, List.mem_append, List.mem_cons, List.not_mem_nil, or_false] at hi
      simp only [Machine.execute, hop, Processor.perform, loadByte, loadHalf, Machine.load, Machine.store, haddr]
    case lb =>
      refine h.load hrt (.inl rfl) (fun a => (q.memory a).signExtend 32) _ fun raw hb => ?_
      exact (if_congr (and_iff_left trivial) rfl rfl).trans (byte_signed (hb 0 (by omega)))
    case lbu =>
      refine h.load hrt (.inl rfl) (fun a => (q.memory a).setWidth 32) _ fun raw hb => ?_
      exact (if_neg (by simp)).trans (byte_unsigned (hb 0 (by omega)))
    case lh =>
      rw [guarded h.paged.loadReg (fun hc => .inr ⟨rfl, hc⟩)]
      refine h.load hrt (.inr (.inl rfl)) (fun a => (Processor.halfAt q.memory a).signExtend 32) _ fun raw hb => ?_
      exact (if_congr (and_iff_left trivial) rfl rfl).trans (half_signed (hb 0 (by omega)) (hb 1 (by omega)))
    case lhu =>
      rw [guarded h.paged.loadReg (fun hc => .inr ⟨rfl, hc⟩)]
      refine h.load hrt (.inr (.inl rfl)) (fun a => (Processor.halfAt q.memory a).setWidth 32) _ fun raw hb => ?_
      exact (if_neg (by simp)).trans (half_unsigned (hb 0 (by omega)) (hb 1 (by omega)))
    case lw =>
      rw [guarded h.paged.loadReg (fun hc => .inl ⟨rfl, hc⟩)]
      exact h.load hrt (.inr (.inr rfl)) q.memory.wordAt (fun raw => raw) fun raw hb =>
        (wordAt_byteOf fun j hj => (hb j hj).symm).symm
    case sb => exact h.store hrt (hi _ (by simp)) (.inl rfl)
    case sh => exact h.store hrt (hi _ (by simp)) (.inr (.inl rfl))
    case sw => exact h.store hrt (hi _ (by simp)) (.inr (.inr rfl))
  · refine perform_tracks h.sane h.zero (h.undisturbed hi) h.cpu ht hd fun m' loading hc hframe => ?_
    have hpt : m'.pageTable = some s.pageTable := by rw [hframe]; rfl
    have hmem : m'.mainMemory = k.mainMemory := by rw [hframe]; rfl
    have hl : (m'.registers loadReg).toNat < numGPRegs := by
      rw [hc.idle]
      decide
    exact ⟨_, hpt, .refl _, fun _ _ => by rw [hmem], h.resume (h.unwritten (.refl _) hpt hmem hl) rfl rfl hc.zero (.inl ⟨hc.idle, hc.loadValue⟩)⟩

theorem fetch (a : Word) (writing : Bool) : View (k.setSpace { s with pageTable := touch s.pageTable (a.toNat / pageSize) writing })
    { s with pageTable := touch s.pageTable (a.toNat / pageSize) writing } f q :=
  ⟨h.paged.touch _ _, h.virtualOption, h.size, h.cpu, h.zero, h.loading⟩

end View

theorem setSpace_resume {t : Nat → TranslationEntry} (ht : m'.pageTable = some t) (s₁ : Nat → TranslationEntry) :
    (k.setSpace { s with pageTable := s₁ }).resume { s with pageTable := s₁ } m' = k.resume s m' := by
  have hp : ((k.processes k.current).map fun p => { p with space := some { s with pageTable := s₁ } }).map
      (fun p => { p with space := some { s with pageTable := t } }) =
      (k.processes k.current).map fun p => { p with space := some { s with pageTable := t } } := by
    rw [Option.map_map]
    rfl
  simp only [resume, ht, Option.getD_some, setSpace, setProcess, Function.update_self, Function.update_idem, hp]

theorem Follows.retable {t : Nat → TranslationEntry} (hmap : SameMapping s.pageTable t)
    {x : Except ExceptionType Processor} {y : Except Fault (Outcome Unit)}
    (h : Follows (k.setSpace { s with pageTable := t }) { s with pageTable := t } f q w x y) : Follows k s f q w x y := by
  apply Tracks.mono h
  · rintro q' m ⟨u, hu, hmap', hframe, hview⟩
    rw [setSpace_resume hu] at hview
    exact ⟨u, hu, hmap.trans hmap', fun b hb => hframe b fun hc => hb ((covers_congr hmap b).mp hc), hview⟩
  · rintro m ⟨hn, hi, hc⟩
    exact ⟨hn, hi, (hmap.valid _).symm.trans hc⟩

theorem View.oneInstruction (h : View k s f q) (hs : q.Supported) :
    Follows k s f q q.fetched q.step (k.machine s).oneInstruction := by
  have hpc : (k.machine s).registers pcReg = q.cpu.pc := h.pc
  rw [Machine.oneInstruction, hpc]
  rcases h.translate (.inr (.inr rfl)) q.cpu.pc false with ⟨hout, ht⟩ | ⟨hin, hp, hv, ht⟩ | ⟨hin, ha, hp, hv, ht⟩
  · rw [readMem_of_fail ht, Processor.step, if_neg hout, raiseException_eq h.paged.loadReg]
    exact .traps (by decide) (h.trapped _)
  · rw [readMem_of_fail ht, raiseException_eq h.paged.loadReg]
    exact h.fault (.inl rfl) hp hv
  · have hraw : loaded k.host k.mainMemory (frameAddress s.pageTable q.cpu.pc.toNat) 4 = q.fetched :=
      (wordAt_byteOf fun j hj => (h.paged.loaded_resident (.inr (.inr rfl)) ha hp hv hj).symm).symm
    have hx := (h.fetch q.cpu.pc false).execute (hs.defined hin) (hs.delay hin)
    rw [readMem_of_ok (.inr (.inr rfl)) ht, andThen_value, Processor.step, if_pos hin]
    change Follows k s f q q.fetched _ (Machine.execute _ (decode (loaded k.host k.mainMemory _ 4)))
    rw [hraw]
    exact hx.retable (sameMapping_touch s.pageTable _ false)

/-- What a turn does: the instruction is done, it traps as on the processor, or a page it needs is missing. -/
theorem View.turn_shows (h : View k s f q) (hs : q.Supported) :
    (∃ m q', k.turn = .ok (.completed (k.resume s m)) ∧ q.step = .ok q' ∧ Shows k s f q' m) ∨
    (∃ m which, k.turn = .ok (.handler which (k.resume s m)) ∧ q.step = .error which ∧ which ≠ .pageFaultException ∧
      Shows k s f q m) ∨
    (∃ m, k.turn = .ok (.handler .pageFaultException (k.resume s m)) ∧ Shows k s f q m ∧
      Missing s q q.fetched (m.registers badVAddrReg)) := by
  have hx := h.oneInstruction hs
  simp only [turn, h.paged.space, ok_bind]
  generalize (k.machine s).oneInstruction = x at hx ⊢
  generalize q.step = y at hx ⊢
  cases hx with
  | completes hm => exact .inl ⟨_, _, rfl, rfl, hm⟩
  | traps hne hm => exact .inr (.inl ⟨_, _, rfl, rfl, hne, hm⟩)
  | faults hm hmiss => exact .inr (.inr ⟨_, rfl, hm, hmiss⟩)

end Kernel

end Nachos
