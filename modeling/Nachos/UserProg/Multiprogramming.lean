import Nachos.UserProg.Assembly
import Nachos.UserProg.ExecResult
import Nachos.UserProg.Interleaving

namespace Nachos

open Buffer Machine Instruction Reply

namespace Processor

variable {q q' : Processor}

-- `Exec("p")`, with the name in the program's first bytes, and then a loop
def execText : List Word := [0x24050070, 0x24020002, 0x0000000c, 0x1000ffff, 0]

structure Execing (q : Processor) : Prop where
  coded : Coded execText q
  loading : q.loading = none
  next : q.At 0 ∨ q.At 1 ∨ q.At 2 ∨ q.At 3 ∨ q.cpu.pc = .ofNat 32 (4 * 4) ∧ q.cpu.nextPC = .ofNat 32 (4 * 3)

namespace Execing

theorem boot {memory : Buffer} {size : Nat} (hs : 20 ≤ size) (ht : ∀ i w, execText[i]? = some w → memory.wordAt (4 * i) = w) :
    Execing (.boot memory size) :=
  ⟨⟨hs, by decide, ht⟩, rfl, .inl ⟨rfl, rfl⟩⟩

theorem supported (h : Execing q) : q.Supported := by
  obtain ⟨i, w, hpc, hw, hop⟩ : ∃ i w, q.cpu.pc = .ofNat 32 (4 * i) ∧ execText[i]? = some w ∧
      (decode w).opCode ∈ [OpCode.addiu, .syscall, .beq, .sll] := by
    rcases h.next with hat | hat | hat | hat | ⟨hpc, -⟩
    · exact ⟨0, 0x24050070, hat.1, rfl, by decide⟩
    · exact ⟨1, 0x24020002, hat.1, rfl, by decide⟩
    · exact ⟨2, 0x0000000c, hat.1, rfl, by decide⟩
    · exact ⟨3, 0x1000ffff, hat.1, rfl, by decide⟩
    · exact ⟨4, 0, hpc, rfl, by decide⟩
  obtain ⟨-, hf⟩ := h.coded.fetches hpc hw
  refine ⟨fun _ => ?_, fun _ j _ => ?_⟩
  · rw [hf]
    simp only [List.mem_cons, List.not_mem_nil, or_false] at hop
    rcases hop with hop | hop | hop | hop
    all_goals simp only [Cpu.Defined, hop]
  · rw [h.loading]
    exact (Option.some_ne_none j).symm

theorem moves (h : Execing q) : (∃ q₁, q.step = .ok q₁ ∧ Execing q₁) ∨ q.step = .error .syscallException ∧ q.At 2 := by
  rcases h.next with hat | hat | hat | hat | ⟨hpc, hnext⟩
  · have hstep := h.coded.step hat.1 (w := 0x24050070) rfl (show _ = .addiu by decide)
    rw [perform_addiu rfl (show _ = 5 by decide) rfl] at hstep
    exact .inl ⟨_, hstep, h.coded.congr rfl rfl, rfl, .inr (.inl (hat.assigned ..))⟩
  · have hstep := h.coded.step hat.1 (w := 0x24020002) rfl (show _ = .addiu by decide)
    rw [perform_addiu rfl (show _ = 2 by decide) rfl] at hstep
    exact .inl ⟨_, hstep, h.coded.congr rfl rfl, rfl, .inr (.inr (.inl (hat.assigned ..)))⟩
  · exact .inr ⟨h.coded.syscall hat rfl, hat⟩
  · have hstep := h.coded.step hat.1 (w := 0x1000ffff) rfl (show _ = .beq by decide)
    rw [Kernel.perform_loop, hat.2] at hstep
    exact .inl ⟨_, hstep, h.coded.congr rfl rfl, rfl, .inr (.inr (.inr (.inr ⟨hat.2, rfl⟩)))⟩
  · refine .inl ⟨_, h.coded.nop hpc rfl, h.coded.congr rfl rfl, rfl, .inr (.inr (.inr (.inl ⟨hnext, ?_⟩)))⟩
    change q.cpu.nextPC + 4 = _
    rw [hnext]
    rfl

theorem after (h : Execing q) {e : Event} (he : q.after e = some q') : Execing q' := by
  rcases h.moves with ⟨q₁, hq, h₁⟩ | ⟨hq, hat⟩
  · cases e with
    | instruction =>
      simp only [Processor.after, hq] at he
      obtain rfl := Option.some.inj he
      exact h₁
    | call result =>
      simp only [Processor.after, hq] at he
      cases he
  · cases e with
    | instruction =>
      simp only [Processor.after, hq] at he
      cases he
    | call result =>
      simp only [Processor.after, hq] at he
      obtain rfl := Option.some.inj he
      exact ⟨h.coded.congr rfl rfl, rfl, .inr (.inr (.inr (.inl hat.advance)))⟩

theorem obedient (h : Execing q) : q.Obedient :=
  obedient_of_invariant (fun _ h => h.supported) (fun _ _ _ h he => h.after he) h

end Execing

end Processor

namespace Kernel

open Processor

variable {k : Kernel} {text : List Word}

theorem program_image (hf : k.files [112] = some (programFile text)) (t : Nat) {i : Nat} {w : Word}
    (hi : text[i]? = some w) : (k.image [112] t).wordAt (4 * i) = w := by
  obtain ⟨hlt, -⟩ := List.getElem?_eq_some_iff.mp hi
  have hsource : AddrSpace.source (programFile text) [112] (AddrSpace.swapName t) = programFile text :=
    if_neg (Loading.Program.swapName_ne t)
  rw [← programFile_word hi]
  apply wordAt_congr
  intro j hj
  obtain ⟨hlength, hindex⟩ := programFile_offset hlt hj
  simp only [image, hf, hsource]
  rw [if_pos hlength, hindex]

theorem program_fits (hlen : 0 < text.length ∧ text.length ≤ 64) (hh : k.host = .littleEndian)
    (hf : k.files [112] = some (programFile text)) : k.Fits [112] := by
  intro f noffH he hr
  obtain rfl := Option.some.inj (hf.symm.trans he)
  rw [hh] at hr
  obtain rfl := Except.ok.inj ((programFile_header text _).symm.trans hr)
  rw [(programHeader_pages hlen).1]
  omega

structure Sole (k : Kernel) : Prop where
  host : k.host = .littleEndian
  file : k.files [112] = some (programFile execText)
  current : k.current = 0
  threadID : k.threadID = 1
  process : ∃ s, k.processes 0 = some ⟨some s, false⟩

theorem Sole.memoryOnly {k' : Kernel} (h : k.Sole) (hm : k.MemoryOnly k') : k'.Sole := by
  obtain ⟨hhost, -, hfiles, hcur, hid, -⟩ := hm.fixed
  obtain ⟨s, hs⟩ := h.process
  have ho := hm.1 0
  rw [hs, Option.map_some, Option.map_eq_some_iff] at ho
  obtain ⟨⟨space, kill⟩, hp, ho⟩ := ho
  obtain ⟨hkill, hspace⟩ := Prod.mk.inj ho
  obtain ⟨s', rfl, -⟩ := Option.map_eq_some_iff.mp hspace
  obtain rfl : kill = false := hkill
  exact ⟨hhost.trans h.host, (congrFun hfiles _).trans h.file, hcur.trans h.current, hid.trans h.threadID, s', hp⟩

/-- What the program comes to: its own name is read, and it is executed once more. -/
structure Execs (k₁ k₂ k₃ k₄ : Kernel) : Prop where
  sole : k₁.Sole ∧ k₃.Sole
  turn : k₁.turn = .ok (.handler .syscallException k₂)
  code : k₂.registers resultReg = 2
  name : k₂.advancePC.readName (k₂.advancePC.registers arg1Reg) [] nameSize = .ok (.returned (some [112]) k₃)
  exec : k₂.scExec = .ok (.returned () k₄)
  spawned : ∃ s files, k₄ = k₃.spawn (some s) files ∧ s.numPages.toNat = 5

theorem execText_calls {q : Processor} (h : Execing q) (hz : q.cpu.gpr 0 = 0) (hat : q.At 0) : ∃ q', Steps Next q 2 q' ∧
    Coded execText q' ∧ q'.At 2 ∧ q'.loading = none ∧ q'.cpu.gpr 2 = 2 ∧ q'.cpu.gpr 4 = q.cpu.gpr 4 := by
  obtain ⟨h₀, hat₁, hc₁⟩ := h.coded.addiu hz hat 0x24050070 5 0x70 rfl (by decide) (by decide) (by decide)
  obtain ⟨h₁, hat₂, hc₂⟩ := hc₁.addiu hz hat₁ 0x24020002 2 2 rfl (by decide) (by decide) (by decide)
  exact ⟨_, .succ (.succ .zero h₀) h₁, hc₂, hat₂, rfl, rfl, rfl⟩

theorem Execs.of_read {k₁ k₂ k₃ : Kernel} (h : k₁.Sole) (ht : k₁.turn = .ok (.handler .syscallException k₂))
    (hr : k₂.registers resultReg = 2) (hreads : Reads false k₂.advancePC (k₂.registers arg1Reg) ([112] ++ [0#8]) k₃) :
    ∃ k₄, Execs k₁ k₂ k₃ k₄ := by
  have hlen : 0 < execText.length ∧ execText.length ≤ 64 := by decide
  have hname := hreads.readName (n := nameSize) (by decide) (by decide) []
  have hturn : k₁.MemoryOnly k₂ := (turn_memoryOnly ht).2 _ _ rfl
  have h₃ : k₃.Sole := h.memoryOnly (hturn.trans (k₂.advancePC_memoryOnly.trans hreads.memoryOnly))
  have hh₃ : AddrSpace.readHeader k₃.host k₃.garbage (programFile execText) = .ok (programHeader execText) := by
    rw [h₃.host]
    exact programFile_header execText _
  obtain ⟨hsize, hpages⟩ := programHeader_pages hlen
  obtain ⟨s', files, hnew⟩ := AddrSpace.new_completes k₃.threadID h₃.file hh₃ rfl (AddrSpace.size_fits (.inl (by omega)))
  obtain ⟨s, hp⟩ := h₃.process
  rw [← h₃.current] at hp
  have hnum : s'.numPages.toNat = 5 := by rw [(AddrSpace.new_built h₃.file hh₃ hnew).numPages, hpages]
  exact ⟨_, ⟨h, h₃⟩, ht, hr, hname, scExec_spawns hname (by decide) h₃.file hnew hp rfl, s', files, rfl, hnum⟩

theorem execText_execs : ∃ k₀ s k₁ k₂ k₃ k₄, (programKernel execText).startProcess [112] = .ok (some k₀) ∧
    k₀.space = .ok s ∧ s.numPages.toNat = 5 ∧ k₀.Sole ∧ Observed UserStep Silent k₀ 2 k₁ ∧ Execs k₁ k₂ k₃ k₄ := by
  have hlen : 0 < execText.length ∧ execText.length ≤ 64 := by decide
  obtain ⟨hw, k₀, s, f, h, hs, hf, hnum, htext⟩ := program_starts hlen
  have hsize : s.numPages.toNat * pageSize = 1280 := by rw [hnum, pageSize_eq]
  have hb : Execing (.boot f.bytes (s.numPages.toNat * pageSize)) := .boot (by omega) htext
  have hp := hb.obedient.disciplined
  obtain ⟨q, hsteps, hc, hat, hload, hq₂, hq₄⟩ := execText_calls hb rfl ⟨rfl, rfl⟩
  have hstart := startProcess_runs 0 (programKernel_booted _) (programKernel_files _) (programFile_header _ _) hw h hs hf
    (by rw [hnum]; decide)
  obtain ⟨k, hobs, hr⟩ := (serves hp).run hstart hsteps
  obtain ⟨k₁, k₂, s₁, f₁, t, hobs', hv₁, hturn, hne, hmap, hv₂⟩ := hr.traps hp (hc.syscall hat rfl)
  have hgpr (i : Fin numGPRegs) : k₂.registers (gpReg i) = q.cpu.gpr i := by
    apply hv₂.gpr
    rw [hload]
    exact (Option.some_ne_none i).symm
  have harg : k₂.registers arg1Reg = 0 := (hgpr 4).trans hq₄
  -- the name is in the page that the program runs in
  have hwarm := hv₁.fetch_resident (hc.fetches hat.1 rfl).1 hturn hne
  have hpage : q.cpu.pc.toNat / pageSize = 0 := by
    rw [hat.1, pageSize_eq]
    rfl
  rw [hpage, ← coldPages_congr hmap] at hwarm
  have hbyte (j : Nat) (hj : j < 4) : q.memory j = byteOf 0x24050070 j := by
    rw [← hc.text 0 _ rfl, byteOf_wordAt _ _ _ hj, Nat.mul_zero, Nat.zero_add]
  have hsize : 20 ≤ q.size := hc.size
  have hspells : Processor.Spells q.resumed 0 [112, 0] :=
    ⟨⟨one_dvd _, show 0 + 1 ≤ q.size by omega⟩, hbyte 0 (by omega), ⟨one_dvd _, show 1 + 1 ≤ q.size by omega⟩,
      hbyte 1 (by omega), trivial⟩
  obtain ⟨k₃, hreads⟩ := (hv₂.advance (hv₁.trap_unloaded hturn)).reads_resident hspells fun j hj => by
    have hzero : (0#32 + .ofNat 32 j).toNat / pageSize = 0 := by
      rw [BitVec.zero_add, BitVec.toNat_ofNat, pageSize_eq]
      simp only [List.length_cons, List.length_nil] at hj
      omega
    change (0#32 + .ofNat 32 j).toNat / pageSize ∉ _
    rwa [hzero]
  have hsole : k₀.Sole := by
    obtain ⟨s', files, hn, rfl⟩ := startProcess_eq h
    refine ⟨rfl, (AddrSpace.new_other hn (Loading.Program.swapName_ne 0)).trans (programKernel_files _), rfl, rfl, s', ?_⟩
    change Function.update (programKernel execText).processes 0 (some ⟨some s', false⟩) 0 = _
    exact Function.update_self ..
  obtain ⟨k₄, hex⟩ := Execs.of_read (hsole.memoryOnly (.observed (hobs.trans hobs'))) hturn ((hgpr 2).trans hq₂)
    (harg ▸ hreads)
  exact ⟨k₀, s, k₁, k₂, k₃, k₄, h, hs, hnum, hsole, hobs.trans hobs', hex⟩

end Kernel

namespace Multiprogram

open Kernel

variable {x : Multiprogram} {k : Kernel} {s : AddrSpace} {t : Tid}

theorem goesOn_events (x : Multiprogram) (k : Kernel) (events : List Processor.Event) :
    (x.goesOn k events).events x.kernel.current = x.events x.kernel.current ++ events := by
  simp only [goesOn, Function.update_self]

theorem observed (h : Reachable Initial Step x) {n : Nat} (hk : Observed UserStep Silent x.kernel n k) :
    ∃ y, Reachable Initial Step y ∧ y.kernel = k ∧ k.current = x.kernel.current ∧ y.start = x.start ∧
      y.events k.current = x.events x.kernel.current ++ .replicate n .instruction := by
  induction hk with
  | start => exact ⟨x, h, rfl, rfl, rfl, (List.append_nil _).symm⟩
  | @silent n d d' e hobs hs he ih =>
    obtain ⟨y, hy, rfl, hcur, hstart, hev⟩ := ih
    obtain ⟨qs, hi⟩ := Inv.ofReachable hy
    have hnext {a : Action} (hstep : Step y a (y.goesOn d' [])) (hcur' : d'.current = y.kernel.current) :
        ∃ z, Reachable Initial Step z ∧ z.kernel = d' ∧ d'.current = x.kernel.current ∧ z.start = x.start ∧
          z.events d'.current = x.events x.kernel.current ++ .replicate n .instruction := by
      refine ⟨_, hy.next a hstep, rfl, hcur'.trans hcur, hstart, ?_⟩
      rw [hcur', goesOn_events, List.append_nil, hev]
    cases e with
    | instruction => exact absurd rfl he
    | pageFault =>
      obtain ⟨k₁, hk, ht⟩ := hs
      exact hnext (a := .pageFault) ⟨k₁, d', hk, ht, rfl⟩ (hi.faulted hk ht).current
    | interrupt =>
      obtain ⟨s, m, hspace, hm, rfl⟩ := hs
      exact hnext (a := .interrupt) ⟨s, m, hspace, hm, rfl⟩ (hi.interrupted hspace hm).current
  | @visible n d d' e hobs hs he ih =>
    obtain ⟨y, hy, rfl, hcur, hstart, hev⟩ := ih
    obtain ⟨qs, hi⟩ := Inv.ofReachable hy
    obtain rfl := not_not.mp he
    obtain ⟨q, -, hd⟩ := hi.completed hs
    refine ⟨y.goesOn d' [.instruction], hy.next .instruction ⟨d', hs, rfl⟩, rfl, hd.current.trans hcur, hstart, ?_⟩
    rw [hd.current, goesOn_events, hev, List.append_assoc, List.replicate_succ']

/-- However the processes are switched, each runs as it would on a processor of its own: when it has the machine the
kernel shows the processor's state after what the process has gone through, and its next turn is the processor's next
step. -/
theorem multiprogramming (h : Reachable Initial Step x) {c : Bool} (ht : x.kernel.processes t = some ⟨some s, c⟩) :
    ∃ q, (x.start t).replay (x.events t) = some q ∧ (x.when t s).Shown q ∧
      (t = x.kernel.current → Refines q x.kernel.turn) := by
  obtain ⟨qs, hi⟩ := Inv.ofReachable h
  obtain ⟨f, hf⟩ := hi.processes.paged t s c ht
  have hsees := hi.sees t s c ht
  refine ⟨qs t, hi.replay t s c ht, ⟨s, f, ?_⟩, ?_⟩
  · exact .of_sees (hf.withRegisters hsees.loadReg) hi.virtualOption hsees
  · rintro rfl
    obtain ⟨f, hv⟩ := hi.view (space_eq_ok.mpr ⟨c, ht⟩)
    exact hv.refines (hi.obedient _ s c ht _ _ (hi.replay _ s c ht))

theorem execs_reachable : ∃ x s s' c c', Reachable Initial Step x ∧ x.kernel.processes 0 = some ⟨some s, c⟩ ∧
    x.kernel.processes 1 = some ⟨some s', c'⟩ ∧ x.events 0 = [.instruction, .instruction, .call 1] ∧ x.events 1 = [] := by
  have hlen : 0 < Processor.execText.length ∧ Processor.execText.length ≤ 64 := by decide
  obtain ⟨k₀, s, k₁, k₂, k₃, k₄, h, hs, hnum, -, hobs, hex⟩ := execText_execs
  have himage {k : Kernel} (hf : k.files [112] = some (programFile Processor.execText)) (t : Nat) {s : AddrSpace}
      (hn : s.numPages.toNat = 5) : (Processor.boot (k.image [112] t) (s.numPages.toNat * pageSize)).Obedient := by
    have hsize : s.numPages.toNat * pageSize = 1280 := by rw [hn, pageSize_eq]
    exact (Processor.Execing.boot (by omega) fun i w hi => program_image hf t hi).obedient
  have hr : Reachable Initial Step ⟨k₀, fun _ => none, fun _ => .boot ((programKernel Processor.execText).image [112] 0)
      (s.numPages.toNat * pageSize), fun _ => []⟩ :=
    .start ⟨programKernel Processor.execText, [112], s, ⟨_, rfl⟩, fun _ => rfl, Nat.zero_lt_one, rfl,
      program_fits hlen rfl (programKernel_files _), h, hs, rfl, himage (programKernel_files _) 0 hnum, fun _ => rfl,
      fun _ => rfl⟩
  obtain ⟨y, hy, rfl, -, -, hev⟩ := observed hr hobs
  obtain ⟨qs, hi⟩ := Inv.ofReachable hy
  obtain ⟨s', files, rfl, hnum'⟩ := hex.spawned
  obtain ⟨h₁, h₃⟩ := hex.sole
  have hnew : (k₃.spawn (some s') files).processes k₃.threadID = some ⟨some s', false⟩ := Function.update_self ..
  have hids : y.kernel.IdsLeft := by
    rw [IdsLeft, h₁.threadID]
    decide
  have hstarts : Starts k₂ (k₃.spawn (some s') files) (.boot (k₃.image [112] k₃.threadID) (s'.numPages.toNat * pageSize)) := by
    intro filename k hn
    obtain ⟨he, rfl⟩ := Reply.returned.inj (Except.ok.inj (hex.name.symm.trans hn))
    obtain rfl := Option.some.inj he
    refine ⟨program_fits hlen h₃.host h₃.file, fun s c hc => ?_⟩
    cases hnew.symm.trans hc
    exact ⟨rfl, himage h₃.file _ hnum'⟩
  have hstep : Step y .exec _ := ⟨k₂, k₃.spawn (some s') files, _, hids, hex.turn, hex.code, hex.exec, hstarts, rfl⟩
  obtain ⟨s₀, hp⟩ := h₃.process
  have hp₀ : (k₃.spawn (some s') files).processes 0 = some ⟨some s₀, false⟩ := by
    change Function.update k₃.processes k₃.threadID _ 0 = _
    rw [Function.update_of_ne (by rw [h₃.threadID]; decide), hp]
  refine ⟨_, s₀, s', false, false, hy.next _ hstep, hp₀, h₃.threadID ▸ hnew, ?_, ?_⟩
  · change Function.update y.events y.kernel.current (y.events y.kernel.current ++ [.call _]) 0 = _
    rw [hev, h₁.current, Function.update_self, spawn_answer, h₃.threadID]
    rfl
  · change Function.update y.events y.kernel.current _ 1 = _
    rw [h₁.current, Function.update_of_ne Nat.one_ne_zero]
    exact (hi.unborn 1 h₁.threadID.le).2

theorem multiprogramming_exec : ∃ (x : Multiprogram) (s s' : AddrSpace) (c c' : Bool), x.kernel.current = 1 ∧
    x.kernel.processes 0 = some ⟨some s, c⟩ ∧ x.kernel.processes 1 = some ⟨some s', c'⟩ ∧
    x.events 0 = [.instruction, .instruction, .call 1] ∧ x.events 1 = [] ∧
    (∃ q, (x.start 0).replay (x.events 0) = some q ∧ (x.when 0 s).Shown q) ∧
    ∃ q, (x.start 1).replay (x.events 1) = some q ∧ (x.when 1 s').Shown q ∧ Refines q x.kernel.turn := by
  obtain ⟨x, s, s', c, c', hr, h₀, h₁, hev₀, hev₁⟩ := execs_reachable
  have hstep : Step x (.switch 1) (x.switchTo 1 s') := ⟨s', c', h₁, rfl⟩
  obtain ⟨q₀, hq₀, hshown₀, -⟩ := multiprogramming (hr.next _ hstep) (t := 0) h₀
  obtain ⟨q₁, hq₁, hshown₁, hturn⟩ := multiprogramming (hr.next _ hstep) (t := 1) h₁
  exact ⟨x.switchTo 1 s', s, s', c, c', rfl, h₀, h₁, hev₀, hev₁, ⟨q₀, hq₀, hshown₀⟩, q₁, hq₁, hshown₁, hturn rfl⟩

end Multiprogram

end Nachos
