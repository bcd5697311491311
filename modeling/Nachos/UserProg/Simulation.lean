import Nachos.Lib.Stutter
import Nachos.UserProg.Loading
import Nachos.UserProg.UserMode

namespace Nachos

open Buffer Machine Instruction

namespace Kernel

inductive Event where
  | instruction
  | pageFault
  | interrupt

def UserStep (k : Kernel) (e : Event) (k' : Kernel) : Prop :=
  match e with
  | .instruction => k.turn = .ok (.completed k')
  | .pageFault => ∃ k₁, k.turn = .ok (.handler .pageFaultException k₁) ∧
      k₁.trap .pageFaultException = .ok (.returned () k')
  | .interrupt => ∃ s m, k.space = .ok s ∧ (k.machine s).delayedLoad 0 0 = .ok m ∧ k' = k.resume s m

def Silent (e : Event) : Prop := e ≠ .instruction

def Shown (k : Kernel) (q : Processor) : Prop := ∃ s f, View k s f q

inductive Refines (q : Processor) : Except Fault Turn → Prop
  | completed {k : Kernel} {q' : Processor} (hq : q.step = .ok q') (h : k.Shown q') : Refines q (.ok (.completed k))
  | trapped {k : Kernel} {which : ExceptionType} (hq : q.step = .error which) (hne : which ≠ .pageFaultException)
    (h : k.Shown q) : Refines q (.ok (.handler which k))
  | full {k : Kernel} (h : k.Shown q) (hz : k.bitMap.numClear = 0)
    (he : k.trap .pageFaultException = .ok .exited) : Refines q (.ok (.handler .pageFaultException k))
  | served {k k' : Kernel} (h : k.Shown q) (he : k.trap .pageFaultException = .ok (.returned () k')) (h' : k'.Shown q) :
    Refines q (.ok (.handler .pageFaultException k))

variable {k k' : Kernel} {s : AddrSpace} {f : UnixFile} {q q' : Processor} {p : Nat}

def coldPages (s : AddrSpace) : Finset Nat := (Finset.range s.numPages.toNat).filter fun p => (s.pageTable p).valid = false

/-- There are free frames for all but `c` of the pages that are not in memory. -/
def Roomy (c : Nat) (k : Kernel) (s : AddrSpace) : Prop := (coldPages s).card ≤ k.bitMap.numClear + c

def coldCount (k : Kernel) : Nat :=
  match k.space with
  | .ok s => (coldPages s).card
  | .error _ => 0

theorem coldPages_congr {t : Nat → TranslationEntry} (h : SameMapping s.pageTable t) :
    coldPages { s with pageTable := t } = coldPages s := by
  apply Finset.filter_congr
  intro p _
  rw [← h.valid p]

theorem coldPages_enter (hp : p ∈ coldPages s) (i : Nat) : (coldPages (s.enter p i)).card + 1 = (coldPages s).card := by
  have he : coldPages (s.enter p i) = (coldPages s).erase p := by
    ext r
    simp only [coldPages, Finset.mem_filter, Finset.mem_erase]
    by_cases hr : r = p
    · simp [hr, AddrSpace.enter_valid]
    · rw [AddrSpace.enter_of_ne s i hr]
      simp [hr, AddrSpace.enter]
  rw [he, Finset.card_erase_add_one hp]

namespace View

variable (h : View k s f q)
include h

theorem withRegisters {registers : Register → Word} {q' : Processor} (hl : (registers loadReg).toNat < numGPRegs)
    (hm : q'.memory = q.memory) (hsize : q'.size = q.size)
    (hcpu : q'.cpu = (Kernel.machine { k with registers } s).visible) (hz : registers (gpReg 0) = 0)
    (hload : (registers loadReg = 0 ∧ registers loadValueReg = 0) ∨
      ∃ i, q'.loading = some i ∧ (registers loadReg).toNat = i) : View { k with registers } s f q' :=
  ⟨hm ▸ h.paged.withRegisters hl, h.virtualOption, hsize.trans h.size, hcpu, hz, hload⟩

theorem pagedIn (hp : p ∈ coldPages s) {i : Nat} (hi : i < numPhysPages) (him : i ∉ k.bitMap.marked) :
    View (k.pagedIn s f p i) (s.enter p i) f q := by
  have hm := Finset.mem_filter.mp hp
  exact ⟨h.paged.pagedIn (Finset.mem_range.mp hm.1) hm.2 hi him, h.virtualOption, h.size, h.cpu, h.zero, h.loading⟩

theorem serve (hp : (k.registers badVAddrReg).toNat / pageSize ∈ coldPages s) :
    (k.bitMap.numClear = 0 ∧ k.trap .pageFaultException = .ok .exited) ∨
      0 < k.bitMap.numClear ∧ ∃ k', k.trap .pageFaultException = .ok (.returned () k') ∧
        ∃ i, View k' (s.enter ((k.registers badVAddrReg).toNat / pageSize) i) f q ∧
          k'.bitMap.numClear + 1 = k.bitMap.numClear := by
  rcases Nat.eq_zero_or_pos k.bitMap.numClear with hz | hpos
  · exact .inl ⟨hz, pageFault_full hz h.virtualOption⟩
  · obtain ⟨i, hi, him, -, hfind⟩ := BitMap.find_of_clear hpos
    have hin := Finset.mem_range.mp (Finset.mem_filter.mp hp).1
    refine .inr ⟨hpos, _, pageFault_eq h.paged.space h.paged.swap (h.paged.page_eq hin) hin hfind, i,
      h.pagedIn hp (h.paged.bits ▸ hi) him, ?_⟩
    have hc := (k.pagedIn s f ((k.registers badVAddrReg).toNat / pageSize) i).bitMap.numClear_add_card
    have hc' := k.bitMap.numClear_add_card
    rw [marked_pagedIn hi, Finset.card_insert_of_notMem him] at hc
    have hbits : (k.pagedIn s f ((k.registers badVAddrReg).toNat / pageSize) i).bitMap.numBits = k.bitMap.numBits := rfl
    omega

theorem turn_cases (hs : q.Supported) :
    (∃ k' q', k.turn = .ok (.completed k') ∧ q.step = .ok q' ∧ ∃ t, SameMapping s.pageTable t ∧
      k'.bitMap = k.bitMap ∧ View k' { s with pageTable := t } f q') ∨
    (∃ k' which, k.turn = .ok (.handler which k') ∧ q.step = .error which ∧ which ≠ .pageFaultException ∧
      ∃ t, SameMapping s.pageTable t ∧ k'.bitMap = k.bitMap ∧ View k' { s with pageTable := t } f q) ∨
    (∃ k', k.turn = .ok (.handler .pageFaultException k') ∧ ∃ t, SameMapping s.pageTable t ∧ k'.bitMap = k.bitMap ∧
      View k' { s with pageTable := t } f q ∧ (k'.registers badVAddrReg).toNat / pageSize ∈ coldPages s) := by
  rcases h.turn_shows hs with ⟨m, q', hk, hq, t, -, hmap, -, hv⟩ | ⟨m, which, hk, hq, hne, t, -, hmap, -, hv⟩ |
    ⟨m, hk, ⟨t, -, hmap, -, hv⟩, hmiss⟩
  · exact .inl ⟨_, q', hk, hq, t, hmap, rfl, hv⟩
  · exact .inr (.inl ⟨_, which, hk, hq, hne, t, hmap, rfl, hv⟩)
  · exact .inr (.inr ⟨_, hk, t, hmap, rfl, hv, Finset.mem_filter.mpr ⟨Finset.mem_range.mpr hmiss.inside, hmiss.cold⟩⟩)

theorem fetch_resident (hin : q.Inside q.cpu.pc 4) {k' : Kernel} {which : ExceptionType}
    (ht : k.turn = .ok (.handler which k')) (hne : which ≠ .pageFaultException) :
    q.cpu.pc.toNat / pageSize ∉ coldPages s := by
  intro hc
  have hpc : (k.machine s).registers pcReg = q.cpu.pc := h.pc
  have hcold : (s.pageTable (q.cpu.pc.toNat / pageSize)).valid = false := (Finset.mem_filter.mp hc).2
  simp only [turn, h.paged.space, ok_bind, Machine.oneInstruction, hpc] at ht
  rcases h.translate (.inr (.inr rfl)) q.cpu.pc false with ⟨hout, -⟩ | ⟨-, -, -, htr⟩ | ⟨-, -, -, hv, -⟩
  · exact hout hin
  · rw [readMem_of_fail htr, raiseException_eq h.paged.loadReg] at ht
    obtain ⟨rfl, -⟩ := Turn.handler.inj (Except.ok.inj ht)
    exact hne rfl
  · cases hcold.symm.trans hv

theorem refines (hs : q.Supported) : Refines q k.turn := by
  rcases h.turn_cases hs with ⟨k', q', hk, hq, t, -, -, hv⟩ | ⟨k', which, hk, hq, hne, t, -, -, hv⟩ |
    ⟨k', hk, t, hmap, -, hv, hc⟩
  · rw [hk]
    exact .completed hq ⟨_, f, hv⟩
  · rw [hk]
    exact .trapped hq hne ⟨_, f, hv⟩
  · rw [hk]
    rw [← coldPages_congr hmap] at hc
    rcases hv.serve hc with ⟨hz, he⟩ | ⟨-, k₂, he, i, hv', -⟩
    · exact .full ⟨_, f, hv⟩ hz he
    · exact .served ⟨_, f, hv⟩ he ⟨_, f, hv'⟩

theorem interrupt {m : Machine} (hm : (k.machine s).delayedLoad 0 0 = .ok m) : View (k.resume s m) s f q := by
  obtain ⟨n, hn, hset, -, hreg⟩ := delayedLoad_settled h.sane h.zero
  obtain rfl := Except.ok.inj (hn.symm.trans hm)
  have hk : k.resume s n = { k with registers := n.registers } := by
    rw [hreg]
    exact setSpace_self (k := { k with registers := n.registers }) h.paged.space
  have hz : n.gpr 0 = 0 := (hset.gpr (fun he => he.symm)).trans h.zero
  have hr : n.Ready := ⟨hz, hset.loadReg⟩
  rw [hk]
  refine h.withRegisters ?_ rfl rfl ?_ hz (.inl ⟨hset.loadReg, hset.loadValue⟩)
  · rw [hset.loadReg]
    decide
  · have hv : (Kernel.machine { k with registers := n.registers } s).visible = n.visible := visible_congr fun _ _ => rfl
    rw [hv, hr.visible, hset.visible h.zero, h.cpu]

end View

end Kernel

namespace Processor

def Next (q q' : Processor) : Prop := q.step = .ok q'

theorem next_unique (a b c : Processor) (h : a.Next b) (h' : a.Next c) : b = c :=
  Except.ok.inj (Eq.trans (Eq.symm h) h')

theorem step_of_word {q : Processor} {w : Word} {op : OpCode} (hin : q.Inside q.cpu.pc 4) (hf : q.fetched = w)
    (hop : (decode w).opCode = op) : q.step = q.perform w op := by
  rw [step, if_pos hin, hf, hop]

/-- The program never leaves what the interpreter supports. -/
def Disciplined (p : Processor) : Prop := ∀ n q, Steps Next p n q → q.Supported

def boot (memory : Buffer) (size : Nat) : Processor where
  cpu := ⟨Function.update (fun _ => 0) 29 (.ofNat 32 size - 16), 0, 0, 0, 4⟩
  memory := memory
  size := size
  loading := none

end Processor

namespace Kernel

open AddrSpace

variable {k k₀ : Kernel} {filename : Name} {executable f : UnixFile} {noffH : NoffHeader} {p : Processor} {s : AddrSpace}

/-- `k` runs the program of `q`, which `p` has reached. -/
structure Runs (c : Nat) (p : Processor) (k : Kernel) (q : Processor) : Prop where
  view : ∃ s f, View k s f q ∧ k.Roomy c s
  reached : ∃ n, Steps Processor.Next p n q

variable {c : Nat}

theorem simulates (c : Nat) (hp : p.Disciplined) : Simulates UserStep Silent Processor.Next (Runs c p) where
  visible := by
    rintro k e k' q ⟨⟨s, f, h, hroom⟩, n, hn⟩ hs he
    obtain rfl := not_not.mp he
    rcases h.turn_cases (hp n q hn) with ⟨k₁, q', hk, hq, t, hmap, hb, hv⟩ | ⟨k₁, which, hk, -⟩ | ⟨k₁, hk, -⟩
    · cases hk.symm.trans hs
      refine ⟨q', hq, ⟨_, f, hv, ?_⟩, n + 1, hn.succ hq⟩
      rw [Roomy, coldPages_congr hmap, hb]
      exact hroom
    · cases hk.symm.trans hs
    · cases hk.symm.trans hs
  silent := by
    rintro k e k' q ⟨⟨s, f, h, hroom⟩, n, hn⟩ hs he
    refine ⟨?_, n, hn⟩
    cases e with
    | instruction => exact absurd rfl he
    | pageFault =>
      obtain ⟨k₁, hk₁, ht⟩ := hs
      rcases h.turn_cases (hp n q hn) with ⟨k₂, q', hk, -⟩ | ⟨k₂, which, hk, -, hne, -⟩ | ⟨k₂, hk, t, hmap, hb, hv, hc⟩
      · cases hk.symm.trans hk₁
      · cases hk.symm.trans hk₁
        exact absurd rfl hne
      · cases hk.symm.trans hk₁
        rw [← coldPages_congr hmap] at hc
        rw [Roomy, ← coldPages_congr hmap, ← hb] at hroom
        rcases hv.serve hc with ⟨-, he⟩ | ⟨-, k₃, he, i, hv', hcount⟩
        · cases he.symm.trans ht
        · cases he.symm.trans ht
          have hi := coldPages_enter hc i
          refine ⟨_, f, hv', ?_⟩
          rw [Roomy]
          omega
    | interrupt =>
      obtain ⟨s', m, hs', hm, rfl⟩ := hs
      obtain rfl := Except.ok.inj (h.paged.space.symm.trans hs')
      exact ⟨s, f, h.interrupt hm, hroom⟩

theorem Runs.served (h : Runs 0 p k q) (hp : p.Disciplined) {k₁ : Kernel}
    (hk : k.turn = .ok (.handler .pageFaultException k₁)) : ∃ k₂, k₁.trap .pageFaultException = .ok (.returned () k₂) ∧
      Runs 0 p k₂ q ∧ k₂.coldCount < k.coldCount := by
  obtain ⟨⟨s, f, h, hroom⟩, n, hn⟩ := h
  rcases h.turn_cases (hp n q hn) with ⟨k₂, q', hk', -⟩ | ⟨k₂, which, hk', -, hne, -⟩ |
    ⟨k₂, hk', t, hmap, hb, hv, hc⟩
  · cases hk'.symm.trans hk
  · cases hk'.symm.trans hk
    exact absurd rfl hne
  · cases hk'.symm.trans hk
    rw [← coldPages_congr hmap] at hc
    have hpos := Finset.card_pos.mpr ⟨_, hc⟩
    rw [Roomy, ← coldPages_congr hmap, ← hb] at hroom
    rcases hv.serve hc with ⟨hz, -⟩ | ⟨-, k₂, he, i, hv', hcount⟩
    · omega
    · have hi := coldPages_enter hc i
      refine ⟨k₂, he, ⟨⟨_, f, hv', ?_⟩, n, hn⟩, ?_⟩
      · rw [Roomy]
        omega
      · simp only [coldCount, hv'.paged.space, h.paged.space]
        rw [← coldPages_congr (s := s) hmap]
        omega

theorem Runs.traps (h : Runs 0 p k q) (hp : p.Disciplined) {which : ExceptionType} (hq : q.step = .error which) :
    ∃ k₁ k₂ s f t, Observed UserStep Silent k 0 k₁ ∧ View k₁ s f q ∧ k₁.turn = .ok (.handler which k₂) ∧
      which ≠ .pageFaultException ∧ SameMapping s.pageTable t ∧ View k₂ { s with pageTable := t } f q := by
  induction hc : k.coldCount using Nat.strongRecOn generalizing k with
  | ind _ ih =>
    obtain ⟨s, f, hv, -⟩ := h.view
    obtain ⟨n, hn⟩ := h.reached
    rcases hv.turn_cases (hp n q hn) with ⟨k₁, q', hk, hs, -⟩ | ⟨k₁, which', hk, hs, hne, t, hmap, -, hv'⟩ | ⟨k₁, hk, -⟩
    · cases hs.symm.trans hq
    · obtain rfl := Except.error.inj (hs.symm.trans hq)
      exact ⟨k, k₁, s, f, t, .start, hv, hk, hne, hmap, hv'⟩
    · obtain ⟨k₂, he, hr, hlt⟩ := h.served hp hk
      have hfirst : Observed UserStep Silent k 0 k₂ := .silent .pageFault .start ⟨k₁, hk, he⟩ (by simp [Silent])
      obtain ⟨k₃, k₄, s', f', t, hobs, hrest⟩ := ih k₂.coldCount (hc ▸ hlt) hr rfl
      exact ⟨k₃, k₄, s', f', t, hfirst.trans hobs, hrest⟩

theorem serves (hp : p.Disciplined) : Serves UserStep Silent Processor.Next (Runs 0 p) coldCount := by
  rintro k q q' hr hq
  obtain ⟨s, f, h, hroom⟩ := hr.view
  obtain ⟨n, hn⟩ := hr.reached
  have hq' : q.step = .ok q' := hq
  rcases h.turn_cases (hp n q hn) with ⟨k₁, q₁, hk, hs, t, hmap, hb, hv⟩ | ⟨k₁, which, hk, hs, -⟩ | ⟨k₁, hk, -⟩
  · obtain rfl := Except.ok.inj (hs.symm.trans hq')
    refine .inl ⟨.instruction, k₁, hk, fun he => he rfl, ⟨_, f, hv, ?_⟩, n + 1, hn.succ hq⟩
    rw [Roomy, coldPages_congr hmap, hb]
    exact hroom
  · cases hs.symm.trans hq'
  · obtain ⟨k₂, he, hr', hlt⟩ := hr.served hp hk
    exact .inr ⟨.pageFault, k₂, ⟨k₁, hk, he⟩, by simp [Silent], hr', hlt⟩

theorem initRegisters_gpr (s : AddrSpace) (i : Fin numGPRegs) : s.initRegisters (gpReg i) =
    Function.update (fun _ => (0 : Word)) 29 (s.numPages * .ofNat 32 pageSize - 16) i := by
  rw [initRegisters]
  by_cases hi : i = 29
  · rw [hi, Function.update_self]
    exact Function.update_self ..
  · have hne : gpReg i ≠ stackReg := fun he => hi (gpReg_inj (j := 29) he)
    rw [Function.update_of_ne hi, Function.update_of_ne hne, Function.update_of_ne (gpReg_ne (by decide))]

theorem load_visible (k : Kernel) (s : AddrSpace) (files : Files) (memory : Buffer) :
    (Processor.boot memory (s.numPages.toNat * pageSize)).cpu = ((k.load s files).machine s).visible := by
  have hz : ((k.load s files).machine s).gpr 0 = 0 := (initRegisters_gpr s 0).trans rfl
  have hr : ((k.load s files).machine s).Ready := ⟨hz, s.initRegisters_loadReg⟩
  have hsp : BitVec.ofNat 32 (s.numPages.toNat * pageSize) = s.numPages * .ofNat 32 pageSize := by
    rw [BitVec.ofNat_mul, BitVec.ofNat_toNat, BitVec.setWidth_eq]
  rw [hr.visible]
  apply Cpu.ext
  · funext i
    simp only [Processor.boot, hsp]
    exact (initRegisters_gpr s i).symm
  all_goals rfl

theorem startProcess_view (hb : k.Booted) (he : k.files filename = some executable)
    (hh : readHeader k.host k.garbage executable = .ok noffH) (hw : noffH.size.toNat ≤ 2 ^ 32 - 256)
    (h : k.startProcess filename = .ok (some k₀)) (hs : k₀.space = .ok s) (hf : k₀.files s.swapFileName = some f) :
    View k₀ s f (.boot f.bytes (s.numPages.toNat * pageSize)) ∧ (coldPages s).card ≤ s.numPages.toNat ∧
      k₀.bitMap.numClear = numPhysPages := by
  obtain ⟨s', files, hn, rfl⟩ := startProcess_eq h
  obtain rfl := Except.ok.inj ((load_space s' files).symm.trans hs)
  obtain ⟨f', hf', hp⟩ := hb.paged (new_built he hh hn) hw
  obtain rfl := Option.some.inj (hf'.symm.trans hf)
  obtain ⟨words, hbits⟩ := hb.bitMap
  refine ⟨⟨hp, hb.virtualOption, rfl, load_visible ..,
    (initRegisters_gpr s' 0).trans rfl, .inl ⟨s'.initRegisters_loadReg, ?_⟩⟩, ?_, ?_⟩
  · change s'.initRegisters loadValueReg = 0
    rw [initRegisters, Function.update_of_ne (by decide), Function.update_of_ne (by decide)]
  · exact (Finset.card_filter_le ..).trans (Finset.card_range _).le
  · have hc := k.bitMap.numClear_add_card
    rw [hbits, BitMap.marked_new, Finset.card_empty, BitMap.new_numBits] at hc
    change k.bitMap.numClear = _
    rw [hbits]
    omega

theorem startProcess_image (he : k.files filename = some executable)
    (hh : readHeader k.host k.garbage executable = .ok noffH) (hw : noffH.size.toNat ≤ 2 ^ 32 - 256)
    (h : k.startProcess filename = .ok (some k₀)) (hs : k₀.space = .ok s) (hf : k₀.files s.swapFileName = some f) :
    ∀ a < s.numPages.toNat * pageSize, noffHeaderSize + a < (source executable filename (swapName 0)).length →
      f.bytes a = (source executable filename (swapName 0)).bytes (noffHeaderSize + a) := by
  obtain ⟨s', files, hn, rfl⟩ := startProcess_eq h
  obtain rfl := Except.ok.inj ((load_space s' files).symm.trans hs)
  simp only [AddrSpace.new, he, hh, ok_bind] at hn
  split_ifs at hn with hm
  · simp at hn
  · obtain ⟨files₁, hm, hn⟩ := bind_eq_ok.mp hn
    obtain ⟨swapFile, hswap, -, hbytes⟩ := makeSwap_bytes he hm
    obtain ⟨hs', rfl⟩ := Prod.mk.inj (Except.ok.inj hn)
    obtain rfl := Option.some.inj hs'
    obtain rfl := Option.some.inj (hswap.symm.trans hf)
    intro a ha hlen
    rw [hbytes a (by rw [size_toNat hw]; exact ha), if_pos hlen]

theorem startProcess_runs (c : Nat) (hb : k.Booted) (he : k.files filename = some executable)
    (hh : readHeader k.host k.garbage executable = .ok noffH) (hw : noffH.size.toNat ≤ 2 ^ 32 - 256)
    (h : k.startProcess filename = .ok (some k₀)) (hs : k₀.space = .ok s) (hf : k₀.files s.swapFileName = some f)
    (hc : s.numPages.toNat ≤ numPhysPages + c) :
    Runs c (.boot f.bytes (s.numPages.toNat * pageSize)) k₀ (.boot f.bytes (s.numPages.toNat * pageSize)) := by
  obtain ⟨hview, hcold, hclear⟩ := startProcess_view hb he hh hw h hs hf
  refine ⟨⟨s, f, hview, ?_⟩, 0, .zero⟩
  rw [Roomy, hclear]
  omega

/-- `StartProcess` starts the program on the processor, and the kernel then does what the processor does: whatever
page faults and interrupts come, after `n` instructions it shows the processor's state after `n` steps, and its next
turn is the processor's next step. -/
theorem startProcess_refines (hb : k.Booted) (he : k.files filename = some executable)
    (hh : readHeader k.host k.garbage executable = .ok noffH) (hw : noffH.size.toNat ≤ 2 ^ 32 - 256)
    (h : k.startProcess filename = .ok (some k₀)) (hs : k₀.space = .ok s) (hf : k₀.files s.swapFileName = some f)
    (hp : (Processor.boot f.bytes (s.numPages.toNat * pageSize)).Disciplined) :
    (∀ a < s.numPages.toNat * pageSize, noffHeaderSize + a < (source executable filename (swapName 0)).length →
      f.bytes a = (source executable filename (swapName 0)).bytes (noffHeaderSize + a)) ∧
    ∀ n k', Observed UserStep Silent k₀ n k' → ∃ q,
      Steps Processor.Next (.boot f.bytes (s.numPages.toNat * pageSize)) n q ∧ k'.Shown q ∧ Refines q k'.turn := by
  refine ⟨startProcess_image he hh hw h hs hf, fun n k' hn => ?_⟩
  have hstart := startProcess_runs s.numPages.toNat hb he hh hw h hs hf (Nat.le_add_left ..)
  obtain ⟨q, hq, hr⟩ := (simulates s.numPages.toNat hp).run hstart hn
  obtain ⟨s', f', hv, -⟩ := hr.view
  exact ⟨q, hq, ⟨s', f', hv⟩, hv.refines (hp n q hq)⟩

def programFile (text : List Word) : UnixFile :=
  ⟨noffHeaderSize + 4 * text.length, ofWords fun i => if i < 10 then
    if i = 0 then noffMagic else if i = 2 then 40 else if i = 3 then .ofNat 32 (4 * text.length) else 0
    else text.getD (i - 10) 0⟩

def programKernel (text : List Word) : Kernel :=
  { Kernel.boot 0 with files := fun name => if name = [112] then some (programFile text) else none }

def programHeader (text : List Word) : NoffHeader :=
  ⟨noffMagic, ⟨0, 40, .ofNat 32 (4 * text.length)⟩, ⟨0, 0, 0⟩, ⟨0, 0, 0⟩⟩

theorem programKernel_files (text : List Word) : (programKernel text).files [112] = some (programFile text) := by
  simp only [programKernel, ↓reduceIte]

theorem programKernel_booted (text : List Word) : (programKernel text).Booted := ⟨fun _ => rfl, ⟨_, rfl⟩, rfl⟩

theorem programFile_header (text : List Word) (garbage : Garbage) :
    readHeader .littleEndian garbage (programFile text) = .ok (programHeader text) := by
  have hw (i : Nat) : Host.loadWord .littleEndian (programFile text).bytes (4 * i) = if i < 10 then
      if i = 0 then noffMagic else if i = 2 then 40 else if i = 3 then .ofNat 32 (4 * text.length) else 0
      else text.getD (i - 10) 0 :=
    wordAt_ofWords _ i
  rw [readHeader_ofFile _ _ (Nat.le_add_right ..), NoffHeader.ofFile, NoffHeader.load]
  simp only [hw]
  rfl

theorem programFile_word {text : List Word} {i : Nat} {w : Word} (hi : text[i]? = some w) :
    (programFile text).bytes.wordAt (4 * (10 + i)) = w := by
  refine (wordAt_ofWords _ (10 + i)).trans ?_
  rw [if_neg (by omega), Nat.add_sub_cancel_left, List.getD_eq_getElem?_getD, hi]
  rfl

theorem programFile_offset {text : List Word} {i j : Nat} (hi : i < text.length) (hj : j < 4) :
    noffHeaderSize + (4 * i + j) < (programFile text).length ∧ noffHeaderSize + (4 * i + j) = 4 * (10 + i) + j := by
  simp only [programFile, noffHeaderSize]
  omega

theorem programHeader_pages {text : List Word} (hlen : 0 < text.length ∧ text.length ≤ 64) :
    (programHeader text).size.toNat = 4 * text.length + 1024 ∧ (pagesFor (programHeader text).size).toNat = 5 := by
  have hsize : (programHeader text).size.toNat = 4 * text.length + 1024 := by
    simp only [programHeader, NoffHeader.size, NoffHeader.userStackSize, BitVec.toNat_add, BitVec.ofNat_eq_ofNat,
      BitVec.toNat_ofNat]
    omega
  refine ⟨hsize, ?_⟩
  rw [pagesFor_toNat, hsize]
  omega

theorem program_starts {text : List Word} (hlen : 0 < text.length ∧ text.length ≤ 64) :
    (programHeader text).size.toNat ≤ 2 ^ 32 - 256 ∧ ∃ k₀ s f, (programKernel text).startProcess [112] = .ok (some k₀) ∧
      k₀.space = .ok s ∧ k₀.files s.swapFileName = some f ∧ s.numPages.toNat = 5 ∧
      ∀ i w, text[i]? = some w → f.bytes.wordAt (4 * i) = w := by
  have he := programKernel_files text
  have hh : readHeader (programKernel text).host (programKernel text).garbage (programFile text) = .ok (programHeader text) :=
    programFile_header text _
  obtain ⟨hsize, hpages⟩ := programHeader_pages hlen
  obtain ⟨k₀, h⟩ := startProcess_completes he hh rfl (size_fits (.inl (by omega)))
  obtain ⟨s, files, hn, hk⟩ := startProcess_eq h
  obtain ⟨f, hf, -⟩ := (programKernel_booted text).paged (new_built he hh hn) (by omega)
  have hs : k₀.space = .ok s := hk ▸ load_space s files
  have hf' : k₀.files s.swapFileName = some f := by rw [hk]; exact hf
  have hnum : s.numPages.toNat = 5 := by rw [(new_built he hh hn).numPages, hpages]
  refine ⟨by omega, k₀, s, f, h, hs, hf', hnum, fun i w hi => ?_⟩
  have himage := startProcess_image he hh (by omega) h hs hf'
  have hsource : source (programFile text) [112] (swapName 0) = programFile text := if_neg (Loading.Program.swapName_ne 0)
  rw [hsource, hnum, pageSize_eq] at himage
  obtain ⟨hlt, -⟩ := List.getElem?_eq_some_iff.mp hi
  rw [← programFile_word hi]
  apply wordAt_congr
  intro j hj
  obtain ⟨hlength, hindex⟩ := programFile_offset hlt hj
  rw [himage (4 * i + j) (by omega) hlength, hindex]

def loopKernel : Kernel := programKernel [0x1000ffff, 0]

structure Looping (memory : Buffer) (q : Processor) : Prop where
  memory : q.memory = memory
  size : q.size = 1280
  loading : q.loading = none
  pc : (q.cpu.pc = 0 ∧ q.cpu.nextPC = 4) ∨ (q.cpu.pc = 4 ∧ q.cpu.nextPC = 0)

theorem Looping.fetched {memory : Buffer} {q : Processor} (h : Looping memory q) (h0 : memory.wordAt 0 = 0x1000ffff)
    (h4 : memory.wordAt 4 = 0) : q.Inside q.cpu.pc 4 ∧
      ((q.cpu.nextPC = 4 ∧ q.fetched = 0x1000ffff) ∨ (q.cpu.nextPC = 0 ∧ q.fetched = 0)) := by
  rw [Processor.Inside, h.size, Processor.fetched, h.memory]
  rcases h.pc with ⟨hpc, hn⟩ | ⟨hpc, hn⟩
  · rw [hpc]
    exact ⟨by decide, .inl ⟨hn, h0⟩⟩
  · rw [hpc]
    exact ⟨by decide, .inr ⟨hn, h4⟩⟩

theorem perform_loop (q : Processor) : q.perform 0x1000ffff .beq =
    .ok { q with cpu := q.cpu.jump (.ofInt 32 (q.cpu.nextPC.toNat - 4)), loading := none } := by
  have hs : q.cpu.step .beq 0x1000ffff = some (q.cpu.jump (.ofInt 32 (q.cpu.nextPC.toNat - 4))) := by
    have hfields : Fin.ofNat 32 ((0x1000ffff : Word).toNat / 2 ^ 21) = Fin.ofNat 32 ((0x1000ffff : Word).toNat / 2 ^ 16) := by
      decide
    have hoffset : 4 * ((0x1000ffff : Word).setWidth 16).toInt = -4 := by decide
    simp only [Cpu.step, hfields, decide_true, if_true, hoffset]
    rfl
  simp only [Processor.perform, hs]

theorem perform_nop (q : Processor) : q.perform 0 .sll = .ok { q with cpu := q.cpu.advance, loading := none } := by
  have hs : q.cpu.step .sll 0 = some q.cpu.advance := by
    simp only [Cpu.step, Cpu.put]
    rfl
  simp only [Processor.perform, hs]

theorem Looping.runs {memory : Buffer} {q : Processor} (h : Looping memory q) (h0 : memory.wordAt 0 = 0x1000ffff)
    (h4 : memory.wordAt 4 = 0) : ∃ q', q.step = .ok q' ∧ Looping memory q' := by
  obtain ⟨hin, ⟨hnext, hf⟩ | ⟨hnext, hf⟩⟩ := h.fetched h0 h4
  · have hop : (decode 0x1000ffff).opCode = .beq := by decide
    rw [Processor.step_of_word hin hf hop, perform_loop]
    refine ⟨_, rfl, h.memory, h.size, rfl, .inr ⟨hnext, ?_⟩⟩
    simp only [Cpu.jump, hnext]
    rfl
  · have hop : (decode 0).opCode = .sll := by decide
    rw [Processor.step_of_word hin hf hop, perform_nop]
    refine ⟨_, rfl, h.memory, h.size, rfl, .inl ⟨hnext, ?_⟩⟩
    simp only [Cpu.advance, Cpu.jump, hnext]
    rfl

theorem Looping.next {memory : Buffer} {q q' : Processor} (h : Looping memory q) (h0 : memory.wordAt 0 = 0x1000ffff)
    (h4 : memory.wordAt 4 = 0) (hn : q.Next q') : Looping memory q' := by
  obtain ⟨q₁, hq, hl⟩ := h.runs h0 h4
  obtain rfl := Except.ok.inj (hq.symm.trans hn)
  exact hl

theorem Looping.supported {memory : Buffer} {q : Processor} (h : Looping memory q) (h0 : memory.wordAt 0 = 0x1000ffff)
    (h4 : memory.wordAt 4 = 0) : q.Supported := by
  obtain ⟨-, hf⟩ := h.fetched h0 h4
  constructor
  · intro _
    rcases hf with ⟨-, hf⟩ | ⟨-, hf⟩
    · have hop : (decode 0x1000ffff).opCode = .beq := by decide
      simp only [hf, Cpu.Defined, hop]
    · have hop : (decode 0).opCode = .sll := by decide
      simp only [hf, Cpu.Defined, hop]
  · intro _ i _
    simp [h.loading]

theorem Looping.disciplined {memory : Buffer} (h : Looping memory p) (h0 : memory.wordAt 0 = 0x1000ffff)
    (h4 : memory.wordAt 4 = 0) : p.Disciplined := by
  intro n q hn
  have hq : Looping memory q := by
    induction hn with
    | zero => exact h
    | succ _ hs ih => exact ih.next h0 h4 hs
  exact hq.supported h0 h4

theorem loopKernel_starts : ∃ k₀ s f, loopKernel.startProcess [112] = .ok (some k₀) ∧ k₀.space = .ok s ∧
    k₀.files s.swapFileName = some f ∧ s.numPages.toNat = 5 ∧
    (Processor.boot f.bytes (s.numPages.toNat * pageSize)).Disciplined := by
  obtain ⟨-, k₀, s, f, h, hs, hf, hnum, htext⟩ :=
    program_starts (show 0 < [(0x1000ffff : Word), 0].length ∧ [(0x1000ffff : Word), 0].length ≤ 64 by decide)
  have hsize : s.numPages.toNat * pageSize = 1280 := by rw [hnum, pageSize_eq]
  refine ⟨k₀, s, f, h, hs, hf, hnum, ?_⟩
  have hloop : Looping f.bytes (.boot f.bytes (s.numPages.toNat * pageSize)) := ⟨rfl, hsize, rfl, .inl ⟨rfl, rfl⟩⟩
  apply hloop.disciplined
  · exact htext 0 _ rfl
  · exact htext 1 _ rfl

theorem startProcess_refines_loop : ∃ k₀ s f, loopKernel.startProcess [112] = .ok (some k₀) ∧ k₀.space = .ok s ∧
    k₀.files s.swapFileName = some f ∧ ∀ n k', Observed UserStep Silent k₀ n k' → ∃ q,
      Steps Processor.Next (.boot f.bytes (s.numPages.toNat * pageSize)) n q ∧ k'.Shown q ∧ Refines q k'.turn := by
  obtain ⟨k₀, s, f, h, hs, hf, -, hp⟩ := loopKernel_starts
  exact ⟨k₀, s, f, h, hs, hf, (startProcess_refines (programKernel_booted _) (programKernel_files _)
    (programFile_header _ _) (by decide) h hs hf hp).2⟩

/-- When the pages of the program fit in memory the simulator never gives up: each fault is served, and from wherever
the run has come the kernel reaches every later state of the processor. -/
theorem startProcess_progresses (hb : k.Booted) (he : k.files filename = some executable)
    (hh : readHeader k.host k.garbage executable = .ok noffH) (hw : noffH.size.toNat ≤ 2 ^ 32 - 256)
    (h : k.startProcess filename = .ok (some k₀)) (hs : k₀.space = .ok s) (hf : k₀.files s.swapFileName = some f)
    (hp : (Processor.boot f.bytes (s.numPages.toNat * pageSize)).Disciplined)
    (hfit : s.numPages.toNat ≤ numPhysPages) {n : Nat} {k' : Kernel} (hn : Observed UserStep Silent k₀ n k') :
    (∀ k₁, k'.turn = .ok (.handler .pageFaultException k₁) →
      ∃ k₂, k₁.trap .pageFaultException = .ok (.returned () k₂)) ∧
    ∀ m q, Steps Processor.Next (.boot f.bytes (s.numPages.toNat * pageSize)) (n + m) q →
      ∃ k'', Observed UserStep Silent k' m k'' ∧ k''.Shown q := by
  have hstart := startProcess_runs 0 hb he hh hw h hs hf hfit
  obtain ⟨q₁, hq₁, hr⟩ := (simulates 0 hp).run hstart hn
  constructor
  · intro k₁ hk
    obtain ⟨k₂, he, -⟩ := hr.served hp hk
    exact ⟨k₂, he⟩
  · intro m q hq
    obtain ⟨q₂, hq₂, hm⟩ := hq.split
    obtain rfl := hq₂.unique Processor.next_unique hq₁
    obtain ⟨k'', hk, hr'⟩ := (serves hp).run hr hm
    obtain ⟨s', f', hv, -⟩ := hr'.view
    exact ⟨k'', hk, s', f', hv⟩

theorem startProcess_progresses_loop : ∃ k₀ s f, loopKernel.startProcess [112] = .ok (some k₀) ∧
    k₀.space = .ok s ∧ k₀.files s.swapFileName = some f ∧
    ∀ m q, Steps Processor.Next (.boot f.bytes (s.numPages.toNat * pageSize)) m q →
      ∃ k', Observed UserStep Silent k₀ m k' ∧ k'.Shown q := by
  obtain ⟨k₀, s, f, h, hs, hf, hn, hp⟩ := loopKernel_starts
  refine ⟨k₀, s, f, h, hs, hf, fun m q hq => ?_⟩
  exact (startProcess_progresses (programKernel_booted _) (programKernel_files _) (programFile_header _ _) (by decide) h hs
    hf hp (by rw [hn]; decide) .start).2 m q (by rwa [Nat.zero_add])

end Kernel

end Nachos
