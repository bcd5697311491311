import Nachos.UserProg.PrivateMemory
import Nachos.UserProg.Replay

namespace Nachos

open Buffer Machine Reply

namespace Kernel

variable {k k' : Kernel} {s s' : AddrSpace} {f : UnixFile} {q q' : Processor} {m : Machine} {t : Tid} {a : Word}

theorem View.sees (h : View k s f q) : Sees k.registers s q :=
  ⟨h.paged.loadReg, h.size, fun _ hm => h.cpu.trans (visible_congr fun r _ => (congrFun hm r).symm), h.zero, h.loading⟩

theorem View.of_sees (hp : Paged k s f q.memory) (ho : k.virtualOption = 0) (h : Sees k.registers s q) : View k s f q :=
  ⟨hp, ho, h.size, h.cpu _ rfl, h.zero, h.loading⟩

theorem Inv.resume (h : k.Inv) (hs : k.space = .ok s) {u : Nat → TranslationEntry} (hu : m.pageTable = some u)
    (hmap : SameMapping s.pageTable u) (hl : (m.registers Nachos.loadReg).toNat < numGPRegs) : (k.resume s m).Inv := by
  have hk : k.resume s m =
      Kernel.setSpace { k with registers := m.registers, mainMemory := m.mainMemory } { s with pageTable := u } := by
    rw [Kernel.resume, hu]
    rfl
  have hs₁ : Kernel.space { k with registers := m.registers, mainMemory := m.mainMemory } = .ok s := hs
  rw [hk]
  refine h.frame rfl (fun t ht => setSpace_fresh hs₁ h.fresh _ ht) hl fun t p g => ?_
  rw [owns_setSpace hs₁]
  by_cases ht : t = k.current
  · subst ht
    rw [owns_current hs]
    simp [hmap.valid, hmap.physicalPage]
  · simp [ht, Owns]

theorem setSpace_others {k : Kernel} {s : AddrSpace} {t : Tid} (ht : t ≠ k.current) :
    (k.setSpace s).processes t = k.processes t := by
  simp only [setSpace, setProcess, Function.update_of_ne ht]

theorem readMem_others {v : Buffer} {r : Option Word} (h : Paged k s f v) (he : k.readMem a 1 = .ok (.returned r k')) :
    (∀ t, t ≠ k.current → k'.processes t = k.processes t) ∧ k'.current = k.current ∧ k'.threadID = k.threadID := by
  rcases h.read_cases (.inl rfl) he with ⟨-, registers, -, -, -, ⟨fifo, random, rfl⟩ | ⟨i, -, -, rfl⟩⟩ | ⟨w, -, -, rfl⟩
  · exact ⟨fun _ _ => rfl, rfl, rfl⟩
  · exact ⟨fun t ht => setSpace_others ht, rfl, rfl⟩
  · exact ⟨fun t ht => setSpace_others ht, rfl, rfl⟩

theorem execFile_new {filename : Name} (he : k.execFile filename = .ok k') : k' = k ∨ ∃ space files,
    AddrSpace.new k.host k.garbage k.files filename k.threadID = .ok (space, files) ∧
      (k' = k.spawn space files ∨ ∃ p, k.processes k.current = some p ∧ k' = k.refuse p files) := by
  unfold Kernel.execFile at he
  split at he
  · cases he
    exact .inl rfl
  · obtain ⟨⟨space, files⟩, hn, he⟩ := bind_eq_ok.mp he
    simp only at he
    split at he
    · cases he
    · rename_i p hp
      split_ifs at he
      · cases he
        exact .inr ⟨space, files, hn, .inl rfl⟩
      · cases he
        exact .inr ⟨space, files, hn, .inr ⟨p, hp, rfl⟩⟩

theorem setRegister_self (k : Kernel) (r : Register) (v : Word) : (k.setRegister r v).registers r = v := by
  simp only [setRegister, Function.update_self]

theorem refuse_answer (k : Kernel) (p : Process) (files : Files) :
    (k.refuse p files).registers resultReg = -.ofNat 32 (k.threadID + 1) :=
  setRegister_self (k.setProcess k.current (some { p with killNewChild := false })) resultReg _

theorem spawn_answer (k : Kernel) (space : Option AddrSpace) (files : Files) :
    (k.spawn space files).registers resultReg = .ofNat 32 k.threadID :=
  setRegister_self (k.setProcess k.threadID (some ⟨space, false⟩)) resultReg _

theorem deleteSpace_keeps {space : Option AddrSpace} (he : k.deleteSpace space = .ok k') :
    k'.finish.current = k.current ∧ k'.finish.virtualOption = k.virtualOption := by
  obtain ⟨bitMap, -, he⟩ := bind_eq_ok.mp he
  cases space with
  | none => cases he
  | some s =>
    cases he
    exact ⟨rfl, rfl⟩

theorem scExit_keeps (he : k.scExit = .ok (.finished k')) : k'.current = k.current ∧ k'.virtualOption = k.virtualOption := by
  obtain ⟨s, -, he⟩ := bind_eq_ok.mp he
  obtain ⟨bitMap, -, he⟩ := bind_eq_ok.mp he
  obtain ⟨k₁, hk, he⟩ := bind_eq_ok.mp he
  cases he
  exact deleteSpace_keeps (k := { k with bitMap }) hk

theorem fatal_keeps (he : k.fatal = .ok (.finished k')) : k'.current = k.current ∧ k'.virtualOption = k.virtualOption := by
  obtain ⟨_, -, he⟩ := bind_eq_ok.mp he
  split at he
  · cases he
  · obtain ⟨k₁, hk, he⟩ := bind_eq_ok.mp he
    cases he
    exact deleteSpace_keeps hk

end Kernel

namespace Processes

open Kernel

variable {x : Processes} {k k' : Kernel} {s : AddrSpace} {f : UnixFile} {q : Processor} {m : Machine} {p i : Nat}

theorem Inv.shows (h : Inv x) (hs : x.kernel.space = .ok s) (hm : Shows x.kernel s f q m) :
    Inv ⟨x.kernel.resume s m, Function.update x.memory x.kernel.current q.memory⟩ := by
  obtain ⟨u, hu, hmap, hframe, hview⟩ := hm
  have hk := h.toInv.resume hs hu hmap hview.paged.loadReg
  have he : x.kernel.resume s m = Kernel.setSpace
      { x.kernel with registers := m.registers, mainMemory := m.mainMemory } { s with pageTable := u } := by
    rw [Kernel.resume, hu]
    rfl
  have hp := hview.paged
  rw [he] at hk hp ⊢
  apply h.setSpace hs
  · rfl
  · rfl
  · rfl
  · rfl
  · exact Finset.Subset.refl _
  · intro t p g ht ho o hlt
    apply hframe
    rintro ⟨p', hp', hv', o', ho', he⟩
    have hown := (owns_current hs).mpr ⟨hp', hv', rfl⟩
    have hne : g ≠ (s.pageTable p').physicalPage.toNat := by
      rintro rfl
      exact ht (h.unique _ _ _ _ _ ho hown).1
    rw [pageSize_eq] at *
    omega
  · rfl
  · exact hk
  · exact hp

theorem Inv.pagedIn (h : Inv x) (hpaged : Paged x.kernel s f (x.memory x.kernel.current)) (hp : p < s.numPages.toNat)
    (hv : (s.pageTable p).valid = false) (hi : i < x.kernel.bitMap.numBits) (him : i ∉ x.kernel.bitMap.marked) :
    Inv ⟨x.kernel.pagedIn s f p i, x.memory⟩ := by
  have hmem : Function.update x.memory x.kernel.current (x.memory x.kernel.current) = x.memory :=
    Function.update_eq_self ..
  rw [← hmem]
  apply h.setSpace hpaged.space
  · rfl
  · rfl
  · rfl
  · rfl
  · exact (Finset.subset_insert ..).trans (Finset.subset_of_eq (BitMap.marked_mark hi).symm)
  · intro t p' g _ ho o hlt
    have hne : g ≠ i := by
      rintro rfl
      exact him ((h.marked g).mpr ⟨t, p', ho⟩)
    have hd := page_disjoint (c := 0) (n := pageSize) hne (by omega) hlt
    change x.kernel.mainMemory.copy (i * pageSize) (fun o => f.bytes (p * pageSize + o)) _ _ = _
    rw [hpaged.page_read hp]
    exact copy_outside (by omega)
  · rfl
  · exact h.toInv.enter hpaged.space hp hv hi him rfl rfl rfl h.loadReg
  · exact hpaged.pagedIn hp hv (h.bits ▸ hi) him

theorem Inv.withRegisters (h : Inv x) {registers : Register → Word} (hl : (registers Nachos.loadReg).toNat < numGPRegs) :
    Inv ⟨{ x.kernel with registers }, x.memory⟩ := by
  refine h.keep (y := ⟨_, x.memory⟩) (h.toInv.withRegisters hl) (fun _ _ hn => hn) (le_refl _) fun t s c ht => ?_
  obtain ⟨g, hg⟩ := h.paged t s c ht
  exact ⟨g, hg.other ht rfl rfl hl fun p hp hv => ⟨hg.frame p hp hv, fun _ _ => rfl⟩⟩

end Processes

/-- A run of the kernel with the registers of the threads that were switched out. -/
structure Multiprogram where
  kernel : Kernel
  userRegisters : Tid → Option (Register → Word)
  -- history: the processor that each process started as, and what it went through
  start : Tid → Processor
  events : Tid → List Processor.Event

namespace Multiprogram

open Kernel

variable {x y : Multiprogram} {qs : Tid → Processor} {q q' : Processor} {k k' : Kernel} {s s' : AddrSpace} {t : Tid} {a : Word}
  {which : ExceptionType}

def registers (x : Multiprogram) (t : Tid) (s : AddrSpace) : Register → Word :=
  if t = x.kernel.current then x.kernel.registers else (x.userRegisters t).getD s.initRegisters

theorem registers_current (ht : t = x.kernel.current) : x.registers t s = x.kernel.registers := if_pos ht

theorem registers_other (ht : t ≠ x.kernel.current) : x.registers t s = (x.userRegisters t).getD s.initRegisters :=
  if_neg ht

def goesOn (x : Multiprogram) (kernel : Kernel) (events : List Processor.Event) : Multiprogram :=
  { x with kernel, events := Function.update x.events x.kernel.current (x.events x.kernel.current ++ events) }

def when (x : Multiprogram) (t : Tid) (s : AddrSpace) : Kernel :=
  { x.kernel with current := t, registers := x.registers t s }

/-- `SaveUserState` in `Scheduler::Run`, then `RestoreUserState` or, when the thread runs for the first time, the
`InitRegisters` of `processCreator`. -/
def switchTo (x : Multiprogram) (t : Tid) (s : AddrSpace) : Multiprogram :=
  { x with
    kernel := x.when t s
    userRegisters := Function.update x.userRegisters x.kernel.current (some x.kernel.registers) }

structure Inv (x : Multiprogram) (qs : Tid → Processor) : Prop where
  processes : Processes.Inv ⟨x.kernel, fun t => (qs t).memory⟩
  virtualOption : x.kernel.virtualOption = 0
  current : x.kernel.current < x.kernel.threadID
  unborn : ∀ t, x.kernel.threadID ≤ t → x.userRegisters t = none ∧ x.events t = []
  obedient : ∀ t s c, x.kernel.processes t = some ⟨some s, c⟩ → (x.start t).Obedient
  replay : ∀ t s c, x.kernel.processes t = some ⟨some s, c⟩ → (x.start t).replay (x.events t) = some (qs t)
  sees : ∀ t s c, x.kernel.processes t = some ⟨some s, c⟩ → Sees (x.registers t s) s (qs t)

/-- The running process is in the midst of a turn or of a system call, and `q` is what it shows. -/
structure During (x : Multiprogram) (qs : Tid → Processor) (q : Processor) (k : Kernel) : Prop where
  view : ∃ s f, View k s f q
  processes : Processes.Inv ⟨k, Function.update (fun t => (qs t).memory) x.kernel.current q.memory⟩
  others : ∀ t, t ≠ x.kernel.current → k.processes t = x.kernel.processes t
  current : k.current = x.kernel.current
  threadID : k.threadID = x.kernel.threadID

theorem Inv.view (h : Inv x qs) (hs : x.kernel.space = .ok s) : ∃ f, View x.kernel s f (qs x.kernel.current) := by
  obtain ⟨c, hc⟩ := space_eq_ok.mp hs
  obtain ⟨f, hp⟩ := h.processes.paged _ s c hc
  have hsees := h.sees _ s c hc
  rw [registers_current rfl] at hsees
  exact ⟨f, .of_sees hp h.virtualOption hsees⟩

theorem During.goesOn (h : Inv x qs) (hd : During x qs q k) (hs : x.kernel.space = .ok s')
    {events : List Processor.Event} (hr : (qs x.kernel.current).replay events = some q) :
    Inv (x.goesOn k events) (Function.update qs x.kernel.current q) := by
  obtain ⟨s, f, hv⟩ := hd.view
  obtain ⟨c₀, hp⟩ := space_eq_ok.mp hs
  have hmem : (fun t => (Function.update qs x.kernel.current q t).memory) =
      Function.update (fun t => (qs t).memory) x.kernel.current q.memory :=
    Function.comp_update Processor.memory qs x.kernel.current q
  refine ⟨?_, hv.virtualOption, ?_, fun t ht => ?_, fun t s₁ c ht => ?_, fun t s₁ c ht => ?_, fun t s₁ c ht => ?_⟩
  · rw [hmem]
    exact hd.processes
  · change k.current < k.threadID
    rw [hd.current, hd.threadID]
    exact h.current
  · have ht' : x.kernel.threadID ≤ t := hd.threadID ▸ ht
    have hne : t ≠ x.kernel.current := (h.current.trans_le ht').ne'
    refine ⟨(h.unborn t ht').1, ?_⟩
    exact (Function.update_of_ne hne ..).trans (h.unborn t ht').2
  · by_cases hc : t = x.kernel.current
    · exact h.obedient t s' c₀ (hc ▸ hp)
    · exact h.obedient t s₁ c ((hd.others t hc).symm.trans ht)
  · by_cases hc : t = x.kernel.current
    · subst hc
      simp only [Multiprogram.goesOn, Function.update_self]
      rw [Processor.replay_append, h.replay _ s' c₀ hp]
      exact hr
    · simp only [Multiprogram.goesOn, Function.update_of_ne hc]
      exact h.replay t s₁ c ((hd.others t hc).symm.trans ht)
  · by_cases hc : t = x.kernel.current
    · have hs : k.space = .ok s₁ := by
        rw [space_eq_ok, hd.current, ← hc]
        exact ⟨c, ht⟩
      obtain rfl := Except.ok.inj (hv.paged.space.symm.trans hs)
      have hcur : t = (x.goesOn k events).kernel.current := hc.trans hd.current.symm
      rw [registers_current hcur, hc, Function.update_self]
      exact hv.sees
    · have hcur : t ≠ (x.goesOn k events).kernel.current := fun he => hc (he.trans hd.current)
      have hsees := h.sees t s₁ c ((hd.others t hc).symm.trans ht)
      rw [registers_other hc] at hsees
      rw [registers_other hcur, Function.update_of_ne hc]
      exact hsees

theorem Inv.shows (h : Inv x qs) {f : UnixFile} {m : Machine} (hs : x.kernel.space = .ok s) (hm : Shows x.kernel s f q m) :
    During x qs q (x.kernel.resume s m) := by
  refine ⟨?_, h.processes.shows hs hm, fun t ht => setSpace_others ht, rfl, rfl⟩
  obtain ⟨u, -, -, -, hv⟩ := hm
  exact ⟨_, f, hv⟩

theorem During.served {f : UnixFile} (hd : During x qs q k) (hv : View k s f q)
    (hin : (k.registers badVAddrReg).toNat / pageSize < s.numPages.toNat)
    (hcold : (s.pageTable ((k.registers badVAddrReg).toNat / pageSize)).valid = false)
    (he : k.trap .pageFaultException = .ok (.returned () k')) : During x qs q k' := by
  have he' : k.pageFault = .ok (.returned () k') := he
  rcases pageFault_cases he' with ⟨hz, -⟩ | ⟨-, s', f', p, i, hs, hf, hd', -, hi, him, -, rfl⟩
  · cases (pageFault_full hz hv.virtualOption).symm.trans he'
  · obtain rfl := Except.ok.inj (hs.symm.trans hv.paged.space)
    obtain rfl := Option.some.inj (hf.symm.trans hv.paged.swap)
    rw [hv.paged.page_eq hin] at hd'
    obtain rfl := Int.ofNat.inj hd'
    have hi' : i < numPhysPages := hv.paged.bits ▸ hi
    have hpaged : Paged k s' f' (Function.update (fun t => (qs t).memory) x.kernel.current q.memory k.current) := by
      rw [hd.current, Function.update_self]
      exact hv.paged
    have hmem : _ ∈ coldPages s' := Finset.mem_filter.mpr ⟨Finset.mem_range.mpr hin, hcold⟩
    refine ⟨⟨_, f', hv.pagedIn hmem hi' him⟩, hd.processes.pagedIn hpaged hin hcold hi him, fun t ht => ?_, hd.current, hd.threadID⟩
    exact (setSpace_others (hd.current ▸ ht)).trans (hd.others t ht)

theorem Inv.turned (h : Inv x qs) {u : Turn} (ht : x.kernel.turn = .ok u) : ∃ s f, x.kernel.space = .ok s ∧
    View x.kernel s f (qs x.kernel.current) ∧ (qs x.kernel.current).Supported := by
  obtain ⟨s, hs, -⟩ := bind_eq_ok.mp ht
  obtain ⟨c, hc⟩ := space_eq_ok.mp hs
  obtain ⟨f, hv⟩ := h.view hs
  exact ⟨s, f, hs, hv, h.obedient _ s c hc _ _ (h.replay _ s c hc)⟩

theorem Inv.completed (h : Inv x qs) (ht : x.kernel.turn = .ok (.completed k)) :
    ∃ q, (qs x.kernel.current).step = .ok q ∧ During x qs q k := by
  obtain ⟨s, f, hs, hv, hsup⟩ := h.turned ht
  rcases hv.turn_shows hsup with ⟨m, q, hk, hq, hm⟩ | ⟨m, which, hk, -⟩ | ⟨m, hk, -⟩
  · cases hk.symm.trans ht
    exact ⟨q, hq, h.shows hs hm⟩
  · cases hk.symm.trans ht
  · cases hk.symm.trans ht

theorem Inv.trapped (h : Inv x qs) (ht : x.kernel.turn = .ok (.handler which k)) (hne : which ≠ .pageFaultException) :
    (qs x.kernel.current).step = .error which ∧ During x qs (qs x.kernel.current) k ∧
      k.registers loadReg = 0 ∧ k.registers loadValueReg = 0 := by
  obtain ⟨s, f, hs, hv, hsup⟩ := h.turned ht
  have hload := hv.trap_unloaded ht
  rcases hv.turn_shows hsup with ⟨m, q, hk, -⟩ | ⟨m, which', hk, hq, -, hm⟩ | ⟨m, hk, -⟩
  · cases hk.symm.trans ht
  · cases hk.symm.trans ht
    exact ⟨hq, h.shows hs hm, hload⟩
  · cases hk.symm.trans ht
    exact absurd rfl hne

theorem Inv.faulted (h : Inv x qs) (ht : x.kernel.turn = .ok (.handler .pageFaultException k))
    (he : k.trap .pageFaultException = .ok (.returned () k')) : During x qs (qs x.kernel.current) k' := by
  obtain ⟨s, f, hs, hv, hsup⟩ := h.turned ht
  rcases hv.turn_shows hsup with ⟨m, q, hk, -⟩ | ⟨m, which', hk, -, hne, -⟩ | ⟨m, hk, hm, hmiss⟩
  · cases hk.symm.trans ht
  · cases hk.symm.trans ht
    exact absurd rfl hne
  · cases hk.symm.trans ht
    have hd := h.shows hs hm
    obtain ⟨u, -, hmap, -, hv'⟩ := hm
    exact hd.served hv' hmiss.inside ((hmap.valid _).trans hmiss.cold) he

theorem During.readMem (hd : During x qs q k) {r : Option Word} (he : k.readMem a 1 = .ok (.returned r k')) :
    During x qs q k' := by
  obtain ⟨s, f, hv⟩ := hd.view
  have hprocs := hd.processes.read (.inl rfl) he
  obtain ⟨hothers, hcurrent, hid⟩ := readMem_others hv.paged he
  have hview : ∃ s' f', View k' s' f' q := by
    rcases hv.readMem_cases a with ⟨-, hn⟩ | ⟨-, k₂, u, he₂, -, -, hv₂⟩ | ⟨-, -, ⟨-, he₂⟩ | ⟨k₂, i, he₂, hv₂, -⟩⟩
    · exact absurd he (hn _ _)
    · cases he₂.symm.trans he
      exact ⟨_, f, hv₂⟩
    · cases he₂.symm.trans he
    · cases he₂.symm.trans he
      exact ⟨_, f, hv₂⟩
  refine ⟨hview, hprocs.1, fun t ht => ?_, hcurrent.trans hd.current, hid.trans hd.threadID⟩
  exact (hothers t (hd.current ▸ ht)).trans (hd.others t ht)

theorem During.readName (hd : During x qs q k) {name : Name} {n : Nat} {r : Option Name}
    (he : k.readName a name n = .ok (.returned r k')) : During x qs q k' := by
  induction n generalizing k a name with
  | zero =>
    obtain ⟨b, k₁, hread, he⟩ := proceed_eq_returned.mp he
    have hd₁ := hd.readMem hread
    cases b with
    | none =>
      cases he
      exact hd₁
    | some j =>
      dsimp only at he
      split_ifs at he
      cases he
      exact hd₁
  | succ n ih =>
    obtain ⟨b, k₁, hread, he⟩ := proceed_eq_returned.mp he
    have hd₁ := hd.readMem hread
    cases b with
    | none =>
      cases he
      exact hd₁
    | some j =>
      dsimp only at he
      split_ifs at he
      · cases he
        exact hd₁
      · exact ih hd₁ he

theorem During.copyIn (hd : During x qs q k) {ch r : List Byte} {fuel : Nat}
    (he : k.copyIn a ch fuel = .ok (.returned r k')) : During x qs q k' := by
  induction fuel generalizing k ch with
  | zero => cases he
  | succ fuel ih =>
    obtain ⟨b, k₁, hread, he⟩ := proceed_eq_returned.mp he
    have hd₁ := hd.readMem hread
    cases b with
    | none => exact ih hd₁ he
    | some i =>
      dsimp only at he
      split_ifs at he
      · cases he
        exact hd₁
      · exact ih hd₁ he

theorem During.withRegisters (hd : During x qs q k) {registers : Register → Word} (hm : q'.memory = q.memory)
    (hs : ∀ s, Sees k.registers s q → Sees registers s q') : During x qs q' { k with registers } := by
  obtain ⟨s, f, hv⟩ := hd.view
  have hsees := hs s hv.sees
  refine ⟨⟨s, f, .of_sees ?_ hv.virtualOption hsees⟩, ?_, hd.others, hd.current, hd.threadID⟩
  · rw [hm]
    exact hv.paged.withRegisters hsees.loadReg
  · rw [hm]
    exact hd.processes.withRegisters hsees.loadReg

theorem During.advance (hd : During x qs q k) (hl : k.registers loadReg = 0 ∧ k.registers loadValueReg = 0) :
    During x qs q.resumed k.advancePC := by
  obtain ⟨s, f, hv⟩ := hd.view
  have hv' := hv.advance hl
  exact ⟨⟨s, f, hv'⟩, hd.processes.withRegisters hv'.paged.loadReg, hd.others, hd.current, hd.threadID⟩

theorem During.result (hd : During x qs q.resumed k) (result : Word) :
    During x qs (q.returned result) (k.setRegister resultReg result) :=
  hd.withRegisters rfl fun _ h => h.returned result

theorem During.unchanged (hd : During x qs q.resumed k) : During x qs (q.returned (k.registers resultReg)) k := by
  have hd' := hd.result (k.registers resultReg)
  rwa [setRegister, Function.update_eq_self] at hd'

theorem During.ofSees (hs : k.space = .ok s) (ho : k.virtualOption = 0) (hsees : Sees k.registers s q)
    (hp : Processes.Inv ⟨k, Function.update (fun t => (qs t).memory) x.kernel.current q.memory⟩)
    (hothers : ∀ t, t ≠ x.kernel.current → k.processes t = x.kernel.processes t) (hc : k.current = x.kernel.current)
    (ht : k.threadID = x.kernel.threadID) : During x qs q k := by
  obtain ⟨f, hpaged⟩ := hp.current hs
  simp only [hc, Function.update_self] at hpaged
  exact ⟨⟨s, f, .of_sees hpaged ho hsees⟩, hp, hothers, hc, ht⟩

theorem Inv.interrupted (h : Inv x qs) {m : Machine} (hs : x.kernel.space = .ok s)
    (hm : (x.kernel.machine s).delayedLoad 0 0 = .ok m) : During x qs (qs x.kernel.current) (x.kernel.resume s m) := by
  obtain ⟨f, hv⟩ := h.view hs
  obtain ⟨n, hn, -, -, hreg⟩ := delayedLoad_settled hv.sane hv.zero
  obtain rfl := Except.ok.inj (hn.symm.trans hm)
  refine h.shows hs ⟨s.pageTable, ?_, .refl _, fun _ _ => ?_, hv.interrupt hm⟩
  · rw [hreg]
    rfl
  · rw [hreg]
    rfl

theorem During.scWrite (hd : During x qs q k) (hl : k.registers loadReg = 0 ∧ k.registers loadValueReg = 0) {fuel : Nat}
    (he : k.scWrite fuel = .ok (.returned () k')) : During x qs (q.returned (k'.registers resultReg)) k' := by
  obtain ⟨ch, k₁, hcopy, he⟩ := proceed_eq_returned.mp he
  have hd₁ := ((hd.advance hl).copyIn hcopy).unchanged
  have hout (output : Int → List Byte) : During x qs (q.returned (k₁.registers resultReg)) { k₁ with output } := by
    obtain ⟨⟨s, f, hv⟩, hp, hothers, hc, ht⟩ := hd₁
    refine ⟨⟨s, f, hv.withOutput output⟩, ?_, hothers, hc, ht⟩
    have hi := hp.toInv
    refine hp.keep (y := ⟨{ k₁ with output }, _⟩) ⟨hi.bits, hi.loadReg, hi.fresh, hi.inside, hi.unique, hi.marked⟩
      (fun _ _ hn => hn) (le_refl _) fun t s c ht => ?_
    obtain ⟨g, hg⟩ := hp.paged t s c ht
    exact ⟨g, hg.congr hg.space rfl rfl rfl hg.loadReg⟩
  split_ifs at he with hnil
  · cases he
    exact hd₁
  · obtain ⟨k₂, hw, he⟩ := bind_eq_ok.mp he
    cases he
    unfold sWrite at hw
    split_ifs at hw
    · cases hw
      exact hout _
    · obtain ⟨_, -, hw⟩ := bind_eq_ok.mp hw
      cases hw
      exact hout _
    · cases hw
      exact hd₁

end Multiprogram

end Nachos
