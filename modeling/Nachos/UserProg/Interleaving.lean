import Nachos.UserProg.Multiprogram

namespace Nachos.Multiprogram

open Kernel Reply

variable {x y : Multiprogram} {qs : Tid → Processor} {q q' : Processor} {k k' : Kernel} {s s' : AddrSpace} {t : Tid} {a : Word}
  {which : ExceptionType}

theorem During.refuse (hd : During x qs q.resumed k) {filename : Name} {space : Option AddrSpace} {files : Files} {p : Process}
    (hn : AddrSpace.new k.host k.garbage k.files filename k.threadID = .ok (space, files))
    (hp : k.processes k.current = some p) (hk : (k.refuse p files).Inv) :
    During x qs (q.returned ((k.refuse p files).registers resultReg)) (k.refuse p files) := by
  obtain ⟨s, f, hv⟩ := hd.view
  obtain ⟨c, hc⟩ := space_eq_ok.mp hv.paged.space
  have hpc : p = ⟨some s, c⟩ := Option.some.inj (hp.symm.trans hc)
  have hs : (k.refuse p files).space = .ok s := by
    refine space_eq_ok.mpr ⟨false, ?_⟩
    change Function.update k.processes k.current (some { p with killNewChild := false }) k.current = _
    rw [Function.update_self, hpc]
  rw [refuse_answer k p files]
  refine During.ofSees hs hv.virtualOption (hv.sees.returned _) (hd.processes.refuse hn hp hk) (fun t ht => ?_) hd.current
    hd.threadID
  refine Eq.trans ?_ (hd.others t ht)
  change Function.update k.processes k.current _ t = _
  rw [Function.update_of_ne (hd.current ▸ ht)]

theorem Inv.unbornStart (h : Inv x qs) (ht : x.kernel.threadID ≤ t) (p : Processor) :
    Inv { x with start := Function.update x.start t p } qs := by
  have hne {u : Tid} {s : AddrSpace} {c : Bool} (hu : x.kernel.processes u = some ⟨some s, c⟩) : u ≠ t := by
    rintro rfl
    exact absurd ((h.processes.fresh u ht).symm.trans hu) (by simp)
  refine ⟨h.processes, h.virtualOption, h.current, h.unborn, fun u s c hu => ?_, fun u s c hu => ?_, h.sees⟩
  · simp only [Function.update_of_ne (hne hu)]
    exact h.obedient u s c hu
  · simp only [Function.update_of_ne (hne hu)]
    exact h.replay u s c hu

theorem Inv.spawn (h : Inv x qs) (hr : x.kernel.registers resultReg = .ofNat 32 x.kernel.threadID) {filename : Name}
    {space : Option AddrSpace} {files : Files} {p : Processor} (hfits : x.kernel.Fits filename)
    (hn : AddrSpace.new x.kernel.host x.kernel.garbage x.kernel.files filename x.kernel.threadID = .ok (space, files))
    (hk : (x.kernel.spawn space files).Inv)
    (hp : ∀ s, space = some s → p = .boot (x.kernel.image filename x.kernel.threadID) (s.numPages.toNat * pageSize) ∧
      p.Obedient) :
    ∃ qs', Inv { x with
      kernel := x.kernel.spawn space files
      start := Function.update x.start x.kernel.threadID p } qs' := by
  have hproc (t : Tid) : (x.kernel.spawn space files).processes t =
      Function.update x.kernel.processes x.kernel.threadID (some ⟨space, false⟩) t := rfl
  have hregisters : (x.kernel.spawn space files).registers = x.kernel.registers := by
    change Function.update x.kernel.registers resultReg _ = _
    rw [← hr, Function.update_eq_self]
  have hborn {t : Tid} {s : AddrSpace} {c : Bool} (ht : (x.kernel.spawn space files).processes t = some ⟨some s, c⟩) :
      t = x.kernel.threadID ∧ space = some s ∨ t ≠ x.kernel.threadID ∧ x.kernel.processes t = some ⟨some s, c⟩ := by
    rw [hproc] at ht
    by_cases hc : t = x.kernel.threadID
    · rw [hc, Function.update_self] at ht
      exact .inl ⟨hc, congrArg Process.space (Option.some.inj ht)⟩
    · rw [Function.update_of_ne hc] at ht
      exact .inr ⟨hc, ht⟩
  have hne : x.kernel.threadID ≠ x.kernel.current := h.current.ne'
  have hmem : Processes.Inv ⟨x.kernel.spawn space files,
      fun t => (Function.update qs x.kernel.threadID p t).memory⟩ := by
    refine (h.processes.spawn hfits hn hk).keep (y := ⟨_, _⟩) hk (fun _ _ hn => hn) (le_refl _) fun t s c ht => ?_
    obtain ⟨f, hf⟩ := (h.processes.spawn hfits hn hk).paged t s c ht
    refine ⟨f, ?_⟩
    rcases hborn ht with ⟨rfl, hs⟩ | ⟨hc, -⟩
    · simp only [Function.update_self] at hf ⊢
      rw [(hp s hs).1]
      exact hf
    · simp only [Function.update_of_ne hc] at hf ⊢
      exact hf
  refine ⟨Function.update qs x.kernel.threadID p, hmem, h.virtualOption, h.current.trans (Nat.lt_succ_self _),
    fun t ht => h.unborn t (Nat.le_of_succ_le ht), fun t s c ht => ?_, fun t s c ht => ?_, fun t s c ht => ?_⟩
  · rcases hborn ht with ⟨rfl, hs⟩ | ⟨hc, ht⟩
    · simp only [Function.update_self]
      exact (hp s hs).2
    · simp only [Function.update_of_ne hc]
      exact h.obedient t s c ht
  · rcases hborn ht with ⟨rfl, hs⟩ | ⟨hc, ht⟩
    · simp only [Function.update_self]
      rw [(h.unborn _ (le_refl _)).2]
      rfl
    · simp only [Function.update_of_ne hc]
      exact h.replay t s c ht
  · rcases hborn ht with ⟨rfl, hs⟩ | ⟨hc, ht⟩
    · have hreg : (x.userRegisters x.kernel.threadID).getD s.initRegisters = s.initRegisters := by
        rw [(h.unborn _ (le_refl _)).1]
        rfl
      rw [Function.update_self, (hp s hs).1]
      change Sees (if x.kernel.threadID = x.kernel.current then _ else (x.userRegisters _).getD s.initRegisters) s _
      rw [if_neg hne, hreg]
      exact .boot s _
    · have hsees := h.sees t s c ht
      rw [Function.update_of_ne hc]
      simp only [registers] at hsees ⊢
      rw [hregisters]
      exact hsees

theorem Inv.exec (h : Inv x qs) (hs : x.kernel.space = .ok s) (hd : During x qs q.resumed k) {filename : Name} {p : Processor}
    (he : k.execFile filename = .ok k') (hfits : k.Fits filename)
    (hp : ∀ s c, k'.processes k.threadID = some ⟨some s, c⟩ →
      p = .boot (k.image filename k.threadID) (s.numPages.toNat * pageSize) ∧ p.Obedient)
    (hr : (qs x.kernel.current).replay [.call (k'.registers resultReg)] = some (q.returned (k'.registers resultReg))) :
    ∃ qs', Inv { x.goesOn k' [.call (k'.registers resultReg)] with start := Function.update x.start k.threadID p } qs' := by
  have hk := hd.processes.toInv.execFile he
  have hkeep (hd' : During x qs (q.returned (k'.registers resultReg)) k') :
      ∃ qs', Inv { x.goesOn k' [.call (k'.registers resultReg)] with start := Function.update x.start k.threadID p } qs' :=
    ⟨_, (hd'.goesOn h hs hr).unbornStart (hd.threadID.trans hd'.threadID.symm).ge p⟩
  rcases execFile_new he with rfl | ⟨space, files, hn, rfl | ⟨p', hp', rfl⟩⟩
  · exact hkeep hd.unchanged
  · have hnew : (k.spawn space files).processes k.threadID = some ⟨space, false⟩ := by
      change Function.update k.processes k.threadID _ k.threadID = _
      rw [Function.update_self]
    rw [spawn_answer k space files] at hr ⊢
    have hspawn : (k.setRegister resultReg (.ofNat 32 k.threadID)).spawn space files = k.spawn space files := by
      simp only [Kernel.spawn, setRegister, setProcess, Function.update_idem]
    have hy := (hd.result (.ofNat 32 k.threadID)).goesOn h hs hr
    have hk' : ((k.setRegister resultReg (.ofNat 32 k.threadID)).spawn space files).Inv := by
      rw [hspawn]
      exact hk
    rw [← hspawn]
    exact hy.spawn (setRegister_self k _ _) hfits hn hk' fun s hs => hp s false (hs ▸ hnew)
  · exact hkeep (hd.refuse hn hp' hk)

theorem During.ended (h : Inv x qs) (hd : During x qs q k) (he : k.Ended k')
    (hp : Processes.Inv ⟨k', Function.update (fun t => (qs t).memory) x.kernel.current q.memory⟩)
    (hk : k'.current = k.current ∧ k'.virtualOption = k.virtualOption) :
    ∃ qs', Inv { x with kernel := k' } qs' := by
  obtain ⟨s, f, hv⟩ := hd.view
  have hlive {t : Tid} {p : Process} (ht : k'.processes t = some p) :
      t ≠ x.kernel.current ∧ x.kernel.processes t = some p := by
    rw [he.processes, hd.current] at ht
    by_cases hc : t = x.kernel.current
    · rw [hc, Function.update_self] at ht
      cases ht
    · rw [Function.update_of_ne hc] at ht
      exact ⟨hc, (hd.others t hc).symm.trans ht⟩
  have hcur : k'.current = x.kernel.current := hk.1.trans hd.current
  have hid : k'.threadID = x.kernel.threadID := he.threadID.trans hd.threadID
  refine ⟨qs, hp.keep (y := ⟨k', _⟩) hp.toInv (fun _ _ hn => hn) (le_refl _) fun t s c ht => ?_,
    hk.2.trans hv.virtualOption, ?_, fun t ht => h.unborn t (hid ▸ ht), fun t s c ht => h.obedient t s c (hlive ht).2,
    fun t s c ht => h.replay t s c (hlive ht).2, fun t s c ht => ?_⟩
  · obtain ⟨g, hg⟩ := hp.paged t s c ht
    simp only [Function.update_of_ne (hlive ht).1] at hg
    exact ⟨g, hg⟩
  · change k'.current < k'.threadID
    rw [hcur, hid]
    exact h.current
  · have hsees := h.sees t s c (hlive ht).2
    rw [registers_other (hlive ht).1] at hsees
    have hne : t ≠ k'.current := hcur.symm ▸ (hlive ht).1
    change Sees (if t = k'.current then _ else (x.userRegisters t).getD s.initRegisters) s _
    rw [if_neg hne]
    exact hsees

theorem Inv.switch (h : Inv x qs) {c : Bool} (ht : x.kernel.processes t = some ⟨some s, c⟩) :
    Inv (x.switchTo t s) qs := by
  have hsees := h.sees t s c ht
  have hlt : t < x.kernel.threadID := by
    by_contra hn
    exact absurd ((h.processes.fresh t (not_lt.mp hn)).symm.trans ht) (by simp)
  have hstep : Processes.Step ⟨x.kernel, fun t => (qs t).memory⟩ (.switch t) ⟨x.when t s, fun t => (qs t).memory⟩ := by
    refine ⟨⟨by rw [ht]; simp, x.registers t s, hsees.loadReg, rfl⟩, rfl⟩
  refine ⟨Processes.step h.processes hstep, h.virtualOption, hlt, fun u hu => ?_, h.obedient, h.replay,
    fun u s' c' hu => ?_⟩
  · have hne : u ≠ x.kernel.current := (h.current.trans_le hu).ne'
    refine ⟨?_, (h.unborn u hu).2⟩
    exact (Function.update_of_ne hne ..).trans (h.unborn u hu).1
  · have hsees' := h.sees u s' c' hu
    change Sees (if u = t then x.registers t s else
      (Function.update x.userRegisters x.kernel.current (some x.kernel.registers) u).getD s'.initRegisters) s' _
    by_cases hut : u = t
    · subst hut
      cases ht.symm.trans hu
      rw [if_pos rfl]
      exact hsees
    · rw [if_neg hut]
      by_cases hc : u = x.kernel.current
      · rw [registers_current hc] at hsees'
        rw [hc, Function.update_self]
        exact hc ▸ hsees'
      · rw [registers_other hc] at hsees'
        rw [Function.update_of_ne hc]
        exact hsees'

inductive Action where
  | instruction
  | pageFault
  | interrupt
  | switch (t : Tid)
  | exec
  | write
  | otherCall
  | exit
  | fatal

-- the codes of the system calls that leave more behind than the program counters. `Join` and `Yield` are not among
-- them: they are such a call, and then a switch
def programmed : List Word := [0, 1, 2, 6, 7]

def Starts (k₁ k : Kernel) (p : Processor) : Prop :=
  -- if the `Exec` makes a process, `p` is the processor that it starts on, with the image of the file
  ∀ filename k₂, k₁.advancePC.readName (k₁.advancePC.registers arg1Reg) [] nameSize = .ok (.returned (some filename) k₂) →
    k₂.Fits filename ∧ ∀ s c, k.processes k₂.threadID = some ⟨some s, c⟩ →
      p = .boot (k₂.image filename k₂.threadID) (s.numPages.toNat * pageSize) ∧ p.Obedient

/-- What the running process does next, or a switch to another. A process ends when no other has a page in memory, and
`Read` is not called. -/
def Step (x : Multiprogram) (a : Action) (y : Multiprogram) : Prop :=
  match a with
  | .instruction => ∃ k, x.kernel.turn = .ok (.completed k) ∧ y = x.goesOn k [.instruction]
  | .pageFault => ∃ k₁ k, x.kernel.turn = .ok (.handler .pageFaultException k₁) ∧
      k₁.trap .pageFaultException = .ok (.returned () k) ∧ y = x.goesOn k []
  | .interrupt => ∃ s m, x.kernel.space = .ok s ∧ (x.kernel.machine s).delayedLoad 0 0 = .ok m ∧
      y = x.goesOn (x.kernel.resume s m) []
  | .switch t => ∃ s c, x.kernel.processes t = some ⟨some s, c⟩ ∧ y = x.switchTo t s
  | .exec => ∃ k₁ k p, x.kernel.IdsLeft ∧ x.kernel.turn = .ok (.handler .syscallException k₁) ∧
      k₁.registers resultReg = 2 ∧ k₁.scExec = .ok (.returned () k) ∧ Starts k₁ k p ∧
      y = { x.goesOn k [.call (k.registers resultReg)] with start := Function.update x.start x.kernel.threadID p }
  | .write => ∃ k₁ fuel k, x.kernel.turn = .ok (.handler .syscallException k₁) ∧ k₁.registers resultReg = Nachos.scWrite ∧
      k₁.scWrite fuel = .ok (.returned () k) ∧ y = x.goesOn k [.call (k.registers resultReg)]
  | .otherCall => ∃ k₁, x.kernel.turn = .ok (.handler .syscallException k₁) ∧ k₁.registers resultReg ∉ programmed ∧
      y = x.goesOn k₁.advancePC [.call (k₁.advancePC.registers resultReg)]
  | .exit => ∃ k₁ k, x.kernel.turn = .ok (.handler .syscallException k₁) ∧ k₁.registers resultReg = 1 ∧
      k₁.advancePC.Alone ∧ k₁.advancePC.scExit = .ok (.finished k) ∧ y = { x with kernel := k }
  | .fatal => ∃ which k₁ k, x.kernel.turn = .ok (.handler which k₁) ∧
      which ∉ [.noException, .syscallException, .pageFaultException] ∧ k₁.Alone ∧ k₁.trap which = .ok (.finished k) ∧
      y = { x with kernel := k }

def Initial (x : Multiprogram) : Prop :=
  ∃ (k : Kernel) (filename : Name) (s : AddrSpace), (∃ words, k.bitMap = .new numPhysPages words) ∧
    (∀ t, k.processes t = none) ∧ k.current < k.threadID ∧ k.virtualOption = 0 ∧ k.Fits filename ∧
    k.startProcess filename = .ok (some x.kernel) ∧ x.kernel.space = .ok s ∧
    x.start k.current = .boot (k.image filename 0) (s.numPages.toNat * pageSize) ∧ (x.start k.current).Obedient ∧
    (∀ t, x.userRegisters t = none) ∧ ∀ t, x.events t = []

theorem Inv.turn_space (h : Inv x qs) {u : Turn} (ht : x.kernel.turn = .ok u) : ∃ s, x.kernel.space = .ok s := by
  obtain ⟨s, f, hs, -⟩ := h.turned ht
  exact ⟨s, hs⟩

theorem Inv.called (h : Inv x qs) (ht : x.kernel.turn = .ok (.handler .syscallException k)) :
    (∃ s, x.kernel.space = .ok s) ∧ During x qs (qs x.kernel.current).resumed k.advancePC ∧
      ∀ result, (qs x.kernel.current).replay [.call result] = some ((qs x.kernel.current).returned result) := by
  obtain ⟨hq, hd, hl⟩ := h.trapped ht (by decide)
  exact ⟨h.turn_space ht, hd.advance hl, Processor.replay_call hq⟩

theorem Inv.step (h : Inv x qs) {a : Action} (hs : Step x a y) : ∃ qs', Inv y qs' := by
  cases a with
  | instruction =>
    obtain ⟨k, ht, rfl⟩ := hs
    obtain ⟨s, hspace⟩ := h.turn_space ht
    obtain ⟨q, hq, hd⟩ := h.completed ht
    exact ⟨_, hd.goesOn h hspace (Processor.replay_instruction hq)⟩
  | pageFault =>
    obtain ⟨k₁, k, ht, he, rfl⟩ := hs
    obtain ⟨s, hspace⟩ := h.turn_space ht
    exact ⟨_, (h.faulted ht he).goesOn h hspace rfl⟩
  | interrupt =>
    obtain ⟨s, m, hspace, hm, rfl⟩ := hs
    exact ⟨_, (h.interrupted hspace hm).goesOn h hspace rfl⟩
  | switch t =>
    obtain ⟨s, c, ht, rfl⟩ := hs
    exact ⟨qs, h.switch ht⟩
  | exec =>
    obtain ⟨k₁, k, p, -, ht, -, he, hp, rfl⟩ := hs
    obtain ⟨⟨s, hspace⟩, hd, hcall⟩ := h.called ht
    obtain ⟨name, k₂, hread, he⟩ := proceed_eq_returned.mp he
    have hd₂ := hd.readName hread
    cases name with
    | none =>
      cases he
      exact ⟨_, (hd₂.unchanged.goesOn h hspace (hcall _)).unbornStart hd₂.threadID.le p⟩
    | some filename =>
      dsimp only at he
      split_ifs at he
      obtain ⟨k₃, hexec, he⟩ := bind_eq_ok.mp he
      cases he
      obtain ⟨hfits, hp⟩ := hp filename k₂ hread
      rw [← hd₂.threadID]
      exact h.exec hspace hd₂ hexec hfits hp (hcall _)
  | write =>
    obtain ⟨k₁, fuel, k, ht, -, hw, rfl⟩ := hs
    obtain ⟨⟨s, hspace⟩, -, hcall⟩ := h.called ht
    obtain ⟨-, hd, hl⟩ := h.trapped ht (by decide)
    exact ⟨_, (hd.scWrite hl hw).goesOn h hspace (hcall _)⟩
  | otherCall =>
    obtain ⟨k₁, ht, -, rfl⟩ := hs
    obtain ⟨⟨s, hspace⟩, hd, hcall⟩ := h.called ht
    exact ⟨_, hd.unchanged.goesOn h hspace (hcall _)⟩
  | exit =>
    obtain ⟨k₁, k, ht, -, ha, he, rfl⟩ := hs
    obtain ⟨-, hd, -⟩ := h.called ht
    have hp := Processes.step (a := .exit) (y := ⟨k, _⟩) hd.processes ⟨ha, he, rfl⟩
    exact hd.ended h (scExit_ended hd.processes.bits he) hp (scExit_keeps he)
  | fatal =>
    obtain ⟨which, k₁, k, ht, hwhich, ha, he, rfl⟩ := hs
    simp only [List.mem_cons, List.not_mem_nil, or_false, not_or] at hwhich
    obtain ⟨-, hd, -⟩ := h.trapped ht hwhich.2.2
    have he' : k₁.fatal = .ok (.finished k) := by
      cases which with
      | noException => exact absurd rfl hwhich.1
      | pageFaultException => exact absurd rfl hwhich.2.2
      | _ => exact he
    have hp := Processes.step (a := .fatal) (y := ⟨k, _⟩) hd.processes ⟨ha, he', rfl⟩
    exact hd.ended h (fatal_ended hd.processes.bits he') hp (fatal_keeps he')

theorem Initial.inv (h : Initial x) : Inv x x.start := by
  obtain ⟨k, filename, s, hb, hproc, ht, ho, hfits, hk, hs, hstart, hobey, hregs, hev⟩ := h
  have hp : Processes.Inv ⟨x.kernel, fun t => (x.start t).memory⟩ :=
    Processes.Initial.inv ⟨k, filename, hb, hproc, ht, hfits, hk, congrArg Processor.memory hstart⟩
  obtain ⟨s', files, -, hload⟩ := startProcess_eq hk
  have hspace := load_space (k := k) s' files
  rw [← hload] at hspace
  obtain rfl := Except.ok.inj (hs.symm.trans hspace)
  have hsole {t : Tid} {s' : AddrSpace} {c : Bool} (hp' : x.kernel.processes t = some ⟨some s', c⟩) :
      t = k.current ∧ s' = s := by
    rw [hload] at hp'
    change Function.update k.processes k.current (some ⟨some s, false⟩) t = _ at hp'
    by_cases hc : t = k.current
    · rw [hc, Function.update_self] at hp'
      cases hp'
      exact ⟨hc, rfl⟩
    · rw [Function.update_of_ne hc, hproc] at hp'
      cases hp'
  refine ⟨hp, ?_, ?_, fun t _ => ⟨hregs t, hev t⟩, fun t s' c ht => ?_, fun t s' c ht => ?_, fun t s' c ht => ?_⟩
  · rw [hload]
    exact ho
  · rw [hload]
    exact ht
  · rw [(hsole ht).1]
    exact hobey
  · rw [hev]
    rfl
  · obtain ⟨rfl, rfl⟩ := hsole ht
    have hcur : k.current = x.kernel.current := by
      rw [hload]
      rfl
    have hregisters : x.kernel.registers = s'.initRegisters := by
      rw [hload]
      rfl
    rw [registers_current hcur, hregisters, hstart]
    exact .boot s' _

theorem Inv.ofReachable (h : Reachable Initial Step x) : ∃ qs, Inv x qs := by
  refine h.invariant (I := fun x => ∃ qs, Inv x qs) (fun _ h => ⟨_, h.inv⟩) ?_
  rintro y a z ⟨qs, hi⟩ hs
  exact hi.step hs

end Nachos.Multiprogram
