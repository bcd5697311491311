import Nachos.Threads.System

namespace Nachos

section Stack

def needsOn : List Frame → Bool
  | .kernel :: _ | .exceptionHandler _ :: _ | .scExec :: _ | .processCreator :: _ | .machineRun :: _
  | .oneInstruction :: _ => true
  | .trapReturn :: rest | .restoreState :: rest | .tickYielded _ :: rest | .yield :: rest => needsOn rest
  | _ => false

def inHandler : List Frame → Bool
  | .handler _ :: _ => true
  | .setLevel _ :: rest => inHandler rest
  | _ => false

def inSleep : List Frame → Bool
  | .sleep :: _ | .idle :: _ => true
  | .handler _ :: rest | .setLevel _ :: rest => inSleep rest
  | _ => false

/-- The status that the code on top of this stack runs with, when it depends on one. -/
def mode : List Frame → Option MachineStatus
  | .oneInstruction :: _ | .runTick :: _ => some .userMode
  | .oneTick old :: _ => some old
  | _ => none

def plain : List Frame → Bool
  | .oneInstruction :: _ | .runTick :: _ | .machineRun :: _ | .oneTick _ :: _ | .switched :: _ | .sleep :: _
  | .idle :: _ | .handler _ :: _ => false
  | .setLevel _ :: rest => plain rest
  | _ => true

def Fits : Frame → List Frame → Prop
  | .setLevel now, rest => (needsOn rest = true → now = .intOn) ∧
      (plain rest = true ∨ now = .intOff ∧ ∃ old r, rest = .handler old :: r)
  | .handler old, rest => (∃ r, rest = .idle :: r) ∨ ∃ r, rest = .oneTick old :: r
  | .idle, rest => ∃ r, rest = .sleep :: r
  | .oneTick old, rest | .tickYielded old, rest =>
      plain rest = true ∨ old = .userMode ∧ ∃ r, rest = .oneInstruction :: r
  | .p _ oldLevel, rest => plain rest = true ∧ (needsOn rest = true → oldLevel = .intOn)
  | .sleep, rest | .switched, rest | .scJoin, rest | .joining _, rest => plain rest = true ∧ needsOn rest = false
  | .exceptionHandler which, rest => plain rest = true ∧ (which = .syscallException → needsOn rest = false)
  | .trapReturn, rest => plain rest = true ∨ ∃ r, rest = .runTick :: r
  | _, rest => plain rest = true

def WellNested : List Frame → Prop
  | [] => True
  | f :: rest => Fits f rest ∧ WellNested rest

structure Agrees (stack : List Frame) (i : Interrupt) : Prop where
  level : needsOn stack = true → i.level = .intOn
  inHandler : i.inHandler = Nachos.inHandler stack
  handler : Nachos.inHandler stack = true → i.level = .intOff ∧ i.status = .systemMode
  status : ∀ m, mode stack = some m → i.status = m

/-- The thread can go on whatever the thread that switches to it has left behind. -/
structure Suspended (stack : List Frame) : Prop where
  level : needsOn stack = false
  inHandler : Nachos.inHandler stack = false
  inSleep : Nachos.inSleep stack = false
  mode : Nachos.mode stack = none

variable {stack rest : List Frame} {i : Interrupt}

theorem plain_facts (h : plain stack = true) :
    inHandler stack = false ∧ inSleep stack = false ∧ mode stack = none := by
  induction stack with
  | nil => exact ⟨rfl, rfl, rfl⟩
  | cons f rest ih =>
    cases f with
    | setLevel now => exact ⟨(ih h).1, (ih h).2.1, rfl⟩
    | _ => first | exact ⟨rfl, rfl, rfl⟩ | exact absurd h Bool.false_ne_true

theorem Agrees.of_plain (hp : plain stack = true) (hl : needsOn stack = true → i.level = .intOn)
    (hi : i.inHandler = false) : Agrees stack i := by
  obtain ⟨hh, -, hm⟩ := plain_facts hp
  exact ⟨hl, hi.trans hh.symm, by simp [hh], by simp [hm]⟩

theorem Agrees.of_suspended (h : Suspended stack) (hi : i.inHandler = false) : Agrees stack i :=
  ⟨by simp [h.level], hi.trans h.inHandler.symm, by simp [h.inHandler], by simp [h.mode]⟩

theorem suspended_switched (rest : List Frame) : Suspended (.switched :: rest) := ⟨rfl, rfl, rfl, rfl⟩

end Stack

section Control

variable {assertMain : Bool} {hw hw' : Hardware} {stack stack' : List Frame}

theorem Hardware.delayedLoad_interrupt (h : hw.delayedLoad = .ok hw') : hw'.interrupt = hw.interrupt := by
  obtain ⟨m, -, h⟩ := bind_eq_ok.mp h
  obtain rfl := Except.ok.inj h
  rfl

theorem Hardware.raiseException_interrupt {badVAddr : Word} (h : hw.raiseException badVAddr = .ok hw') :
    hw'.interrupt = { hw.interrupt with status := .systemMode } := by
  obtain ⟨_, hd, h⟩ := bind_eq_ok.mp h
  obtain rfl := Except.ok.inj h
  exact congrArg (fun i : Interrupt => { i with status := .systemMode }) (Hardware.delayedLoad_interrupt hd)

theorem handlerCode_nested {which : ExceptionType} {type : Int} {code rest : List Frame}
    (h : handlerCode assertMain which type = some code) (hn : WellNested (.exceptionHandler which :: rest)) :
    WellNested (code ++ rest) ∧ plain (code ++ rest) = true := by
  obtain ⟨⟨hp, hs⟩, hn⟩ := hn
  cases which with
  | syscallException =>
    simp only [handlerCode] at h
    split_ifs at h
    all_goals
      obtain rfl := Option.some.inj h
      simp [WellNested, Fits, plain, hp, hn, hs]
  | noException =>
    obtain rfl := Option.some.inj h
    exact ⟨hn, hp⟩
  | pageFaultException =>
    obtain rfl := Option.some.inj h
    exact ⟨⟨hp, hn⟩, rfl⟩
  | _ =>
    simp only [handlerCode] at h
    split_ifs at h
    obtain rfl := Option.some.inj h
    exact ⟨⟨rfl, hp, hn⟩, rfl⟩

section

variable {rest : List Frame} {i i' : Interrupt} {now : IntStatus} {old : MachineStatus} {toOccur : PendingInterrupt}

theorem Agrees.setLevel (hn : WellNested (.setLevel now :: rest)) (ha : Agrees (.setLevel now :: rest) i)
    (h : i.setLevel now = .ok (false, i')) : WellNested rest ∧ Agrees rest i' := by
  obtain ⟨-, -, rfl⟩ := Interrupt.setLevel_ok h
  obtain ⟨⟨hl, hr⟩, hn⟩ := hn
  refine ⟨hn, hl, ha.inHandler, fun hi => ?_, ?_⟩
  · obtain hp | ⟨rfl, -⟩ := hr
    · simp [(plain_facts hp).1] at hi
    · exact ⟨rfl, (ha.handler hi).2⟩
  · obtain hp | ⟨-, old, r, rfl⟩ := hr
    · simp [(plain_facts hp).2.2]
    · simp [mode]

theorem Agrees.enable (hn : WellNested (.setLevel now :: rest)) (ha : Agrees (.setLevel now :: rest) i)
    (h : i.setLevel now = .ok (true, i')) :
    WellNested (.oneTick i'.status :: rest) ∧ Agrees (.oneTick i'.status :: rest) i'.beginTick := by
  obtain ⟨-, ht, rfl⟩ := Interrupt.setLevel_ok h
  obtain ⟨rfl, -⟩ := ht.mp rfl
  obtain ⟨⟨-, hr⟩, hn⟩ := hn
  obtain hp | ⟨hf, -⟩ := hr
  · have hi := ha.inHandler
    simp only [Nachos.inHandler, (plain_facts hp).1] at hi
    exact ⟨⟨.inl hp, hn⟩, by simp [needsOn], hi, by simp [Nachos.inHandler], fun m hm => Option.some.inj hm⟩
  · cases hf

theorem Agrees.fire {f : Frame} (hf : f.Checks) (hn : WellNested (f :: rest)) (ha : Agrees (f :: rest) i)
    (h : i.checkIfDue false = .ok (.fire old toOccur i')) :
    WellNested (.handler old :: f :: rest) ∧ Agrees (.handler old :: f :: rest) i' := by
  obtain ⟨hl, rfl, pending, totalTicks, -, -, -, rfl⟩ := Interrupt.checkIfDue_fire h
  refine ⟨⟨?_, hn⟩, by simp [needsOn], rfl, fun _ => ⟨hl, rfl⟩, by simp [mode]⟩
  cases f with
  | oneTick old =>
    rw [ha.status old rfl]
    exact .inr ⟨_, rfl⟩
  | idle => exact .inl ⟨_, rfl⟩
  | _ => cases hf

theorem Agrees.endTick (hn : WellNested (.oneTick old :: rest)) (ha : Agrees (.oneTick old :: rest) i)
    (h : i.checkIfDue false = .ok (.quiet i')) (hy : i'.yieldOnReturn = false) :
    WellNested rest ∧ Agrees rest i'.endTick := by
  obtain ⟨-, pending, totalTicks, rfl, -⟩ := Interrupt.checkIfDue_quiet h
  have he : Interrupt.endTick { i with pending, totalTicks } = { i with pending, totalTicks, level := .intOn } := by
    simp [Interrupt.endTick, Interrupt.changeLevel, hy]
  obtain ⟨hr, hn⟩ := hn
  rw [he]
  refine ⟨hn, ?_⟩
  obtain hp | ⟨rfl, r, rfl⟩ := hr
  · exact .of_plain hp (fun _ => rfl) ha.inHandler
  · exact ⟨fun _ => rfl, ha.inHandler, by simp [Nachos.inHandler], fun m hm => (ha.status _ rfl).trans (Option.some.inj hm)⟩

theorem Agrees.timeSlice (hn : WellNested (.oneTick old :: rest)) (ha : Agrees (.oneTick old :: rest) i)
    (h : i.checkIfDue false = .ok (.quiet i')) :
    WellNested (.yield :: .tickYielded old :: rest) ∧ Agrees (.yield :: .tickYielded old :: rest) i'.endTick := by
  obtain ⟨-, pending, totalTicks, rfl, -⟩ := Interrupt.checkIfDue_quiet h
  obtain ⟨hr, hn⟩ := hn
  refine ⟨⟨rfl, hr, hn⟩, .of_plain rfl (fun _ => ?_) ?_⟩
  · simp only [Interrupt.endTick]
    split_ifs <;> rfl
  · simp only [Interrupt.endTick]
    split_ifs <;> exact ha.inHandler

theorem Agrees.tickYielded (hn : WellNested (.tickYielded old :: rest)) (ha : Agrees (.tickYielded old :: rest) i) :
    WellNested rest ∧ Agrees rest { i with status := old } := by
  obtain ⟨hr, hn⟩ := hn
  refine ⟨hn, ?_⟩
  obtain hp | ⟨rfl, r, rfl⟩ := hr
  · exact .of_plain hp ha.level ha.inHandler
  · exact ⟨ha.level, ha.inHandler, by simp [Nachos.inHandler], fun m hm => Option.some.inj hm⟩

theorem Agrees.handlerReturn (hn : WellNested (.handler old :: rest)) :
    WellNested rest ∧ Agrees rest (i.handlerReturn old) := by
  obtain ⟨hr, hn⟩ := hn
  refine ⟨hn, ?_⟩
  obtain ⟨r, rfl⟩ | ⟨r, rfl⟩ := hr
  · exact ⟨by simp [needsOn], rfl, by simp [Nachos.inHandler], by simp [mode]⟩
  · exact ⟨by simp [needsOn], rfl, by simp [Nachos.inHandler], fun m hm => Option.some.inj hm⟩

theorem Agrees.trapReturn (hn : WellNested (.trapReturn :: rest)) (ha : Agrees (.trapReturn :: rest) i) :
    WellNested rest ∧ Agrees rest { i with status := .userMode } := by
  obtain ⟨hr, hn⟩ := hn
  refine ⟨hn, ?_⟩
  obtain hp | ⟨r, rfl⟩ := hr
  · exact .of_plain hp ha.level ha.inHandler
  · exact ⟨by simp [needsOn], ha.inHandler, by simp [Nachos.inHandler], fun m hm => Option.some.inj hm⟩

theorem Agrees.runTick (hn : WellNested (.runTick :: rest)) (ha : Agrees (.runTick :: rest) i) :
    WellNested (.oneTick i.status :: .oneInstruction :: rest) ∧
      Agrees (.oneTick i.status :: .oneInstruction :: rest) i.beginTick := by
  refine ⟨⟨.inr ⟨ha.status _ rfl, _, rfl⟩, hn⟩, by simp [needsOn], ha.inHandler, by simp [Nachos.inHandler], ?_⟩
  exact fun m hm => Option.some.inj hm

end

theorem Control.disciplined (h : Control assertMain hw stack hw' stack') (hn : WellNested stack)
    (ha : Agrees stack hw.interrupt) : WellNested stack' ∧ Agrees stack' hw'.interrupt := by
  cases h with
  | setLevel h => exact ha.setLevel hn h
  | enable h => exact ha.enable hn h
  | fire hf hd h => exact ha.fire hf hn h
  | endTick h hy => exact ha.endTick hn h hy
  | timeSlice h hy => exact ha.timeSlice hn h
  | tickYielded => exact ha.tickYielded hn
  | endIdle h =>
    obtain ⟨-, pending, totalTicks, rfl, -⟩ := Interrupt.checkIfDue_quiet h
    obtain ⟨⟨r, rfl⟩, hn⟩ := hn
    exact ⟨hn, by simp [needsOn], ha.inHandler, by simp [inHandler], by simp [mode]⟩
  | yieldOnReturn h =>
    obtain ⟨-, rfl⟩ := Interrupt.setYieldOnReturn_ok h
    exact ⟨hn, by simp [needsOn], ha.inHandler, ha.handler, by simp [mode]⟩
  | handlerReturn => exact Agrees.handlerReturn hn
  | schedule hf h =>
    obtain ⟨-, rfl⟩ := Interrupt.schedule_ok h
    exact ⟨hn, ha.level, ha.inHandler, ha.handler, ha.status⟩
  | machineRun => exact ⟨hn, ha.level, ha.inHandler, by simp [inHandler], fun m hm => Option.some.inj hm⟩
  | instruction => exact ⟨hn, by simp [needsOn], ha.inHandler, by simp [inHandler], ha.status⟩
  | exception h =>
    rw [Hardware.raiseException_interrupt h]
    exact ⟨⟨⟨rfl, fun _ => rfl⟩, .inr ⟨_, rfl⟩, hn⟩, .of_plain rfl (fun _ => ha.level rfl) ha.inHandler⟩
  | runTick => exact ha.runTick hn
  | trapReturn => exact ha.trapReturn hn
  | exceptionHandler h =>
    obtain ⟨hn', hp⟩ := handlerCode_nested h hn
    refine ⟨hn', .of_plain hp (fun _ => ?_) ?_⟩
    · split_ifs <;> exact ha.level rfl
    · split_ifs <;> exact ha.inHandler
  | joined => exact ⟨hn.2, .of_plain hn.1.1 (by simp [hn.1.2]) ha.inHandler⟩
  | execFails => exact ⟨hn.2, .of_plain hn.1 (fun _ => ha.level rfl) ha.inHandler⟩
  | kernelYield => exact ⟨⟨rfl, hn⟩, .of_plain rfl ha.level ha.inHandler⟩
  | kernelP => exact ⟨⟨⟨rfl, fun _ => ha.level rfl⟩, hn⟩, .of_plain rfl (by simp [needsOn]) ha.inHandler⟩
  | kernelFault hne h =>
    rw [Hardware.raiseException_interrupt h]
    exact ⟨⟨⟨rfl, fun hs => absurd hs hne⟩, .inl rfl, hn⟩, .of_plain rfl (fun _ => ha.level rfl) ha.inHandler⟩
  | kernelWrite => exact ⟨hn, ha.level, ha.inHandler, ha.handler, ha.status⟩
  | kernelReturn => exact ⟨hn.2, .of_plain hn.1 (fun _ => ha.level rfl) ha.inHandler⟩

end Control

namespace ThreadSystem

variable {s s' t : ThreadSystem} {stack rest : List Frame}

structure Goes (s t : ThreadSystem) (stack : List Frame) : Prop where
  current : t.currentThread = s.currentThread
  created : t.created = s.created
  contexts : t.view Thread.context =
    Function.update (s.view Thread.context) s.currentThread { s.current.context with stack }

theorem frames_of_contexts {c : Context}
    (h : t.view Thread.context = Function.update (s.view Thread.context) s.currentThread c) :
    t.view Thread.stack = Function.update (s.view Thread.stack) s.currentThread c.stack :=
  (congrArg (Context.stack ∘ ·) h).trans (Function.comp_update ..)

theorem Goes.frames (h : Goes s t stack) :
    t.view Thread.stack = Function.update (s.view Thread.stack) s.currentThread stack := frames_of_contexts h.contexts

theorem goes_setStack (hc : s'.currentThread = s.currentThread) (hk : s'.created = s.created)
    (hv : s'.view Thread.context = s.view Thread.context) : Goes s (s'.setStack stack) stack := by
  have hcur : s'.current.context = s.current.context := by
    change s'.view Thread.context s'.currentThread = _
    rw [hc, hv]
    rfl
  refine ⟨hc, hk, ?_⟩
  rw [view_update (s := s') (x := { s'.current with stack }) rfl, hv, hc]
  exact congrArg (fun c : Context => Function.update (s.view Thread.context) s.currentThread { c with stack }) hcur

theorem goes_sleep (hc : s'.currentThread = s.currentThread) (hk : s'.created = s.created)
    (hv : s'.view Thread.context = s.view Thread.context) (h : s'.sleep rest = .ok t) : Goes s t (.sleep :: rest) ∧ t.hw = s'.hw := by
  obtain ⟨-, rfl⟩ := sleep_ok h
  exact ⟨goes_setStack hc hk ((view_update_same (s := s') rfl (by rfl)).trans hv), rfl⟩

theorem finish_goes (h : s.finish rest = .ok t) : Goes s t (.sleep :: .finish :: rest) ∧ t.hw = s.hw.disable := by
  unfold finish wakeParent at h
  dsimp only at h
  split at h
  · exact goes_sleep (s := s) (by rfl) (by rfl) (by exact view_update_same rfl (by rfl)) h
  · refine goes_sleep (s := s) (by rfl) (by rfl) ?_ h
    exact (view_update_same rfl (by rfl)).trans (view_update_same (s := s) rfl (by rfl))

theorem p_goes {semaphore : Nat} {oldLevel : IntStatus} (h : s.p semaphore oldLevel rest = .ok t) :
    (Goes s t (.setLevel oldLevel :: rest) ∨ Goes s t (.sleep :: .p semaphore oldLevel :: rest)) ∧ t.hw = s.hw := by
  obtain ⟨value, rfl⟩ | ⟨value, h⟩ := p_ok h
  · exact ⟨.inl (goes_setStack rfl rfl rfl), rfl⟩
  · obtain ⟨hg, hh⟩ := goes_sleep (s := s) (by rfl) (by rfl) (by rfl) h
    exact ⟨.inr hg, hh⟩

theorem v_goes (s : ThreadSystem) (semaphore : Nat) (rest : List Frame) : Goes s (s.v semaphore rest) (.setLevel s.hw.interrupt.level :: rest) ∧
    (s.v semaphore rest).hw = s.hw.disable := by
  unfold v
  dsimp only
  split
  · exact ⟨goes_setStack rfl rfl rfl, rfl⟩
  · exact ⟨goes_setStack rfl rfl (view_update_same (s := s) rfl (by rfl)), rfl⟩

theorem scJoin_goes (h : s.scJoin rest = .ok t) : Goes s t rest ∧ t.hw = s.hw ∨
    ∃ child, Goes s t (.sleep :: .joining child :: rest) ∧ t.hw = s.hw.disable := by
  obtain rfl | ⟨child, -, h⟩ := scJoin_ok h
  · exact .inl ⟨goes_setStack rfl rfl rfl, rfl⟩
  · refine .inr ⟨child, goes_sleep (s := s) (by rfl) (by rfl) ?_ h⟩
    exact (view_update_same rfl (by rfl)).trans (view_update_same (s := s) rfl (by rfl))

theorem switched_goes (h : s.switched rest = .ok t) : Goes s t rest ∧ t.hw.interrupt = s.hw.interrupt := by
  obtain ⟨hw, threadToBeDestroyed, rfl, hi, -⟩ := switched_ok h
  exact ⟨goes_setStack rfl rfl rfl, hi⟩

theorem processCreator_goes (h : s.processCreator rest = .ok t) :
    Goes s t (.machineRun :: rest) ∧ t.hw.interrupt = s.hw.interrupt := by
  obtain ⟨σ, threadToBeDestroyed, -, rfl⟩ := processCreator_ok h
  exact ⟨goes_setStack rfl rfl rfl, rfl⟩

theorem scYieldReturn_goes (h : s.scYieldReturn rest = .ok t) : Goes s t rest ∧ t.hw.interrupt = s.hw.interrupt := by
  obtain ⟨σ, rfl⟩ := scYieldReturn_ok h
  exact ⟨goes_setStack rfl rfl rfl, rfl⟩

theorem startProcess_contexts (σ : Space) : (s.startProcess σ rest).view Thread.context =
    Function.update (s.view Thread.context) s.currentThread
      { s.current.context with stack := .machineRun :: rest, space := some σ } := by
  refine view_update (x := { s.current with stack := .machineRun :: rest, space := some σ }) ?_
  simp [startProcess, setStack, modify, enter, current]

theorem fork_frames (s : ThreadSystem) (thread : Thread) (func : Frame) (rest : List Frame) : (s.fork thread func rest).view Thread.stack =
    Function.update (Function.update (s.view Thread.stack) s.created (stackAllocate func)) s.currentThread
      (.setLevel s.hw.interrupt.level :: rest) := by
  unfold fork setStack
  rw [view_update rfl]
  congr 1
  exact (view_update_same rfl (by rfl)).trans (view_update (x := { thread with stack := stackAllocate func }) rfl)

theorem run_contexts (nextThread : Tid) : (s.run nextThread rest).view Thread.context =
    Function.update (s.view Thread.context) s.currentThread (s.current.switchOut s.hw.registers rest).context :=
  (view_update_same rfl (by rfl)).trans (view_update (x := s.current.switchOut s.hw.registers rest) rfl)

theorem run_frames (nextThread : Tid) : (s.run nextThread rest).view Thread.stack =
    Function.update (s.view Thread.stack) s.currentThread (.switched :: rest) :=
  frames_of_contexts (run_contexts nextThread)

theorem switchOut_congr {u v : Thread} (h : u.context = v.context) (registers : Register → Word) (rest : List Frame) :
    (u.switchOut registers rest).context = (v.switchOut registers rest).context := by
  obtain ⟨-, hs, hu, -⟩ := Context.mk.inj h
  simp [Thread.switchOut, Thread.context, hs, hu]

theorem yield_cases (s : ThreadSystem) (rest : List Frame) : (s.yield rest).hw = s.hw.disable ∧
    (Goes s (s.yield rest) (.setLevel s.hw.interrupt.level :: rest) ∨
      (s.yield rest).created = s.created ∧
      (s.yield rest).view Thread.context = Function.update (s.view Thread.context) s.currentThread
        (s.current.switchOut s.hw.registers (.setLevel s.hw.interrupt.level :: rest)).context) := by
  unfold yield
  dsimp only
  split
  · exact ⟨rfl, .inl (goes_setStack rfl rfl rfl)⟩
  · refine ⟨rfl, .inr ⟨rfl, (run_contexts _).trans ?_⟩⟩
    rw [view_update_same (s := s) rfl (by rfl)]
    refine congrArg (Function.update (s.view Thread.context) s.currentThread) (switchOut_congr ?_ _ _)
    simp [current, readyToRun, setStatus, modify, Thread.context]

structure Disciplined (s : ThreadSystem) : Prop where
  nested : ∀ u, WellNested (s.view Thread.stack u)
  others : ∀ u, u ≠ s.currentThread → Suspended (s.view Thread.stack u)
  current : Agrees s.stack s.hw.interrupt

theorem Goes.stack_eq (hg : Goes s t stack) : t.stack = stack := by
  change t.view Thread.stack t.currentThread = stack
  rw [hg.current, hg.frames, Function.update_self]

section Update

variable (hv : t.view Thread.stack = Function.update (s.view Thread.stack) s.currentThread stack)

include hv

theorem Disciplined.suspended (h : Disciplined s) (hs : Suspended stack) : ∀ u, Suspended (t.view Thread.stack u) := by
  rw [hv]
  exact (Function.forall_update_iff _ fun _ => Suspended).mpr ⟨hs, h.others⟩

theorem Disciplined.nests (h : Disciplined s) (hn : WellNested stack) : ∀ u, WellNested (t.view Thread.stack u) := by
  rw [hv]
  exact (Function.forall_update_iff _ fun _ => WellNested).mpr ⟨hn, fun u _ => h.nested u⟩

theorem Disciplined.moves (h : Disciplined s) (hc : t.currentThread = s.currentThread) (hn : WellNested stack)
    (ha : Agrees stack t.hw.interrupt) : Disciplined t := by
  refine ⟨h.nests hv hn, fun u hu => ?_, ?_⟩
  · rw [hc] at hu
    rw [hv, Function.update_of_ne hu]
    exact h.others u hu
  · have hs : t.stack = stack := by
      change t.view Thread.stack t.currentThread = stack
      rw [hc, hv, Function.update_self]
    rw [hs]
    exact ha

theorem Disciplined.switch (h : Disciplined s) (hs : Suspended stack) (hn : WellNested stack)
    (hi : t.hw.interrupt.inHandler = false) : Disciplined t := by
  have hsus := h.suspended hv hs
  exact ⟨h.nests hv hn, fun u _ => hsus u, .of_suspended (hsus t.currentThread) hi⟩

end Update

theorem Disciplined.goes (h : Disciplined s) (hg : Goes s t stack) {i : Interrupt} (hi : t.hw.interrupt = i)
    (hn : WellNested stack) (ha : Agrees stack i) : Disciplined t := by
  refine h.moves hg.frames hg.current hn ?_
  rw [hi]
  exact ha

theorem Disciplined.sleeps (h : Disciplined s) (hg : Goes s t (.sleep :: rest))
    (hi : t.hw.interrupt.inHandler = false) (hn : WellNested (.sleep :: rest)) : Disciplined t :=
  h.goes hg rfl hn ⟨by simp [needsOn], hi, by simp [inHandler], by simp [mode]⟩

theorem suspended_stackAllocate {func : Frame} (hf : func = .kernel ∨ func = .processCreator) :
    Suspended (stackAllocate func) ∧ WellNested (stackAllocate func) := by
  obtain rfl | rfl := hf
  · exact ⟨⟨rfl, rfl, rfl, rfl⟩, ⟨fun _ => rfl, .inl rfl⟩, rfl, rfl, trivial⟩
  · exact ⟨⟨rfl, rfl, rfl, rfl⟩, ⟨fun _ => rfl, .inl rfl⟩, rfl, rfl, trivial⟩

theorem Disciplined.fork (h : Disciplined s) {thread : Thread} {func : Frame}
    (hf : func = .kernel ∨ func = .processCreator) (hl : s.hw.interrupt.level = .intOn)
    (hi : s.hw.interrupt.inHandler = false) (hp : plain rest = true) (hn : WellNested rest) :
    Disciplined (s.fork thread func rest) := by
  have hv := fork_frames s thread func rest
  have hnew := suspended_stackAllocate hf
  have hstack : WellNested (.setLevel s.hw.interrupt.level :: rest) := ⟨⟨fun _ => hl, .inl hp⟩, hn⟩
  refine ⟨?_, fun u hu => ?_, ?_⟩
  · rw [hv]
    refine (Function.forall_update_iff _ fun _ => WellNested).mpr ⟨hstack, fun u _ => ?_⟩
    exact (Function.forall_update_iff _ fun _ => WellNested).mpr ⟨hnew.2, fun u _ => h.nested u⟩ u
  · change u ≠ s.currentThread at hu
    rw [hv, Function.update_of_ne hu]
    by_cases hc : u = s.created
    · rw [hc, Function.update_self]
      exact hnew.1
    · rw [Function.update_of_ne hc]
      exact h.others u hu
  · change Agrees ((s.fork thread func rest).view Thread.stack s.currentThread) s.hw.disable.interrupt
    rw [hv, Function.update_self]
    exact .of_plain hp (by simp [needsOn]) hi

theorem Disciplined.wellNested (h : Disciplined s) : WellNested s.stack := h.nested s.currentThread

theorem Disciplined.yields (h : Disciplined s) (hs : s.stack = .yield :: rest) : Disciplined (s.yield rest) := by
  have hn := h.wellNested
  have ha := h.current
  rw [hs] at hn ha
  obtain ⟨hh, hg⟩ := yield_cases s rest
  have hnest : WellNested (.setLevel s.hw.interrupt.level :: rest) := ⟨⟨ha.level, .inl hn.1⟩, hn.2⟩
  obtain hg | ⟨-, hv⟩ := hg
  · exact h.goes hg (congrArg Hardware.interrupt hh) hnest (.of_plain hn.1 (by simp [needsOn]) ha.inHandler)
  · refine h.switch (frames_of_contexts hv) (suspended_switched _) ⟨⟨hn.1, rfl⟩, hnest⟩ ?_
    rw [hh]
    exact ha.inHandler

theorem Disciplined.execs (h : Disciplined s) (hs : s.stack = .scExec :: rest) (garbage : Register → Word)
    (space : Space) : Disciplined (s.scExec garbage space rest) := by
  have hn := h.wellNested
  have ha := h.current
  rw [hs] at hn ha
  unfold scExec
  split_ifs
  · exact h.goes (goes_setStack rfl rfl (view_update_same (s := s) rfl (by rfl))) rfl hn.2
      (.of_plain hn.1 (fun _ => ha.level rfl) ha.inHandler)
  · dsimp only
    exact Disciplined.fork (by exact ⟨h.nested, h.others, h.current⟩) (.inr rfl) (ha.level rfl) ha.inHandler hn.1 hn.2

theorem Disciplined.joins (h : Disciplined s) (hs : s.stack = .scJoin :: rest) (he : s.scJoin rest = .ok t) :
    Disciplined t := by
  have hn := h.wellNested
  have ha := h.current
  rw [hs] at hn ha
  obtain ⟨hg, hh⟩ | ⟨child, hg, hh⟩ := scJoin_goes he
  · exact h.goes hg (congrArg Hardware.interrupt hh) hn.2 (.of_plain hn.1.1 (by simp [hn.1.2]) ha.inHandler)
  · refine h.sleeps hg ?_ ⟨⟨rfl, rfl⟩, hn⟩
    rw [hh]
    exact ha.inHandler

theorem Disciplined.waits {semaphore : Nat} {oldLevel : IntStatus} (h : Disciplined s)
    (hs : s.stack = .p semaphore oldLevel :: rest) (he : s.p semaphore oldLevel rest = .ok t) : Disciplined t := by
  have hn := h.wellNested
  have ha := h.current
  rw [hs] at hn ha
  obtain ⟨hg | hg, hh⟩ := p_goes he
  · exact h.goes hg (congrArg Hardware.interrupt hh) ⟨⟨hn.1.2, .inl hn.1.1⟩, hn.2⟩
      (.of_plain hn.1.1 (by simp [needsOn]) ha.inHandler)
  · refine h.sleeps hg ?_ ⟨⟨rfl, rfl⟩, hn⟩
    rw [hh]
    exact ha.inHandler

theorem Disciplined.signals {semaphore : Nat} {f : Frame} (h : Disciplined s) (hf : f.Calls)
    (hs : s.stack = f :: rest) : Disciplined (s.v semaphore (f :: rest)) := by
  have hn := h.wellNested
  have ha := h.current
  rw [hs] at hn ha
  obtain ⟨hg, hh⟩ := v_goes s semaphore (f :: rest)
  cases f with
  | kernel =>
    exact h.goes hg (congrArg Hardware.interrupt hh) ⟨⟨ha.level, .inl rfl⟩, hn⟩
      (.of_plain rfl (by simp [needsOn]) ha.inHandler)
  | handler old =>
    have hoff := ha.handler rfl
    refine h.goes hg (congrArg Hardware.interrupt hh) ⟨⟨by simp [needsOn], .inr ⟨hoff.1, old, rest, rfl⟩⟩, hn⟩ ?_
    exact ⟨by simp [needsOn], ha.inHandler, fun _ => ⟨rfl, hoff.2⟩, by simp [mode]⟩
  | _ => cases hf

theorem Disciplined.step {a : Action} (h : Disciplined s) (hs : Step s a t) : Disciplined t := by
  have hn := h.wellNested
  have ha := h.current
  cases hs with
  | control hc =>
    obtain ⟨hn', ha'⟩ := hc.disciplined hn ha
    exact h.goes (goes_setStack rfl rfl rfl) rfl hn' ha'
  | idle hs hr hd hc =>
    obtain ⟨hl, -, pending, totalTicks, -, -, -, rfl⟩ := Interrupt.checkIfDue_fire hc
    rw [hs] at hn
    refine h.goes (goes_setStack rfl rfl rfl) rfl ⟨.inl ⟨_, rfl⟩, ⟨_, hs⟩, h.wellNested⟩ ?_
    exact ⟨by simp [needsOn], rfl, fun _ => ⟨hl, rfl⟩, by simp [mode]⟩
  | @dispatch rest t hs hd =>
    obtain ⟨nextThread, readyList, -, rfl⟩ := dispatch_some hd
    rw [hs] at hn ha
    exact h.switch (by exact run_frames nextThread) (suspended_switched rest) hn ha.inHandler
  | switched hs he =>
    obtain ⟨hg, hi⟩ := switched_goes he
    rw [hs] at hn ha
    exact h.goes hg hi hn.2 (.of_plain hn.1.1 (by simp [hn.1.2]) ha.inHandler)
  | yield hs => exact h.yields hs
  | fork hs =>
    rw [hs] at hn ha
    exact h.fork (.inl rfl) (ha.level rfl) ha.inHandler rfl hn
  | exec hs => exact h.execs hs _ _
  | join hs he => exact h.joins hs he
  | yieldReturn hs he =>
    rw [hs] at hn ha
    obtain ⟨hg, hi⟩ := scYieldReturn_goes he
    exact h.goes hg hi hn.2 (.of_plain hn.1 ha.level ha.inHandler)
  | finish hs he =>
    rw [hs] at hn ha
    obtain ⟨hg, hh⟩ := finish_goes he
    refine h.sleeps hg ?_ ⟨⟨rfl, rfl⟩, hn⟩
    rw [hh]
    exact ha.inHandler
  | p hs he => exact h.waits hs he
  | v hf hs => exact h.signals hf hs
  | processCreator hs he =>
    rw [hs] at hn ha
    obtain ⟨hg, hi⟩ := processCreator_goes he
    exact h.goes hg hi hn ⟨ha.level, ha.inHandler, by simp [inHandler], by simp [mode]⟩
  | startProcess hs hsp =>
    rw [hs] at hn ha
    exact h.moves (frames_of_contexts (startProcess_contexts _)) rfl ⟨rfl, hn⟩
      ⟨ha.level, ha.inHandler, by simp [inHandler], by simp [mode]⟩

theorem boot_frames (garbage : Register → Word) (pending : List PendingInterrupt) (hw : Hardware) (values : Nat → Int)
    (pooled : Bool) : (boot garbage pending hw values pooled).view Thread.stack =
      Function.update (fun _ => []) main (stackAllocate .kernel) := by
  unfold view boot
  rw [Function.comp_update]
  rfl

theorem Initial.disciplined (h : Initial s) : Disciplined s := by
  obtain ⟨garbage, pending, hw, values, pooled, rfl⟩ := h
  have hall : ∀ u, Suspended ((boot garbage pending hw values pooled).view Thread.stack u) ∧
      WellNested ((boot garbage pending hw values pooled).view Thread.stack u) := by
    rw [boot_frames]
    refine (Function.forall_update_iff _ fun _ stack => Suspended stack ∧ WellNested stack).mpr ⟨?_, fun u _ => ?_⟩
    · exact suspended_stackAllocate (.inl rfl)
    · exact ⟨⟨rfl, rfl, rfl, rfl⟩, trivial⟩
  exact ⟨fun u => (hall u).2, fun u _ => (hall u).1, .of_suspended (hall main).1 rfl⟩

theorem Run.disciplined (h : Run s) : Disciplined s :=
  Reachable.invariant (fun _ hi => hi.disciplined) (fun _ _ _ hd hs => hd.step hs) h

/-- User instructions run with interrupts on and in user mode, handlers with interrupts off and in system mode. -/
theorem mode_discipline (h : Run s) :
    (∀ rest, s.stack = .oneInstruction :: rest → s.hw.interrupt.level = .intOn ∧
      s.hw.interrupt.inHandler = false ∧ s.hw.interrupt.status = .userMode) ∧
    (∀ old rest, s.stack = .handler old :: rest → s.hw.interrupt.level = .intOff ∧
      s.hw.interrupt.inHandler = true ∧ s.hw.interrupt.status = .systemMode) := by
  have ha := h.disciplined.current
  refine ⟨fun rest hs => ?_, fun old rest hs => ?_⟩
  · rw [hs] at ha
    exact ⟨ha.level rfl, ha.inHandler, ha.status _ rfl⟩
  · rw [hs] at ha
    obtain ⟨hl, hm⟩ := ha.handler rfl
    exact ⟨hl, ha.inHandler, hm⟩

def ticking : ThreadSystem := boot (fun _ => 0) [⟨0, 10, .timerInt⟩] ⟨.new, fun _ => 0, none, 0⟩ (fun _ => 0) false

theorem ticking_fires : ∃ (s : ThreadSystem) (old : MachineStatus) (rest : List Frame), Run s ∧ s.stack = .handler old :: rest := by
  obtain ⟨s, hs⟩ : ∃ s, [Choice.go].foldlM advance ticking = some s := ⟨_, rfl⟩
  have hr : Run s := advance_run (.start ⟨_, _, _, _, _, rfl⟩) hs
  obtain ⟨old, rest, hstack⟩ : ∃ old rest, s.stack = .oneTick old :: rest := by
    obtain rfl := Option.some.inj hs
    exact ⟨_, _, rfl⟩
  obtain ⟨hw, hd⟩ : ∃ hw, s.hw.delayedLoad = .ok hw := by
    obtain rfl := Option.some.inj hs
    exact ⟨_, rfl⟩
  obtain ⟨status, toOccur, i, hf⟩ : ∃ status toOccur i, s.hw.interrupt.checkIfDue false = .ok (.fire status toOccur i) := by
    obtain rfl := Option.some.inj hs
    exact ⟨_, _, _, rfl⟩
  have hc : Control s.assertMain s.hw s.stack { hw with interrupt := i } (.handler status :: .oneTick old :: rest) := by
    rw [hstack]
    exact .fire trivial hd hf
  exact ⟨_, status, .oneTick old :: rest, .next .control hr (.control hc), setStack_stack ..⟩

theorem mode_discipline_first : ∃ (s t : ThreadSystem) (rest callers : List Frame) (old : MachineStatus),
    (s.stack = .oneInstruction :: rest ∧ s.hw.interrupt.level = .intOn ∧ s.hw.interrupt.inHandler = false ∧
      s.hw.interrupt.status = .userMode) ∧
    t.stack = .handler old :: callers ∧ t.hw.interrupt.level = .intOff ∧ t.hw.interrupt.inHandler = true ∧
      t.hw.interrupt.status = .systemMode := by
  obtain ⟨s, hs⟩ : ∃ s, mainStarts.foldlM advance cleared = some s := ⟨_, rfl⟩
  have hstack : s.stack = .oneInstruction :: [.kernel, .finish] := by
    obtain rfl := Option.some.inj hs
    rfl
  obtain ⟨t, old, callers, ht, hcallers⟩ := ticking_fires
  exact ⟨s, t, _, callers, old, ⟨hstack, (mode_discipline (advance_run cleared_run hs)).1 _ hstack⟩, hcallers,
    (mode_discipline ht).2 _ _ hcallers⟩

end ThreadSystem

end Nachos
