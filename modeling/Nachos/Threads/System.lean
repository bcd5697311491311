import Nachos.Lib.Run
import Nachos.Threads.Thread

namespace Nachos

/-- What `ExceptionHandler` goes on with after its `switch`; nothing when the simulator ends there. -/
def handlerCode (assertMain : Bool) (which : ExceptionType) (type : Int) : Option (List Frame) :=
  match which with
  | .noException => some []
  | .syscallException =>
    if type = 0 then none
    -- the file system may block, in `delete space` and before `SC_Exec` has the new space
    else if type = 1 then some [.kernel, .finish]
    else if type = 2 then some [.kernel, .scExec]
    else if type = 3 then some [.scJoin]
    else if type = 6 ∨ type = 7 then some [.kernel]
    else if type = 10 then some [.yield, .restoreState]
    else some []
  | .pageFaultException => some [.kernel]
  | _ => if assertMain then none else some [.kernel, .finish]

def Frame.Calls : Frame → Prop
  | .kernel | .handler _ => True
  | _ => False

def Frame.Checks : Frame → Prop
  | .oneTick _ | .idle => True
  | _ => False

/-- The steps of the current thread that touch neither the threads nor the scheduler. An instruction of a
user program may do anything to the registers. -/
inductive Control (assertMain : Bool) (hw : Hardware) : List Frame → Hardware → List Frame → Prop
  | setLevel {now : IntStatus} {i : Interrupt} {rest : List Frame}
      (h : hw.interrupt.setLevel now = .ok (false, i)) :
      Control assertMain hw (.setLevel now :: rest) { hw with interrupt := i } rest
  | enable {now : IntStatus} {i : Interrupt} {rest : List Frame} (h : hw.interrupt.setLevel now = .ok (true, i)) :
      Control assertMain hw (.setLevel now :: rest) { hw with interrupt := i.beginTick } (.oneTick i.status :: rest)
  | fire {f : Frame} {old : MachineStatus} {toOccur : PendingInterrupt} {i : Interrupt} {hw' : Hardware}
      {rest : List Frame} (hf : f.Checks) (hd : hw.delayedLoad = .ok hw')
      (h : hw.interrupt.checkIfDue false = .ok (.fire old toOccur i)) :
      Control assertMain hw (f :: rest) { hw' with interrupt := i } (.handler old :: f :: rest)
  | endTick {old : MachineStatus} {i : Interrupt} {rest : List Frame}
      (h : hw.interrupt.checkIfDue false = .ok (.quiet i)) (hy : i.yieldOnReturn = false) :
      Control assertMain hw (.oneTick old :: rest) { hw with interrupt := i.endTick } rest
  | timeSlice {old : MachineStatus} {i : Interrupt} {rest : List Frame}
      (h : hw.interrupt.checkIfDue false = .ok (.quiet i)) (hy : i.yieldOnReturn = true) :
      Control assertMain hw (.oneTick old :: rest) { hw with interrupt := i.endTick }
        (.yield :: .tickYielded old :: rest)
  | tickYielded {old : MachineStatus} {rest : List Frame} :
      Control assertMain hw (.tickYielded old :: rest) (hw.setStatus old) rest
  | endIdle {i : Interrupt} {rest : List Frame} (h : hw.interrupt.checkIfDue false = .ok (.quiet i)) :
      Control assertMain hw (.idle :: rest) { hw with interrupt := i.endIdle } rest
  | yieldOnReturn {old : MachineStatus} {i : Interrupt} {rest : List Frame}
      (h : hw.interrupt.setYieldOnReturn = .ok i) :
      Control assertMain hw (.handler old :: rest) { hw with interrupt := i } (.handler old :: rest)
  | handlerReturn {old : MachineStatus} {rest : List Frame} :
      Control assertMain hw (.handler old :: rest) { hw with interrupt := hw.interrupt.handlerReturn old } rest
  | schedule {f : Frame} {id : Nat} {fromNow : Int} {type : IntType} {i : Interrupt} {rest : List Frame}
      (hf : f.Calls) (h : hw.interrupt.schedule id fromNow type = .ok i) :
      Control assertMain hw (f :: rest) { hw with interrupt := i } (f :: rest)
  | machineRun {rest : List Frame} :
      Control assertMain hw (.machineRun :: rest) (hw.setStatus .userMode) (.oneInstruction :: rest)
  | instruction {registers : Register → Word} {rest : List Frame} :
      Control assertMain hw (.oneInstruction :: rest) { hw with registers } (.runTick :: rest)
  | exception {registers : Register → Word} {which : ExceptionType} {badVAddr : Word} {hw' : Hardware}
      {rest : List Frame} (h : { hw with registers }.raiseException badVAddr = .ok hw') :
      Control assertMain hw (.oneInstruction :: rest) hw' (.exceptionHandler which :: .trapReturn :: .runTick :: rest)
  | runTick {rest : List Frame} :
      Control assertMain hw (.runTick :: rest) { hw with interrupt := hw.interrupt.beginTick }
        (.oneTick hw.interrupt.status :: .oneInstruction :: rest)
  | trapReturn {rest : List Frame} : Control assertMain hw (.trapReturn :: rest) (hw.setStatus .userMode) rest
  | exceptionHandler {which : ExceptionType} {code rest : List Frame}
      (h : handlerCode assertMain which (hw.registers Kernel.resultReg).toInt = some code) :
      Control assertMain hw (.exceptionHandler which :: rest)
        (if which = .syscallException then hw.advancePC else hw) (code ++ rest)
  | joined {child : Tid} {rest : List Frame} : Control assertMain hw (.joining child :: rest) hw rest
  -- a read of the name failed, or there is no such file
  | execFails {rest : List Frame} : Control assertMain hw (.scExec :: rest) hw rest
  | kernelYield {rest : List Frame} : Control assertMain hw (.kernel :: rest) hw (.yield :: .kernel :: rest)
  | kernelP {semaphore : Nat} {rest : List Frame} :
      Control assertMain hw (.kernel :: rest) hw.disable (.p semaphore hw.interrupt.level :: .kernel :: rest)
  -- a `ReadMem` or `WriteMem` of a system call
  | kernelFault {which : ExceptionType} {badVAddr : Word} {hw' : Hardware} {rest : List Frame}
      (hne : which ≠ .syscallException) (h : hw.raiseException badVAddr = .ok hw') :
      Control assertMain hw (.kernel :: rest) hw' (.exceptionHandler which :: .trapReturn :: .kernel :: rest)
  | kernelWrite {registers : Register → Word} {rest : List Frame} :
      Control assertMain hw (.kernel :: rest) { hw with registers } (.kernel :: rest)
  | kernelReturn {rest : List Frame} : Control assertMain hw (.kernel :: rest) hw rest

namespace ThreadSystem

inductive Action where
  | control
  | idle
  | dispatch
  | switched
  | yield
  | fork
  | exec
  | join
  | yieldReturn
  | finish
  | p
  | v
  | processCreator
  | startProcess
  deriving DecidableEq, Repr

def assertMain (s : ThreadSystem) : Bool := s.currentThread = main && s.pooled

inductive Step (s : ThreadSystem) : Action → ThreadSystem → Prop
  | control {hw : Hardware} {stack : List Frame} (h : Control s.assertMain s.hw s.stack hw stack) :
      Step s .control ({ s with hw }.setStack stack)
  -- the loop of `Sleep` calls `Idle`; when no interrupt is due there either, the simulator halts
  | idle {rest : List Frame} {old : MachineStatus} {toOccur : PendingInterrupt} {i : Interrupt} {hw : Hardware}
      (hs : s.stack = .sleep :: rest) (hr : s.readyList = []) (hd : s.hw.delayedLoad = .ok hw)
      (h : s.hw.interrupt.beginIdle.checkIfDue true = .ok (.fire old toOccur i)) :
      Step s .idle ({ s with hw := { hw with interrupt := i } }.setStack (.handler old :: .idle :: s.stack))
  | dispatch {rest : List Frame} {t : ThreadSystem} (hs : s.stack = .sleep :: rest) (h : s.dispatch rest = some t) :
      Step s .dispatch t
  | switched {rest : List Frame} {t : ThreadSystem} (hs : s.stack = .switched :: rest)
      (h : s.switched rest = .ok t) : Step s .switched t
  | yield {rest : List Frame} (hs : s.stack = .yield :: rest) : Step s .yield (s.yield rest)
  | fork {rest : List Frame} {garbage : Register → Word} (hs : s.stack = .kernel :: rest) :
      Step s .fork (s.fork (.new garbage) .kernel (.kernel :: rest))
  | exec {rest : List Frame} {garbage : Register → Word} {space : Space} (hs : s.stack = .scExec :: rest) :
      Step s .exec (s.scExec garbage space rest)
  | join {rest : List Frame} {t : ThreadSystem} (hs : s.stack = .scJoin :: rest) (h : s.scJoin rest = .ok t) :
      Step s .join t
  | yieldReturn {rest : List Frame} {t : ThreadSystem} (hs : s.stack = .restoreState :: rest)
      (h : s.scYieldReturn rest = .ok t) : Step s .yieldReturn t
  | finish {rest : List Frame} {t : ThreadSystem} (hs : s.stack = .finish :: rest) (h : s.finish rest = .ok t) :
      Step s .finish t
  | p {semaphore : Nat} {oldLevel : IntStatus} {rest : List Frame} {t : ThreadSystem}
      (hs : s.stack = .p semaphore oldLevel :: rest) (h : s.p semaphore oldLevel rest = .ok t) : Step s .p t
  | v {semaphore : Nat} {f : Frame} {rest : List Frame} (hf : f.Calls) (hs : s.stack = f :: rest) :
      Step s .v (s.v semaphore (f :: rest))
  | processCreator {rest : List Frame} {t : ThreadSystem} (hs : s.stack = .processCreator :: rest)
      (h : s.processCreator rest = .ok t) : Step s .processCreator t
  | startProcess {σ : Space} {rest : List Frame} (hs : s.stack = .kernel :: rest) (hn : s.current.space = none) :
      Step s .startProcess (s.startProcess σ (.kernel :: rest))

def boot (garbage : Register → Word) (pending : List PendingInterrupt) (hw : Hardware) (values : Nat → Int)
    (pooled : Bool) : ThreadSystem where
  hw := { hw with interrupt := { Interrupt.new with pending } }
  threads := Function.update (fun _ => .new garbage) main
    { Thread.new garbage with status := .running, stack := stackAllocate .kernel }
  created := 1
  currentThread := main
  readyList := []
  threadToBeDestroyed := none
  activeThreads := []
  threadID := 1
  semaphores := fun k => .new (values k)
  pooled := pooled

def Initial (s : ThreadSystem) : Prop := ∃ garbage pending hw values pooled, s = boot garbage pending hw values pooled

def Run : ThreadSystem → Prop := Reachable Initial Step

inductive Choice where
  | go
  | start (σ : Space)
  | trap (which : ExceptionType) (registers : Register → Word)
  | spawn (σ : Space)

def control (s : ThreadSystem) (hw : Hardware) (stack : List Frame) : ThreadSystem := { s with hw }.setStack stack

/-- The next state of a machine without interrupts, as `Choice` has it. -/
def advance (s : ThreadSystem) (c : Choice) : Option ThreadSystem :=
  match s.stack, c with
  | .setLevel now :: rest, .go =>
    match s.hw.interrupt.setLevel now with
    | .ok (false, i) => some (s.control { s.hw with interrupt := i } rest)
    | .ok (true, i) => some (s.control { s.hw with interrupt := i.beginTick } (.oneTick i.status :: rest))
    | .error _ => none
  | .oneTick _ :: rest, .go =>
    match s.hw.interrupt.checkIfDue false with
    | .ok (.quiet i) => if i.yieldOnReturn then none else some (s.control { s.hw with interrupt := i.endTick } rest)
    | _ => none
  | .kernel :: rest, .start σ => if s.current.space.isNone then some (s.startProcess σ (.kernel :: rest)) else none
  | .kernel :: rest, .go => some (s.control s.hw rest)
  | .machineRun :: rest, .go => some (s.control (s.hw.setStatus .userMode) (.oneInstruction :: rest))
  | .oneInstruction :: rest, .trap which registers =>
    match { s.hw with registers }.raiseException 0 with
    | .ok hw => some (s.control hw (.exceptionHandler which :: .trapReturn :: .runTick :: rest))
    | .error _ => none
  | .exceptionHandler which :: rest, .go =>
    (handlerCode s.assertMain which (s.hw.registers Kernel.resultReg).toInt).map fun code =>
      s.control (if which = .syscallException then s.hw.advancePC else s.hw) (code ++ rest)
  | .trapReturn :: rest, .go => some (s.control (s.hw.setStatus .userMode) rest)
  | .runTick :: rest, .go => some (s.control { s.hw with interrupt := s.hw.interrupt.beginTick }
      (.oneTick s.hw.interrupt.status :: .oneInstruction :: rest))
  | .scExec :: rest, .spawn σ => some (s.scExec (fun _ => 0) σ rest)
  | .scJoin :: rest, .go => (s.scJoin rest).toOption
  | .joining _ :: rest, .go => some (s.control s.hw rest)
  | .finish :: rest, .go => (s.finish rest).toOption
  | .sleep :: rest, .go => s.dispatch rest
  | .switched :: rest, .go => (s.switched rest).toOption
  | .processCreator :: rest, .go => (s.processCreator rest).toOption
  | _, _ => none

theorem toOption_eq_some {ε α : Type} {x : Except ε α} {a : α} (h : x.toOption = some a) : x = .ok a := by
  cases x with
  | error e => cases h
  | ok b => exact congrArg _ (Option.some.inj h)

theorem ok_of_isOk {ε α : Type} {x : Except ε α} (h : x.isOk = true) : ∃ a, x = .ok a := by
  cases x with
  | error e => cases h
  | ok a => exact ⟨a, rfl⟩

def Choice.action (stack : List Frame) : Choice → Action
  | .start _ => .startProcess
  | .spawn _ => .exec
  | .trap _ _ => .control
  | .go =>
    match stack with
    | .scJoin :: _ => .join
    | .finish :: _ => .finish
    | .sleep :: _ => .dispatch
    | .switched :: _ => .switched
    | .processCreator :: _ => .processCreator
    | _ => .control

theorem advance_action {s t : ThreadSystem} {c : Choice} (h : s.advance c = some t) : Step s (c.action s.stack) t := by
  unfold advance at h
  split at h
  · next now rest hs =>
    rw [hs]
    split at h
    · next i hi =>
      obtain rfl := Option.some.inj h
      exact .control (hs ▸ .setLevel hi)
    · next i hi =>
      obtain rfl := Option.some.inj h
      exact .control (hs ▸ .enable hi)
    · cases h
  · next hs =>
    rw [hs]
    split at h
    · next i hi =>
      split_ifs at h with hy
      obtain rfl := Option.some.inj h
      exact .control (hs ▸ .endTick hi (Bool.not_eq_true _ ▸ hy))
    · cases h
  · next hs =>
    split_ifs at h with hn
    obtain rfl := Option.some.inj h
    exact .startProcess hs (Option.isNone_iff_eq_none.mp hn)
  · next hs =>
    rw [hs]
    obtain rfl := Option.some.inj h
    exact .control (hs ▸ .kernelReturn)
  · next hs =>
    rw [hs]
    obtain rfl := Option.some.inj h
    exact .control (hs ▸ .machineRun)
  · next hs =>
    split at h
    · next hw hr =>
      obtain rfl := Option.some.inj h
      exact .control (hs ▸ .exception hr)
    · cases h
  · next hs =>
    rw [hs]
    obtain ⟨code, hc, rfl⟩ := Option.map_eq_some_iff.mp h
    exact .control (hs ▸ .exceptionHandler hc)
  · next hs =>
    rw [hs]
    obtain rfl := Option.some.inj h
    exact .control (hs ▸ .trapReturn)
  · next hs =>
    rw [hs]
    obtain rfl := Option.some.inj h
    exact .control (hs ▸ .runTick)
  · next hs =>
    obtain rfl := Option.some.inj h
    exact .exec hs
  · next hs =>
    rw [hs]
    exact .join hs (toOption_eq_some h)
  · next hs =>
    rw [hs]
    obtain rfl := Option.some.inj h
    exact .control (hs ▸ .joined)
  · next hs =>
    rw [hs]
    exact .finish hs (toOption_eq_some h)
  · next hs =>
    rw [hs]
    exact .dispatch hs h
  · next hs =>
    rw [hs]
    exact .switched hs (toOption_eq_some h)
  · next hs =>
    rw [hs]
    exact .processCreator hs (toOption_eq_some h)
  · cases h

theorem advance_reachable {P : ThreadSystem → Action → Prop} {g : ThreadSystem → Bool}
    (hg : ∀ s a t, g s = true → Step s a t → P s a) {s t : ThreadSystem} {choices : List Choice}
    (hs : Reachable Initial (fun s a t => P s a ∧ Step s a t) s)
    (h : choices.foldlM (fun s c => if g s then s.advance c else none) s = some t) :
    Reachable Initial (fun s a t => P s a ∧ Step s a t) t := by
  induction choices generalizing s with
  | nil =>
    obtain rfl := Option.some.inj h
    exact hs
  | cons c choices ih =>
    obtain ⟨s', hc, h⟩ := Option.bind_eq_some_iff.mp h
    dsimp only at hc
    split_ifs at hc with hs'
    have ha := advance_action hc
    exact ih (.next _ hs ⟨hg s _ s' hs' ha, ha⟩) h

theorem advance_run {s t : ThreadSystem} {choices : List Choice} (hs : Run s) (h : choices.foldlM advance s = some t) :
    Run t :=
  (advance_reachable (P := fun _ _ => True) (g := fun _ => true) (fun _ _ _ _ _ => trivial)
    (hs.mono fun _ _ _ ha => ⟨trivial, ha⟩) h).mono fun _ _ _ ha => ha.2

def cleared : ThreadSystem := boot (fun _ => 0) [] ⟨.new, fun _ => 0, none, 0⟩ (fun _ => 0) false

theorem cleared_run : Run cleared := .start ⟨_, _, _, _, _, rfl⟩

def mainStarts : List Choice := [.go, .go, .start ⟨1, 4⟩, .go]

def sysCall (type arg1 : Word) : Choice :=
  .trap .syscallException (Function.update (Function.update (fun _ => 0) Kernel.resultReg type) Kernel.arg1Reg arg1)

def execs (σ : Space) : List Choice := [sysCall 2 0, .go, .go, .spawn σ, .go, .go, .go, .go, .go]

def joins (id : Word) : List Choice := [sysCall 3 id, .go, .go, .go, .go, .go, .go, .go]

end ThreadSystem

end Nachos
