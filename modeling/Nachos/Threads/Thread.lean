import Nachos.Machine.Interrupt
import Nachos.Threads.Synch
import Nachos.UserProg.SystemCalls

namespace Nachos

inductive ThreadStatus where
  | justCreated
  | running
  | ready
  | blocked
  deriving DecidableEq, Repr

/-- What a context switch uses of an address space; `pageTable` is the address of the table. -/
structure Space where
  pageTable : Nat
  numPages : Word
  deriving DecidableEq

def Space.initRegisters (σ : Space) : Register → Word :=
  Function.update (Function.update (fun _ => 0) nextPCReg 4) stackReg (σ.numPages * .ofNat 32 pageSize - 16)

/-- A place on the kernel stack of a thread where it goes on, with the locals that it needs there. -/
inductive Frame where
  -- `main`, a forked procedure or a part of the handler: what it calls next is up to the run
  | kernel
  | exceptionHandler (which : ExceptionType)
  | scExec
  | scJoin
  -- after the `Sleep` of `SC_Join`
  | joining (child : Tid)
  -- after the `Yield` of `SC_Yield`
  | restoreState
  -- after the call of `ExceptionHandler`
  | trapReturn
  | processCreator
  | machineRun
  -- before and after the call of `OneInstruction` in the loop of `Machine::Run`
  | oneInstruction
  | runTick
  | finish
  | yield
  -- the loops of `Sleep`, `P`, `OneTick` and `Idle`
  | sleep
  | p (semaphore : Nat) (oldLevel : IntStatus)
  | oneTick (old : MachineStatus)
  | idle
  -- after the `SWITCH` of `Run`
  | switched
  | setLevel (now : IntStatus)
  -- after the `Yield` of `OneTick`
  | tickYielded (old : MachineStatus)
  | handler (old : MachineStatus)
  deriving DecidableEq, Repr

structure Thread where
  status : ThreadStatus
  stack : List Frame
  space : Option Space
  userRegisters : Register → Word
  parent : Option Tid
  id : Int
  killNewChild : Bool
  isJoined : Bool
  -- history: `Finish` was called, and the registers when `Run` last switched the thread out
  finished : Bool
  left : Register → Word

def Thread.new (garbage : Register → Word) : Thread :=
  ⟨.justCreated, [], none, garbage, none, 0, false, false, false, garbage⟩

structure Context where
  stack : List Frame
  space : Option Space
  userRegisters : Register → Word
  left : Register → Word

def Thread.context (u : Thread) : Context := ⟨u.stack, u.space, u.userRegisters, u.left⟩

def Thread.switchOut (u : Thread) (registers : Register → Word) (rest : List Frame) : Thread :=
  { u with
    userRegisters := if u.space.isSome then registers else u.userRegisters
    stack := .switched :: rest
    left := registers }

structure Hardware where
  interrupt : Interrupt
  registers : Register → Word
  pageTable : Option Nat
  pageTableSize : Word

namespace Hardware

def disable (hw : Hardware) : Hardware := { hw with interrupt := hw.interrupt.changeLevel .intOff }

def setStatus (hw : Hardware) (status : MachineStatus) : Hardware :=
  { hw with interrupt := { hw.interrupt with status } }

def delayedLoad (hw : Hardware) : Except Fault Hardware := do
  -- `DelayedLoad(0, 0)`, which uses nothing but the registers
  let m ← Machine.delayedLoad ⟨.littleEndian, hw.registers, fun _ => 0, none, none, 0⟩ 0 0
  .ok { hw with registers := m.registers }

def raiseException (hw : Hardware) (badVAddr : Word) : Except Fault Hardware := do
  -- `RaiseException` up to the call of `ExceptionHandler`
  let hw ← { hw with registers := Function.update hw.registers badVAddrReg badVAddr }.delayedLoad
  .ok (hw.setStatus .systemMode)

def advancePC (hw : Hardware) : Hardware :=
  let registers := Function.update hw.registers prevPCReg (hw.registers pcReg)
  let registers := Function.update registers pcReg (hw.registers nextPCReg)
  { hw with registers := Function.update registers nextPCReg (hw.registers nextPCReg + 4) }

def restoreState (hw : Hardware) (σ : Space) : Hardware :=
  { hw with pageTable := some σ.pageTable, pageTableSize := σ.numPages }

end Hardware

/-- The globals of `threads/system.cc`. Threads are named in the order of their creation. -/
structure ThreadSystem where
  hw : Hardware
  threads : Tid → Thread
  created : Nat
  currentThread : Tid
  readyList : List Tid
  threadToBeDestroyed : Option Tid
  activeThreads : List Tid
  threadID : Int
  semaphores : Nat → Semaphore Tid
  -- whether the two literals `"main"` share one address
  pooled : Bool

namespace ThreadSystem

def main : Tid := 0

def current (s : ThreadSystem) : Thread := s.threads s.currentThread

def stack (s : ThreadSystem) : List Frame := s.current.stack

def modify (s : ThreadSystem) (t : Tid) (f : Thread → Thread) : ThreadSystem :=
  { s with threads := Function.update s.threads t (f (s.threads t)) }

def setStatus (s : ThreadSystem) (t : Tid) (status : ThreadStatus) : ThreadSystem := s.modify t (fun u => { u with status })

def setStack (s : ThreadSystem) (stack : List Frame) : ThreadSystem := s.modify s.currentThread (fun u => { u with stack })

def readyToRun (s : ThreadSystem) (t : Tid) : ThreadSystem :=
  { s.setStatus t .ready with readyList := s.readyList ++ [t] }

def wakeUpFromJoin (s : ThreadSystem) (t : Tid) : ThreadSystem :=
  { s.modify t (fun u => { u with isJoined := false, status := .ready }) with readyList := t :: s.readyList }

def run (s : ThreadSystem) (nextThread : Tid) (rest : List Frame) : ThreadSystem :=
  -- `Scheduler::Run(nextThread)` up to its `SWITCH`, called by code that goes on with `rest`
  let s := s.modify s.currentThread (fun u => u.switchOut s.hw.registers rest)
  { s with currentThread := nextThread }.setStatus nextThread .running

def deleteThread (s : ThreadSystem) : Except Fault ThreadSystem :=
  match s.threadToBeDestroyed with
  | none => .ok s
  | some t => do
    assert (t ≠ s.currentThread)
    .ok { s with threadToBeDestroyed := none }

def switched (s : ThreadSystem) (rest : List Frame) : Except Fault ThreadSystem := do
  let s ← s.deleteThread
  let hw := match s.current.space with
    | none => s.hw
    | some σ => { s.hw with registers := s.current.userRegisters }.restoreState σ
  .ok ({ s with hw }.setStack rest)

def sleep (s : ThreadSystem) (rest : List Frame) : Except Fault ThreadSystem := do
  -- `Thread::Sleep` up to its loop
  assert (s.hw.interrupt.level = .intOff)
  .ok ((s.setStatus s.currentThread .blocked).setStack (.sleep :: rest))

def dispatch (s : ThreadSystem) (rest : List Frame) : Option ThreadSystem :=
  -- the loop of `Sleep`, when there is a thread to run
  match s.readyList with
  | [] => none
  | nextThread :: readyList => some ({ s with readyList }.run nextThread rest)

def yield (s : ThreadSystem) (rest : List Frame) : ThreadSystem :=
  let rest := .setLevel s.hw.interrupt.level :: rest
  let s := { s with hw := s.hw.disable }
  match s.readyList with
  | [] => s.setStack rest
  | nextThread :: readyList => ({ s with readyList }.readyToRun s.currentThread).run nextThread rest

def stackAllocate (func : Frame) : List Frame := [.setLevel .intOn, func, .finish]

def fork (s : ThreadSystem) (thread : Thread) (func : Frame) (rest : List Frame) : ThreadSystem :=
  let rest := .setLevel s.hw.interrupt.level :: rest
  let t := s.created
  let s := s.modify t (fun _ => { thread with stack := stackAllocate func })
  { s with hw := s.hw.disable, created := t + 1 }.readyToRun t |>.setStack rest

def purge (s : ThreadSystem) : ThreadSystem :=
  { s with activeThreads := Kernel.purge s.currentThread s.activeThreads.length 0 s.activeThreads }

def wakeParent (s : ThreadSystem) : ThreadSystem :=
  match s.current.parent with
  | none => s
  | some parent => s.wakeUpFromJoin parent

def finish (s : ThreadSystem) (rest : List Frame) : Except Fault ThreadSystem :=
  let s := { s with hw := s.hw.disable, threadToBeDestroyed := some s.currentThread }
  (s.wakeParent.purge.modify s.currentThread (fun u => { u with finished := true })).sleep (.finish :: rest)

def setSemaphore (s : ThreadSystem) (k : Nat) (sem : Semaphore Tid) : ThreadSystem :=
  { s with semaphores := Function.update s.semaphores k sem }

def p (s : ThreadSystem) (semaphore : Nat) (oldLevel : IntStatus) (rest : List Frame) : Except Fault ThreadSystem :=
  let (taken, sem) := (s.semaphores semaphore).tryP s.currentThread
  let s := s.setSemaphore semaphore sem
  if taken then .ok (s.setStack (.setLevel oldLevel :: rest)) else s.sleep (.p semaphore oldLevel :: rest)

def v (s : ThreadSystem) (semaphore : Nat) (rest : List Frame) : ThreadSystem :=
  let rest := .setLevel s.hw.interrupt.level :: rest
  let (thread, sem) := (s.semaphores semaphore).v
  let s := { s with hw := s.hw.disable }.setSemaphore semaphore sem
  let s := match thread with
    | none => s
    | some t => s.readyToRun t
  s.setStack rest

def getID (s : ThreadSystem) (toGet : Int) : Option Tid :=
  -- the list comes back to its order after a whole turn; the last match counts
  s.activeThreads.foldl (fun found t => if (s.threads t).id = toGet then some t else found) none

def joinTo (s : ThreadSystem) (child : Tid) : ThreadSystem :=
  let s := s.modify child (fun u => { u with parent := some s.currentThread })
  let s := s.modify s.currentThread (fun u => { u with isJoined := true })
  { s with hw := s.hw.disable }

def joinTarget (s : ThreadSystem) : Option Tid :=
  let arg1 := (s.hw.registers Kernel.arg1Reg).toInt
  if arg1 < 0 then none
  else
    match s.getID arg1 with
    | none => none
    | some child => if s.current.isJoined then none else some child

def scJoin (s : ThreadSystem) (rest : List Frame) : Except Fault ThreadSystem :=
  match s.joinTarget with
  | none => .ok (s.setStack rest)
  | some child => (s.joinTo child).sleep (.joining child :: rest)

def scExec (s : ThreadSystem) (garbage : Register → Word) (space : Space) (rest : List Frame) : ThreadSystem :=
  if s.current.killNewChild then
    let result := BitVec.ofInt 32 (-1 * CInt.wrap (s.threadID + 1))
    let s := { s with hw := { s.hw with registers := Function.update s.hw.registers Kernel.resultReg result } }
    (s.modify s.currentThread (fun u => { u with killNewChild := false })).setStack rest
  else
    let result := BitVec.ofInt 32 s.threadID
    let execThread := { Thread.new garbage with space := some space, id := s.threadID }
    { s with
      hw := { s.hw with registers := Function.update s.hw.registers Kernel.resultReg result }
      activeThreads := s.activeThreads ++ [s.created]
      threadID := CInt.wrap (s.threadID + 1) }.fork execThread .processCreator rest

def enter (s : ThreadSystem) (σ : Space) : ThreadSystem := { s with hw := { s.hw with registers := σ.initRegisters }.restoreState σ }

def processCreator (s : ThreadSystem) (rest : List Frame) : Except Fault ThreadSystem :=
  match s.current.space with
  | none => .error .indeterminate
  | some σ => do
    let s ← (s.enter σ).deleteThread
    .ok (s.setStack (.machineRun :: rest))

def startProcess (s : ThreadSystem) (σ : Space) (rest : List Frame) : ThreadSystem :=
  ((s.enter σ).modify s.currentThread (fun u => { u with space := some σ })).setStack (.machineRun :: rest)

def scYieldReturn (s : ThreadSystem) (rest : List Frame) : Except Fault ThreadSystem :=
  match s.current.space with
  | none => .error .indeterminate
  | some σ => .ok ({ s with hw := s.hw.restoreState σ }.setStack rest)

section View

variable {α : Type} {g : Thread → α} {s t : ThreadSystem} {rest : List Frame} {u : Tid} {x : Thread}

def view (g : Thread → α) (s : ThreadSystem) : Tid → α := g ∘ s.threads

theorem view_update (h : t.threads = Function.update s.threads u x) :
    t.view g = Function.update (s.view g) u (g x) := by
  unfold view
  rw [h, Function.comp_update]

theorem view_update_same (h : t.threads = Function.update s.threads u x) (hx : g x = g (s.threads u)) :
    t.view g = s.view g := by
  rw [view_update h, hx]
  exact Function.update_eq_self ..

@[simp] theorem setStack_stack (s : ThreadSystem) (stack : List Frame) : (s.setStack stack).stack = stack := by
  simp [ThreadSystem.stack, current, setStack, modify]

theorem sleep_ok (h : s.sleep rest = .ok t) : s.hw.interrupt.level = .intOff ∧
    t = (s.setStatus s.currentThread .blocked).setStack (.sleep :: rest) := by
  obtain ⟨_, ha, h⟩ := bind_eq_ok.mp h
  exact ⟨(assert_ok_iff _).mp ha, (Except.ok.inj h).symm⟩

theorem dispatch_some (h : s.dispatch rest = some t) :
    ∃ nextThread readyList, s.readyList = nextThread :: readyList ∧
      t = { s with readyList }.run nextThread rest := by
  unfold dispatch at h
  cases hr : s.readyList with
  | nil => simp [hr] at h
  | cons nextThread readyList =>
    simp only [hr] at h
    exact ⟨nextThread, readyList, rfl, (Option.some.inj h).symm⟩

theorem deleteThread_ok (h : s.deleteThread = .ok t) : ∃ threadToBeDestroyed, t = { s with threadToBeDestroyed } := by
  unfold deleteThread at h
  cases hd : s.threadToBeDestroyed with
  | none =>
    simp only [hd] at h
    exact ⟨s.threadToBeDestroyed, (Except.ok.inj h).symm⟩
  | some u =>
    simp only [hd] at h
    obtain ⟨_, -, h⟩ := bind_eq_ok.mp h
    exact ⟨none, (Except.ok.inj h).symm⟩

theorem switched_ok (h : s.switched rest = .ok t) : ∃ hw threadToBeDestroyed,
    t = { s with hw, threadToBeDestroyed }.setStack rest ∧ hw.interrupt = s.hw.interrupt ∧
      ∀ σ, s.current.space = some σ → hw = { s.hw with registers := s.current.userRegisters }.restoreState σ := by
  obtain ⟨s', hd, h⟩ := bind_eq_ok.mp h
  obtain ⟨threadToBeDestroyed, rfl⟩ := deleteThread_ok hd
  refine ⟨_, threadToBeDestroyed, (Except.ok.inj h).symm, ?_, fun σ hσ => ?_⟩
  · split <;> rfl
  · change (match s.current.space with
      | none => s.hw
      | some σ => { s.hw with registers := s.current.userRegisters }.restoreState σ) = _
    rw [hσ]

theorem processCreator_ok (h : s.processCreator rest = .ok t) : ∃ σ threadToBeDestroyed,
    s.current.space = some σ ∧ t = { s.enter σ with threadToBeDestroyed }.setStack (.machineRun :: rest) := by
  unfold processCreator at h
  split at h
  · cases h
  · next σ hσ =>
    obtain ⟨s', hd, h⟩ := bind_eq_ok.mp h
    obtain ⟨threadToBeDestroyed, rfl⟩ := deleteThread_ok hd
    exact ⟨σ, threadToBeDestroyed, hσ, (Except.ok.inj h).symm⟩

theorem scYieldReturn_ok (h : s.scYieldReturn rest = .ok t) :
    ∃ σ, t = { s with hw := s.hw.restoreState σ }.setStack rest := by
  unfold scYieldReturn at h
  split at h
  · cases h
  · next σ _ => exact ⟨σ, (Except.ok.inj h).symm⟩

theorem p_ok {semaphore : Nat} {oldLevel : IntStatus} (h : s.p semaphore oldLevel rest = .ok t) :
    (∃ value, t = (s.setSemaphore semaphore ⟨value, (s.semaphores semaphore).queue⟩).setStack
      (.setLevel oldLevel :: rest)) ∨
    ∃ value, (s.setSemaphore semaphore ⟨value, (s.semaphores semaphore).queue ++ [s.currentThread]⟩).sleep
      (.p semaphore oldLevel :: rest) = .ok t := by
  unfold p Semaphore.tryP at h
  by_cases hv : (s.semaphores semaphore).value = 0
  · rw [if_pos hv] at h
    exact .inr ⟨_, h⟩
  · rw [if_neg hv] at h
    exact .inl ⟨_, (Except.ok.inj h).symm⟩

theorem scJoin_ok (h : s.scJoin rest = .ok t) : t = s.setStack rest ∨
    ∃ child, s.joinTarget = some child ∧ (s.joinTo child).sleep (.joining child :: rest) = .ok t := by
  unfold scJoin at h
  cases ht : s.joinTarget with
  | none =>
    rw [ht] at h
    exact .inl (Except.ok.inj h).symm
  | some child =>
    rw [ht] at h
    exact .inr ⟨child, rfl, h⟩

end View

end ThreadSystem

end Nachos
