import Nachos.Lib.CInt
import Nachos.Lib.Heap
import Nachos.Lib.SortedList

namespace Nachos

inductive IntStatus where
  | intOff
  | intOn
  deriving DecidableEq, Repr

inductive MachineStatus where
  | idleMode
  | systemMode
  | userMode
  deriving DecidableEq, Repr

inductive IntType where
  | timerInt
  | diskInt
  | consoleWriteInt
  | consoleReadInt
  | networkSendInt
  | networkRecvInt
  deriving DecidableEq, Repr

/-- `id` stands for the object; what its handler does is up to the run. -/
structure PendingInterrupt where
  id : Nat
  when : Int
  type : IntType
  deriving DecidableEq, Repr

structure Interrupt where
  level : IntStatus
  pending : List PendingInterrupt
  inHandler : Bool
  yieldOnReturn : Bool
  status : MachineStatus
  totalTicks : Int
  deriving DecidableEq, Repr

inductive Due where
  | quiet (i : Interrupt)
  | fire (old : MachineStatus) (toOccur : PendingInterrupt) (i : Interrupt)

namespace Interrupt

def userTick : Int := 1
def systemTick : Int := 10

def new : Interrupt := ⟨.intOff, [], false, false, .systemMode, 0⟩

def changeLevel (i : Interrupt) (now : IntStatus) : Interrupt := { i with level := now }

def schedule (i : Interrupt) (id : Nat) (fromNow : Int) (type : IntType) : Except Fault Interrupt := do
  let toOccur : PendingInterrupt := ⟨id, CInt.wrap (i.totalTicks + fromNow), type⟩
  assert (fromNow > 0)
  .ok { i with pending := sortedInsert PendingInterrupt.when toOccur i.pending }

def checkIfDue (i : Interrupt) (advanceClock : Bool) : Except Fault Due := do
  assert (i.level = .intOff)
  match i.pending with
  | [] => .ok (.quiet i)
  | toOccur :: rest =>
    let putBack := sortedInsert PendingInterrupt.when toOccur rest
    if advanceClock = false ∧ toOccur.when > i.totalTicks then .ok (.quiet { i with pending := putBack })
    else
      let totalTicks := if toOccur.when > i.totalTicks then toOccur.when else i.totalTicks
      if i.status = .idleMode ∧ toOccur.type = .timerInt ∧ rest = [] then
        .ok (.quiet { i with pending := putBack, totalTicks })
      else
        .ok (.fire i.status toOccur
          { i with pending := rest, totalTicks, inHandler := true, status := .systemMode })

def handlerReturn (i : Interrupt) (old : MachineStatus) : Interrupt := { i with status := old, inHandler := false }

def tick (i : Interrupt) : Int := if i.status = .systemMode then systemTick else userTick

def beginTick (i : Interrupt) : Interrupt :=
  -- `OneTick` up to its loop
  { i with totalTicks := CInt.wrap (i.totalTicks + i.tick) }.changeLevel .intOff

def endTick (i : Interrupt) : Interrupt :=
  -- `OneTick` from its loop to the call of `Yield`, if there is one
  let i := i.changeLevel .intOn
  if i.yieldOnReturn then { i with yieldOnReturn := false, status := .systemMode } else i

def setLevel (i : Interrupt) (now : IntStatus) : Except Fault (Bool × Interrupt) := do
  -- the level is changed; `true` says that `OneTick` is called next
  assert (now = .intOff ∨ i.inHandler = false)
  .ok (now = .intOn ∧ i.level = .intOff, i.changeLevel now)

def beginIdle (i : Interrupt) : Interrupt := { i with status := .idleMode }

def endIdle (i : Interrupt) : Interrupt := { i with yieldOnReturn := false, status := .systemMode }

def setYieldOnReturn (i : Interrupt) : Except Fault Interrupt := do
  assert (i.inHandler = true)
  .ok { i with yieldOnReturn := true }

section Spec

variable {i i' : Interrupt}

theorem tick_pos (i : Interrupt) : 0 < i.tick := by
  unfold tick
  split_ifs
  · decide
  · decide

theorem endTick_pending (i : Interrupt) : i.endTick.pending = i.pending := by
  simp only [endTick]
  split_ifs <;> rfl

theorem endTick_totalTicks (i : Interrupt) : i.endTick.totalTicks = i.totalTicks := by
  simp only [endTick]
  split_ifs <;> rfl

theorem schedule_ok {id : Nat} {fromNow : Int} {type : IntType} (h : i.schedule id fromNow type = .ok i') :
    0 < fromNow ∧ i' = { i with
      pending := sortedInsert PendingInterrupt.when ⟨id, CInt.wrap (i.totalTicks + fromNow), type⟩ i.pending } := by
  obtain ⟨_, ha, h⟩ := bind_eq_ok.mp h
  exact ⟨(assert_ok_iff _).mp ha, (Except.ok.inj h).symm⟩

theorem setLevel_ok {now : IntStatus} {tick : Bool} (h : i.setLevel now = .ok (tick, i')) :
    (now = .intOff ∨ i.inHandler = false) ∧ (tick = true ↔ now = .intOn ∧ i.level = .intOff) ∧
      i' = i.changeLevel now := by
  obtain ⟨_, ha, h⟩ := bind_eq_ok.mp h
  obtain ⟨rfl, rfl⟩ := Prod.mk.inj (Except.ok.inj h)
  exact ⟨(assert_ok_iff _).mp ha, decide_eq_true_iff, rfl⟩

theorem setYieldOnReturn_ok (h : i.setYieldOnReturn = .ok i') :
    i.inHandler = true ∧ i' = { i with yieldOnReturn := true } := by
  obtain ⟨_, ha, h⟩ := bind_eq_ok.mp h
  exact ⟨(assert_ok_iff _).mp ha, (Except.ok.inj h).symm⟩

theorem checkIfDue_fire {advanceClock : Bool} {old : MachineStatus} {toOccur : PendingInterrupt}
    (h : i.checkIfDue advanceClock = .ok (.fire old toOccur i')) :
    i.level = .intOff ∧ old = i.status ∧ ∃ rest totalTicks, i.pending = toOccur :: rest ∧
      i.totalTicks ≤ totalTicks ∧ toOccur.when ≤ totalTicks ∧
      i' = { i with pending := rest, totalTicks, inHandler := true, status := .systemMode } := by
  obtain ⟨_, ha, h⟩ := bind_eq_ok.mp h
  cases hp : i.pending with
  | nil => simp [hp] at h
  | cons x rest =>
    simp only [hp] at h
    split_ifs at h with hput hquit hd hd
    · cases h
    · cases h
    · cases h
    · obtain ⟨rfl, rfl, rfl⟩ := Due.fire.inj (Except.ok.inj h)
      exact ⟨(assert_ok_iff _).mp ha, rfl, rest, x.when, rfl, le_of_lt hd, le_refl _, rfl⟩
    · obtain ⟨rfl, rfl, rfl⟩ := Due.fire.inj (Except.ok.inj h)
      exact ⟨(assert_ok_iff _).mp ha, rfl, rest, i.totalTicks, rfl, le_refl _, not_lt.mp hd, rfl⟩

theorem checkIfDue_quiet {advanceClock : Bool} (h : i.checkIfDue advanceClock = .ok (.quiet i')) :
    i.level = .intOff ∧ ∃ pending totalTicks, i' = { i with pending, totalTicks } ∧ i.totalTicks ≤ totalTicks ∧
      pending.Perm i.pending ∧ (SortedBy PendingInterrupt.when i.pending → SortedBy PendingInterrupt.when pending) ∧
      (advanceClock = false → totalTicks = i.totalTicks) ∧
      (advanceClock = false → i.status ≠ .idleMode → SortedBy PendingInterrupt.when i.pending →
        ∀ x ∈ pending, totalTicks < x.when) := by
  obtain ⟨_, ha, h⟩ := bind_eq_ok.mp h
  refine ⟨(assert_ok_iff _).mp ha, ?_⟩
  cases hp : i.pending with
  | nil =>
    simp only [hp, Except.ok.injEq, Due.quiet.injEq] at h
    exact ⟨i.pending, i.totalTicks, h.symm, le_refl _, by rw [hp], by rw [hp]; exact id, fun _ => rfl, by simp [hp]⟩
  | cons x rest =>
    have hperm := sortedInsert_perm PendingInterrupt.when x rest
    have hsort (hs : SortedBy PendingInterrupt.when (x :: rest)) :=
      SortedBy.sortedInsert (List.pairwise_cons.mp hs).2 x
    simp only [hp] at h
    split_ifs at h with hput hquit hd hd
    · refine ⟨_, _, (Due.quiet.inj (Except.ok.inj h)).symm, le_refl _, hperm, hsort, fun _ => rfl, fun _ _ hs y hy => ?_⟩
      obtain rfl | hy := mem_sortedInsert.mp hy
      · exact hput.2
      · exact lt_of_lt_of_le hput.2 ((List.pairwise_cons.mp hs).1 y hy)
    · refine ⟨_, x.when, (Due.quiet.inj (Except.ok.inj h)).symm, le_of_lt hd, hperm, hsort, fun hc => ?_,
        fun _ hne => absurd hquit.1 hne⟩
      exact absurd ⟨hc, hd⟩ hput
    · exact ⟨_, i.totalTicks, (Due.quiet.inj (Except.ok.inj h)).symm, le_refl _, hperm, hsort, fun _ => rfl,
        fun _ hne => absurd hquit.1 hne⟩
    · cases h
    · cases h

end Spec

end Interrupt

end Nachos
