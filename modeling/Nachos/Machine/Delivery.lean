import Nachos.Machine.Interrupt
import Nachos.Lib.Run

namespace Nachos.Delivery

open Interrupt

/-- Where the simulation stands: in the code of a thread, in the loop of `OneTick` or of `Idle`, in a handler. -/
inductive Control where
  | thread
  | oneTick
  | idle
  | handler (inIdle : Bool) (old : MachineStatus)
  | halted
  deriving DecidableEq, Repr

def Control.loop : Bool → Control
  | true => .idle
  | false => .oneTick

def Control.Calls : Control → Prop
  | .thread | .handler _ _ => True
  | .oneTick | .idle | .halted => False

structure State where
  interrupt : Interrupt
  control : Control
  scheduled : Nat
  fired : List (PendingInterrupt × Int)

def State.new : State := ⟨.new, .thread, 0, []⟩

inductive Action where
  | schedule (fromNow : Int) (type : IntType)
  | setLevel (now : IntStatus)
  | setStatus (status : MachineStatus)
  | oneTick
  | idle
  | checkIfDue
  | yieldOnReturn
  | handlerReturn

def State.invoke (s : State) (inIdle : Bool) (old : MachineStatus) (toOccur : PendingInterrupt) (i : Interrupt) : State :=
  { s with interrupt := i, control := .handler inIdle old, fired := s.fired ++ [(toOccur, i.totalTicks)] }

inductive Step (s : State) : Action → State → Prop
  | schedule {fromNow : Int} {type : IntType} {i : Interrupt} (hc : s.control.Calls)
      (h : s.interrupt.schedule s.scheduled fromNow type = .ok i) :
      Step s (.schedule fromNow type) { s with interrupt := i, scheduled := s.scheduled + 1 }
  | setLevel {now : IntStatus} {i : Interrupt} (hc : s.control.Calls)
      (h : s.interrupt.setLevel now = .ok (false, i)) : Step s (.setLevel now) { s with interrupt := i }
  | enable {now : IntStatus} {i : Interrupt} (hc : s.control.Calls)
      (h : s.interrupt.setLevel now = .ok (true, i)) :
      Step s (.setLevel now) { s with interrupt := i.beginTick, control := .oneTick }
  -- the kernel enters user mode, or is back in `OneTick` after its `Yield`
  | setStatus {status : MachineStatus} (hc : s.control = .thread) (hs : status ≠ .idleMode) :
      Step s (.setStatus status) { s with interrupt := { s.interrupt with status } }
  | oneTick (hc : s.control = .thread) :
      Step s .oneTick { s with interrupt := s.interrupt.beginTick, control := .oneTick }
  | idle {old : MachineStatus} {toOccur : PendingInterrupt} {i : Interrupt} (hc : s.control = .thread)
      (h : s.interrupt.beginIdle.checkIfDue true = .ok (.fire old toOccur i)) :
      Step s .idle (s.invoke true old toOccur i)
  | halt {i : Interrupt} (hc : s.control = .thread) (h : s.interrupt.beginIdle.checkIfDue true = .ok (.quiet i)) :
      Step s .idle { s with interrupt := i, control := .halted }
  | fire {inIdle : Bool} {old : MachineStatus} {toOccur : PendingInterrupt} {i : Interrupt}
      (hc : s.control = .loop inIdle) (h : s.interrupt.checkIfDue false = .ok (.fire old toOccur i)) :
      Step s .checkIfDue (s.invoke inIdle old toOccur i)
  | endTick {i : Interrupt} (hc : s.control = .oneTick) (h : s.interrupt.checkIfDue false = .ok (.quiet i)) :
      Step s .checkIfDue { s with interrupt := i.endTick, control := .thread }
  | endIdle {i : Interrupt} (hc : s.control = .idle) (h : s.interrupt.checkIfDue false = .ok (.quiet i)) :
      Step s .checkIfDue { s with interrupt := i.endIdle, control := .thread }
  | yieldOnReturn {i : Interrupt} {inIdle : Bool} {old : MachineStatus} (hc : s.control = .handler inIdle old)
      (h : s.interrupt.setYieldOnReturn = .ok i) : Step s .yieldOnReturn { s with interrupt := i }
  | handlerReturn {inIdle : Bool} {old : MachineStatus} (hc : s.control = .handler inIdle old) :
      Step s .handlerReturn { s with interrupt := s.interrupt.handlerReturn old, control := .loop inIdle }

def InClock (s : State) : Action → Prop
  | .schedule fromNow _ => s.interrupt.totalTicks + fromNow < CInt.intMax
  | .setLevel now => now = .intOn → s.interrupt.totalTicks + s.interrupt.tick < CInt.intMax
  | .oneTick => s.interrupt.totalTicks + s.interrupt.tick < CInt.intMax
  | _ => True

def TimedStep (s : State) (a : Action) (t : State) : Prop := InClock s a ∧ Step s a t

def Run : State → Prop := Reachable (fun s => s = .new) TimedStep

def ModeOk (s : State) : Prop :=
  match s.control with
  | .thread | .oneTick => s.interrupt.status ≠ .idleMode
  | .handler inIdle old => s.interrupt.inHandler = true ∧ (inIdle = false → old ≠ .idleMode)
  | .idle | .halted => True

structure Inv (clock : Int) (s : State) : Prop where
  nonneg : 0 ≤ clock
  passed : clock ≤ s.interrupt.totalTicks
  sorted : SortedBy PendingInterrupt.when s.interrupt.pending
  once : ((s.fired.map Prod.fst ++ s.interrupt.pending).map PendingInterrupt.id).Perm (List.range s.scheduled)
  due : ∀ x ∈ s.fired, x.1.when ≤ x.2 ∧ x.2 ≤ s.interrupt.totalTicks
  before : ∀ x ∈ s.fired, ∀ y ∈ s.interrupt.pending, x.1.when ≤ y.when
  ordered : SortedBy (fun x : PendingInterrupt × Int => x.1.when) s.fired
  mode : ModeOk s

variable {clock : Int} {s t : State}

theorem Inv.advance (h : Inv clock s) (hclock : s.interrupt.totalTicks ≤ t.interrupt.totalTicks)
    (hp : t.interrupt.pending.Perm s.interrupt.pending) (hsort : SortedBy PendingInterrupt.when t.interrupt.pending)
    (hf : t.fired = s.fired) (hn : t.scheduled = s.scheduled) (hm : ModeOk t) : Inv clock t where
  nonneg := h.nonneg
  passed := h.passed.trans hclock
  sorted := hsort
  once := by
    rw [hf, hn]
    exact ((hp.append_left _).map _).trans h.once
  due := by
    rw [hf]
    exact fun x hx => ⟨(h.due x hx).1, (h.due x hx).2.trans hclock⟩
  before := by
    rw [hf]
    exact fun x hx y hy => h.before x hx y (hp.mem_iff.mp hy)
  ordered := by
    rw [hf]
    exact h.ordered
  mode := hm

theorem Inv.same (h : Inv clock s) {i : Interrupt} {c : Control} (hclock : i.totalTicks = s.interrupt.totalTicks)
    (hp : i.pending = s.interrupt.pending) (hm : ModeOk { s with interrupt := i, control := c }) :
    Inv clock { s with interrupt := i, control := c } :=
  h.advance hclock.ge (by rw [hp]) (by rw [hp]; exact h.sorted) rfl rfl hm

theorem Inv.schedule (h : Inv clock s) {fromNow : Int} {type : IntType} (hpos : 0 < fromNow)
    (hc : s.interrupt.totalTicks + fromNow < CInt.intMax) {i : Interrupt}
    (hi : i = { s.interrupt with
      pending := sortedInsert PendingInterrupt.when
        ⟨s.scheduled, CInt.wrap (s.interrupt.totalTicks + fromNow), type⟩ s.interrupt.pending }) :
    Inv clock { s with interrupt := i, scheduled := s.scheduled + 1 } := by
  have hn := h.nonneg.trans h.passed
  rw [CInt.wrap_of_range (by omega) (by omega)] at hi
  subst hi
  refine ⟨h.nonneg, h.passed, h.sorted.sortedInsert _, ?_, h.due, ?_, h.ordered, ?_⟩
  · -- the new object is the next identity
    have hp := sortedInsert_perm PendingInterrupt.when ⟨s.scheduled, s.interrupt.totalTicks + fromNow, type⟩
      s.interrupt.pending
    rw [List.range_succ]
    refine ((hp.append_left _).trans List.perm_middle).map _ |>.trans ?_
    exact (h.once.cons s.scheduled).trans (List.perm_append_singleton ..).symm
  · intro x hx y hy
    obtain rfl | hy := mem_sortedInsert.mp hy
    · have hd := h.due x hx
      change x.1.when ≤ s.interrupt.totalTicks + fromNow
      omega
    · exact h.before x hx y hy
  · exact h.mode

theorem Inv.invoke (h : Inv clock s) {advanceClock inIdle : Bool} {j i : Interrupt} {old : MachineStatus}
    {toOccur : PendingInterrupt} (hj : j.pending = s.interrupt.pending) (ht : j.totalTicks = s.interrupt.totalTicks)
    (hc : j.checkIfDue advanceClock = .ok (.fire old toOccur i)) (hm : inIdle = false → old ≠ .idleMode) :
    Inv clock (s.invoke inIdle old toOccur i) := by
  obtain ⟨-, rfl, rest, totalTicks, hp, hclock, hdue, rfl⟩ := checkIfDue_fire hc
  rw [hj] at hp
  rw [ht] at hclock
  have hsorted := h.sorted
  rw [hp] at hsorted
  have hcons := List.pairwise_cons.mp hsorted
  have hbefore : ∀ x ∈ s.fired, x.1.when ≤ toOccur.when := fun x hx => h.before x hx toOccur (by simp [hp])
  refine ⟨h.nonneg, h.passed.trans hclock, hcons.2, ?_, ?_, ?_, ?_, rfl, hm⟩
  · have ho := h.once
    rw [hp] at ho
    simpa [State.invoke] using ho
  · intro x hx
    obtain hx | hx := List.mem_append.mp hx
    · exact ⟨(h.due x hx).1, (h.due x hx).2.trans hclock⟩
    · obtain rfl := List.mem_singleton.mp hx
      exact ⟨hdue, le_refl _⟩
  · intro x hx y hy
    obtain hx | hx := List.mem_append.mp hx
    · exact h.before x hx y (by rw [hp]; exact List.mem_cons_of_mem _ hy)
    · obtain rfl := List.mem_singleton.mp hx
      exact hcons.1 y hy
  · refine List.pairwise_append.mpr ⟨h.ordered, List.pairwise_singleton .., fun x hx y hy => ?_⟩
    obtain rfl := List.mem_singleton.mp hy
    exact hbefore x hx

theorem Inv.beginTick (h : Inv clock s) {i : Interrupt} (hp : i.pending = s.interrupt.pending)
    (ht : i.totalTicks = s.interrupt.totalTicks) (hc : i.totalTicks + i.tick < CInt.intMax)
    (hm : i.status ≠ .idleMode) : Inv clock { s with interrupt := i.beginTick, control := .oneTick } := by
  have hn := h.nonneg.trans h.passed
  have hpos := i.tick_pos
  have hw : CInt.wrap (i.totalTicks + i.tick) = i.totalTicks + i.tick := CInt.wrap_of_range (by omega) (by omega)
  refine h.advance ?_ (by change i.pending.Perm _; rw [hp]) (by change SortedBy _ i.pending; rw [hp]; exact h.sorted)
    rfl rfl hm
  change _ ≤ CInt.wrap (i.totalTicks + i.tick)
  omega

theorem Inv.quiet (h : Inv clock s) {advanceClock : Bool} {i j : Interrupt} (hj : j.pending = s.interrupt.pending)
    (ht : j.totalTicks = s.interrupt.totalTicks) (hc : j.checkIfDue advanceClock = .ok (.quiet i)) {i' : Interrupt}
    {c : Control} (hp : i'.pending = i.pending) (ht' : i'.totalTicks = i.totalTicks)
    (hm : ModeOk { s with interrupt := i', control := c }) : Inv clock { s with interrupt := i', control := c } := by
  obtain ⟨-, pending, totalTicks, rfl, hclock, hperm, hsort, -, -⟩ := checkIfDue_quiet hc
  rw [hj] at hperm hsort
  exact h.advance (by change _ ≤ i'.totalTicks; rw [ht', ← ht]; exact hclock) (by change i'.pending.Perm _; rw [hp]; exact hperm)
    (by change SortedBy _ i'.pending; rw [hp]; exact hsort h.sorted) rfl rfl hm

theorem Inv.new : Inv 0 .new :=
  ⟨le_refl _, le_refl _, List.Pairwise.nil, List.Perm.refl _, by simp [State.new], by simp [State.new],
    List.Pairwise.nil, by simp [ModeOk, State.new, Interrupt.new]⟩

theorem ModeOk.same {i : Interrupt} (h : ModeOk s) (hi : i.inHandler = s.interrupt.inHandler)
    (hs : i.status = s.interrupt.status) : ModeOk { s with interrupt := i } := by
  unfold ModeOk at h ⊢
  rw [hi, hs]
  exact h

theorem Inv.step {a : Action} (h : Inv clock s) (hs : TimedStep s a t) : Inv clock t := by
  obtain ⟨hclock, hs⟩ := hs
  have hm := h.mode
  cases hs with
  | schedule hc he =>
    obtain ⟨hpos, hi⟩ := schedule_ok he
    exact h.schedule hpos hclock hi
  | setLevel hc he =>
    obtain ⟨-, -, rfl⟩ := setLevel_ok he
    exact h.same rfl rfl (hm.same rfl rfl)
  | enable hc he =>
    obtain ⟨hin, htick, rfl⟩ := setLevel_ok he
    obtain ⟨rfl, -⟩ := htick.mp rfl
    -- a handler never gets here: `SetLevel` asserts that none runs
    have hstatus : s.interrupt.status ≠ .idleMode := by
      cases hcontrol : s.control with
      | thread => simpa only [ModeOk, hcontrol] using hm
      | handler inIdle old =>
        simp only [ModeOk, hcontrol] at hm
        simp [hm.1] at hin
      | oneTick => simp [Control.Calls, hcontrol] at hc
      | idle => simp [Control.Calls, hcontrol] at hc
      | halted => simp [Control.Calls, hcontrol] at hc
    exact h.beginTick rfl rfl (hclock rfl) hstatus
  | setStatus hc hne => exact h.same rfl rfl (by simpa only [ModeOk, hc] using hne)
  | oneTick hc => exact h.beginTick rfl rfl hclock (by simpa only [ModeOk, hc] using hm)
  | idle hc he => exact h.invoke (j := s.interrupt.beginIdle) rfl rfl he (by simp)
  | halt hc he => exact h.quiet (j := s.interrupt.beginIdle) rfl rfl he rfl rfl trivial
  | @fire inIdle old toOccur i hc he =>
    refine h.invoke rfl rfl he fun hi => ?_
    obtain ⟨-, rfl, -⟩ := checkIfDue_fire he
    subst hi
    simpa only [ModeOk, hc, Control.loop] using hm
  | endTick hc he =>
    obtain ⟨-, pending, totalTicks, rfl, -⟩ := checkIfDue_quiet he
    refine h.quiet rfl rfl he (endTick_pending _) (endTick_totalTicks _) ?_
    simp only [ModeOk, hc] at hm
    simp only [ModeOk, Interrupt.endTick]
    split_ifs
    · simp
    · exact hm
  | endIdle hc he => exact h.quiet rfl rfl he rfl rfl (by simp [ModeOk, Interrupt.endIdle])
  | yieldOnReturn hc he =>
    obtain ⟨-, rfl⟩ := setYieldOnReturn_ok he
    exact h.same rfl rfl (hm.same rfl rfl)
  | @handlerReturn inIdle old hc =>
    refine h.same rfl rfl ?_
    simp only [ModeOk, hc] at hm
    cases inIdle with
    | true => trivial
    | false => exact hm.2 rfl

theorem Run.inv (h : Run s) : Inv 0 s :=
  Reachable.invariant (fun _ hs => hs ▸ Inv.new) (fun _ _ _ hi hs => hi.step hs) h

theorem Inv.later (h : Inv clock s) (hr : Reachable (fun s₀ => s₀ = s) TimedStep t) :
    s.interrupt.totalTicks ≤ t.interrupt.totalTicks :=
  have hs : Inv s.interrupt.totalTicks s := { h with nonneg := h.nonneg.trans h.passed, passed := le_refl _ }
  (Reachable.invariant (fun _ h0 => h0 ▸ hs) (fun _ _ _ hi hs => hi.step hs) hr : Inv _ t).passed

theorem Inv.count_eq_one (h : Inv clock s) {n : Nat} (hn : n < s.scheduled) :
    ((s.fired.map Prod.fst).map PendingInterrupt.id).count n + (s.interrupt.pending.map PendingInterrupt.id).count n =
      1 := by
  rw [← List.count_append, ← List.map_append, h.once.count_eq]
  exact List.count_eq_one_of_mem List.nodup_range (List.mem_range.mpr hn)

theorem Inv.nothing_due (h : Inv clock s) (hc : s.control = .oneTick) {i : Interrupt}
    (hq : s.interrupt.checkIfDue false = .ok (.quiet i)) : ∀ x ∈ i.pending, i.totalTicks < x.when := by
  have hm := h.mode
  simp only [ModeOk, hc] at hm
  obtain ⟨-, pending, totalTicks, rfl, -, -, -, -, hd⟩ := checkIfDue_quiet hq
  exact hd rfl hm h.sorted

/-- Every interrupt is delivered exactly once, in the order of the times, and never early. -/
theorem interrupt_delivery {s : State} (h : Run s) :
    (∀ t, Reachable (fun s₀ => s₀ = s) TimedStep t → s.interrupt.totalTicks ≤ t.interrupt.totalTicks) ∧
      SortedBy PendingInterrupt.when s.interrupt.pending ∧
      (∀ n < s.scheduled, ((s.fired.map Prod.fst).map PendingInterrupt.id).count n +
        (s.interrupt.pending.map PendingInterrupt.id).count n = 1) ∧
      (∀ x ∈ s.fired, x.1.when ≤ x.2) ∧
      SortedBy (fun x : PendingInterrupt × Int => x.1.when) s.fired ∧
      ∀ i, s.control = .oneTick → s.interrupt.checkIfDue false = .ok (.quiet i) →
        ∀ x ∈ i.pending, i.totalTicks < x.when := by
  have hi := h.inv
  exact ⟨fun t => hi.later, hi.sorted, fun n => hi.count_eq_one, fun x hx => (hi.due x hx).1, hi.ordered,
    fun i hc hq => hi.nothing_due hc hq⟩

def delivered : State :=
  ⟨⟨.intOff, [⟨1, 100, .timerInt⟩], true, false, .systemMode, 10⟩, .handler false .systemMode, 2, [(⟨0, 5, .diskInt⟩, 10)]⟩

theorem delivered_run : Run delivered := by
  have h1 : Run ⟨⟨.intOff, [⟨0, 5, .diskInt⟩], false, false, .systemMode, 0⟩, .thread, 1, []⟩ :=
    .next (.schedule 5 .diskInt) (.start rfl) ⟨(by decide : (0 : Int) + 5 < CInt.intMax), .schedule trivial rfl⟩
  have h2 : Run ⟨⟨.intOff, [⟨0, 5, .diskInt⟩, ⟨1, 100, .timerInt⟩], false, false, .systemMode, 0⟩, .thread, 2, []⟩ :=
    .next (.schedule 100 .timerInt) h1 ⟨(by decide : (0 : Int) + 100 < CInt.intMax), .schedule trivial rfl⟩
  have h3 : Run ⟨⟨.intOff, [⟨0, 5, .diskInt⟩, ⟨1, 100, .timerInt⟩], false, false, .systemMode, 10⟩, .oneTick, 2, []⟩ :=
    .next (.setLevel .intOn) h2 ⟨fun _ => (by decide : (0 : Int) + 10 < CInt.intMax),
      .enable (i := ⟨.intOn, [⟨0, 5, .diskInt⟩, ⟨1, 100, .timerInt⟩], false, false, .systemMode, 0⟩) trivial rfl⟩
  exact .next .checkIfDue h3 ⟨trivial, .fire rfl rfl⟩

theorem interrupt_delivery_disk : delivered.fired.length = 1 ∧
    ((delivered.fired.map Prod.fst).map PendingInterrupt.id).count 1 +
      (delivered.interrupt.pending.map PendingInterrupt.id).count 1 = 1 :=
  ⟨rfl, (interrupt_delivery delivered_run).2.2.1 1 (by decide)⟩

end Nachos.Delivery
