import Nachos.Machine.Delivery

namespace Nachos

namespace Interrupt

def HeadAlone (i : Interrupt) : Prop :=
  ∀ x rest, i.pending = x :: rest → i.totalTicks < x.when → ∀ y ∈ rest, y.when = x.when → y = x

variable {i i' : Interrupt}

theorem checkIfDue_putBack {advanceClock : Bool} (h : i.checkIfDue advanceClock = .ok (.quiet i')) :
    i'.pending = i.pending ∧ i.pending.length ≤ 1 ∨ ∃ x rest, i.pending = x :: rest ∧ advanceClock = false ∧
      i.totalTicks < x.when ∧ i'.pending = sortedInsert PendingInterrupt.when x rest := by
  obtain ⟨_, -, h⟩ := bind_eq_ok.mp h
  cases hp : i.pending with
  | nil =>
    simp only [hp, Except.ok.injEq, Due.quiet.injEq] at h
    subst h
    exact .inl ⟨hp, by simp⟩
  | cons x rest =>
    simp only [hp] at h
    split_ifs at h with hput hquit
    · obtain rfl := Due.quiet.inj (Except.ok.inj h)
      exact .inr ⟨x, rest, rfl, hput.1, hput.2, rfl⟩
    -- the last timer interrupt of an idle machine
    · obtain rfl := Due.quiet.inj (Except.ok.inj h)
      obtain ⟨-, -, rfl⟩ := hquit
      exact .inl ⟨rfl, le_refl _⟩
    · obtain rfl := Due.quiet.inj (Except.ok.inj h)
      obtain ⟨-, -, rfl⟩ := hquit
      exact .inl ⟨rfl, le_refl _⟩
    · cases h
    · cases h

theorem checkIfDue_keeps_iff (hs : SortedBy PendingInterrupt.when i.pending)
    (h : i.checkIfDue false = .ok (.quiet i')) : i'.pending = i.pending ↔ i.HeadAlone := by
  obtain ⟨he, hlen⟩ | ⟨x, rest, hp, -, hlt, he⟩ := checkIfDue_putBack h
  · refine iff_of_true he fun x rest hp _ y hy => ?_
    rw [hp, List.length_cons] at hlen
    obtain rfl := List.length_eq_zero_iff.mp (by omega : rest.length = 0)
    simp at hy
  · rw [hp] at hs
    rw [he, hp, sortedInsert_eq_cons_iff hs]
    constructor
    · intro hall x' rest' hp' _
      obtain ⟨rfl, rfl⟩ := List.cons.inj (hp.symm.trans hp')
      exact hall
    · exact fun hall => hall x rest hp hlt

theorem checkIfDue_true_keeps (h : i.checkIfDue true = .ok (.quiet i')) : i'.pending = i.pending := by
  obtain ⟨he, -⟩ | ⟨_, _, _, hf, _⟩ := checkIfDue_putBack h
  · exact he
  · simp at hf

end Interrupt

namespace Delivery

open Interrupt

def PolledStep (s : State) (a : Action) (t : State) : Prop := (a = .checkIfDue → s.interrupt.HeadAlone) ∧ Step s a t

def State.order (s : State) : List PendingInterrupt := s.fired.map Prod.fst ++ s.interrupt.pending

structure InOrder (s : State) : Prop where
  sorted : SortedBy PendingInterrupt.when s.interrupt.pending
  known : ∀ x ∈ s.order, x.id < s.scheduled
  stable : StableBy PendingInterrupt.when (fun a b => a.id < b.id) s.order

variable {s t : State}

theorem InOrder.same (h : InOrder s) (hp : t.interrupt.pending = s.interrupt.pending) (hf : t.fired = s.fired)
    (hn : t.scheduled = s.scheduled) : InOrder t := by
  have ho : t.order = s.order := by rw [State.order, State.order, hp, hf]
  constructor
  · rw [hp]
    exact h.sorted
  · rw [ho, hn]
    exact h.known
  · rw [ho]
    exact h.stable

theorem InOrder.schedule (h : InOrder s) (when : Int) (type : IntType) {i : Interrupt}
    (hi : i = { s.interrupt with
      pending := sortedInsert PendingInterrupt.when ⟨s.scheduled, when, type⟩ s.interrupt.pending }) :
    InOrder { s with interrupt := i, scheduled := s.scheduled + 1 } := by
  subst hi
  obtain ⟨hfired, hpending, hcross⟩ := List.pairwise_append.mp h.stable
  have hknown (x : PendingInterrupt) (hx : x ∈ s.interrupt.pending) : x.id < s.scheduled :=
    h.known x (List.mem_append_right _ hx)
  refine ⟨h.sorted.sortedInsert _, fun x hx => ?_, ?_⟩
  · obtain hx | hx := List.mem_append.mp hx
    · exact Nat.lt_succ_of_lt (h.known x (List.mem_append_left _ hx))
    · obtain rfl | hx := mem_sortedInsert.mp hx
      · exact Nat.lt_succ_self _
      · exact Nat.lt_succ_of_lt (hknown x hx)
  · -- the new one has the greatest identity and goes behind its equals
    refine List.pairwise_append.mpr ⟨hfired, StableBy.sortedInsert hpending h.sorted hknown, fun x hx y hy => ?_⟩
    obtain rfl | hy := mem_sortedInsert.mp hy
    · exact fun _ => h.known x (List.mem_append_left _ hx)
    · exact hcross x hx y hy

theorem InOrder.invoke (h : InOrder s) {advanceClock inIdle : Bool} {j i : Interrupt} {old : MachineStatus}
    {toOccur : PendingInterrupt} (hj : j.pending = s.interrupt.pending)
    (hc : j.checkIfDue advanceClock = .ok (.fire old toOccur i)) : InOrder (s.invoke inIdle old toOccur i) := by
  obtain ⟨-, -, rest, totalTicks, hp, -, -, rfl⟩ := checkIfDue_fire hc
  rw [hj] at hp
  have ho : (s.invoke inIdle old toOccur
      { j with pending := rest, totalTicks, inHandler := true, status := .systemMode }).order = s.order := by
    simp [State.order, State.invoke, hp]
  have hs := h.sorted
  rw [hp] at hs
  constructor
  · exact (List.pairwise_cons.mp hs).2
  · rw [ho]
    exact h.known
  · rw [ho]
    exact h.stable

theorem InOrder.step {a : Action} (h : InOrder s) (hs : PolledStep s a t) : InOrder t := by
  obtain ⟨halone, hs⟩ := hs
  cases hs with
  | schedule hc he => exact h.schedule _ _ (schedule_ok he).2
  | setLevel hc he | enable hc he =>
    obtain ⟨-, -, rfl⟩ := setLevel_ok he
    exact h.same rfl rfl rfl
  | setStatus hc hne => exact h.same rfl rfl rfl
  | oneTick hc => exact h.same rfl rfl rfl
  | idle hc he => exact h.invoke (j := s.interrupt.beginIdle) rfl he
  | halt hc he => exact h.same (checkIfDue_true_keeps (i := s.interrupt.beginIdle) he) rfl rfl
  | fire hc he => exact h.invoke rfl he
  | @endTick i hc he =>
    have hp := (checkIfDue_keeps_iff h.sorted he).mpr (halone rfl)
    exact h.same ((endTick_pending i).trans hp) rfl rfl
  | endIdle hc he => exact h.same ((checkIfDue_keeps_iff h.sorted he).mpr (halone rfl)) rfl rfl
  | yieldOnReturn hc he =>
    obtain ⟨-, rfl⟩ := setYieldOnReturn_ok he
    exact h.same rfl rfl rfl
  | handlerReturn hc => exact h.same rfl rfl rfl

theorem InOrder.new : InOrder .new := by
  constructor <;> simp [State.order, State.new, Interrupt.new, SortedBy, StableBy]

theorem PolledStep.inOrder (h : Reachable (fun s => s = .new) PolledStep s) : InOrder s :=
  Reachable.invariant (fun _ h0 => h0 ▸ InOrder.new) (fun _ _ _ hi hs => hi.step hs) h

/-- A poll moves the next interrupt behind the others with its time. -/
theorem polling_keeps_order (s : State) (h : Reachable (fun s => s = .new) PolledStep s) :
    (∀ i i' : Interrupt, SortedBy PendingInterrupt.when i.pending → i.checkIfDue false = .ok (.quiet i') →
      (i'.pending = i.pending ↔ i.HeadAlone)) ∧
      (s.fired.map Prod.fst ++ s.interrupt.pending).Pairwise (fun a b => a.when = b.when → a.id < b.id) :=
  ⟨fun _ _ hs hq => checkIfDue_keeps_iff hs hq, (PolledStep.inOrder h).stable⟩

theorem delivered_polled : Reachable (fun s => s = .new) PolledStep delivered := by
  have h1 : Reachable (fun s => s = .new) PolledStep
      ⟨⟨.intOff, [⟨0, 5, .diskInt⟩], false, false, .systemMode, 0⟩, .thread, 1, []⟩ :=
    .next (.schedule 5 .diskInt) (.start rfl) ⟨by simp, .schedule trivial rfl⟩
  have h2 : Reachable _ PolledStep
      ⟨⟨.intOff, [⟨0, 5, .diskInt⟩, ⟨1, 100, .timerInt⟩], false, false, .systemMode, 0⟩, .thread, 2, []⟩ :=
    .next (.schedule 100 .timerInt) h1 ⟨by simp, .schedule trivial rfl⟩
  have h3 : Reachable _ PolledStep
      ⟨⟨.intOff, [⟨0, 5, .diskInt⟩, ⟨1, 100, .timerInt⟩], false, false, .systemMode, 10⟩, .oneTick, 2, []⟩ :=
    .next (.setLevel .intOn) h2 ⟨by simp,
      .enable (i := ⟨.intOn, [⟨0, 5, .diskInt⟩, ⟨1, 100, .timerInt⟩], false, false, .systemMode, 0⟩) trivial rfl⟩
  refine .next .checkIfDue h3 ⟨fun _ x rest hp hlt => ?_, .fire rfl rfl⟩
  obtain ⟨rfl, rfl⟩ := List.cons.inj hp
  exact absurd hlt (by decide)

theorem polling_keeps_order_disk : delivered.fired.length = 1 ∧ delivered.interrupt.pending.length = 1 ∧
    (delivered.fired.map Prod.fst ++ delivered.interrupt.pending).Pairwise (fun a b => a.when = b.when → a.id < b.id) :=
  ⟨rfl, rfl, (polling_keeps_order delivered delivered_polled).2⟩

theorem polling_swaps_equal_times :
    (∃ i i' : Interrupt, SortedBy PendingInterrupt.when i.pending ∧ i.checkIfDue false = .ok (.quiet i') ∧
      i'.pending ≠ i.pending) ∧
      ∃ s, Run s ∧ s.fired = [(⟨1, 100, .consoleReadInt⟩, 100), (⟨0, 100, .networkRecvInt⟩, 100)] := by
  have hsorted : SortedBy PendingInterrupt.when [⟨0, 100, .networkRecvInt⟩, ⟨1, 100, .consoleReadInt⟩] :=
    List.pairwise_pair.mpr (le_refl _)
  refine ⟨⟨⟨.intOff, _, false, false, .systemMode, 10⟩, _, hsorted, rfl, by decide⟩, ?_⟩
  have h1 : Run ⟨⟨.intOff, [⟨0, 100, .networkRecvInt⟩], false, false, .systemMode, 0⟩, .thread, 1, []⟩ :=
    .next (.schedule 100 .networkRecvInt) (.start rfl) ⟨(by decide : (0 : Int) + 100 < CInt.intMax), .schedule trivial rfl⟩
  have h2 : Run ⟨⟨.intOff, [⟨0, 100, .networkRecvInt⟩, ⟨1, 100, .consoleReadInt⟩], false, false, .systemMode, 0⟩,
      .thread, 2, []⟩ :=
    .next (.schedule 100 .consoleReadInt) h1 ⟨(by decide : (0 : Int) + 100 < CInt.intMax), .schedule trivial rfl⟩
  have h3 : Run ⟨⟨.intOff, [⟨0, 100, .networkRecvInt⟩, ⟨1, 100, .consoleReadInt⟩], false, false, .systemMode, 10⟩,
      .oneTick, 2, []⟩ :=
    .next (.setLevel .intOn) h2 ⟨fun _ => (by decide : (0 : Int) + 10 < CInt.intMax), .enable
      (i := ⟨.intOn, [⟨0, 100, .networkRecvInt⟩, ⟨1, 100, .consoleReadInt⟩], false, false, .systemMode, 0⟩) trivial rfl⟩
  have h4 : Run ⟨⟨.intOn, [⟨1, 100, .consoleReadInt⟩, ⟨0, 100, .networkRecvInt⟩], false, false, .systemMode, 10⟩,
      .thread, 2, []⟩ :=
    .next .checkIfDue h3 ⟨trivial, .endTick
      (i := ⟨.intOff, [⟨1, 100, .consoleReadInt⟩, ⟨0, 100, .networkRecvInt⟩], false, false, .systemMode, 10⟩) rfl rfl⟩
  have h5 : Run ⟨⟨.intOff, [⟨1, 100, .consoleReadInt⟩, ⟨0, 100, .networkRecvInt⟩], false, false, .systemMode, 10⟩,
      .thread, 2, []⟩ :=
    .next (.setLevel .intOff) h4 ⟨by simp [InClock], .setLevel trivial rfl⟩
  have h6 : Run ⟨⟨.intOff, [⟨0, 100, .networkRecvInt⟩], true, false, .systemMode, 100⟩, .handler true .idleMode, 2,
      [(⟨1, 100, .consoleReadInt⟩, 100)]⟩ :=
    .next .idle h5 ⟨trivial, .idle rfl rfl⟩
  have h7 : Run ⟨⟨.intOff, [⟨0, 100, .networkRecvInt⟩], false, false, .idleMode, 100⟩, .idle, 2,
      [(⟨1, 100, .consoleReadInt⟩, 100)]⟩ :=
    .next .handlerReturn h6 ⟨trivial, @Step.handlerReturn _ true .idleMode rfl⟩
  exact ⟨_, .next .checkIfDue h7 ⟨trivial, @Step.fire _ true _ _ _ rfl rfl⟩, rfl⟩

end Delivery

end Nachos
