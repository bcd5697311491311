import Nachos.Threads.ReadyList

namespace Nachos

namespace Board

def Remembered (b : Board) : Prop :=
  ∀ u child, b.waits u = some (.join child) → b.parent child = some u ∧ b.finished child = false

variable {b b' : Board} {l : Option Tid}

theorem join_of_update {waits : Tid → Option Wait} {t u child : Tid} {w : Option Wait} (hw : w ≠ some (.join child))
    (h : Function.update waits t w u = some (.join child)) : u ≠ t ∧ waits u = some (.join child) := by
  have hu : u ≠ t := by
    rintro rfl
    rw [Function.update_self] at h
    exact hw h
  rw [Function.update_of_ne hu] at h
  exact ⟨hu, h⟩

theorem Remembered.keep (h : Remembered b)
    (hw : ∀ u child, b'.waits u = some (.join child) → b.waits u = some (.join child)) (hp : b'.parent = b.parent)
    (hf : b'.finished = b.finished) : Remembered b' := by
  intro u child hu
  rw [hp, hf]
  exact h u child (hw u child hu)

theorem Remembered.join (h : Remembered b) {child : Tid} (hp : b.parent child = none) (hf : b.finished child = false) :
    Remembered (b.join child) := by
  intro u c hu
  change Function.update b.waits b.current (some (.join child)) u = _ at hu
  change Function.update b.parent child (some b.current) c = some u ∧ b.finished c = false
  by_cases hc : c = child
  · rw [hc, Function.update_self]
    by_cases hcur : u = b.current
    · exact ⟨congrArg some hcur.symm, hf⟩
    · rw [hc, Function.update_of_ne hcur] at hu
      have hold := (h u child hu).1
      rw [hp] at hold
      cases hold
  · rw [Function.update_of_ne hc]
    exact h u c (join_of_update (by simpa using Ne.symm hc) hu).2

theorem Remembered.finish (h : Remembered b) (active : List Tid) : Remembered (b.finish active) := by
  -- who still waits afterwards does not wait for this thread: its parent has been woken
  have hkeep (b₁ : Board) (hp : b₁.parent = b.parent) (hw : ∀ u child, b₁.waits u = some (.join child) →
      b.waits u = some (.join child) ∧ b.parent b.current ≠ some u) :
      Remembered { b₁.block none with finished := Function.update b.finished b.current true, active } := by
    intro u child hu
    obtain ⟨hwait, hparent⟩ := hw u child (join_of_update (by simp) hu).2
    obtain ⟨hold, hlive⟩ := h u child hwait
    have hne : child ≠ b.current := by
      rintro rfl
      exact hparent hold
    exact ⟨(congrFun hp child).trans hold, (Function.update_of_ne hne ..).trans hlive⟩
  unfold Board.finish wakeParent
  cases hp : b.parent b.current with
  | none => exact hkeep b rfl fun u child hu => ⟨hu, by simp [hp]⟩
  | some p =>
    refine hkeep (b.wake p (p :: b.ready)) rfl fun u child hu => ?_
    obtain ⟨hne, hold⟩ := join_of_update (by simp) hu
    exact ⟨hold, by simpa [hp] using hne.symm⟩

theorem Remembered.move (hi : Inv b) (h : Remembered b) (hm : Move b l b')
    (hl : ∀ child, l = some child → b.parent child = none) : Remembered b' := by
  cases hm with
  | stay => exact h
  | spawn ha => exact h
  | enqueue hr k => exact h.keep (fun u child hu => (join_of_update (by simp) hu).2) rfl rfl
  | dequeue k =>
    unfold dequeue
    cases hq : b.queue k with
    | nil => exact h
    | cons t queue => exact h.keep (fun u child hu => (join_of_update (by simp) hu).2) rfl rfl
  | @join hr child hc => exact h.join (hl child rfl) (hi.active child hc).1
  | finish hr hn ha => exact h.finish _
  | dispatch hr ht => exact h
  | yield hr ht => exact h.keep (fun u child hu => (join_of_update (by simp) hu).2) rfl rfl

theorem Inv.forgotten (hi : Inv b) (hr : b.status b.current = .running) {child p : Tid} (hc : child ∈ b.active)
    (hp : b.parent child = some p) :
    (b.join child).waits p = some (.join child) ∧
      ∀ c, (b.join child).finished c = false → (b.join child).parent c ≠ some p := by
  have hw := hi.parent child p hp (hi.active child hc).1
  have hne : p ≠ b.current := by
    rintro rfl
    cases hr.symm.trans (hi.waits _ _ hw).1
  have hw' : (b.join child).waits p = some (.join child) := (Function.update_of_ne hne ..).trans hw
  refine ⟨hw', fun c hf hpc => ?_⟩
  -- whoever has `p` for a parent is the child that `p` waits for, and that one has a new parent
  have hwc := (hi.join hr (hi.active child hc).2).parent c p hpc hf
  obtain rfl := Wait.join.inj (Option.some.inj (hw'.symm.trans hwc))
  have hpar : (b.join child).parent child = some b.current := Function.update_self ..
  exact hne (Option.some.inj (hpc.symm.trans hpar))

end Board

namespace ThreadSystem

variable {s t : ThreadSystem}

def AsleepInJoin (s : ThreadSystem) (u child : Tid) : Prop :=
  (s.threads u).status = .blocked ∧ (s.threads u).finished = false ∧
    waiting (s.threads u).stack = some (.join child)

instance (s : ThreadSystem) (u child : Tid) : Decidable (s.AsleepInJoin u child) :=
  inferInstanceAs (Decidable (_ ∧ _ ∧ _))

theorem asleepInJoin_iff (s : ThreadSystem) (u child : Tid) :
    s.AsleepInJoin u child ↔ s.board.waits u = some (.join child) := by
  change _ ↔ (if (s.threads u).status = .blocked ∧ (s.threads u).finished = false then waiting (s.threads u).stack
    else none) = _
  unfold AsleepInJoin
  split_ifs with hb
  · simp [hb]
  · simp only [iff_false]
    exact fun h => hb ⟨h.1, h.2.1⟩

def SoleJoin (s : ThreadSystem) (a : Action) : Prop :=
  a = .join → ∀ child, s.joinTarget = some child → (s.threads child).parent = none

def SoleStep (s : ThreadSystem) (a : Action) (t : ThreadSystem) : Prop := SoleJoin s a ∧ Step s a t

theorem remembered (h : Reachable Initial SoleStep s) : Integral s ∧ s.board.Remembered := by
  refine h.invariant (I := fun s => Integral s ∧ s.board.Remembered) (fun s₀ hi => ⟨hi.integral, ?_⟩)
    (fun s₀ a s₁ hi hs => ⟨hi.1.step hs.2, ?_⟩)
  · obtain ⟨garbage, pending, hw, values, pooled, rfl⟩ := hi
    intro u child hw
    rw [← asleepInJoin_iff] at hw
    by_cases hu : u = main
    · simp [AsleepInJoin, boot, hu] at hw
    · simp [AsleepInJoin, boot, hu, Thread.new] at hw
  · obtain ⟨⟨l, hm, hl⟩, -⟩ := hi.1.outcome hs.2
    exact hi.2.move hi.1.board hm fun child hc => hs.1 (hl child hc).1 child (hl child hc).2

theorem finish_wakes {rest : List Frame} {u : Tid} (hp : s.current.parent = some u) (hne : u ≠ s.currentThread)
    (h : s.finish rest = .ok t) : t.readyList = u :: s.readyList ∧
      t.threads u = { s.threads u with isJoined := false, status := .ready } := by
  have hp' : (s.threads s.currentThread).parent = some u := hp
  simp only [finish, wakeParent, current, hp'] at h
  obtain ⟨-, rfl⟩ := sleep_ok h
  refine ⟨rfl, ?_⟩
  simp [setStack, setStatus, modify, purge, wakeUpFromJoin, hne]

/-- No thread asleep in `SC_Join` is forgotten as long as no process is joined twice; the second join makes the
system forget the first. -/
theorem join_remembered (s : ThreadSystem) :
    (Reachable Initial SoleStep s →
      (∀ u child, s.AsleepInJoin u child → (s.threads child).finished = false ∧ (s.threads child).parent = some u) ∧
      ∀ u t, s.AsleepInJoin u s.currentThread → Step s .finish t →
        u ∈ t.readyList ∧ (t.threads u).status = .ready ∧ (t.threads u).isJoined = false) ∧
    (Run s → ∀ t child p, Step s .join t → s.joinTarget = some child → (s.threads child).parent = some p →
      t.AsleepInJoin p child ∧ ∀ c, (t.threads c).finished = false → (t.threads c).parent ≠ some p) := by
  refine ⟨fun h => ?_, fun h t child p hs hc hp => ?_⟩
  · obtain ⟨hi, hr⟩ := remembered h
    have hrem (u child : Tid) (hw : s.AsleepInJoin u child) :=
      hr u child ((asleepInJoin_iff s u child).mp hw)
    refine ⟨fun u child hw => ⟨(hrem u child hw).2, (hrem u child hw).1⟩, fun u t hw hs => ?_⟩
    cases hs with
    | finish hst he =>
      have hrun := hi.running (by rw [hst]; rfl)
      have hne : u ≠ s.currentThread := by
        rintro rfl
        cases hrun.symm.trans hw.1
      obtain ⟨hready, hu⟩ := finish_wakes (hrem u s.currentThread hw).1 hne he
      rw [hready, hu]
      exact ⟨List.mem_cons_self .., rfl, rfl⟩
  · have hi := h.integral
    cases hs with
    | join hst he =>
      have hsl : inSleep s.stack = false := by rw [hst]; rfl
      unfold scJoin at he
      rw [hc] at he
      have hb := join_board (h.integral.unfinished hsl) he
      obtain ⟨hw, hf⟩ := hi.board.forgotten (hi.running hsl) (mem_of_joinTarget hc) hp
      rw [← hb] at hw hf
      exact ⟨(asleepInJoin_iff t p child).mpr hw, hf⟩

def sole (s : ThreadSystem) : Bool :=
  match s.stack with
  | .scJoin :: _ => s.joinTarget.all fun child => (s.threads child).parent.isNone
  | _ => true

def soleAdvance (s : ThreadSystem) (c : Choice) : Option ThreadSystem := if s.sole then s.advance c else none

theorem soleStep_of_sole {a : Action} (hsole : s.sole = true) (h : Step s a t) : SoleStep s a t := by
  refine ⟨fun ha child hc => ?_, h⟩
  subst ha
  cases h with
  | join hst he => simpa [sole, hst, hc] using hsole

theorem soleAdvance_run {choices : List Choice} (hs : Reachable Initial SoleStep s)
    (h : choices.foldlM soleAdvance s = some t) : Reachable Initial SoleStep t :=
  advance_reachable (fun _ _ _ hsole ha => (soleStep_of_sole hsole ha).1) hs h

theorem join_remembered_exit : ∃ s t : ThreadSystem, s.AsleepInJoin 0 1 ∧ Step s .finish t ∧ 0 ∈ t.readyList ∧
    (t.threads 0).isJoined = false := by
  have hrun : ((mainStarts ++ execs ⟨2, 3⟩ ++ joins 1 ++ [sysCall 1 0, .go, .go]).foldlM soleAdvance cleared).map
      (fun s => (s.currentThread, s.stack, (s.finish s.stack.tail).isOk, decide (s.AsleepInJoin 0 1))) =
      some (1, [.finish, .trapReturn, .runTick, .finish], true, true) := by decide +kernel
  obtain ⟨s, hs, he⟩ := Option.map_eq_some_iff.mp hrun
  simp only [Prod.mk.injEq, decide_eq_true_eq] at he
  obtain ⟨hcur, hst, hok, hasleep⟩ := he
  have hr := soleAdvance_run (.start ⟨_, _, _, _, _, rfl⟩) hs
  rw [hst] at hok
  obtain ⟨t, hf⟩ := ok_of_isOk hok
  have ht : Step s .finish t := .finish hst hf
  obtain ⟨hready, -, hjoined⟩ := ((join_remembered s).1 hr).2 0 t (by rw [hcur]; exact hasleep) ht
  exact ⟨s, t, hasleep, ht, hready, hjoined⟩

theorem first_joiner_forgotten : ∃ s : ThreadSystem, Run s ∧ s.AsleepInJoin 0 2 ∧ (s.threads 2).finished = true ∧
    ∀ c, (s.threads c).finished = false → (s.threads c).parent ≠ some 0 := by
  have hrun : ((mainStarts ++ execs ⟨2, 3⟩ ++ execs ⟨3, 3⟩ ++ joins 2 ++ joins 2 ++ [sysCall 1 0, .go, .go, .go]).foldlM
      advance cleared).map (fun s => (decide (s.AsleepInJoin 0 2), (s.threads 2).finished)) = some (true, true) := by
    decide +kernel
  obtain ⟨s, hs, he⟩ := Option.map_eq_some_iff.mp hrun
  simp only [Prod.mk.injEq, decide_eq_true_eq] at he
  obtain ⟨hw, hdead⟩ := he
  have hr := advance_run cleared_run hs
  refine ⟨s, hr, hw, hdead, fun c hf hp => ?_⟩
  have hc := hr.integral.board.parent c 0 hp hf
  obtain rfl := Wait.join.inj (Option.some.inj (((asleepInJoin_iff s 0 2).mp hw).symm.trans hc))
  cases hdead.symm.trans hf

end ThreadSystem

end Nachos
