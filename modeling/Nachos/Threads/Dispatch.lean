import Nachos.Lib.FrontQueue
import Nachos.Threads.Reclaim

namespace Nachos.ThreadSystem

variable {s t : ThreadSystem} {a : Action} {u : Tid}

/-- The thread that `FindNextToRun` returns, in the loop of `Sleep` and in `Yield`. -/
def selected (s : ThreadSystem) : Action → List Tid
  | .dispatch | .yield => s.readyList.head?.toList
  | _ => []

/-- The thread that `Finish` hands to `WakeUpFromJoin`, behind the one that finishes. -/
def wakened (s : ThreadSystem) : Action → List (Tid × Tid)
  | .finish => s.current.parent.toList.map fun parent => (s.currentThread, parent)
  | _ => []

structure Dispatches where
  system : ThreadSystem
  selections : List Tid
  wakes : List (Tid × Tid)

theorem sleep_readyList {rest : List Frame} (h : s.sleep rest = .ok t) : t.readyList = s.readyList := by
  obtain ⟨-, rfl⟩ := sleep_ok h
  rfl

theorem wakeParent_readyList (s : ThreadSystem) : s.wakeParent.readyList = s.current.parent.toList ++ s.readyList := by
  unfold wakeParent
  cases s.current.parent with
  | none => rfl
  | some parent => rfl

theorem finish_readyList {rest : List Frame} (h : s.finish rest = .ok t) :
    t.readyList = s.current.parent.toList ++ s.readyList := (sleep_readyList h).trans (wakeParent_readyList _)

theorem Step.readyList (h : Step s a t) :
    ∃ back, (s.wakened a).map Prod.snd ++ s.readyList ++ back = s.selected a ++ t.readyList := by
  cases h with
  | control hc => exact ⟨[], List.append_nil _⟩
  | idle hs hr hd hc => exact ⟨[], List.append_nil _⟩
  | dispatch hs hd =>
    obtain ⟨nextThread, readyList, hr, rfl⟩ := dispatch_some hd
    refine ⟨[], ?_⟩
    simp [wakened, selected, hr, run, setStatus, modify]
  | switched hs he =>
    obtain ⟨hw, threadToBeDestroyed, rfl, -, -⟩ := switched_ok he
    exact ⟨[], List.append_nil _⟩
  | @yield rest hs =>
    cases hr : s.readyList with
    | nil => exact ⟨[], by simp [wakened, selected, hr, ThreadSystem.yield, setStack, modify]⟩
    | cons nextThread readyList =>
      refine ⟨[s.currentThread], ?_⟩
      simp [wakened, selected, hr, ThreadSystem.yield, run, readyToRun, setStatus, modify]
  | fork hs =>
    refine ⟨[s.created], ?_⟩
    simp [wakened, selected, ThreadSystem.fork, readyToRun, setStack, setStatus, modify]
  | exec hs =>
    unfold scExec
    split_ifs
    · exact ⟨[], List.append_nil _⟩
    · refine ⟨[s.created], ?_⟩
      simp [wakened, selected, ThreadSystem.fork, readyToRun, setStack, setStatus, modify]
  | join hs he =>
    refine ⟨[], ?_⟩
    rw [List.append_nil]
    obtain rfl | ⟨child, -, he⟩ := scJoin_ok he
    · rfl
    · exact (sleep_readyList he).symm
  | yieldReturn hs he =>
    obtain ⟨σ, rfl⟩ := scYieldReturn_ok he
    exact ⟨[], List.append_nil _⟩
  | finish hs he =>
    refine ⟨[], ?_⟩
    rw [List.append_nil]
    change _ = t.readyList
    rw [finish_readyList he, wakened, List.map_map]
    exact congrArg (· ++ s.readyList) (List.map_id _)
  | p hs he =>
    refine ⟨[], ?_⟩
    rw [List.append_nil]
    obtain ⟨value, rfl⟩ | ⟨value, he⟩ := p_ok he
    · rfl
    · exact (sleep_readyList he).symm
  | @v semaphore f rest hf hs =>
    unfold ThreadSystem.v
    dsimp only
    split
    · exact ⟨[], List.append_nil _⟩
    · next thread hv =>
      refine ⟨[thread], ?_⟩
      simp [wakened, selected, readyToRun, setStack, setStatus, modify, setSemaphore]
  | processCreator hs he =>
    obtain ⟨σ, threadToBeDestroyed, -, rfl⟩ := processCreator_ok he
    exact ⟨[], List.append_nil _⟩
  | startProcess hs hn => exact ⟨[], List.append_nil _⟩

namespace Dispatches

variable {x x' : Dispatches}

structure Step (x : Dispatches) (a : Action) (x' : Dispatches) : Prop where
  step : x.system.Step a x'.system
  selections : x'.selections = x.selections ++ x.system.selected a
  wakes : x'.wakes = x.wakes ++ x.system.wakened a

def From (s : ThreadSystem) : Dispatches → Prop := Reachable (· = ⟨s, [], []⟩) Step

def queue (x : Dispatches) : FrontQueue Tid := ⟨x.system.readyList, x.selections, x.wakes.map Prod.snd⟩

theorem fresh (hi : x.system.Integral) (h : x.system.Step a t) :
    ((x.system.wakened a).map Prod.snd ++ x.system.readyList).Nodup := by
  by_cases ha : a = .finish
  · subst ha
    obtain ⟨back, hr⟩ := h.readyList
    have hnodup : t.readyList.Nodup := (hi.step h).board.nodup
    rw [← List.nil_append t.readyList, show [] = x.system.selected .finish from rfl, ← hr] at hnodup
    exact hnodup.of_append_left
  · have hnone : x.system.wakened a = [] := by
      cases a with
      | finish => exact absurd rfl ha
      | _ => rfl
    rw [hnone]
    exact hi.board.nodup

theorem Step.queue (hi : x.system.Integral) (h : x.Step a x') : ∃ back,
    x.queue.Step ((x.system.wakened a).map Prod.snd) (x.system.selected a) back x'.queue := by
  obtain ⟨back, hr⟩ := h.step.readyList
  refine ⟨back, fresh hi h.step, hr, h.selections, ?_⟩
  change x'.wakes.map Prod.snd = _
  rw [h.wakes, List.map_append]
  rfl

structure Ended (s : ThreadSystem) (x : Dispatches) : Prop where
  nodup : (x.wakes.map Prod.fst).Nodup
  running : ∀ c ∈ x.wakes.map Prod.fst, (s.threads c).finished = false
  finished : ∀ c ∈ x.wakes.map Prod.fst, (x.system.threads c).finished = true

structure Inv (s : ThreadSystem) (u : Tid) (before : List Tid) (x : Dispatches) : Prop where
  integral : x.system.Integral
  turn : x.queue.Turn u before
  ended : x.Ended s
  since : ∀ c, (s.threads c).finished = true → (x.system.threads c).finished = true

theorem Ended.step (h : x.Ended s) (hi : x.system.Integral)
    (hsince : ∀ c, (s.threads c).finished = true → (x.system.threads c).finished = true) (hs : x.Step a x') :
    x'.Ended s := by
  have hkeep : ∀ c ∈ x.wakes.map Prod.fst, (x'.system.threads c).finished = true :=
    fun c hc => hi.finished hs.step (h.finished c hc)
  by_cases hn : x.system.wakened a = []
  · have hw : x'.wakes = x.wakes := by rw [hs.wakes, hn, List.append_nil]
    exact ⟨hw ▸ h.nodup, hw ▸ h.running, hw ▸ hkeep⟩
  · have ha : a = .finish := by
      by_contra ha
      refine hn ?_
      cases a with
      | finish => exact absurd rfl ha
      | _ => rfl
    subst ha
    have hstep := hs.step
    have hun : (x.system.threads x.system.currentThread).finished = false := by
      cases hstep with
      | finish hst he =>
        apply hi.unfinished
        rw [hst]
        rfl
    have hfin : (x'.system.threads x.system.currentThread).finished = true := by
      have hview := congrFun hstep.finished_finish x.system.currentThread
      rw [Function.update_self] at hview
      exact hview
    have hparent : ∃ parent, x.system.current.parent = some parent := by
      rw [← Option.ne_none_iff_exists']
      intro hp
      refine hn ?_
      rw [wakened, hp]
      rfl
    obtain ⟨parent, hp⟩ := hparent
    have hw : x'.wakes.map Prod.fst = x.wakes.map Prod.fst ++ [x.system.currentThread] := by
      rw [hs.wakes, wakened, hp, List.map_append]
      rfl
    constructor
    · rw [hw]
      refine h.nodup.append (List.nodup_singleton _) (List.disjoint_singleton.mpr fun hm => ?_)
      rw [h.finished _ hm] at hun
      cases hun
    · intro c hc
      rw [hw] at hc
      rcases List.mem_append.mp hc with hc | hc
      · exact h.running c hc
      · rw [List.mem_singleton.mp hc]
        by_contra hf
        rw [hsince _ (Bool.eq_true_of_not_eq_false hf)] at hun
        cases hun
    · intro c hc
      rw [hw] at hc
      rcases List.mem_append.mp hc with hc | hc
      · exact hkeep c hc
      · rw [List.mem_singleton.mp hc]
        exact hfin

theorem Inv.step {before : List Tid} (h : Inv s u before x) (hs : x.Step a x') : Inv s u before x' := by
  obtain ⟨back, hq⟩ := hs.queue h.integral
  refine ⟨h.integral.step hs.step, h.turn.step hq, h.ended.step h.integral h.since hs, fun c hc => ?_⟩
  exact h.integral.finished hs.step (h.since c hc)

/-- From a point where a thread is ready with others ahead of it, in every order of calls and interrupts: until it is
selected, exactly the threads ahead of it are, in their order, and the parents that finishing threads wake. -/
theorem bounded_waiting (hs : Run s) {p : Nat} (hu : s.readyList[p]? = some u) (h : From s x) :
    x.queue.Turn u (s.readyList.take p) ∧ (u ∈ x.selections ∨ x.selections.length ≤ p + x.wakes.length) ∧
      x.Ended s := by
  obtain ⟨hp, hget⟩ := List.getElem?_eq_some_iff.mp hu
  have hinv : Inv s u (s.readyList.take p) x := by
    apply Reachable.invariant (fun x hx => ?_) (fun _ _ _ hi hst => hi.step hst) h
    subst hx
    refine ⟨hs.integral, ?_, ⟨List.nodup_nil, fun _ hc => (by cases hc), fun _ hc => (by cases hc)⟩, fun _ hc => hc⟩
    have hsplit : s.readyList = s.readyList.take p ++ u :: s.readyList.drop (p + 1) := by
      rw [← hget, ← List.drop_eq_getElem_cons hp]
      exact (List.take_append_drop p s.readyList).symm
    exact .start hsplit rfl rfl
  refine ⟨hinv.turn, ?_, hinv.ended⟩
  have hbound := hinv.turn.bounded
  rw [List.length_take, Nat.min_eq_left hp.le] at hbound
  simpa [queue] using hbound

def advance (x : Dispatches) (c : Choice) : Option Dispatches :=
  (x.system.advance c).map fun t =>
    let a := c.action x.system.stack
    ⟨t, x.selections ++ x.system.selected a, x.wakes ++ x.system.wakened a⟩

theorem advance_from {choices : List Choice} (h : From s x) (he : choices.foldlM advance x = some x') : From s x' := by
  induction choices generalizing x with
  | nil =>
    obtain rfl := Option.some.inj he
    exact h
  | cons c choices ih =>
    obtain ⟨y, hy, he⟩ := Option.bind_eq_some_iff.mp he
    obtain ⟨t, ht, rfl⟩ := Option.map_eq_some_iff.mp hy
    exact ih (.next _ h ⟨advance_action ht, rfl, rfl⟩) he

theorem bounded_waiting_joined : ∃ (s : ThreadSystem) (x : Dispatches), s.readyList = [1, 2] ∧
    x.selections = [1, 0, 2] ∧ x.wakes = [(1, 0)] ∧ x.queue.Turn 2 [1] ∧ (s.threads 1).finished = false ∧
      (x.system.threads 1).finished = true := by
  have hrun : ((mainStarts ++ execs ⟨2, 3⟩ ++ execs ⟨3, 3⟩).foldlM ThreadSystem.advance cleared).map
      (fun s => (s.readyList, ((joins 1 ++ [sysCall 1 0] ++ List.replicate 9 Choice.go ++ [sysCall 1 0] ++
        List.replicate 4 Choice.go).foldlM advance ⟨s, [], []⟩).map fun x => (x.selections, x.wakes))) =
      some ([1, 2], some ([1, 0, 2], [(1, 0)])) := by decide +kernel
  obtain ⟨s, hs, he⟩ := Option.map_eq_some_iff.mp hrun
  simp only [Prod.mk.injEq] at he
  obtain ⟨hready, he⟩ := he
  obtain ⟨x, hx, he⟩ := Option.map_eq_some_iff.mp he
  simp only [Prod.mk.injEq] at he
  obtain ⟨hsel, hwakes⟩ := he
  obtain ⟨hturn, -, hended⟩ := bounded_waiting (advance_run cleared_run hs) (show s.readyList[1]? = some 2 by rw [hready]; rfl)
    (advance_from (.start rfl) hx)
  rw [hready] at hturn
  have hmem : 1 ∈ x.wakes.map Prod.fst := by
    rw [hwakes]
    exact List.mem_cons_self
  exact ⟨s, x, hready, hsel, hwakes, hturn, hended.running 1 hmem, hended.finished 1 hmem⟩

end Dispatches

end Nachos.ThreadSystem
