import Nachos.Lib.Handover
import Nachos.Threads.Registry

namespace Nachos.ThreadSystem

open Handovers

variable {s t : ThreadSystem} {a : Action} {rest : List Frame}

/-- What a step does to `threadToBeDestroyed`: `Finish` assigns it; `Run` after its `SWITCH` and `processCreator` delete
what is there. -/
def handover (s : ThreadSystem) : Action → Handovers Tid
  | .finish => [.put s.currentThread]
  | .switched | .processCreator => [.take]
  | _ => []

structure Ledger where
  system : ThreadSystem
  events : Handovers Tid
  found : List (Option Tid)
  deleted : List (Tid × Tid)

def assigned (s : ThreadSystem) : Action → List (Option Tid)
  | .finish => [s.threadToBeDestroyed]
  | _ => []

def deletes (s : ThreadSystem) : Action → List (Tid × Tid)
  | .switched | .processCreator => s.threadToBeDestroyed.toList.map (fun u => (s.currentThread, u))
  | _ => []

section Carcass

theorem deleteThread_clears (h : s.deleteThread = .ok t) : t.threadToBeDestroyed = none := by
  unfold deleteThread at h
  cases hd : s.threadToBeDestroyed with
  | none =>
    simp only [hd] at h
    rw [← Except.ok.inj h]
    exact hd
  | some u =>
    simp only [hd] at h
    obtain ⟨_, -, h⟩ := bind_eq_ok.mp h
    rw [← Except.ok.inj h]

theorem switched_clears (h : s.switched rest = .ok t) : t.threadToBeDestroyed = none := by
  obtain ⟨s', hd, h⟩ := bind_eq_ok.mp h
  rw [← Except.ok.inj h]
  exact (deleteThread_clears hd :)

theorem processCreator_clears (h : s.processCreator rest = .ok t) : t.threadToBeDestroyed = none := by
  unfold processCreator at h
  split at h
  · cases h
  · obtain ⟨s', hd, h⟩ := bind_eq_ok.mp h
    rw [← Except.ok.inj h]
    exact (deleteThread_clears hd :)

theorem finish_assigns (h : s.finish rest = .ok t) : t.threadToBeDestroyed = some s.currentThread := by
  unfold finish wakeParent at h
  dsimp only at h
  obtain ⟨-, rfl⟩ := sleep_ok h
  split <;> rfl

theorem yield_carcass (s : ThreadSystem) (rest : List Frame) :
    (s.yield rest).threadToBeDestroyed = s.threadToBeDestroyed := by
  unfold yield
  dsimp only
  split <;> rfl

theorem v_carcass (s : ThreadSystem) (semaphore : Nat) (rest : List Frame) :
    (s.v semaphore rest).threadToBeDestroyed = s.threadToBeDestroyed := by
  unfold v
  dsimp only
  split <;> rfl

theorem sleep_carcass (h : s.sleep rest = .ok t) : t.threadToBeDestroyed = s.threadToBeDestroyed := by
  obtain ⟨-, rfl⟩ := sleep_ok h
  rfl

theorem Step.held (l : Handovers Tid) (h : Step s a t) (hl : s.threadToBeDestroyed = held l) :
    t.threadToBeDestroyed = held (s.handover a ++ l) := by
  cases h with
  | control hc => exact hl
  | idle hs hr hd hc => exact hl
  | dispatch hs hd =>
    obtain ⟨nextThread, readyList, -, rfl⟩ := dispatch_some hd
    exact hl
  | switched hs he => exact switched_clears he
  | yield hs => exact (yield_carcass ..).trans hl
  | fork hs => exact hl
  | exec hs =>
    unfold scExec
    split_ifs
    · exact hl
    · exact hl
  | join hs he =>
    obtain rfl | ⟨child, -, he⟩ := scJoin_ok he
    · exact hl
    · exact (sleep_carcass he).trans hl
  | yieldReturn hs he =>
    obtain ⟨σ, rfl⟩ := scYieldReturn_ok he
    exact hl
  | finish hs he => exact finish_assigns he
  | p hs he =>
    obtain ⟨value, rfl⟩ | ⟨value, he⟩ := p_ok he
    · exact hl
    · exact (sleep_carcass he).trans hl
  | v hf hs => exact (v_carcass ..).trans hl
  | processCreator hs he => exact processCreator_clears he
  | startProcess hs hn => exact hl

theorem scExec_finished (hi : Integral s) (garbage : Register → Word) (σ : Space) :
    (s.scExec garbage σ rest).view Thread.finished = s.view Thread.finished := by
  unfold scExec
  split_ifs
  · exact (view_update_same (by rfl) (by rfl)).trans (view_update_same (s := s) (by rfl) (by rfl))
  · apply (congrArg (Tag.finished ∘ ·) (fork_tags _ _ _ _)).trans
    rw [Function.comp_update]
    exact Function.update_eq_self_iff.mpr (hi.board.fresh s.created (le_refl _)).2.2.symm

theorem Step.finished_eq (hi : Integral s) (h : Step s a t) (ha : a ≠ .finish) :
    t.view Thread.finished = s.view Thread.finished := by
  by_cases he : a = .exec
  · subst he
    cases h with
    | exec hs => exact scExec_finished hi _ _
  cases h.change (fun hc => absurd hc he) with
  | quiet _ _ hq => exact congrArg (Tag.finished ∘ ·) hq.tags
  | fork hv _ _ _ =>
    apply (congrArg (Tag.finished ∘ ·) hv).trans
    rw [Function.comp_update]
    exact Function.update_eq_self_iff.mpr (hi.board.fresh s.created (le_refl _)).2.2.symm
  | exec => exact absurd rfl he
  | finish => exact absurd rfl ha

theorem Step.finished_finish (h : Step s .finish t) :
    t.view Thread.finished = Function.update (s.view Thread.finished) s.currentThread true := by
  cases h.change (fun hc => by cases hc) with
  | quiet _ hf _ => exact absurd rfl hf
  | finish hv _ _ _ =>
    apply (congrArg (Tag.finished ∘ ·) hv).trans
    rw [Function.comp_update]
    rfl

end Carcass

namespace Ledger

variable {x x' : Ledger}

def Initial (x : Ledger) : Prop := x.system.Initial ∧ x.events = [] ∧ x.found = [] ∧ x.deleted = []

structure Step (x : Ledger) (a : Action) (x' : Ledger) : Prop where
  step : x.system.Step a x'.system
  events : x'.events = x.system.handover a ++ x.events
  found : x'.found = x.system.assigned a ++ x.found
  deleted : x'.deleted = x.system.deletes a ++ x.deleted

def Reclaimed (x : Ledger) : Prop :=
  (∀ p ∈ x.deleted, p.1 ≠ p.2) ∧ ∀ u, (x.system.threads u).finished = true →
    (x.deleted.map Prod.snd).count u = 1 ∧ x.system.threadToBeDestroyed ≠ some u ∨
    (x.deleted.map Prod.snd).count u = 0 ∧ x.system.threadToBeDestroyed = some u

structure Inv (x : Ledger) : Prop where
  integral : x.system.Integral
  held : x.system.threadToBeDestroyed = held x.events
  found : x.found = Handovers.found x.events
  taken : x.deleted.map Prod.snd = taken x.events
  puts : ∀ u, (x.system.threads u).finished = true ↔ u ∈ puts x.events
  nodup : (Handovers.puts x.events).Nodup
  others : ∀ p ∈ x.deleted, p.1 ≠ p.2

theorem Initial.inv (h : x.Initial) : x.Inv := by
  obtain ⟨hs, he, hf, hd⟩ := h
  have hi := hs.integral
  obtain ⟨garbage, pending, hw, values, pooled, hb⟩ := hs
  refine ⟨hi, by rw [hb, he]; rfl, by rw [he, hf]; rfl, by rw [he, hd]; rfl, fun u => ?_, by rw [he]; exact .nil, ?_⟩
  · rw [hb, he]
    by_cases hu : u = main
    · simp [boot, hu, Thread.new, Handovers.puts]
    · simp [boot, hu, Thread.new, Handovers.puts]
  · rw [hd]
    intro p hp
    cases hp

theorem Inv.ne_current (hi : x.Inv) (hs : inSleep x.system.stack = false) :
    x.system.threadToBeDestroyed ≠ some x.system.currentThread := by
  intro hc
  rw [hi.held] at hc
  have hf := (hi.puts _).mpr (mem_puts_of_held hc)
  cases (hi.integral.unfinished hs).symm.trans hf

theorem Inv.finish (hi : x.Inv) (hs : x.Step .finish x') : x'.Inv := by
  have hstep := hs.step
  obtain ⟨rest, hst⟩ : ∃ rest, x.system.stack = .finish :: rest := by
    cases hstep with
    | finish hst he => exact ⟨_, hst⟩
  have hlive : (x.system.threads x.system.currentThread).finished = false :=
    hi.integral.unfinished (by rw [hst]; rfl)
  have hnew : x.system.currentThread ∉ Handovers.puts x.events := by
    intro hm
    cases hlive.symm.trans ((hi.puts _).mpr hm)
  have hfin := hstep.finished_finish
  have he := hs.events
  refine ⟨hi.integral.step hstep, ?_, ?_, ?_, fun u => ?_, ?_, ?_⟩
  · rw [he]
    exact hstep.held _ hi.held
  · rw [hs.found, he, hi.found]
    exact congrArg (· :: _) hi.held
  · rw [hs.deleted, he]
    exact hi.taken
  · rw [he]
    change x'.system.view Thread.finished u = true ↔ u ∈ x.system.currentThread :: Handovers.puts x.events
    rw [hfin, List.mem_cons, ← hi.puts]
    by_cases hu : u = x.system.currentThread
    · simp [hu]
    · rw [Function.update_of_ne hu]
      exact (or_iff_right hu).symm
  · rw [he]
    exact List.nodup_cons.mpr ⟨hnew, hi.nodup⟩
  · rw [hs.deleted]
    exact hi.others

theorem Inv.keep (hi : x.Inv) (hs : x.Step a x') (ha : a ≠ .finish)
    (hp : Handovers.puts x'.events = Handovers.puts x.events) (hf : x'.found = Handovers.found x'.events)
    (ht : x'.deleted.map Prod.snd = Handovers.taken x'.events) (ho : ∀ p ∈ x'.deleted, p.1 ≠ p.2) : x'.Inv := by
  have hfin := hs.step.finished_eq hi.integral ha
  constructor
  case integral => exact hi.integral.step hs.step
  case held =>
    rw [hs.events]
    exact hs.step.held _ hi.held
  case found => exact hf
  case taken => exact ht
  case puts =>
    intro u
    rw [hp]
    exact (iff_of_eq (congrArg (· = true) (congrFun hfin u))).trans (hi.puts u)
  case nodup =>
    rw [hp]
    exact hi.nodup
  case others => exact ho

theorem Inv.collect (hi : x.Inv) (ha : a = .switched ∨ a = .processCreator) (hs : x.Step a x') : x'.Inv := by
  have hsl : inSleep x.system.stack = false := by
    obtain rfl | rfl := ha
    · cases hs.step with
      | switched hst he => rw [hst]; rfl
    · cases hs.step with
      | processCreator hst he => rw [hst]; rfl
  have he : x'.events = .take :: x.events := by
    rw [hs.events]
    obtain rfl | rfl := ha <;> rfl
  have hf : x'.found = x.found := by
    rw [hs.found]
    obtain rfl | rfl := ha <;> rfl
  have hd : x'.deleted =
      x.system.threadToBeDestroyed.toList.map (fun u => (x.system.currentThread, u)) ++ x.deleted := by
    rw [hs.deleted]
    obtain rfl | rfl := ha <;> rfl
  refine hi.keep hs (by rintro rfl; simp at ha) (by rw [he]; rfl) ?_ ?_ ?_
  · rw [hf, he]
    exact hi.found
  · rw [hd, he, List.map_append, hi.taken, hi.held, List.map_map]
    exact congrArg (· ++ _) (List.map_id _)
  · rw [hd]
    intro p hp
    obtain hp | hp := List.mem_append.mp hp
    · obtain ⟨u, hu, rfl⟩ := List.mem_map.mp hp
      intro hc
      exact hi.ne_current hsl ((Option.mem_toList.mp hu).trans (congrArg some hc.symm))
    · exact hi.others p hp

theorem Inv.step (hi : x.Inv) (hs : x.Step a x') : x'.Inv := by
  by_cases hf : a = .finish
  · subst hf
    exact hi.finish hs
  by_cases ha : a = .switched ∨ a = .processCreator
  · exact hi.collect ha hs
  have he : x.system.handover a = [] ∧ x.system.assigned a = [] ∧ x.system.deletes a = [] := by
    cases a with
    | finish => exact absurd rfl hf
    | switched => exact absurd (.inl rfl) ha
    | processCreator => exact absurd (.inr rfl) ha
    | _ => exact ⟨rfl, rfl, rfl⟩
  have hev : x'.events = x.events := by rw [hs.events, he.1]; rfl
  have hd : x'.deleted = x.deleted := by rw [hs.deleted, he.2.2]; rfl
  refine hi.keep hs hf (by rw [hev]) ?_ ?_ ?_
  · rw [hs.found, he.2.1, hev]
    exact hi.found
  · rw [hd, hev]
    exact hi.taken
  · rw [hd]
    exact hi.others

theorem Inv.reclaimed_iff (hi : x.Inv) : x.Reclaimed ↔ Spaced x.events := by
  rw [← delivered_iff hi.nodup]
  unfold Reclaimed Delivered
  rw [hi.taken, hi.held, and_iff_right hi.others]
  exact forall_congr' fun u => imp_congr_left (hi.puts u)

/-- In every run, each `Finish` finds `threadToBeDestroyed` empty and every finished thread is reclaimed if and only if
between two calls of `Finish` some thread comes back from `SWITCH` or starts in `processCreator`. -/
theorem finished_reclaimed (h : Reachable Initial Step x) :
    ((∀ o ∈ x.found, o = none) ↔ Spaced x.events) ∧ (x.Reclaimed ↔ Spaced x.events) := by
  have hi : x.Inv := h.invariant (fun _ h0 => h0.inv) fun _ _ _ hi hs => hi.step hs
  rw [hi.found]
  exact ⟨found_none_iff _, hi.reclaimed_iff⟩

def next (x : Ledger) (a : Action) (t : ThreadSystem) : Ledger :=
  ⟨t, x.system.handover a ++ x.events, x.system.assigned a ++ x.found, x.system.deletes a ++ x.deleted⟩

inductive Call where
  | choice (c : Choice)
  | fork
  | yield

def perform (x : Ledger) (call : Call) : Option Ledger :=
  match call, x.system.stack with
  | .choice c, stack => (x.system.advance c).map (x.next (c.action stack))
  | .fork, .kernel :: rest => some (x.next .fork (x.system.fork (.new fun _ => 0) .kernel (.kernel :: rest)))
  | .yield, .kernel :: rest =>
    let s := x.system.control x.system.hw (.yield :: .kernel :: rest)
    some ((x.next .control s).next .yield (s.yield (.kernel :: rest)))
  | _, _ => none

theorem next_reachable (h : Reachable Initial Step x) (hs : x.system.Step a t) : Reachable Initial Step (x.next a t) :=
  .next a h ⟨hs, rfl, rfl, rfl⟩

theorem perform_reachable (h : Reachable Initial Step x) {call : Call} (hp : x.perform call = some x') :
    Reachable Initial Step x' := by
  unfold perform at hp
  split at hp
  · obtain ⟨t, ht, rfl⟩ := Option.map_eq_some_iff.mp hp
    exact next_reachable h (advance_action ht)
  · next hs =>
    obtain rfl := Option.some.inj hp
    exact next_reachable h (.fork hs)
  · next rest hs =>
    obtain rfl := Option.some.inj hp
    have hc : Control x.system.assertMain x.system.hw x.system.stack x.system.hw (.yield :: .kernel :: rest) := by
      rw [hs]
      exact .kernelYield
    exact next_reachable (next_reachable h (.control hc)) (.yield (setStack_stack _ _))
  · cases hp

theorem performs_reachable {calls : List Call} (h : Reachable Initial Step x) (hp : calls.foldlM perform x = some x') :
    Reachable Initial Step x' := by
  induction calls generalizing x with
  | nil =>
    obtain rfl := Option.some.inj hp
    exact h
  | cons call calls ih =>
    obtain ⟨y, hy, hp⟩ := Option.bind_eq_some_iff.mp hp
    exact ih (perform_reachable h hy) hp

def boots : Ledger := ⟨cleared, [], [], []⟩

theorem boots_reachable : Reachable Initial Step boots := .start ⟨⟨_, _, _, _, _, rfl⟩, rfl, rfl, rfl⟩

def go (n : Nat) : List Call := List.replicate n (.choice .go)

theorem finished_reclaimed_yield : ∃ x : Ledger, x.deleted = [(0, 1)] ∧ (x.system.threads 0).finished = true ∧
    (x.system.threads 1).finished = true ∧ (∀ o ∈ x.found, o = none) ∧ x.Reclaimed := by
  have hrun : ((go 2 ++ Call.fork :: go 2 ++ Call.yield :: go 10).foldlM perform boots).map
      (fun x => (x.deleted, (x.system.threads 0).finished, (x.system.threads 1).finished, x.events)) =
      some ([(0, 1)], true, true, [.put 0, .take, .put 1]) := by decide +kernel
  obtain ⟨x, hx, he⟩ := Option.map_eq_some_iff.mp hrun
  simp only [Prod.mk.injEq] at he
  obtain ⟨hd, hmain, hone, hev⟩ := he
  have hs : Spaced x.events := by rw [hev]; decide
  obtain ⟨hf, hr⟩ := finished_reclaimed (performs_reachable boots_reachable hx)
  exact ⟨x, hd, hmain, hone, hf.mpr hs, hr.mpr hs⟩

/-- Thread 2 starts when thread 1 has just finished, and finishes before any thread comes back from `SWITCH`: thread 1
is never deleted. -/
theorem finished_thread_lost : ∃ x : Ledger, Reachable Initial Step x ∧ ¬(∀ o ∈ x.found, o = none) ∧
    ¬x.Reclaimed := by
  have hrun : ((go 2 ++ Call.fork :: go 2 ++ Call.fork :: go 2 ++ Call.yield :: go 11).foldlM perform boots).map
      (fun x => (x.found, x.deleted, (x.system.threads 1).finished, x.system.threadToBeDestroyed)) =
      some ([some 1, none], [(0, 2)], true, none) := by decide +kernel
  obtain ⟨x, hx, he⟩ := Option.map_eq_some_iff.mp hrun
  simp only [Prod.mk.injEq] at he
  obtain ⟨hf, hd, hone, hw⟩ := he
  refine ⟨x, performs_reachable boots_reachable hx, fun hc => ?_, fun hc => ?_⟩
  · rw [hf] at hc
    cases hc (some 1) (List.mem_cons_self ..)
  · have hr := hc.2 1 hone
    rw [hd, hw] at hr
    simp at hr

end Ledger

end Nachos.ThreadSystem
