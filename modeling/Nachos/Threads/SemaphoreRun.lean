import Nachos.Threads.Synch
import Nachos.Lib.Run
import Mathlib.Data.List.Nodup

namespace Nachos.SemaphoreRun

variable {T : Type}

/-- A semaphore and the threads that `V` has made ready and that have not tested the value again. -/
structure State (T : Type) where
  semaphore : Semaphore T
  woken : List T
  completedP : Nat
  completedV : Nat

inductive Action (T : Type) where
  | p (t : T)
  | retest (t : T)
  | v

namespace State

def new (initialValue : Int) : State T := ⟨.new initialValue, [], 0, 0⟩

def test (s : State T) (t : T) : State T :=
  match s.semaphore.tryP t with
  | (true, semaphore) => { s with semaphore, completedP := s.completedP + 1 }
  | (false, semaphore) => { s with semaphore }

def wake (s : State T) : State T :=
  match s.semaphore.v with
  | (thread, semaphore) =>
    { s with semaphore, woken := s.woken ++ thread.toList, completedV := s.completedV + 1 }

inductive Step [DecidableEq T] (s : State T) : Action T → State T → Prop
  | p {t : T} (hq : t ∉ s.semaphore.queue) (hw : t ∉ s.woken) : Step s (.p t) (s.test t)
  | retest {t : T} (hw : t ∈ s.woken) : Step s (.retest t) (test { s with woken := s.woken.erase t } t)
  | v : Step s .v s.wake

def Room (s : State T) (a : Action T) : Prop := a = .v → s.semaphore.value ≠ CInt.intMax

def RoomStep [DecidableEq T] (s : State T) (a : Action T) (s' : State T) : Prop := s.Room a ∧ s.Step a s'

structure Inv (v0 : Int) (s : State T) : Prop where
  nonneg : 0 ≤ s.semaphore.value
  int : s.semaphore.value ≤ CInt.intMax
  balance : s.semaphore.value = v0 + s.completedV - s.completedP
  queue : s.semaphore.queue.Nodup
  woken : s.woken.Nodup
  apart : ∀ t ∈ s.woken, t ∉ s.semaphore.queue
  enough : s.semaphore.queue ≠ [] → s.semaphore.value ≤ s.woken.length

variable {v0 : Int} {s s' : State T} {t : T}

theorem Inv.new (h0 : 0 ≤ v0) (hmax : v0 ≤ CInt.intMax) : Inv v0 (new v0 : State T) :=
  ⟨h0, hmax, by simp [State.new, Semaphore.new], List.nodup_nil, List.nodup_nil, by simp [State.new],
    by simp [State.new, Semaphore.new]⟩

theorem test_zero (h : s.semaphore.value = 0) :
    s.test t = { s with semaphore := { s.semaphore with queue := s.semaphore.queue ++ [t] } } := by
  simp [test, Semaphore.tryP, h]

theorem test_pos (h : 0 < s.semaphore.value) (hmax : s.semaphore.value ≤ CInt.intMax) :
    s.test t = { s with
      semaphore := { s.semaphore with value := s.semaphore.value - 1 }, completedP := s.completedP + 1 } := by
  have hw : CInt.wrap (s.semaphore.value - 1) = s.semaphore.value - 1 := CInt.wrap_of_range (by omega) (by omega)
  simp [test, Semaphore.tryP, h.ne', hw]

theorem Inv.test (h : Inv v0 s) {woken : List T} (hsub : woken.Sublist s.woken)
    (hlen : s.woken.length ≤ woken.length + 1) (hq : t ∉ s.semaphore.queue) (hw : t ∉ woken) :
    Inv v0 (State.test { s with woken } t) := by
  have hn := h.nonneg
  have hb := h.balance
  have hi := h.int
  obtain h0 | hpos := h.nonneg.eq_or_lt
  · rw [test_zero (s := { s with woken }) h0.symm]
    refine ⟨h.nonneg, h.int, h.balance, ?_, h.woken.sublist hsub, ?_, ?_⟩
    · exact List.nodup_append.mpr ⟨h.queue, List.nodup_singleton t, fun a ha b hb => by
        obtain rfl := List.mem_singleton.mp hb
        exact fun he => hq (he ▸ ha)⟩
    · intro u hu
      simp only [List.mem_append, List.mem_singleton, not_or]
      exact ⟨h.apart u (hsub.subset hu), fun he => hw (he ▸ hu)⟩
    · intro _
      change s.semaphore.value ≤ _
      rw [← h0]
      exact Int.natCast_nonneg _
  · rw [test_pos (s := { s with woken }) hpos h.int]
    refine ⟨Int.le_sub_one_of_lt hpos, ?_, ?_, h.queue, h.woken.sublist hsub, fun u hu => h.apart u (hsub.subset hu), ?_⟩
    · change s.semaphore.value - 1 ≤ _
      omega
    · change s.semaphore.value - 1 = v0 + s.completedV - ((s.completedP + 1 : Nat) : Int)
      omega
    · intro hne
      have he := h.enough hne
      change s.semaphore.value - 1 ≤ (woken.length : Int)
      omega

theorem Inv.wake (h : Inv v0 s) (hroom : s.semaphore.value ≠ CInt.intMax) : Inv v0 s.wake := by
  have hn := h.nonneg
  have hi := h.int
  have hb := h.balance
  have hw : CInt.wrap (s.semaphore.value + 1) = s.semaphore.value + 1 := CInt.wrap_of_range (by omega) (by omega)
  have hbal : s.semaphore.value + 1 = v0 + ((s.completedV + 1 : Nat) : Int) - s.completedP := by
    push_cast
    omega
  cases hq : s.semaphore.queue with
  | nil =>
    have he : s.wake = { s with semaphore := ⟨s.semaphore.value + 1, []⟩, completedV := s.completedV + 1 } := by
      simp [State.wake, Semaphore.v, hq, hw]
    rw [he]
    exact ⟨Int.le_add_one hn, lt_of_le_of_ne hi hroom, hbal, List.nodup_nil, h.woken, by simp, by simp⟩
  | cons t rest =>
    have he : s.wake = { s with
        semaphore := ⟨s.semaphore.value + 1, rest⟩, woken := s.woken ++ [t], completedV := s.completedV + 1 } := by
      simp [State.wake, Semaphore.v, hq, hw]
    have hnd := h.queue
    have hap := h.apart
    rw [hq] at hnd hap
    obtain ⟨hrest, hnd⟩ := List.nodup_cons.mp hnd
    have henough := h.enough (by simp [hq])
    rw [he]
    refine ⟨Int.le_add_one hn, lt_of_le_of_ne hi hroom, hbal, hnd, ?_, ?_, fun _ => ?_⟩
    · refine List.nodup_append.mpr ⟨h.woken, List.nodup_singleton t, fun a ha b hb => ?_⟩
      obtain rfl := List.mem_singleton.mp hb
      exact fun he => hap a ha (he ▸ List.mem_cons_self ..)
    · intro u hu
      obtain hu | hu := List.mem_append.mp hu
      · exact fun hr => hap u hu (List.mem_cons_of_mem _ hr)
      · exact List.mem_singleton.mp hu ▸ hrest
    · change s.semaphore.value + 1 ≤ ((s.woken ++ [t]).length : Int)
      simp only [List.length_append, List.length_singleton, Nat.cast_add, Nat.cast_one]
      omega

theorem Inv.step [DecidableEq T] {a : Action T} (h : Inv v0 s) (hs : s.RoomStep a s') : Inv v0 s' := by
  obtain ⟨hroom, hs⟩ := hs
  cases hs with
  | p hq hw => exact h.test (List.Sublist.refl _) (by omega) hq hw
  | @retest t hw =>
    have hlen := List.length_erase_of_mem hw
    have hpos := List.length_pos_of_mem hw
    exact h.test List.erase_sublist (by omega) (h.apart t hw) (h.woken.not_mem_erase)
  | v => exact h.wake (hroom rfl)

/-- The semaphore keeps its promise as long as no `V` is called at `INT_MAX`; that `V` makes it negative. -/
theorem semaphore_correct [DecidableEq T] {v0 : Int} (h0 : 0 ≤ v0) (hmax : v0 ≤ CInt.intMax) {s : State T}
    (h : Reachable (fun s₀ => s₀ = State.new v0) RoomStep s) :
    0 ≤ s.semaphore.value ∧ s.semaphore.value = v0 + s.completedV - s.completedP ∧ s.semaphore.queue.Nodup ∧
      (s.semaphore.queue ≠ [] → s.semaphore.value ≤ s.woken.length) ∧
      ¬(0 < s.semaphore.value ∧ s.semaphore.queue ≠ [] ∧ s.woken = []) ∧
      (s.semaphore.value = CInt.intMax → s.wake.semaphore.value < 0) := by
  have hi : Inv v0 s := h.invariant (fun _ hs => hs ▸ Inv.new h0 hmax) (fun _ _ _ hi hs => hi.step hs)
  refine ⟨hi.nonneg, hi.balance, hi.queue, hi.enough, ?_, fun hv => ?_⟩
  · rintro ⟨hpos, hq, hw⟩
    have he := hi.enough hq
    rw [hw] at he
    simp only [List.length_nil, Nat.cast_zero] at he
    omega
  · change CInt.wrap (s.semaphore.value + 1) < 0
    rw [hv]
    decide

theorem semaphore_correct_woken : ∃ s : State Nat, s.woken = [7] ∧ 0 ≤ s.semaphore.value ∧
    s.semaphore.value = 0 + s.completedV - s.completedP := by
  have h1 : Reachable (fun s₀ => s₀ = State.new 0) RoomStep (⟨⟨0, [7]⟩, [], 0, 0⟩ : State Nat) :=
    .next (.p 7) (.start rfl) ⟨by simp [Room], .p (by simp [State.new, Semaphore.new]) (by simp [State.new])⟩
  have h2 : Reachable (fun s₀ => s₀ = State.new 0) RoomStep (⟨⟨1, []⟩, [7], 0, 1⟩ : State Nat) :=
    .next .v h1 ⟨fun _ => by decide, .v⟩
  have h := semaphore_correct (by decide) (by decide) h2
  exact ⟨_, rfl, h.1, h.2.1⟩

theorem semaphore_overflow : ∃ s : State Nat,
    Reachable (fun s₀ => s₀ = State.new CInt.intMax) Step s ∧ ¬0 ≤ s.semaphore.value :=
  ⟨_, .next .v (.start rfl) .v, by decide⟩

end State

end Nachos.SemaphoreRun
