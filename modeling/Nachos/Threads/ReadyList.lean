import Nachos.Threads.Board
import Nachos.Threads.Switch

namespace Nachos

section Purge

variable {t u : Tid} {l : List Tid}

theorem Kernel.purge_round {n i : Nat} {x : Tid} {rest : List Tid} (hi : i < rest.length + 1) :
    purge t (n + 1) i (x :: rest) = purge t n (i + 1) (if x = t then rest else rest ++ [x]) := if_pos hi

theorem Kernel.purge_done {n i : Nat} (hi : l.length ≤ i) : purge t n i l = l := by
  cases n with
  | zero => rfl
  | succ n => exact if_neg (Nat.not_lt_of_le hi)

theorem Kernel.purge_invariant {P : List Tid → Prop}
    (hround : ∀ x rest, P (x :: rest) → P (if x = t then rest else rest ++ [x])) {n i : Nat} (h : P l) :
    P (purge t n i l) := by
  induction n generalizing i l with
  | zero => exact h
  | succ n ih =>
    by_cases hi : i < l.length
    · obtain ⟨x, rest, rfl⟩ := List.exists_cons_of_length_pos (Nat.zero_lt_of_lt hi)
      rw [purge_round hi]
      apply ih
      exact hround x rest h
    · rw [purge_done (Nat.le_of_not_lt hi)]
      exact h

theorem Kernel.mem_of_mem_purge {n i : Nat} (h : u ∈ purge t n i l) : u ∈ l := by
  apply purge_invariant (P := fun l' => ∀ v ∈ l', v ∈ l) ?_ (fun _ hv => hv) u h
  intro x rest hsub v hv
  apply hsub
  split_ifs at hv
  · exact List.mem_cons_of_mem _ hv
  · exact (List.perm_append_singleton x rest).mem_iff.mp hv

theorem Kernel.nodup_purge {n i : Nat} (h : l.Nodup) : (purge t n i l).Nodup := by
  apply purge_invariant ?_ h
  intro x rest hl
  split_ifs
  · exact (List.nodup_cons.mp hl).2
  · exact (List.perm_append_singleton x rest).nodup_iff.mpr hl

theorem Kernel.not_mem_purge {b : List Tid} (h : (l ++ b).Nodup) (hb : t ∉ b) {n : Nat} (hn : l.length ≤ n) :
    t ∉ purge t n b.length (l ++ b) := by
  induction l generalizing b n with
  | nil => exact fun hm => hb (mem_of_mem_purge hm)
  | cons x rest ih =>
    obtain ⟨n, rfl⟩ : ∃ m, n = m + 1 := ⟨n - 1, (Nat.succ_pred_eq_of_pos (Nat.lt_of_lt_of_le (by simp) hn)).symm⟩
    rw [List.cons_append, purge_round (by rw [List.length_append]; omega)]
    rw [List.cons_append] at h
    split_ifs with ht
    · subst ht
      exact fun hm => (List.nodup_cons.mp h).1 (mem_of_mem_purge hm)
    · have hi := ih (b := b ++ [x]) (n := n) ?_ ?_ ?_
      · simpa using hi
      · rw [← List.append_assoc]
        exact (List.perm_append_singleton x _).nodup_iff.mpr h
      · simpa [hb] using Ne.symm ht
      · simpa using hn

end Purge

section Stack

/-- What a thread with this stack waits for, once it is blocked. -/
def waiting : List Frame → Option Wait
  | .setLevel _ :: rest | .handler _ :: rest | .idle :: rest | .sleep :: rest | .switched :: rest => waiting rest
  | .p semaphore _ :: _ => some (.semaphore semaphore)
  | .joining child :: _ => some (.join child)
  | _ => none

variable {assertMain : Bool} {hw hw' : Hardware} {stack stack' : List Frame}

theorem Control.inSleep_eq (h : Control assertMain hw stack hw' stack') (hn : WellNested stack) :
    inSleep stack' = inSleep stack := by
  cases h with
  | enable h =>
    obtain ⟨-, ht, -⟩ := Interrupt.setLevel_ok h
    obtain hp | ⟨hoff, -⟩ := hn.1.2
    · exact ((plain_facts hp).2.1).symm
    · rw [(ht.mp rfl).1] at hoff
      cases hoff
  | fire hf hd h => rfl
  | endTick h hy =>
    obtain hp | ⟨-, r, rfl⟩ := hn.1
    · exact (plain_facts hp).2.1
    · rfl
  | tickYielded =>
    obtain hp | ⟨-, r, rfl⟩ := hn.1
    · exact (plain_facts hp).2.1
    · rfl
  | endIdle h =>
    obtain ⟨r, rfl⟩ := hn.1
    rfl
  | trapReturn =>
    obtain hp | ⟨r, rfl⟩ := hn.1
    · exact (plain_facts hp).2.1
    · rfl
  | exceptionHandler h => exact (plain_facts (handlerCode_nested h hn).2).2.1
  | joined => exact (plain_facts hn.1.1).2.1
  | execFails => exact (plain_facts hn.1).2.1
  | kernelReturn => exact (plain_facts hn.1).2.1
  | _ => rfl

theorem Control.waiting_eq (h : Control assertMain hw stack hw' stack') (hn : WellNested stack)
    (hs : inSleep stack = true) : waiting stack' = waiting stack := by
  have hs' := (h.inSleep_eq hn).trans hs
  cases h with
  | enable h => cases hs'
  | setLevel h => rfl
  | @fire f _ _ _ _ _ hf hd h =>
    cases f with
    | idle => rfl
    | oneTick old => cases hs
    | _ => cases hf
  | @schedule f _ _ _ _ _ hf h => rfl
  | endIdle h => rfl
  | yieldOnReturn h => rfl
  | handlerReturn => rfl
  | _ => cases hs

end Stack

def Thread.waits (u : Thread) : Option Wait :=
  if u.status = .blocked ∧ u.finished = false then waiting u.stack else none

theorem Thread.waits_of_ne {u : Thread} (h : u.status ≠ .blocked) : u.waits = none := if_neg fun hb => h hb.1

namespace ThreadSystem

def board (s : ThreadSystem) : Board where
  status := s.view Thread.status
  finished := s.view Thread.finished
  waits := s.view Thread.waits
  parent := s.view Thread.parent
  queue := fun k => (s.semaphores k).queue
  ready := s.readyList
  active := s.activeThreads
  current := s.currentThread
  created := s.created

variable {s t : ThreadSystem} {stack rest : List Frame}

theorem board_setStack (h : s.current.status = .blocked → waiting stack = waiting s.stack) :
    (s.setStack stack).board = s.board := by
  have hw : ({ s.current with stack } : Thread).waits = s.current.waits := by
    unfold Thread.waits
    split_ifs with hb
    · exact h hb.1
    · rfl
  unfold board
  congr 1
  · exact view_update_same (s := s) rfl (by rfl)
  · exact view_update_same (s := s) rfl (by rfl)
  · exact view_update_same (s := s) rfl hw
  · exact view_update_same (s := s) rfl (by rfl)

theorem board_modify {u : Tid} {f : Thread → Thread} (hs : (f (s.threads u)).status = (s.threads u).status)
    (hf : (f (s.threads u)).finished = (s.threads u).finished) (hst : (f (s.threads u)).stack = (s.threads u).stack)
    (hp : (f (s.threads u)).parent = (s.threads u).parent) : (s.modify u f).board = s.board := by
  have hw : (f (s.threads u)).waits = (s.threads u).waits := by rw [Thread.waits, hs, hf, hst, ← Thread.waits]
  unfold board
  congr 1
  · exact view_update_same (s := s) rfl hs
  · exact view_update_same (s := s) rfl hf
  · exact view_update_same (s := s) rfl hw
  · exact view_update_same (s := s) rfl hp

theorem sleep_board (h : s.sleep rest = .ok t) :
    t.board = s.board.block (if s.current.finished = false then waiting rest else none) := by
  obtain ⟨-, rfl⟩ := sleep_ok h
  have ht : ((s.setStatus s.currentThread .blocked).setStack (.sleep :: rest)).threads =
      Function.update s.threads s.currentThread { s.current with status := .blocked, stack := .sleep :: rest } := by
    simp [setStack, setStatus, modify, current]
  have hw : ({ s.current with status := .blocked, stack := .sleep :: rest } : Thread).waits =
      if s.current.finished = false then waiting rest else none := by
    simp [Thread.waits, waiting]
  unfold board Board.block
  congr 1
  · exact view_update ht
  · exact view_update_same ht (by rfl)
  · exact (view_update ht).trans (by rw [hw])
  · exact view_update_same ht (by rfl)

theorem wake_board {u : Tid} {x : Thread} (ht : t.threads = Function.update s.threads u x) (hs : x.status = .ready)
    (hf : x.finished = (s.threads u).finished) (hp : x.parent = (s.threads u).parent)
    (ho : t.board = { t.board with
      queue := s.board.queue, active := s.activeThreads, current := s.currentThread, created := s.created }) :
    t.board = s.board.wake u t.readyList := by
  have hstatus := view_update (g := Thread.status) ht
  have hwaits := view_update (g := Thread.waits) ht
  rw [hs] at hstatus
  rw [Thread.waits_of_ne (by simp [hs])] at hwaits
  rw [ho]
  unfold board Board.wake
  rw [hstatus, hwaits, view_update_same (g := Thread.finished) ht hf, view_update_same (g := Thread.parent) ht hp]

theorem readyToRun_board (u : Tid) : (s.readyToRun u).board = s.board.wake u (s.readyList ++ [u]) :=
  wake_board (x := { s.threads u with status := .ready }) rfl rfl rfl rfl rfl

theorem wakeUpFromJoin_board (u : Tid) : (s.wakeUpFromJoin u).board = s.board.wake u (u :: s.readyList) :=
  wake_board (x := { s.threads u with isJoined := false, status := .ready }) rfl rfl rfl rfl rfl

theorem wakeParent_board : s.wakeParent.board = s.board.wakeParent := by
  have hp : s.board.parent s.board.current = s.current.parent := rfl
  unfold wakeParent Board.wakeParent
  rw [hp]
  cases s.current.parent with
  | none => rfl
  | some parent => exact wakeUpFromJoin_board parent

theorem run_board {nextThread : Tid} (hn : (s.threads nextThread).status = .ready)
    (hw : s.current.status = .blocked → waiting rest = waiting s.stack) :
    (s.run nextThread rest).board = s.board.dispatch nextThread s.readyList := by
  have hout : (s.current.switchOut s.hw.registers rest).waits = s.current.waits := by
    unfold Thread.waits
    change (if s.current.status = .blocked ∧ s.current.finished = false then waiting rest else none) = _
    split_ifs with hb
    · exact hw hb.1
    · rfl
  let s' := s.modify s.currentThread (fun u => u.switchOut s.hw.registers rest)
  have hs' : s'.threads = Function.update s.threads s.currentThread (s.current.switchOut s.hw.registers rest) := rfl
  have ht : (s.run nextThread rest).threads =
    Function.update s'.threads nextThread { s'.threads nextThread with status := .running } := rfl
  have hnone : s'.view Thread.waits nextThread = none := by
    rw [view_update_same hs' hout]
    exact Thread.waits_of_ne (by simp [hn])
  unfold board Board.dispatch
  congr 1
  · exact (view_update ht).trans (by rw [view_update_same hs' (by rfl)])
  · exact (view_update_same ht (by rfl)).trans (view_update_same hs' (by rfl))
  · refine (view_update_same ht ?_).trans (view_update_same hs' hout)
    exact (Thread.waits_of_ne (by simp)).trans hnone.symm
  · exact (view_update_same ht (by rfl)).trans (view_update_same hs' (by rfl))

theorem fork_stack (thread : Thread) (func : Frame) :
    (s.fork thread func rest).stack = .setLevel s.hw.interrupt.level :: rest := setStack_stack ..

theorem fork_board {thread : Thread} (func : Frame) (hne : s.currentThread ≠ s.created) (hf : thread.finished = false)
    (hp : thread.parent = none) (hw : s.current.status ≠ .blocked)
    (hnew : (s.threads s.created).status = .justCreated ∧ (s.threads s.created).parent = none ∧
      (s.threads s.created).finished = false) :
    (s.fork thread func rest).board = s.board.spawn s.activeThreads := by
  obtain ⟨hst, hpar, hfin⟩ := hnew
  let x : Thread := { thread with status := .ready, stack := stackAllocate func }
  let s₁ : ThreadSystem := { s with
    hw := s.hw.disable, created := s.created + 1, readyList := s.readyList ++ [s.created]
    threads := Function.update s.threads s.created x }
  have ht : (s.fork thread func rest) = s₁.setStack (.setLevel s.hw.interrupt.level :: rest) := by
    simp [fork, readyToRun, setStatus, modify, s₁, x]
  have hcur : s₁.current = s.current := Function.update_of_ne hne ..
  have hs₁ : s₁.threads = Function.update s.threads s.created x := rfl
  rw [ht, board_setStack (fun hb => absurd (hcur ▸ hb) hw)]
  have hold : s.view Thread.waits s.created = none := Thread.waits_of_ne (by simp [hst])
  unfold board Board.spawn
  congr 1
  · exact view_update (g := Thread.status) hs₁
  · exact view_update_same hs₁ (hf.trans hfin.symm)
  · exact view_update_same hs₁ ((Thread.waits_of_ne (by simp [x])).trans hold.symm)
  · exact view_update_same hs₁ (hp.trans hpar.symm)

theorem modify_finished_board : (s.modify s.currentThread (fun u => { u with finished := true })).board.block none =
    { s.board.block none with finished := Function.update s.board.finished s.currentThread true } := by
  have ht : (s.modify s.currentThread (fun u => { u with finished := true })).threads =
    Function.update s.threads s.currentThread { s.current with finished := true } := rfl
  have hw : Function.update ((s.modify s.currentThread (fun u => { u with finished := true })).view Thread.waits)
      s.currentThread none = Function.update (s.view Thread.waits) s.currentThread none := by
    rw [view_update (g := Thread.waits) ht, Function.update_idem]
  unfold Board.block
  congr 1
  · change Function.update (view Thread.status _) s.currentThread _ = _
    rw [view_update_same (g := Thread.status) ht (by rfl)]
    rfl
  · exact view_update (g := Thread.finished) ht
  · exact view_update_same (g := Thread.parent) ht (by rfl)

theorem finish_board (h : s.finish rest = .ok t) : t.board =
    s.board.finish (Kernel.purge s.currentThread s.activeThreads.length 0 s.activeThreads) := by
  let s₀ : ThreadSystem := { s with hw := s.hw.disable, threadToBeDestroyed := some s.currentThread }
  have hs₀ : s₀.wakeParent.board = s.board.wakeParent := wakeParent_board
  have hcur : s₀.wakeParent.currentThread = s.currentThread :=
    (congrArg Board.current hs₀).trans s.board.wakeParent_current
  have hact : s₀.wakeParent.activeThreads = s.activeThreads :=
    (congrArg Board.active hs₀).trans s.board.wakeParent_active
  have h' : (s₀.wakeParent.purge.modify s₀.wakeParent.purge.currentThread
      (fun u => { u with finished := true })).sleep (.finish :: rest) = .ok t := by
    change (s₀.wakeParent.purge.modify s₀.wakeParent.currentThread _).sleep _ = _
    rw [hcur]
    exact h
  rw [sleep_board h', if_neg (by simp [current, modify]), modify_finished_board]
  have hs₁ : s₀.wakeParent.purge.board = { s.board.wakeParent with
      active := Kernel.purge s.currentThread s.activeThreads.length 0 s.activeThreads } := by
    rw [← hs₀, ← hcur, ← hact]
    rfl
  have hc₁ : s₀.wakeParent.purge.currentThread = s.currentThread := hcur
  rw [hs₁, hc₁]
  unfold Board.finish Board.block
  simp only [Board.wakeParent_finished]
  rfl

theorem joinTo_board (child : Tid) : (s.joinTo child).board =
    { s.board with parent := Function.update s.board.parent child (some s.currentThread) } := by
  let s₁ := s.modify child (fun u => { u with parent := some s.currentThread })
  have hs₁ : s₁.threads = Function.update s.threads child { s.threads child with parent := some s.currentThread } := rfl
  have ht : (s.joinTo child).threads =
    Function.update s₁.threads s.currentThread { s₁.threads s.currentThread with isJoined := true } := rfl
  unfold board
  congr 1
  · exact (view_update_same ht (by rfl)).trans (view_update_same hs₁ (by rfl))
  · exact (view_update_same ht (by rfl)).trans (view_update_same hs₁ (by rfl))
  · exact (view_update_same ht (by rfl)).trans (view_update_same hs₁ (by rfl))
  · exact (view_update_same ht (by rfl)).trans (view_update hs₁)

theorem join_board {child : Tid} (hf : s.current.finished = false)
    (h : (s.joinTo child).sleep (.joining child :: rest) = .ok t) : t.board = s.board.join child := by
  have hfin : (s.joinTo child).current.finished = false := by
    have hb := congrFun (congrArg Board.finished (joinTo_board (s := s) child)) s.currentThread
    exact hb.trans hf
  rw [sleep_board h, if_pos hfin, joinTo_board]
  rfl

theorem setSemaphore_board (k : Nat) (sem : Semaphore Tid) :
    (s.setSemaphore k sem).board = { s.board with queue := Function.update s.board.queue k sem.queue } := by
  unfold board setSemaphore
  congr 1
  exact Function.comp_update Semaphore.queue s.semaphores k sem

theorem v_board (semaphore : Nat) (hw : s.current.status = .blocked → waiting rest = waiting s.stack) :
    (s.v semaphore rest).board = s.board.dequeue semaphore := by
  have hb : s.board.queue semaphore = (s.semaphores semaphore).queue := rfl
  unfold v Semaphore.v Board.dequeue
  rw [hb]
  dsimp only
  cases hq : (s.semaphores semaphore).queue with
  | nil =>
    simp only [List.head?_nil, List.tail_nil]
    rw [board_setStack (by exact hw), setSemaphore_board]
    refine congrArg (fun queue => { s.board with queue }) ?_
    rw [hq] at hb
    exact (congrArg (Function.update s.board.queue semaphore) hb.symm).trans (Function.update_eq_self ..)
  | cons u queue =>
    simp only [List.head?_cons, List.tail_cons]
    rw [board_setStack, readyToRun_board, setSemaphore_board]
    · rfl
    · -- a thread that this `V` wakes is no longer blocked
      intro hblocked
      by_cases hu : s.currentThread = u
      · simp [current, readyToRun, setStatus, modify, setSemaphore, hu] at hblocked
      · simp only [current, stack, readyToRun, setStatus, modify, setSemaphore,
          Function.update_of_ne hu] at hblocked ⊢
        exact hw hblocked

theorem yield_board {nextThread : Tid} {readyList : List Tid} (rest : List Frame) (hr : s.readyList = nextThread :: readyList)
    (hn : (s.threads nextThread).status = .ready) : (s.yield rest).board =
      (s.board.preempt readyList).dispatch nextThread (readyList ++ [s.currentThread]) ∧
      (s.yield rest).currentThread = nextThread ∧ (s.yield rest).view Thread.stack = Function.update
        (s.view Thread.stack) s.currentThread (.switched :: .setLevel s.hw.interrupt.level :: rest) := by
  let s₁ : ThreadSystem := { s with hw := s.hw.disable, readyList }
  have he : s.yield rest =
      (s₁.readyToRun s.currentThread).run nextThread (.setLevel s.hw.interrupt.level :: rest) := by
    simp only [yield, hr]
    rfl
  have hcur : (s₁.readyToRun s.currentThread).current.status = .ready := by
    simp [s₁, current, readyToRun, setStatus, modify]
  have hnext : ((s₁.readyToRun s.currentThread).threads nextThread).status = .ready := by
    by_cases hu : nextThread = s.currentThread
    · rw [hu]
      exact hcur
    · simp [s₁, readyToRun, setStatus, modify, hu, hn]
  rw [he]
  refine ⟨?_, rfl, (run_frames _).trans ?_⟩
  rotate_left
  · rw [view_update_same (s := s) rfl (by rfl)]
    rfl
  rw [run_board hnext (fun hb => by cases hcur.symm.trans hb), readyToRun_board]
  rfl

theorem found_cases {p : Tid → Prop} [DecidablePred p] (l : List Tid) (found : Option Tid) :
    (∃ u ∈ l, p u ∧ l.foldl (fun found t => if p t then some t else found) found = some u) ∨
    (∀ u ∈ l, ¬p u) ∧ l.foldl (fun found t => if p t then some t else found) found = found := by
  induction l generalizing found with
  | nil => exact .inr ⟨by simp, rfl⟩
  | cons x l ih =>
    obtain ⟨u, hu, hp, he⟩ | ⟨hn, he⟩ := ih (if p x then some x else found)
    · exact .inl ⟨u, List.mem_cons_of_mem _ hu, hp, he⟩
    · by_cases hx : p x
      · rw [if_pos hx] at he
        exact .inl ⟨x, List.mem_cons_self .., hx, by rw [List.foldl_cons, if_pos hx, he]⟩
      · rw [if_neg hx] at he
        refine .inr ⟨by simpa [hx] using hn, ?_⟩
        rw [List.foldl_cons, if_neg hx, he]

theorem mem_of_joinTarget {child : Tid} (h : s.joinTarget = some child) : child ∈ s.activeThreads := by
  unfold joinTarget at h
  dsimp only at h
  split at h
  · cases h
  · split at h
    · cases h
    · next c hc =>
      split at h
      · cases h
      · obtain rfl := Option.some.inj h
        obtain ⟨u, hu, -, he⟩ | ⟨-, he⟩ := found_cases (p := fun t => (s.threads t).id = _) s.activeThreads none
        · obtain rfl := Option.some.inj (hc.symm.trans he)
          exact hu
        · cases hc.symm.trans he

structure Integral (s : ThreadSystem) : Prop where
  disciplined : Disciplined s
  transparent : Transparent s
  board : s.board.Inv
  asleep : inSleep s.stack = true ↔ s.current.status ≠ .running

theorem Integral.running (h : Integral s) (hs : inSleep s.stack = false) : s.current.status = .running := by
  by_contra hne
  rw [h.asleep.mpr hne] at hs
  cases hs

theorem Integral.unfinished (h : Integral s) (hs : inSleep s.stack = false) : s.current.finished = false := by
  by_contra hf
  have hb := h.board.finished s.currentThread (Bool.eq_true_of_not_eq_false hf)
  cases (h.running hs).symm.trans hb

structure Outcome (s : ThreadSystem) (a : Action) (t : ThreadSystem) : Prop where
  move : ∃ l, Board.Move s.board l t.board ∧
    ∀ child, l = some child → a = .join ∧ s.joinTarget = some child
  asleep : inSleep t.stack = true ↔ t.current.status ≠ .running

variable {a : Action}

theorem Outcome.stay (h : Integral s) (hb : t.board = s.board) (hi : inSleep t.stack = inSleep s.stack) :
    Outcome s a t := by
  have hs : t.current.status = s.current.status := congrArg (fun b : Board => b.status b.current) hb
  refine ⟨⟨none, hb ▸ .stay, by simp⟩, ?_⟩
  rw [hi, hs]
  exact h.asleep

theorem Outcome.sets {s' : ThreadSystem} (h : Integral s) (hb : s'.board = s.board) (hs : inSleep s.stack = false)
    (hi : inSleep stack = false) : Outcome s a (s'.setStack stack) := by
  have hr : s'.current.status = .running := (congrArg (fun b : Board => b.status b.current) hb).trans (h.running hs)
  refine .stay h ((board_setStack fun hbl => ?_).trans hb) ?_
  · cases hr.symm.trans hbl
  · rw [setStack_stack, hi, hs]

theorem Outcome.dispatches {b : Board} {ready : List Tid} (hb : t.board = b.dispatch t.currentThread ready)
    (hm : Board.Move s.board none (b.dispatch t.currentThread ready)) (hsus : Suspended t.stack) : Outcome s a t := by
  have hr : t.current.status = .running :=
    (congrArg (fun b : Board => b.status t.currentThread) hb).trans (Function.update_self ..)
  refine ⟨⟨none, hb ▸ hm, by simp⟩, ?_⟩
  rw [hsus.inSleep, hr]
  simp

theorem Outcome.blocks (hs : t.stack = .sleep :: rest) (hb : t.board.status t.board.current = .blocked)
    (hm : ∃ l, Board.Move s.board l t.board ∧
      ∀ child, l = some child → a = .join ∧ s.joinTarget = some child) :
    Outcome s a t := by
  refine ⟨hm, ?_⟩
  rw [hs, show t.current.status = .blocked from hb]
  simp [inSleep]

theorem Outcome.forks (h : Integral s) (hs : inSleep s.stack = false) (hlt : s.currentThread < s.created)
    {active : List Tid} (ha : active = s.activeThreads ∨ active = s.activeThreads ++ [s.created])
    (hb : t.board = s.board.spawn active) (hc : t.currentThread = s.currentThread) (hst : inSleep t.stack = false) :
    Outcome s a t := by
  have hr : t.current.status = .running := by
    change t.board.status t.currentThread = .running
    rw [hb, hc]
    exact (Function.update_of_ne hlt.ne ..).trans (h.running hs)
  refine ⟨⟨none, hb ▸ .spawn ha, by simp⟩, ?_⟩
  rw [hst, hr]
  simp

theorem Outcome.finishes (h : Integral s) (hs : inSleep s.stack = false) (he : s.finish rest = .ok t) :
    Outcome s a t := by
  have hb := finish_board he
  have hnot : s.currentThread ∉ Kernel.purge s.currentThread s.activeThreads.length 0 s.activeThreads := by
    have hnodup : (s.activeThreads ++ []).Nodup := by
      rw [List.append_nil]
      exact h.board.activeNodup
    have hp := Kernel.not_mem_purge (t := s.currentThread) hnodup (by simp) (le_refl _)
    rwa [List.append_nil] at hp
  refine .blocks (finish_goes he).1.stack_eq ?_ ⟨none, hb ▸ ?_, by simp⟩
  · rw [hb]
    exact Function.update_self ..
  · refine .finish (h.running hs) (Kernel.nodup_purge h.board.activeNodup) fun u hu => ?_
    exact ⟨Kernel.mem_of_mem_purge hu, fun hc => hnot ((show u = s.currentThread from hc) ▸ hu)⟩

theorem Outcome.joins (h : Integral s) (hs : inSleep s.stack = false) {child : Tid}
    (hid : s.joinTarget = some child)
    (he : (s.joinTo child).sleep (.joining child :: rest) = .ok t) : Outcome s .join t := by
  have hb := join_board (h.unfinished hs) he
  obtain ⟨-, rfl⟩ := sleep_ok he
  refine .blocks (setStack_stack ..) ?_ ⟨some child, hb ▸ ?_, fun c hc => ⟨rfl, hc ▸ hid⟩⟩
  · rw [hb]
    exact Function.update_self ..
  · exact .join (h.running hs) (mem_of_joinTarget hid)

theorem Outcome.wakes (h : Integral s) {f : Frame} (semaphore : Nat) (hs : s.stack = f :: rest) :
    Outcome s a (s.v semaphore (f :: rest)) := by
  have hb := v_board (s := s) semaphore (fun _ => by rw [hs] : s.current.status = .blocked → waiting (f :: rest) = _)
  have hg := (v_goes s semaphore (f :: rest)).1
  have hst : (s.v semaphore (f :: rest)).current.status = .running ↔ s.current.status = .running := by
    change (s.v semaphore (f :: rest)).board.status (s.v semaphore (f :: rest)).currentThread = .running ↔ _
    rw [hb, hg.current]
    exact h.board.dequeue_running semaphore s.currentThread
  have ha := h.asleep
  rw [hs] at ha
  refine ⟨⟨none, hb ▸ .dequeue semaphore, by simp⟩, ?_⟩
  rw [hg.stack_eq, Ne, hst]
  exact ha

theorem Integral.status_next (h : Integral s) {nextThread : Tid} {readyList : List Tid}
    (hr : s.readyList = nextThread :: readyList) : (s.threads nextThread).status = .ready := by
  refine (h.board.ready nextThread).mpr ?_
  rw [show s.board.ready = _ from hr]
  exact List.mem_cons_self ..

theorem Outcome.dispatched (h : Integral s) (hs : s.stack = .sleep :: rest) (he : s.dispatch rest = some t) :
    Outcome s a t := by
  obtain ⟨nextThread, readyList, hr, rfl⟩ := dispatch_some he
  have hne : s.current.status ≠ .running := h.asleep.mp (by rw [hs]; rfl)
  have hb : (({ s with readyList } : ThreadSystem).run nextThread rest).board =
      s.board.dispatch nextThread readyList := by
    rw [run_board (by exact h.status_next hr) (fun _ => by change _ = waiting s.stack; rw [hs]; rfl)]
    rfl
  exact .dispatches hb (.dispatch hne hr)
    (h.disciplined.suspended (by exact run_frames nextThread) (suspended_switched rest) nextThread)

theorem Outcome.yields (h : Integral s) (hs : s.stack = .yield :: rest) : Outcome s a (s.yield rest) := by
  have hn := h.disciplined.wellNested
  have hsl : inSleep s.stack = false := by rw [hs]; rfl
  rw [hs] at hn
  cases hr : s.readyList with
  | nil =>
    have he : s.yield rest =
        { s with hw := s.hw.disable }.setStack (.setLevel s.hw.interrupt.level :: rest) := by simp only [yield, hr]
    rw [he]
    exact .sets h rfl hsl (plain_facts hn.1).2.1
  | cons nextThread readyList =>
    obtain ⟨hb, hcur, hv⟩ := yield_board rest hr (h.status_next hr)
    have hm := Board.Move.yield (b := s.board) (h.running hsl) hr
    rw [← hcur] at hb hm
    exact .dispatches hb hm (h.disciplined.suspended hv (suspended_switched _) _)

theorem Outcome.execs (h : Integral s) (hlt : s.currentThread < s.created) (hs : s.stack = .scExec :: rest)
    (garbage : Register → Word) (space : Space) : Outcome s a (s.scExec garbage space rest) := by
  have hn := h.disciplined.wellNested
  have hsl : inSleep s.stack = false := by rw [hs]; rfl
  rw [hs] at hn
  have hi := (plain_facts hn.1).2.1
  unfold scExec
  split_ifs
  · exact .sets h (by exact board_modify rfl rfl rfl rfl) hsl hi
  · refine .forks h hsl hlt (.inr rfl) ?_ rfl ?_
    · refine fork_board _ (by exact hlt.ne) (by rfl) (by rfl) ?_ ?_
      · intro hbl
        cases (h.running hsl).symm.trans hbl
      · exact h.board.fresh s.created (le_refl _)
    · rw [fork_stack]
      exact hi

theorem Outcome.waits {semaphore : Nat} {oldLevel : IntStatus} (h : Integral s) (hs : s.stack = .p semaphore oldLevel :: rest)
    (he : s.p semaphore oldLevel rest = .ok t) : Outcome s a t := by
  have hn := h.disciplined.wellNested
  have hsl : inSleep s.stack = false := by rw [hs]; rfl
  rw [hs] at hn
  obtain ⟨value, rfl⟩ | ⟨value, he⟩ := p_ok he
  · refine .sets h ?_ hsl (plain_facts hn.1.1).2.1
    rw [setSemaphore_board]
    exact congrArg (fun queue => { s.board with queue }) (Function.update_eq_self _ s.board.queue)
  · have hb := sleep_board he
    rw [if_pos (by exact h.unfinished hsl), setSemaphore_board] at hb
    obtain ⟨-, rfl⟩ := sleep_ok he
    refine .blocks (setStack_stack ..) ?_ ⟨none, hb ▸ .enqueue (h.running hsl) _, by simp⟩
    rw [hb]
    exact Function.update_self ..

theorem Integral.outcome (h : Integral s) (hs : Step s a t) : Outcome s a t := by
  have hn := h.disciplined.wellNested
  have hlt := h.transparent.current_lt hs
  cases hs with
  | control hc =>
    refine .stay h (board_setStack fun hb => ?_) ?_
    · exact hc.waiting_eq hn (h.asleep.mpr (by simp [show s.current.status = .blocked from hb]))
    · rw [setStack_stack]
      exact hc.inSleep_eq hn
  | idle hs hr hd' hc =>
    refine .stay h (board_setStack fun hb => rfl) ?_
    rw [setStack_stack, hs]
    rfl
  | dispatch hs he => exact .dispatched h hs he
  | switched hs he =>
    rw [hs] at hn
    obtain ⟨hw, threadToBeDestroyed, rfl, -, -⟩ := switched_ok he
    exact .sets h rfl (by rw [hs]; rfl) (plain_facts hn.1.1).2.1
  | yield hs => exact .yields h hs
  | fork hs =>
    have hsl : inSleep s.stack = false := by rw [hs]; rfl
    refine .forks h hsl hlt (.inl rfl) ?_ rfl ?_
    · exact fork_board _ hlt.ne rfl rfl (by simp [h.running hsl]) (h.board.fresh s.created (le_refl _))
    · rw [fork_stack]
      rfl
  | exec hs => exact .execs h hlt hs _ _
  | join hs he =>
    have hsl : inSleep s.stack = false := by rw [hs]; rfl
    rw [hs] at hn
    obtain rfl | ⟨child, hid, he⟩ := scJoin_ok he
    · exact .sets h rfl hsl (plain_facts hn.1.1).2.1
    · exact .joins h hsl hid he
  | yieldReturn hs he =>
    rw [hs] at hn
    obtain ⟨σ, rfl⟩ := scYieldReturn_ok he
    exact .sets h rfl (by rw [hs]; rfl) (plain_facts hn.1).2.1
  | finish hs he => exact .finishes h (by rw [hs]; rfl) he
  | p hs he => exact .waits h hs he
  | v hf hs => exact .wakes h _ hs
  | processCreator hs he =>
    obtain ⟨σ, threadToBeDestroyed, -, rfl⟩ := processCreator_ok he
    exact .sets h rfl (by rw [hs]; rfl) rfl
  | startProcess hs hsp => exact .sets h (board_modify rfl rfl rfl rfl) (by rw [hs]; rfl) rfl

theorem Integral.step (h : Integral s) (hs : Step s a t) : Integral t := by
  obtain ⟨⟨l, hm, -⟩, ha⟩ := h.outcome hs
  exact ⟨h.disciplined.step hs, h.transparent.step h.disciplined hs, h.board.move hm, ha⟩

theorem Initial.board (h : Initial s) : s.board.Inv := by
  obtain ⟨garbage, pending, hw, values, pooled, rfl⟩ := h
  have hu (u : Tid) : (boot garbage pending hw values pooled).board.parent u = none ∧
      (boot garbage pending hw values pooled).board.finished u = false ∧
      (boot garbage pending hw values pooled).board.waits u = none ∧
      (boot garbage pending hw values pooled).board.status u = if u = main then .running else .justCreated := by
    by_cases hm : u = main
    · simp [ThreadSystem.board, view, boot, hm, Thread.new, Thread.waits]
    · simp [ThreadSystem.board, view, boot, hm, Thread.new, Thread.waits]
  constructor
  · exact List.nodup_nil
  · intro u
    rw [(hu u).2.2.2]
    split_ifs <;> simp [ThreadSystem.board, boot]
  · intro u hr
    rw [(hu u).2.2.2] at hr
    split_ifs at hr with hm
    exact hm
  · exact fun _ => List.nodup_nil
  · exact fun _ _ hq => by cases hq
  · intro c p hp
    rw [(hu c).1] at hp
    cases hp
  · intro u w hw
    rw [(hu u).2.2.1] at hw
    cases hw
  · intro u hf
    rw [(hu u).2.1] at hf
    cases hf
  · intro u hle
    have hm : u ≠ main := Nat.ne_of_gt hle
    exact ⟨(hu u).2.2.2.trans (if_neg hm), (hu u).1, (hu u).2.1⟩
  · exact List.nodup_nil
  · exact fun _ hm => by cases hm

theorem Initial.integral (h : Initial s) : Integral s := by
  refine ⟨h.disciplined, h.transparent, h.board, ?_⟩
  obtain ⟨garbage, pending, hw, values, pooled, rfl⟩ := h
  simp [boot, ThreadSystem.stack, current, inSleep, stackAllocate]

theorem Run.integral (h : Run s) : Integral s :=
  Reachable.invariant (fun _ hi => hi.integral) (fun _ _ _ hi hs => hi.step hs) h

theorem Integral.finished {u : Tid} (h : Integral s) (hs : Step s a t) (hf : (s.threads u).finished = true) :
    (t.threads u).finished = true := by
  obtain ⟨⟨l, hm, -⟩, -⟩ := h.outcome hs
  exact hm.finished hf

/-- The ready list and the states of the threads agree, whatever the order of the calls. -/
theorem ready_list_integrity (h : Run s) :
    (inSleep s.stack = false → s.current.status = .running ∧ s.currentThread ∉ s.readyList) ∧ s.readyList.Nodup ∧
      (∀ u, (s.threads u).status = .ready ↔ u ∈ s.readyList) ∧
      ∀ u, (s.threads u).finished = true → ∀ t, Reachable (fun s₀ => s₀ = s) Step t →
        u ∉ t.readyList ∧ (t.threads u).status = .blocked ∧ (t.currentThread = u → inSleep t.stack = true) := by
  have hi := h.integral
  refine ⟨fun hs => ⟨hi.running hs, fun hm => ?_⟩, hi.board.nodup, hi.board.ready, fun u hf t ht => ?_⟩
  · cases (hi.running hs).symm.trans ((hi.board.ready s.currentThread).mpr hm)
  · have hfin : Integral t ∧ (t.threads u).finished = true := by
      refine ht.invariant (I := fun t => Integral t ∧ (t.threads u).finished = true) (fun s₀ he => ?_)
        (fun _ _ _ hf hs => ⟨hf.1.step hs, hf.1.finished hs hf.2⟩)
      subst he
      exact ⟨hi, hf⟩
    have hb := hfin.1.board.finished u hfin.2
    refine ⟨fun hm => ?_, hb, fun hc => ?_⟩
    · cases hb.symm.trans ((hfin.1.board.ready u).mpr hm)
    · refine hfin.1.asleep.mpr fun hr => ?_
      subst hc
      cases hb.symm.trans hr

theorem ready_list_integrity_spawned : ∃ s : ThreadSystem, s.readyList = [1] ∧ s.current.status = .running ∧
    s.currentThread ∉ s.readyList ∧ ∀ u, (s.threads u).status = .ready ↔ u ∈ s.readyList := by
  have hrun : ((mainStarts ++ execs ⟨2, 3⟩).foldlM advance cleared).map (fun s => (s.readyList, s.stack)) =
      some ([1], [.oneInstruction, .kernel, .finish]) := by decide +kernel
  obtain ⟨s, hs, he⟩ := Option.map_eq_some_iff.mp hrun
  simp only [Prod.mk.injEq] at he
  obtain ⟨hready, hst⟩ := he
  obtain ⟨hcur, -, hiff, -⟩ := ready_list_integrity (advance_run cleared_run hs)
  obtain ⟨hrunning, hnot⟩ := hcur (by rw [hst]; rfl)
  exact ⟨s, hready, hrunning, hnot, hiff⟩

end ThreadSystem

end Nachos
