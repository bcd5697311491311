import Mathlib.Data.List.Perm.Basic
import Nachos.Lib.SizedList
import Nachos.Threads.ReadyList

namespace Nachos

section Purge

variable {t u : Tid} {l : List Tid}

theorem Kernel.mem_purge {n i : Nat} (h : u ∈ l) (hu : u ≠ t) : u ∈ purge t n i l := by
  apply purge_invariant ?_ h
  intro x rest hm
  split_ifs with hx
  · exact (List.mem_cons.mp hm).resolve_left fun he => hu (he.trans hx)
  · exact (List.perm_append_singleton x rest).mem_iff.mpr hm

theorem Kernel.purge_rotate {b : List Tid} (ht : t ∉ l) {n : Nat} (hn : l.length ≤ n) :
    purge t n b.length (l ++ b) = b ++ l := by
  induction l generalizing b n with
  | nil => rw [List.nil_append, List.append_nil, purge_done (le_refl _)]
  | cons x rest ih =>
    cases n with
    | zero => simp at hn
    | succ n =>
      have hx : x ≠ t := fun he => ht (he ▸ List.mem_cons_self ..)
      have hi := ih (fun hm => ht (List.mem_cons_of_mem _ hm)) (Nat.le_of_succ_le_succ hn) (b := b ++ [x])
      rw [List.cons_append, purge_round (by rw [List.length_append]; omega), if_neg hx]
      simpa using hi

theorem Kernel.purge_perm (h : l.Nodup) : (purge t l.length 0 l).Perm (l.erase t) := by
  rw [List.perm_ext_iff_of_nodup (nodup_purge h) (h.erase t)]
  intro u
  rw [h.mem_erase_iff]
  constructor
  · intro hu
    have hn := not_mem_purge (t := t) (b := []) (by simpa using h) (by simp) (le_refl l.length)
    rw [List.append_nil] at hn
    exact ⟨fun he => hn (he ▸ hu), mem_of_mem_purge hu⟩
  · intro hu
    exact mem_purge hu.2 hu.1

theorem Kernel.purge_of_not_mem (ht : t ∉ l) : purge t l.length 0 l = l := by
  have hr := purge_rotate (b := []) ht (le_refl l.length)
  rwa [List.append_nil, List.nil_append] at hr

end Purge

def finishLoop (current : Tid) (l : SizedList Tid) : Option (SizedList Tid) := l.sweep (· = current) 0

theorem sweep_purge {t : Tid} {l : SizedList Tid} (h : l.Exact) {n i : Nat} (hn : l.items.length ≤ n + i) :
    ∃ l', l.sweep (· = t) i = some l' ∧ l'.Exact ∧ l'.items = Kernel.purge t n i l.items := by
  induction n generalizing i l with
  | zero => exact ⟨l, SizedList.sweep_done h (by omega), h, rfl⟩
  | succ n ih =>
    by_cases hi : i < l.items.length
    · obtain ⟨x, rest, hx⟩ := List.exists_cons_of_length_pos (Nat.zero_lt_of_lt hi)
      have hp : Kernel.purge t (n + 1) i l.items = Kernel.purge t n (i + 1)
          (if x = t then l.remove.2 else l.remove.2.append x).items := by
        have hl : i < rest.length + 1 := by
          rw [hx] at hi
          exact hi
        have hr : l.remove.2.items = rest := by
          change l.items.tail = rest
          rw [hx]
          rfl
        rw [hx, Kernel.purge_round hl, apply_ite SizedList.items, hr]
        change _ = Kernel.purge t n (i + 1) (if x = t then rest else l.remove.2.items ++ [x])
        rw [hr]
      rw [SizedList.sweep_round h hi hx, hp]
      apply ih
      · split_ifs
        · exact h.remove hx
        · exact h.requeue hx
      · split_ifs
        · change l.items.tail.length ≤ _
          rw [List.length_tail]
          omega
        · change (l.items.tail ++ [x]).length ≤ _
          rw [List.length_append, List.length_tail]
          simp only [List.length_singleton]
          omega
    · exact ⟨l, SizedList.sweep_done h (by omega), h, (Kernel.purge_done (by omega)).symm⟩

theorem finishLoop_purge (t : Tid) {l : SizedList Tid} (h : l.Exact) : ∃ l', finishLoop t l = some l' ∧ l'.Exact ∧
    l'.items = Kernel.purge t l.items.length 0 l.items := sweep_purge h (Nat.le_refl _)

/-- What decides which threads the registry has, and under which names. -/
structure Tag where
  id : Int
  killNewChild : Bool
  finished : Bool

def Thread.tag (u : Thread) : Tag := ⟨u.id, u.killNewChild, u.finished⟩

namespace ThreadSystem

section Tags

variable {s t : ThreadSystem} {rest : List Frame} {u : Tid}

theorem tag_of_update {x : Tag} (h : t.view Thread.tag = Function.update (s.view Thread.tag) u x) :
    (t.threads u).tag = x ∧ ∀ v, v ≠ u → (t.threads v).tag = (s.threads v).tag :=
  ⟨(congrFun h u).trans (Function.update_self ..), fun v hv => (congrFun h v).trans (Function.update_of_ne hv ..)⟩

theorem killNewChild_of_update {x : Tag} (h : t.view Thread.tag = Function.update (s.view Thread.tag) u x)
    (hx : x.killNewChild = false) (hs : ∀ v, (s.threads v).killNewChild = false) (v : Tid) :
    (t.threads v).killNewChild = false := by
  obtain ⟨hself, hother⟩ := tag_of_update h
  by_cases hv : v = u
  · rw [hv]
    exact (congrArg Tag.killNewChild hself).trans hx
  · exact (congrArg Tag.killNewChild (hother v hv)).trans (hs v)

theorem modify_tags {f : Thread → Thread} (h : (f (s.threads u)).tag = (s.threads u).tag) :
    (s.modify u f).view Thread.tag = s.view Thread.tag := view_update_same rfl h

theorem setStack_tags (s : ThreadSystem) (stack : List Frame) :
    (s.setStack stack).view Thread.tag = s.view Thread.tag := modify_tags (by rfl)

theorem setStatus_tags (s : ThreadSystem) (u : Tid) (status : ThreadStatus) :
    (s.setStatus u status).view Thread.tag = s.view Thread.tag := modify_tags (by rfl)

theorem run_tags (s : ThreadSystem) (nextThread : Tid) (rest : List Frame) :
    (s.run nextThread rest).view Thread.tag = s.view Thread.tag := by
  apply (setStatus_tags _ nextThread _).trans
  exact view_update_same (s := s) (x := s.current.switchOut s.hw.registers rest) rfl rfl

theorem fork_tags (s : ThreadSystem) (thread : Thread) (func : Frame) (rest : List Frame) :
    (s.fork thread func rest).view Thread.tag = Function.update (s.view Thread.tag) s.created thread.tag := by
  apply (setStack_tags _ _).trans
  apply (setStatus_tags _ s.created _).trans
  exact view_update (s := s) (x := { thread with stack := stackAllocate func }) rfl

structure Quiet (s t : ThreadSystem) : Prop where
  tags : t.view Thread.tag = s.view Thread.tag
  active : t.activeThreads = s.activeThreads
  threadID : t.threadID = s.threadID
  created : t.created = s.created

theorem Quiet.trans {t' : ThreadSystem} (h : Quiet s t) (h' : Quiet t t') : Quiet s t' :=
  ⟨h'.tags.trans h.tags, h'.active.trans h.active, h'.threadID.trans h.threadID, h'.created.trans h.created⟩

theorem Quiet.setStack (h : Quiet s t) (stack : List Frame) : Quiet s (t.setStack stack) :=
  h.trans ⟨setStack_tags .., rfl, rfl, rfl⟩

theorem Quiet.sleep (h : Quiet s t) {t' : ThreadSystem} (hs : t.sleep rest = .ok t') : Quiet s t' := by
  obtain ⟨-, rfl⟩ := sleep_ok hs
  exact (h.trans ⟨setStatus_tags .., rfl, rfl, rfl⟩).setStack _

theorem Quiet.readyToRun (h : Quiet s t) (u : Tid) : Quiet s (t.readyToRun u) :=
  h.trans ⟨setStatus_tags .., rfl, rfl, rfl⟩

theorem Quiet.run (h : Quiet s t) (nextThread : Tid) : Quiet s (t.run nextThread rest) :=
  h.trans ⟨run_tags .., rfl, rfl, rfl⟩

theorem wakeParent_quiet (s : ThreadSystem) : Quiet s s.wakeParent := by
  unfold wakeParent
  split
  · exact ⟨rfl, rfl, rfl, rfl⟩
  · exact ⟨view_update_same (s := s) (by rfl) (by rfl), rfl, rfl, rfl⟩

theorem yield_quiet (s : ThreadSystem) (rest : List Frame) : Quiet s (s.yield rest) := by
  unfold yield
  dsimp only
  split
  · exact Quiet.setStack (by exact ⟨rfl, rfl, rfl, rfl⟩) _
  · exact Quiet.run (Quiet.readyToRun (by exact ⟨rfl, rfl, rfl, rfl⟩) _) _

theorem v_quiet (s : ThreadSystem) (semaphore : Nat) (rest : List Frame) : Quiet s (s.v semaphore rest) := by
  unfold v
  dsimp only
  split
  · exact Quiet.setStack (by exact ⟨rfl, rfl, rfl, rfl⟩) _
  · exact Quiet.setStack (Quiet.readyToRun (by exact ⟨rfl, rfl, rfl, rfl⟩) _) _

theorem joinTo_quiet (s : ThreadSystem) (child : Tid) : Quiet s (s.joinTo child) := by
  have h : Quiet s (s.modify child (fun u => { u with parent := some s.currentThread })) :=
    ⟨modify_tags (by rfl), rfl, rfl, rfl⟩
  exact h.trans ⟨view_update_same (by rfl) (by rfl), rfl, rfl, rfl⟩

inductive Change (s : ThreadSystem) : Action → ThreadSystem → Prop
  | quiet {a : Action} {t : ThreadSystem} (ha : a ≠ .exec) (hf : a ≠ .finish) (h : Quiet s t) : Change s a t
  | fork {t : ThreadSystem} (hv : t.view Thread.tag = Function.update (s.view Thread.tag) s.created ⟨0, false, false⟩)
      (ha : t.activeThreads = s.activeThreads) (hi : t.threadID = s.threadID) (hk : t.created = s.created + 1) :
      Change s .fork t
  | exec {t : ThreadSystem}
      (hv : t.view Thread.tag = Function.update (s.view Thread.tag) s.created ⟨s.threadID, false, false⟩)
      (ha : t.activeThreads = s.activeThreads ++ [s.created]) (hi : t.threadID = CInt.wrap (s.threadID + 1))
      (hk : t.created = s.created + 1) : Change s .exec t
  | finish {t : ThreadSystem} (hv : t.view Thread.tag =
        Function.update (s.view Thread.tag) s.currentThread { s.current.tag with finished := true })
      (ha : t.activeThreads = Kernel.purge s.currentThread s.activeThreads.length 0 s.activeThreads)
      (hi : t.threadID = s.threadID) (hk : t.created = s.created) : Change s .finish t

theorem finish_change (h : s.finish rest = .ok t) : Change s .finish t := by
  let s₀ : ThreadSystem := { s with hw := s.hw.disable, threadToBeDestroyed := some s.currentThread }
  have hs₀ : Quiet s s₀ := ⟨rfl, rfl, rfl, rfl⟩
  have hq := hs₀.trans (wakeParent_quiet s₀)
  have hb := finish_board h
  obtain ⟨-, rfl⟩ := sleep_ok h
  refine .finish ?_ (congrArg Board.active hb) hq.threadID hq.created
  apply (setStack_tags _ _).trans
  apply (setStatus_tags _ _ _).trans
  apply (view_update (s := s₀.wakeParent) (by rfl)).trans
  rw [hq.tags]
  congr 1
  have hc := congrFun hq.tags s.currentThread
  change ({ (s₀.wakeParent.threads s.currentThread).tag with finished := true } : Tag) = _
  exact congrArg (fun tag : Tag => { tag with finished := true }) hc

theorem Step.change {a : Action} (hk : a = .exec → s.current.killNewChild = false) (h : Step s a t) :
    Change s a t := by
  cases h with
  | control hc => exact .quiet (by simp) (by simp) (Quiet.setStack (by exact ⟨rfl, rfl, rfl, rfl⟩) _)
  | idle hs hr hd hc => exact .quiet (by simp) (by simp) (Quiet.setStack (by exact ⟨rfl, rfl, rfl, rfl⟩) _)
  | dispatch hs hd =>
    obtain ⟨nextThread, readyList, -, rfl⟩ := dispatch_some hd
    exact .quiet (by simp) (by simp) (Quiet.run (by exact ⟨rfl, rfl, rfl, rfl⟩) _)
  | switched hs he =>
    obtain ⟨hw, threadToBeDestroyed, rfl, -, -⟩ := switched_ok he
    exact .quiet (by simp) (by simp) (Quiet.setStack (by exact ⟨rfl, rfl, rfl, rfl⟩) _)
  | yield hs => exact .quiet (by simp) (by simp) (yield_quiet ..)
  | fork hs => exact .fork (fork_tags ..) rfl rfl rfl
  | exec hs =>
    unfold scExec
    rw [hk rfl]
    exact .exec (fork_tags ..) rfl rfl rfl
  | join hs he =>
    obtain rfl | ⟨child, -, he⟩ := scJoin_ok he
    · exact .quiet (by simp) (by simp) (Quiet.setStack (by exact ⟨rfl, rfl, rfl, rfl⟩) _)
    · exact .quiet (by simp) (by simp) ((joinTo_quiet s child).sleep he)
  | yieldReturn hs he =>
    obtain ⟨σ, rfl⟩ := scYieldReturn_ok he
    exact .quiet (by simp) (by simp) (Quiet.setStack (by exact ⟨rfl, rfl, rfl, rfl⟩) _)
  | finish hs he => exact finish_change he
  | p hs he =>
    obtain ⟨value, rfl⟩ | ⟨value, he⟩ := p_ok he
    · exact .quiet (by simp) (by simp) (Quiet.setStack (by exact ⟨rfl, rfl, rfl, rfl⟩) _)
    · exact .quiet (by simp) (by simp) (Quiet.sleep (by exact ⟨rfl, rfl, rfl, rfl⟩) he)
  | v hf hs => exact .quiet (by simp) (by simp) (v_quiet ..)
  | processCreator hs he =>
    obtain ⟨σ, threadToBeDestroyed, -, rfl⟩ := processCreator_ok he
    exact .quiet (by simp) (by simp) (Quiet.setStack (by exact ⟨rfl, rfl, rfl, rfl⟩) _)
  | startProcess hs hsp =>
    exact .quiet (by simp) (by simp) (Quiet.setStack (by exact ⟨modify_tags (by rfl), rfl, rfl, rfl⟩) _)

end Tags

def getIDLoop (s : ThreadSystem) (toGet : Int) (l : SizedList Tid) : Option (Option Tid × SizedList Tid) :=
  l.turn (fun found t => if (s.threads t).id = toGet then some t else found) l.size.toInt.toNat none

def joinLoops (s : ThreadSystem) (l : SizedList Tid) : Option (SizedList Tid) :=
  let arg1 := (s.hw.registers Kernel.arg1Reg).toInt
  if arg1 < 0 then some l
  else do
    let (found, l) ← s.getIDLoop arg1 l
    if found.isNone || s.current.isJoined then some l
    else
      let (_, l) ← s.getIDLoop arg1 l
      let (_, l) ← s.getIDLoop arg1 l
      some l

def listStep (s : ThreadSystem) (a : Action) (l : SizedList Tid) : Option (SizedList Tid) :=
  match a with
  | .exec => some (if s.current.killNewChild then l else l.append s.created)
  | .join => s.joinLoops l
  | .finish => finishLoop s.currentThread l
  | _ => some l

def newExecs (s : ThreadSystem) (a : Action) : List Tid :=
  if a = .exec ∧ s.current.killNewChild = false then [s.created] else []

structure History where
  system : ThreadSystem
  execs : List Tid
  list : Option (SizedList Tid)

namespace History

def Initial (h : History) : Prop := h.system.Initial ∧ h.execs = [] ∧ h.list = some .empty

structure Step (h : History) (a : Action) (h' : History) : Prop where
  step : h.system.Step a h'.system
  execs : h'.execs = h.execs ++ h.system.newExecs a
  list : h'.list = h.list.bind (h.system.listStep a)

end History

theorem history_of_run {P : ThreadSystem → Action → Prop} {s : ThreadSystem}
    (h : Reachable Initial (fun s a t => P s a ∧ Step s a t) s) :
    ∃ x, Reachable History.Initial (fun x a x' => P x.system a ∧ History.Step x a x') x ∧ x.system = s := by
  induction h with
  | @start s hs => exact ⟨⟨s, [], some .empty⟩, .start ⟨hs, rfl, rfl⟩, rfl⟩
  | @next s t a hs ht ih =>
    obtain ⟨x, hx, rfl⟩ := ih
    exact ⟨⟨t, _, _⟩, .next a hx ⟨ht.1, ht.2, rfl, rfl⟩, rfl⟩

variable {s : ThreadSystem} {l : SizedList Tid}

theorem getIDLoop_eq (h : l.Exact) (hl : l.items = s.activeThreads) (toGet : Int) :
    s.getIDLoop toGet l = some (s.getID toGet, l) := by
  unfold getIDLoop getID
  rw [h.turn, hl]

theorem joinLoops_eq (h : l.Exact) (hl : l.items = s.activeThreads) : s.joinLoops l = some l := by
  unfold joinLoops
  dsimp only
  split_ifs with hn
  · rfl
  · rw [getIDLoop_eq h hl]
    simp only [Option.bind_eq_bind, Option.bind_some]
    split_ifs
    · rfl
    · rw [getIDLoop_eq h hl]
      simp only [Option.bind_some]
      rw [getIDLoop_eq h hl]
      rfl

theorem getID_eq_some (hd : ∀ t ∈ s.activeThreads, ∀ u ∈ s.activeThreads, (s.threads t).id = (s.threads u).id → t = u)
    {toGet : Int} {t : Tid} : s.getID toGet = some t ↔ t ∈ s.activeThreads ∧ (s.threads t).id = toGet := by
  unfold getID
  obtain ⟨u, hu, hi, he⟩ | ⟨hn, he⟩ := found_cases (p := fun t => (s.threads t).id = toGet) s.activeThreads none
  · rw [he, Option.some.injEq]
    constructor
    · rintro rfl
      exact ⟨hu, hi⟩
    · intro ht
      exact hd u hu t ht.1 (hi.trans ht.2.symm)
  · rw [he]
    constructor
    · intro h
      cases h
    · intro ht
      exact absurd ht.2 (hn t ht.1)

namespace History

structure Inv (h : History) : Prop where
  integral : h.system.Integral
  kill : ∀ u, (h.system.threads u).killNewChild = false
  list : ∃ l, h.list = some l ∧ l.Exact ∧ l.items = h.system.activeThreads
  members : ∀ t, t ∈ h.system.activeThreads ↔ t ∈ h.execs ∧ (h.system.threads t).finished = false
  made : ∀ t ∈ h.execs, t < h.system.created
  smaller : ∀ t ∈ h.system.activeThreads, (h.system.threads t).id < h.system.threadID
  distinct : ∀ t ∈ h.system.activeThreads, ∀ u ∈ h.system.activeThreads,
    (h.system.threads t).id = (h.system.threads u).id → t = u
  length : h.system.activeThreads.length < h.system.threadID
  bound : h.system.threadID ≤ CInt.intMax

theorem Initial.inv {h : History} (hi : h.Initial) : h.Inv := by
  obtain ⟨hs, he, hl⟩ := hi
  have hint := hs.integral
  obtain ⟨garbage, pending, hw, values, pooled, hb⟩ := hs
  have hact : h.system.activeThreads = [] := by rw [hb]; rfl
  have hid : h.system.threadID = 1 := by rw [hb]; rfl
  refine ⟨hint, fun u => ?_, ⟨_, hl, rfl, hact.symm⟩, ?_, ?_, ?_, ?_, ?_, ?_⟩
  · rw [hb]
    by_cases hu : u = main
    · simp [boot, hu, Thread.new]
    · simp [boot, hu, Thread.new]
  · simp [hact, he]
  · simp [he]
  · simp [hact]
  · simp [hact]
  · simp [hact, hid]
  · rw [hid]
    norm_num [CInt.intMax]

variable {h h' : History} {a : Action}

theorem Inv.keep (hi : h.Inv) (hint : h'.system.Integral)
    (htag : ∀ u, u ≠ h.system.created → (h'.system.threads u).tag = (h.system.threads u).tag)
    (hkill : ∀ u, (h'.system.threads u).killNewChild = false)
    (hact : h'.system.activeThreads = h.system.activeThreads) (hthread : h'.system.threadID = h.system.threadID)
    (hk : h.system.created ≤ h'.system.created) (he : h'.execs = h.execs) (hl : h'.list = h.list) : h'.Inv := by
  have hid (u : Tid) (hu : u ∈ h.system.activeThreads) : (h'.system.threads u).id = (h.system.threads u).id :=
    congrArg Tag.id (htag u (Nat.ne_of_lt (hi.integral.board.active u hu).2))
  refine ⟨hint, hkill, ?_, fun u => ?_, ?_, ?_, ?_, ?_, ?_⟩
  · rw [hl, hact]
    exact hi.list
  · rw [hact, he, hi.members]
    apply and_congr_right
    intro hu
    have hf : (h'.system.threads u).finished = (h.system.threads u).finished :=
      congrArg Tag.finished (htag u (Nat.ne_of_lt (hi.made u hu)))
    rw [hf]
  · intro u hu
    rw [he] at hu
    exact Nat.lt_of_lt_of_le (hi.made u hu) hk
  · intro u hu
    rw [hact] at hu
    rw [hid u hu, hthread]
    exact hi.smaller u hu
  · intro t ht u hu
    rw [hact] at ht hu
    rw [hid t ht, hid u hu]
    exact hi.distinct t ht u hu
  · rw [hact, hthread]
    exact hi.length
  · rw [hthread]
    exact hi.bound

theorem Inv.finish (hi : h.Inv) (hint : h'.system.Integral)
    (hv : h'.system.view Thread.tag = Function.update (h.system.view Thread.tag) h.system.currentThread
      { h.system.current.tag with finished := true })
    (hact : h'.system.activeThreads =
      Kernel.purge h.system.currentThread h.system.activeThreads.length 0 h.system.activeThreads)
    (hthread : h'.system.threadID = h.system.threadID) (hk : h'.system.created = h.system.created)
    (he : h'.execs = h.execs) (hl : h'.list = h.list.bind (finishLoop h.system.currentThread)) : h'.Inv := by
  have hnodup : h.system.activeThreads.Nodup := hi.integral.board.activeNodup
  have hperm := Kernel.purge_perm (t := h.system.currentThread) hnodup
  have hmem (u : Tid) : u ∈ h'.system.activeThreads ↔ u ≠ h.system.currentThread ∧ u ∈ h.system.activeThreads := by
    rw [hact]
    exact hperm.mem_iff.trans hnodup.mem_erase_iff
  obtain ⟨hcur, htag⟩ := tag_of_update hv
  have hid (u : Tid) : (h'.system.threads u).id = (h.system.threads u).id := by
    by_cases hu : u = h.system.currentThread
    · rw [hu]
      exact congrArg Tag.id hcur
    · exact congrArg Tag.id (htag u hu)
  refine ⟨hint, killNewChild_of_update hv (hi.kill _) hi.kill, ?_, fun u => ?_, ?_, ?_, ?_, ?_, ?_⟩
  · obtain ⟨l, hsome, hexact, hitems⟩ := hi.list
    obtain ⟨l', hloop, hexact', hitems'⟩ := finishLoop_purge h.system.currentThread hexact
    refine ⟨l', ?_, hexact', ?_⟩
    · rw [hl, hsome]
      exact hloop
    · rw [hitems', hitems, hact]
  · rw [hmem, he, hi.members]
    by_cases hu : u = h.system.currentThread
    · have hf : (h'.system.threads h.system.currentThread).finished = true := congrArg Tag.finished hcur
      simp [hu, hf]
    · have hf : (h'.system.threads u).finished = (h.system.threads u).finished := congrArg Tag.finished (htag u hu)
      simp [hu, hf]
  · rw [he, hk]
    exact hi.made
  · intro u hu
    rw [hid, hthread]
    exact hi.smaller u ((hmem u).mp hu).2
  · intro t ht u hu
    rw [hid, hid]
    exact hi.distinct t ((hmem t).mp ht).2 u ((hmem u).mp hu).2
  · have hle : (h'.system.activeThreads.length : Int) ≤ h.system.activeThreads.length := by
      rw [hact, hperm.length_eq]
      exact Int.ofNat_le.mpr List.length_erase_le
    rw [hthread]
    exact lt_of_le_of_lt hle hi.length
  · rw [hthread]
    exact hi.bound

theorem Inv.exec (hi : h.Inv) (hroom : h.system.threadID < CInt.intMax) (hint : h'.system.Integral)
    (hv : h'.system.view Thread.tag =
      Function.update (h.system.view Thread.tag) h.system.created ⟨h.system.threadID, false, false⟩)
    (hact : h'.system.activeThreads = h.system.activeThreads ++ [h.system.created])
    (hthread : h'.system.threadID = CInt.wrap (h.system.threadID + 1)) (hk : h'.system.created = h.system.created + 1)
    (he : h'.execs = h.execs ++ [h.system.created])
    (hl : h'.list = h.list.map (fun l => l.append h.system.created)) : h'.Inv := by
  have hlen := hi.length
  have hnext : h'.system.threadID = h.system.threadID + 1 := by
    rw [hthread]
    apply CInt.wrap_of_range
    · omega
    · exact hroom
  obtain ⟨hnew, htag⟩ := tag_of_update hv
  have hnewid : (h'.system.threads h.system.created).id = h.system.threadID := congrArg Tag.id hnew
  have hid (u : Tid) (hu : u ∈ h.system.activeThreads) : (h'.system.threads u).id = (h.system.threads u).id :=
    congrArg Tag.id (htag u (Nat.ne_of_lt (hi.integral.board.active u hu).2))
  have hmem (u : Tid) : u ∈ h'.system.activeThreads ↔ u ∈ h.system.activeThreads ∨ u = h.system.created := by
    rw [hact, List.mem_append, List.mem_singleton]
  refine ⟨hint, killNewChild_of_update hv rfl hi.kill, ?_, fun u => ?_, ?_, ?_, ?_, ?_, ?_⟩
  · obtain ⟨l, hsome, hexact, hitems⟩ := hi.list
    refine ⟨l.append h.system.created, by rw [hl, hsome]; rfl, hexact.append ?_ _, ?_⟩
    · rw [hexact, hitems]
      omega
    · rw [hact, ← hitems]
      rfl
  · rw [hmem, he, hi.members, List.mem_append, List.mem_singleton]
    by_cases hu : u = h.system.created
    · have hf : (h'.system.threads h.system.created).finished = false := congrArg Tag.finished hnew
      simp [hu, hf]
    · have hf : (h'.system.threads u).finished = (h.system.threads u).finished := congrArg Tag.finished (htag u hu)
      simp [hu, hf]
  · intro u hu
    rw [he, List.mem_append, List.mem_singleton] at hu
    rw [hk]
    obtain hu | rfl := hu
    · exact Nat.lt_succ_of_lt (hi.made u hu)
    · exact Nat.lt_succ_self _
  · intro u hu
    rw [hnext]
    obtain hu | rfl := (hmem u).mp hu
    · rw [hid u hu]
      exact Int.lt_add_one_of_le (Int.le_of_lt (hi.smaller u hu))
    · rw [hnewid]
      exact Int.lt_succ _
  · intro t ht u hu heq
    obtain ht | rfl := (hmem t).mp ht
    · obtain hu | rfl := (hmem u).mp hu
      · rw [hid t ht, hid u hu] at heq
        exact hi.distinct t ht u hu heq
      · rw [hid t ht, hnewid] at heq
        exact absurd heq (hi.smaller t ht).ne
    · obtain hu | rfl := (hmem u).mp hu
      · rw [hid u hu, hnewid] at heq
        exact absurd heq (hi.smaller u hu).ne'
      · rfl
  · rw [hact, hnext, List.length_append, List.length_singleton]
    push_cast
    omega
  · rw [hnext]
    exact hroom

theorem Inv.change (hi : h.Inv) (hs : Step h a h') : Change h.system a h'.system :=
  ThreadSystem.Step.change (fun _ => hi.kill _) hs.step

theorem newExecs_of_ne (s : ThreadSystem) (ha : a ≠ .exec) : s.newExecs a = [] := if_neg fun h => ha h.1

theorem Inv.listStep (hi : h.Inv) (ha : a ≠ .exec) (hf : a ≠ .finish) : h.list.bind (h.system.listStep a) = h.list := by
  obtain ⟨l, hsome, hexact, hitems⟩ := hi.list
  rw [hsome, Option.bind_some]
  cases a with
  | exec => exact absurd rfl ha
  | finish => exact absurd rfl hf
  | join => exact joinLoops_eq hexact hitems
  | _ => rfl

theorem Inv.step (hi : h.Inv) (hroom : a = .exec → h.system.threadID < CInt.intMax) (hs : Step h a h') : h'.Inv := by
  have hint := hi.integral.step hs.step
  have he := hs.execs
  have hl := hs.list
  cases hi.change hs with
  | quiet ha hf hq =>
    rw [newExecs_of_ne _ ha, List.append_nil] at he
    rw [hi.listStep ha hf] at hl
    have htag (u : Tid) : (h'.system.threads u).tag = (h.system.threads u).tag := congrFun hq.tags u
    have hkill (u : Tid) := (congrArg Tag.killNewChild (htag u)).trans (hi.kill u)
    exact hi.keep hint (fun u _ => htag u) hkill hq.active hq.threadID hq.created.ge he hl
  | fork hv hact hthread hk =>
    rw [newExecs_of_ne _ (by simp), List.append_nil] at he
    rw [hi.listStep (by simp) (by simp)] at hl
    exact hi.keep hint (tag_of_update hv).2 (killNewChild_of_update hv rfl hi.kill) hact hthread (by omega) he hl
  | exec hv hact hthread hk =>
    have hkill : h.system.current.killNewChild = false := hi.kill _
    rw [newExecs, if_pos ⟨rfl, hkill⟩] at he
    refine hi.exec (hroom rfl) hint hv hact hthread hk he ?_
    rw [hl, Option.map_eq_bind]
    congr 1
    funext l
    exact congrArg some (if_neg (by simp [hkill]))
  | finish hv hact hthread hk =>
    rw [newExecs_of_ne _ (by simp), List.append_nil] at he
    exact hi.finish hint hv hact hthread hk he hl

structure Faithful (h : History) : Prop where
  members : ∀ t, t ∈ h.system.activeThreads ↔ t ∈ h.execs ∧ (h.system.threads t).finished = false
  once : h.system.activeThreads.Nodup
  distinct : ∀ t ∈ h.system.activeThreads, ∀ u ∈ h.system.activeThreads,
    (h.system.threads t).id = (h.system.threads u).id → t = u
  smaller : ∀ t ∈ h.system.activeThreads, (h.system.threads t).id < h.system.threadID
  list : ∃ l, h.list = some l ∧ l.items = h.system.activeThreads ∧ l.size.toInt = l.items.length ∧
    (∀ toGet, ∃ found, h.system.getIDLoop toGet l = some (found, l) ∧
      ∀ t, found = some t ↔ t ∈ l.items ∧ (h.system.threads t).id = toGet) ∧
    ∀ t, ∃ l', finishLoop t l = some l' ∧ l'.items.Perm (l.items.erase t) ∧ l'.size.toInt = l'.items.length ∧
      (t ∉ l.items → l' = l)

theorem finishLoop_of_not_mem {t : Tid} {l : SizedList Tid} (h : l.Exact) (ht : t ∉ l.items) :
    finishLoop t l = some l := by
  obtain ⟨⟨items', size'⟩, hloop, hexact, hitems⟩ := finishLoop_purge t h
  rw [Kernel.purge_of_not_mem ht] at hitems
  have hsize : size' = l.size := BitVec.eq_of_toInt_eq (hexact.trans (hitems ▸ h.symm))
  rw [hloop, hsize]
  exact congrArg some (congrArg (SizedList.mk · l.size) hitems)

theorem Inv.faithful (hi : h.Inv) : h.Faithful := by
  have hnodup : h.system.activeThreads.Nodup := hi.integral.board.activeNodup
  obtain ⟨l, hsome, hexact, hitems⟩ := hi.list
  refine ⟨hi.members, hnodup, hi.distinct, hi.smaller, l, hsome, hitems, hexact, fun toGet => ?_, fun t => ?_⟩
  · refine ⟨_, getIDLoop_eq hexact hitems toGet, fun t => ?_⟩
    rw [getID_eq_some hi.distinct, hitems]
  · obtain ⟨l', hloop, hexact', hitems'⟩ := finishLoop_purge t hexact
    refine ⟨l', hloop, ?_, hexact', fun ht => ?_⟩
    · rw [hitems']
      apply Kernel.purge_perm
      rw [hitems]
      exact hnodup
    · exact Option.some.inj (hloop.symm.trans (finishLoop_of_not_mem hexact ht))

def RoomyStep (h : History) (a : Action) (h' : History) : Prop :=
  (a = .exec → h.system.threadID < CInt.intMax) ∧ Step h a h'

theorem inv_of_reachable (hr : Reachable Initial RoomyStep h) : h.Inv :=
  hr.invariant (fun _ hi => hi.inv) (fun _ _ _ hi hs => hi.step hs.1 hs.2)

theorem Inv.overflow (hi : h.Inv) (hs : Step h .exec h') (hfull : h.system.threadID = CInt.intMax) :
    ∃ t ∈ h'.system.activeThreads, h'.system.threadID < (h'.system.threads t).id := by
  cases hi.change hs with
  | quiet ha hf hq => exact absurd rfl ha
  | exec hv hact hthread hk =>
    have hid : (h'.system.threads h.system.created).id = h.system.threadID := congrArg Tag.id (tag_of_update hv).1
    refine ⟨h.system.created, by rw [hact]; simp, ?_⟩
    rw [hid, hthread, hfull, CInt.wrap_of_over]
    · norm_num [CInt.intMax]
    · exact Int.lt_succ _
    · norm_num [CInt.intMax]

/-- As long as `threadID` can be counted up the registry is faithful; the first `Exec` for which it cannot breaks it. -/
theorem registry_faithful (hr : Reachable Initial RoomyStep h) :
    h.Faithful ∧ ∀ h', Step h .exec h' → (h'.Faithful ↔ h.system.threadID < CInt.intMax) := by
  have hi := inv_of_reachable hr
  refine ⟨hi.faithful, fun h' hs => ⟨fun hf => ?_, fun hroom => (hi.step (fun _ => hroom) hs).faithful⟩⟩
  by_contra hn
  obtain ⟨t, ht, hlt⟩ := hi.overflow hs (le_antisymm hi.bound (not_lt.mp hn))
  exact lt_asymm hlt (hf.smaller t ht)

end History

def roomy (s : ThreadSystem) : Bool := s.threadID < CInt.intMax

theorem registry_faithful_exec : ∃ h : History, h.system.activeThreads = [1] ∧ 1 ∈ h.execs ∧
    (h.system.threads 1).id < h.system.threadID ∧ ∃ l, h.list = some l ∧ l.items = [1] ∧ l.size.toInt = 1 := by
  have hrun : ((mainStarts ++ execs ⟨2, 3⟩).foldlM (fun s c => if roomy s then advance s c else none) cleared).map
      activeThreads = some [1] := by decide +kernel
  obtain ⟨s, hs, hact⟩ := Option.map_eq_some_iff.mp hrun
  have hr := advance_reachable (P := fun s a => a = .exec → s.threadID < CInt.intMax)
    (fun _ _ _ hok _ _ => of_decide_eq_true hok) (.start ⟨_, _, _, _, _, rfl⟩) hs
  obtain ⟨h, hh, rfl⟩ := history_of_run hr
  obtain ⟨hf, -⟩ := History.registry_faithful hh
  obtain ⟨l, hl, hitems, hsize, -⟩ := hf.list
  have hmem : 1 ∈ h.system.activeThreads := hact ▸ List.mem_singleton_self 1
  refine ⟨h, hact, ((hf.members 1).mp hmem).1, hf.smaller 1 hmem, l, hl, hitems.trans hact, ?_⟩
  rw [hsize, hitems, hact]
  rfl

structure Parked (s : ThreadSystem) : Prop where
  run : Run s
  stack : s.stack = [.oneInstruction, .kernel, .finish]
  interrupt : ∃ totalTicks, s.hw.interrupt = ⟨.intOn, [], false, false, .userMode, totalTicks⟩
  kill : s.current.killNewChild = false

section Overflow

variable {s : ThreadSystem}

theorem Run.control {hw hw' : Hardware} {stack stack' : List Frame} (hr : Run s) (hs : s.stack = stack)
    (hhw : s.hw = hw) (h : Control s.assertMain hw stack hw' stack') :
    ∃ t, Run t ∧ Quiet s t ∧ t.stack = stack' ∧ t.hw = hw' ∧ t.currentThread = s.currentThread :=
  ⟨_, .next _ hr (.control (hs ▸ hhw ▸ h)), Quiet.setStack (by exact ⟨rfl, rfl, rfl, rfl⟩) _, setStack_stack .., rfl, rfl⟩

theorem raiseException_exec (hw : Hardware) : ∃ hw' : Hardware,
    ({ hw with registers := Function.update (fun _ => 0) Kernel.resultReg 2 } : Hardware).raiseException 0 = .ok hw' ∧
    hw'.interrupt = { hw.interrupt with status := .systemMode } ∧ hw'.registers Kernel.resultReg = 2 :=
  ⟨_, rfl, rfl, rfl⟩

theorem Quiet.kill {t : ThreadSystem} (h : Quiet s t) (hc : t.currentThread = s.currentThread)
    (hk : s.current.killNewChild = false) : t.current.killNewChild = false := by
  have ht := congrArg Tag.killNewChild (congrFun h.tags s.currentThread)
  unfold current
  rw [hc]
  exact ht.trans hk

theorem Parked.calls (h : Parked s) : ∃ t, Run t ∧ Quiet s t ∧
    t.stack = [.scExec, .trapReturn, .runTick, .kernel, .finish] ∧
    (∃ totalTicks, t.hw.interrupt = ⟨.intOn, [], false, false, .systemMode, totalTicks⟩) ∧
    t.current.killNewChild = false := by
  obtain ⟨hr, hst, ⟨ticks, hi⟩, hk⟩ := h
  obtain ⟨hw', hraise, hi', h2⟩ := raiseException_exec s.hw
  have hcall : Control s.assertMain s.hw [.oneInstruction, .kernel, .finish] hw'
      [.exceptionHandler .syscallException, .trapReturn, .runTick, .kernel, .finish] := .exception hraise
  obtain ⟨s₁, hr₁, hq₁, hst₁, hhw₁, hc₁⟩ := hr.control hst rfl hcall
  have hcode : handlerCode s₁.assertMain .syscallException (hw'.registers Kernel.resultReg).toInt =
      some [.kernel, .scExec] := by
    rw [h2]
    rfl
  obtain ⟨s₂, hr₂, hq₂, hst₂, hhw₂, hc₂⟩ := hr₁.control hst₁ hhw₁ (.exceptionHandler hcode)
  obtain ⟨s₃, hr₃, hq₃, hst₃, hhw₃, hc₃⟩ := hr₂.control hst₂ hhw₂ .kernelReturn
  have hq := (hq₁.trans hq₂).trans hq₃
  refine ⟨s₃, hr₃, hq, hst₃, ⟨ticks, ?_⟩, hq.kill (hc₃.trans (hc₂.trans hc₁)) hk⟩
  rw [hhw₃]
  change hw'.interrupt = _
  rw [hi', hi]

theorem checkIfDue_none {status : MachineStatus} {totalTicks : Int} :
    Interrupt.checkIfDue ⟨.intOff, [], false, false, status, totalTicks⟩ false =
      .ok (.quiet ⟨.intOff, [], false, false, status, totalTicks⟩) := rfl

theorem Parked.returns {t : ThreadSystem} (hr : Run t)
    (hst : t.stack = [.setLevel .intOn, .trapReturn, .runTick, .kernel, .finish])
    (hi : ∃ totalTicks, t.hw.interrupt = ⟨.intOff, [], false, false, .systemMode, totalTicks⟩)
    (hk : t.current.killNewChild = false) : ∃ u, Parked u ∧ Quiet t u := by
  obtain ⟨ticks, hi⟩ := hi
  have hset : t.hw.interrupt.setLevel .intOn = .ok (true, ⟨.intOn, [], false, false, .systemMode, ticks⟩) := by
    rw [hi]
    rfl
  obtain ⟨s₁, hr₁, hq₁, hst₁, hhw₁, hc₁⟩ := hr.control hst rfl (.enable hset)
  obtain ⟨s₂, hr₂, hq₂, hst₂, hhw₂, hc₂⟩ := hr₁.control hst₁ hhw₁ (.endTick checkIfDue_none rfl)
  obtain ⟨s₃, hr₃, hq₃, hst₃, hhw₃, hc₃⟩ := hr₂.control hst₂ hhw₂ .trapReturn
  obtain ⟨s₄, hr₄, hq₄, hst₄, hhw₄, hc₄⟩ := hr₃.control hst₃ hhw₃ .runTick
  obtain ⟨s₅, hr₅, hq₅, hst₅, hhw₅, hc₅⟩ := hr₄.control hst₄ hhw₄ (.endTick checkIfDue_none rfl)
  have hq := (((hq₁.trans hq₂).trans hq₃).trans hq₄).trans hq₅
  refine ⟨s₅, ⟨hr₅, hst₅, ⟨s₅.hw.interrupt.totalTicks, ?_⟩, hq.kill (by rw [hc₅, hc₄, hc₃, hc₂, hc₁]) hk⟩, hq⟩
  rw [hhw₅]
  rfl

theorem Parked.execs (h : Parked s) : ∃ t, Parked t ∧ t.threadID = CInt.wrap (s.threadID + 1) ∧
    ∃ u ∈ t.activeThreads, (t.threads u).id = s.threadID := by
  obtain ⟨s₁, hr₁, hq₁, hst₁, ⟨ticks, hi₁⟩, hk₁⟩ := h.calls
  have hstep : Step s₁ .exec (s₁.scExec (fun _ => 0) ⟨0, 0⟩ [.trapReturn, .runTick, .kernel, .finish]) := .exec hst₁
  have hlt := hr₁.integral.transparent.current_lt hstep
  have hfork : s₁.scExec (fun _ => 0) ⟨0, 0⟩ [.trapReturn, .runTick, .kernel, .finish] = _ :=
    if_neg (by rw [hk₁]; exact Bool.false_ne_true)
  have hr₂ := Reachable.next _ hr₁ hstep
  cases hstep.change (fun _ => hk₁) with
  | quiet ha hf hq => exact absurd rfl ha
  | exec hv hact hthread hk =>
    have hst₂ : (s₁.scExec (fun _ => 0) ⟨0, 0⟩ [.trapReturn, .runTick, .kernel, .finish]).stack =
        [.setLevel .intOn, .trapReturn, .runTick, .kernel, .finish] := by
      rw [hfork, fork_stack]
      change Frame.setLevel s₁.hw.interrupt.level :: _ = _
      rw [hi₁]
    have hi₂ : (s₁.scExec (fun _ => 0) ⟨0, 0⟩ [.trapReturn, .runTick, .kernel, .finish]).hw.interrupt =
        ⟨.intOff, [], false, false, .systemMode, ticks⟩ := by
      rw [hfork]
      change s₁.hw.interrupt.changeLevel .intOff = _
      rw [hi₁]
      rfl
    have hcur : (s₁.scExec (fun _ => 0) ⟨0, 0⟩ [.trapReturn, .runTick, .kernel, .finish]).currentThread =
        s₁.currentThread := by
      rw [hfork]
      rfl
    have hk₂ : (s₁.scExec (fun _ => 0) ⟨0, 0⟩ [.trapReturn, .runTick, .kernel, .finish]).current.killNewChild = false := by
      have ht := congrArg Tag.killNewChild ((congrFun hv s₁.currentThread).trans (Function.update_of_ne hlt.ne ..))
      unfold current
      rw [hcur]
      exact ht.trans hk₁
    obtain ⟨t, hp, hq⟩ := Parked.returns hr₂ hst₂ ⟨ticks, hi₂⟩ hk₂
    have hid := congrArg Tag.id (tag_of_update hv).1
    have hid' := congrArg Tag.id (congrFun hq.tags s₁.created)
    refine ⟨t, hp, ?_, s₁.created, ?_, (hid'.trans hid).trans hq₁.threadID⟩
    · rw [hq.threadID, hthread, hq₁.threadID]
    · rw [hq.active, hact]
      simp

theorem parked_start : ∃ s, Parked s ∧ s.threadID = 1 := by
  have hrun : (mainStarts.foldlM advance cleared).map (fun s => (s.stack, s.hw.interrupt, s.current.killNewChild,
      s.threadID)) = some ([.oneInstruction, .kernel, .finish], ⟨.intOn, [], false, false, .userMode, 10⟩, false, 1) := by
    decide +kernel
  obtain ⟨s, hs, he⟩ := Option.map_eq_some_iff.mp hrun
  simp only [Prod.mk.injEq] at he
  obtain ⟨hst, hi, hk, hid⟩ := he
  exact ⟨s, ⟨advance_run cleared_run hs, hst, ⟨_, hi⟩, hk⟩, hid⟩

theorem many_execs (n : Nat) : ∃ s, Parked s ∧ s.threadID = CInt.wrap (n + 1) := by
  induction n with
  | zero =>
    obtain ⟨s, hp, hid⟩ := parked_start
    exact ⟨s, hp, hid⟩
  | succ n ih =>
    obtain ⟨s, hp, hid⟩ := ih
    obtain ⟨t, ht, hid', -⟩ := hp.execs
    refine ⟨t, ht, ?_⟩
    rw [hid', hid]
    exact Int.bmod_add_bmod

/-- A program that calls `Exec` again and again, until the last name is above `threadID`. -/
theorem names_run_out : ∃ h, Reachable History.Initial History.Step h ∧ ¬h.Faithful ∧
    ∃ t ∈ h.system.activeThreads, h.system.threadID < (h.system.threads t).id := by
  obtain ⟨s, hp, hid⟩ := many_execs (2 ^ 31 - 2)
  have hfull : s.threadID = CInt.intMax := hid
  obtain ⟨t, ht, hnext, u, hu, hlast⟩ := hp.execs
  obtain ⟨h, hh, rfl⟩ := history_of_run (P := fun _ _ => True) (ht.run.mono fun _ _ _ ha => ⟨trivial, ha⟩)
  have hlt : h.system.threadID < (h.system.threads u).id := by
    rw [hlast, hnext, hfull, CInt.wrap_of_over]
    · norm_num [CInt.intMax]
    · exact Int.lt_succ _
    · norm_num [CInt.intMax]
  exact ⟨h, hh.mono fun _ _ _ ha => ha.2, fun hf => lt_asymm hlt (hf.smaller u hu), u, hu, hlt⟩

end Overflow

end ThreadSystem

end Nachos
