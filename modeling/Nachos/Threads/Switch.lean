import Nachos.Threads.Discipline

namespace Nachos

def resumes : List Frame → Bool
  | .switched :: _ | .machineRun :: _ => true
  | _ => false

theorem resumes_of_plain {stack : List Frame} (h : plain stack = true) : resumes stack = false := by
  cases stack with
  | nil => rfl
  | cons f rest =>
    cases f with
    | switched => cases h
    | machineRun => cases h
    | _ => rfl

theorem Suspended.ne_machineRun {stack : List Frame} (h : Suspended stack) (rest : List Frame) :
    stack ≠ .machineRun :: rest := by
  rintro rfl
  cases h.level

theorem Control.resumes {assertMain : Bool} {hw hw' : Hardware} {stack stack' : List Frame}
    (h : Control assertMain hw stack hw' stack') (hn : WellNested stack) : resumes stack' = false := by
  cases h with
  | setLevel h =>
    obtain hp | ⟨-, old, r, rfl⟩ := hn.1.2
    · exact resumes_of_plain hp
    · rfl
  | endTick h hy =>
    obtain hp | ⟨-, r, rfl⟩ := hn.1
    · exact resumes_of_plain hp
    · rfl
  | tickYielded =>
    obtain hp | ⟨-, r, rfl⟩ := hn.1
    · exact resumes_of_plain hp
    · rfl
  | endIdle h =>
    obtain ⟨r, rfl⟩ := hn.1
    rfl
  | handlerReturn =>
    obtain ⟨r, rfl⟩ | ⟨r, rfl⟩ := hn.1 <;> rfl
  | @schedule f _ _ _ _ rest hf h =>
    cases f with
    | kernel => rfl
    | handler old => rfl
    | _ => cases hf
  | trapReturn =>
    obtain hp | ⟨r, rfl⟩ := hn.1
    · exact resumes_of_plain hp
    · rfl
  | exceptionHandler h => exact resumes_of_plain (handlerCode_nested h hn).2
  | joined => exact resumes_of_plain hn.1.1
  | execFails => exact resumes_of_plain hn.1
  | kernelReturn => exact resumes_of_plain hn.1
  | _ => rfl

def Context.Saved (c : Context) : Prop :=
  ∀ rest, c.stack = .switched :: rest → c.space.isSome = true → c.userRegisters = c.left

theorem Context.saved_of_resumes {c : Context} (h : resumes c.stack = false) : c.Saved := by
  intro rest hs
  rw [hs] at h
  cases h

theorem Thread.switchOut_saved (u : Thread) (registers : Register → Word) (rest : List Frame) :
    (u.switchOut registers rest).context.Saved := by
  intro _ _ hs
  exact if_pos hs

def Hardware.Holds (hw : Hardware) (registers : Register → Word) (σ : Space) : Prop :=
  hw.registers = registers ∧ hw.pageTable = some σ.pageTable ∧ hw.pageTableSize = σ.numPages

namespace ThreadSystem

variable {s t : ThreadSystem} {stack rest : List Frame}

inductive Effect (s t : ThreadSystem) : Prop
  | goes {stack : List Frame} (hg : Goes s t stack) (hr : resumes stack = false)
  | enters (σ : Space) (rest : List Frame) (hc : t.currentThread = s.currentThread) (hk : t.created = s.created)
      (hv : t.view Thread.context = Function.update (s.view Thread.context) s.currentThread
        { s.current.context with stack := .machineRun :: rest, space := some σ })
      (hh : t.hw.Holds σ.initRegisters σ)
  | switches {rest : List Frame} (hk : t.created = s.created) (hv : t.view Thread.context =
      Function.update (s.view Thread.context) s.currentThread (s.current.switchOut s.hw.registers rest).context)
  | forks {func : Frame} {rest : List Frame} (hc : t.currentThread = s.currentThread)
      (hk : t.created = s.created + 1)
      (hv : t.view Thread.stack = Function.update (Function.update (s.view Thread.stack) s.created
        (stackAllocate func)) s.currentThread (.setLevel s.hw.interrupt.level :: rest))
      (ho : ∀ u, u ≠ s.currentThread → u ≠ s.created → t.view Thread.context u = s.view Thread.context u)

theorem fork_others (s : ThreadSystem) (thread : Thread) (func : Frame) (rest : List Frame) (u : Tid)
    (hc : u ≠ s.currentThread) (hn : u ≠ s.created) :
    (s.fork thread func rest).view Thread.context u = s.view Thread.context u := by
  simp [view, ThreadSystem.fork, readyToRun, setStack, setStatus, modify, hc, hn]

theorem processCreator_effect (h : s.processCreator rest = .ok t) : Effect s t := by
  obtain ⟨hg, -⟩ := processCreator_goes h
  obtain ⟨σ, threadToBeDestroyed, hσ, rfl⟩ := processCreator_ok h
  refine .enters σ rest hg.current hg.created (hg.contexts.trans ?_) ⟨rfl, rfl, rfl⟩
  rw [← hσ]
  rfl

theorem Step.effect {a : Action} (hd : Disciplined s) (h : Step s a t) : Effect s t := by
  have hn := hd.wellNested
  cases h with
  | control hc => exact .goes (goes_setStack rfl rfl rfl) (hc.resumes hn)
  | idle hs hr hd hc => exact .goes (goes_setStack rfl rfl rfl) rfl
  | dispatch hs hd =>
    obtain ⟨nextThread, readyList, -, rfl⟩ := dispatch_some hd
    exact .switches rfl (run_contexts _)
  | switched hs he =>
    rw [hs] at hn
    exact .goes (switched_goes he).1 (resumes_of_plain hn.1.1)
  | @yield rest hs =>
    obtain ⟨-, hg | ⟨hk, hv⟩⟩ := yield_cases s rest
    · exact .goes hg rfl
    · exact .switches hk hv
  | fork hs => exact .forks rfl rfl (fork_frames ..) (fork_others _ _ _ _)
  | exec hs =>
    rw [hs] at hn
    unfold scExec
    split_ifs
    · exact .goes (goes_setStack rfl rfl (view_update_same (s := s) rfl (by rfl))) (resumes_of_plain hn.1)
    · exact .forks rfl rfl (fork_frames ..) (fork_others _ _ _ _)
  | join hs he =>
    rw [hs] at hn
    obtain ⟨hg, -⟩ | ⟨child, hg, -⟩ := scJoin_goes he
    · exact .goes hg (resumes_of_plain hn.1.1)
    · exact .goes hg rfl
  | yieldReturn hs he =>
    rw [hs] at hn
    exact .goes (scYieldReturn_goes he).1 (resumes_of_plain hn.1)
  | finish hs he => exact .goes (finish_goes he).1 rfl
  | p hs he =>
    obtain ⟨hg | hg, -⟩ := p_goes he
    · exact .goes hg rfl
    · exact .goes hg rfl
  | v hf hs => exact .goes (v_goes s _ _).1 rfl
  | processCreator hs he => exact processCreator_effect he
  | startProcess hs hsp => exact .enters _ _ rfl rfl (startProcess_contexts _) ⟨rfl, rfl, rfl⟩

theorem Step.stack_ne_nil {a : Action} (h : Step s a t) : s.stack ≠ [] := by
  cases h with
  | control hc =>
    intro hs
    rw [hs] at hc
    cases hc
  | idle hs | dispatch hs | switched hs | yield hs | fork hs | exec hs | join hs | yieldReturn hs | finish hs | p hs
  | processCreator hs | startProcess hs => simp [hs]
  | v hf hs => simp [hs]

structure Transparent (s : ThreadSystem) : Prop where
  saved : ∀ u, (s.view Thread.context u).Saved
  entered : ∀ rest, s.stack = .machineRun :: rest → ∃ σ, s.current.space = some σ ∧ s.hw.Holds σ.initRegisters σ
  fresh : ∀ u, s.created ≤ u → s.view Thread.stack u = []

theorem Transparent.current_lt (h : Transparent s) {a : Action} (hs : Step s a t) : s.currentThread < s.created := by
  by_contra hlt
  exact hs.stack_ne_nil (h.fresh _ (not_lt.mp hlt))

theorem Transparent.update (h : Transparent s) {c : Context} (hc : c.Saved) (hlt : s.currentThread < s.created)
    (hk : t.created = s.created)
    (hv : t.view Thread.context = Function.update (s.view Thread.context) s.currentThread c)
    (ht : ∀ rest, t.stack = .machineRun :: rest → ∃ σ, t.current.space = some σ ∧ t.hw.Holds σ.initRegisters σ) :
    Transparent t := by
  refine ⟨?_, ht, fun u hu => ?_⟩
  · rw [hv]
    exact (Function.forall_update_iff _ fun _ => Context.Saved).mpr ⟨hc, fun u _ => h.saved u⟩
  · rw [hk] at hu
    rw [frames_of_contexts hv, Function.update_of_ne (hlt.trans_le hu).ne']
    exact h.fresh u hu

theorem Transparent.forks (h : Transparent s) (hlt : s.currentThread < s.created) {func : Frame}
    (hc : t.currentThread = s.currentThread) (hk : t.created = s.created + 1)
    (hv : t.view Thread.stack = Function.update (Function.update (s.view Thread.stack) s.created
      (stackAllocate func)) s.currentThread (.setLevel s.hw.interrupt.level :: rest))
    (ho : ∀ u, u ≠ s.currentThread → u ≠ s.created → t.view Thread.context u = s.view Thread.context u) :
    Transparent t := by
  refine ⟨fun u => ?_, fun rest hs => ?_, fun u hu => ?_⟩
  · have hu := congrFun hv u
    by_cases hcur : u = s.currentThread
    · rw [hcur, Function.update_self] at hu
      rw [hcur]
      exact Context.saved_of_resumes (congrArg resumes hu)
    · rw [Function.update_of_ne hcur] at hu
      by_cases hnew : u = s.created
      · rw [hnew, Function.update_self] at hu
        rw [hnew]
        exact Context.saved_of_resumes (congrArg resumes hu)
      · rw [ho u hcur hnew]
        exact h.saved u
  · have hu := congrFun hv s.currentThread
    rw [Function.update_self] at hu
    rw [← hc] at hu
    cases hu.symm.trans hs
  · rw [hk] at hu
    have hu' : s.created < u := hu
    rw [hv, Function.update_of_ne (hlt.trans hu').ne', Function.update_of_ne hu'.ne']
    exact h.fresh u hu'.le

theorem Transparent.step {a : Action} (h : Transparent s) (hd : Disciplined s) (hs : Step s a t) : Transparent t := by
  have hlt := h.current_lt hs
  cases hs.effect hd with
  | @goes stack hg hr =>
    refine h.update (Context.saved_of_resumes (c := { s.current.context with stack }) hr) hlt hg.created hg.contexts
      fun rest he => ?_
    rw [← hg.stack_eq, he] at hr
    cases hr
  | enters σ rest hc hk hv hh =>
    refine h.update (fun _ he => by cases he) hlt hk hv fun _ _ => ⟨σ, ?_, hh⟩
    have hcur := congrFun hv s.currentThread
    rw [Function.update_self, ← hc] at hcur
    exact congrArg Context.space hcur
  | switches hk hv =>
    refine h.update (Thread.switchOut_saved _ _ _) hlt hk hv fun rest he => ?_
    have hsus := hd.suspended (frames_of_contexts hv) (suspended_switched _) t.currentThread
    exact absurd he (hsus.ne_machineRun rest)
  | forks hc hk hv ho => exact h.forks hlt hc hk hv ho

theorem Initial.transparent (h : Initial s) : Transparent s := by
  obtain ⟨garbage, pending, hw, values, pooled, rfl⟩ := h
  have hall : ∀ u, resumes ((boot garbage pending hw values pooled).view Thread.stack u) = false := by
    rw [boot_frames]
    exact (Function.forall_update_iff _ fun _ stack => resumes stack = false).mpr ⟨rfl, fun _ _ => rfl⟩
  refine ⟨fun u => Context.saved_of_resumes (hall u), fun rest hs => (by cases hs), fun u hu => ?_⟩
  have hne : u ≠ main := Nat.ne_of_gt hu
  rw [boot_frames, Function.update_of_ne hne]

theorem Run.transparent (h : Run s) : Transparent s := by
  refine (Reachable.invariant (I := fun s => Disciplined s ∧ Transparent s) ?_ ?_ h).2
  · exact fun _ hi => ⟨hi.disciplined, hi.transparent⟩
  · exact fun _ _ _ hi hs => ⟨hi.1.step hs, hi.2.step hi.1 hs⟩

theorem Step.left_of_switched {a : Action} (hd : Disciplined s) (hs : Step s a t)
    (he : (t.threads s.currentThread).stack = .switched :: rest) :
    (t.threads s.currentThread).left = s.hw.registers := by
  cases hs.effect hd with
  | goes hg hr =>
    have hcur := congrFun hg.frames s.currentThread
    rw [Function.update_self] at hcur
    rw [← hcur, show t.view Thread.stack s.currentThread = _ from he] at hr
    cases hr
  | enters σ rest hc hk hv hh =>
    have hcur := congrFun (frames_of_contexts hv) s.currentThread
    rw [Function.update_self] at hcur
    cases hcur.symm.trans he
  | switches hk hv =>
    have hcur := congrFun hv s.currentThread
    rw [Function.update_self] at hcur
    exact congrArg Context.left hcur
  | forks hc hk hv ho =>
    have hcur := congrFun hv s.currentThread
    rw [Function.update_self] at hcur
    cases hcur.symm.trans he

theorem Step.context_of_switched {a : Action} {u : Tid} (hd : Disciplined s) (h : Transparent s) (hs : Step s a t)
    (hu : u ≠ s.currentThread) (he : (s.threads u).stack = .switched :: rest) :
    t.view Thread.context u = s.view Thread.context u := by
  have hnew : u ≠ s.created := by
    rintro rfl
    cases he.symm.trans (h.fresh s.created (le_refl _))
  cases hs.effect hd with
  | goes hg hr => rw [hg.contexts, Function.update_of_ne hu]
  | enters σ rest hc hk hv hh => rw [hv, Function.update_of_ne hu]
  | switches hk hv => rw [hv, Function.update_of_ne hu]
  | forks hc hk hv ho => exact ho u hu hnew

theorem Transparent.switched (h : Transparent s) {σ : Space} (hσ : s.current.space = some σ) (hs : Step s .switched t) :
    t.currentThread = s.currentThread ∧ t.hw.Holds s.current.left σ := by
  cases hs with
  | switched hst he =>
    obtain ⟨hw, threadToBeDestroyed, rfl, -, hh⟩ := switched_ok he
    have hsaved : s.current.userRegisters = s.current.left :=
      h.saved s.currentThread _ hst (Option.isSome_iff_exists.mpr ⟨σ, hσ⟩)
    refine ⟨rfl, ?_⟩
    change hw.Holds s.current.left σ
    rw [hh σ hσ]
    exact ⟨hsaved, rfl, rfl⟩

theorem Transparent.machineRun {a : Action} (h : Transparent s) (hm : s.stack = .machineRun :: rest)
    (hs : Step s a t) : ∃ σ, s.current.space = some σ ∧ t.currentThread = s.currentThread ∧
      t.stack = .oneInstruction :: rest ∧ t.hw.Holds σ.initRegisters σ := by
  obtain ⟨σ, hσ, hh⟩ := h.entered rest hm
  cases hs with
  | control hc =>
    rw [hm] at hc
    cases hc with
    | fire hf => cases hf
    | schedule hf => cases hf
    | machineRun => exact ⟨σ, hσ, rfl, (goes_setStack rfl rfl rfl : Goes s _ _).stack_eq, hh⟩
  | idle hst | dispatch hst | switched hst | yield hst | fork hst | exec hst | join hst | yieldReturn hst | finish hst
  | p hst | processCreator hst | startProcess hst => cases hm.symm.trans hst
  | v hf hst =>
    obtain rfl := (List.cons.inj (hm.symm.trans hst)).1
    cases hf

/-- `Run` gives every user program the registers back that it had when `Run` took the machine from it, together with
its own page table, and a new process starts with the registers of its own space. -/
theorem switch_transparent (h : Run s) :
    (∀ a t rest, Step s a t → (t.threads s.currentThread).stack = .switched :: rest →
      (t.threads s.currentThread).left = s.hw.registers) ∧
    (∀ a t u rest, Step s a t → u ≠ s.currentThread → (s.threads u).stack = .switched :: rest →
      (t.threads u).stack = .switched :: rest ∧ (t.threads u).left = (s.threads u).left) ∧
    (∀ t σ, Step s .switched t → s.current.space = some σ →
      t.currentThread = s.currentThread ∧ t.hw.Holds s.current.left σ) ∧
    ∀ a t rest, Step s a t → s.stack = .machineRun :: rest → ∃ σ, s.current.space = some σ ∧
      t.currentThread = s.currentThread ∧ t.stack = .oneInstruction :: rest ∧ t.hw.Holds σ.initRegisters σ := by
  have hd := h.disciplined
  have ht := h.transparent
  refine ⟨fun a t rest hs he => hs.left_of_switched hd he, fun a t u rest hs hu he => ?_,
    fun t σ hs hσ => ht.switched hσ hs, fun a t rest hs hm => ht.machineRun hm hs⟩
  have hc := hs.context_of_switched hd ht hu he
  exact ⟨(congrArg Context.stack hc).trans he, congrArg Context.left hc⟩

theorem switch_transparent_joined : ∃ s t : ThreadSystem, s.hw.registers Kernel.arg1Reg = 0 ∧
    s.current.left Kernel.arg1Reg = 1 ∧ Step s .switched t ∧ t.hw.Holds s.current.left ⟨1, 4⟩ := by
  have hrun : ((mainStarts ++ execs ⟨2, 3⟩ ++ joins 1 ++ [sysCall 1 0, .go, .go, .go, .go]).foldlM advance cleared).map
      (fun s => (s.hw.registers Kernel.arg1Reg, s.current.left Kernel.arg1Reg, s.current.space, s.stack,
        (s.switched s.stack.tail).isOk)) =
      some (0, 1, some ⟨1, 4⟩, [.switched, .joining 1, .trapReturn, .runTick, .kernel, .finish], true) := by
    decide +kernel
  obtain ⟨s, hs, he⟩ := Option.map_eq_some_iff.mp hrun
  simp only [Prod.mk.injEq] at he
  obtain ⟨hreg, hleft, hspace, hst, hok⟩ := he
  rw [hst] at hok
  obtain ⟨t, ht⟩ := ok_of_isOk hok
  have hstep : Step s .switched t := .switched hst ht
  have hr := advance_run cleared_run hs
  exact ⟨s, t, hreg, hleft, hstep, ((switch_transparent hr).2.2.1 t _ hstep hspace).2⟩

end ThreadSystem

end Nachos
