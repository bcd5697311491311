import Nachos.FileSys.Disk
import Nachos.Lib.Run
import Nachos.Threads.Synch

namespace Nachos.SynchDisk

inductive Request where
  | read (sectorNumber : Int)
  | write (sectorNumber : Int)
  deriving DecidableEq

structure Device (T : Type) where
  contents : Disk
  active : Bool
  pending : List T

namespace Device

variable {T : Type}

def request (d : Device T) (t : T) (r : Request) (data : Buffer) : Except Fault (Buffer × Device T) := do
  assert (d.active = false)
  match r with
  | .read sectorNumber =>
    let bytes ← d.contents.readSector sectorNumber
    .ok (data.copy 0 bytes Disk.sectorSize, { d with active := true, pending := d.pending ++ [t] })
  | .write sectorNumber =>
    let contents ← d.contents.writeSector sectorNumber data
    .ok (data, { contents, active := true, pending := d.pending ++ [t] })

def handleInterrupt [DecidableEq T] (d : Device T) (t : T) : Device T :=
  { d with active := false, pending := d.pending.erase t }

theorem request_ok {d d' : Device T} {t : T} {r : Request} {data data' : Buffer}
    (h : d.request t r data = .ok (data', d')) :
    d.active = false ∧ d'.active = true ∧ d'.pending = d.pending ++ [t] := by
  obtain ⟨_, ha, h⟩ := bind_eq_ok.mp h
  rw [assert_ok_iff] at ha
  cases r with
  | read sectorNumber =>
    obtain ⟨bytes, -, h⟩ := bind_eq_ok.mp h
    cases h
    exact ⟨ha, rfl, rfl⟩
  | write sectorNumber =>
    obtain ⟨contents, -, h⟩ := bind_eq_ok.mp h
    cases h
    exact ⟨ha, rfl, rfl⟩

end Device

/-- Where a thread is in `ReadSector` or `WriteSector`. `testing` is the head of the loop of
`Semaphore::P`, reached on entry and again after every wake-up. -/
inductive Pc where
  | outside
  | requesting (r : Request)
  | testing
  | asleep
  | releasing
  deriving DecidableEq

/-- `handled t` is a ghost: the interrupt of the request of `t`'s present call has been handled. -/
structure State (T : Type) where
  pc : T → Pc
  data : T → Buffer
  semaphore : Semaphore T
  lock : Lock
  disk : Device T
  cpu : Scheduler T
  handled : T → Bool

inductive Action (T : Type) where
  | call (t : T) (r : Request) (data : Buffer)
  | request (t : T) (r : Request)
  | p (t : T)
  | leave (t : T)
  | interrupt (t : T)
  | yield (t : T)
  | dispatch (t : T)

namespace State

variable {T : Type} [DecidableEq T]

def goto (s : State T) (t : T) (p : Pc) : State T := { s with pc := Function.update s.pc t p }

def Enabled (s : State T) : Action T → Prop
  | .call t _ _ => s.cpu.current = some t ∧ s.pc t = .outside
  | .request t r => s.cpu.current = some t ∧ s.pc t = .requesting r
  | .p t => s.cpu.current = some t ∧ s.pc t = .testing
  | .leave t => s.cpu.current = some t ∧ s.pc t = .releasing
  | .interrupt t => t ∈ s.disk.pending
  | .yield t => s.cpu.current = some t
  | .dispatch t => s.cpu.current = none ∧ s.cpu.ready.head? = some t

def requestDone (s : State T) : State T :=
  match s.semaphore.v with
  | (none, semaphore) => { s with semaphore }
  | (some u, semaphore) => { s.goto u .testing with semaphore, cpu := s.cpu.readyToRun u }

def enter (s : State T) (t : T) (r : Request) (data : Buffer) : State T :=
  { s.goto t (.requesting r) with
    lock := s.lock.acquire
    data := Function.update s.data t data
    handled := Function.update s.handled t false }

def next (s : State T) : Action T → Except Fault (State T)
  | .call t r data => .ok (s.enter t r data)
  | .request t r => do
    let (data, disk) ← s.disk.request t r (s.data t)
    .ok { s.goto t .testing with disk, data := Function.update s.data t data }
  | .p t =>
    match s.semaphore.tryP t with
    | (true, semaphore) => .ok { s.goto t .releasing with semaphore }
    | (false, semaphore) => .ok { s.goto t .asleep with semaphore, cpu := s.cpu.sleep }
  | .leave t => .ok { s.goto t .outside with lock := s.lock.release }
  | .interrupt t =>
    .ok (requestDone { s with disk := s.disk.handleInterrupt t, handled := Function.update s.handled t true })
  | .yield t => .ok { s with cpu := s.cpu.yield t }
  | .dispatch t => .ok { s with cpu := { current := some t, ready := s.cpu.ready.tail } }

def Step (s : State T) (a : Action T) (s' : State T) : Prop := s.Enabled a ∧ s.next a = .ok s'

structure Initial (s : State T) : Prop where
  pc : ∀ t, s.pc t = .outside
  semaphore : s.semaphore = .new 0
  active : s.disk.active = false
  pending : s.disk.pending = []

structure Serialised (s : State T) : Prop where
  idle : ∀ t r, s.cpu.current = some t → s.pc t = .requesting r → s.disk.active = false
  done : ∀ t, s.pc t = .releasing → s.handled t = true

end State

def Pc.Settled (p : Pc) : Prop := p = .outside ∨ p = .releasing

namespace State

variable {T : Type} {s s' : State T} {t : T}

def Alone (s : State T) (t : T) : Prop := ∀ u, u ≠ t → (s.pc u).Settled

structure Holds (s : State T) (active : Bool) (pending : List T) (value : Int) (queue : List T) : Prop where
  active : s.disk.active = active
  pending : s.disk.pending = pending
  semaphore : s.semaphore = ⟨value, queue⟩

inductive Phase (s : State T) : Prop where
  | quiet (hs : ∀ u, (s.pc u).Settled) (h : s.Holds false [] 0 [])
  | requesting (t : T) (r : Request) (ha : s.Alone t) (hpc : s.pc t = .requesting r)
      (h : s.Holds false [] 0 [])
  | issued (t : T) (ha : s.Alone t) (hpc : s.pc t = .testing) (h : s.Holds true [t] 0 [])
  | waiting (t : T) (ha : s.Alone t) (hpc : s.pc t = .asleep) (h : s.Holds true [t] 0 [t])
  | served (t : T) (ha : s.Alone t) (hpc : s.pc t = .testing) (hh : s.handled t = true)
      (h : s.Holds false [] 1 [])

structure Inv (s : State T) : Prop where
  phase : s.Phase
  done : ∀ t, s.pc t = .releasing → s.handled t = true

theorem Holds.frame {active : Bool} {pending queue : List T} {value : Int}
    (h : s.Holds active pending value queue) (hd : s'.disk = s.disk) (hq : s'.semaphore = s.semaphore) :
    s'.Holds active pending value queue :=
  ⟨by rw [hd, h.active], by rw [hd, h.pending], by rw [hq, h.semaphore]⟩

theorem Alone.eq_of_not_settled {u : T} (ha : s.Alone t) (hu : ¬(s.pc u).Settled) :
    u = t := by
  by_contra hne
  exact hu (ha u hne)

theorem Phase.frame (h : s.Phase) (hd : s'.disk = s.disk)
    (hq : s'.semaphore = s.semaphore) (hh : s'.handled = s.handled)
    (hpc : ∀ u, s'.pc u = s.pc u ∨ (s.pc u).Settled ∧ (s'.pc u).Settled) : s'.Phase := by
  have hset : ∀ u, (s.pc u).Settled → (s'.pc u).Settled := by
    intro u hu
    rcases hpc u with he | ⟨-, hs⟩
    · rwa [he]
    · exact hs
  have heq : ∀ {u p}, s.pc u = p → ¬p.Settled → s'.pc u = p := by
    intro u p hu hp
    rcases hpc u with he | ⟨hs, -⟩
    · rw [he, hu]
    · exact absurd (hu ▸ hs) hp
  have halone : ∀ {t}, s.Alone t → s'.Alone t := fun ha u hu => hset u (ha u hu)
  cases h with
  | quiet hs h => exact .quiet (fun u => hset u (hs u)) (h.frame hd hq)
  | requesting t r ha hpc h => exact .requesting t r (halone ha) (heq hpc (by simp [Pc.Settled])) (h.frame hd hq)
  | issued t ha hpc h => exact .issued t (halone ha) (heq hpc (by simp [Pc.Settled])) (h.frame hd hq)
  | waiting t ha hpc h => exact .waiting t (halone ha) (heq hpc (by simp [Pc.Settled])) (h.frame hd hq)
  | served t ha hpc hs h =>
    exact .served t (halone ha) (heq hpc (by simp [Pc.Settled])) (by rw [hh, hs]) (h.frame hd hq)

theorem Initial.inv (h : s.Initial) : s.Inv where
  phase := .quiet (fun u => .inl (h.pc u)) ⟨h.active, h.pending, h.semaphore⟩
  done := by
    intro t ht
    rw [h.pc t] at ht
    cases ht

theorem Phase.of_settled (h : s.Phase) (hs : ∀ u, (s.pc u).Settled) : s.Holds false [] 0 [] := by
  cases h with
  | quiet _ h => exact h
  | requesting t r ha hpc h => exact absurd (hs t) (by simp [hpc, Pc.Settled])
  | issued t ha hpc h => exact absurd (hs t) (by simp [hpc, Pc.Settled])
  | waiting t ha hpc h => exact absurd (hs t) (by simp [hpc, Pc.Settled])
  | served t ha hpc hh h => exact absurd (hs t) (by simp [hpc, Pc.Settled])

theorem Phase.of_requesting {r : Request} (h : s.Phase) (ht : s.pc t = .requesting r) :
    s.Alone t ∧ s.Holds false [] 0 [] := by
  have hn : ¬(s.pc t).Settled := by simp [ht, Pc.Settled]
  cases h with
  | quiet hs h => exact absurd (hs t) hn
  | requesting u r' ha hpc h => exact ⟨ha.eq_of_not_settled hn ▸ ha, h⟩
  | issued u ha hpc h => simp [ha.eq_of_not_settled hn, hpc] at ht
  | waiting u ha hpc h => simp [ha.eq_of_not_settled hn, hpc] at ht
  | served u ha hpc hh h => simp [ha.eq_of_not_settled hn, hpc] at ht

theorem Phase.of_testing (h : s.Phase) (ht : s.pc t = .testing) :
    s.Alone t ∧ (s.Holds true [t] 0 [] ∨ s.handled t = true ∧ s.Holds false [] 1 []) := by
  have hn : ¬(s.pc t).Settled := by simp [ht, Pc.Settled]
  cases h with
  | quiet hs h => exact absurd (hs t) hn
  | requesting u r' ha hpc h => simp [ha.eq_of_not_settled hn, hpc] at ht
  | issued u ha hpc h => exact ⟨ha.eq_of_not_settled hn ▸ ha, .inl (ha.eq_of_not_settled hn ▸ h)⟩
  | waiting u ha hpc h => simp [ha.eq_of_not_settled hn, hpc] at ht
  | served u ha hpc hh h => exact ⟨ha.eq_of_not_settled hn ▸ ha, .inr ⟨ha.eq_of_not_settled hn ▸ hh, h⟩⟩

theorem Phase.of_pending (h : s.Phase) (ht : t ∈ s.disk.pending) :
    s.Alone t ∧ (s.pc t = .testing ∧ s.Holds true [t] 0 [] ∨ s.pc t = .asleep ∧ s.Holds true [t] 0 [t]) := by
  cases h with
  | quiet _ h => simp [h.pending] at ht
  | requesting _ _ _ _ h => simp [h.pending] at ht
  | issued u ha hpc h =>
    obtain rfl : t = u := by simpa [h.pending] using ht
    exact ⟨ha, .inl ⟨hpc, h⟩⟩
  | waiting u ha hpc h =>
    obtain rfl : t = u := by simpa [h.pending] using ht
    exact ⟨ha, .inr ⟨hpc, h⟩⟩
  | served _ _ _ _ h => simp [h.pending] at ht

theorem Phase.woken {u : T} (h : s.Phase) (hd : ¬s.disk.active = true)
    (hu : s.pc u = .testing ∨ s.pc u = .asleep) : s.semaphore = ⟨1, []⟩ := by
  have hn : ¬(s.pc u).Settled := by
    rcases hu with hu | hu <;> simp [hu, Pc.Settled]
  cases h with
  | quiet hs h => exact absurd (hs u) hn
  | requesting t r ha hpc h => simp [ha.eq_of_not_settled hn, hpc] at hu
  | issued t ha hpc h => exact absurd h.active hd
  | waiting t ha hpc h => exact absurd h.active hd
  | served t ha hpc hh h => exact h.semaphore

theorem Inv.serialised (h : s.Inv) : s.Serialised where
  idle _ _ _ hr := (h.phase.of_requesting hr).2.active
  done := h.done

variable [DecidableEq T]

def SerialStep (s : State T) (a : Action T) (s' : State T) : Prop :=
  s.Step a s' ∧ ∀ t r data, a = .call t r data → s.Alone t

theorem pc_of_goto {u : T} {p q : Pc} (hpq : p ≠ q) (h : (s.goto t p).pc u = q) : u ≠ t ∧ s.pc u = q := by
  have hut : u ≠ t := by
    rintro rfl
    exact hpq (by simpa only [State.goto, Function.update_self] using h)
  simp only [State.goto, Function.update_of_ne hut] at h
  exact ⟨hut, h⟩

theorem Alone.goto (ha : s.Alone t) (p : Pc) : (s.goto t p).Alone t := by
  intro u hu
  simp only [State.goto, Function.update_of_ne hu]
  exact ha u hu

theorem Alone.settle (ha : s.Alone t) {p : Pc} (hp : p.Settled) (u : T) :
    ((s.goto t p).pc u).Settled := by
  by_cases hu : u = t
  · simpa only [State.goto, hu, Function.update_self] using hp
  · exact ha.goto p u hu

theorem Inv.call (h : s.Inv) (ht : s.pc t = .outside) (ha : s.Alone t) (r : Request) (data : Buffer)
    (hn : s.next (.call t r data) = .ok s') : s'.Inv := by
  cases hn
  have hs : ∀ u, (s.pc u).Settled := by
    intro u
    by_cases hu : u = t
    · exact .inl (hu ▸ ht)
    · exact ha u hu
  constructor
  · exact .requesting t r (ha.goto _) (Function.update_self ..) ((h.phase.of_settled hs).frame rfl rfl)
  · intro u hu
    obtain ⟨hut, hu⟩ := pc_of_goto (by simp) hu
    simp only [enter, Function.update_of_ne hut]
    exact h.done u hu

theorem Inv.request {r : Request} (h : s.Inv) (ht : s.pc t = .requesting r)
    (hn : s.next (.request t r) = .ok s') : s'.Inv := by
  obtain ⟨ha, hh⟩ := h.phase.of_requesting ht
  obtain ⟨⟨data, disk⟩, hd, he⟩ := bind_eq_ok.mp hn
  obtain ⟨-, hact, hpend⟩ := Device.request_ok hd
  cases he
  constructor
  · refine .issued t (ha.goto _) (Function.update_self ..) ⟨hact, ?_, hh.semaphore⟩
    rw [hpend, hh.pending, List.nil_append]
  · intro u hu
    exact h.done u (pc_of_goto (by simp) hu).2

theorem Inv.p (h : s.Inv) (ht : s.pc t = .testing) (hn : s.next (.p t) = .ok s') : s'.Inv := by
  obtain ⟨ha, hh | ⟨hdone, hh⟩⟩ := h.phase.of_testing ht
  · simp only [next, Semaphore.tryP, hh.semaphore, ↓reduceIte, List.nil_append] at hn
    cases hn
    constructor
    · exact .waiting t (ha.goto _) (Function.update_self ..) ⟨hh.active, hh.pending, rfl⟩
    · intro u hu
      exact h.done u (pc_of_goto (by simp) hu).2
  · simp only [next, Semaphore.tryP, hh.semaphore, one_ne_zero, ↓reduceIte, sub_self] at hn
    cases hn
    constructor
    · exact .quiet (ha.settle (.inr rfl)) ⟨hh.active, hh.pending, rfl⟩
    · intro u hu
      by_cases hut : u = t
      · exact hut ▸ hdone
      · simp only [State.goto, Function.update_of_ne hut] at hu
        exact h.done u hu

theorem Inv.leave (h : s.Inv) (ht : s.pc t = .releasing) (hn : s.next (.leave t) = .ok s') : s'.Inv := by
  cases hn
  constructor
  · refine h.phase.frame rfl rfl rfl ?_
    intro u
    by_cases hut : u = t
    · refine .inr ⟨.inr (hut ▸ ht), .inl ?_⟩
      simp [State.goto, hut]
    · exact .inl (Function.update_of_ne hut ..)
  · intro u hu
    exact h.done u (pc_of_goto (by simp) hu).2

theorem Inv.interrupt (h : s.Inv) (ht : t ∈ s.disk.pending) (hn : s.next (.interrupt t) = .ok s') : s'.Inv := by
  cases hn
  have hdone : ∀ u, s.pc u = .releasing → Function.update s.handled t true u = true := by
    intro u hu
    by_cases hut : u = t
    · simp [hut]
    · rw [Function.update_of_ne hut]
      exact h.done u hu
  obtain ⟨ha, ⟨hpc, hh⟩ | ⟨hpc, hh⟩⟩ := h.phase.of_pending ht
  · simp only [requestDone, Semaphore.v, hh.semaphore, List.head?_nil, List.tail_nil]
    refine ⟨.served t ha hpc (Function.update_self ..) ⟨rfl, ?_, rfl⟩, hdone⟩
    simp [Device.handleInterrupt, hh.pending]
  · simp only [requestDone, Semaphore.v, hh.semaphore, List.head?_cons, List.tail_cons]
    refine ⟨.served t (ha.goto _) (Function.update_self ..) (Function.update_self ..) ⟨rfl, ?_, rfl⟩, ?_⟩
    · simp [Device.handleInterrupt, State.goto, hh.pending]
    · intro u hu
      exact hdone u (pc_of_goto (by simp) hu).2

theorem Inv.step {a : Action T} (h : s.Inv) (hs : s.SerialStep a s') : s'.Inv := by
  obtain ⟨⟨he, hn⟩, hc⟩ := hs
  cases a with
  | call t r data => exact h.call he.2 (hc t r data rfl) r data hn
  | request t r => exact h.request he.2 hn
  | p t => exact h.p he.2 hn
  | leave t => exact h.leave he.2 hn
  | interrupt t => exact h.interrupt he hn
  | yield t =>
    cases hn
    exact ⟨h.phase.frame rfl rfl rfl (fun _ => .inl rfl), h.done⟩
  | dispatch t =>
    cases hn
    exact ⟨h.phase.frame rfl rfl rfl (fun _ => .inl rfl), h.done⟩

theorem Inv.overlap {u : T} (h : s.Inv) (ht : s.cpu.current = some t) (hpc : s.pc t = .outside)
    (hu : s.pc u = .testing ∨ s.pc u = .asleep) : ∃ s', Reachable (· = s) Step s' ∧ ¬s'.Serialised := by
  let s₁ := s.enter t (.read 0) (s.data t)
  have h₁ : Reachable (· = s) Step s₁ := .next (.call t (.read 0) (s.data t)) (.start rfl) ⟨⟨ht, hpc⟩, rfl⟩
  have hpc₁ : s₁.pc t = .requesting (.read 0) := Function.update_self ..
  by_cases hact : s.disk.active = true
  · refine ⟨s₁, h₁, ?_⟩
    intro hs
    have hidle : s.disk.active = false := hs.idle t _ ht hpc₁
    simp [hact] at hidle
  · have hv : s.semaphore = ⟨1, []⟩ := h.phase.woken hact hu
    have hd : ∃ data disk, s.disk.request t (.read 0) (s₁.data t) = .ok (data, disk) := by
      have hr : s.disk.contents.readSector 0 = .ok (s.disk.contents 0) := Disk.readSector_ok (le_refl _) (by decide)
      have ha : assert (s.disk.active = false) = .ok () := assert_pos (by simpa using hact)
      simp [Device.request, hr, ha]
    obtain ⟨data, disk, hd⟩ := hd
    let s₂ : State T := { s₁.goto t .testing with disk, data := Function.update s₁.data t data }
    have h₂ : Reachable (· = s) Step s₂ := by
      refine .next (.request t (.read 0)) h₁ ⟨⟨ht, hpc₁⟩, ?_⟩
      change (s.disk.request t (.read 0) (s₁.data t) >>= _) = _
      rw [hd, ok_bind]
    let s₃ : State T := { s₂.goto t .releasing with semaphore := ⟨0, []⟩ }
    have h₃ : Reachable (· = s) Step s₃ := by
      refine .next (.p t) h₂ ⟨⟨ht, Function.update_self ..⟩, ?_⟩
      have hp : s₂.semaphore.tryP t = (true, ⟨0, []⟩) := by
        change s.semaphore.tryP t = _
        rw [hv]
        rfl
      rw [next, hp]
    refine ⟨s₃, h₃, ?_⟩
    intro hs
    have hdone := hs.done t (Function.update_self ..)
    simp [s₃, s₂, s₁, State.goto, enter] at hdone

/-- Run by run: calls that overlap no other thread's wait keep the disk serialised, and the first
call that does overlap one can break it. -/
theorem serialised_iff_alone (h : Reachable Initial SerialStep s) :
    s.Serialised ∧ ∀ t u, s.cpu.current = some t → s.pc t = .outside →
      (s.pc u = .testing ∨ s.pc u = .asleep) → ∃ s', Reachable (· = s) Step s' ∧ ¬s'.Serialised := by
  have hi : s.Inv := h.invariant (fun _ h0 => h0.inv) (fun _ _ _ hi hs => hi.step hs)
  exact ⟨hi.serialised, fun t u ht hpc hu => hi.overlap ht hpc hu⟩

def twoThreads : State Bool where
  pc _ := .outside
  data _ _ := 0
  semaphore := .new 0
  lock := {}
  disk := ⟨fun _ _ => 0, false, []⟩
  cpu := ⟨some false, [true]⟩
  handled _ := false

theorem twoThreads_initial : twoThreads.Initial := ⟨fun _ => rfl, rfl, rfl, rfl⟩

theorem serialised_iff_alone_first : ∃ s : State Bool, s.pc false = .requesting (.read 0) ∧ s.Serialised := by
  refine ⟨twoThreads.enter false (.read 0) (fun _ => 0), rfl, (serialised_iff_alone ?_).1⟩
  refine .next (.call false (.read 0) (fun _ => 0)) (.start twoThreads_initial) ⟨⟨⟨rfl, rfl⟩, rfl⟩, ?_⟩
  exact fun _ _ _ _ _ _ => .inl rfl

theorem overlapping_calls :
    (∃ s : State Bool, Reachable Initial Step s ∧ s.cpu.current = some true ∧
      s.pc true = .requesting (.read 1) ∧ s.disk.active = true) ∧
    ∃ s : State Bool, Reachable Initial Step s ∧ s.pc true = .releasing ∧ s.handled true = false := by
  have h₁ : Reachable Initial Step _ :=
    .next (.call false (.read 0) (fun _ => 0)) (.start twoThreads_initial) ⟨⟨rfl, rfl⟩, rfl⟩
  have h₂ : Reachable Initial Step _ := .next (.request false (.read 0)) h₁ ⟨⟨rfl, rfl⟩, rfl⟩
  have h₃ : Reachable Initial Step _ := .next (.p false) h₂ ⟨⟨rfl, rfl⟩, rfl⟩
  have h₄ : Reachable Initial Step _ := .next (.dispatch true) h₃ ⟨⟨rfl, rfl⟩, rfl⟩
  have h₅ : Reachable Initial Step _ := .next (.call true (.read 1) (fun _ => 0)) h₄ ⟨⟨rfl, rfl⟩, rfl⟩
  have h₆ : Reachable Initial Step _ := .next (.interrupt false) h₄ ⟨List.mem_singleton.mpr rfl, rfl⟩
  have h₇ : Reachable Initial Step _ := .next (.call true (.read 1) (fun _ => 0)) h₆ ⟨⟨rfl, rfl⟩, rfl⟩
  have h₈ : Reachable Initial Step _ := .next (.request true (.read 1)) h₇ ⟨⟨rfl, rfl⟩, rfl⟩
  have h₉ : Reachable Initial Step _ := .next (.p true) h₈ ⟨⟨rfl, rfl⟩, rfl⟩
  exact ⟨⟨_, h₅, rfl, rfl, rfl⟩, ⟨_, h₉, rfl, rfl⟩⟩

end State

end Nachos.SynchDisk
