import Nachos.Threads.Thread
import Mathlib.Data.List.Nodup

namespace Nachos

inductive Wait where
  | semaphore (k : Nat)
  | join (child : Tid)
  deriving DecidableEq, Repr

/-- Who runs, who is ready, and who waits for what. -/
structure Board where
  status : Tid → ThreadStatus
  finished : Tid → Bool
  waits : Tid → Option Wait
  parent : Tid → Option Tid
  queue : Nat → List Tid
  ready : List Tid
  active : List Tid
  current : Tid
  created : Nat

namespace Board

def spawn (b : Board) (active : List Tid) : Board :=
  { b with
    status := Function.update b.status b.created .ready
    ready := b.ready ++ [b.created]
    active
    created := b.created + 1 }

def block (b : Board) (w : Option Wait) : Board :=
  { b with
    status := Function.update b.status b.current .blocked
    waits := Function.update b.waits b.current w }

def wake (b : Board) (t : Tid) (ready : List Tid) : Board :=
  { b with
    status := Function.update b.status t .ready
    waits := Function.update b.waits t none
    ready }

def enqueue (b : Board) (k : Nat) : Board :=
  { b.block (some (.semaphore k)) with queue := Function.update b.queue k (b.queue k ++ [b.current]) }

def dequeue (b : Board) (k : Nat) : Board :=
  match b.queue k with
  | [] => b
  | t :: queue => { b.wake t (b.ready ++ [t]) with queue := Function.update b.queue k queue }

def join (b : Board) (child : Tid) : Board :=
  { b.block (some (.join child)) with parent := Function.update b.parent child (some b.current) }

def wakeParent (b : Board) : Board :=
  match b.parent b.current with
  | none => b
  | some p => b.wake p (p :: b.ready)

def finish (b : Board) (active : List Tid) : Board :=
  { b.wakeParent.block none with finished := Function.update b.finished b.current true, active }

def dispatch (b : Board) (t : Tid) (ready : List Tid) : Board :=
  { b with status := Function.update b.status t .running, current := t, ready }

def preempt (b : Board) (ready : List Tid) : Board := b.wake b.current (ready ++ [b.current])

theorem wakeParent_current (b : Board) : b.wakeParent.current = b.current := by
  unfold wakeParent
  split <;> rfl

theorem wakeParent_active (b : Board) : b.wakeParent.active = b.active := by
  unfold wakeParent
  split <;> rfl

theorem wakeParent_finished (b : Board) : b.wakeParent.finished = b.finished := by
  unfold wakeParent
  split <;> rfl

structure Inv (b : Board) : Prop where
  nodup : b.ready.Nodup
  ready : ∀ t, b.status t = .ready ↔ t ∈ b.ready
  running : ∀ t, b.status t = .running → t = b.current
  queueNodup : ∀ k, (b.queue k).Nodup
  queued : ∀ k, ∀ t ∈ b.queue k, b.waits t = some (.semaphore k)
  parent : ∀ c p, b.parent c = some p → b.finished c = false → b.waits p = some (.join c)
  waits : ∀ t w, b.waits t = some w → b.status t = .blocked ∧ b.finished t = false
  finished : ∀ t, b.finished t = true → b.status t = .blocked
  fresh : ∀ t, b.created ≤ t → b.status t = .justCreated ∧ b.parent t = none ∧ b.finished t = false
  activeNodup : b.active.Nodup
  active : ∀ t ∈ b.active, b.finished t = false ∧ t < b.created

variable {b : Board}

theorem Inv.lt_created (h : Inv b) {t : Tid} (ht : b.status t ≠ .justCreated) : t < b.created := by
  by_contra hn
  exact ht (h.fresh t (not_lt.mp hn)).1

theorem Inv.waits_eq_none (h : Inv b) {t : Tid} (ht : b.status t ≠ .blocked) : b.waits t = none := by
  cases hw : b.waits t with
  | none => rfl
  | some w => exact absurd (h.waits t w hw).1 ht

theorem Inv.finished_eq_false (h : Inv b) {t : Tid} (ht : b.status t ≠ .blocked) : b.finished t = false := by
  cases hf : b.finished t with
  | false => rfl
  | true => exact absurd (h.finished t hf) ht

theorem Inv.not_ready (h : Inv b) {t : Tid} (ht : b.status t ≠ .ready) : t ∉ b.ready :=
  fun hm => ht ((h.ready t).mpr hm)

theorem Inv.not_queued (h : Inv b) {t : Tid} {k : Nat} (ht : b.waits t ≠ some (.semaphore k)) : t ∉ b.queue k :=
  fun hq => ht (h.queued k t hq)

theorem Inv.childless (h : Inv b) {t c : Tid} (ht : b.waits t ≠ some (.join c)) (hc : b.parent c = some t) :
    b.finished c = true := by
  by_contra hf
  exact ht (h.parent c t hc (eq_false_of_ne_true hf))

theorem Inv.spawn (h : Inv b) {active : List Tid} (ha : active = b.active ∨ active = b.active ++ [b.created]) :
    Inv (b.spawn active) := by
  have hnew := h.fresh b.created (le_refl _)
  have hready : b.created ∉ b.ready := h.not_ready (by simp [hnew.1])
  have hmem : b.created ∉ b.active := fun hm => absurd (h.active _ hm).2 (lt_irrefl _)
  have hstatus (t : Tid) (ht : t ≠ b.created) : (b.spawn active).status t = b.status t := Function.update_of_ne ht ..
  have hcreated : (b.spawn active).status b.created = .ready := Function.update_self ..
  have hold (t : Tid) (ht : b.status t = .blocked) : t ≠ b.created := by
    rintro rfl
    rw [hnew.1] at ht
    cases ht
  constructor
  case nodup => exact h.nodup.append (List.nodup_singleton _) (List.disjoint_singleton.mpr hready)
  case ready =>
    intro t
    change _ ↔ t ∈ b.ready ++ [b.created]
    by_cases ht : t = b.created
    · simp [ht, hcreated]
    · simp [ht, hstatus t ht, h.ready]
  case running =>
    intro t hr
    by_cases ht : t = b.created
    · rw [ht, hcreated] at hr
      cases hr
    · rw [hstatus t ht] at hr
      exact h.running t hr
  case queueNodup => exact h.queueNodup
  case queued => exact h.queued
  case parent => exact h.parent
  case waits =>
    intro t w hw
    have hb := h.waits t w hw
    rw [hstatus t (hold t hb.1)]
    exact hb
  case finished =>
    intro t hf
    have hb := h.finished t hf
    rw [hstatus t (hold t hb)]
    exact hb
  case fresh =>
    intro t hlt
    rw [hstatus t (Nat.ne_of_gt hlt)]
    exact h.fresh t (Nat.le_of_succ_le hlt)
  case activeNodup =>
    obtain rfl | rfl := ha
    · exact h.activeNodup
    · exact h.activeNodup.append (List.nodup_singleton _) (List.disjoint_singleton.mpr hmem)
  case active =>
    intro t ht
    change t ∈ active at ht
    have hcase : t ∈ b.active ∨ t = b.created := by
      obtain rfl | rfl := ha
      · exact .inl ht
      · simpa using ht
    obtain ht | rfl := hcase
    · exact ⟨(h.active t ht).1, Nat.lt_succ_of_lt (h.active t ht).2⟩
    · exact ⟨hnew.2.2, Nat.lt_succ_self _⟩

theorem Inv.setQueue (h : Inv b) {k : Nat} {queue : List Tid} (hn : queue.Nodup)
    (hq : ∀ t ∈ queue, b.waits t = some (.semaphore k)) : Inv { b with queue := Function.update b.queue k queue } := by
  refine { h with queueNodup := fun j => ?_, queued := fun j => ?_ }
  · by_cases hj : j = k
    · simp [hj, hn]
    · simp [hj, h.queueNodup]
  · by_cases hj : j = k
    · simpa [hj] using hq
    · simpa [hj] using h.queued j

theorem Inv.block (h : Inv b) (hr : b.status b.current = .running) (w : Option Wait) : Inv (b.block w) := by
  have hwait := h.waits_eq_none (t := b.current) (by simp [hr])
  have hcurrent : (b.block w).status b.current = .blocked := Function.update_self ..
  have hstatus (t : Tid) (ht : t ≠ b.current) : (b.block w).status t = b.status t := Function.update_of_ne ht ..
  have hwaits (t : Tid) (ht : t ≠ b.current) : (b.block w).waits t = b.waits t := Function.update_of_ne ht ..
  -- whoever is known to wait is another thread
  have hother {t : Tid} {v : Wait} (hv : b.waits t = some v) : (b.block w).waits t = some v := by
    rw [hwaits t, hv]
    rintro rfl
    rw [hwait] at hv
    cases hv
  constructor
  case nodup => exact h.nodup
  case ready =>
    intro t
    change _ ↔ t ∈ b.ready
    by_cases ht : t = b.current
    · rw [ht, hcurrent, ← h.ready, hr]
      simp
    · rw [hstatus t ht, h.ready]
  case running =>
    intro t hrun
    by_cases ht : t = b.current
    · exact ht
    · rw [hstatus t ht] at hrun
      exact h.running t hrun
  case queueNodup => exact h.queueNodup
  case queued => exact fun k t ht => hother (h.queued k t ht)
  case parent => exact fun c p hc hf => hother (h.parent c p hc hf)
  case waits =>
    intro t v hv
    by_cases ht : t = b.current
    · rw [ht]
      exact ⟨hcurrent, h.finished_eq_false (by simp [hr])⟩
    · rw [hwaits t ht] at hv
      rw [hstatus t ht]
      exact h.waits t v hv
  case finished =>
    intro t hf
    by_cases ht : t = b.current
    · rw [ht]
      exact hcurrent
    · rw [hstatus t ht]
      exact h.finished t hf
  case fresh =>
    intro t hlt
    have hc : b.current < b.created := h.lt_created (by simp [hr])
    rw [hstatus t (Nat.ne_of_gt (Nat.lt_of_lt_of_le hc hlt))]
    exact h.fresh t hlt
  case activeNodup => exact h.activeNodup
  case active => exact h.active

theorem Inv.wake (h : Inv b) {t : Tid} {ready : List Tid} (hn : t ∉ b.ready) (hc : t < b.created)
    (hf : b.finished t = false) (hq : ∀ k, t ∉ b.queue k) (hp : ∀ c, b.parent c = some t → b.finished c = true)
    (hready : ready.Perm (t :: b.ready)) : Inv (b.wake t ready) := by
  have hself : (b.wake t ready).status t = .ready := Function.update_self ..
  have hnone : (b.wake t ready).waits t = none := Function.update_self ..
  have hstatus (u : Tid) (hu : u ≠ t) : (b.wake t ready).status u = b.status u := Function.update_of_ne hu ..
  have hwaits (u : Tid) (hu : u ≠ t) : (b.wake t ready).waits u = b.waits u := Function.update_of_ne hu ..
  constructor
  case nodup => exact hready.nodup_iff.mpr (List.nodup_cons.mpr ⟨hn, h.nodup⟩)
  case ready =>
    intro u
    change _ ↔ u ∈ ready
    rw [hready.mem_iff, List.mem_cons]
    by_cases hu : u = t
    · simp [hu, hself]
    · simp [hu, hstatus u hu, h.ready]
  case running =>
    intro u hr
    by_cases hu : u = t
    · rw [hu, hself] at hr
      cases hr
    · rw [hstatus u hu] at hr
      exact h.running u hr
  case queueNodup => exact h.queueNodup
  case queued =>
    intro k u hu
    rw [hwaits u (ne_of_mem_of_not_mem hu (hq k))]
    exact h.queued k u hu
  case parent =>
    intro c p hcp hcf
    have hpt : p ≠ t := by
      rintro rfl
      have hlive : b.finished c = false := hcf
      rw [hp c hcp] at hlive
      cases hlive
    rw [hwaits p hpt]
    exact h.parent c p hcp hcf
  case waits =>
    intro u w hw
    by_cases hu : u = t
    · rw [hu, hnone] at hw
      cases hw
    · rw [hwaits u hu] at hw
      rw [hstatus u hu]
      exact h.waits u w hw
  case finished =>
    intro u huf
    have hu : u ≠ t := by
      rintro rfl
      have hdone : b.finished u = true := huf
      rw [hf] at hdone
      cases hdone
    rw [hstatus u hu]
    exact h.finished u huf
  case fresh =>
    intro u hlt
    rw [hstatus u (Nat.ne_of_gt (Nat.lt_of_lt_of_le hc hlt))]
    exact h.fresh u hlt
  case activeNodup => exact h.activeNodup
  case active => exact h.active

theorem Inv.enqueue (h : Inv b) (hr : b.status b.current = .running) (k : Nat) : Inv (b.enqueue k) := by
  have hb := h.block hr (some (.semaphore k))
  have hself : (b.block (some (.semaphore k))).waits b.current = some (.semaphore k) := Function.update_self ..
  have hnot : b.current ∉ b.queue k := h.not_queued (by simp [h.waits_eq_none, hr])
  apply hb.setQueue
  · exact (h.queueNodup k).append (List.nodup_singleton _) (List.disjoint_singleton.mpr hnot)
  · intro t ht
    obtain ht | ht := List.mem_append.mp ht
    · exact hb.queued k t ht
    · rw [List.mem_singleton.mp ht]
      exact hself

theorem Inv.dequeue (h : Inv b) (k : Nat) : Inv (b.dequeue k) := by
  unfold Board.dequeue
  cases hq : b.queue k with
  | nil => exact h
  | cons t queue =>
    have hwait : b.waits t = some (.semaphore k) := h.queued k t (by simp [hq])
    obtain ⟨hblocked, hf⟩ := h.waits t _ hwait
    have hnodup := h.queueNodup k
    rw [hq, List.nodup_cons] at hnodup
    have hrest := h.setQueue (k := k) hnodup.2 (fun u hu => h.queued k u (by simp [hq, hu]))
    apply hrest.wake (t := t)
    · exact h.not_ready (by simp [hblocked])
    · exact h.lt_created (by simp [hblocked])
    · exact hf
    · intro j
      by_cases hj : j = k
      · simpa [hj] using hnodup.1
      · have hother : t ∉ b.queue j := h.not_queued (by simp [hwait, Ne.symm hj])
        simpa [hj] using hother
    · exact fun c hc => h.childless (by simp [hwait]) hc
    · exact List.perm_append_singleton t b.ready

theorem Inv.dequeue_running (h : Inv b) (k : Nat) (u : Tid) :
    (b.dequeue k).status u = .running ↔ b.status u = .running := by
  unfold Board.dequeue
  cases hq : b.queue k with
  | nil => rfl
  | cons t queue =>
    have hblocked := (h.waits t _ (h.queued k t (by simp [hq]))).1
    by_cases hu : u = t
    · simp [Board.wake, hu, hblocked]
    · simp [Board.wake, hu]

theorem Inv.join (h : Inv b) (hr : b.status b.current = .running) {c : Tid} (hc : c < b.created) : Inv (b.join c) := by
  have hb := h.block hr (some (.join c))
  have hself : (b.block (some (.join c))).waits b.current = some (.join c) := Function.update_self ..
  refine { hb with parent := fun u p hu hf => ?_, fresh := fun t ht => ?_ }
  · change Function.update b.parent c (some b.current) u = some p at hu
    by_cases huc : u = c
    · rw [huc, Function.update_self] at hu
      rw [huc, ← Option.some.inj hu]
      exact hself
    · rw [Function.update_of_ne huc] at hu
      exact hb.parent u p hu hf
  · change _ ∧ Function.update b.parent c (some b.current) t = none ∧ _
    rw [Function.update_of_ne (Nat.ne_of_gt (Nat.lt_of_lt_of_le hc ht))]
    exact hb.fresh t ht

theorem Inv.stop (h : Inv b) (hr : b.status b.current = .running) {active : List Tid} (hn : active.Nodup)
    (ha : ∀ t ∈ active, t ∈ b.active ∧ t ≠ b.current) :
    Inv { b.block none with finished := Function.update b.finished b.current true, active } := by
  have hb := h.block hr none
  have hnone : (b.block none).waits b.current = none := Function.update_self ..
  have hself : (b.block none).status b.current = .blocked := Function.update_self ..
  have hother (t : Tid) (ht : t ≠ b.current) : Function.update b.finished b.current true t = (b.block none).finished t :=
    Function.update_of_ne ht ..
  refine { hb with parent := ?_, waits := ?_, finished := ?_, fresh := ?_, activeNodup := hn, active := ?_ }
  · intro c p hc hf
    apply hb.parent c p hc
    by_cases hcc : c = b.current
    · simp [hcc] at hf
    · exact (hother c hcc).symm.trans hf
  · intro t w hw
    have ht : t ≠ b.current := by
      rintro rfl
      rw [hnone] at hw
      cases hw
    obtain ⟨hblocked, hf⟩ := hb.waits t w hw
    exact ⟨hblocked, (hother t ht).trans hf⟩
  · intro t hf
    by_cases ht : t = b.current
    · rw [ht]
      exact hself
    · exact hb.finished t ((hother t ht).symm.trans hf)
  · intro t hlt
    have hc : b.current < b.created := h.lt_created (by simp [hr])
    obtain ⟨hnew, hp, hf⟩ := hb.fresh t hlt
    exact ⟨hnew, hp, (hother t (Nat.ne_of_gt (Nat.lt_of_lt_of_le hc hlt))).trans hf⟩
  · intro t ht
    obtain ⟨hmem, hne⟩ := ha t ht
    obtain ⟨hf, hlt⟩ := hb.active t hmem
    exact ⟨(hother t hne).trans hf, hlt⟩

theorem Inv.finish (h : Inv b) (hr : b.status b.current = .running) {active : List Tid} (hn : active.Nodup)
    (ha : ∀ t ∈ active, t ∈ b.active ∧ t ≠ b.current) : Inv (b.finish active) := by
  have hstop := h.stop hr hn ha
  unfold Board.finish Board.wakeParent
  cases hp : b.parent b.current with
  | none => exact hstop
  | some p =>
    have hwait := h.parent _ p hp (h.finished_eq_false (by simp [hr]))
    obtain ⟨hblocked, hf⟩ := h.waits p _ hwait
    have hpc : p ≠ b.current := by
      rintro rfl
      rw [hr] at hblocked
      cases hblocked
    -- the parent is awake before the thread stops, but the two do not meet
    have hstatus : Function.update (Function.update b.status p .ready) b.current .blocked =
        Function.update (Function.update b.status b.current .blocked) p .ready := Function.update_comm hpc ..
    have hwaits : Function.update (Function.update b.waits p none) b.current none =
        Function.update (Function.update b.waits b.current none) p none := Function.update_comm hpc ..
    simp only [Board.block, Board.wake, hstatus, hwaits]
    apply hstop.wake
    · exact h.not_ready (by simp [hblocked])
    · exact h.lt_created (by simp [hblocked])
    · simpa [hpc] using hf
    · exact fun k => h.not_queued (by simp [hwait])
    -- no other live thread has `p` for a parent: `p` waits for this one
    · intro c hc
      by_cases hcc : c = b.current
      · simp [hcc]
      · have hold : b.finished c = true := h.childless (by simp [hwait, Ne.symm hcc]) hc
        simpa [hcc] using hold
    · exact .refl _

theorem Inv.dispatch (h : Inv b) (hr : b.status b.current ≠ .running) {t : Tid} {ready : List Tid}
    (ht : b.ready = t :: ready) : Inv (b.dispatch t ready) := by
  have hnodup := h.nodup
  rw [ht, List.nodup_cons] at hnodup
  have hold : b.status t = .ready := (h.ready t).mpr (by simp [ht])
  have hself : (b.dispatch t ready).status t = .running := Function.update_self ..
  have hstatus (u : Tid) (hu : u ≠ t) : (b.dispatch t ready).status u = b.status u := Function.update_of_ne hu ..
  have hblocked (u : Tid) (hu : b.status u = .blocked) : u ≠ t := by
    rintro rfl
    rw [hold] at hu
    cases hu
  constructor
  case nodup => exact hnodup.2
  case ready =>
    intro u
    change _ ↔ u ∈ ready
    by_cases hu : u = t
    · rw [hu, hself]
      simp [hnodup.1]
    · rw [hstatus u hu, h.ready, ht]
      simp [hu]
  case running =>
    intro u hrun
    by_contra hu
    rw [hstatus u hu] at hrun
    rw [h.running u hrun] at hrun
    exact hr hrun
  case queueNodup => exact h.queueNodup
  case queued => exact h.queued
  case parent => exact h.parent
  case waits =>
    intro u w hw
    have hb := h.waits u w hw
    rw [hstatus u (hblocked u hb.1)]
    exact hb
  case finished =>
    intro u hf
    have hb := h.finished u hf
    rw [hstatus u (hblocked u hb)]
    exact hb
  case fresh =>
    intro u hlt
    have hc : t < b.created := h.lt_created (by simp [hold])
    rw [hstatus u (Nat.ne_of_gt (Nat.lt_of_lt_of_le hc hlt))]
    exact h.fresh u hlt
  case activeNodup => exact h.activeNodup
  case active => exact h.active

theorem Inv.yield (h : Inv b) (hr : b.status b.current = .running) {t : Tid} {ready : List Tid}
    (ht : b.ready = t :: ready) : Inv ((b.preempt ready).dispatch t (ready ++ [b.current])) := by
  have hwait := h.waits_eq_none (t := b.current) (by simp [hr])
  have hwake : Inv (b.wake b.current (b.ready ++ [b.current])) := by
    apply h.wake
    · exact h.not_ready (by simp [hr])
    · exact h.lt_created (by simp [hr])
    · exact h.finished_eq_false (by simp [hr])
    · exact fun k => h.not_queued (by simp [hwait])
    · exact fun c hc => h.childless (by simp [hwait]) hc
    · exact List.perm_append_singleton b.current b.ready
  apply hwake.dispatch
  · simp [Board.wake]
  · change b.ready ++ [b.current] = _
    rw [ht]
    rfl

/-- What the thread system may do to the board; the label of a `join` is the child. -/
inductive Move (b : Board) : Option Tid → Board → Prop
  | stay : Move b none b
  | spawn {active : List Tid} (ha : active = b.active ∨ active = b.active ++ [b.created]) :
      Move b none (b.spawn active)
  | enqueue (hr : b.status b.current = .running) (k : Nat) : Move b none (b.enqueue k)
  | dequeue (k : Nat) : Move b none (b.dequeue k)
  | join (hr : b.status b.current = .running) {child : Tid} (hc : child ∈ b.active) :
      Move b (some child) (b.join child)
  | finish (hr : b.status b.current = .running) {active : List Tid} (hn : active.Nodup)
      (ha : ∀ t ∈ active, t ∈ b.active ∧ t ≠ b.current) : Move b none (b.finish active)
  | dispatch (hr : b.status b.current ≠ .running) {t : Tid} {ready : List Tid} (ht : b.ready = t :: ready) :
      Move b none (b.dispatch t ready)
  | yield (hr : b.status b.current = .running) {t : Tid} {ready : List Tid} (ht : b.ready = t :: ready) :
      Move b none ((b.preempt ready).dispatch t (ready ++ [b.current]))

variable {b' : Board} {l : Option Tid}

theorem Inv.move (h : Inv b) (hm : Move b l b') : Inv b' := by
  cases hm with
  | stay => exact h
  | spawn ha => exact h.spawn ha
  | enqueue hr k => exact h.enqueue hr k
  | dequeue k => exact h.dequeue k
  | join hr hc => exact h.join hr (h.active _ hc).2
  | finish hr hn ha => exact h.finish hr hn ha
  | dispatch hr ht => exact h.dispatch hr ht
  | yield hr ht => exact h.yield hr ht

theorem Move.finished {u : Tid} (hm : Move b l b') (hf : b.finished u = true) : b'.finished u = true := by
  cases hm with
  | dequeue k =>
    unfold Board.dequeue
    split <;> exact hf
  | finish hr hn ha =>
    change Function.update b.finished b.current true u = true
    by_cases hu : u = b.current
    · rw [hu, Function.update_self]
    · rw [Function.update_of_ne hu]
      exact hf
  | _ => exact hf

end Board

end Nachos
