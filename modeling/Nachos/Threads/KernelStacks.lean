import Nachos.Lib.Run
import Nachos.Threads.HostSwitch

namespace Nachos.I386

open Buffer

def stackSize : Nat := 4 * 1024

def stackFencepost : Word := 0xdeadbeef

structure Symbols where
  eaxSave : Word
  threadRoot : Word
  interruptEnable : Word
  threadFinish : Word

structure Home where
  thread : Word
  low : Nat
  high : Nat

/-- A thread that is not running: what its registers, its return address and its stack were when it called `SWITCH`. -/
structure Context where
  regs : Reg → Word
  pc : Word
  stack : Buffer

structure Host (T : Type) where
  cpu : State
  currentThread : T
  home : T → Option Home
  -- history
  suspended : T → Option Context

namespace Home

def Owns (h : Home) (k : Nat) : Prop :=
  (h.thread.toNat ≤ k ∧ k < h.thread.toNat + machineState) ∨ (h.low ≤ k ∧ k < h.high)

structure Valid (h : Home) (eaxSave : Word) : Prop where
  thread : h.thread.toNat + machineState ≤ 2 ^ 32
  stack : h.high ≤ 2 ^ 32
  apart : h.thread.toNat + machineState ≤ h.low ∨ h.high ≤ h.thread.toNat
  save : ∀ k, h.Owns k → Outside k eaxSave.toNat 4

def Separate (h h' : Home) : Prop := ∀ k, h.Owns k → ¬h'.Owns k

structure Holds (h : Home) (m : State) (x : Context) : Prop where
  reg : ∀ r, m.load (h.thread + offset (some r)) = x.regs r
  pc : m.load (h.thread + offset none) = x.pc
  ret : m.load (x.regs .esp) = x.pc
  low : h.low ≤ (x.regs .esp).toNat
  high : (x.regs .esp).toNat + 8 ≤ h.high
  stack : ∀ k, (x.regs .esp).toNat ≤ k → k < h.high → m.memory k = x.stack k

theorem Holds.congr {h : Home} {m m' : State} {x : Context} {eaxSave : Word} (hx : h.Holds m x) (hv : h.Valid eaxSave)
    (hm : ∀ k, h.Owns k → m'.memory k = m.memory k) : h.Holds m' x := by
  have hf := field_toNat hv.thread
  have hfield (o : Option Reg) : m'.load (h.thread + offset o) = m.load (h.thread + offset o) := by
    have hle := offset_le o
    have ho := hf o
    apply State.load_congr
    intro k _ _
    exact hm k (.inl ⟨by omega, by omega⟩)
  have hlow := hx.low
  have hhigh := hx.high
  refine ⟨fun r => (hfield _).trans (hx.reg r), (hfield _).trans hx.pc, ?_, hlow, hhigh, ?_⟩
  · rw [← hx.ret]
    apply State.load_congr
    intro k _ _
    exact hm k (.inr ⟨by omega, by omega⟩)
  · intro k hk hk'
    rw [hm k (.inr ⟨by omega, hk'⟩), hx.stack k hk hk']

end Home

def stackAllocate (sym : Symbols) (thread stack func arg : Word) (s : State) : State :=
  let stackTop := stack + .ofNat 32 (4 * (stackSize - 4)) - 4
  ((((((((s.store stackTop sym.threadRoot).store stack stackFencepost).store (thread + offset (some .esp)) stackTop).store
    (thread + offset none) sym.threadRoot).store (thread + offset (some .ecx)) sym.interruptEnable).store
    (thread + offset (some .esi)) func).store (thread + offset (some .edx)) arg).store (thread + offset (some .edi))
    sym.threadFinish)

def Context.forked (sym : Symbols) (thread stack func arg : Word) (s : State) : Context where
  regs
    | .ecx => sym.interruptEnable
    | .esi => func
    | .edx => arg
    | .edi => sym.threadFinish
    | .esp => stack + .ofNat 32 (4 * (stackSize - 4)) - 4
    | r => s.load (thread + offset (some r))
  pc := sym.threadRoot
  stack := s.memory

def Context.of (s : State) : Context := ⟨s.regs, s.load (s.regs .esp), s.memory⟩

theorem field_store {a : Word} (ha : a.toNat + machineState ≤ 2 ^ 32) (s : State) (o p : Option Reg) (v : Word) :
    (s.store (a + offset o) v).load (a + offset p) = if p = o then v else s.load (a + offset p) := by
  have hf := field_toNat ha
  split_ifs with hp
  · rw [hp, State.store_load]
  · have hd := offset_apart hp
    have ho := hf o
    have hp' := hf p
    exact State.store_load_other _ _ (by omega)

theorem field_store_byte {a : Word} (ha : a.toNat + machineState ≤ 2 ^ 32) {k : Nat}
    (hk : Outside k a.toNat machineState) (s : State) (o : Option Reg) (v : Word) :
    (s.store (a + offset o) v).memory k = s.memory k := by
  have hle := offset_le o
  have ho := field_toNat ha o
  unfold Outside at hk
  exact s.store_byte _ (by omega)

theorem stackTop_toNat {h : Home} {eaxSave : Word} (hv : h.Valid eaxSave) (hs : h.high = h.low + 4 * stackSize) :
    (BitVec.ofNat 32 h.low + .ofNat 32 (4 * (stackSize - 4)) - 4).toNat = h.low + 16364 := by
  have hstack := hv.stack
  have hsize : stackSize = 4096 := rfl
  have hlow : (BitVec.ofNat 32 h.low).toNat = h.low := by
    rw [BitVec.toNat_ofNat, Nat.mod_eq_of_lt]
    omega
  have h4 : (4 : Word).toNat = 4 := rfl
  rw [hsize, BitVec.toNat_sub, BitVec.toNat_add, hlow, h4, BitVec.toNat_ofNat]
  omega

theorem stackAllocate_spec (sym : Symbols) {h : Home} {eaxSave : Word} (hv : h.Valid eaxSave)
    (hs : h.high = h.low + 4 * stackSize) (func arg : Word) (s : State) :
    let m := stackAllocate sym h.thread (.ofNat 32 h.low) func arg s
    h.Holds m (.forked sym h.thread (.ofNat 32 h.low) func arg m) ∧ ∀ k, ¬h.Owns k → m.memory k = s.memory k := by
  have hthread := hv.thread
  have hstack := hv.stack
  have hapart := hv.apart
  have hsize : stackSize = 4096 := rfl
  have hlow : (BitVec.ofNat 32 h.low).toNat = h.low := by
    rw [BitVec.toNat_ofNat, Nat.mod_eq_of_lt]
    omega
  have htop := stackTop_toNat hv hs
  obtain ⟨s₁, hs₁⟩ : ∃ s₁, s₁ = (s.store (.ofNat 32 h.low + .ofNat 32 (4 * (stackSize - 4)) - 4) sym.threadRoot).store
      (.ofNat 32 h.low) stackFencepost := ⟨_, rfl⟩
  obtain ⟨m, hm⟩ : ∃ m, m = stackAllocate sym h.thread (.ofNat 32 h.low) func arg s := ⟨_, rfl⟩
  have hm₁ : m = (((((s₁.store (h.thread + offset (some .esp)) (.ofNat 32 h.low + .ofNat 32 (4 * (stackSize - 4)) - 4)).store
      (h.thread + offset none) sym.threadRoot).store (h.thread + offset (some .ecx)) sym.interruptEnable).store
      (h.thread + offset (some .esi)) func).store (h.thread + offset (some .edx)) arg).store
      (h.thread + offset (some .edi)) sym.threadFinish := by
    rw [hm, hs₁]
    rfl
  have hout (k : Nat) (hk : Outside k h.thread.toNat machineState) : m.memory k = s₁.memory k := by
    simp only [hm₁, field_store_byte hthread hk]
  have hret : m.load (.ofNat 32 h.low + .ofNat 32 (4 * (stackSize - 4)) - 4) = sym.threadRoot := by
    have h₁ : s₁.load (.ofNat 32 h.low + .ofNat 32 (4 * (stackSize - 4)) - 4) = sym.threadRoot := by
      rw [hs₁, State.store_load_other _ _ (by omega), State.store_load]
    rw [← h₁]
    apply State.load_congr
    intro k _ _
    exact hout k (by unfold Outside; omega)
  rw [← hm]
  refine ⟨⟨?_, ?_, hret, ?_, ?_, fun _ _ _ => rfl⟩, ?_⟩
  · intro r
    cases r
    case eax | ebx | ebp => rfl
    all_goals simp [hm₁, field_store hthread, Context.forked]
  · simp [hm₁, field_store hthread, Context.forked]
  · change _ ≤ BitVec.toNat (.ofNat 32 h.low + .ofNat 32 (4 * (stackSize - 4)) - 4)
    omega
  · change BitVec.toNat (.ofNat 32 h.low + .ofNat 32 (4 * (stackSize - 4)) - 4) + 8 ≤ _
    omega
  · intro k hk
    obtain ⟨hthis, hown⟩ := not_or.mp hk
    rw [hout k (by unfold Outside; omega), hs₁, State.store_byte _ _ (by omega), State.store_byte _ _ (by omega)]

namespace Host

variable {T : Type}

structure Calling (s : Host T) (nextThread : T) (h h' : Home) : Prop where
  current : s.home s.currentThread = some h
  next : s.home nextThread = some h'
  oldThread : s.cpu.load (s.cpu.regs .esp + 4) = h.thread
  newThread : s.cpu.load (s.cpu.regs .esp + 8) = h'.thread
  low : h.low ≤ (s.cpu.regs .esp).toNat
  high : (s.cpu.regs .esp).toNat + 12 ≤ h.high

variable [DecidableEq T] (program : Program) (o : State → State → Prop) (sym : Symbols)

inductive Action (T : Type) where
  | compute
  | switch (nextThread : T)
  | fork (t : T) (h : Home) (func arg : Word)
  | delete (t : T)

/-- `compute` is whatever code the current thread runs; it leaves alone the objects and stacks of the others. -/
inductive Step : Host T → Action T → Host T → Prop where
  | compute {s : Host T} {cpu : State} :
      (∀ t h, t ≠ s.currentThread → s.home t = some h → ∀ k, h.Owns k → cpu.memory k = s.cpu.memory k) →
      Step s .compute { s with cpu }
  | switch {s : Host T} {cpu : State} {nextThread : T} {h h' : Home} :
      Located program s.cpu.eip (switchCode sym.eaxSave) → s.Calling nextThread h h' →
      Steps (Next program o) s.cpu 27 cpu →
      Step s (.switch nextThread)
        { s with
          cpu, currentThread := nextThread,
          suspended := Function.update (Function.update s.suspended s.currentThread (some (.of s.cpu))) nextThread none }
  | fork {s : Host T} {t : T} {h : Home} {func arg : Word} :
      s.home t = none → h.Valid sym.eaxSave → h.high = h.low + 4 * stackSize →
      (∀ u h', s.home u = some h' → h.Separate h') →
      Step s (.fork t h func arg)
        { s with
          cpu := stackAllocate sym h.thread (.ofNat 32 h.low) func arg s.cpu,
          home := Function.update s.home t (some h),
          suspended := Function.update s.suspended t (some
            (.forked sym h.thread (.ofNat 32 h.low) func arg (stackAllocate sym h.thread (.ofNat 32 h.low) func arg s.cpu))) }
  | delete {s : Host T} {t : T} :
      t ≠ s.currentThread →
      Step s (.delete t)
        { s with home := Function.update s.home t none, suspended := Function.update s.suspended t none }

structure Initial (s : Host T) : Prop where
  home : ∃ h, h.Valid sym.eaxSave ∧ s.home = Function.update (fun _ => none) s.currentThread (some h)
  suspended : ∀ t, s.suspended t = none

structure Inv (s : Host T) : Prop where
  valid : ∀ t h, s.home t = some h → h.Valid sym.eaxSave
  separate : ∀ t u h h', t ≠ u → s.home t = some h → s.home u = some h' → h.Separate h'
  current : s.home s.currentThread ≠ none ∧ s.suspended s.currentThread = none
  live : ∀ t, t ≠ s.currentThread → ∀ h, s.home t = some h → ∃ x, s.suspended t = some x ∧ h.Holds s.cpu x
  dead : ∀ t, s.home t = none → s.suspended t = none

variable {program o sym} {s s' : Host T} {t nextThread : T} {h h' : Home}

theorem apart_of_outside {a n b m : Nat} (hn : 0 < n) (hm : 0 < m) (h : ∀ k, a ≤ k → k < a + n → Outside k b m) :
    Apart b m a n := by
  unfold Apart
  unfold Outside at h
  by_contra hc
  have ha := h a
  have hb := h b
  omega

namespace Inv

omit [DecidableEq T] in
theorem switching (hi : Inv sym s) (hc : s.Calling nextThread h h') :
    State.Switching sym.eaxSave h.thread h'.thread s.cpu := by
  have hv := hi.valid _ _ hc.current
  have hv' := hi.valid _ _ hc.next
  have hlow := hc.low
  have hhigh := hc.high
  have hstack := hv.stack
  have hapart := hv.apart
  refine ⟨hc.oldThread, hc.newThread, by omega, hv.thread, hv'.thread, ?_, ?_, ?_, by unfold Apart; omega⟩
  · exact apart_of_outside (by decide) (by decide) fun k hk hk' => hv.save k (.inl ⟨hk, hk'⟩)
  · exact apart_of_outside (by decide) (by decide) fun k hk hk' => hv'.save k (.inl ⟨hk, hk'⟩)
  · apply Or.symm
    exact apart_of_outside (by decide) (by decide) fun k hk hk' => hv.save k (.inr ⟨by omega, by omega⟩)

variable (hi : Inv sym s) (hc : s.Calling nextThread h h')
include hi hc

theorem saved {u : T} {g : Home} (hu : s.home u = some g) :
    ∃ y, Function.update s.suspended s.currentThread (some (.of s.cpu)) u = some y ∧
      g.Holds (s.cpu.moves (savingMoves sym.eaxSave)) y := by
  obtain ⟨hesp, hreg, hpc, hmem⟩ := (hi.switching hc).saving
  have hv := hi.valid _ _ hc.current
  by_cases hcur : u = s.currentThread
  · subst hcur
    obtain rfl : h = g := Option.some.inj (hc.current.symm.trans hu)
    have hlow := hc.low
    have hhigh := hc.high
    have hapart := hv.apart
    have hstack (k : Nat) (hk : (s.cpu.regs .esp).toNat ≤ k) (hk' : k < h.high) :
        (s.cpu.moves (savingMoves sym.eaxSave)).memory k = s.cpu.memory k :=
      hmem k (by unfold Outside; omega) (hv.save k (.inr ⟨by omega, hk'⟩))
    refine ⟨_, Function.update_self .., hreg, hpc, ?_, hlow, ?_, hstack⟩
    · apply State.load_congr
      intro k hk hk'
      change (s.cpu.regs .esp).toNat ≤ k at hk
      change k < (s.cpu.regs .esp).toNat + 4 at hk'
      exact hstack k hk (by omega)
    · exact Nat.le_trans (Nat.add_le_add_left (by decide) _) hhigh
  · obtain ⟨y, hy, hholds⟩ := hi.live u hcur g hu
    refine ⟨y, (Function.update_of_ne hcur ..).trans hy, hholds.congr (hi.valid _ _ hu) fun k hk => hmem k ?_ ?_⟩
    · have hn := hi.separate _ _ _ _ hcur hu hc.current k hk
      unfold Home.Owns at hn
      unfold Outside
      omega
    · exact (hi.valid _ _ hu).save k hk

theorem resumed : ∃ x, Function.update s.suspended s.currentThread (some (.of s.cpu)) nextThread = some x ∧
    (s.cpu.switched sym.eaxSave).regs .esp = x.regs .esp + 4 ∧
    (∀ r, r ≠ .esp → (s.cpu.switched sym.eaxSave).regs r = x.regs r) ∧
    (s.cpu.switched sym.eaxSave).eip = x.pc ∧
    (∀ k, (x.regs .esp).toNat + 8 ≤ k → k < h'.high → (s.cpu.switched sym.eaxSave).memory k = x.stack k) ∧
    ∀ u g, u ≠ nextThread → s.home u = some g →
      ∃ y, Function.update s.suspended s.currentThread (some (.of s.cpu)) u = some y ∧
        g.Holds (s.cpu.switched sym.eaxSave) y := by
  have hsw := hi.switching hc
  obtain ⟨hesp, -, -, hmem⟩ := hsw.saving
  obtain ⟨x, hx, hholds⟩ := hi.saved hc hc.next
  have hv := hi.valid _ _ hc.current
  have hv' := hi.valid _ _ hc.next
  have hlow := hholds.low
  have hhigh := hholds.high
  have hstack' := hv'.stack
  have hE := hholds.reg .esp
  have hapart := hv.apart
  have hclow := hc.low
  have hchigh := hc.high
  have hesp8 : (s.cpu.regs .esp + 8).toNat = (s.cpu.regs .esp).toNat + 8 := by
    apply add_toNat
    have hstack := hv.stack
    change _ + 8 < _
    omega
  have hnew : (s.cpu.moves (savingMoves sym.eaxSave)).load ((s.cpu.moves (savingMoves sym.eaxSave)).regs .esp + 8) =
      h'.thread := by
    rw [hesp, ← hc.newThread]
    apply State.load_congr
    intro k _ _
    exact hmem k (by unfold Outside; omega) (hv.save k (.inr ⟨by omega, by omega⟩))
  have hEsave : Apart (x.regs .esp).toNat 8 sym.eaxSave.toNat 4 := by
    apply Or.symm
    exact apart_of_outside (by decide) (by decide) fun k hk hk' => hv'.save k (.inr ⟨by omega, by omega⟩)
  obtain ⟨hr, hregs, heip, hout⟩ := State.restoring hnew hv'.thread hsw.newSave (by rw [hE]; omega) (by rwa [hE])
  rw [hE] at hr heip hout
  have ht : s.cpu.switched sym.eaxSave =
      ((s.cpu.moves (savingMoves sym.eaxSave)).moves (restoringMoves sym.eaxSave)).execute 0 .ret := by
    rw [State.switched, State.moves_append]
  rw [ht]
  refine ⟨x, hx, hr, fun r hr' => (hregs r hr').trans (hholds.reg r), heip.trans hholds.ret, ?_, ?_⟩
  · intro k hk hk'
    rw [hout k (hv'.save k (.inr ⟨by omega, hk'⟩)) (by unfold Outside; omega)]
    exact hholds.stack k (by omega) hk'
  · intro u g hun hu
    obtain ⟨y, hy, hyh⟩ := hi.saved hc hu
    refine ⟨y, hy, hyh.congr (hi.valid _ _ hu) fun k hk => hout k ((hi.valid _ _ hu).save k hk) ?_⟩
    have hn := hi.separate _ _ _ _ hun hu hc.next k hk
    unfold Home.Owns at hn
    unfold Outside
    omega

end Inv

theorem Initial.inv (h₀ : Initial sym s) : Inv sym s := by
  obtain ⟨h, hv, hh⟩ := h₀.home
  have heq {t : T} {g : Home} (hg : s.home t = some g) : t = s.currentThread ∧ g = h := by
    rw [hh] at hg
    by_cases ht : t = s.currentThread
    · rw [ht, Function.update_self] at hg
      exact ⟨ht, (Option.some.inj hg).symm⟩
    · rw [Function.update_of_ne ht] at hg
      exact absurd hg (Option.some_ne_none _).symm
  refine ⟨fun t g hg => (heq hg).2 ▸ hv, ?_, ⟨?_, h₀.suspended _⟩, ?_, fun t _ => h₀.suspended t⟩
  · intro t u g g' hne hg hg'
    exact absurd ((heq hg).1.trans (heq hg').1.symm) hne
  · rw [hh, Function.update_self]
    exact Option.some_ne_none h
  · intro t hne g hg
    exact absurd (heq hg).1 hne

theorem Inv.switch {cpu : State} (hi : Inv sym s) (hcode : Located program s.cpu.eip (switchCode sym.eaxSave))
    (hc : s.Calling nextThread h h') (hsteps : Steps (Next program o) s.cpu 27 cpu) :
    Inv sym
      { s with
        cpu, currentThread := nextThread,
        suspended := Function.update (Function.update s.suspended s.currentThread (some (.of s.cpu))) nextThread none } := by
  rw [switchCode_steps hcode] at hsteps
  obtain ⟨x, -, -, -, -, -, hlive⟩ := hi.resumed hc
  refine ⟨hi.valid, hi.separate, ⟨hc.next ▸ Option.some_ne_none h', Function.update_self ..⟩, ?_, ?_⟩
  · intro t ht g hg
    obtain ⟨y, hy, hholds⟩ := hlive t g ht hg
    exact ⟨y, (Function.update_of_ne ht ..).trans hy, hsteps ▸ hholds⟩
  · intro t ht
    by_cases hnext : t = nextThread
    · rw [hnext] at ht
      exact absurd (ht.symm.trans hc.next) (Option.some_ne_none _).symm
    · have hcur : t ≠ s.currentThread := by
        rintro rfl
        exact absurd (ht.symm.trans hc.current) (Option.some_ne_none _).symm
      exact (Function.update_of_ne hnext ..).trans ((Function.update_of_ne hcur ..).trans (hi.dead t ht))

theorem Inv.fork {func arg : Word} (hi : Inv sym s) (hnone : s.home t = none) (hv : h.Valid sym.eaxSave)
    (hsize : h.high = h.low + 4 * stackSize) (hsep : ∀ u h', s.home u = some h' → h.Separate h') :
    Inv sym
      { s with
        cpu := stackAllocate sym h.thread (.ofNat 32 h.low) func arg s.cpu,
        home := Function.update s.home t (some h),
        suspended := Function.update s.suspended t (some
          (.forked sym h.thread (.ofNat 32 h.low) func arg (stackAllocate sym h.thread (.ofNat 32 h.low) func arg s.cpu))) } := by
  obtain ⟨hholds, hmem⟩ := stackAllocate_spec sym hv hsize func arg s.cpu
  have hother {u : T} {g : Home} (hu : u ≠ t) (hg : Function.update s.home t (some h) u = some g) : s.home u = some g := by
    rwa [Function.update_of_ne hu] at hg
  have hself {g : Home} (hg : Function.update s.home t (some h) t = some g) : h = g := by
    rw [Function.update_self] at hg
    exact Option.some.inj hg
  have hcur : s.currentThread ≠ t := by
    rintro rfl
    exact hi.current.1 hnone
  refine ⟨?_, ?_, ⟨?_, ?_⟩, ?_, ?_⟩
  · intro u g hg
    by_cases hu : u = t
    · subst hu
      exact hself hg ▸ hv
    · exact hi.valid u g (hother hu hg)
  · intro u v g g' hne hg hg'
    by_cases hu : u = t
    · subst hu
      exact hself hg ▸ hsep v g' (hother hne.symm hg')
    · by_cases hv' : v = t
      · subst hv'
        obtain rfl := hself hg'
        exact fun k hk hk' => hsep u g (hother hu hg) k hk' hk
      · exact hi.separate u v g g' hne (hother hu hg) (hother hv' hg')
  · exact (Function.update_of_ne hcur ..).trans_ne hi.current.1
  · exact (Function.update_of_ne hcur ..).trans hi.current.2
  · intro u hne g hg
    by_cases hu : u = t
    · subst hu
      exact ⟨_, Function.update_self .., hself hg ▸ hholds⟩
    · obtain ⟨x, hx, hx'⟩ := hi.live u hne g (hother hu hg)
      refine ⟨x, (Function.update_of_ne hu ..).trans hx, hx'.congr (hi.valid u g (hother hu hg)) fun k hk => hmem k ?_⟩
      exact fun hk' => hsep u g (hother hu hg) k hk' hk
  · intro u hu
    change Function.update s.home t (some h) u = none at hu
    have hne : u ≠ t := by
      rintro rfl
      rw [Function.update_self] at hu
      exact Option.some_ne_none h hu
    rw [Function.update_of_ne hne] at hu
    exact (Function.update_of_ne hne ..).trans (hi.dead u hu)

theorem Inv.delete (hi : Inv sym s) (hne : t ≠ s.currentThread) :
    Inv sym { s with home := Function.update s.home t none, suspended := Function.update s.suspended t none } := by
  have hother {u : T} {g : Home} (hg : Function.update s.home t none u = some g) : u ≠ t ∧ s.home u = some g := by
    have hu : u ≠ t := by
      rintro rfl
      rw [Function.update_self] at hg
      exact Option.some_ne_none g hg.symm
    rw [Function.update_of_ne hu] at hg
    exact ⟨hu, hg⟩
  refine ⟨fun u g hg => hi.valid u g (hother hg).2, ?_, ⟨?_, ?_⟩, ?_, ?_⟩
  · intro u v g g' huv hg hg'
    exact hi.separate u v g g' huv (hother hg).2 (hother hg').2
  · exact (Function.update_of_ne hne.symm ..).trans_ne hi.current.1
  · exact (Function.update_of_ne hne.symm ..).trans hi.current.2
  · intro u hu g hg
    obtain ⟨x, hx, hholds⟩ := hi.live u hu g (hother hg).2
    exact ⟨x, (Function.update_of_ne (hother hg).1 ..).trans hx, hholds⟩
  · intro u hu
    change Function.update s.home t none u = none at hu
    by_cases hut : u = t
    · rw [hut]
      exact Function.update_self ..
    · rw [Function.update_of_ne hut] at hu
      exact (Function.update_of_ne hut ..).trans (hi.dead u hu)

theorem Inv.step {a : Action T} (hi : Inv sym s) (hs : Step program o sym s a s') : Inv sym s' := by
  cases hs with
  | compute hm =>
    refine ⟨hi.valid, hi.separate, hi.current, ?_, hi.dead⟩
    intro t ht g hg
    obtain ⟨x, hx, hholds⟩ := hi.live t ht g hg
    exact ⟨x, hx, hholds.congr (hi.valid _ _ hg) (hm t g ht hg)⟩
  | switch hcode hc hsteps => exact hi.switch hcode hc hsteps
  | fork hnone hv hsize hsep => exact hi.fork hnone hv hsize hsep
  | delete hne => exact hi.delete hne

/-- `SWITCH` resumes a thread as it was: with the registers that it had, at its return address and on the stack that
it had, whatever other threads have run in between. -/
theorem switch_resumes {s₀ : Host T} (h₀ : Initial sym s₀) (hr : Reachable (fun t => t = s₀) (Step program o sym) s) :
    (∀ nextThread h h', Located program s.cpu.eip (switchCode sym.eaxSave) → s.Calling nextThread h h' →
      ∃ x cpu, (if nextThread = s.currentThread then x = .of s.cpu else s.suspended nextThread = some x) ∧
        (∀ t, Steps (Next program o) s.cpu 27 t ↔ t = cpu) ∧ cpu.eip = x.pc ∧ cpu.regs .esp = x.regs .esp + 4 ∧
        (∀ r, r ≠ .esp → cpu.regs r = x.regs r) ∧
        ∀ k, (x.regs .esp).toNat + 8 ≤ k → k < h'.high → cpu.memory k = x.stack k) ∧
    ∀ t h, t ≠ s.currentThread → s.home t = some h → ∃ x, s.suspended t = some x ∧ h.Holds s.cpu x := by
  have hi : Inv sym s := hr.invariant (fun _ hs => hs ▸ h₀.inv) (fun _ _ _ hi hs => hi.step hs)
  refine ⟨?_, fun t h ht hh => hi.live t ht h hh⟩
  intro nextThread h h' hcode hc
  obtain ⟨x, hx, hesp, hregs, heip, hstack, -⟩ := hi.resumed hc
  refine ⟨x, _, ?_, fun t => switchCode_steps hcode, heip, hesp, hregs, hstack⟩
  split_ifs with hn
  · rw [hn, Function.update_self] at hx
    exact (Option.some.inj hx).symm
  · rwa [Function.update_of_ne hn] at hx

/-- `SWITCH` to a thread that has only been forked: `ThreadRoot` enables interrupts, calls the function with its argument
and then finishes the thread. -/
theorem forked_thread_runs {s₀ : Host T} {cpu m : State} {func arg : Word} (h₀ : Initial sym s₀)
    (hr : Reachable (fun t => t = s₀) (Step program o sym) s) (hcode : Located program s.cpu.eip (switchCode sym.eaxSave))
    (hroot : Located program sym.threadRoot threadRootCode) (hc : s.Calling nextThread h h')
    (hsize : h'.high = h'.low + 4 * stackSize) (hne : nextThread ≠ s.currentThread)
    (hx : s.suspended nextThread = some (.forked sym h'.thread (.ofNat 32 h'.low) func arg m))
    (hs : Steps (Next program o) s.cpu 27 cpu) (hstart : Returns program o sym.interruptEnable 0 h'.low h'.high) :
    Leads (Next program o) (fun a => a.eip = sym.interruptEnable ∧ Leads (Next program o) (fun b => b.eip = func ∧
      b.load (b.regs .esp + 4) = arg ∧ (Returns program o func 4 h'.low h'.high →
        Leads (Next program o) (fun c => c.eip = sym.threadFinish) b)) a) cpu := by
  have hi : Inv sym s := hr.invariant (fun _ hs => hs ▸ h₀.inv) (fun _ _ _ hi hs => hi.step hs)
  obtain ⟨x, hx', hesp, hregs, heip, -, -⟩ := hi.resumed hc
  rw [Function.update_of_ne hne, hx] at hx'
  obtain rfl := Option.some.inj hx'
  rw [← (switchCode_steps hcode).mp hs] at hesp hregs heip
  have hv := hi.valid _ _ hc.next
  have hstack := hv.stack
  have htop := stackTop_toNat hv hsize
  have hwords : stackSize = 4096 := rfl
  have hesp' : (cpu.regs .esp).toNat = h'.low + 16368 := by
    rw [hesp]
    change (BitVec.ofNat 32 h'.low + .ofNat 32 (4 * (stackSize - 4)) - 4 + 4).toNat = _
    have h4 : (4 : Word).toNat = 4 := rfl
    rw [add_toNat, htop, h4]
    rw [htop, h4]
    omega
  have hecx : cpu.regs .ecx = sym.interruptEnable := hregs .ecx (by decide)
  have hesi : cpu.regs .esi = func := hregs .esi (by decide)
  have hedx : cpu.regs .edx = arg := hregs .edx (by decide)
  have hedi : cpu.regs .edi = sym.threadFinish := hregs .edi (by decide)
  have hroot' : Located program cpu.eip threadRootCode := by
    rw [heip]
    exact hroot
  have hleads := threadRoot_leads hroot' (show h'.low + 12 ≤ _ by omega) (show _ ≤ h'.high by omega)
    (hecx ▸ hstart)
  rwa [hecx, hesi, hedx, hedi] at hleads

def listing (a : Word) (is : List Instr) : Program := fun w => (is[(w - a).toNat]?).map fun i => (i, w + 1)

def mainHome : Home := ⟨0x10000, 0x20000, 0x30000⟩

def childHome : Home := ⟨0x11000, 0x40000, 0x44000⟩

def bootSymbols : Symbols := ⟨0x100, 0x2000, 0x3000, 0x4000⟩

def bootProgram : Program := fun w => (listing 0x1000 (switchCode 0x100) w).or (listing 0x2000 threadRootCode w)

def comesBack (s t : State) : Prop := t = s.pop.jump (s.load (s.regs .esp))

def booted : Host Bool where
  cpu := ⟨fun _ => 0, 0, fun _ => 0⟩
  currentThread := false
  home := Function.update (fun _ => none) false (some mainHome)
  suspended _ := none

def forked : Host Bool where
  cpu :=
    { ((((stackAllocate bootSymbols childHome.thread (.ofNat 32 childHome.low) 0x5000 7 booted.cpu).set .esp 0x20010).store
        0x20014 mainHome.thread).store 0x20018 childHome.thread) with eip := 0x1000 }
  currentThread := false
  home := Function.update booted.home true (some childHome)
  suspended := Function.update booted.suspended true (some (.forked bootSymbols childHome.thread (.ofNat 32 childHome.low)
    0x5000 7 (stackAllocate bootSymbols childHome.thread (.ofNat 32 childHome.low) 0x5000 7 booted.cpu)))

theorem bootProgram_switch : Located bootProgram 0x1000 (switchCode 0x100) := by
  repeat' first | exact trivial | refine ⟨_, rfl, ?_⟩

theorem bootProgram_threadRoot : Located bootProgram 0x2000 threadRootCode := by
  repeat' first | exact trivial | refine ⟨_, rfl, ?_⟩

theorem bootProgram_returns {a : Word} (ha : bootProgram a = none) (n low high : Nat) :
    Returns bootProgram comesBack a n low high := by
  intro s hs hlow hhigh
  have hn (t : State) : Next bootProgram comesBack s t ↔ t = s.pop.jump (s.load (s.regs .esp)) := by
    rw [Next, hs, ha]
    rfl
  have hesp : s.pop.regs .esp = s.regs .esp + 4 := State.set_same ..
  refine .step ((hn _).mpr rfl) (fun u hu => (hn u).mp hu) (.now ⟨rfl, hesp, ?_, fun _ _ _ => rfl⟩)
  intro r hr
  apply State.set_other
  rintro rfl
  exact absurd hr (by decide)

theorem mainHome_valid : mainHome.Valid 0x100 := by
  refine ⟨by decide, by decide, by decide, fun k hk => ?_⟩
  have hsave : (0x100 : Word).toNat = 0x100 := rfl
  have hthread : mainHome.thread.toNat = 0x10000 := rfl
  have hlow : mainHome.low = 0x20000 := rfl
  unfold Home.Owns at hk
  unfold Outside
  omega

theorem childHome_valid : childHome.Valid 0x100 := by
  refine ⟨by decide, by decide, by decide, fun k hk => ?_⟩
  have hsave : (0x100 : Word).toNat = 0x100 := rfl
  have hthread : childHome.thread.toNat = 0x11000 := rfl
  have hlow : childHome.low = 0x40000 := rfl
  unfold Home.Owns at hk
  unfold Outside
  omega

theorem childHome_separate : childHome.Separate mainHome := by
  intro k hk hk'
  have hthread : childHome.thread.toNat = 0x11000 := rfl
  have hlow : childHome.low = 0x40000 := rfl
  have hthread' : mainHome.thread.toNat = 0x10000 := rfl
  have hlow' : mainHome.low = 0x20000 := rfl
  have hhigh' : mainHome.high = 0x30000 := rfl
  have hsize : machineState = 36 := rfl
  unfold Home.Owns at hk hk'
  omega

theorem booted_initial : Initial bootSymbols booted := ⟨⟨mainHome, mainHome_valid, rfl⟩, fun _ => rfl⟩

theorem forked_reachable : Reachable (fun t => t = booted) (Step bootProgram comesBack bootSymbols) forked := by
  have hfork : Step bootProgram comesBack bootSymbols booted (.fork true childHome 0x5000 7) _ :=
    .fork rfl childHome_valid rfl fun u h' hu => by
      cases u with
      | false =>
        obtain rfl := Option.some.inj hu
        exact childHome_separate
      | true => cases hu
  refine .next .compute (.next _ (.start rfl) hfork) (.compute fun t h ht hh k hk => ?_)
  cases t with
  | false => exact absurd rfl ht
  | true =>
    obtain rfl := Option.some.inj hh
    have hthread : childHome.thread.toNat = 0x11000 := rfl
    have hlow : childHome.low = 0x40000 := rfl
    have ha : (0x20014 : Word).toNat = 0x20014 := rfl
    have hb : (0x20018 : Word).toNat = 0x20018 := rfl
    have hsize : machineState = 36 := rfl
    unfold Home.Owns at hk
    exact (State.store_byte _ _ (by omega)).trans (State.store_byte _ _ (by omega))

theorem forked_calling : forked.Calling true mainHome childHome := by
  refine ⟨rfl, rfl, ?_, State.store_load .., by decide, by decide⟩
  exact (State.store_load_other _ _ (by decide)).trans (State.store_load ..)

theorem switch_resumes_forked : ∃ cpu, Steps (Next bootProgram comesBack) forked.cpu 27 cpu ∧ cpu.eip = 0x2000 := by
  obtain ⟨x, cpu, hx, hs, heip, -⟩ := (switch_resumes booted_initial forked_reachable).1 true _ _ bootProgram_switch
    forked_calling
  refine ⟨cpu, (hs cpu).mpr rfl, heip.trans ?_⟩
  exact congrArg Context.pc (Option.some.inj hx).symm

theorem forked_thread_runs_example : ∃ cpu, Steps (Next bootProgram comesBack) forked.cpu 27 cpu ∧
    Leads (Next bootProgram comesBack) (fun a => a.eip = 0x3000 ∧ Leads (Next bootProgram comesBack) (fun b => b.eip = 0x5000 ∧
      b.load (b.regs .esp + 4) = 7 ∧ (Returns bootProgram comesBack 0x5000 4 0x40000 0x44000 →
        Leads (Next bootProgram comesBack) (fun c => c.eip = 0x4000) b)) a) cpu := by
  have hs : Steps (Next bootProgram comesBack) forked.cpu 27 (forked.cpu.switched 0x100) :=
    (switchCode_steps bootProgram_switch).mpr rfl
  exact ⟨_, hs, forked_thread_runs booted_initial forked_reachable bootProgram_switch bootProgram_threadRoot forked_calling
    rfl (by decide) rfl hs (bootProgram_returns rfl _ _ _)⟩

end Host

end Nachos.I386
