import Nachos.Lib.Bytes
import Nachos.Lib.Leads
import Nachos.Lib.Stutter
import Mathlib.Algebra.Group.Nat.Defs

namespace Nachos.I386

open Buffer

inductive Reg where
  | eax | ebx | ecx | edx | esi | edi | ebp | esp
  deriving DecidableEq

/-- `%r`, `disp(%r)` and a symbol. -/
inductive Operand where
  | reg (r : Reg)
  | mem (disp : Word) (base : Reg)
  | symbol (address : Word)

inductive Instr where
  | movl (src dst : Operand)
  | pushl (src : Reg)
  | popl (dst : Reg)
  | call (target : Reg)
  | ret

structure State where
  regs : Reg → Word
  eip : Word
  memory : Buffer

/-- Where each instruction of the program lies, with the address after it. -/
abbrev Program := Word → Option (Instr × Word)

def Located (program : Program) : Word → List Instr → Prop
  | _, [] => True
  | a, i :: is => ∃ b, program a = some (i, b) ∧ Located program b is

namespace State

variable (s : State)

def load (a : Word) : Word := s.memory.wordAt a.toNat

def store (a v : Word) : State := { s with memory := s.memory.copy a.toNat (byteOf v) 4 }

def set (r : Reg) (v : Word) : State := { s with regs := Function.update s.regs r v }

def read : Operand → Word
  | .reg r => s.regs r
  | .mem disp base => s.load (s.regs base + disp)
  | .symbol a => s.load a

def write (v : Word) : Operand → State
  | .reg r => s.set r v
  | .mem disp base => s.store (s.regs base + disp) v
  | .symbol a => s.store a v

def push (v : Word) : State := (s.store (s.regs .esp - 4) v).set .esp (s.regs .esp - 4)

def pop : State := s.set .esp (s.regs .esp + 4)

def jump (a : Word) : State := { s with eip := a }

def execute (after : Word) : Instr → State
  | .movl src dst => (s.write (s.read src) dst).jump after
  | .pushl src => (s.push (s.regs src)).jump after
  | .popl dst => (s.pop.set dst (s.load (s.regs .esp))).jump after
  | .call target => (s.push after).jump (s.regs target)
  | .ret => s.pop.jump (s.load (s.regs .esp))

@[simp] theorem store_regs (a v : Word) : (s.store a v).regs = s.regs := rfl

@[simp] theorem set_memory (r : Reg) (v : Word) : (s.set r v).memory = s.memory := rfl

@[simp] theorem set_same (r : Reg) (v : Word) : (s.set r v).regs r = v := Function.update_self ..

theorem set_other {r q : Reg} (h : q ≠ r) (v : Word) : (s.set r v).regs q = s.regs q := Function.update_of_ne h ..

@[simp] theorem set_load (r : Reg) (v a : Word) : (s.set r v).load a = s.load a := rfl

@[simp] theorem jump_regs (a : Word) : (s.jump a).regs = s.regs := rfl

@[simp] theorem jump_memory (a : Word) : (s.jump a).memory = s.memory := rfl

@[simp] theorem jump_load (a b : Word) : (s.jump a).load b = s.load b := rfl

@[simp] theorem store_load (a v : Word) : (s.store a v).load a = v := by
  apply wordAt_byteOf
  intro j hj
  have hc : (s.store a v).memory (a.toNat + j) = byteOf v (a.toNat + j - a.toNat) :=
    copy_inside (Nat.le_add_right ..) (Nat.add_lt_add_left hj _)
  rwa [Nat.add_sub_cancel_left] at hc

theorem store_byte {a : Word} {k : Nat} (v : Word) (h : k < a.toNat ∨ a.toNat + 4 ≤ k) :
    (s.store a v).memory k = s.memory k :=
  copy_outside h

theorem store_load_other {a b : Word} (v : Word) (h : b.toNat + 4 ≤ a.toNat ∨ a.toNat + 4 ≤ b.toNat) :
    (s.store a v).load b = s.load b := by
  apply wordAt_congr
  intro j hj
  exact s.store_byte v (by omega)

theorem load_congr {s t : State} {a : Word} (h : ∀ k, a.toNat ≤ k → k < a.toNat + 4 → t.memory k = s.memory k) :
    t.load a = s.load a := by
  apply wordAt_congr
  intro j hj
  exact h _ (Nat.le_add_right ..) (Nat.add_lt_add_left hj _)

def moves : State → List (Operand × Operand) → State
  | s, [] => s
  | s, (src, dst) :: ms => (s.write (s.read src) dst).moves ms

theorem moves_append (s : State) (ms ns : List (Operand × Operand)) : s.moves (ms ++ ns) = (s.moves ms).moves ns := by
  induction ms generalizing s with
  | nil => rfl
  | cons m ms ih => exact ih _

theorem jump_write (a v : Word) (dst : Operand) : (s.jump a).write v dst = (s.write v dst).jump a := by
  cases dst
  all_goals rfl

theorem jump_read (a : Word) (src : Operand) : (s.jump a).read src = s.read src := by
  cases src
  all_goals rfl

@[simp] theorem jump_jump (a b : Word) : (s.jump a).jump b = s.jump b := rfl

end State

def Next (program : Program) (o : State → State → Prop) (s t : State) : Prop :=
  match program s.eip with
  | some (i, after) => t = s.execute after i
  | none => o s t

variable {program : Program} {o : State → State → Prop} {Q : State → Prop} {s : State}

theorem Located.step {i : Instr} {is : List Instr} (h : Located program s.eip (i :: is)) :
    ∃ after, Located program after is ∧ ∀ t, Next program o s t ↔ t = s.execute after i := by
  obtain ⟨after, hf, hl⟩ := h
  refine ⟨after, hl, fun t => ?_⟩
  rw [Next, hf]

theorem Located.leads {i : Instr} {is : List Instr} (h : Located program s.eip (i :: is))
    (hq : ∀ after, Located program after is → Leads (Next program o) Q (s.execute after i)) :
    Leads (Next program o) Q s := by
  obtain ⟨after, hl, hn⟩ := h.step (o := o)
  apply Leads.step ((hn _).mpr rfl)
  · intro u hu
    exact (hn u).mp hu
  · exact hq after hl

def movls (ms : List (Operand × Operand)) : List Instr := ms.map fun m => .movl m.1 m.2

theorem Located.moves {ms : List (Operand × Operand)} {is : List Instr} {a : Word}
    (h : Located program a (movls ms ++ is)) :
    ∃ b, Located program b is ∧ ∀ t, Steps (Next program o) (s.jump a) ms.length t ↔ t = (s.moves ms).jump b := by
  induction ms generalizing a s with
  | nil =>
    refine ⟨a, h, fun t => ⟨fun ht => ?_, fun ht => ht ▸ .zero⟩⟩
    cases ht
    rfl
  | cons m ms ih =>
    obtain ⟨after, hl, hn⟩ := Located.step (s := s.jump a) (o := o) h
    obtain ⟨b, hb, ht⟩ := ih (s := s.write (s.read m.1) m.2) hl
    have hs : (s.jump a).execute after (.movl m.1 m.2) = (s.write (s.read m.1) m.2).jump after := by
      rw [State.execute, State.jump_read, State.jump_write, State.jump_jump]
    refine ⟨b, hb, fun t => ?_⟩
    rw [List.length_cons, Steps.head_iff, State.moves, ← ht t]
    constructor
    · rintro ⟨u, hu, h⟩
      rwa [(hn u).mp hu, hs] at h
    · intro h
      exact ⟨_, (hn _).mpr hs.symm, h⟩

theorem Located.returns {ms : List (Operand × Operand)} {t : State} (h : Located program s.eip (movls ms ++ [.ret])) :
    Steps (Next program o) s (ms.length + 1) t ↔ t = (s.moves ms).execute 0 .ret := by
  obtain ⟨b, hb, hm⟩ := h.moves (s := s) (o := o)
  obtain ⟨_, -, hn⟩ := Located.step (s := (s.moves ms).jump b) (o := o) hb
  constructor
  · intro ht
    obtain ⟨u, hu, h1⟩ := ht.split
    rw [(hm u).mp hu, Steps.one_iff, hn] at h1
    exact h1
  · rintro rfl
    have hret : Steps (Next program o) ((s.moves ms).jump b) 1 ((s.moves ms).execute 0 .ret) :=
      Steps.one_iff.mpr ((hn _).mpr rfl)
    exact ((hm _).mpr rfl).trans hret

end Nachos.I386
