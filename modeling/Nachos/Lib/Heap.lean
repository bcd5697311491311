import Nachos.Lib.Bytes

namespace Nachos

/-- The ways in which compiled C++ leaves its defined behaviour. -/
inductive Fault where
  | assertion
  | badAlloc
  | outOfBounds
  | divide
  | indeterminate
  deriving DecidableEq, Repr

section Bind

variable {ε α β : Type}

@[simp] theorem ok_bind (a : α) (f : α → Except ε β) : (Except.ok a >>= f) = f a := rfl

@[simp] theorem error_bind (e : ε) (f : α → Except ε β) :
    ((Except.error e : Except ε α) >>= f) = .error e := rfl

theorem bind_eq_ok {x : Except ε α} {f : α → Except ε β} {b : β} :
    (x >>= f) = .ok b ↔ ∃ a, x = .ok a ∧ f a = .ok b := by
  cases x with
  | error e => simp
  | ok a => simp

end Bind

def assert (condition : Prop) [Decidable condition] : Except Fault Unit :=
  if condition then .ok () else .error .assertion

@[simp] theorem assert_ok_iff (p : Prop) [Decidable p] : assert p = .ok () ↔ p := by
  unfold assert
  split_ifs <;> simp_all

theorem assert_pos {p : Prop} [Decidable p] (h : p) : assert p = .ok () := if_pos h

theorem assert_neg {p : Prop} [Decidable p] (h : ¬p) : assert p = .error .assertion := if_neg h

structure Block where
  size : Int
  bytes : Buffer

namespace Block

def new (heap : Buffer) (n : Int) : Except Fault Block :=
  if 0 ≤ n then .ok ⟨n, heap⟩ else .error .badAlloc

def store (b : Block) (start : Int) (src : Buffer) (n : Int) : Except Fault Block :=
  if 0 ≤ start ∧ start + n ≤ b.size then
    .ok { b with bytes := b.bytes.copy start.toNat src n.toNat }
  else .error .outOfBounds

def load (b : Block) (start n : Int) : Except Fault Buffer :=
  if 0 ≤ start ∧ start + n ≤ b.size then .ok (fun k => b.bytes (start.toNat + k))
  else .error .outOfBounds

theorem new_of_nonneg {heap : Buffer} {n : Int} (h : 0 ≤ n) : new heap n = .ok ⟨n, heap⟩ := if_pos h

theorem store_of_fits {b : Block} {start n : Int} {src : Buffer} (h : 0 ≤ start)
    (h' : start + n ≤ b.size) :
    b.store start src n = .ok { b with bytes := b.bytes.copy start.toNat src n.toNat } :=
  if_pos ⟨h, h'⟩

theorem load_of_fits {b : Block} {start n : Int} (h : 0 ≤ start) (h' : start + n ≤ b.size) :
    b.load start n = .ok (fun k => b.bytes (start.toNat + k)) := if_pos ⟨h, h'⟩

theorem new_eq_ok {heap : Buffer} {n : Int} {b : Block} (h : new heap n = .ok b) :
    0 ≤ n ∧ b = ⟨n, heap⟩ := by
  unfold new at h
  split_ifs at h with hn
  exact ⟨hn, (Except.ok.inj h).symm⟩

end Block

end Nachos
