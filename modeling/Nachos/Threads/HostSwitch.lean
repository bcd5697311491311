import Nachos.Threads.I386

namespace Nachos.I386

open Buffer

/-- The offsets of the registers from the beginning of the thread object; `none` is that of `_PC`. -/
def offset : Option Reg → Word
  | some .esp => 0
  | some .eax => 4
  | some .ebx => 8
  | some .ecx => 12
  | some .edx => 16
  | some .ebp => 20
  | some .esi => 24
  | some .edi => 28
  | none => 32

def machineState : Nat := 36

def savingMoves (eaxSave : Word) : List (Operand × Operand) :=
  [(.reg .eax, .symbol eaxSave),
   (.mem 4 .esp, .reg .eax),
   (.reg .ebx, .mem (offset (some .ebx)) .eax),
   (.reg .ecx, .mem (offset (some .ecx)) .eax),
   (.reg .edx, .mem (offset (some .edx)) .eax),
   (.reg .esi, .mem (offset (some .esi)) .eax),
   (.reg .edi, .mem (offset (some .edi)) .eax),
   (.reg .ebp, .mem (offset (some .ebp)) .eax),
   (.reg .esp, .mem (offset (some .esp)) .eax),
   (.symbol eaxSave, .reg .ebx),
   (.reg .ebx, .mem (offset (some .eax)) .eax),
   (.mem 0 .esp, .reg .ebx),
   (.reg .ebx, .mem (offset none) .eax)]

def restoringMoves (eaxSave : Word) : List (Operand × Operand) :=
  [(.mem 8 .esp, .reg .eax),
   (.mem (offset (some .eax)) .eax, .reg .ebx),
   (.reg .ebx, .symbol eaxSave),
   (.mem (offset (some .ebx)) .eax, .reg .ebx),
   (.mem (offset (some .ecx)) .eax, .reg .ecx),
   (.mem (offset (some .edx)) .eax, .reg .edx),
   (.mem (offset (some .esi)) .eax, .reg .esi),
   (.mem (offset (some .edi)) .eax, .reg .edi),
   (.mem (offset (some .ebp)) .eax, .reg .ebp),
   (.mem (offset (some .esp)) .eax, .reg .esp),
   (.mem (offset none) .eax, .reg .eax),
   (.reg .eax, .mem 4 .esp),
   (.symbol eaxSave, .reg .eax)]

/-- `SWITCH(oldThread, newThread)`; `eaxSave` is the address of `_eax_save`. -/
def switchCode (eaxSave : Word) : List Instr := movls (savingMoves eaxSave ++ restoringMoves eaxSave) ++ [.ret]

def threadRootCode : List Instr :=
  [.pushl .ebp,
   .movl (.reg .esp) (.reg .ebp),
   .pushl .edx,
   .call .ecx,
   .call .esi,
   .call .edi,
   .movl (.reg .ebp) (.reg .esp),
   .popl .ebp,
   .ret]

theorem offset_le (o : Option Reg) : (offset o).toNat + 4 ≤ machineState := by
  cases o with
  | none => decide
  | some r =>
    cases r
    all_goals decide

theorem offset_apart {o p : Option Reg} (h : o ≠ p) :
    (offset o).toNat + 4 ≤ (offset p).toNat ∨ (offset p).toNat + 4 ≤ (offset o).toNat := by
  revert h
  cases o with
  | none =>
    cases p with
    | none => decide
    | some q =>
      cases q
      all_goals decide
  | some r =>
    cases p with
    | none =>
      cases r
      all_goals decide
    | some q =>
      cases r
      all_goals
        cases q
        all_goals decide

def Apart (a n b m : Nat) : Prop := a + n ≤ b ∨ b + m ≤ a

def Outside (k a n : Nat) : Prop := k < a ∨ a + n ≤ k

theorem field_toNat {a : Word} (h : a.toNat + machineState ≤ 2 ^ 32) (o : Option Reg) :
    (a + offset o).toNat = a.toNat + (offset o).toNat := by
  have ho := offset_le o
  rw [BitVec.toNat_add, Nat.mod_eq_of_lt]
  omega

theorem add_toNat {a b : Word} (h : a.toNat + b.toNat < 2 ^ 32) : (a + b).toNat = a.toNat + b.toNat := by
  rw [BitVec.toNat_add, Nat.mod_eq_of_lt h]

namespace State

theorem moves_save {s : State} {a : Word} (ha : s.regs .eax = a) (hw : a.toNat + machineState ≤ 2 ^ 32) (rs : List Reg)
    (hn : rs.Nodup) : let t := s.moves (rs.map fun r => (.reg r, .mem (offset (some r)) .eax))
    t.regs = s.regs ∧ (∀ r ∈ rs, t.load (a + offset (some r)) = s.regs r) ∧
      (∀ o, (∀ r ∈ rs, o ≠ some r) → t.load (a + offset o) = s.load (a + offset o)) ∧
      ∀ k, Outside k a.toNat machineState → t.memory k = s.memory k := by
  induction rs generalizing s with
  | nil => exact ⟨rfl, fun _ hr => absurd hr List.not_mem_nil, fun _ _ => rfl, fun _ _ => rfl⟩
  | cons r rs ih =>
    obtain ⟨hr, hrs⟩ := List.nodup_cons.mp hn
    have hf := field_toNat hw
    have hstep : s.write (s.regs r) (.mem (offset (some r)) .eax) = s.store (a + offset (some r)) (s.regs r) := by
      rw [write, ha]
    obtain ⟨h1, h2, h3, h4⟩ := ih (s := s.store (a + offset (some r)) (s.regs r)) ha hrs
    simp only [List.map_cons, moves, read, hstep]
    refine ⟨h1, ?_, ?_, ?_⟩
    · intro q hq
      rcases List.mem_cons.mp hq with rfl | hq
      · rw [h3 (some q) fun p hp he => hr (Option.some.inj he ▸ hp), store_load]
      · exact h2 q hq
    · intro o ho
      rw [h3 o fun q hq => ho q (List.mem_cons_of_mem _ hq), store_load_other]
      rw [hf, hf]
      have hd := offset_apart (ho r List.mem_cons_self)
      omega
    · intro k hk
      rw [h4 k hk, store_byte]
      have hle := offset_le (some r)
      unfold Outside at hk
      rw [hf]
      omega

theorem moves_restore {s : State} {a : Word} (ha : s.regs .eax = a) (rs : List Reg) (hn : .eax ∉ rs) :
    let t := s.moves (rs.map fun r => (.mem (offset (some r)) .eax, .reg r))
    t.memory = s.memory ∧ (∀ r ∈ rs, t.regs r = s.load (a + offset (some r))) ∧ ∀ r ∉ rs, t.regs r = s.regs r := by
  induction rs generalizing s with
  | nil => exact ⟨rfl, fun _ hr => absurd hr List.not_mem_nil, fun _ _ => rfl⟩
  | cons r rs ih =>
    obtain ⟨hr, hrs⟩ := not_or.mp (List.mem_cons.not.mp hn)
    have hstep : s.read (.mem (offset (some r)) .eax) = s.load (a + offset (some r)) := by
      rw [read, ha]
    obtain ⟨h1, h2, h3⟩ := ih (s := s.set r (s.load (a + offset (some r)))) ((s.set_other hr _).trans ha) hrs
    simp only [List.map_cons, moves, write, hstep]
    refine ⟨h1, ?_, ?_⟩
    · intro q hq
      by_cases hqs : q ∈ rs
      · exact h2 q hqs
      · obtain rfl : q = r := (List.mem_cons.mp hq).resolve_right hqs
        rw [h3 q hqs, set_same]
    · intro q hq
      obtain ⟨hqr, hqs⟩ := not_or.mp (List.mem_cons.not.mp hq)
      rw [h3 q hqs, s.set_other hqr]

theorem moves_return {s : State} {a : Word} (eaxSave : Word) (ha : s.regs .eax = a) (hw : a.toNat + machineState ≤ 2 ^ 32)
    (hstack : Apart (s.regs .esp).toNat 4 a.toNat machineState) :
    let t := s.moves [(.symbol eaxSave, .reg .ebx), (.reg .ebx, .mem (offset (some .eax)) .eax), (.mem 0 .esp, .reg .ebx),
      (.reg .ebx, .mem (offset none) .eax)]
    t.regs .esp = s.regs .esp ∧ t.load (a + offset (some .eax)) = s.load eaxSave ∧
      t.load (a + offset none) = s.load (s.regs .esp) ∧
      (∀ o, o ≠ none → o ≠ some .eax → t.load (a + offset o) = s.load (a + offset o)) ∧
      ∀ k, Outside k a.toNat machineState → t.memory k = s.memory k := by
  have hf := field_toNat hw
  have hle := offset_le (some .eax)
  have hle' := offset_le none
  have hpc := hf none
  have heax := hf (some .eax)
  unfold Apart at hstack
  let u := (((s.set .ebx (s.load eaxSave)).store (a + offset (some .eax)) (s.load eaxSave)).set .ebx
    (s.load (s.regs .esp))).store (a + offset none) (s.load (s.regs .esp))
  have ht : s.moves [(.symbol eaxSave, .reg .ebx), (.reg .ebx, .mem (offset (some .eax)) .eax), (.mem 0 .esp, .reg .ebx),
      (.reg .ebx, .mem (offset none) .eax)] = u := by
    have h0 : s.regs .esp + 0 = s.regs .esp := BitVec.add_zero _
    simp only [moves, read, write, store_regs, set_same, set_other _ (show Reg.eax ≠ .ebx by decide),
      set_other _ (show Reg.esp ≠ .ebx by decide), ha, h0]
    rw [store_load_other _ _ (by omega), set_load]
  rw [ht]
  refine ⟨?_, ?_, store_load .., ?_, ?_⟩
  · change ((s.set .ebx (s.load eaxSave)).set .ebx (s.load (s.regs .esp))).regs .esp = _
    rw [set_other _ (by decide), set_other _ (by decide)]
  · have hd := offset_apart (show some Reg.eax ≠ none by decide)
    rw [store_load_other _ _ (by omega), set_load, store_load]
  · intro o hn he
    have hd := offset_apart hn
    have hd' := offset_apart he
    have ho := hf o
    rw [store_load_other _ _ (by omega), set_load, store_load_other _ _ (by omega), set_load]
  · intro k hk
    unfold Outside at hk
    rw [store_byte _ _ (by omega), set_memory, store_byte _ _ (by omega), set_memory]

structure Switching (eaxSave old new : Word) (s : State) : Prop where
  oldThread : s.load (s.regs .esp + 4) = old
  newThread : s.load (s.regs .esp + 8) = new
  stack : (s.regs .esp).toNat + 12 ≤ 2 ^ 32
  oldRecord : old.toNat + machineState ≤ 2 ^ 32
  newRecord : new.toNat + machineState ≤ 2 ^ 32
  oldSave : Apart eaxSave.toNat 4 old.toNat machineState
  newSave : Apart eaxSave.toNat 4 new.toNat machineState
  stackSave : Apart (s.regs .esp).toNat 12 eaxSave.toNat 4
  stackRecord : Apart (s.regs .esp).toNat 12 old.toNat machineState

variable {s : State} {eaxSave old new : Word}

theorem Switching.saving (h : Switching eaxSave old new s) : let t := s.moves (savingMoves eaxSave)
    t.regs .esp = s.regs .esp ∧ (∀ r, t.load (old + offset (some r)) = s.regs r) ∧
      t.load (old + offset none) = s.load (s.regs .esp) ∧
      ∀ k, Outside k old.toNat machineState → Outside k eaxSave.toNat 4 → t.memory k = s.memory k := by
  have hsave := h.oldSave
  have hstack := h.stackSave
  have hroom := h.stack
  have hrecord := h.stackRecord
  unfold Apart at hsave hstack hrecord
  have hesp : (s.regs .esp + 4).toNat = (s.regs .esp).toNat + 4 := add_toNat (by change _ + 4 < _; omega)
  have h₁ : s.moves [(.reg .eax, .symbol eaxSave), (.mem 4 .esp, .reg .eax)] =
      (s.store eaxSave (s.regs .eax)).set .eax old := by
    simp only [moves, read, write, store_regs]
    rw [store_load_other, h.oldThread]
    omega
  obtain ⟨s₁, hs₁⟩ : ∃ s₁, s₁ = (s.store eaxSave (s.regs .eax)).set .eax old := ⟨_, rfl⟩
  have heax₁ : s₁.regs .eax = old := hs₁ ▸ set_same ..
  have hr₁ {r : Reg} (hr : r ≠ .eax) : s₁.regs r = s.regs r := hs₁ ▸ set_other _ hr _
  have hsave₁ : s₁.load eaxSave = s.regs .eax := hs₁ ▸ store_load ..
  have hmem₁ {k : Nat} (hk : Outside k eaxSave.toNat 4) : s₁.memory k = s.memory k := hs₁ ▸ store_byte _ _ hk
  obtain ⟨hregs, hin, -, hout⟩ := moves_save heax₁ h.oldRecord [.ebx, .ecx, .edx, .esi, .edi, .ebp, .esp] (by decide)
  have ht : s.moves (savingMoves eaxSave) = (s₁.moves ([.ebx, .ecx, .edx, .esi, .edi, .ebp, .esp].map fun r =>
      (.reg r, .mem (offset (some r)) .eax))).moves [(.symbol eaxSave, .reg .ebx),
        (.reg .ebx, .mem (offset (some .eax)) .eax), (.mem 0 .esp, .reg .ebx), (.reg .ebx, .mem (offset none) .eax)] := by
    rw [hs₁, ← h₁]
    rfl
  generalize s₁.moves ([.ebx, .ecx, .edx, .esi, .edi, .ebp, .esp].map fun r =>
    (.reg r, .mem (offset (some r)) .eax)) = s₂ at *
  have hesp₂ : s₂.regs .esp = s.regs .esp := (congrFun hregs _).trans (hr₁ (by decide))
  obtain ⟨hesp₃, heax₃, hpc₃, hin₃, hout₃⟩ := moves_return (s := s₂) eaxSave ((congrFun hregs _).trans heax₁)
    h.oldRecord (by rw [hesp₂]; unfold Apart; omega)
  rw [ht]
  refine ⟨hesp₃.trans hesp₂, ?_, ?_, ?_⟩
  · intro r
    by_cases hr : r = .eax
    · subst hr
      rw [heax₃, ← hsave₁]
      apply load_congr
      intro k _ _
      exact hout k (by unfold Outside; omega)
    · rw [hin₃ _ (Option.some_ne_none _) (fun he => hr (Option.some.inj he)), hin r ?_, hr₁ hr]
      revert hr
      cases r
      all_goals decide
  · rw [hpc₃, hesp₂]
    apply load_congr
    intro k _ _
    rw [hout k (by unfold Outside; omega), hmem₁ (by unfold Outside; omega)]
  · intro k hk hk'
    rw [hout₃ k hk, hout k hk, hmem₁ hk']

theorem restoring {s : State} {new eaxSave : Word} (h : s.load (s.regs .esp + 8) = new)
    (hnew : new.toNat + machineState ≤ 2 ^ 32) (hsave : Apart eaxSave.toNat 4 new.toNat machineState)
    (hE : (s.load (new + offset (some .esp))).toNat + 8 ≤ 2 ^ 32)
    (hstack : Apart (s.load (new + offset (some .esp))).toNat 8 eaxSave.toNat 4) :
    let E := s.load (new + offset (some .esp))
    let t := (s.moves (restoringMoves eaxSave)).execute 0 .ret
    t.regs .esp = E + 4 ∧ (∀ r, r ≠ .esp → t.regs r = s.load (new + offset (some r))) ∧ t.eip = s.load E ∧
      ∀ k, Outside k eaxSave.toNat 4 → Outside k (E.toNat + 4) 4 → t.memory k = s.memory k := by
  have hf := field_toNat hnew
  unfold Apart at hsave hstack
  have h₁ : s.moves [(.mem 8 .esp, .reg .eax), (.mem (offset (some .eax)) .eax, .reg .ebx), (.reg .ebx, .symbol eaxSave)] =
      (((s.set .eax new).set .ebx (s.load (new + offset (some .eax)))).store eaxSave
        (s.load (new + offset (some .eax)))) := by
    simp only [moves, read, write, h, set_same, set_load]
  obtain ⟨s₁, hs₁⟩ : ∃ s₁, s₁ = (((s.set .eax new).set .ebx (s.load (new + offset (some .eax)))).store eaxSave
      (s.load (new + offset (some .eax)))) := ⟨_, rfl⟩
  have heax₁ : s₁.regs .eax = new := by
    rw [hs₁, store_regs, set_other _ (by decide), set_same]
  have hload₁ (o : Option Reg) : s₁.load (new + offset o) = s.load (new + offset o) := by
    have hle := offset_le o
    have ho := hf o
    rw [hs₁, store_load_other _ _ (by omega), set_load, set_load]
  have hsave₁ : s₁.load eaxSave = s.load (new + offset (some .eax)) := hs₁ ▸ store_load ..
  have hmem₁ {k : Nat} (hk : Outside k eaxSave.toNat 4) : s₁.memory k = s.memory k := hs₁ ▸ store_byte _ _ hk
  obtain ⟨hmem₂, hin, hother⟩ := moves_restore heax₁ [.ebx, .ecx, .edx, .esi, .edi, .ebp, .esp] (by decide)
  have ht : s.moves (restoringMoves eaxSave) = (s₁.moves ([.ebx, .ecx, .edx, .esi, .edi, .ebp, .esp].map fun r =>
      (.mem (offset (some r)) .eax, .reg r))).moves [(.mem (offset none) .eax, .reg .eax), (.reg .eax, .mem 4 .esp),
        (.symbol eaxSave, .reg .eax)] := by
    rw [hs₁, ← h₁]
    rfl
  generalize s₁.moves ([.ebx, .ecx, .edx, .esi, .edi, .ebp, .esp].map fun r =>
    (.mem (offset (some r)) .eax, .reg r)) = s₂ at *
  have hload₂ (a : Word) : s₂.load a = s₁.load a := congrArg (fun b : Buffer => b.wordAt a.toNat) hmem₂
  generalize hEe : s.load (new + offset (some .esp)) = E at *
  have hesp : s₂.regs .esp = E := (hin _ (by decide)).trans ((hload₁ _).trans hEe)
  have hE4 : (E + 4).toNat = E.toNat + 4 := add_toNat (by change _ + 4 < _; omega)
  have h₃ : s₂.moves [(.mem (offset none) .eax, .reg .eax), (.reg .eax, .mem 4 .esp), (.symbol eaxSave, .reg .eax)] =
      ((s₂.set .eax (s.load (new + offset none))).store (E + 4) (s.load (new + offset none))).set .eax
        (s.load (new + offset (some .eax))) := by
    simp only [moves, read, write, set_same, set_other _ (show Reg.esp ≠ .eax by decide), hesp, hload₂,
      hother _ (show Reg.eax ∉ _ by decide), heax₁, hload₁]
    rw [store_load_other _ _ (by omega), set_load, hload₂, hsave₁]
  rw [ht, h₃]
  have hesp₃ : (((s₂.set .eax (s.load (new + offset none))).store (E + 4) (s.load (new + offset none))).set .eax
      (s.load (new + offset (some .eax)))).regs .esp = E := by
    rw [set_other _ (by decide), store_regs, set_other _ (by decide), hesp]
  simp only [execute, jump_regs, jump_memory, pop, hesp₃]
  refine ⟨set_same .., ?_, ?_, ?_⟩
  · intro r hr
    rw [set_other _ hr]
    by_cases ha : r = .eax
    · rw [ha, set_same]
    · rw [set_other _ ha, store_regs, set_other _ ha, hin r ?_, hload₁]
      revert hr ha
      cases r
      all_goals decide
  · change State.load _ E = _
    rw [set_load, store_load_other _ _ (by omega), set_load, hload₂]
    apply load_congr
    intro k _ _
    exact hmem₁ (by unfold Outside; omega)
  · intro k hk hk'
    unfold Outside at hk'
    rw [set_memory, set_memory, store_byte _ _ (by omega), set_memory, hmem₂, hmem₁ hk]

def switched (s : State) (eaxSave : Word) : State := (s.moves (savingMoves eaxSave ++ restoringMoves eaxSave)).execute 0 .ret

end State

/-- `SWITCH` executes 27 instructions and comes back, in one thread or the other. -/
theorem switchCode_steps {program : Program} {o : State → State → Prop} {s t : State} {eaxSave : Word}
    (h : Located program s.eip (switchCode eaxSave)) :
    Steps (Next program o) s 27 t ↔ t = s.switched eaxSave :=
  h.returns

def Returns (program : Program) (o : State → State → Prop) (a : Word) (n low high : Nat) : Prop :=
  ∀ s : State, s.eip = a → low ≤ (s.regs .esp).toNat → (s.regs .esp).toNat + 4 + n ≤ high →
    Leads (Next program o)
      (fun t => t.eip = s.load (s.regs .esp) ∧ t.regs .esp = s.regs .esp + 4 ∧
        (∀ r ∈ [Reg.ebx, .esi, .edi, .ebp], t.regs r = s.regs r) ∧
        ∀ k, (s.regs .esp).toNat + 4 + n ≤ k → k < high → t.memory k = s.memory k) s

namespace State

theorem push_regs (s : State) (v : Word) {r : Reg} (h : r ≠ .esp) : (s.push v).regs r = s.regs r := set_other _ h _

theorem push_esp (s : State) (v : Word) : (s.push v).regs .esp = s.regs .esp - 4 := set_same ..

theorem push_top (s : State) (v : Word) : (s.push v).load (s.regs .esp - 4) = v := by
  rw [push, set_load, store_load]

theorem push_byte {s : State} {k : Nat} (v : Word) (h : (s.regs .esp - 4).toNat + 4 ≤ k) :
    (s.push v).memory k = s.memory k :=
  s.store_byte v (.inr h)

end State

theorem sub_toNat {a b : Word} (h : b.toNat ≤ a.toNat) : (a - b).toNat = a.toNat - b.toNat := by
  rw [BitVec.toNat_sub]
  omega

theorem Returns.leads {program : Program} {o : State → State → Prop} {t : State} {p a : Word} {n low high : Nat}
    (h : Returns program o p n low high) (hlow : low + 4 ≤ (t.regs .esp).toNat) (hhigh : (t.regs .esp).toNat + n ≤ high) :
    Leads (Next program o)
      (fun u => u.eip = a ∧ u.regs .esp = t.regs .esp ∧ (∀ r ∈ [Reg.ebx, .esi, .edi, .ebp], u.regs r = t.regs r) ∧
        ∀ k, (t.regs .esp).toNat + n ≤ k → k < high → u.memory k = t.memory k) ((t.push a).jump p) := by
  have h4 : (4 : Word).toNat = 4 := rfl
  have hdown : (t.regs .esp - 4).toNat = (t.regs .esp).toNat - 4 := sub_toNat (by rw [h4]; omega)
  have hesp : ((t.push a).jump p).regs .esp = t.regs .esp - 4 := t.push_esp a
  refine (h _ rfl (by rw [hesp]; omega) (by rw [hesp]; omega)).mono ?_
  intro u hu
  rw [hesp] at hu
  obtain ⟨heip, huesp, hregs, hmem⟩ := hu
  refine ⟨?_, ?_, ?_, ?_⟩
  · rw [heip, State.jump_load, State.push_top]
  · rw [huesp, BitVec.sub_add_cancel]
  · intro r hr
    rw [hregs r hr]
    apply State.push_regs
    rintro rfl
    exact absurd hr (by decide)
  · intro k hk hk'
    rw [hmem k (by omega) hk', State.jump_memory, State.push_byte]
    omega

theorem threadRoot_leads {program : Program} {o : State → State → Prop} {s : State} {low high : Nat}
    (hcode : Located program s.eip threadRootCode) (hlow : low + 12 ≤ (s.regs .esp).toNat) (hhigh : (s.regs .esp).toNat ≤ high)
    (hstart : Returns program o (s.regs .ecx) 0 low high) :
    Leads (Next program o) (fun a => a.eip = s.regs .ecx ∧ Leads (Next program o) (fun b => b.eip = s.regs .esi ∧
      b.load (b.regs .esp + 4) = s.regs .edx ∧ (Returns program o (s.regs .esi) 4 low high →
        Leads (Next program o) (fun c => c.eip = s.regs .edi) b)) a) s := by
  have h4 : (4 : Word).toNat = 4 := rfl
  refine hcode.leads fun a₁ h₁ => ?_
  refine Located.leads (s := s.execute a₁ (.pushl .ebp)) h₁ fun a₂ h₂ => ?_
  refine Located.leads (s := (s.execute a₁ (.pushl .ebp)).execute a₂ (.movl (.reg .esp) (.reg .ebp))) h₂ fun a₃ h₃ => ?_
  -- the frame of `ThreadRoot`, with the argument on it
  obtain ⟨t, ht⟩ : ∃ t, t = ((s.execute a₁ (.pushl .ebp)).execute a₂ (.movl (.reg .esp) (.reg .ebp))).execute a₃
      (.pushl .edx) := ⟨_, rfl⟩
  have heip : t.eip = a₃ := ht ▸ rfl
  have hesp : t.regs .esp = s.regs .esp - 4 - 4 := ht ▸ rfl
  have harg : t.load (t.regs .esp) = s.regs .edx := by
    rw [ht]
    exact State.store_load ..
  obtain ⟨hecx, hesi, hedi⟩ : t.regs .ecx = s.regs .ecx ∧ t.regs .esi = s.regs .esi ∧ t.regs .edi = s.regs .edi := by
    rw [ht]
    exact ⟨rfl, rfl, rfl⟩
  rw [← ht]
  have hdown : (t.regs .esp).toNat = (s.regs .esp).toNat - 8 := by
    have h1 : (s.regs .esp - 4).toNat = (s.regs .esp).toNat - 4 := sub_toNat (by rw [h4]; omega)
    rw [hesp, sub_toNat, h1, h4, Nat.sub_sub]
    rw [h1, h4]
    omega
  refine Located.leads (s := t) (i := .call .ecx) (heip ▸ h₃) fun a₄ h₄ => .now ⟨hecx, ?_⟩
  -- `StartupPC` returns
  refine (Returns.leads (t := t) (hecx ▸ hstart) (by omega) (by omega)).trans ?_
  rintro u ⟨hueip, huesp, huregs, humem⟩
  refine Located.leads (s := u) (i := .call .esi) (hueip ▸ h₄) fun a₅ h₅ => .now ⟨?_, ?_, fun hfunc => ?_⟩
  · exact (huregs .esi (by decide)).trans hesi
  · have hup : ((u.push a₅).jump (u.regs .esi)).regs .esp + 4 = t.regs .esp := by
      rw [State.jump_regs, State.push_esp, BitVec.sub_add_cancel, huesp]
    change State.load ((u.push a₅).jump (u.regs .esi)) (((u.push a₅).jump (u.regs .esi)).regs .esp + 4) = _
    rw [hup, State.jump_load, ← harg]
    have hesp4 : (u.regs .esp - 4).toNat = (u.regs .esp).toNat - 4 := sub_toNat (by rw [h4, huesp]; omega)
    apply State.load_congr
    intro k hk hk'
    rw [State.push_byte _ (by rw [hesp4, huesp]; omega)]
    exact humem k hk (by omega)
  -- `InitialPC` returns
  · have hesi' : u.regs .esi = s.regs .esi := (huregs .esi (by decide)).trans hesi
    refine (Returns.leads (t := u) (hesi' ▸ hfunc) (by rw [huesp]; omega) (by rw [huesp]; omega)).trans ?_
    rintro v ⟨hveip, -, hvregs, -⟩
    refine Located.leads (s := v) (i := .call .edi) (hveip ▸ h₅) fun a₆ _ => .now ?_
    exact (hvregs .edi (by decide)).trans ((huregs .edi (by decide)).trans hedi)

end Nachos.I386
