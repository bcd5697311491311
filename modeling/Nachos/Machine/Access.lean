import Nachos.Machine.Translate
import Mathlib.Tactic.IntervalCases

namespace Nachos

def Completes {α : Type} (x : Except Fault α) : Prop := ∃ a, x = .ok a

theorem not_completes_error {α : Type} (e : Fault) : ¬Completes (.error e : Except Fault α) := by
  rintro ⟨a, ha⟩
  cases ha

theorem and_three_eq_zero {v : Word} (h : v &&& 3 = 0) : v.toNat % 4 = 0 := by
  have ha := congrArg BitVec.toNat h
  rw [BitVec.toNat_and] at ha
  exact (Nat.and_two_pow_sub_one_eq_mod v.toNat 2).symm.trans ha

theorem and_one_eq_zero {v : Word} (h : v &&& 1 = 0) : v.toNat % 2 = 0 := by
  have ha := congrArg BitVec.toNat h
  rw [BitVec.toNat_and] at ha
  exact (Nat.and_two_pow_sub_one_eq_mod v.toNat 1).symm.trans ha

def AccessSize (size : Nat) : Prop := size = 1 ∨ size = 2 ∨ size = 4

namespace Machine

theorem offset_le {v : Word} {size : Nat} (hs : AccessSize size) (ha : ¬misaligned v size) :
    v.toNat % pageSize + size ≤ pageSize := by
  rw [pageSize_eq]
  unfold misaligned at ha
  push Not at ha
  obtain rfl | rfl | rfl := hs
  · omega
  · have := and_one_eq_zero (ha.2 rfl)
    omega
  · have := and_three_eq_zero (ha.1 rfl)
    omega

theorem useEntry_eq {entry : TranslationEntry} {put : TranslationEntry → Machine} {offset size : Nat}
    (h : offset + size ≤ pageSize) (writing : Bool) :
    useEntry entry put offset size writing =
      if entry.readOnly ∧ writing then .ok (.fail .readOnlyException)
      else if entry.physicalPage.toNat ≥ numPhysPages then .ok (.fail .busErrorException)
      else .ok (.ok (entry.physicalPage.toNat * pageSize + offset)
        (put { entry with use := true, dirty := entry.dirty || writing })) := by
  simp only [useEntry]
  split_ifs with hr hf
  · rfl
  · rfl
  · have hle : entry.physicalPage.toNat * pageSize + offset + size ≤ memorySize := by
      have hm : (entry.physicalPage.toNat + 1) * pageSize ≤ numPhysPages * pageSize :=
        Nat.mul_le_mul_right _ (by omega)
      rw [memorySize]
      rw [Nat.add_mul, Nat.one_mul] at hm
      omega
    rw [assert_pos hle]
    rfl

structure TableMode (m : Machine) : Prop where
  tlb : m.tlb = none
  pageTable : m.pageTable ≠ none

theorem translate_table {m : Machine} {table : Nat → TranslationEntry} (ht : m.tlb = none)
    (hp : m.pageTable = some table) {v : Word} {size : Nat} (writing : Bool) (ha : ¬misaligned v size) :
    m.translate v size writing =
      m.translateTable table (v.toNat / pageSize) (v.toNat % pageSize) size writing := by
  simp only [translate, if_neg ha, ht, hp]

theorem translate_cases {m : Machine} (hm : m.TableMode) (v : Word) {size : Nat} (hs : AccessSize size)
    (writing : Bool) :
    (∃ which, m.translate v size writing = .ok (.fail which)) ∨
      ∃ a t, m.translate v size writing = .ok (.ok a { m with pageTable := some t }) := by
  by_cases ha : misaligned v size
  · exact .inl ⟨.addressErrorException, if_pos ha⟩
  obtain ⟨table, hp⟩ := Option.ne_none_iff_exists'.mp hm.pageTable
  rw [translate_table hm.tlb hp writing ha, translateTable, useEntry_eq (offset_le hs ha)]
  split_ifs
  · exact .inl ⟨_, rfl⟩
  · exact .inl ⟨_, rfl⟩
  · exact .inl ⟨_, rfl⟩
  · exact .inl ⟨_, rfl⟩
  · exact .inr ⟨_, _, rfl⟩

theorem useEntry_ok {entry : TranslationEntry} {put : TranslationEntry → Machine} {offset size a : Nat}
    {writing : Bool} {m : Machine} (h : useEntry entry put offset size writing = .ok (.ok a m)) : ∃ e, m = put e := by
  simp only [useEntry] at h
  split_ifs at h
  · simp at h
  · simp at h
  · simp only [bind_eq_ok, Except.ok.injEq, Translation.ok.injEq] at h
    obtain ⟨-, -, -, rfl⟩ := h
    exact ⟨_, rfl⟩

theorem translate_registers {m m' : Machine} {v : Word} {size a : Nat} {writing : Bool}
    (h : m.translate v size writing = .ok (.ok a m')) : m'.registers = m.registers := by
  simp only [translate] at h
  split_ifs at h
  · simp at h
  · split at h
    · simp only [translateTLB] at h
      split at h
      · simp at h
      · obtain ⟨e, rfl⟩ := useEntry_ok h
        rfl
    · simp only [translateTable] at h
      split_ifs at h
      · simp at h
      · simp at h
      · obtain ⟨e, rfl⟩ := useEntry_ok h
        rfl
    · simp at h
    · simp at h

theorem readMem_registers {m m' : Machine} {v a : Word} {size : Nat}
    (h : m.readMem v size = .ok (.value a m')) : m'.registers = m.registers := by
  simp only [readMem, bind_eq_ok] at h
  obtain ⟨r, ht, h⟩ := h
  cases r with
  | fail which =>
    simp only [raiseException, bind_eq_ok] at h
    obtain ⟨m1, -, h⟩ := h
    simp at h
  | ok a m1 =>
    have hr := translate_registers ht
    simp only at h
    split_ifs at h
    all_goals
      simp only [Except.ok.injEq, Outcome.value.injEq] at h
      exact h.2 ▸ hr

structure Sane (m : Machine) : Prop extends TableMode m where
  loadReg : (m.registers loadReg).toNat < numGPRegs

namespace Sane

variable {m : Machine} (hs : m.Sane)
include hs

theorem set {r : Register} (hr : r ≠ Nachos.loadReg) (v : Word) : (m.set r v).Sane :=
  ⟨⟨hs.tlb, hs.pageTable⟩, by rw [set_of_ne m hr.symm]; exact hs.loadReg⟩

theorem withTable (t : Nat → TranslationEntry) : Sane { m with pageTable := some t } :=
  ⟨⟨hs.tlb, by simp⟩, hs.loadReg⟩

theorem withMemory (mem : Buffer) : Sane { m with mainMemory := mem } := ⟨⟨hs.tlb, hs.pageTable⟩, hs.loadReg⟩

theorem delayedLoad (r v : Word) : Completes (m.delayedLoad r v) :=
  ⟨_, dif_pos (hs.loadReg.trans (by decide))⟩

theorem raiseException {α : Type} (which : ExceptionType) (v : Word) :
    ∃ m', m.raiseException (α := α) which v = .ok (.exception which m') := by
  obtain ⟨m', he⟩ := (hs.set (r := badVAddrReg) (by decide) v).delayedLoad 0 0
  exact ⟨m', by simp only [Machine.raiseException, he, ok_bind]⟩

theorem readMem (v : Word) {size : Nat} (hsize : AccessSize size) :
    (∃ which m', m.readMem v size = .ok (.exception which m')) ∨
      ∃ a t, m.readMem v size = .ok (.value a { m with pageTable := some t }) := by
  obtain ⟨which, he⟩ | ⟨a, t, he⟩ := translate_cases hs.toTableMode v hsize false
  · obtain ⟨m', hr⟩ := hs.raiseException (α := Word) which v
    exact .inl ⟨which, m', by simp only [Machine.readMem, he, ok_bind, hr]⟩
  · right
    obtain rfl | rfl | rfl := hsize
    all_goals
      simp only [Machine.readMem, he, ok_bind]
      exact ⟨_, t, rfl⟩

theorem writeMem (v : Word) {size : Nat} (hsize : AccessSize size) (value : Word) :
    (∃ which m', m.writeMem v size value = .ok (.exception which m')) ∨
      ∃ t mem, m.writeMem v size value = .ok (.value () { m with pageTable := some t, mainMemory := mem }) := by
  obtain ⟨which, he⟩ | ⟨a, t, he⟩ := translate_cases hs.toTableMode v hsize true
  · obtain ⟨m', hr⟩ := hs.raiseException (α := Unit) which v
    exact .inl ⟨which, m', by simp only [Machine.writeMem, he, ok_bind, hr]⟩
  · right
    obtain rfl | rfl | rfl := hsize
    all_goals
      simp only [Machine.writeMem, he, ok_bind]
      exact ⟨t, _, rfl⟩

theorem andThen_readMem (v : Word) {size : Nat} (hsize : AccessSize size) {β : Type}
    {f : Word → Machine → Except Fault (Outcome β)} (hf : ∀ a m', m'.Sane → Completes (f a m')) :
    Completes (andThen (m.readMem v size) f) := by
  obtain ⟨which, m', he⟩ | ⟨a, t, he⟩ := hs.readMem v hsize
  · rw [he]
    exact ⟨_, rfl⟩
  · rw [he]
    exact hf _ _ (hs.withTable t)

theorem andThen_writeMem (v : Word) {size : Nat} (hsize : AccessSize size) (value : Word) {β : Type}
    {f : Unit → Machine → Except Fault (Outcome β)} (hf : ∀ a m', m'.Sane → Completes (f a m')) :
    Completes (andThen (m.writeMem v size value) f) := by
  obtain ⟨which, m', he⟩ | ⟨t, mem, he⟩ := hs.writeMem v hsize value
  · rw [he]
    exact ⟨_, rfl⟩
  · rw [he]
    exact hf _ _ ((hs.withTable t).withMemory mem)

end Sane

end Machine

end Nachos
