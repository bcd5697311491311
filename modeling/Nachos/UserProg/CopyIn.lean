import Nachos.Machine.VirtualMemory
import Nachos.UserProg.Residency

namespace Nachos.Kernel

open Machine Reply

variable {k k' k₁ k₂ : Kernel} {a addr : Word} {again : Bool} {text : List Byte} {n i fuel : Nat}

theorem proceed_eq_returned {α β : Type} {x : Except Fault (Reply α)} {f : α → Kernel → Except Fault (Reply β)} {b : β} :
    proceed x f = .ok (.returned b k') ↔ ∃ a k₁, x = .ok (.returned a k₁) ∧ f a k₁ = .ok (.returned b k') := by
  constructor
  · intro h
    obtain ⟨r, hr, h⟩ := bind_eq_ok.mp h
    cases r with
    | returned a k₁ => exact ⟨a, k₁, hr, h⟩
    | finished k₁ => cases h
    | exited => cases h
    | running => cases h
  · rintro ⟨a, k₁, rfl, h⟩
    exact h

theorem access_cases {α : Type} {g : Machine → Except Fault (Outcome α)} {r : Option α}
    (h : k.access g = .ok (.returned r k')) :
    ∃ s, k.space = .ok s ∧ ((∃ a m, r = some a ∧ g (k.machine s) = .ok (.value a m) ∧ k' = k.resume s m) ∨
      r = none ∧ ∃ which m, g (k.machine s) = .ok (.exception which m) ∧
        (k.resume s m).trap which = .ok (.returned () k')) := by
  obtain ⟨s, hs, h⟩ := bind_eq_ok.mp h
  obtain ⟨x, hx, h⟩ := bind_eq_ok.mp h
  refine ⟨s, hs, ?_⟩
  cases x with
  | value a m =>
    cases h
    exact .inl ⟨a, m, rfl, hx, rfl⟩
  | exception which m =>
    obtain ⟨_, k₁, ht, h⟩ := proceed_eq_returned.mp h
    cases h
    exact .inr ⟨rfl, which, m, hx, ht⟩

def MemoryOnly (k k' : Kernel) : Prop :=
  (∀ t, (k'.processes t).map Process.outline = (k.processes t).map Process.outline) ∧
    ∃ registers mainMemory bitMap ipt iptVP fifo random processes,
      k' = { k with registers, mainMemory, bitMap, ipt, iptVP, fifo, random, processes }

namespace MemoryOnly

theorem refl (k : Kernel) : k.MemoryOnly k :=
  ⟨fun _ => rfl, k.registers, k.mainMemory, k.bitMap, k.ipt, k.iptVP, k.fifo, k.random, k.processes, rfl⟩

theorem trans (h : k.MemoryOnly k₁) (h' : k₁.MemoryOnly k₂) : k.MemoryOnly k₂ := by
  obtain ⟨hp, r, m, b, t, v, f, d, p, rfl⟩ := h
  obtain ⟨hp', r', m', b', t', v', f', d', p', rfl⟩ := h'
  exact ⟨fun t => (hp' t).trans (hp t), r', m', b', t', v', f', d', p', rfl⟩

theorem setSpace {s : AddrSpace} (hs : k.space = .ok s) (s' : AddrSpace) (hn : s'.numPages = s.numPages)
    (hw : s'.swapFileName = s.swapFileName) (registers : Register → Word) (mainMemory : Buffer) (bitMap : BitMap)
    (ipt : Nat → Option Tid) (iptVP : Nat → Int) :
    k.MemoryOnly (Kernel.setSpace { k with registers, mainMemory, bitMap, ipt, iptVP } s') := by
  obtain ⟨c, hc⟩ := space_eq_ok.mp hs
  refine ⟨fun t => ?_, registers, mainMemory, bitMap, ipt, iptVP, k.fifo, k.random, _, rfl⟩
  by_cases ht : t = k.current
  · subst ht
    simp [Kernel.setSpace, setProcess, hc, Process.outline, hn, hw]
  · simp [Kernel.setSpace, setProcess, ht]

theorem resume {s : AddrSpace} (hs : k.space = .ok s) (m : Machine) : k.MemoryOnly (k.resume s m) :=
  setSpace hs { s with pageTable := m.pageTable.getD s.pageTable } rfl rfl m.registers m.mainMemory k.bitMap k.ipt k.iptVP

theorem trap {which : ExceptionType} (h : k.trap which = .ok (.returned () k')) : k.MemoryOnly k' := by
  cases which with
  | noException =>
    cases h
    exact refl k
  | pageFaultException =>
    rcases pageFault_cases h with ⟨-, fifo, random, rfl⟩ | ⟨-, s, f, p, i, hs, -, -, -, -, -, -, rfl⟩
    · exact ⟨fun _ => rfl, k.registers, k.mainMemory, k.bitMap, k.ipt, k.iptVP, fifo, random, k.processes, rfl⟩
    · exact setSpace hs (s.enter p i) rfl rfl ..
  | _ => exact absurd h fatal_ne_returned

theorem access {α : Type} {g : Machine → Except Fault (Outcome α)} {r : Option α}
    (h : k.access g = .ok (.returned r k')) : k.MemoryOnly k' := by
  obtain ⟨s, hs, ⟨a, m, -, -, rfl⟩ | ⟨-, which, m, -, ht⟩⟩ := access_cases h
  · exact resume hs m
  · exact (resume hs m).trans (trap ht)

end MemoryOnly

theorem readMem_signExtend {j : Word} (h : k.readMem a 1 = .ok (.returned (some j) k')) :
    ∃ b : Byte, j = b.signExtend 32 := by
  obtain ⟨s, hs, ⟨_, m, hj, hv, -⟩ | ⟨hn, -⟩⟩ := access_cases h
  · obtain rfl := Option.some.inj hj
    obtain ⟨-, -, -, hr, -⟩ := readMem_value rfl rfl (.inl rfl) hv
    exact ⟨_, hr⟩
  · cases hn

theorem readMem_cases (k : Kernel) (a : Word) :
    (∃ k₁, k.readMem a 1 = .ok (.returned none k₁)) ∨
      (∃ (b : Byte) (k₁ : Kernel), k.readMem a 1 = .ok (.returned (some (b.signExtend 32)) k₁)) ∨
      ∀ r k₁, k.readMem a 1 ≠ .ok (.returned r k₁) := by
  by_cases h : ∃ r k₁, k.readMem a 1 = .ok (.returned r k₁)
  · obtain ⟨r, k₁, hr⟩ := h
    cases r with
    | none => exact .inl ⟨k₁, hr⟩
    | some j =>
      obtain ⟨b, rfl⟩ := readMem_signExtend hr
      exact .inr (.inl ⟨b, k₁, hr⟩)
  · exact .inr (.inr fun r k₁ hr => h ⟨r, k₁, hr⟩)

/-- The bytes that user memory gives from an address on, one access each; `again` says whether an access
that failed is made again. -/
inductive Reads (again : Bool) : Kernel → Word → List Byte → Kernel → Prop where
  | nil (k : Kernel) (a : Word) : Reads again k a [] k
  | fault {k k₁ k₂ : Kernel} {a : Word} {b : Byte} {text : List Byte} (hagain : again = true)
      (hr : k.readMem a 1 = .ok (.returned none k₁)) (ht : Reads again k₁ a (b :: text) k₂) : Reads again k a (b :: text) k₂
  | byte {k k₁ k₂ : Kernel} {a : Word} {b : Byte} {text : List Byte}
      (hr : k.readMem a 1 = .ok (.returned (some (b.signExtend 32)) k₁)) (ht : Reads again k₁ (a + 1) text k₂) :
      Reads again k a (b :: text) k₂

theorem Reads.memoryOnly (h : Reads again k a text k') : k.MemoryOnly k' := by
  induction h with
  | nil k a => exact .refl k
  | fault _ hr _ ih => exact (MemoryOnly.access hr).trans ih
  | byte hr _ ih => exact (MemoryOnly.access hr).trans ih

theorem Reads.take (h : Reads again k a text k') (n : Nat) : ∃ k₁, Reads again k a (text.take n) k₁ := by
  induction h generalizing n with
  | nil k a => exact ⟨k, by simpa using Reads.nil k a⟩
  | @fault k _ _ a b text hagain hr _ ih =>
    cases n with
    | zero => exact ⟨k, .nil k a⟩
    | succ n =>
      obtain ⟨k₁, h₁⟩ := ih (n + 1)
      exact ⟨k₁, .fault hagain hr h₁⟩
  | @byte k _ _ a b text hr _ ih =>
    cases n with
    | zero => exact ⟨k, .nil k a⟩
    | succ n =>
      obtain ⟨k₁, h₁⟩ := ih n
      exact ⟨k₁, .byte hr h₁⟩

def writeLoop (k : Kernel) (arg1 : Word) (j : Nat) : Nat → List (Byte × Nat)
  | 0 => []
  | fuel + 1 =>
    match k.readMem (arg1 + .ofNat 32 j) 1 with
    | .ok (.returned none k') => writeLoop k' arg1 j fuel
    | .ok (.returned (some i) k') =>
      (i.setWidth 8, j) :: if i.setWidth 8 = 0#8 then [] else writeLoop k' arg1 (j + 1) fuel
    | _ => []

def execLoop (k : Kernel) (fileAddress : Word) (i : Nat) : Nat → List (Byte × Nat)
  | 0 => []
  | fuel + 1 =>
    match k.readMem fileAddress 1 with
    | .ok (.returned (some j) k') =>
      if j = 0 then [] else (j.setWidth 8, i) :: execLoop k' (fileAddress + 1) (i + 1) fuel
    | _ => []

theorem offset_succ (arg1 : Word) (j : Nat) : arg1 + .ofNat 32 (j + 1) = arg1 + .ofNat 32 j + 1 := by
  rw [BitVec.ofNat_add, ← BitVec.add_assoc]
  rfl

theorem not_mem_dropLast_cons {b c : Byte} {text : List Byte} :
    0#8 ∉ (b :: c :: text).dropLast ↔ b ≠ 0#8 ∧ 0#8 ∉ (c :: text).dropLast := by
  rw [List.dropLast_cons_cons, List.mem_cons, not_or]
  exact and_congr_left' ne_comm

theorem writeLoop_reads (k : Kernel) (arg1 : Word) (j fuel : Nat) :
    ∃ text k', Reads true k (arg1 + .ofNat 32 j) text k' ∧ 0#8 ∉ text.dropLast ∧
      writeLoop k arg1 j fuel = text.zipIdx j := by
  induction fuel generalizing k j with
  | zero => exact ⟨[], k, .nil .., List.not_mem_nil, rfl⟩
  | succ fuel ih =>
    rcases readMem_cases k (arg1 + .ofNat 32 j) with ⟨k₁, hr⟩ | ⟨b, k₁, hr⟩ | hn
    · obtain ⟨text, k', ht, hz, he⟩ := ih k₁ j
      cases text with
      | nil => exact ⟨[], k, .nil .., hz, by simp only [writeLoop, hr, he]⟩
      | cons c text => exact ⟨c :: text, k', .fault rfl hr ht, hz, by simp only [writeLoop, hr, he]⟩
    · by_cases hb : b = 0#8
      · refine ⟨[b], k₁, .byte hr (.nil ..), List.not_mem_nil, ?_⟩
        simp [writeLoop, hr, hb]
      · obtain ⟨text, k', ht, hz, he⟩ := ih k₁ (j + 1)
        rw [offset_succ] at ht
        refine ⟨b :: text, k', .byte hr ht, ?_, ?_⟩
        · cases text with
          | nil => exact List.not_mem_nil
          | cons c text => exact not_mem_dropLast_cons.mpr ⟨hb, hz⟩
        · simp only [writeLoop, hr, setWidth_signExtend, if_neg hb, he, List.zipIdx_cons]
    · refine ⟨[], k, .nil .., List.not_mem_nil, ?_⟩
      unfold writeLoop
      split
      · exact absurd ‹_› (hn _ _)
      · exact absurd ‹_› (hn _ _)
      · rfl

theorem Reads.writeLoop {arg1 : Word} {j : Nat} (h : Reads true k a text k') (ha : a = arg1 + .ofNat 32 j)
    (hz : 0#8 ∉ text.dropLast) : ∃ fuel, k.writeLoop arg1 j fuel = text.zipIdx j := by
  induction h generalizing j with
  | nil k a => exact ⟨0, rfl⟩
  | fault _ hr _ ih =>
    subst ha
    obtain ⟨fuel, he⟩ := ih rfl hz
    exact ⟨fuel + 1, by simp only [Kernel.writeLoop, hr, he]⟩
  | @byte k k₁ k₂ a b text hr _ ih =>
    subst ha
    cases text with
    | nil =>
      refine ⟨1, ?_⟩
      simp only [Kernel.writeLoop, hr, setWidth_signExtend, ite_self]
      rfl
    | cons c text =>
      obtain ⟨hb, hz⟩ := not_mem_dropLast_cons.mp hz
      obtain ⟨fuel, he⟩ := ih (offset_succ ..).symm hz
      refine ⟨fuel + 1, ?_⟩
      simp only [Kernel.writeLoop, hr, setWidth_signExtend, if_neg hb, he, List.zipIdx_cons]

theorem execLoop_reads (k : Kernel) (a : Word) (i fuel : Nat) :
    ∃ text k', Reads false k a text k' ∧ 0#8 ∉ text ∧ execLoop k a i fuel = text.zipIdx i := by
  induction fuel generalizing k a i with
  | zero => exact ⟨[], k, .nil .., List.not_mem_nil, rfl⟩
  | succ fuel ih =>
    rcases readMem_cases k a with ⟨k₁, hr⟩ | ⟨b, k₁, hr⟩ | hn
    · exact ⟨[], k, .nil .., List.not_mem_nil, by simp only [execLoop, hr, List.zipIdx_nil]⟩
    · by_cases hb : b = 0#8
      · refine ⟨[], k, .nil .., List.not_mem_nil, ?_⟩
        simp only [execLoop, hr, signExtend_eq_zero, if_pos hb, List.zipIdx_nil]
      · obtain ⟨text, k', ht, hz, he⟩ := ih k₁ (a + 1) (i + 1)
        refine ⟨b :: text, k', .byte hr ht, ?_, ?_⟩
        · rw [List.mem_cons, not_or]
          exact ⟨Ne.symm hb, hz⟩
        · simp only [execLoop, hr, signExtend_eq_zero, setWidth_signExtend, if_neg hb, he, List.zipIdx_cons]
    · refine ⟨[], k, .nil .., List.not_mem_nil, ?_⟩
      unfold execLoop
      split
      · exact absurd ‹_› (hn _ _)
      · rfl

theorem Reads.execLoop (h : Reads false k a text k') (i : Nat) (hz : 0#8 ∉ text) :
    k.execLoop a i text.length = text.zipIdx i := by
  induction h generalizing i with
  | nil k a => rfl
  | fault hagain => cases hagain
  | byte hr _ ih =>
    obtain ⟨hb, hz⟩ := not_or.mp (List.mem_cons.not.mp hz)
    simp only [List.length_cons, Kernel.execLoop, hr, signExtend_eq_zero, setWidth_signExtend, if_neg (Ne.symm hb),
      ih (i + 1) hz, List.zipIdx_cons]

def applied (array : Buffer) (stores : List (Byte × Nat)) : Buffer :=
  stores.foldl (fun array x => Function.update array x.2 x.1) array

theorem applied_outside (array : Buffer) (text : List Byte) {i j : Nat} (h : j < i ∨ i + text.length ≤ j) :
    applied array (text.zipIdx i) j = array j := by
  induction text generalizing array i with
  | nil => rfl
  | cons b text ih =>
    rw [List.length_cons] at h
    change applied (Function.update array i b) (text.zipIdx (i + 1)) j = _
    rw [ih _ (by omega), Function.update_of_ne (by omega)]

theorem applied_inside (array : Buffer) {text : List Byte} {i j : Nat} (h : j < text.length) :
    applied array (text.zipIdx i) (i + j) ∈ text := by
  induction text generalizing array i j with
  | nil => exact absurd h (Nat.not_lt_zero j)
  | cons b text ih =>
    change applied (Function.update array i b) (text.zipIdx (i + 1)) (i + j) ∈ _
    cases j with
    | zero =>
      have hi : i + 0 < i + 1 := Nat.lt_succ_self i
      rw [applied_outside _ _ (.inl hi), Nat.add_zero, Function.update_self]
      exact List.mem_cons_self
    | succ j =>
      rw [Nat.add_comm j, ← Nat.add_assoc]
      exact List.mem_cons_of_mem _ (ih _ (Nat.lt_of_succ_lt_succ h))

theorem forall_mem_zipIdx_lt {n : Nat} : (∀ x ∈ text.zipIdx, x.2 < n) ↔ text.length ≤ n := by
  constructor
  · intro h
    by_contra hc
    have hlt : n < text.length := by omega
    have hx := h (text[n], n) (List.mk_mem_zipIdx_iff_getElem?.mpr (List.getElem?_eq_getElem hlt))
    exact absurd hx (lt_irrefl n)
  · rintro h ⟨b, i⟩ hx
    have hi := List.snd_lt_of_mem_zipIdx hx
    simp only at hi
    omega

def WritesInside (k : Kernel) : Prop :=
  ∀ fuel, ∀ x ∈ k.advancePC.writeLoop (k.registers arg1Reg) 0 fuel, x.2 < chSize

def NameInside (k : Kernel) : Prop :=
  ∀ fuel, (∀ x ∈ k.advancePC.execLoop (k.registers arg1Reg) 0 fuel, x.2 < nameSize) ∧
    ∃ m < nameSize, applied (fun _ => 0) (k.advancePC.execLoop (k.registers arg1Reg) 0 fuel) m = 0#8

def LongBuffer (k : Kernel) (addr : Word) (n : Nat) : Prop :=
  ∃ text k', Reads true k addr text k' ∧ text.length = n + 1 ∧ 0#8 ∉ text.dropLast

def LongName (k : Kernel) (addr : Word) (n : Nat) : Prop :=
  ∃ text k', Reads false k addr text k' ∧ text.length = n ∧ 0#8 ∉ text

theorem writesInside_iff (k : Kernel) : k.WritesInside ↔ ¬LongBuffer k.advancePC (k.registers arg1Reg) chSize := by
  constructor
  · rintro h ⟨text, k', ht, hl, hz⟩
    obtain ⟨fuel, he⟩ := ht.writeLoop (j := 0) (BitVec.add_zero _).symm hz
    have hx := h fuel
    rw [he, forall_mem_zipIdx_lt] at hx
    omega
  · intro h fuel
    obtain ⟨text, k', ht, hz, he⟩ := writeLoop_reads k.advancePC (k.registers arg1Reg) 0 fuel
    rw [he, forall_mem_zipIdx_lt]
    by_contra hc
    rw [show k.registers arg1Reg + BitVec.ofNat 32 0 = k.registers arg1Reg from BitVec.add_zero _] at ht
    obtain ⟨k₁, h₁⟩ := ht.take (chSize + 1)
    have hlt : chSize < text.length := by omega
    refine h ⟨_, k₁, h₁, List.length_take_of_le hlt, fun hm => hz ?_⟩
    rw [List.dropLast_eq_take, List.length_take_of_le hlt, List.take_take] at hm
    rw [List.dropLast_eq_take]
    exact List.take_subset_take_left text (by omega) hm

theorem nameInside_iff (k : Kernel) : k.NameInside ↔ ¬LongName k.advancePC (k.registers arg1Reg) nameSize := by
  constructor
  · rintro h ⟨text, k', ht, hl, hz⟩
    obtain ⟨-, m, hm, hzero⟩ := h text.length
    have hlt : m < text.length := by omega
    have hin := applied_inside (i := 0) (fun _ => 0) hlt
    rw [ht.execLoop 0 hz] at hzero
    rw [Nat.zero_add, hzero] at hin
    exact hz hin
  · intro h fuel
    obtain ⟨text, k', ht, hz, he⟩ := execLoop_reads k.advancePC (k.registers arg1Reg) 0 fuel
    have hlt : text.length < nameSize := by
      by_contra hc
      obtain ⟨k₁, h₁⟩ := ht.take nameSize
      exact h ⟨_, k₁, h₁, List.length_take_of_le (by omega), fun hm => hz (List.mem_of_mem_take hm)⟩
    rw [he]
    refine ⟨forall_mem_zipIdx_lt.mpr hlt.le, text.length, hlt, ?_⟩
    exact applied_outside _ _ (by omega)

/-- A round of a loop of `SRead`: the byte at `buffer[num]`, and whether `WriteMem` stored it. -/
structure Round where
  byte : Byte
  num : Nat
  stored : Bool

def fileRounds (k : Kernel) (addr : Word) (id : Int) (num : Nat) : Nat → List Round
  | 0 => []
  | n + 1 =>
    match k.input id with
    | [] => []
    | b :: rest =>
      match writeMem { k with input := Function.update k.input id rest } (addr + .ofNat 32 num) 1 (b.signExtend 32) with
      | .ok (.returned r k') => ⟨b, num, r.isSome⟩ :: if b = 0#8 then [] else fileRounds k' addr id (num + 1) n
      | _ => [⟨b, num, false⟩]

def typed (k : Kernel) : List Byte := ((k.input 0).dropWhile isSpace).takeWhile (fun b => !isSpace b)

/-- The indices of `buffer` that `SRead` writes to. At the end of the input `scanf` stores nothing, and
`strlen(buffer)` is the length `garbage` of whatever the array holds. -/
def bufferStores (k : Kernel) (addr : Word) (size id : Int) (garbage : Nat) : List Int :=
  if id = 0 then
    if k.typed = [] then [if garbage > size + 1 then size + 1 else garbage + 1]
    else
      let num := (k.typed.takeWhile (fun b => b != 0#8)).length
      (List.range (k.typed.length + 1)).map Int.ofNat ++ [if num > size + 1 then size + 1 else num + 1]
  else (k.fileRounds addr id 0 size.toNat).map (fun x => (x.num : Int))

def BufferInside (k : Kernel) : Prop :=
  0 < CInt.wrap ((k.registers arg2Reg).toInt + 10) ∧ ∀ garbage, ∀ i ∈ k.advancePC.bufferStores (k.registers arg1Reg)
    (k.registers arg2Reg).toInt (k.registers arg3Reg).toInt garbage,
      0 ≤ i ∧ i < CInt.wrap ((k.registers arg2Reg).toInt + 10)

def BufferFits (k : Kernel) : Prop :=
  -10 < (k.registers arg2Reg).toInt ∧ (k.registers arg2Reg).toInt ≤ CInt.intMax - 10 ∧
    (k.registers arg3Reg = 0 → -1 ≤ (k.registers arg2Reg).toInt ∧ k.typed.length < (k.registers arg2Reg).toInt + 10)

theorem fileRounds_num {id : Int} {num : Nat} {x : Round} (h : x ∈ fileRounds k addr id num n) : x.num < num + n := by
  induction n generalizing k num with
  | zero => exact absurd h List.not_mem_nil
  | succ n ih =>
    unfold fileRounds at h
    split at h
    · exact absurd h List.not_mem_nil
    · split at h
      · rcases List.mem_cons.mp h with rfl | h
        · exact Nat.lt_add_of_pos_right n.succ_pos
        · split_ifs at h
          · exact absurd h List.not_mem_nil
          · have hlt := ih h
            omega
      · obtain rfl := List.mem_singleton.mp h
        exact Nat.lt_add_of_pos_right n.succ_pos

theorem wrap_pos_iff (w : Word) : 0 < CInt.wrap (w.toInt + 10) ↔ -10 < w.toInt ∧ w.toInt ≤ CInt.intMax - 10 := by
  obtain ⟨hl, hu⟩ := CInt.toInt_range w
  by_cases hm : w.toInt + 10 ≤ CInt.intMax
  · rw [CInt.wrap_of_range (by omega) hm]
    omega
  · rw [CInt.wrap_of_over (by omega) (by simp only [CInt.intMax] at hu; omega)]
    simp only [CInt.intMax] at *
    omega

theorem bufferInside_iff (k : Kernel) : k.BufferInside ↔ k.BufferFits := by
  unfold BufferInside BufferFits
  rw [wrap_pos_iff, and_assoc]
  refine and_congr_right fun hl => and_congr_right fun hu => ?_
  have hid : (k.registers arg3Reg).toInt = 0 ↔ k.registers arg3Reg = 0 := BitVec.toInt_inj (y := 0)
  have htyped : k.advancePC.typed = k.typed := rfl
  rw [CInt.wrap_of_range (by omega) (by omega)]
  simp only [bufferStores, hid, htyped]
  generalize (k.registers arg2Reg).toInt = size at *
  by_cases h0 : k.registers arg3Reg = 0
  · simp only [h0, ↓reduceIte, forall_const]
    by_cases hw : k.typed = []
    · simp only [hw, ↓reduceIte, List.mem_singleton, forall_eq, List.length_nil]
      constructor
      · intro h
        have hz := h 0
        split_ifs at hz <;> omega
      · intro h garbage
        split_ifs <;> omega
    · simp only [hw, ↓reduceIte, List.forall_mem_append, List.forall_mem_map, List.mem_range, List.mem_singleton, forall_eq]
      constructor
      · intro h
        obtain ⟨hword, hnum⟩ := h 0
        have hlast := hword k.typed.length (Nat.lt_succ_self _)
        simp only [Int.ofNat_eq_natCast] at hlast
        split_ifs at hnum <;> omega
      · intro h _
        refine ⟨fun j hj => ?_, ?_⟩
        · simp only [Int.ofNat_eq_natCast]
          omega
        · split_ifs <;> omega
  · simp only [h0, ↓reduceIte, false_implies, iff_true, List.forall_mem_map]
    intro _ x hx
    have hlt := fileRounds_num hx
    omega

theorem Reads.copyIn_overrun {ch : List Byte} (h : Reads true k a text k') (ha : a = addr + .ofNat 32 ch.length)
    (hz : 0#8 ∉ text.dropLast) (hch : ch.length ≤ chSize) (hl : chSize < ch.length + text.length) :
    ∃ fuel, k.copyIn addr ch fuel = .error .outOfBounds := by
  induction h generalizing ch with
  | nil k a =>
    rw [List.length_nil] at hl
    omega
  | fault _ hr _ ih =>
    subst ha
    obtain ⟨fuel, he⟩ := ih rfl hz hch hl
    exact ⟨fuel + 1, by rw [Kernel.copyIn, hr, proceed_returned, he]⟩
  | @byte k k₁ k₂ a b text hr _ ih =>
    subst ha
    rw [List.length_cons] at hl
    by_cases hlt : ch.length < chSize
    · cases text with
      | nil =>
        rw [List.length_nil] at hl
        omega
      | cons c text =>
        obtain ⟨hb, hz⟩ := not_mem_dropLast_cons.mp hz
        have hlen : (ch ++ [b]).length = ch.length + 1 := List.length_append
        have ha : addr + .ofNat 32 ch.length + 1 = addr + .ofNat 32 (ch ++ [b]).length := by rw [hlen, offset_succ]
        obtain ⟨fuel, he⟩ := ih ha hz (by omega) (by omega)
        refine ⟨fuel + 1, ?_⟩
        rw [Kernel.copyIn, hr, proceed_returned]
        simp only [setWidth_signExtend, if_pos hlt, if_neg hb, he]
    · refine ⟨1, ?_⟩
      rw [Kernel.copyIn, hr, proceed_returned]
      simp only [if_neg hlt]

theorem scWrite_overrun (h : ¬k.WritesInside) : ∃ fuel, k.scWrite fuel = .error .outOfBounds := by
  rw [writesInside_iff, not_not] at h
  obtain ⟨text, k', ht, hl, hz⟩ := h
  have ha : k.registers arg1Reg = k.registers arg1Reg + .ofNat 32 ([] : List Byte).length := (BitVec.add_zero _).symm
  obtain ⟨fuel, he⟩ := ht.copyIn_overrun ha hz (Nat.zero_le _) (by rw [List.length_nil]; omega)
  refine ⟨fuel, ?_⟩
  simp only [scWrite, advancePC_arg1Reg, he]
  rfl

theorem scRead_overrun (h : ¬k.BufferInside) (hw : k.registers arg3Reg = 0 → k.typed ≠ []) :
    k.scRead = .error .outOfBounds := by
  have hid : (k.registers arg3Reg).toInt = 0 ↔ k.registers arg3Reg = 0 := BitVec.toInt_inj (y := 0)
  rw [bufferInside_iff, BufferFits, ← and_assoc, ← wrap_pos_iff] at h
  simp only [scRead, advancePC_arg2Reg, advancePC_arg3Reg, sRead]
  by_cases hpos : 0 < CInt.wrap ((k.registers arg2Reg).toInt + 10)
  · obtain ⟨h0, hout⟩ := Classical.not_imp.mp (not_and.mp h hpos)
    have hne : k.advancePC.typed ≠ [] := hw h0
    have hlen : k.advancePC.typed.length = k.typed.length := rfl
    rw [if_neg (not_le.mpr hpos), if_pos (hid.mpr h0), readConsole]
    simp only [typed] at hne hlen hout
    simp only [if_neg hne]
    split_ifs
    · rfl
    · rfl
    · omega
    · omega
  · rw [if_pos (not_lt.mp hpos)]
    rfl

/-- The copy loops stay inside their arrays exactly when the user's text ends in time, or cannot be read that
far, and the array of `SRead` has a positive length and room for the word that is typed. -/
theorem copy_in_bounds (k : Kernel) :
    (k.WritesInside ↔ ¬LongBuffer k.advancePC (k.registers arg1Reg) chSize) ∧
      (k.NameInside ↔ ¬LongName k.advancePC (k.registers arg1Reg) nameSize) ∧ (k.BufferInside ↔ k.BufferFits) :=
  ⟨writesInside_iff k, nameInside_iff k, bufferInside_iff k⟩

def ResidentRange (k : Kernel) (s : AddrSpace) (a : Word) (n : Nat) : Prop :=
  ∀ i < n, (k.machine s).Resident s.pageTable ((a + .ofNat 32 i).toNat / pageSize)

theorem ResidentRange.first {s : AddrSpace} (h : k.ResidentRange s a (n + 1)) :
    (k.machine s).Resident s.pageTable (a.toNat / pageSize) := by
  have h0 := h 0 n.succ_pos
  rwa [show a + BitVec.ofNat 32 0 = a from BitVec.add_zero a] at h0

theorem ResidentRange.transfer {s s' : AddrSpace} (h : k.ResidentRange s a n) (hn : s'.numPages = s.numPages)
    (hm : SameMapping s.pageTable s'.pageTable) : k'.ResidentRange s' a n := by
  intro i hi
  obtain ⟨hin, hv, hro, hf⟩ := h i hi
  refine ⟨?_, (hm.valid _).trans hv, ?_, ?_⟩
  · change _ < s'.numPages.toNat
    rw [hn]
    exact hin
  · exact (congrArg TranslationEntry.readOnly (hm _)).trans hro
  · exact (congrArg BitVec.toNat (hm.physicalPage _)).trans_lt hf

theorem ResidentRange.rest {s : AddrSpace} (h : k.ResidentRange s a (n + 1)) : k.ResidentRange s (a + 1) n := by
  intro i hi
  have hi' := h (i + 1) (Nat.succ_lt_succ hi)
  rwa [Nat.add_comm, BitVec.ofNat_add, ← BitVec.add_assoc] at hi'

theorem ResidentRange.from {s : AddrSpace} (h : k.ResidentRange s a n) (hi : i < n) :
    k.ResidentRange s (a + .ofNat 32 i) 1 := by
  intro j hj
  obtain rfl : j = 0 := by omega
  rw [show a + BitVec.ofNat 32 i + BitVec.ofNat 32 0 = a + BitVec.ofNat 32 i from BitVec.add_zero _]
  exact h i hi

def userBytes (k : Kernel) (s : AddrSpace) (a : Word) (n : Nat) : List Byte :=
  (List.range n).map (fun i => k.mainMemory (frameAddress s.pageTable (a + .ofNat 32 i).toNat))

theorem userBytes_succ (k : Kernel) (s : AddrSpace) (a : Word) (n : Nat) :
    k.userBytes s a (n + 1) = k.mainMemory (frameAddress s.pageTable a.toNat) :: k.userBytes s (a + 1) n := by
  rw [userBytes, List.range_succ_eq_map, List.map_cons, List.map_map,
    show a + BitVec.ofNat 32 0 = a from BitVec.add_zero a, userBytes]
  refine congrArg _ (List.map_congr_left fun i _ => ?_)
  simp only [Function.comp_apply, Nat.succ_eq_add_one]
  rw [Nat.add_comm, BitVec.ofNat_add, ← BitVec.add_assoc]
  rfl

theorem userBytes_congr {s s' : AddrSpace} (hm : SameMapping s.pageTable s'.pageTable)
    (hk : k'.mainMemory = k.mainMemory) (a : Word) (n : Nat) : k'.userBytes s' a n = k.userBytes s a n := by
  simp only [userBytes, hk, frameAddress_sameMapping hm]

theorem ResidentRange.reads {s : AddrSpace} (hs : k.space = .ok s) (h : k.ResidentRange s a n) (again : Bool) :
    ∃ k', Reads again k a (k.userBytes s a n) k' := by
  induction n generalizing k s a with
  | zero => exact ⟨k, .nil k a⟩
  | succ n ih =>
    let s' : AddrSpace := { s with pageTable := touch s.pageTable (a.toNat / pageSize) false }
    have hr := readMem_resident hs (.inl rfl) (InCall.aligned a) h.first
    have hm : SameMapping s.pageTable s'.pageTable := sameMapping_touch s.pageTable _ false
    have hs' : (k.setSpace s').space = .ok s' := setSpace_space hs s'
    obtain ⟨k', hk⟩ := ih hs' (h.rest.transfer rfl hm)
    have hbytes : (k.setSpace s').userBytes s' (a + 1) n = k.userBytes s (a + 1) n := userBytes_congr hm rfl ..
    rw [hbytes] at hk
    rw [loaded, if_pos rfl] at hr
    rw [userBytes_succ]
    exact ⟨k', .byte hr hk⟩

def lettersSpace : AddrSpace :=
  ⟨fun p => ⟨.ofNat 32 p, .ofNat 32 p, true, false, false, false⟩, 5, AddrSpace.swapName 0⟩

def letters : Kernel where
  __ := boot 256
  registers r := if r = arg2Reg then 1 else 0
  mainMemory _ := 97
  bitMap := { BitMap.new numPhysPages (fun _ => 0) with map := (List.range 5).foldl Words.mark (fun _ => 0) }
  ipt f := if f < 5 then some 0 else none
  iptVP f := f
  files name := if name = AddrSpace.swapName 0 then some ⟨5 * pageSize, fun _ => 97⟩ else none
  processes t := if t = 0 then some ⟨some lettersSpace, false⟩ else none
  input _ := List.replicate 11 97

theorem lettersSpace_resident (k : Kernel) (hn : n ≤ 501) : k.ResidentRange lettersSpace 0 n := by
  intro i hi
  have ha : ((0 : Word) + BitVec.ofNat 32 i).toNat / pageSize = i / 256 := by
    rw [show (0 : Word) + BitVec.ofNat 32 i = BitVec.ofNat 32 i from BitVec.zero_add _, pageSize_eq, BitVec.toNat_ofNat,
      Nat.mod_eq_of_lt (by omega)]
  have hp : i / 256 < 2 := by omega
  rw [ha]
  refine ⟨hp.trans (show 2 < 5 by decide), rfl, rfl, ?_⟩
  change (BitVec.ofNat 32 (i / 256)).toNat < 32
  rw [BitVec.toNat_ofNat, Nat.mod_eq_of_lt (by omega)]
  omega

theorem letters_userBytes (n : Nat) : letters.advancePC.userBytes lettersSpace 0 n = List.replicate n 97#8 := by
  change (List.range n).map (fun _ => 97#8) = _
  rw [List.map_const', List.length_range]

theorem letters_overrun : ¬letters.WritesInside ∧ ¬letters.NameInside ∧ ¬letters.BufferInside := by
  have hs : letters.advancePC.space = .ok lettersSpace := rfl
  have hne (n : Nat) : 0#8 ∉ List.replicate n 97#8 := by
    intro hm
    exact absurd (List.eq_of_mem_replicate hm) (by decide)
  refine ⟨?_, ?_, ?_⟩
  · rw [writesInside_iff, not_not]
    obtain ⟨k', hk⟩ := (lettersSpace_resident _ (le_refl 501)).reads hs true
    rw [letters_userBytes] at hk
    refine ⟨_, k', hk, List.length_replicate, ?_⟩
    rw [List.dropLast_replicate]
    exact hne _
  · rw [nameInside_iff, not_not]
    obtain ⟨k', hk⟩ := (lettersSpace_resident (n := nameSize) _ (by decide)).reads hs false
    rw [letters_userBytes] at hk
    exact ⟨_, k', hk, List.length_replicate, hne _⟩
  · rw [bufferInside_iff]
    rintro ⟨-, -, h⟩
    have hlt := (h rfl).2
    have hlen : letters.typed.length = 11 := by decide
    rw [hlen] at hlt
    exact absurd hlt (by decide)

end Nachos.Kernel
