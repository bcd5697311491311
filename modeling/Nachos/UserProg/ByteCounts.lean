import Mathlib.Data.List.TakeWhile
import Nachos.UserProg.CopyIn

namespace Nachos.Kernel

open Machine Reply

variable {k k' k₁ k₂ : Kernel} {s : AddrSpace} {a addr : Word} {text : List Byte} {n fuel : Nat}

theorem reads_of_copyIn {ch : List Byte} (h : k.copyIn addr ch fuel = .ok (.returned text k')) :
    ∃ rest, text = ch ++ rest ∧ Reads true k (addr + .ofNat 32 ch.length) (rest ++ [0#8]) k' ∧ 0#8 ∉ rest ∧
      text.length < chSize := by
  induction fuel generalizing k ch with
  | zero => cases h
  | succ fuel ih =>
    obtain ⟨r, k₁, hr, h⟩ := proceed_eq_returned.mp h
    cases r with
    | none =>
      obtain ⟨rest, he, ht, hz, hl⟩ := ih h
      refine ⟨rest, he, ?_, hz, hl⟩
      cases rest with
      | nil => exact .fault rfl hr ht
      | cons b rest => exact .fault rfl hr ht
    | some j =>
      obtain ⟨b, rfl⟩ := readMem_signExtend hr
      simp only [setWidth_signExtend] at h
      split_ifs at h with hlt hb
      · cases h
        exact ⟨[], (List.append_nil _).symm, .byte (by rw [hr, hb]) (.nil ..), List.not_mem_nil, hlt⟩
      · obtain ⟨rest, he, ht, hz, hl⟩ := ih h
        rw [List.length_append, List.length_singleton, offset_succ] at ht
        refine ⟨b :: rest, by rw [he, List.append_assoc, List.singleton_append], .byte hr ht, ?_, hl⟩
        exact List.not_mem_cons_of_ne_of_not_mem (Ne.symm hb) hz

theorem Reads.copyIn {bytes ch : List Byte} (h : Reads true k a bytes k') {rest : List Byte}
    (ha : a = addr + .ofNat 32 ch.length) (hb : bytes = rest ++ [0#8]) (hz : 0#8 ∉ rest)
    (hl : (ch ++ rest).length < chSize) : ∃ fuel, k.copyIn addr ch fuel = .ok (.returned (ch ++ rest) k') := by
  induction h generalizing ch rest with
  | nil k a => exact absurd hb.symm (List.append_ne_nil_of_right_ne_nil _ (List.cons_ne_nil _ _))
  | fault _ hr _ ih =>
    subst ha
    obtain ⟨fuel, he⟩ := ih rfl hb hz hl
    exact ⟨fuel + 1, by rw [Kernel.copyIn, hr, proceed_returned, he]⟩
  | @byte k k₁ k₂ a b text hr ht ih =>
    subst ha
    rw [List.length_append] at hl
    cases rest with
    | nil =>
      obtain ⟨rfl, rfl⟩ := List.cons.inj hb
      cases ht
      refine ⟨1, ?_⟩
      rw [Kernel.copyIn, hr, proceed_returned, List.append_nil]
      simp only [setWidth_signExtend, if_pos (Nat.lt_of_add_right_lt hl), ↓reduceIte]
    | cons c rest =>
      obtain ⟨rfl, rfl⟩ := List.cons.inj hb
      obtain ⟨hb, hz⟩ := List.ne_and_not_mem_of_not_mem_cons hz
      have hlen : (ch ++ [b]).length = ch.length + 1 := List.length_append
      rw [List.length_cons] at hl
      have ha : addr + .ofNat 32 ch.length + 1 = addr + .ofNat 32 (ch ++ [b]).length := by rw [hlen, offset_succ]
      obtain ⟨fuel, he⟩ := ih ha rfl hz (by rw [List.length_append, hlen]; omega)
      refine ⟨fuel + 1, ?_⟩
      rw [Kernel.copyIn, hr, proceed_returned]
      simp only [setWidth_signExtend, if_pos (show ch.length < chSize by omega), if_neg (Ne.symm hb), he,
        List.append_assoc, List.singleton_append]

theorem MemoryOnly.output (h : k.MemoryOnly k') : k'.output = k.output ∧ k'.opened = k.opened := by
  obtain ⟨-, _, _, _, _, _, _, _, _, rfl⟩ := h
  exact ⟨rfl, rfl⟩

theorem gotFreePage_returned_iff (hs : k.space = .ok s) (p : Int) (i : Nat) :
    (∃ k', k.gotFreePage p i = .ok (.returned () k')) ↔
      (∃ f, k.files s.swapFileName = some f) ∧ 0 ≤ p ∧ p < s.numPages.toNat := by
  simp only [gotFreePage, hs, ok_bind]
  cases hf : k.files s.swapFileName with
  | none =>
    refine iff_of_false ?_ ?_
    · rintro ⟨k', h⟩
      cases h
    · rintro ⟨⟨f, h⟩, -⟩
      cases h
  | some f =>
    constructor
    · rintro ⟨k', h⟩
      obtain ⟨_, -, h⟩ := bind_eq_ok.mp h
      obtain ⟨s', he, -⟩ := bind_eq_ok.mp h
      unfold setEntry at he
      split_ifs at he with hp
      exact ⟨⟨f, rfl⟩, hp⟩
    · rintro ⟨-, hp, hn⟩
      obtain ⟨q, rfl⟩ := Int.eq_ofNat_of_zero_le hp
      simp only [UnixFile.readAt_page, ok_bind, setEntry_eq (Int.ofNat_lt.mp hn)]
      exact ⟨_, rfl⟩

theorem noFreePage_returned_iff (k : Kernel) :
    (∃ k', k.noFreePage = .ok (.returned () k')) ↔
      (k.virtualOption = 1 ∧ ∃ e, k.evicted (k.fifo.headD 0) = .ok e) ∨
        k.virtualOption = 2 ∧ ∃ e, k.evicted (k.random.headD 0 % numPhysPages) = .ok e := by
  have hthen (x : Except Fault TranslationEntry) (k₁ : Kernel) :
      (∃ k', (do let _ ← x; .ok (.returned () k₁) : Except Fault (Reply Unit)) = .ok (.returned () k')) ↔ ∃ e, x = .ok e := by
    cases x with
    | error e =>
      refine iff_of_false ?_ ?_
      · rintro ⟨k', h⟩
        cases h
      · rintro ⟨e', h⟩
        cases h
    | ok e => exact iff_of_true ⟨k₁, rfl⟩ ⟨e, rfl⟩
  unfold noFreePage
  split_ifs with h0 h1 h2
  · refine iff_of_false ?_ (by omega)
    rintro ⟨k', h⟩
    cases h
  · rw [hthen]
    exact ⟨fun h => .inl ⟨h1, h⟩, fun h => h.elim And.right (fun h => by omega)⟩
  · rw [hthen]
    exact ⟨fun h => .inr ⟨h2, h⟩, fun h => h.elim (fun h => by omega) And.right⟩
  · refine iff_of_false ?_ (by omega)
    rintro ⟨k', h⟩
    cases h

theorem pageFault_returned_iff (hs : k.space = .ok s) :
    (∃ k', k.pageFault = .ok (.returned () k')) ↔
      (0 < k.bitMap.numClear ∧ (∃ f, k.files s.swapFileName = some f) ∧
        0 ≤ divRoundDown (k.registers badVAddrReg).toInt pageSize ∧
        divRoundDown (k.registers badVAddrReg).toInt pageSize < s.numPages.toNat) ∨
      k.bitMap.numClear = 0 ∧ ((k.virtualOption = 1 ∧ ∃ e, k.evicted (k.fifo.headD 0) = .ok e) ∨
        k.virtualOption = 2 ∧ ∃ e, k.evicted (k.random.headD 0 % numPhysPages) = .ok e) := by
  rcases Nat.eq_zero_or_pos k.bitMap.numClear with hz | hpos
  · have hfind : k.bitMap.find = (Int.negSucc 0, k.bitMap) := BitMap.find_of_full hz
    simp only [pageFault, hfind]
    rw [noFreePage_returned_iff]
    exact ⟨fun h => .inr ⟨hz, h⟩, fun h => h.elim (fun h => absurd hz h.1.ne') And.right⟩
  · obtain ⟨i, -, -, -, hfind⟩ := BitMap.find_of_clear hpos
    have hfind' : k.bitMap.find = (Int.ofNat i, { k.bitMap with map := k.bitMap.map.mark i }) := hfind
    simp only [pageFault, hfind']
    refine (gotFreePage_returned_iff (k := { k with bitMap := { k.bitMap with map := k.bitMap.map.mark i } }) hs _ i).trans ?_
    exact ⟨fun h => .inl ⟨hpos, h⟩, fun h => h.elim And.right (fun h => absurd h.1 hpos.ne')⟩

def After (k : Kernel) (s : AddrSpace) (k' : Kernel) : Prop :=
  ∃ mainMemory input pageTable, SameMapping s.pageTable pageTable ∧
    k' = setSpace { k with mainMemory, input } { s with pageTable }

namespace After

theorem refl (hs : k.space = .ok s) (input : Int → List Byte) : k.After s { k with input } := by
  refine ⟨k.mainMemory, input, s.pageTable, .refl _, ?_⟩
  exact (setSpace_self (k := { k with input }) hs).symm

theorem space (h : k.After s k') (hs : k.space = .ok s) :
    ∃ pageTable, SameMapping s.pageTable pageTable ∧ k'.space = .ok { s with pageTable } := by
  obtain ⟨mainMemory, input, pageTable, hm, rfl⟩ := h
  exact ⟨pageTable, hm, setSpace_space (k := { k with mainMemory, input }) hs _⟩

theorem trans {pageTable : Nat → TranslationEntry} (h : k.After s k₁) (hm : SameMapping s.pageTable pageTable)
    (h' : k₁.After { s with pageTable } k₂) : k.After s k₂ := by
  obtain ⟨mainMemory₁, input₁, pageTable₁, hm₁, rfl⟩ := h
  obtain ⟨mainMemory₂, input₂, pageTable₂, hm₂, rfl⟩ := h'
  refine ⟨mainMemory₂, input₂, pageTable₂, hm.trans hm₂, ?_⟩
  simp only [setSpace, setProcess, Function.update_self, Function.update_idem, Option.map_map]
  rfl

theorem withRegisters (h : k.After s k') (registers : Register → Word) :
    After { k with registers } s { k' with registers } := by
  obtain ⟨mainMemory, input, pageTable, hm, rfl⟩ := h
  exact ⟨mainMemory, input, pageTable, hm, rfl⟩

theorem evicted (h : k.After s k') (hs : k.space = .ok s) (f : Nat) :
    (∃ e, k'.evicted f = .ok e) ↔ ∃ e, k.evicted f = .ok e := by
  obtain ⟨mainMemory, input, pageTable, -, rfl⟩ := h
  obtain ⟨c, hc⟩ := space_eq_ok.mp hs
  unfold Kernel.evicted
  have hi : (setSpace { k with mainMemory, input } { s with pageTable }).ipt = k.ipt := rfl
  have hv : (setSpace { k with mainMemory, input } { s with pageTable }).iptVP = k.iptVP := rfl
  rw [hi, hv]
  cases k.ipt f with
  | none => exact Iff.rfl
  | some t =>
    by_cases ht : t = k.current
    · subst ht
      simp only [setSpace, setProcess, Function.update_self, hc, Option.map_some]
      split_ifs
      · exact iff_of_true ⟨_, rfl⟩ ⟨_, rfl⟩
      · exact Iff.rfl
    · simp only [setSpace, setProcess, Function.update_of_ne ht]

theorem pageFault (h : k.After s k') (hs : k.space = .ok s) :
    (∃ k₂, k'.pageFault = .ok (.returned () k₂)) ↔ ∃ k₂, k.pageFault = .ok (.returned () k₂) := by
  obtain ⟨pageTable, -, hs'⟩ := h.space hs
  have he := h.evicted hs
  rw [pageFault_returned_iff hs, pageFault_returned_iff hs', he, he]
  obtain ⟨mainMemory, input, _, -, rfl⟩ := h
  exact Iff.rfl

end After

def storeRounds (k : Kernel) (addr : Word) (num : Nat) : List Byte → List Round
  | [] => []
  | b :: rest =>
    match k.writeMem (addr + .ofNat 32 num) 1 (b.signExtend 32) with
    | .ok (.returned r k') => ⟨b, num, r.isSome⟩ :: if b = 0#8 then [] else storeRounds k' addr (num + 1) rest
    | _ => [⟨b, num, false⟩]

def stores (rounds : List Round) : List (Byte × Nat) := (rounds.filter Round.stored).map (fun x => (x.byte, x.num))

section Stores

variable {num : Nat} {id : Int}

end Stores

def consoleBytes (word : List Byte) (size : Int) : List Byte :=
  let text := word.takeWhile (fun b => b != 0#8)
  if text.length > size + 1 then text.take (size + 1).toNat else text ++ [0#8]

def consumed (k : Kernel) : Kernel :=
  { k with input := Function.update k.input 0 (((k.input 0).dropWhile isSpace).drop k.typed.length) }

def readRounds (k : Kernel) (addr : Word) (size id : Int) : List Round :=
  if id = 0 then k.consumed.storeRounds addr 0 (consoleBytes k.typed size) else k.fileRounds addr id 0 size.toNat

section File

variable {size id : Int} {supplied : List Byte}

end File

section Console

variable {size : Int} {num m : Nat}

end Console

end Nachos.Kernel
