import Nachos.Machine.Access

namespace Nachos

open Buffer

def byteOfShort (w : BitVec 16) (i : Nat) : Byte := w.extractLsb' (8 * i) 8

theorem byteOf_wordToHost_big (w : Word) {j : Nat} (hj : j < 4) :
    byteOf (wordToHost .bigEndian w) j = byteOf w (3 - j) := by
  apply BitVec.eq_of_getLsbD_eq
  intro k hk
  simp only [byteOf, wordToHost, BitVec.getLsbD_extractLsb', BitVec.getLsbD_or, BitVec.getLsbD_and,
    BitVec.getLsbD_ushiftRight, BitVec.getLsbD_shiftLeft]
  interval_cases j <;> interval_cases k <;> simp

theorem byteOfShort_shortToHost_big (w : BitVec 16) {j : Nat} (hj : j < 2) :
    byteOfShort (shortToHost .bigEndian w) j = byteOfShort w (1 - j) := by
  apply BitVec.eq_of_getLsbD_eq
  intro k hk
  simp only [byteOfShort, shortToHost, BitVec.getLsbD_extractLsb', BitVec.getLsbD_or, BitVec.getLsbD_and,
    BitVec.getLsbD_ushiftRight, BitVec.getLsbD_shiftLeft]
  interval_cases j <;> interval_cases k <;> simp

theorem byteOf_loadWord (host : Host) (mem : Buffer) (a : Nat) {j : Nat} (hj : j < 4) :
    byteOf (wordToHost host (host.loadWord mem a)) j = mem (a + j) := by
  cases host with
  | littleEndian => exact byteOf_wordAt mem a j hj
  | bigEndian =>
    have hr : Host.loadWord .bigEndian mem a = wordAt (fun i => mem (a + (3 - i))) 0 := by
      simp [Host.loadWord, wordAt]
    rw [byteOf_wordToHost_big _ hj, hr, byteOf_wordAt _ _ _ (by omega)]
    exact congrArg mem (by omega)

theorem byteOfShort_append (x y : Byte) {j : Nat} (hj : j < 2) :
    byteOfShort (x ++ y) j = if j = 0 then y else x := by
  apply BitVec.eq_of_getLsbD_eq
  intro k hk
  simp only [byteOfShort, BitVec.getLsbD_extractLsb', BitVec.getLsbD_append, hk, decide_true, Bool.true_and]
  interval_cases j <;> simp [hk]

theorem byteOfShort_loadShort (host : Host) (mem : Buffer) (a : Nat) {j : Nat} (hj : j < 2) :
    byteOfShort (shortToHost host (host.loadShort mem a)) j = mem (a + j) := by
  cases host with
  | littleEndian =>
    change byteOfShort (mem (a + 1) ++ mem a) j = _
    rw [byteOfShort_append _ _ hj]
    interval_cases j <;> rfl
  | bigEndian =>
    rw [byteOfShort_shortToHost_big _ hj]
    change byteOfShort (mem a ++ mem (a + 1)) (1 - j) = _
    rw [byteOfShort_append _ _ (by omega)]
    interval_cases j <;> rfl

theorem byteOf_setWidth (w : BitVec 16) {j : Nat} (hj : j < 2) : byteOf (w.setWidth 32) j = byteOfShort w j := by
  apply BitVec.eq_of_getLsbD_eq
  intro k hk
  simp only [byteOf, byteOfShort, BitVec.getLsbD_extractLsb', BitVec.getLsbD_setWidth, hk]
  have hb : 8 * j + k < 32 := by omega
  simp [hb]

theorem byteOf_signExtend (b : Byte) : byteOf (b.signExtend 32) 0 = b := by
  apply BitVec.eq_of_getLsbD_eq
  intro k hk
  have hb : k < 32 := by omega
  rw [byteOf, BitVec.getLsbD_extractLsb', BitVec.getLsbD_signExtend]
  simp [hk, hb]

def loaded (host : Host) (mem : Buffer) (a size : Nat) : Word :=
  if size = 1 then (mem a).signExtend 32
  else if size = 2 then (shortToHost host (host.loadShort mem a)).setWidth 32
  else wordToHost host (host.loadWord mem a)

def stored (host : Host) (mem : Buffer) (a size : Nat) (value : Word) : Buffer :=
  if size = 1 then Function.update mem a ((value &&& 0xff).setWidth 8)
  else if size = 2 then host.storeShort mem a (shortToMachine host ((value &&& 0xffff).setWidth 16))
  else host.storeWord mem a (wordToMachine host value)

variable {host : Host} {mem : Buffer} {a size : Nat} {value : Word}

theorem byteOf_loaded (hs : AccessSize size) {j : Nat} (hj : j < size) :
    byteOf (loaded host mem a size) j = mem (a + j) := by
  obtain rfl | rfl | rfl := hs
  · obtain rfl : j = 0 := by omega
    exact byteOf_signExtend _
  · exact (byteOf_setWidth _ hj).trans (byteOfShort_loadShort host mem a hj)
  · exact byteOf_loadWord host mem a hj

theorem byteOf_low (w : Word) : (w &&& 0xff).setWidth 8 = byteOf w 0 := by
  apply BitVec.eq_of_getLsbD_eq
  intro k hk
  simp only [byteOf, BitVec.getLsbD_setWidth, BitVec.getLsbD_and, BitVec.getLsbD_extractLsb', hk]
  interval_cases k <;> simp

theorem byteOfShort_low (w : Word) {j : Nat} (hj : j < 2) :
    byteOfShort ((w &&& 0xffff).setWidth 16) j = byteOf w j := by
  apply BitVec.eq_of_getLsbD_eq
  intro k hk
  simp only [byteOf, byteOfShort, BitVec.getLsbD_setWidth, BitVec.getLsbD_and, BitVec.getLsbD_extractLsb', hk]
  interval_cases j <;> interval_cases k <;> simp

theorem stored_apply (hs : AccessSize size) (b : Nat) :
    stored host mem a size value b = if a ≤ b ∧ b < a + size then byteOf value (b - a) else mem b := by
  obtain rfl | rfl | rfl := hs
  · simp only [stored, ↓reduceIte, Function.update_apply]
    by_cases hb : b = a
    · rw [if_pos hb, if_pos (by omega), byteOf_low, hb, Nat.sub_self]
    · rw [if_neg hb, if_neg (by omega)]
  · change host.storeShort mem a (shortToHost host ((value &&& 0xffff).setWidth 16)) b = _
    split_ifs with hb
    · rw [Host.storeShort, copy_inside hb.1 hb.2]
      have hj : b - a < 2 := by omega
      cases host with
      | littleEndian => exact byteOfShort_low value hj
      | bigEndian =>
        change byteOfShort (shortToHost .bigEndian _) (1 - (b - a)) = _
        rw [byteOfShort_shortToHost_big _ (by omega), byteOfShort_low _ (by omega)]
        exact congrArg (byteOf value) (by omega)
    · exact copy_outside (by omega)
  · change host.storeWord mem a (wordToHost host value) b = _
    split_ifs with hb
    · rw [Host.storeWord, copy_inside hb.1 hb.2]
      cases host with
      | littleEndian => rfl
      | bigEndian =>
        change byteOf (wordToHost .bigEndian value) (3 - (b - a)) = _
        rw [byteOf_wordToHost_big _ (by omega)]
        exact congrArg (byteOf value) (by omega)
    · exact copy_outside (by omega)

theorem page_disjoint {p q c n o : Nat} (hne : q ≠ p) (hc : c + n ≤ pageSize) (ho : o < pageSize) :
    ¬(p * pageSize + c ≤ q * pageSize + o ∧ q * pageSize + o < p * pageSize + c + n) := by
  rw [pageSize_eq] at *
  omega

namespace Machine

variable {m : Machine} {table : Nat → TranslationEntry} {v : Word}

def touch (table : Nat → TranslationEntry) (p : Nat) (writing : Bool) : Nat → TranslationEntry :=
  Function.update table p { table p with use := true, dirty := (table p).dirty || writing }

def frameAddress (table : Nat → TranslationEntry) (a : Nat) : Nat :=
  (table (a / pageSize)).physicalPage.toNat * pageSize + a % pageSize

theorem misaligned_iff (v : Word) (hs : AccessSize size) : misaligned v size ↔ ¬size ∣ v.toNat := by
  have h4 : v &&& 3 = 0 ↔ v.toNat % 4 = 0 := by
    rw [← BitVec.toNat_inj, BitVec.toNat_and]
    exact Eq.congr_left (Nat.and_two_pow_sub_one_eq_mod v.toNat 2)
  have h2 : v &&& 1 = 0 ↔ v.toNat % 2 = 0 := by
    rw [← BitVec.toNat_inj, BitVec.toNat_and]
    exact Eq.congr_left (Nat.and_two_pow_sub_one_eq_mod v.toNat 1)
  rw [misaligned, Ne, Ne, h4, h2, Nat.dvd_iff_mod_eq_zero]
  obtain rfl | rfl | rfl := hs
  · omega
  · omega
  · omega

def OutOfRange (m : Machine) (v : Word) (size : Nat) : Prop := ¬size ∣ v.toNat ∨ m.pageTableSize.toNat ≤ v.toNat / pageSize

instance (m : Machine) (v : Word) (size : Nat) : Decidable (m.OutOfRange v size) := inferInstanceAs (Decidable (_ ∨ _))

theorem translate_answer (ht : m.tlb = none) (hp : m.pageTable = some table) (v : Word) (hs : AccessSize size)
    (writing : Bool) : m.translate v size writing = .ok (
      if m.OutOfRange v size then .fail .addressErrorException
      else if (table (v.toNat / pageSize)).valid = false then .fail .pageFaultException
      else if (table (v.toNat / pageSize)).readOnly ∧ writing then .fail .readOnlyException
      else if numPhysPages ≤ (table (v.toNat / pageSize)).physicalPage.toNat then .fail .busErrorException
      else .ok (frameAddress table v.toNat)
        { m with pageTable := some (touch table (v.toNat / pageSize) writing) }) := by
  by_cases ha : misaligned v size
  · rw [if_pos (.inl ((misaligned_iff v hs).mp ha))]
    exact if_pos ha
  have hd : size ∣ v.toNat := by
    by_contra hn
    exact ha ((misaligned_iff v hs).mpr hn)
  rw [translate_table ht hp writing ha, translateTable, useEntry_eq (offset_le hs ha)]
  simp only [OutOfRange, hd, not_true_eq_false, false_or]
  split_ifs
  all_goals rfl

structure Resident (m : Machine) (table : Nat → TranslationEntry) (p : Nat) : Prop where
  inside : p < m.pageTableSize.toNat
  valid : (table p).valid = true
  readOnly : (table p).readOnly = false
  frame : (table p).physicalPage.toNat < numPhysPages

theorem translate_resident (ht : m.tlb = none) (hp : m.pageTable = some table) (hs : AccessSize size)
    (ha : ¬misaligned v size) (hr : m.Resident table (v.toNat / pageSize)) (writing : Bool) :
    m.translate v size writing = .ok (.ok (frameAddress table v.toNat)
      { m with pageTable := some (touch table (v.toNat / pageSize) writing) }) := by
  rw [misaligned_iff v hs] at ha
  have hin : ¬m.OutOfRange v size := not_or.mpr ⟨ha, Nat.not_le.mpr hr.inside⟩
  rw [translate_answer ht hp v hs writing, if_neg hin, if_neg (by simp [hr.valid]), if_neg (by simp [hr.readOnly]),
    if_neg (Nat.not_le.mpr hr.frame)]

theorem translate_cold (ht : m.tlb = none) (hp : m.pageTable = some table) (ha : ¬misaligned v size)
    (hi : v.toNat / pageSize < m.pageTableSize.toNat) (hv : (table (v.toNat / pageSize)).valid = false)
    (writing : Bool) : m.translate v size writing = .ok (.fail .pageFaultException) := by
  rw [translate_table ht hp writing ha, translateTable, if_neg (by omega), if_pos hv]

theorem translate_outside (ht : m.tlb = none) (hp : m.pageTable = some table)
    (hi : m.pageTableSize.toNat ≤ v.toNat / pageSize) (writing : Bool) :
    m.translate v size writing = .ok (.fail .addressErrorException) := by
  by_cases ha : misaligned v size
  · exact if_pos ha
  · rw [translate_table ht hp writing ha, translateTable, if_pos hi]

theorem translate_inv {x : Translation} {writing : Bool} (ht : m.tlb = none) (hp : m.pageTable = some table)
    (h : m.translate v size writing = .ok x) :
    x = .fail .pageFaultException ∧ ¬misaligned v size ∧ v.toNat / pageSize < m.pageTableSize.toNat ∧
        (table (v.toNat / pageSize)).valid = false ∨
      (∃ which, x = .fail which ∧ which ≠ .pageFaultException ∧ which ≠ .noException) ∨
      (table (v.toNat / pageSize)).valid = true ∧
        ∃ a, x = .ok a { m with pageTable := some (touch table (v.toNat / pageSize) writing) } := by
  by_cases ha : misaligned v size
  · rw [translate, if_pos ha] at h
    cases h
    exact .inr (.inl ⟨_, rfl, by decide, by decide⟩)
  rw [translate_table ht hp writing ha] at h
  unfold translateTable at h
  split_ifs at h with hi hv
  · cases h
    exact .inr (.inl ⟨_, rfl, by decide, by decide⟩)
  · cases h
    exact .inl ⟨rfl, ha, by omega, hv⟩
  · simp only [useEntry] at h
    split_ifs at h
    · cases h
      exact .inr (.inl ⟨_, rfl, by decide, by decide⟩)
    · cases h
      exact .inr (.inl ⟨_, rfl, by decide, by decide⟩)
    · obtain ⟨_, -, h⟩ := bind_eq_ok.mp h
      cases h
      exact .inr (.inr ⟨by simpa using hv, _, rfl⟩)

theorem readMem_of_ok {m' : Machine} (hs : AccessSize size) (h : m.translate v size false = .ok (.ok a m')) :
    m.readMem v size = .ok (.value (loaded m'.host m'.mainMemory a size) m') := by
  simp only [readMem, h, ok_bind]
  obtain rfl | rfl | rfl := hs
  all_goals rfl

theorem writeMem_of_ok {m' : Machine} (hs : AccessSize size) (h : m.translate v size true = .ok (.ok a m')) :
    m.writeMem v size value =
      .ok (.value () { m' with mainMemory := stored m'.host m'.mainMemory a size value }) := by
  simp only [writeMem, h, ok_bind]
  obtain rfl | rfl | rfl := hs
  all_goals rfl

theorem readMem_of_fail {which : ExceptionType} (h : m.translate v size false = .ok (.fail which)) :
    m.readMem v size = m.raiseException which v := by simp only [readMem, h, ok_bind]

theorem writeMem_of_fail {which : ExceptionType} (h : m.translate v size true = .ok (.fail which)) :
    m.writeMem v size value = m.raiseException which v := by simp only [writeMem, h, ok_bind]

structure Raised (registers : Register → Word) (badVAddr : Word) (registers' : Register → Word) : Prop where
  badVAddr : registers' badVAddrReg = badVAddr
  same : registers loadReg = 0 → ∀ r, r ≠ badVAddrReg → r ≠ loadReg → r ≠ loadValueReg → r ≠ gpReg 0 →
    registers' r = registers r
  loadReg : registers' loadReg = 0

theorem delayedLoad_eq {r : Register} (h : (m.registers loadReg).toNat = r) (nextReg nextValue : Word) :
    m.delayedLoad nextReg nextValue =
      .ok ((((m.set r (m.registers loadValueReg)).set loadReg nextReg).set loadValueReg nextValue).set (gpReg 0) 0) := by
  have hr : (m.registers loadReg).toNat < numTotalRegs := h ▸ r.isLt
  have he : (⟨_, hr⟩ : Register) = r := Fin.ext h
  rw [delayedLoad, dif_pos hr, he]

theorem raiseException_raised {α : Type} (h : (m.registers loadReg).toNat < numGPRegs) (which : ExceptionType)
    (v : Word) : ∃ registers, Raised m.registers v registers ∧
      m.raiseException (α := α) which v = .ok (.exception which { m with registers }) := by
  let r := gpReg ⟨(m.registers loadReg).toNat, h⟩
  have hr : ((m.set badVAddrReg v).registers loadReg).toNat = r := by
    rw [set_of_ne m (by decide)]
    rfl
  have hne : badVAddrReg ≠ r := by
    intro hc
    have hv : 39 = (m.registers loadReg).toNat := congrArg Fin.val hc
    have h32 : (m.registers loadReg).toNat < 32 := h
    omega
  refine ⟨((((((m.set badVAddrReg v).set r _).set loadReg 0).set loadValueReg 0).set (gpReg 0) 0).registers),
    ⟨?_, ?_, ?_⟩, by rw [raiseException, delayedLoad_eq hr]; rfl⟩
  · rw [set_of_ne _ (by decide), set_of_ne _ (by decide), set_of_ne _ (by decide), set_of_ne _ hne, set_self]
  · intro hz r' hb hlr hlv h0
    have hr0 : r' ≠ r := by
      have he : r = gpReg 0 := by
        apply Fin.ext
        change (m.registers loadReg).toNat = 0
        simp [hz]
      rwa [he]
    rw [set_of_ne _ h0, set_of_ne _ hlv, set_of_ne _ hlr, set_of_ne _ hr0, set_of_ne _ hb]
  · rw [set_of_ne _ (by decide), set_of_ne _ (by decide), set_self]

end Machine

end Nachos
