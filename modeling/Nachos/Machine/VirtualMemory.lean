import Nachos.Machine.Trap

namespace Nachos

theorem SameMapping.valid {t u : Nat → TranslationEntry} (h : SameMapping t u) (p : Nat) : (u p).valid = (t p).valid := by
  rw [← h p]

theorem SameMapping.physicalPage {t u : Nat → TranslationEntry} (h : SameMapping t u) (p : Nat) :
    (u p).physicalPage = (t p).physicalPage := by
  rw [← h p]

namespace Machine

open Buffer

variable {m m' : Machine} {table : Nat → TranslationEntry} {v : Word} {size : Nat} {writing : Bool}

structure Translated (m : Machine) (table : Nat → TranslationEntry) (v : Word) (size : Nat) (writing : Bool) (a : Nat)
    (m' : Machine) : Prop where
  aligned : size ∣ v.toNat
  inside : v.toNat / pageSize < m.pageTableSize.toNat
  valid : (table (v.toNat / pageSize)).valid = true
  writable : writing = true → (table (v.toNat / pageSize)).readOnly = false
  frame : 0 ≤ (table (v.toNat / pageSize)).physicalPage.toInt ∧
    (table (v.toNat / pageSize)).physicalPage.toInt < numPhysPages
  physAddr : (a : Int) = (table (v.toNat / pageSize)).physicalPage.toInt * pageSize + v.toNat % pageSize
  within : v.toNat % pageSize + size ≤ pageSize
  memory : a + size ≤ memorySize
  effect : m' = { m with pageTable := some (Function.update table (v.toNat / pageSize)
    { table (v.toNat / pageSize) with use := true, dirty := (table (v.toNat / pageSize)).dirty || writing }) }

theorem toInt_frame {w : Word} (h : w.toNat < numPhysPages) : w.toInt = w.toNat := by
  have h32 : w.toNat < 32 := h
  rw [BitVec.toInt_eq_toNat_cond]
  split_ifs
  · rfl
  · omega

theorem translated (ht : m.tlb = none) (hp : m.pageTable = some table) (hs : AccessSize size) {a : Nat}
    (h : m.translate v size writing = .ok (.ok a m')) : Translated m table v size writing a m' := by
  have hx := Except.ok.inj ((translate_answer ht hp v hs writing).symm.trans h)
  split_ifs at hx with ho hv hr hf
  obtain ⟨rfl, rfl⟩ := Translation.ok.inj hx
  simp only [OutOfRange, not_or, not_not, Nat.not_le] at ho
  have ha : ¬misaligned v size := fun hm => (misaligned_iff v hs).mp hm ho.1
  have hframe : (table (v.toNat / pageSize)).physicalPage.toNat < numPhysPages := by omega
  have hle := offset_le hs ha
  refine ⟨ho.1, ho.2, by simpa using hv, ?_, ?_, ?_, hle, ?_, rfl⟩
  · intro hw
    simpa [hw] using hr
  · rw [toInt_frame hframe]
    omega
  · rw [toInt_frame hframe, frameAddress]
    push_cast
    rfl
  · have hm : ((table (v.toNat / pageSize)).physicalPage.toNat + 1) * pageSize ≤ memorySize :=
      Nat.mul_le_mul_right _ hframe
    rw [Nat.add_mul, Nat.one_mul] at hm
    rw [frameAddress]
    omega

theorem Translated.physAddr_eq {a : Nat} (h : Translated m table v size writing a m') : a = frameAddress table v.toNat := by
  have hf := h.frame
  have hp := h.physAddr
  rw [BitVec.toInt_eq_toNat_of_msb (by rw [BitVec.msb_eq_toInt]; simpa using hf.1)] at hp
  rw [frameAddress]
  exact_mod_cast hp

/-- Whatever the page table holds, `Translate` completes; it maps what it may map, and an exception is raised
before anything has changed. -/
theorem translate_sound (ht : m.tlb = none) (hp : m.pageTable = some table) (v : Word) (hs : AccessSize size)
    (writing : Bool) : ∃ x, m.translate v size writing = .ok x ∧
      (∀ a m', x = .ok a m' → Translated m table v size writing a m') ∧
      (∀ which, x = .fail which → which ≠ .noException ∧
        (writing = false → m.readMem v size = m.raiseException which v) ∧
        (writing = true → ∀ value, m.writeMem v size value = m.raiseException which v)) ∧
      (x = .fail .addressErrorException ↔ m.OutOfRange v size) ∧
      (x = .fail .pageFaultException ↔
        ¬m.OutOfRange v size ∧ (table (v.toNat / pageSize)).valid = false) := by
  have h := translate_answer ht hp v hs writing
  refine ⟨_, h, ?_, ?_, ?_, ?_⟩
  · intro a m' hx
    rw [hx] at h
    exact translated ht hp hs h
  · intro which hx
    rw [hx] at h
    refine ⟨?_, ?_, ?_⟩
    · rintro rfl
      split_ifs at hx
      all_goals cases hx
    · rintro rfl
      exact readMem_of_fail h
    · rintro rfl value
      exact writeMem_of_fail h
  · split_ifs with ho
    all_goals simp [ho]
  · split_ifs with ho hv
    all_goals simp [*]

def twoFrames (p : Nat) : TranslationEntry := ⟨.ofNat 32 p, if p = 0 then 3 else 4, true, false, false, false⟩

def twoPages : Machine := ⟨.bigEndian, fun _ => 0, fun _ => 0, none, some twoFrames, 2⟩

theorem translate_sound_twoPages : ∃ x, twoPages.translate 0x104 4 true = .ok x ∧
    (x = .fail .addressErrorException ↔ twoPages.OutOfRange 0x104 4) := by
  obtain ⟨x, hx, -, -, ha, -⟩ := translate_sound (m := twoPages) rfl rfl 0x104 (.inr (.inr rfl)) true
  exact ⟨x, hx, ha⟩

structure Later (m n : Machine) : Prop where
  host : n.host = m.host
  mainMemory : n.mainMemory = m.mainMemory
  tlb : n.tlb = m.tlb
  pageTableSize : n.pageTableSize = m.pageTableSize
  mapping : ∃ t u, m.pageTable = some t ∧ n.pageTable = some u ∧ SameMapping t u

theorem frameAddress_sameMapping {t u : Nat → TranslationEntry} (h : SameMapping t u) (a : Nat) :
    frameAddress u a = frameAddress t a := by
  rw [frameAddress, frameAddress, h.physicalPage]

theorem raiseException_ne_value {α : Type} {a : α} (which : ExceptionType) (v : Word) :
    m.raiseException which v ≠ .ok (.value a m') := by
  intro h
  obtain ⟨n, -, h⟩ := bind_eq_ok.mp h
  cases h

theorem translate_of_value (ht : m.tlb = none) (hp : m.pageTable = some table) (v : Word) (hs : AccessSize size)
    (writing : Bool) (hf : ∀ which, m.translate v size writing ≠ .ok (.fail which)) :
    ∃ a m', m.translate v size writing = .ok (.ok a m') ∧ Translated m table v size writing a m' := by
  have h := translate_answer ht hp v hs writing
  revert h
  generalize (if m.OutOfRange v size then _ else _ : Translation) = x
  intro h
  cases x with
  | fail which => exact absurd h (hf which)
  | ok a m' => exact ⟨a, m', h, translated ht hp hs h⟩

theorem writeMem_value {value : Word} (ht : m.tlb = none) (hp : m.pageTable = some table) (hs : AccessSize size)
    (h : m.writeMem v size value = .ok (.value () m')) :
    v.toNat % pageSize + size ≤ pageSize ∧ v.toNat / pageSize < m.pageTableSize.toNat ∧ (table (v.toNat / pageSize)).valid = true ∧
      m' = { m with
        pageTable := some (touch table (v.toNat / pageSize) true)
        mainMemory := stored m.host m.mainMemory (frameAddress table v.toNat) size value } := by
  obtain ⟨a, m₁, he, hx⟩ := translate_of_value ht hp v hs true
    (fun which hf => raiseException_ne_value which v ((writeMem_of_fail hf).symm.trans h))
  rw [writeMem_of_ok hs he, hx.physAddr_eq, hx.effect] at h
  exact ⟨hx.within, hx.inside, hx.valid, (Outcome.value.inj (Except.ok.inj h)).2.symm⟩

theorem readMem_value {r : Word} (ht : m.tlb = none) (hp : m.pageTable = some table) (hs : AccessSize size)
    (h : m.readMem v size = .ok (.value r m')) :
    v.toNat % pageSize + size ≤ pageSize ∧ v.toNat / pageSize < m.pageTableSize.toNat ∧ (table (v.toNat / pageSize)).valid = true ∧
      r = loaded m.host m.mainMemory (frameAddress table v.toNat) size ∧
      m' = { m with pageTable := some (touch table (v.toNat / pageSize) false) } := by
  obtain ⟨a, m₁, he, hx⟩ := translate_of_value ht hp v hs false
    (fun which hf => raiseException_ne_value which v ((readMem_of_fail hf).symm.trans h))
  rw [readMem_of_ok hs he, hx.physAddr_eq, hx.effect] at h
  obtain ⟨hr, hm⟩ := Outcome.value.inj (Except.ok.inj h)
  exact ⟨hx.within, hx.inside, hx.valid, hr.symm, hm.symm⟩

theorem Later.readMem {n n' : Machine} {r : Word} (h : Later m n) (ht : n.tlb = none) (hs : AccessSize size)
    (hr : n.readMem v size = .ok (.value r n')) : Later m n' := by
  obtain ⟨t, u, hm, hn, hmap⟩ := h.mapping
  obtain ⟨-, -, -, -, rfl⟩ := readMem_value ht hn hs hr
  exact ⟨h.host, h.mainMemory, h.tlb, h.pageTableSize, t, _, hm, rfl, hmap.trans (sameMapping_touch u _ false)⟩

theorem frame_overlap {p q i j c n d k : Nat} (hf : p ≠ q → i ≠ j) (he : p = q → i = j) (hc : c + n ≤ pageSize)
    (hd : d + k < pageSize) :
    (i * pageSize + c ≤ j * pageSize + d + k ∧ j * pageSize + d + k < i * pageSize + c + n ↔
      p * pageSize + c ≤ q * pageSize + d + k ∧ q * pageSize + d + k < p * pageSize + c + n) ∧
    (p * pageSize + c ≤ q * pageSize + d + k ∧ q * pageSize + d + k < p * pageSize + c + n →
      j * pageSize + d + k - (i * pageSize + c) = q * pageSize + d + k - (p * pageSize + c)) := by
  by_cases hpq : p = q
  · have hij := he hpq
    subst hpq
    subst hij
    omega
  · have h₁ := page_disjoint (Ne.symm hpq) hc hd
    have h₂ := page_disjoint (Ne.symm (hf hpq)) hc hd
    rw [Nat.add_assoc, Nat.add_assoc (q * pageSize)]
    simp [h₁, h₂]

/-- What is read back after a store, byte by byte: the bytes of the value where the two accesses overlap, and
elsewhere what a read before the store would have found. -/
theorem store_load_law {m m₁ m₂ m₃ : Machine} (ht : m.tlb = none) (hp : m.pageTable = some table)
    (hd : ∀ p < m.pageTableSize.toNat, ∀ q < m.pageTableSize.toNat, (table p).valid = true → (table q).valid = true →
      (table p).physicalPage = (table q).physicalPage → p = q) {a b value r : Word} {s t : Nat} (hs : AccessSize s)
    (hs' : AccessSize t) (hw : m.writeMem a s value = .ok (.value () m₁)) (hl : Later m₁ m₂)
    (hr : m₂.readMem b t = .ok (.value r m₃)) :
    (∃ r₀ m₀, m.readMem b t = .ok (.value r₀ m₀) ∧ ∀ j < t, byteOf r j =
      if a.toNat ≤ b.toNat + j ∧ b.toNat + j < a.toNat + s then byteOf value (b.toNat + j - a.toNat)
      else byteOf r₀ j) ∧ (t = 2 → r.toNat < 2 ^ 16) := by
  obtain ⟨ha, hai, hav, rfl⟩ := writeMem_value ht hp hs hw
  obtain ⟨t₁, u, h₁, hu, hmap⟩ := hl.mapping
  obtain rfl := Option.some.inj h₁
  have hmap := (sameMapping_touch table (a.toNat / pageSize) true).trans hmap
  have htlb : m₂.tlb = none := hl.tlb.trans ht
  obtain ⟨hb, hbi, hbv, rfl, -⟩ := readMem_value htlb hu hs' hr
  rw [hl.pageTableSize] at hbi
  have hbv' : (table (b.toNat / pageSize)).valid = true := (hmap.valid _).symm.trans hbv
  rw [frameAddress_sameMapping hmap, hl.host, hl.mainMemory] at *
  refine ⟨?_, ?_⟩
  · obtain ⟨which, -, -, hf⟩ | ⟨x, hx, -⟩ := translate_matches ht hp htlb hu hl.pageTableSize hmap b hs' false
    · exact absurd ((readMem_of_fail hf).symm.trans hr) (raiseException_ne_value which b)
    · have hx' := (translated ht hp hs' hx).physAddr_eq
      subst hx'
      refine ⟨_, _, readMem_of_ok hs' hx, ?_⟩
      intro j hj
      have hpage : a.toNat / pageSize ≠ b.toNat / pageSize →
          (table (a.toNat / pageSize)).physicalPage.toNat ≠ (table (b.toNat / pageSize)).physicalPage.toNat :=
        fun hne he => hne (hd _ hai _ hbi hav hbv' (BitVec.eq_of_toNat_eq he))
      have ho := frame_overlap hpage (fun he => by rw [he]) ha (by omega : b.toNat % pageSize + j < pageSize)
      rw [Nat.div_add_mod', Nat.div_add_mod'] at ho
      rw [byteOf_loaded hs' hj, byteOf_loaded hs' hj]
      dsimp only
      rw [stored_apply hs]
      simp only [frameAddress, ho.1]
      split_ifs with hin
      · rw [ho.2 hin]
      · rfl
  · rintro rfl
    change (BitVec.setWidth 32 (shortToHost _ _)).toNat < 2 ^ 16
    rw [BitVec.toNat_setWidth]
    exact (Nat.mod_le _ _).trans_lt (BitVec.isLt _)

theorem twoPages_resident {n : Machine} {table : Nat → TranslationEntry} (hn : n.pageTableSize = 2)
    (ht : SameMapping twoFrames table) {v : Word} (hv : v.toNat < 512) : n.Resident table (v.toNat / pageSize) := by
  refine ⟨?_, ht.valid _, congrArg TranslationEntry.readOnly (ht _), ?_⟩
  · rw [hn, pageSize_eq]
    change v.toNat / 256 < 2
    omega
  · rw [ht.physicalPage]
    by_cases h0 : v.toNat / pageSize = 0
    · simp [twoFrames, h0, numPhysPages]
    · simp [twoFrames, h0, numPhysPages]

theorem Later.reads {n : Machine} (h : Later m n) (ht : m.tlb = none) (hp : m.pageTable = some table)
    (hn : m.pageTableSize = 2) (hm : SameMapping twoFrames table) (hv : v.toNat < 512) (hs : AccessSize size)
    (ha : ¬misaligned v size) : ∃ r n', n.readMem v size = .ok (.value r n') ∧ Later m n' := by
  obtain ⟨t, u, hm', hu, hmap⟩ := h.mapping
  obtain rfl := Option.some.inj (hp.symm.trans hm')
  have htlb : n.tlb = none := h.tlb.trans ht
  have hr := readMem_of_ok hs (translate_resident htlb hu hs ha
    (twoPages_resident (h.pageTableSize.trans hn) (hm.trans hmap) hv) false)
  exact ⟨_, _, hr, h.readMem htlb hs hr⟩

theorem store_load_law_twoPages : ∃ m₁ m₂ m₃ r₁ r₂, twoPages.writeMem 0x104 4 0x11223344 = .ok (.value () m₁) ∧
    m₁.readMem 0 1 = .ok (.value r₁ m₂) ∧ m₂.readMem 0x106 2 = .ok (.value r₂ m₃) ∧
    ∀ j < 2, byteOf r₂ j = byteOf 0x11223344 (2 + j) := by
  have hw : AccessSize 4 := .inr (.inr rfl)
  have hh : AccessSize 2 := .inr (.inl rfl)
  have hmap := sameMapping_touch twoFrames ((0x104 : Word).toNat / pageSize) true
  have hres := twoPages_resident (n := twoPages) rfl (.refl _) (v := 0x104) (by decide)
  obtain ⟨m₁, h₁⟩ : ∃ m₁, twoPages.writeMem 0x104 4 0x11223344 = .ok (.value () m₁) :=
    ⟨_, writeMem_of_ok hw (translate_resident rfl rfl hw (by decide) hres true)⟩
  obtain ⟨-, -, -, he⟩ := writeMem_value (m := twoPages) rfl rfl hw h₁
  have hp : m₁.pageTable = some (touch twoFrames ((0x104 : Word).toNat / pageSize) true) := by rw [he]
  have ht : m₁.tlb = none := by rw [he]; rfl
  have hn : m₁.pageTableSize = 2 := by rw [he]; rfl
  have hrefl : Later m₁ m₁ := ⟨rfl, rfl, rfl, rfl, _, _, hp, hp, .refl _⟩
  obtain ⟨r₁, m₂, h₂, hl⟩ := hrefl.reads (v := 0) ht hp hn hmap (by decide) (.inl rfl) (by decide)
  obtain ⟨r₂, m₃, h₃, -⟩ := hl.reads (v := 0x106) ht hp hn hmap (by decide) hh (by decide)
  refine ⟨m₁, m₂, m₃, r₁, r₂, h₁, h₂, h₃, ?_⟩
  have hd : ∀ p < 2, ∀ q < 2, (twoFrames p).physicalPage = (twoFrames q).physicalPage → p = q := by decide
  obtain ⟨⟨r₀, m₀, -, h⟩, -⟩ := store_load_law (m := twoPages) rfl rfl (fun p hp q hq _ _ => hd p hp q hq) hw hh h₁ hl h₃
  intro j hj
  rw [h j hj, if_pos (by change 260 ≤ 262 + j ∧ 262 + j < 260 + 4; omega)]
  exact congrArg (byteOf _) (by change 262 + j - 260 = 2 + j; omega)

end Machine

end Nachos
