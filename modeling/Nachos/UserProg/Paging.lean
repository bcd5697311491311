import Nachos.Machine.Memory
import Nachos.UserProg.Exception

namespace Nachos

open Buffer Machine Reply

namespace Kernel

variable {k : Kernel} {s s' : AddrSpace}

theorem space_eq_ok : k.space = .ok s ↔ ∃ c, k.processes k.current = some ⟨some s, c⟩ := by
  unfold space
  split
  · rename_i s₀ c he
    simp [he]
  · rename_i hn
    constructor
    · intro h
      cases h
    · rintro ⟨c, hc⟩
      exact absurd hc (hn s c)

theorem setSpace_space (h : k.space = .ok s) (s' : AddrSpace) : (k.setSpace s').space = .ok s' := by
  obtain ⟨c, hc⟩ := space_eq_ok.mp h
  exact space_eq_ok.mpr ⟨c, by simp [setSpace, setProcess, hc]⟩

theorem setSpace_self (h : k.space = .ok s) : k.setSpace s = k := by
  obtain ⟨c, hc⟩ := space_eq_ok.mp h
  have hp : (k.processes k.current).map (fun p => { p with space := some s }) = k.processes k.current := by
    rw [hc]
    rfl
  rw [setSpace, hp, setProcess, Function.update_eq_self]

end Kernel

theorem UnixFile.readAt_page (f : UnixFile) (into : Buffer) (start p : Nat) :
    f.readAt into start pageSize ((p : Int) * pageSize) = .ok (min pageSize (f.length - p * pageSize),
      into.copy start (fun o => f.bytes (p * pageSize + o)) (min pageSize (f.length - p * pageSize))) := by
  have hpos : (p : Int) * pageSize = ((p * pageSize : Nat) : Int) := by push_cast; rfl
  rw [hpos, UnixFile.readAt, assert_pos (Int.natCast_nonneg _), ok_bind]
  rfl

def AddrSpace.enter (s : AddrSpace) (p i : Nat) : AddrSpace :=
  let entry := { s.pageTable p with physicalPage := .ofNat 32 i, valid := true }
  { s with pageTable := Function.update s.pageTable p entry }

theorem frame_toNat {i : Nat} (hi : i < numPhysPages) : (BitVec.ofNat 32 i).toNat = i := by
  have h32 : i < 32 := hi
  rw [BitVec.toNat_ofNat]
  omega

theorem AddrSpace.enter_valid (s : AddrSpace) (p i : Nat) : ((s.enter p i).pageTable p).valid = true := by
  simp [enter]

theorem AddrSpace.enter_frame (s : AddrSpace) (p : Nat) {i : Nat} (hi : i < numPhysPages) :
    ((s.enter p i).pageTable p).physicalPage.toNat = i := by
  simp [enter, frame_toNat hi]

theorem AddrSpace.enter_of_ne (s : AddrSpace) (i : Nat) {p q : Nat} (hne : q ≠ p) :
    (s.enter p i).pageTable q = s.pageTable q := by
  simp [enter, hne]

namespace Kernel

variable {k : Kernel} {s : AddrSpace} {f : UnixFile} {addr value : Word} {size p i : Nat}

def pagedIn (k : Kernel) (s : AddrSpace) (f : UnixFile) (p i : Nat) : Kernel :=
  setSpace { k with
    bitMap := { k.bitMap with map := k.bitMap.map.mark i }
    mainMemory := k.mainMemory.copy (i * pageSize) (fun o => f.bytes (p * pageSize + o))
      (min pageSize (f.length - p * pageSize))
    ipt := Function.update k.ipt i (some k.current)
    iptVP := Function.update k.iptVP i p } (s.enter p i)

theorem marked_pagedIn (hi : i < k.bitMap.numBits) : (k.pagedIn s f p i).bitMap.marked = insert i k.bitMap.marked :=
  BitMap.marked_mark hi

theorem setEntry_eq (hp : p < s.numPages.toNat) : setEntry s (p : Int) i = .ok (s.enter p i) :=
  if_pos ⟨Int.natCast_nonneg _, Int.ofNat_lt.mpr hp⟩

theorem pageFault_eq (hs : k.space = .ok s) (hf : k.files s.swapFileName = some f)
    (hd : divRoundDown (k.registers badVAddrReg).toInt pageSize = p) (hp : p < s.numPages.toNat)
    (hi : k.bitMap.find = ((i : Int), { k.bitMap with map := k.bitMap.map.mark i })) :
    k.pageFault = .ok (.returned () (k.pagedIn s f p i)) := by
  have hspace : Kernel.space { k with bitMap := { k.bitMap with map := k.bitMap.map.mark i } } = .ok s := hs
  have hfind : k.bitMap.find = (Int.ofNat i, { k.bitMap with map := k.bitMap.map.mark i }) := hi
  simp only [pageFault, hd, hfind, gotFreePage, hspace, ok_bind, hf, UnixFile.readAt_page, setEntry_eq hp]
  rfl

theorem pageFault_full (hz : k.bitMap.numClear = 0) (ho : k.virtualOption = 0) : k.pageFault = .ok .exited := by
  have hfind : k.bitMap.find = (Int.negSucc 0, k.bitMap) := BitMap.find_of_full hz
  simp only [pageFault, hfind, noFreePage, ho, ↓reduceIte]

theorem pageFault_cases {k' : Kernel} (h : k.pageFault = .ok (.returned () k')) :
    (k.bitMap.numClear = 0 ∧ ∃ fifo random, k' = { k with fifo, random }) ∨
      0 < k.bitMap.numClear ∧ ∃ (s : AddrSpace) (f : UnixFile) (p i : Nat), k.space = .ok s ∧
        k.files s.swapFileName = some f ∧ divRoundDown (k.registers badVAddrReg).toInt pageSize = p ∧
        p < s.numPages.toNat ∧ i < k.bitMap.numBits ∧ i ∉ k.bitMap.marked ∧
        BitMap.firstClear k.bitMap.numBits k.bitMap.marked = i ∧ k' = k.pagedIn s f p i := by
  rcases Nat.eq_zero_or_pos k.bitMap.numClear with hz | hpos
  · left
    have hfind : k.bitMap.find = (Int.negSucc 0, k.bitMap) := BitMap.find_of_full hz
    simp only [pageFault, hfind, noFreePage] at h
    split_ifs at h
    · cases h
    · obtain ⟨_, -, h⟩ := bind_eq_ok.mp h
      cases h
      exact ⟨hz, _, _, rfl⟩
    · obtain ⟨_, -, h⟩ := bind_eq_ok.mp h
      cases h
      exact ⟨hz, _, _, rfl⟩
  · right
    obtain ⟨i, hi, him, hfirst, hfind⟩ := BitMap.find_of_clear hpos
    have hfind' : k.bitMap.find = (Int.ofNat i, { k.bitMap with map := k.bitMap.map.mark i }) := hfind
    have h' := h
    simp only [pageFault, hfind'] at h'
    obtain ⟨s, hs, h'⟩ := bind_eq_ok.mp h'
    split at h'
    · cases h'
    · rename_i f hf
      obtain ⟨x, -, h'⟩ := bind_eq_ok.mp h'
      obtain ⟨s', he, -⟩ := bind_eq_ok.mp h'
      unfold setEntry at he
      split_ifs at he with hp
      obtain ⟨p, hd⟩ := Int.eq_ofNat_of_zero_le hp.1
      have hpn : p < s.numPages.toNat := by
        rw [hd] at hp
        omega
      have hk := (pageFault_eq (k := k) hs hf hd hpn hfind).symm.trans h
      cases hk
      exact ⟨hpos, s, f, p, i, hs, hf, hd, hpn, hi, him, hfirst, rfl⟩

theorem fatal_ne_returned {k k' : Kernel} {a : Unit} : k.fatal ≠ .ok (.returned a k') := by
  intro h
  obtain ⟨_, -, h⟩ := bind_eq_ok.mp h
  split at h
  · cases h
  · obtain ⟨_, -, h⟩ := bind_eq_ok.mp h
    cases h

theorem proceed_fatal_ne_returned {α : Type} {k k' : Kernel} {a : α} {g : Unit → Kernel → Except Fault (Reply α)} :
    proceed k.fatal g ≠ .ok (.returned a k') := by
  intro h
  obtain ⟨r, hr, h⟩ := bind_eq_ok.mp h
  cases r with
  | returned b k₁ => exact fatal_ne_returned hr
  | finished k₁ => cases h
  | exited => cases h
  | running => cases h

section Access

variable {α : Type} {g : Machine → Except Fault (Outcome α)} {which : ExceptionType}

theorem access_raised (hs : k.space = .ok s) (hl : (k.registers loadReg).toNat < numGPRegs)
    (hg : g (k.machine s) = (k.machine s).raiseException which addr) :
    ∃ registers, Raised k.registers addr registers ∧
      k.access g = proceed (trap { k with registers } which) (fun _ k => .ok (.returned none k)) := by
  obtain ⟨registers, hr, he⟩ := raiseException_raised (m := k.machine s) (α := α) hl which addr
  have hres : k.resume s { k.machine s with registers } = { k with registers } :=
    setSpace_self (k := { k with registers }) hs
  refine ⟨registers, hr, ?_⟩
  simp only [access, hs, ok_bind, hg, he, hres]

theorem access_served (hs : k.space = .ok s) (hl : (k.registers loadReg).toNat < numGPRegs)
    (hg : g (k.machine s) = (k.machine s).raiseException .pageFaultException addr)
    (hf : k.files s.swapFileName = some f) (hd : divRoundDown addr.toInt pageSize = p) (hp : p < s.numPages.toNat)
    (hpos : 0 < k.bitMap.numClear) :
    ∃ registers i, Raised k.registers addr registers ∧ i < k.bitMap.numBits ∧ i ∉ k.bitMap.marked ∧
      k.access g = .ok (.returned none (pagedIn { k with registers } s f p i)) := by
  obtain ⟨registers, hr, he⟩ := access_raised hs hl hg
  obtain ⟨i, hib, him, -, hfind⟩ := BitMap.find_of_clear hpos
  have hpage : divRoundDown (registers badVAddrReg).toInt pageSize = p := by rw [hr.badVAddr, hd]
  have hserved := pageFault_eq (k := { k with registers }) hs hf hpage hp hfind
  refine ⟨registers, i, hr, hib, him, ?_⟩
  simp only [he, trap, hserved, proceed_returned]

theorem access_cold (hs : k.space = .ok s) (hl : (k.registers loadReg).toNat < numGPRegs)
    (hg : g (k.machine s) = (k.machine s).raiseException .pageFaultException addr)
    (hf : k.files s.swapFileName = some f) (hd : divRoundDown addr.toInt pageSize = p) (hp : p < s.numPages.toNat)
    (ho : k.virtualOption = 0) :
    k.bitMap.numClear = 0 ∧ k.access g = .ok .exited ∨
      ∃ registers i, Raised k.registers addr registers ∧ i < k.bitMap.numBits ∧ i ∉ k.bitMap.marked ∧
        k.access g = .ok (.returned none (pagedIn { k with registers } s f p i)) := by
  rcases Nat.eq_zero_or_pos k.bitMap.numClear with hz | hpos
  · left
    obtain ⟨registers, hr, he⟩ := access_raised hs hl hg
    have hfull := pageFault_full (k := { k with registers }) hz ho
    exact ⟨hz, by simp only [he, trap, hfull]; rfl⟩
  · exact .inr (access_served hs hl hg hf hd hp hpos)

end Access

theorem readMem_resident (hk : k.space = .ok s) (hs : AccessSize size) (ha : ¬misaligned addr size)
    (hr : (k.machine s).Resident s.pageTable (addr.toNat / pageSize)) :
    k.readMem addr size = .ok (.returned (some (loaded k.host k.mainMemory (frameAddress s.pageTable addr.toNat) size))
      (k.setSpace { s with pageTable := touch s.pageTable (addr.toNat / pageSize) false })) := by
  simp only [readMem, access, hk, ok_bind, readMem_of_ok hs (translate_resident rfl rfl hs ha hr false)]
  rfl

theorem writeMem_resident (hk : k.space = .ok s) (hs : AccessSize size) (ha : ¬misaligned addr size)
    (hr : (k.machine s).Resident s.pageTable (addr.toNat / pageSize)) :
    k.writeMem addr size value = .ok (.returned (some ()) (setSpace
      { k with mainMemory := stored k.host k.mainMemory (frameAddress s.pageTable addr.toNat) size value }
      { s with pageTable := touch s.pageTable (addr.toNat / pageSize) true })) := by
  simp only [writeMem, access, hk, ok_bind, writeMem_of_ok hs (translate_resident rfl rfl hs ha hr true)]
  rfl

end Kernel

/-- The virtual memory `v` of the running process lies in the frames of its valid pages and, for the
other pages, in its swap file `f`. -/
structure Paged (k : Kernel) (s : AddrSpace) (f : UnixFile) (v : Buffer) : Prop where
  space : k.space = .ok s
  swap : k.files s.swapFileName = some f
  length : s.numPages.toNat * pageSize ≤ f.length
  bound : s.numPages.toNat * pageSize ≤ 2 ^ 31
  bits : k.bitMap.numBits = numPhysPages
  loadReg : (k.registers loadReg).toNat < numGPRegs
  readOnly : ∀ p < s.numPages.toNat, (s.pageTable p).readOnly = false
  frame : ∀ p < s.numPages.toNat, (s.pageTable p).valid = true →
    (s.pageTable p).physicalPage.toNat ∈ k.bitMap.marked
  distinct : ∀ p < s.numPages.toNat, ∀ q < s.numPages.toNat, (s.pageTable p).valid = true →
    (s.pageTable q).valid = true → (s.pageTable p).physicalPage = (s.pageTable q).physicalPage → p = q
  resident : ∀ p < s.numPages.toNat, (s.pageTable p).valid = true → ∀ o < pageSize,
    k.mainMemory ((s.pageTable p).physicalPage.toNat * pageSize + o) = v (p * pageSize + o)
  cold : ∀ p < s.numPages.toNat, (s.pageTable p).valid = false → ∀ o < pageSize,
    f.bytes (p * pageSize + o) = v (p * pageSize + o)

def Buffer.record (v : Buffer) (a size : Nat) (value : Word) : Buffer :=
  fun b => if a ≤ b ∧ b < a + size then byteOf value (b - a) else v b

theorem divRoundDown_of_lt {addr : Word} (h : addr.toNat < 2 ^ 31) :
    divRoundDown addr.toInt pageSize = (addr.toNat / pageSize : Nat) := by
  have hi : addr.toInt = addr.toNat := by
    rw [BitVec.toInt_eq_toNat_of_lt]
    omega
  rw [divRoundDown, hi, CInt.tdiv_of_nonneg (by omega)]
  rfl

namespace Paged

variable {k : Kernel} {s : AddrSpace} {f : UnixFile} {v : Buffer} {addr value : Word} {size p i : Nat}

theorem retable (h : Paged k s f v) {t : Nat → TranslationEntry}
    (hv : ∀ p, (t p).valid = (s.pageTable p).valid) (hr : ∀ p, (t p).readOnly = (s.pageTable p).readOnly)
    (hf : ∀ p, (t p).physicalPage = (s.pageTable p).physicalPage) :
    Paged (k.setSpace { s with pageTable := t }) { s with pageTable := t } f v where
  space := Kernel.setSpace_space h.space _
  swap := h.swap
  length := h.length
  bound := h.bound
  bits := h.bits
  loadReg := h.loadReg
  readOnly p hp := (hr p).trans (h.readOnly p hp)
  frame p hp hpv := by
    rw [hf]
    exact h.frame p hp ((hv p).symm.trans hpv)
  distinct p hp q hq hpv hqv he := by
    simp only [hf] at he
    exact h.distinct p hp q hq ((hv p).symm.trans hpv) ((hv q).symm.trans hqv) he
  resident p hp hpv o ho := by
    simp only [hf]
    exact h.resident p hp ((hv p).symm.trans hpv) o ho
  cold p hp hpv := h.cold p hp ((hv p).symm.trans hpv)

theorem touch (h : Paged k s f v) (p : Nat) (w : Bool) :
    Paged (k.setSpace { s with pageTable := touch s.pageTable p w }) { s with pageTable := Machine.touch s.pageTable p w }
      f v := by
  apply h.retable
  all_goals
    intro q
    simp only [Machine.touch, Function.update_apply]
    split_ifs with hq
    · rw [hq]
    · rfl

theorem isResident (h : Paged k s f v) (hp : p < s.numPages.toNat) (hv : (s.pageTable p).valid = true) :
    (k.machine s).Resident s.pageTable p := by
  refine ⟨hp, hv, h.readOnly p hp, ?_⟩
  have hm := (BitMap.mem_marked.mp (h.frame p hp hv)).1
  rwa [h.bits] at hm

theorem write (h : Paged k s f v) (hs : AccessSize size) (ha : ¬misaligned addr size)
    (hp : addr.toNat / pageSize < s.numPages.toNat) (hv : (s.pageTable (addr.toNat / pageSize)).valid = true) :
    Paged { k with mainMemory := stored k.host k.mainMemory (frameAddress s.pageTable addr.toNat) size value } s f
      (v.record addr.toNat size value) where
  space := h.space
  swap := h.swap
  length := h.length
  bound := h.bound
  bits := h.bits
  loadReg := h.loadReg
  readOnly := h.readOnly
  frame := h.frame
  distinct := h.distinct
  resident q hq hqv o ho := by
    have hoff := offset_le hs ha
    have hd := Nat.div_add_mod' addr.toNat pageSize
    simp only [stored_apply hs, Buffer.record, frameAddress]
    by_cases hqp : q = addr.toNat / pageSize
    · subst hqp
      rw [h.resident _ hq hqv o ho]
      by_cases hin : addr.toNat ≤ addr.toNat / pageSize * pageSize + o ∧
          addr.toNat / pageSize * pageSize + o < addr.toNat + size
      · rw [if_pos (by omega), if_pos hin]
        exact congrArg (byteOf value) (by omega)
      · rw [if_neg (by omega), if_neg hin]
    · have hfr : (s.pageTable q).physicalPage.toNat ≠ (s.pageTable (addr.toNat / pageSize)).physicalPage.toNat :=
        fun he => hqp (h.distinct q hq _ hp hqv hv (BitVec.eq_of_toNat_eq he))
      have hpage := page_disjoint hqp hoff ho
      rw [hd] at hpage
      rw [if_neg (page_disjoint hfr hoff ho), if_neg hpage, h.resident q hq hqv o ho]
  cold q hq hqv o ho := by
    have hqp : q ≠ addr.toNat / pageSize := by
      rintro rfl
      simp [hv] at hqv
    have hpage := page_disjoint hqp (offset_le hs ha) ho
    rw [Nat.div_add_mod'] at hpage
    rw [Buffer.record, if_neg hpage, h.cold q hq hqv o ho]

theorem page_eq (h : Paged k s f v) (hp : addr.toNat / pageSize < s.numPages.toNat) :
    divRoundDown addr.toInt pageSize = (addr.toNat / pageSize : Nat) := by
  have hb := h.bound
  apply divRoundDown_of_lt
  rw [pageSize_eq] at hb hp
  omega

theorem page_read (h : Paged k s f v) (hp : p < s.numPages.toNat) :
    min pageSize (f.length - p * pageSize) = pageSize := by
  have hl := h.length
  have hle : (p + 1) * pageSize ≤ s.numPages.toNat * pageSize := Nat.mul_le_mul_right _ hp
  rw [Nat.add_mul, Nat.one_mul] at hle
  omega

theorem enter_cases (h : Paged k s f v) (him : i ∉ k.bitMap.marked) {q : Nat} (hq : q < s.numPages.toNat)
    (hv : ((s.enter p i).pageTable q).valid = true) :
    q = p ∧ ((s.enter p i).pageTable q).physicalPage = .ofNat 32 i ∨
      q ≠ p ∧ (s.pageTable q).valid = true ∧ ((s.enter p i).pageTable q).physicalPage = (s.pageTable q).physicalPage ∧
        (s.pageTable q).physicalPage.toNat ≠ i := by
  by_cases hqp : q = p
  · left
    simp [AddrSpace.enter, hqp]
  · right
    rw [AddrSpace.enter_of_ne s i hqp] at hv ⊢
    refine ⟨hqp, hv, rfl, ?_⟩
    rintro rfl
    exact him (h.frame q hq hv)

theorem pagedIn (h : Paged k s f v) (hp : p < s.numPages.toNat) (hpv : (s.pageTable p).valid = false)
    (hi : i < numPhysPages) (him : i ∉ k.bitMap.marked) : Paged (k.pagedIn s f p i) (s.enter p i) f v := by
  have hbits : i < k.bitMap.numBits := h.bits ▸ hi
  have hin := frame_toNat hi
  have hentry := fun q => h.enter_cases (p := p) him (q := q)
  refine ⟨?_, h.swap, h.length, h.bound, h.bits, h.loadReg, ?_, ?_, ?_, ?_, ?_⟩
  · apply Kernel.setSpace_space (s := s)
    exact h.space
  · intro q hq
    by_cases hqp : q = p
    · simpa [AddrSpace.enter, hqp] using h.readOnly p hp
    · rw [AddrSpace.enter_of_ne s i hqp]
      exact h.readOnly q hq
  · intro q hq hqv
    rw [Kernel.marked_pagedIn hbits, Finset.mem_insert]
    rcases hentry q hq hqv with ⟨-, hf⟩ | ⟨-, hv, hf, -⟩
    · rw [hf, hin]
      exact .inl rfl
    · rw [hf]
      exact .inr (h.frame q hq hv)
  · intro q hq r hr hqv hrv he
    rcases hentry q hq hqv with ⟨hqp, hf⟩ | ⟨hqp, hv, hf, hne⟩
    · rcases hentry r hr hrv with ⟨hrp, -⟩ | ⟨-, -, hf', hne'⟩
      · rw [hqp, hrp]
      · rw [hf, hf'] at he
        exact absurd (he ▸ hin) hne'
    · rcases hentry r hr hrv with ⟨hrp, hf'⟩ | ⟨hrp, hv', hf', -⟩
      · rw [hf, hf'] at he
        exact absurd (he ▸ hin) hne
      · rw [hf, hf'] at he
        exact h.distinct q hq r hr hv hv' he
  · intro q hq hqv o ho
    change k.mainMemory.copy (i * pageSize) (fun o => f.bytes (p * pageSize + o)) _ _ = _
    rw [h.page_read hp]
    rcases hentry q hq hqv with ⟨rfl, hf⟩ | ⟨-, hv, hf, hne⟩
    · rw [hf, hin, copy_inside (by omega) (by omega), Nat.add_sub_cancel_left]
      exact h.cold q hp hpv o ho
    · have hd := page_disjoint (c := 0) (n := pageSize) hne (by omega) ho
      rw [hf, copy_outside (by omega)]
      exact h.resident q hq hv o ho
  · intro q hq hqv
    have hqp : q ≠ p := by
      rintro rfl
      simp [AddrSpace.enter] at hqv
    simp only [AddrSpace.enter, Function.update_of_ne hqp] at hqv
    exact h.cold q hq hqv

theorem withRegisters (h : Paged k s f v) {registers : Register → Word}
    (hl : (registers Nachos.loadReg).toNat < numGPRegs) : Paged { k with registers } s f v :=
  ⟨h.space, h.swap, h.length, h.bound, h.bits, hl, h.readOnly, h.frame, h.distinct, h.resident, h.cold⟩

theorem access_cold (h : Paged k s f v) (ho : k.virtualOption = 0) {α : Type}
    {g : Machine → Except Fault (Outcome α)}
    (hg : g (k.machine s) = (k.machine s).raiseException .pageFaultException addr)
    (hp : addr.toNat / pageSize < s.numPages.toNat) (hv : (s.pageTable (addr.toNat / pageSize)).valid = false) :
    k.bitMap.numClear = 0 ∧ k.access g = .ok .exited ∨
      ∃ registers i, Raised k.registers addr registers ∧ i ∉ k.bitMap.marked ∧
        k.access g = .ok (.returned none (Kernel.pagedIn { k with registers } s f (addr.toNat / pageSize) i)) ∧
        Paged (Kernel.pagedIn { k with registers } s f (addr.toNat / pageSize) i)
          (s.enter (addr.toNat / pageSize) i) f v := by
  rcases Kernel.access_cold h.space h.loadReg hg h.swap (h.page_eq hp) hp ho with hx | ⟨registers, i, hr, hi, him, hx⟩
  · exact .inl hx
  · exact .inr ⟨registers, i, hr, him, hx,
      (h.withRegisters (by simp [hr.loadReg])).pagedIn hp hv (h.bits ▸ hi) him⟩

theorem translate (h : Paged k s f v) (hs : AccessSize size) (addr : Word) (writing : Bool) :
    ((misaligned addr size ∨ s.numPages.toNat ≤ addr.toNat / pageSize) ∧
      (k.machine s).translate addr size writing = .ok (.fail .addressErrorException)) ∨
    (¬misaligned addr size ∧ addr.toNat / pageSize < s.numPages.toNat ∧
      (s.pageTable (addr.toNat / pageSize)).valid = false ∧
      (k.machine s).translate addr size writing = .ok (.fail .pageFaultException)) ∨
    (¬misaligned addr size ∧ addr.toNat / pageSize < s.numPages.toNat ∧
      (s.pageTable (addr.toNat / pageSize)).valid = true ∧
      (k.machine s).translate addr size writing = .ok (.ok (frameAddress s.pageTable addr.toNat)
        { k.machine s with pageTable := some (Machine.touch s.pageTable (addr.toNat / pageSize) writing) })) := by
  by_cases ha : misaligned addr size
  · exact .inl ⟨.inl ha, if_pos ha⟩
  by_cases hp : addr.toNat / pageSize < s.numPages.toNat
  · right
    cases hv : (s.pageTable (addr.toNat / pageSize)).valid with
    | false => exact .inl ⟨ha, hp, rfl, translate_cold rfl rfl ha hp hv writing⟩
    | true =>
      exact .inr ⟨ha, hp, rfl,
        translate_resident rfl rfl hs ha (h.isResident hp hv) writing⟩
  · exact .inl ⟨.inr (by omega), translate_outside rfl rfl (Nat.le_of_not_lt hp) writing⟩

theorem loaded_resident (h : Paged k s f v) (hs : AccessSize size) (ha : ¬misaligned addr size)
    (hp : addr.toNat / pageSize < s.numPages.toNat) (hv : (s.pageTable (addr.toNat / pageSize)).valid = true)
    {j : Nat} (hj : j < size) :
    byteOf (loaded k.host k.mainMemory (frameAddress s.pageTable addr.toNat) size) j = v (addr.toNat + j) := by
  have hoff := offset_le hs ha
  have hr := h.resident _ hp hv (addr.toNat % pageSize + j) (by omega)
  rw [byteOf_loaded hs hj, frameAddress, Nat.add_assoc, hr, ← Nat.add_assoc, Nat.div_add_mod']

variable {k' : Kernel}

theorem readMem_returned {r : Option Word} (h : Paged k s f v) (ho : k.virtualOption = 0) (hs : AccessSize size)
    (he : k.readMem addr size = .ok (.returned r k')) :
    k'.virtualOption = 0 ∧ (∃ s', Paged k' s' f v) ∧
      ∀ x, r = some x → ∀ j < size, byteOf x j = v (addr.toNat + j) := by
  rcases h.translate hs addr false with ⟨-, ht⟩ | ⟨-, hp, hv, ht⟩ | ⟨ha, hp, hv, -⟩
  · obtain ⟨registers, -, hf⟩ := Kernel.access_raised (g := fun m => m.readMem addr size) h.space h.loadReg (readMem_of_fail ht)
    exact absurd (hf.symm.trans he) Kernel.proceed_fatal_ne_returned
  · rcases h.access_cold (g := fun m => m.readMem addr size) ho (readMem_of_fail ht) hp hv with ⟨-, hx⟩ | ⟨registers, i, -, -, hx, hpg⟩
    · cases hx.symm.trans he
    · cases hx.symm.trans he
      refine ⟨ho, ⟨_, hpg⟩, ?_⟩
      rintro x ⟨⟩
  · cases (Kernel.readMem_resident h.space hs ha (h.isResident hp hv)).symm.trans he
    refine ⟨ho, ⟨_, h.touch _ false⟩, ?_⟩
    rintro x ⟨⟩ j hj
    exact h.loaded_resident hs ha hp hv hj

theorem writeMem_returned {r : Option Unit} (h : Paged k s f v) (ho : k.virtualOption = 0) (hs : AccessSize size)
    (he : k.writeMem addr size value = .ok (.returned r k')) :
    k'.virtualOption = 0 ∧ ∃ s', Paged k' s' f (if r = none then v else v.record addr.toNat size value) := by
  rcases h.translate hs addr true with ⟨-, ht⟩ | ⟨-, hp, hv, ht⟩ | ⟨ha, hp, hv, -⟩
  · obtain ⟨registers, -, hf⟩ := Kernel.access_raised (g := fun m => m.writeMem addr size value) h.space h.loadReg (writeMem_of_fail ht)
    exact absurd (hf.symm.trans he) Kernel.proceed_fatal_ne_returned
  · rcases h.access_cold (g := fun m => m.writeMem addr size value) ho (writeMem_of_fail ht) hp hv with ⟨-, hx⟩ | ⟨registers, i, -, -, hx, hpg⟩
    · cases hx.symm.trans he
    · cases hx.symm.trans he
      exact ⟨ho, _, hpg⟩
  · cases (Kernel.writeMem_resident h.space hs ha (h.isResident hp hv)).symm.trans he
    exact ⟨ho, _, (h.write hs ha hp hv).touch _ true⟩

end Paged

end Nachos
