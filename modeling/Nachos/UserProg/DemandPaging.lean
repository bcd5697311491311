import Nachos.Lib.Run
import Nachos.UserProg.Paging

namespace Nachos

open Buffer Machine

namespace NoffHeader

def ofFile (host : Host) (f : UnixFile) : NoffHeader := (load host f.bytes).toHost host

theorem load_congr (host : Host) {b c : Buffer} (h : ∀ k < noffHeaderSize, b k = c k) : load host b = load host c := by
  have hw (i : Nat) (hi : i < 10) : host.loadWord b (4 * i) = host.loadWord c (4 * i) :=
    host.loadWord_congr fun j hj => h _ (by simp only [noffHeaderSize]; omega)
  simp only [load, hw 0 (by omega), hw 1 (by omega), hw (1 + 1) (by omega), hw (1 + 2) (by omega), hw 4 (by omega),
    hw (4 + 1) (by omega), hw (4 + 2) (by omega), hw 7 (by omega), hw (7 + 1) (by omega), hw (7 + 2) (by omega)]

end NoffHeader

namespace AddrSpace

theorem readHeader_ofFile (host : Host) (garbage : Garbage) {f : UnixFile} (hf : noffHeaderSize ≤ f.length) :
    readHeader host garbage f = .ok (.ofFile host f) := by
  have hread : f.readAt garbage.header 0 noffHeaderSize 0 =
      .ok (noffHeaderSize, garbage.header.copy 0 (fun k => f.bytes (0 + k)) noffHeaderSize) := by
    have hn : min noffHeaderSize (f.length - (0 : Int).toNat) = noffHeaderSize := min_eq_left hf
    rw [UnixFile.readAt, assert_pos (le_refl 0), ok_bind, hn]
    rfl
  rw [readHeader, hread, ok_bind, NoffHeader.ofFile]
  refine congrArg (fun h => Except.ok (NoffHeader.toHost host h)) (NoffHeader.load_congr host fun k hk => ?_)
  rw [copy_inside (by omega) (by omega), Nat.sub_zero, Nat.zero_add]

theorem pagesFor_toNat (w : Word) : (pagesFor w).toNat = (w.toNat + 255) / 256 := by
  have hw := w.isLt
  have hp : BitVec.ofNat 32 pageSize = 256#32 := by rw [pageSize_eq]
  have hz : w % 256#32 = 0 ↔ w.toNat % 256 = 0 := by
    rw [← BitVec.toNat_inj, BitVec.toNat_umod]
    rfl
  rw [pagesFor, hp, BitVec.toNat_add, BitVec.toNat_udiv]
  simp only [hz]
  split_ifs <;> simp <;> omega

theorem size_toNat {w : Word} (h : w.toNat ≤ 2 ^ 32 - 256) :
    (pagesFor w * .ofNat 32 pageSize).toNat = (pagesFor w).toNat * pageSize := by
  have hw := pagesFor_toNat w
  rw [pageSize_eq, BitVec.toNat_mul, BitVec.toNat_ofNat]
  omega

theorem size_wraps {w : Word} (h : 2 ^ 32 - 256 < w.toNat) :
    (pagesFor w).toNat = 2 ^ 24 ∧ (pagesFor w * .ofNat 32 pageSize).toNat = 0 := by
  have hw := pagesFor_toNat w
  have hlt := w.isLt
  rw [pageSize_eq, BitVec.toNat_mul, BitVec.toNat_ofNat]
  omega

theorem size_fits {w : Word} (h : w.toNat ≤ 2 ^ 31 - 256 ∨ 2 ^ 32 - 256 < w.toNat) :
    0 ≤ (pagesFor w * .ofNat 32 pageSize).toInt := by
  have hw := pagesFor_toNat w
  rw [BitVec.toInt_eq_toNat_cond]
  rcases h with h | h
  · have hs := size_toNat (w := w) (by omega)
    rw [pageSize_eq] at hs ⊢
    rw [if_pos (by omega)]
    omega
  · rw [(size_wraps h).2]
    decide

variable {host : Host} {garbage : Garbage} {files files' : Files} {name swap : Name} {threadID : Nat}
  {executable : UnixFile} {s : AddrSpace} {noffH : NoffHeader} {size : Word}

structure Built (garbage : Garbage) (files : Files) (size : Word) (s : AddrSpace) : Prop where
  numPages : s.numPages = pagesFor size
  pageTable : s.pageTable = emptyTable garbage.entries s.numPages.toNat
  fits : 0 ≤ (s.numPages * .ofNat 32 pageSize).toInt
  swap : ∃ f, files s.swapFileName = some f ∧ f.length = (s.numPages * .ofNat 32 pageSize).toNat

theorem makeSwap_ok (h : makeSwap garbage files name swap size = .ok files') :
    0 ≤ size.toInt ∧ ∃ f, files' swap = some f ∧ f.length = size.toNat := by
  obtain ⟨block, hb, h⟩ := bind_eq_ok.mp h
  split at h
  · obtain ⟨⟨n, buffer⟩, -, h⟩ := bind_eq_ok.mp h
    obtain ⟨swapFile, hw, h⟩ := bind_eq_ok.mp h
    cases h
    refine ⟨(Block.new_eq_ok hb).1, swapFile, Function.update_self .., ?_⟩
    rw [UnixFile.writeAt, assert_pos (le_refl 0), ok_bind] at hw
    split_ifs at hw with hz
    · cases hw
      exact hz.symm
    · cases hw
      simp [UnixFile.empty]
  · cases h

theorem new_built (he : files name = some executable) (hh : readHeader host garbage executable = .ok noffH)
    (h : new host garbage files name threadID = .ok (some s, files')) : Built garbage files' noffH.size s := by
  simp only [new, he, hh, ok_bind] at h
  split_ifs at h with hm
  · simp at h
  · obtain ⟨files₁, hs, h⟩ := bind_eq_ok.mp h
    obtain ⟨hfit, hswap⟩ := makeSwap_ok hs
    simp only [Except.ok.injEq, Prod.mk.injEq, Option.some.injEq] at h
    rw [← h.1, ← h.2]
    exact ⟨rfl, by simp only, hfit, hswap⟩

theorem makeSwap_completes (garbage : Garbage) (swap : Name) (he : files name = some executable)
    (hs : 0 ≤ size.toInt) :
    ∃ files', makeSwap garbage files name swap size = .ok files' := by
  have hf : ∃ f, Function.update files swap (some UnixFile.empty) name = some f := by
    by_cases hn : name = swap
    · exact ⟨_, by rw [hn, Function.update_self]⟩
    · exact ⟨_, by rw [Function.update_of_ne hn, he]⟩
  obtain ⟨f, hf⟩ := hf
  simp only [makeSwap, Block.new_of_nonneg hs, ok_bind, hf, UnixFile.readAt, UnixFile.writeAt,
    assert_pos (Int.natCast_nonneg _), assert_pos (le_refl (0 : Int))]
  split_ifs
  · exact ⟨_, rfl⟩
  · exact ⟨_, rfl⟩

theorem new_completes (threadID : Nat) (he : files name = some executable) (hh : readHeader host garbage executable = .ok noffH)
    (hm : noffH.noffMagic = noffMagic) (hs : 0 ≤ (pagesFor noffH.size * .ofNat 32 pageSize).toInt) :
    ∃ s files', new host garbage files name threadID = .ok (some s, files') := by
  obtain ⟨files', hf⟩ := makeSwap_completes garbage (swapName threadID) he hs
  simp only [new, he, hh, ok_bind, hm, ne_eq, not_true_eq_false, ↓reduceIte, hf]
  exact ⟨_, _, rfl⟩

theorem initRegisters_loadReg (s : AddrSpace) : s.initRegisters loadReg = 0 := by
  rw [initRegisters, Function.update_of_ne (by decide), Function.update_of_ne (by decide)]

end AddrSpace

namespace Kernel

variable {k k₀ : Kernel} {filename : Name} {executable : UnixFile} {noffH : NoffHeader}

structure Booted (k : Kernel) : Prop where
  mainMemory : ∀ a, k.mainMemory a = 0
  bitMap : ∃ words, k.bitMap = .new numPhysPages words
  virtualOption : k.virtualOption = 0

theorem startProcess_eq (h : k.startProcess filename = .ok (some k₀)) :
    ∃ s files, AddrSpace.new k.host k.garbage k.files filename 0 = .ok (some s, files) ∧ k₀ = k.load s files := by
  unfold startProcess at h
  split at h
  · cases h
  · obtain ⟨⟨space, files⟩, hn, h₁⟩ := bind_eq_ok.mp h
    cases space with
    | none => cases h₁
    | some s =>
      simp only [Except.ok.injEq, Option.some.injEq] at h₁
      exact ⟨s, files, hn, h₁.symm⟩

theorem load_space (s : AddrSpace) (files : Files) : (k.load s files).space = .ok s :=
  space_eq_ok.mpr ⟨false, Function.update_self ..⟩

theorem startProcess_completes (he : k.files filename = some executable)
    (hh : AddrSpace.readHeader k.host k.garbage executable = .ok noffH) (hm : noffH.noffMagic = noffMagic)
    (hs : 0 ≤ (AddrSpace.pagesFor noffH.size * .ofNat 32 pageSize).toInt) :
    ∃ k₀, k.startProcess filename = .ok (some k₀) := by
  obtain ⟨s, files', hn⟩ := AddrSpace.new_completes 0 he hh hm hs
  simp only [startProcess, he, hn, ok_bind]
  exact ⟨_, rfl⟩

theorem Booted.paged {s : AddrSpace} {files : Files} {size : Word} (hb : k.Booted)
    (h : AddrSpace.Built k.garbage files size s) (hw : size.toNat ≤ 2 ^ 32 - 256) :
    ∃ f, files s.swapFileName = some f ∧ Paged (k.load s files) s f f.bytes := by
  obtain ⟨f, hf, hlen⟩ := h.swap
  obtain ⟨words, hbits⟩ := hb.bitMap
  have hsize : (s.numPages * .ofNat 32 pageSize).toNat = s.numPages.toNat * pageSize := by
    rw [h.numPages]
    exact AddrSpace.size_toNat hw
  have hinv : ∀ p < s.numPages.toNat, (s.pageTable p).valid = false := by
    intro p hp
    simp only [h.pageTable, AddrSpace.emptyTable, if_pos hp]
  have hcold : ∀ p < s.numPages.toNat, ¬(s.pageTable p).valid = true := by
    intro p hp
    simp [hinv p hp]
  refine ⟨f, hf, load_space s files, hf, ?_, ?_, ?_, ?_, ?_, ?_, ?_, ?_, ?_⟩
  · rw [hlen, hsize]
  · have hfit := h.fits
    rw [← hsize]
    rw [BitVec.toInt_eq_toNat_cond] at hfit
    split_ifs at hfit <;> omega
  · exact (congrArg BitMap.numBits hbits).trans (BitMap.new_numBits ..)
  · change (s.initRegisters loadReg).toNat < numGPRegs
    rw [AddrSpace.initRegisters_loadReg]
    decide
  · intro p hp
    simp only [h.pageTable, AddrSpace.emptyTable, if_pos hp]
  · exact fun p hp hv => absurd hv (hcold p hp)
  · exact fun p hp q hq hv => absurd hv (hcold p hp)
  · exact fun p hp hv => absurd hv (hcold p hp)
  · exact fun _ _ _ _ _ => rfl

end Kernel

inductive Access where
  | read (addr : Word) (size : Nat)
  | write (addr : Word) (size : Nat) (value : Word)
  | compute (registers : Register → Word)

structure Run where
  kernel : Kernel
  last : Nat → Option Byte

namespace Run

def remember (last : Nat → Option Byte) (a size : Nat) (value : Word) : Nat → Option Byte :=
  fun b => if a ≤ b ∧ b < a + size then some (byteOf value (b - a)) else last b

def Step (x : Run) (op : Access) (y : Run) : Prop :=
  match op with
  | .read addr size =>
    AccessSize size ∧ ∃ r, x.kernel.readMem addr size = .ok (.returned r y.kernel) ∧ y.last = x.last
  | .write addr size value =>
    AccessSize size ∧ ∃ r, x.kernel.writeMem addr size value = .ok (.returned r y.kernel) ∧
      y.last = if r = none then x.last else remember x.last addr.toNat size value
  | .compute registers =>
    (registers loadReg).toNat < numGPRegs ∧ y.kernel = { x.kernel with registers } ∧ y.last = x.last

def flat (f : UnixFile) (last : Nat → Option Byte) : Buffer := fun a => (last a).getD (f.bytes a)

/-- Every `ReadMem` that succeeds in a run from `k` reads the flat memory. -/
def FlatMemory (k : Kernel) (f : UnixFile) : Prop :=
  ∀ x, Reachable (· = ⟨k, fun _ => none⟩) Step x → ∀ addr size v k', AccessSize size →
    x.kernel.readMem addr size = .ok (.returned (some v) k') → ∀ j < size,
      byteOf v j = flat f x.last (addr.toNat + j)

theorem flat_remember (f : UnixFile) (last : Nat → Option Byte) (a size : Nat) (value : Word) :
    flat f (remember last a size value) = (flat f last).record a size value := by
  funext b
  simp only [flat, remember, Buffer.record]
  split_ifs <;> rfl

def Inv (f : UnixFile) (x : Run) : Prop :=
  x.kernel.virtualOption = 0 ∧ ∃ s, Paged x.kernel s f (flat f x.last)

variable {f : UnixFile} {x y : Run}

theorem Inv.step {op : Access} (h : Inv f x) (hs : x.Step op y) : Inv f y := by
  obtain ⟨ho, s, hp⟩ := h
  cases op with
  | read addr size =>
    obtain ⟨hsize, r, he, hl⟩ := hs
    obtain ⟨ho', hp', -⟩ := hp.readMem_returned ho hsize he
    rw [Inv, hl]
    exact ⟨ho', hp'⟩
  | write addr size value =>
    obtain ⟨hsize, r, he, hl⟩ := hs
    obtain ⟨ho', s', hp'⟩ := hp.writeMem_returned ho hsize he
    refine ⟨ho', s', ?_⟩
    rw [hl]
    split_ifs at hp' ⊢ with hr
    · exact hp'
    · rwa [flat_remember]
  | compute registers =>
    obtain ⟨hload, hk, hl⟩ := hs
    rw [Inv, hk, hl]
    exact ⟨ho, s, hp.withRegisters hload⟩

theorem flatMemory_of_paged {k : Kernel} {s : AddrSpace} (hp : Paged k s f f.bytes) (ho : k.virtualOption = 0) :
    FlatMemory k f := by
  intro x hx addr size v k' hsize he
  have hinv : Inv f x := by
    refine hx.invariant ?_ (fun _ _ _ h hs => h.step hs)
    rintro _ rfl
    exact ⟨ho, s, hp⟩
  obtain ⟨ho', s', hp'⟩ := hinv
  exact (hp'.readMem_returned ho' hsize he).2.2 v rfl

end Run

structure Wrapped (k : Kernel) (s : AddrSpace) (f : UnixFile) : Prop where
  space : k.space = .ok s
  swap : k.files s.swapFileName = some f
  length : f.length = 0
  numPages : s.numPages.toNat = 2 ^ 24
  bits : k.bitMap.numBits = numPhysPages
  loadReg : (k.registers loadReg).toNat < numGPRegs
  virtualOption : k.virtualOption = 0
  readOnly : (s.pageTable 0).readOnly = false
  cold : (s.pageTable (2 ^ 24 - 1)).valid = false

namespace Wrapped

variable {k : Kernel} {s : AddrSpace} {f : UnixFile} {addr : Word} {i : Nat}

theorem page_zero : (0 : Word).toNat / pageSize = 0 := by simp

theorem page_last : (0xffffffff : Word).toNat / pageSize = 2 ^ 24 - 1 := by
  rw [pageSize_eq]
  decide

theorem aligned (v : Word) : ¬misaligned v 1 := by simp [misaligned]

theorem fault (h : Wrapped k s f) (hc : k.bitMap.marked.card < numPhysPages)
    (hd : divRoundDown addr.toInt pageSize = (0 : Nat)) {α : Type} {g : Machine → Except Fault (Outcome α)}
    (hg : g (k.machine s) = (k.machine s).raiseException .pageFaultException addr) :
    ∃ k' i, k.access g = .ok (.returned none k') ∧ i < numPhysPages ∧ i ∉ k.bitMap.marked ∧
      Wrapped k' (s.enter 0 i) f ∧ k'.mainMemory = k.mainMemory ∧ k'.bitMap.marked = insert i k.bitMap.marked := by
  have hn := h.numPages
  have hcount := k.bitMap.numClear_add_card
  rw [h.bits] at hcount
  rcases Kernel.access_cold h.space h.loadReg hg h.swap hd (by omega) h.virtualOption with
    ⟨hz, -⟩ | ⟨registers, i, hr, hi, him, he⟩
  · omega
  · refine ⟨_, i, he, h.bits ▸ hi, him, ⟨?_, h.swap, h.length, h.numPages, h.bits, ?_, h.virtualOption, ?_, ?_⟩, ?_,
      BitMap.marked_mark hi⟩
    · apply Kernel.setSpace_space (s := s)
      exact h.space
    · change (registers Nachos.loadReg).toNat < numGPRegs
      simp [hr.loadReg]
    · simpa [AddrSpace.enter] using h.readOnly
    · simpa [AddrSpace.enter] using h.cold
    · funext a
      change k.mainMemory.copy (i * pageSize) (fun o => f.bytes (0 * pageSize + o)) (min pageSize _) a = _
      rw [h.length, copy_outside (by omega)]

theorem fault_zero (h : Wrapped k s f) (hc : k.bitMap.marked.card < numPhysPages) (hv : (s.pageTable 0).valid = false)
    (value : Word) :
    ∃ k' i, k.writeMem 0 1 value = .ok (.returned none k') ∧ i < numPhysPages ∧ i ∉ k.bitMap.marked ∧
      Wrapped k' (s.enter 0 i) f ∧ k'.mainMemory = k.mainMemory ∧ k'.bitMap.marked = insert i k.bitMap.marked := by
  have hn := h.numPages
  have hd : divRoundDown (0 : Word).toInt pageSize = (0 : Nat) := by rw [pageSize_eq]; decide
  apply h.fault hc hd
  apply writeMem_of_fail
  apply translate_cold rfl rfl (aligned 0)
  · rw [page_zero]
    change 0 < s.numPages.toNat
    omega
  · rwa [page_zero]

theorem fault_last (h : Wrapped k s f) (hc : k.bitMap.marked.card < numPhysPages) :
    ∃ k' i, k.readMem 0xffffffff 1 = .ok (.returned none k') ∧ i < numPhysPages ∧ i ∉ k.bitMap.marked ∧
      Wrapped k' (s.enter 0 i) f ∧ k'.mainMemory = k.mainMemory ∧ k'.bitMap.marked = insert i k.bitMap.marked := by
  have hn := h.numPages
  have hd : divRoundDown (0xffffffff : Word).toInt pageSize = (0 : Nat) := by rw [pageSize_eq]; decide
  apply h.fault hc hd
  apply readMem_of_fail
  apply translate_cold rfl rfl (aligned _)
  · rw [page_last]
    change 2 ^ 24 - 1 < s.numPages.toNat
    omega
  · rw [page_last]
    exact h.cold

theorem resident (h : Wrapped k (s.enter 0 i) f) (hi : i < numPhysPages) :
    (k.machine (s.enter 0 i)).Resident (s.enter 0 i).pageTable ((0 : Word).toNat / pageSize) := by
  have hn := h.numPages
  rw [page_zero]
  refine ⟨?_, by simp [AddrSpace.enter], h.readOnly, ?_⟩
  · change 0 < (s.enter 0 i).numPages.toNat
    omega
  · rw [AddrSpace.enter_frame s 0 hi]
    exact hi

theorem frameAddress_zero (s : AddrSpace) (hi : i < numPhysPages) :
    frameAddress (s.enter 0 i).pageTable (0 : Word).toNat = i * pageSize := by
  rw [frameAddress, page_zero, AddrSpace.enter_frame s 0 hi]
  simp

theorem read_zero (h : Wrapped k (s.enter 0 i) f) (hi : i < numPhysPages) :
    ∃ v k', k.readMem 0 1 = .ok (.returned (some v) k') ∧ byteOf v 0 = k.mainMemory (i * pageSize) := by
  refine ⟨_, _, Kernel.readMem_resident h.space (.inl rfl) (aligned 0) (h.resident hi), ?_⟩
  rw [frameAddress_zero s hi, byteOf_loaded (.inl rfl) (by omega), Nat.add_zero]

theorem write_zero (h : Wrapped k (s.enter 0 i) f) (hi : i < numPhysPages) (value : Word) :
    ∃ k' s', k.writeMem 0 1 value = .ok (.returned (some ()) k') ∧ Wrapped k' s' f ∧
      k'.bitMap.marked = k.bitMap.marked ∧ ∀ a, a ≠ i * pageSize → k'.mainMemory a = k.mainMemory a := by
  refine ⟨_, _, Kernel.writeMem_resident h.space (.inl rfl) (aligned 0) (h.resident hi),
    ⟨Kernel.setSpace_space (s := s.enter 0 i) h.space _, h.swap, h.length, h.numPages, h.bits, h.loadReg,
      h.virtualOption, ?_, ?_⟩, rfl, ?_⟩
  · simpa [touch] using h.readOnly
  · simpa [touch] using h.cold
  · intro a ha
    change stored k.host k.mainMemory _ 1 value a = _
    rw [frameAddress_zero s hi, stored_apply (.inl rfl), if_neg (by omega)]

theorem not_flatMemory (h : Wrapped k s f) (hm : ∀ a, k.mainMemory a = 0) (hb : k.bitMap.marked = ∅)
    (hv : (s.pageTable 0).valid = false) : ¬Run.FlatMemory k f := by
  have hsize : AccessSize 1 := .inl rfl
  obtain ⟨k₁, i, he₁, hi, -, h₁, hm₁, hb₁⟩ := h.fault_zero (by simp [hb, numPhysPages]) hv 5
  obtain ⟨k₂, s₂, he₂, h₂, hb₂, hm₂⟩ := h₁.write_zero hi 5
  obtain ⟨k₃, i', he₃, hi', hne, h₃, hm₃, -⟩ := h₂.fault_last (by simp [hb₂, hb₁, hb, numPhysPages])
  obtain ⟨v, k₄, he₄, hval⟩ := h₃.read_zero hi'
  let written := Run.remember (fun _ => none) 0 1 5
  have st₁ : Run.Step ⟨k, fun _ => none⟩ (.write 0 1 5) ⟨k₁, fun _ => none⟩ := ⟨hsize, none, he₁, by simp⟩
  have st₂ : Run.Step ⟨k₁, fun _ => none⟩ (.write 0 1 5) ⟨k₂, written⟩ := ⟨hsize, some (), he₂, by simp [written]⟩
  have st₃ : Run.Step ⟨k₂, written⟩ (.read 0xffffffff 1) ⟨k₃, written⟩ := ⟨hsize, none, he₃, rfl⟩
  intro hflat
  have hbyte := hflat _ (.next _ (.next _ (.next _ (.start rfl) st₁) st₂) st₃) 0 1 v k₄ hsize he₄ 0 (by omega)
  have hframe : i' * pageSize ≠ i * pageSize := by
    intro hc
    rw [hb₂, hb₁, hb] at hne
    have hii : i' = i := Nat.eq_of_mul_eq_mul_right (by rw [pageSize_eq]; omega) hc
    simp [hii] at hne
  rw [hval, hm₃, hm₂ _ hframe, hm₁, hm] at hbyte
  have hstored : Run.flat f written ((0 : Word).toNat + 0) = 5 := by
    simp only [Run.flat, written, Run.remember]
    rw [if_pos (by decide)]
    rfl
  rw [hstored] at hbyte
  exact absurd hbyte (by decide)

end Wrapped

namespace Kernel

open AddrSpace

variable {k k₀ : Kernel} {filename : Name} {executable : UnixFile} {noffH : NoffHeader}

theorem Booted.wrapped {s : AddrSpace} {files : Files} {size : Word} (hb : k.Booted)
    (h : Built k.garbage files size s) (hw : 2 ^ 32 - 256 < size.toNat) :
    ∃ f, files s.swapFileName = some f ∧ ¬Run.FlatMemory (k.load s files) f := by
  obtain ⟨f, hf, hlen⟩ := h.swap
  obtain ⟨words, hbits⟩ := hb.bitMap
  obtain ⟨hpages, hzero⟩ := size_wraps hw
  rw [← h.numPages] at hpages hzero
  have hwr : Wrapped (k.load s files) s f := by
    refine ⟨load_space s files, hf, by rw [hlen, hzero], hpages, ?_, ?_, hb.virtualOption, ?_, ?_⟩
    · exact (congrArg BitMap.numBits hbits).trans (BitMap.new_numBits ..)
    · change (s.initRegisters loadReg).toNat < numGPRegs
      rw [initRegisters_loadReg]
      decide
    · simp [h.pageTable, emptyTable, hpages]
    · simp [h.pageTable, emptyTable, hpages]
  refine ⟨f, hf, hwr.not_flatMemory hb.mainMemory ?_ ?_⟩
  · change k.bitMap.marked = ∅
    rw [hbits, BitMap.marked_new]
  · simp [h.pageTable, emptyTable, hpages]

/-- A program started under demand paging runs on flat private memory, except when the 32-bit sum of
its segment sizes is so large that the number of bytes wraps to zero. -/
theorem startProcess_flatMemory (hb : k.Booted) (he : k.files filename = some executable)
    (hh : readHeader k.host k.garbage executable = .ok noffH) (h : k.startProcess filename = .ok (some k₀)) :
    ∃ s f, k₀.space = .ok s ∧ k₀.files s.swapFileName = some f ∧
      (Run.FlatMemory k₀ f ↔ noffH.size.toNat ≤ 2 ^ 32 - 256) := by
  obtain ⟨s, files, hn, rfl⟩ := startProcess_eq h
  have hbuilt := new_built he hh hn
  by_cases hw : noffH.size.toNat ≤ 2 ^ 32 - 256
  · obtain ⟨f, hf, hp⟩ := hb.paged hbuilt hw
    exact ⟨s, f, load_space s files, hf, iff_of_true (Run.flatMemory_of_paged hp hb.virtualOption) hw⟩
  · obtain ⟨f, hf, hflat⟩ := hb.wrapped hbuilt (by omega)
    exact ⟨s, f, load_space s files, hf, iff_of_false hflat hw⟩

def headerOnly (codeSize : Word) : UnixFile :=
  ⟨noffHeaderSize, ofWords (fun i => if i = 0 then noffMagic else if i = 3 then codeSize else 0)⟩

def boot (codeSize : Word) : Kernel where
  host := .littleEndian
  registers _ := 0
  mainMemory _ := 0
  bitMap := .new numPhysPages (fun _ => 0)
  ipt _ := none
  iptVP _ := 0
  virtualOption := 0
  fifo := []
  random := []
  files name := if name = [112] then some (headerOnly codeSize) else none
  garbage := ⟨fun _ => 0, fun _ => 0, fun _ => ⟨0, 0, false, false, false, false⟩⟩
  processes _ := none
  current := 0
  threadID := 1
  activeThreads := []
  ready := []
  input _ := []
  output _ := []
  opened _ := false
  pooled := true

theorem boot_files (codeSize : Word) : (boot codeSize).files [112] = some (headerOnly codeSize) := by
  simp only [boot, ↓reduceIte]

theorem boot_booted (codeSize : Word) : (boot codeSize).Booted := ⟨fun _ => rfl, ⟨_, rfl⟩, rfl⟩

theorem readHeader_headerOnly (garbage : Garbage) (codeSize : Word) :
    readHeader .littleEndian garbage (headerOnly codeSize) =
      .ok ⟨noffMagic, ⟨0, 0, codeSize⟩, ⟨0, 0, 0⟩, ⟨0, 0, 0⟩⟩ := by
  have hw (i : Nat) : Host.loadWord .littleEndian (headerOnly codeSize).bytes (4 * i) =
      if i = 0 then noffMagic else if i = 3 then codeSize else 0 := wordAt_ofWords _ i
  have hload : NoffHeader.load .littleEndian (headerOnly codeSize).bytes =
      ⟨noffMagic, ⟨0, 0, codeSize⟩, ⟨0, 0, 0⟩, ⟨0, 0, 0⟩⟩ := by
    simp only [NoffHeader.load, hw]
    rfl
  rw [readHeader_ofFile _ _ (le_refl _), NoffHeader.ofFile, hload]
  simp only [NoffHeader.toHost, ne_eq, not_true_eq_false, false_and, ↓reduceIte]

theorem boot_startProcess (codeSize : Word)
    (h : (codeSize + 1024).toNat ≤ 2 ^ 31 - 256 ∨ 2 ^ 32 - 256 < (codeSize + 1024).toNat) :
    ∃ k₀, (boot codeSize).startProcess [112] = .ok (some k₀) := by
  apply startProcess_completes (boot_files codeSize) (readHeader_headerOnly _ codeSize) rfl
  apply size_fits
  simpa [NoffHeader.size, NoffHeader.userStackSize] using h

theorem startProcess_flatMemory_boot : ∃ k₀ s f, (boot 256).startProcess [112] = .ok (some k₀) ∧
    k₀.space = .ok s ∧ k₀.files s.swapFileName = some f ∧ Run.FlatMemory k₀ f := by
  obtain ⟨k₀, h⟩ := boot_startProcess 256 (by decide)
  obtain ⟨s, f, hs, hf, hiff⟩ := startProcess_flatMemory (boot_booted 256) (boot_files 256) (readHeader_headerOnly _ 256) h
  exact ⟨k₀, s, f, h, hs, hf, hiff.mpr (by decide)⟩

theorem wrapped_program_loses_bytes : ∃ k₀ s f, (boot (-1025)).startProcess [112] = .ok (some k₀) ∧
    k₀.space = .ok s ∧ k₀.files s.swapFileName = some f ∧ ¬Run.FlatMemory k₀ f := by
  obtain ⟨k₀, h⟩ := boot_startProcess (-1025) (by decide)
  obtain ⟨s, files, hn, rfl⟩ := startProcess_eq h
  have hbuilt := new_built (boot_files (-1025)) (readHeader_headerOnly _ (-1025)) hn
  obtain ⟨f, hf, hflat⟩ := (boot_booted (-1025)).wrapped hbuilt (by decide)
  exact ⟨_, s, f, h, load_space s files, hf, hflat⟩

end Kernel

end Nachos
