import Nachos.UserProg.FrameOwnership
import Nachos.UserProg.Loading
import Nachos.UserProg.Residency

namespace Nachos

open Buffer Machine Reply

theorem AddrSpace.swapName_injective {m n : Nat} (h : swapName m = swapName n) : m = n := by
  have hlist (j : Nat) : swapName j = (Nat.toDigits 10 j).map (fun c => BitVec.ofNat 8 c.toNat) ++
      (".swap".toList.map fun c => .ofNat 8 c.toNat) := by
    rw [swapName, String.toList_append, List.map_append, Nat.toString_eq_ofList_toDigits, String.toList_ofList]
  have hback (j : Nat) : ((Nat.toDigits 10 j).map fun c => BitVec.ofNat 8 c.toNat).map (fun b => Char.ofNat b.toNat) =
      Nat.toDigits 10 j := by
    rw [List.map_map]
    refine (List.map_congr_left fun c hc => ?_).trans (List.map_id _)
    have hd := Nat.isDigit_of_mem_toDigits (by decide) (by decide) hc
    have hlt : c.toNat < 2 ^ 8 := by
      simp only [Char.isDigit, Bool.and_eq_true, decide_eq_true_eq] at hd
      have hle : c.toNat ≤ 57 := hd.2
      omega
    simp only [Function.comp_apply, BitVec.toNat_ofNat, Nat.mod_eq_of_lt hlt, Char.ofNat_toNat, id_eq]
  rw [hlist, hlist] at h
  have hdigits : Nat.toDigits 10 m = Nat.toDigits 10 n := by
    rw [← hback m, List.append_cancel_right h, hback n]
  rw [← Nat.ofDigitChars_ten_toDigits (n := m), hdigits, Nat.ofDigitChars_ten_toDigits]

namespace Kernel

def running (k : Kernel) (t : Tid) : Kernel := { k with current := t }

theorem running_space {k : Kernel} {t : Tid} {s : AddrSpace} :
    (k.running t).space = .ok s ↔ ∃ c, k.processes t = some ⟨some s, c⟩ := space_eq_ok

/-- What the memory of a new process has: the file behind its header and, past its end, what the heap had. -/
def image (k : Kernel) (filename : Name) (threadID : Nat) : Buffer := fun a =>
  match k.files filename with
  | none => 0
  | some f =>
    let executable := AddrSpace.source f filename (AddrSpace.swapName threadID)
    if noffHeaderSize + a < executable.length then executable.bytes (noffHeaderSize + a) else k.garbage.buffer a

theorem deleteSpace_files {k k' : Kernel} {s : AddrSpace} (h : k.deleteSpace (some s) = .ok k') :
    k'.files = Function.update k.files s.swapFileName none := by
  obtain ⟨bitMap, -, h⟩ := bind_eq_ok.mp h
  cases h
  rfl

def swapOf (k : Kernel) (t : Tid) : Option Name := (k.processes t).bind fun p => p.space.map AddrSpace.swapFileName

def Fits (k : Kernel) (filename : Name) : Prop :=
  ∀ f noffH, k.files filename = some f → AddrSpace.readHeader k.host k.garbage f = .ok noffH →
    noffH.size.toNat ≤ 2 ^ 32 - 256

end Kernel

/-- A run of the kernel, and what each process would have in a memory that is its own. -/
structure Processes where
  kernel : Kernel
  memory : Tid → Buffer

namespace Processes

open Kernel

def Step (x : Processes) (a : Kernel.Action) (y : Processes) : Prop :=
  match a with
  | .write addr size value => AccessSize size ∧ ∃ r, x.kernel.writeMem addr size value = .ok (.returned r y.kernel) ∧
      y.memory = if r = none then x.memory
        else Function.update x.memory x.kernel.current ((x.memory x.kernel.current).record addr.toNat size value)
  | .exec filename => x.kernel.IdsLeft ∧ x.kernel.execFile filename = .ok y.kernel ∧ x.kernel.Fits filename ∧
      y.memory = Function.update x.memory x.kernel.threadID (x.kernel.image filename x.kernel.threadID)
  | .exit => x.kernel.Alone ∧ x.kernel.Step .exit y.kernel ∧ y.memory = x.memory
  | .fatal => x.kernel.Alone ∧ x.kernel.Step .fatal y.kernel ∧ y.memory = x.memory
  | .read addr size => x.kernel.Step (.read addr size) y.kernel ∧ y.memory = x.memory
  | .compute values => x.kernel.Step (.compute values) y.kernel ∧ y.memory = x.memory
  | .switch t => x.kernel.Step (.switch t) y.kernel ∧ y.memory = x.memory

def Initial (x : Processes) : Prop :=
  ∃ (k : Kernel) (filename : Name), (∃ words, k.bitMap = .new numPhysPages words) ∧ (∀ t, k.processes t = none) ∧
    k.current < k.threadID ∧ k.Fits filename ∧ k.startProcess filename = .ok (some x.kernel) ∧
    x.memory k.current = k.image filename 0

structure Inv (x : Processes) : Prop extends Kernel.Inv x.kernel where
  named : ∀ t n, x.kernel.swapOf t = some n → ∃ j < x.kernel.threadID, n = AddrSpace.swapName j
  apart : ∀ t u n, x.kernel.swapOf t = some n → x.kernel.swapOf u = some n → t = u
  paged : ∀ t s c, x.kernel.processes t = some ⟨some s, c⟩ → ∃ f, Paged (x.kernel.running t) s f (x.memory t)

end Processes

section

variable {k k' : Kernel} {s s' : AddrSpace} {f : UnixFile} {v v' : Buffer} {t : Tid} {addr value : Word} {size : Nat}

theorem Paged.contentsCongr (h : Paged k s f v) (hv : ∀ a < s.numPages.toNat * pageSize, v a = v' a) : Paged k s f v' := by
  have hin {p o : Nat} (hp : p < s.numPages.toNat) (ho : o < pageSize) : p * pageSize + o < s.numPages.toNat * pageSize := by
    have hle : (p + 1) * pageSize ≤ s.numPages.toNat * pageSize := Nat.mul_le_mul_right _ hp
    rw [Nat.add_mul, Nat.one_mul] at hle
    omega
  refine ⟨h.space, h.swap, h.length, h.bound, h.bits, h.loadReg, h.readOnly, h.frame, h.distinct, ?_, ?_⟩
  · intro p hp hpv o ho
    rw [h.resident p hp hpv o ho, hv _ (hin hp ho)]
  · intro p hp hpv o ho
    rw [h.cold p hp hpv o ho, hv _ (hin hp ho)]

theorem Paged.other {c : Bool} (h : Paged (k.running t) s f v) (hp : k'.processes t = some ⟨some s, c⟩)
    (hf : k'.files s.swapFileName = k.files s.swapFileName) (hb : k'.bitMap.numBits = k.bitMap.numBits)
    (hl : (k'.registers Nachos.loadReg).toNat < numGPRegs)
    (hm : ∀ p < s.numPages.toNat, (s.pageTable p).valid = true →
      (s.pageTable p).physicalPage.toNat ∈ k'.bitMap.marked ∧ ∀ o < pageSize,
        k'.mainMemory ((s.pageTable p).physicalPage.toNat * pageSize + o) =
          k.mainMemory ((s.pageTable p).physicalPage.toNat * pageSize + o)) : Paged (k'.running t) s f v := by
  refine ⟨Kernel.running_space.mpr ⟨c, hp⟩, hf.trans h.swap, h.length, h.bound, hb.trans h.bits, hl, h.readOnly,
    fun p hp hv => (hm p hp hv).1, h.distinct, ?_, h.cold⟩
  intro p hp hv o ho
  exact ((hm p hp hv).2 o ho).trans (h.resident p hp hv o ho)

theorem Paged.ofNew {filename : Name} {threadID : Nat} {files : Files}
    (hn : AddrSpace.new k.host k.garbage k.files filename threadID = .ok (some s, files)) (hfits : k.Fits filename)
    (hs : k'.space = .ok s) (hf : k'.files = files) (hb : k'.bitMap.numBits = numPhysPages)
    (hl : (k'.registers Nachos.loadReg).toNat < numGPRegs) :
    s.swapFileName = AddrSpace.swapName threadID ∧ ∃ f, Paged k' s f (k.image filename threadID) := by
  have hn' := hn
  unfold AddrSpace.new at hn'
  split at hn'
  · rename_i executable he
    obtain ⟨noffH, hh, hn'⟩ := bind_eq_ok.mp hn'
    have hbuilt := AddrSpace.new_built he hh hn
    have hcold {p : Nat} (hp : p < s.numPages.toNat) : ¬(s.pageTable p).valid = true := by
      rw [AddrSpace.new_cold hn hp]
      decide
    have hsize : (s.numPages * .ofNat 32 pageSize).toNat = s.numPages.toNat * pageSize := by
      rw [hbuilt.numPages]
      exact AddrSpace.size_toNat (hfits _ _ he hh)
    have hread : ∀ p < s.numPages.toNat, (s.pageTable p).readOnly = false := by
      intro p hp
      simp only [hbuilt.pageTable, AddrSpace.emptyTable, if_pos hp]
    split_ifs at hn'
    · simp at hn'
    · obtain ⟨files₁, hm, hn'⟩ := bind_eq_ok.mp hn'
      obtain ⟨f, hf', hlen, hbytes⟩ := AddrSpace.makeSwap_bytes he hm
      obtain ⟨hs', rfl⟩ := Prod.mk.inj (Except.ok.inj hn')
      obtain rfl := Option.some.inj hs'
      refine ⟨rfl, f, Paged.contentsCongr (v := f.bytes) ?_ fun a ha => ?_⟩
      · refine ⟨hs, by rw [hf, hf'], by rw [hlen, ← hsize], ?_, hb, hl, hread, ?_, ?_, ?_, fun _ _ _ _ _ => rfl⟩
        · have hfit := hbuilt.fits
          rw [← hsize]
          rw [BitVec.toInt_eq_toNat_cond] at hfit
          split_ifs at hfit <;> omega
        · exact fun p hp hv => absurd hv (hcold hp)
        · exact fun p hp q hq hv => absurd hv (hcold hp)
        · exact fun p hp hv => absurd hv (hcold hp)
      · rw [hbytes a (by rw [hsize]; exact ha)]
        simp only [Kernel.image, he]
  · cases hn'

/-- What a page fault of the running process has done when the access returns. -/
def Kernel.Answers (k : Kernel) (s : AddrSpace) (f : UnixFile) (addr : Word) (k' : Kernel) : Prop :=
  ∃ registers, Raised k.registers addr registers ∧ addr.toNat / pageSize < s.numPages.toNat ∧
    (s.pageTable (addr.toNat / pageSize)).valid = false ∧
    ((∃ fifo random, k' = { k with registers, fifo, random }) ∨
      ∃ i < k.bitMap.numBits, i ∉ k.bitMap.marked ∧
        k' = Kernel.pagedIn { k with registers } s f (addr.toNat / pageSize) i)

theorem Paged.fault_answers (h : Paged k s f v) {α : Type} {g : Machine → Except Fault (Outcome α)} {r : Option α}
    (hg : g (k.machine s) = (k.machine s).raiseException .pageFaultException addr)
    (hp : addr.toNat / pageSize < s.numPages.toNat) (hv : (s.pageTable (addr.toNat / pageSize)).valid = false)
    (he : k.access g = .ok (.returned r k')) : r = none ∧ k.Answers s f addr k' := by
  obtain ⟨registers, hr, ha⟩ := Kernel.access_raised h.space h.loadReg hg
  obtain ⟨z, hz, hn⟩ := bind_eq_ok.mp (ha.symm.trans he)
  cases z with
  | returned u k₁ =>
    cases hn
    refine ⟨rfl, registers, hr, hp, hv, ?_⟩
    rcases Kernel.pageFault_cases hz with ⟨-, fifo, random, rfl⟩ | ⟨-, s', f', p, i, hs, hf, hd, -, hi, him, -, rfl⟩
    · exact .inl ⟨fifo, random, rfl⟩
    · obtain rfl := Except.ok.inj (hs.symm.trans h.space)
      obtain rfl := Option.some.inj (hf.symm.trans h.swap)
      have hd' : divRoundDown (registers badVAddrReg).toInt pageSize = p := hd
      rw [hr.badVAddr, h.page_eq hp] at hd'
      obtain rfl := Int.ofNat.inj hd'
      exact .inr ⟨i, hi, him, rfl⟩
  | finished _ => cases hn
  | exited => cases hn
  | running => cases hn

theorem Paged.read_cases {r : Option Word} (h : Paged k s f v) (hs : AccessSize size)
    (he : k.readMem addr size = .ok (.returned r k')) : (r = none ∧ k.Answers s f addr k') ∨
      ∃ x, r = some x ∧ (∀ j < size, byteOf x j = v (addr.toNat + j)) ∧
        k' = k.setSpace { s with pageTable := Machine.touch s.pageTable (addr.toNat / pageSize) false } := by
  rcases h.translate hs addr false with ⟨-, ht⟩ | ⟨-, hp, hv, ht⟩ | ⟨ha, hp, hv, -⟩
  · obtain ⟨registers, -, hf⟩ := Kernel.access_raised (g := fun m => m.readMem addr size) h.space h.loadReg (readMem_of_fail ht)
    exact absurd (hf.symm.trans he) Kernel.proceed_fatal_ne_returned
  · exact .inl (h.fault_answers (g := fun m => m.readMem addr size) (readMem_of_fail ht) hp hv he)
  · cases (Kernel.readMem_resident h.space hs ha (h.isResident hp hv)).symm.trans he
    exact .inr ⟨_, rfl, fun j hj => h.loaded_resident hs ha hp hv hj, rfl⟩

theorem Paged.write_cases {r : Option Unit} (h : Paged k s f v) (hs : AccessSize size)
    (he : k.writeMem addr size value = .ok (.returned r k')) : (r = none ∧ k.Answers s f addr k') ∨
      r = some () ∧ ¬misaligned addr size ∧ addr.toNat / pageSize < s.numPages.toNat ∧
        (s.pageTable (addr.toNat / pageSize)).valid = true ∧
        k' = Kernel.setSpace
          { k with mainMemory := stored k.host k.mainMemory (frameAddress s.pageTable addr.toNat) size value }
          { s with pageTable := Machine.touch s.pageTable (addr.toNat / pageSize) true } := by
  rcases h.translate hs addr true with ⟨-, ht⟩ | ⟨-, hp, hv, ht⟩ | ⟨ha, hp, hv, -⟩
  · obtain ⟨registers, -, hf⟩ := Kernel.access_raised (g := fun m => m.writeMem addr size value) h.space h.loadReg
      (writeMem_of_fail ht)
    exact absurd (hf.symm.trans he) Kernel.proceed_fatal_ne_returned
  · exact .inl (h.fault_answers (g := fun m => m.writeMem addr size value) (writeMem_of_fail ht) hp hv he)
  · cases (Kernel.writeMem_resident h.space hs ha (h.isResident hp hv)).symm.trans he
    exact .inr ⟨rfl, ha, hp, hv, rfl⟩

end

namespace Processes

open Kernel

variable {x y : Processes} {k' : Kernel} {s s' : AddrSpace} {f : UnixFile} {v : Buffer} {c : Bool} {t : Tid} {addr value : Word}
  {size : Nat}

theorem swapOf_eq {k : Kernel} (h : k.processes t = some ⟨some s, c⟩) : k.swapOf t = some s.swapFileName := by
  rw [swapOf, h]
  rfl

theorem swapOf_setSpace {k : Kernel} (hs : k.space = .ok s) (hn : s'.swapFileName = s.swapFileName) :
    (k.setSpace s').swapOf = k.swapOf := by
  obtain ⟨c, hc⟩ := space_eq_ok.mp hs
  funext t
  by_cases ht : t = k.current
  · subst ht
    simp [swapOf, setSpace, setProcess, hc, hn]
  · simp [swapOf, setSpace, setProcess, ht]

namespace Inv

theorem keep (h : Inv x) (hk : y.kernel.Inv) (hs : ∀ t n, y.kernel.swapOf t = some n → x.kernel.swapOf t = some n)
    (ht : x.kernel.threadID ≤ y.kernel.threadID)
    (hp : ∀ t s c, y.kernel.processes t = some ⟨some s, c⟩ → ∃ f, Paged (y.kernel.running t) s f (y.memory t)) : Inv y where
  toInv := hk
  named t n hn := by
    obtain ⟨j, hj, he⟩ := h.named t n (hs t n hn)
    exact ⟨j, hj.trans_le ht, he⟩
  apart t u n hn hn' := h.apart t u n (hs t n hn) (hs u n hn')
  paged := hp

variable (h : Inv x)
include h

theorem current (hs : x.kernel.space = .ok s) : ∃ f, Paged x.kernel s f (x.memory x.kernel.current) := by
  obtain ⟨c, hc⟩ := space_eq_ok.mp hs
  exact h.paged _ s c hc

theorem safe (addr : Word) : ¬x.kernel.Displaces addr := by
  rintro ⟨-, s, hs, hlast, hp, -⟩
  obtain ⟨f, hpaged⟩ := h.current hs
  have hb := hpaged.bound
  rw [pageSize_eq] at hb hp hlast
  omega

theorem setSpace (hs : x.kernel.space = .ok s) (k₁ : Kernel) (hproc : k₁.processes = x.kernel.processes)
    (hcur : k₁.current = x.kernel.current) (hfiles : k₁.files = x.kernel.files) (hid : k₁.threadID = x.kernel.threadID)
    (hm : x.kernel.bitMap.marked ⊆ k₁.bitMap.marked)
    (hmem : ∀ t p f, t ≠ x.kernel.current → x.kernel.Owns t p f → ∀ o < pageSize,
      k₁.mainMemory (f * pageSize + o) = x.kernel.mainMemory (f * pageSize + o))
    (hn : s'.swapFileName = s.swapFileName) (hk : (k₁.setSpace s').Inv) (hpaged : Paged (k₁.setSpace s') s' f v) :
    Inv ⟨k₁.setSpace s', Function.update x.memory x.kernel.current v⟩ := by
  have hs₁ : k₁.space = .ok s := by
    rw [Kernel.space, hproc, hcur]
    exact hs
  have hother {t : Tid} (ht : t ≠ x.kernel.current) : (k₁.setSpace s').processes t = x.kernel.processes t := by
    simp [Kernel.setSpace, setProcess, hcur, ht, hproc]
  apply h.keep hk
  · intro t n hn'
    rw [show (k₁.setSpace s').swapOf = k₁.swapOf from swapOf_setSpace hs₁ hn] at hn'
    rw [swapOf, ← hproc]
    exact hn'
  · exact hid.ge
  · intro t s₁ c ht
    by_cases hc : t = x.kernel.current
    · subst hc
      have hspace := Kernel.running_space.mpr ⟨c, ht⟩
      have hself : (k₁.setSpace s').running x.kernel.current = k₁.setSpace s' := by
        rw [← hcur]
        rfl
      rw [hself] at hspace
      obtain rfl := Except.ok.inj ((setSpace_space hs₁ s').symm.trans hspace)
      refine ⟨f, ?_⟩
      simp only [hself, Function.update_self]
      exact hpaged
    · simp only [Function.update_of_ne hc]
      have ht' := (hother hc).symm.trans ht
      obtain ⟨g, hg⟩ := h.paged t s₁ c ht'
      refine ⟨g, hg.other ht (congrFun hfiles _) (hk.bits.trans h.bits.symm) hk.loadReg fun p hp hv => ?_⟩
      exact ⟨hm (hg.frame p hp hv), hmem t p _ hc ⟨s₁, c, ht', hp, hv, rfl⟩⟩

theorem answers (hpaged : Paged x.kernel s f (x.memory x.kernel.current)) (ha : x.kernel.Answers s f addr k')
    (hk : k'.Inv) : Inv ⟨k', x.memory⟩ := by
  obtain ⟨registers, hr, hp, hv, ⟨fifo, random, rfl⟩ | ⟨i, hi, him, rfl⟩⟩ := ha
  · refine h.keep (y := ⟨_, x.memory⟩) hk (fun _ _ hn => hn) (le_refl _) fun t s c ht => ?_
    obtain ⟨g, hg⟩ := h.paged t s c ht
    exact ⟨g, hg.other ht rfl rfl hk.loadReg fun p hp hv => ⟨hg.frame p hp hv, fun _ _ => rfl⟩⟩
  · have hmem : Function.update x.memory x.kernel.current (x.memory x.kernel.current) = x.memory :=
      Function.update_eq_self ..
    have hload : (registers Nachos.loadReg).toNat < numGPRegs := by simp [hr.loadReg]
    rw [← hmem]
    apply h.setSpace hpaged.space
    · rfl
    · rfl
    · rfl
    · rfl
    · exact (Finset.subset_insert ..).trans (Finset.subset_of_eq (BitMap.marked_mark hi).symm)
    · intro t p g _ ho o hlt
      have hne : g ≠ i := by
        rintro rfl
        exact him ((h.marked g).mpr ⟨t, p, ho⟩)
      have hd := page_disjoint (c := 0) (n := pageSize) hne (by omega) hlt
      change x.kernel.mainMemory.copy (i * pageSize) (fun o => f.bytes (addr.toNat / pageSize * pageSize + o)) _ _ = _
      rw [hpaged.page_read hp]
      exact copy_outside (by omega)
    · rfl
    · exact hk
    · exact (hpaged.withRegisters hload).pagedIn hp hv (h.bits ▸ hi) him

theorem read (hs : AccessSize size) {r : Option Word} (he : x.kernel.readMem addr size = .ok (.returned r k')) :
    Inv ⟨k', x.memory⟩ ∧ ∀ w, r = some w → ∀ j < size, byteOf w j = x.memory x.kernel.current (addr.toNat + j) := by
  have hk : k'.Inv := by
    rcases h.toInv.step (a := .read addr size) ⟨hs, r, he⟩ with ⟨hk, -⟩ | ⟨-, hn⟩
    · exact hk
    · exact absurd (fun _ => h.safe addr) hn
  obtain ⟨s, hspace, -⟩ := readMem_touched h.loadReg hs he
  obtain ⟨f, hpaged⟩ := h.current hspace
  rcases hpaged.read_cases hs he with ⟨rfl, ha⟩ | ⟨w, rfl, hw, rfl⟩
  · exact ⟨h.answers hpaged ha hk, fun w hw => by cases hw⟩
  · constructor
    · have hmem : Function.update x.memory x.kernel.current (x.memory x.kernel.current) = x.memory :=
        Function.update_eq_self ..
      rw [← hmem]
      apply h.setSpace hspace
      · rfl
      · rfl
      · rfl
      · rfl
      · exact Finset.Subset.refl _
      · exact fun _ _ _ _ _ _ _ => rfl
      · rfl
      · exact hk
      · exact hpaged.touch _ false
    · rintro _ ⟨⟩
      exact hw

theorem write (hs : AccessSize size) {r : Option Unit} (he : x.kernel.writeMem addr size value = .ok (.returned r k')) :
    Inv ⟨k', if r = none then x.memory
      else Function.update x.memory x.kernel.current ((x.memory x.kernel.current).record addr.toNat size value)⟩ := by
  have hk : k'.Inv := by
    rcases h.toInv.step (a := .write addr size value) ⟨hs, r, he⟩ with ⟨hk, -⟩ | ⟨-, hn⟩
    · exact hk
    · exact absurd (fun _ => h.safe addr) hn
  obtain ⟨s, hspace, -⟩ := writeMem_touched h.loadReg hs he
  obtain ⟨f, hpaged⟩ := h.current hspace
  rcases hpaged.write_cases hs he with ⟨rfl, ha⟩ | ⟨rfl, hal, hp, hv, rfl⟩
  · rw [if_pos rfl]
    exact h.answers hpaged ha hk
  · rw [if_neg (Option.some_ne_none ())]
    apply h.setSpace hspace
    · rfl
    · rfl
    · rfl
    · rfl
    · exact Finset.Subset.refl _
    · intro t p g ht ho o hlt
      have hown : x.kernel.Owns x.kernel.current (addr.toNat / pageSize)
          (s.pageTable (addr.toNat / pageSize)).physicalPage.toNat := (owns_current hspace).mpr ⟨hp, hv, rfl⟩
      have hne : g ≠ (s.pageTable (addr.toNat / pageSize)).physicalPage.toNat := by
        rintro rfl
        exact ht (h.unique _ _ _ _ _ ho hown).1
      change stored _ _ _ size value (g * pageSize + o) = _
      rw [stored_apply hs, frameAddress, if_neg (page_disjoint hne (offset_le hs hal) hlt)]
    · rfl
    · exact hk
    · exact (hpaged.write hs hal hp hv).touch _ true

theorem ended (he : x.kernel.Ended k') (ha : x.kernel.Alone) (hs : x.kernel.space = .ok s)
    (hf : k'.files = Function.update x.kernel.files s.swapFileName none) : Inv ⟨k', x.memory⟩ := by
  have hcurrent : x.kernel.swapOf x.kernel.current = some s.swapFileName := by
    obtain ⟨c, hc⟩ := space_eq_ok.mp hs
    exact swapOf_eq hc
  have hk := h.toInv.ended he ha
  have hne {t : Tid} {p : Process} (ht : k'.processes t = some p) : t ≠ x.kernel.current := by
    rintro rfl
    rw [he.processes, Function.update_self] at ht
    cases ht
  have hproc {t : Tid} (ht : t ≠ x.kernel.current) : k'.processes t = x.kernel.processes t := by
    rw [he.processes, Function.update_of_ne ht]
  apply h.keep hk
  · intro t n hn
    obtain ⟨p, hp, hn'⟩ := Option.bind_eq_some_iff.mp hn
    exact Option.bind_eq_some_iff.mpr ⟨p, (hproc (hne hp)).symm.trans hp, hn'⟩
  · exact he.threadID.ge
  · intro t s' c ht
    have htc := hne ht
    have ht' := (hproc htc).symm.trans ht
    obtain ⟨g, hg⟩ := h.paged t s' c ht'
    refine ⟨g, hg.other ht ?_ he.bits hk.loadReg fun p hp hv => ?_⟩
    · rw [hf, Function.update_of_ne]
      intro hn
      exact htc (h.apart t _ _ (swapOf_eq ht') (hn ▸ hcurrent))
    · exact absurd ⟨s', c, ht', hp, hv, rfl⟩ (ha t p _ htc)

theorem spawn {filename : Name} {space : Option AddrSpace} {files : Files} (hfits : x.kernel.Fits filename)
    (hn : AddrSpace.new x.kernel.host x.kernel.garbage x.kernel.files filename x.kernel.threadID = .ok (space, files))
    (hk : (x.kernel.spawn space files).Inv) : Inv ⟨x.kernel.spawn space files,
      Function.update x.memory x.kernel.threadID (x.kernel.image filename x.kernel.threadID)⟩ := by
  have hproc (t : Tid) : (x.kernel.spawn space files).processes t =
      Function.update x.kernel.processes x.kernel.threadID (some ⟨space, false⟩) t := rfl
  have hnew {s : AddrSpace} (hs : space = some s) : s.swapFileName = AddrSpace.swapName x.kernel.threadID ∧
      ∃ f, Paged ((x.kernel.spawn space files).running x.kernel.threadID) s f
        (x.kernel.image filename x.kernel.threadID) := by
    subst hs
    exact Paged.ofNew hn hfits (Kernel.running_space.mpr ⟨false, by rw [hproc, Function.update_self]⟩) rfl hk.bits hk.loadReg
  have hcases {t : Tid} {n : Name} (ht : (x.kernel.spawn space files).swapOf t = some n) :
      (t = x.kernel.threadID ∧ n = AddrSpace.swapName x.kernel.threadID) ∨
        t ≠ x.kernel.threadID ∧ x.kernel.swapOf t = some n := by
    rw [swapOf, hproc] at ht
    by_cases hc : t = x.kernel.threadID
    · left
      rw [hc, Function.update_self, Option.bind_some] at ht
      obtain ⟨s, hs, rfl⟩ := Option.map_eq_some_iff.mp ht
      exact ⟨hc, (hnew hs).1⟩
    · right
      rw [Function.update_of_ne hc] at ht
      exact ⟨hc, ht⟩
  have hold {t : Tid} {n : Name} (ht : x.kernel.swapOf t = some n) : n ≠ AddrSpace.swapName x.kernel.threadID := by
    rintro rfl
    obtain ⟨j, hj, he⟩ := h.named t _ ht
    exact hj.ne (AddrSpace.swapName_injective he).symm
  refine ⟨hk, fun t n ht => ?_, fun t u n ht hu => ?_, fun t s c ht => ?_⟩
  · rcases hcases ht with ⟨-, rfl⟩ | ⟨-, ht⟩
    · exact ⟨_, Nat.lt_succ_self _, rfl⟩
    · obtain ⟨j, hj, he⟩ := h.named t n ht
      exact ⟨j, Nat.lt_succ_of_lt hj, he⟩
  · rcases hcases ht with ⟨rfl, rfl⟩ | ⟨-, ht⟩
    · rcases hcases hu with ⟨rfl, -⟩ | ⟨-, hu⟩
      · rfl
      · exact absurd rfl (hold hu)
    · rcases hcases hu with ⟨-, rfl⟩ | ⟨-, hu⟩
      · exact absurd rfl (hold ht)
      · exact h.apart t u n ht hu
  · change (x.kernel.spawn space files).processes t = _ at ht
    by_cases hc : t = x.kernel.threadID
    · subst hc
      rw [hproc, Function.update_self] at ht
      simp only [Function.update_self]
      exact (hnew (congrArg Process.space (Option.some.inj ht))).2
    · simp only [Function.update_of_ne hc]
      have ht' := ht
      rw [hproc, Function.update_of_ne hc] at ht'
      obtain ⟨g, hg⟩ := h.paged t s c ht'
      refine ⟨g, hg.other ht ?_ rfl hk.loadReg fun p hp hv => ⟨hg.frame p hp hv, fun _ _ => rfl⟩⟩
      exact AddrSpace.new_other hn (hold (swapOf_eq ht'))

theorem refuse {filename : Name} {space : Option AddrSpace} {files : Files} {p : Process}
    (hn : AddrSpace.new x.kernel.host x.kernel.garbage x.kernel.files filename x.kernel.threadID = .ok (space, files))
    (hp : x.kernel.processes x.kernel.current = some p) (hk : (x.kernel.refuse p files).Inv) :
    Inv ⟨x.kernel.refuse p files, x.memory⟩ := by
  have hproc (t : Tid) : (x.kernel.refuse p files).processes t =
      Function.update x.kernel.processes x.kernel.current (some { p with killNewChild := false }) t := rfl
  have hspace (t : Tid) : ((x.kernel.refuse p files).processes t).map Process.space =
      (x.kernel.processes t).map Process.space := by
    rw [hproc]
    by_cases hc : t = x.kernel.current
    · rw [hc, Function.update_self, hp]
      rfl
    · rw [Function.update_of_ne hc]
  have hswap (t : Tid) : (x.kernel.refuse p files).swapOf t = x.kernel.swapOf t := by
    have he := congrArg (fun o => o.bind fun space => space.map AddrSpace.swapFileName) (hspace t)
    rwa [Option.bind_map, Option.bind_map] at he
  refine h.keep (y := ⟨_, x.memory⟩) hk (fun t n hn => (hswap t).symm.trans hn) (le_refl _) fun t s c ht => ?_
  have ht' : ∃ c', x.kernel.processes t = some ⟨some s, c'⟩ := by
    have he := (hspace t).symm
    change (x.kernel.refuse p files).processes t = _ at ht
    rw [ht] at he
    obtain ⟨q, hq, hqs⟩ := Option.map_eq_some_iff.mp he
    cases q
    cases hqs
    exact ⟨_, hq⟩
  obtain ⟨c', ht'⟩ := ht'
  obtain ⟨g, hg⟩ := h.paged t s c' ht'
  refine ⟨g, hg.other ht ?_ rfl hk.loadReg fun p hp hv => ⟨hg.frame p hp hv, fun _ _ => rfl⟩⟩
  apply AddrSpace.new_other hn
  intro he
  obtain ⟨j, hj, he'⟩ := h.named t _ (swapOf_eq ht')
  exact hj.ne (AddrSpace.swapName_injective (he'.symm.trans he))

theorem unborn (v : Buffer) : Inv ⟨x.kernel, Function.update x.memory x.kernel.threadID v⟩ := by
  refine h.keep (y := ⟨x.kernel, _⟩) h.toInv (fun _ _ hn => hn) (le_refl _) fun t s c ht => ?_
  have hne : t ≠ x.kernel.threadID := by
    rintro rfl
    have hnone := h.fresh _ (le_refl _)
    exact absurd (hnone.symm.trans ht) (by simp)
  simp only [Function.update_of_ne hne]
  exact h.paged t s c ht

theorem exec {filename : Name} (hfits : x.kernel.Fits filename) (he : x.kernel.execFile filename = .ok k') :
    Inv ⟨k', Function.update x.memory x.kernel.threadID (x.kernel.image filename x.kernel.threadID)⟩ := by
  have hk := h.toInv.execFile he
  unfold Kernel.execFile at he
  split at he
  · cases he
    exact h.unborn _
  · obtain ⟨⟨space, files⟩, hn, he⟩ := bind_eq_ok.mp he
    simp only at he
    split at he
    · cases he
    · rename_i p hp
      split_ifs at he with hkill
      · cases he
        exact h.spawn hfits hn hk
      · cases he
        exact (h.refuse hn hp hk).unborn _

end Inv

theorem step (h : Inv x) {a : Kernel.Action} (hs : x.Step a y) : Inv y := by
  obtain ⟨k', m⟩ := y
  cases a with
  | read addr size =>
    obtain ⟨⟨hsize, r, he⟩, rfl⟩ := hs
    exact (h.read hsize he).1
  | write addr size value =>
    obtain ⟨hsize, r, he, rfl⟩ := hs
    exact h.write hsize he
  | exec filename =>
    obtain ⟨-, he, hfits, rfl⟩ := hs
    exact h.exec hfits he
  | exit =>
    obtain ⟨ha, he, rfl⟩ := hs
    have hend := scExit_ended h.bits he
    obtain ⟨s, hspace, he⟩ := bind_eq_ok.mp he
    obtain ⟨bitMap, hc, he⟩ := bind_eq_ok.mp he
    obtain ⟨k₁, hk, he⟩ := bind_eq_ok.mp he
    cases he
    have hfiles := deleteSpace_files hk
    exact h.ended hend ha hspace hfiles
  | fatal =>
    obtain ⟨ha, he, rfl⟩ := hs
    have hend := fatal_ended h.bits he
    obtain ⟨_, -, he⟩ := bind_eq_ok.mp he
    split at he
    · cases he
    · rename_i p hp
      obtain ⟨k₁, hk, he⟩ := bind_eq_ok.mp he
      cases he
      obtain ⟨space, kill⟩ := p
      cases space with
      | none =>
        obtain ⟨_, -, hk⟩ := bind_eq_ok.mp hk
        cases hk
      | some s =>
        have hfiles := deleteSpace_files hk
        exact h.ended hend ha (space_eq_ok.mpr ⟨kill, hp⟩) hfiles
  | compute values =>
    obtain ⟨⟨hl, rfl⟩, rfl⟩ := hs
    refine h.keep (y := ⟨_, x.memory⟩) (h.withRegisters hl) (fun _ _ hn => hn) (le_refl _) fun t s c ht => ?_
    obtain ⟨g, hg⟩ := h.paged t s c ht
    exact ⟨g, hg.other ht rfl rfl hl fun p hp hv => ⟨hg.frame p hp hv, fun _ _ => rfl⟩⟩
  | switch t =>
    obtain ⟨⟨-, registers, hl, rfl⟩, rfl⟩ := hs
    have hk : Kernel.Inv { x.kernel with current := t, registers } :=
      ⟨h.bits, hl, h.fresh, h.inside, h.unique, h.marked⟩
    refine h.keep (y := ⟨_, x.memory⟩) hk (fun _ _ hn => hn) (le_refl _) fun u s c hu => ?_
    obtain ⟨g, hg⟩ := h.paged u s c hu
    exact ⟨g, hg.other hu rfl rfl hl fun p hp hv => ⟨hg.frame p hp hv, fun _ _ => rfl⟩⟩

theorem Initial.inv (h : Initial x) : Inv x := by
  obtain ⟨k, filename, ⟨words, hb⟩, hp, ht, hfits, hk, hm⟩ := h
  obtain ⟨s, files, hn, hk₀⟩ := startProcess_eq hk
  obtain ⟨kernel, memory⟩ := x
  obtain rfl : kernel = k.load s files := hk₀
  have hinv := load_inv hb hp ht hn
  obtain ⟨hname, f, hpaged⟩ := Paged.ofNew hn hfits (load_space s files) rfl hinv.bits hinv.loadReg
  have hsole {t : Tid} {p : Process} (hp' : (k.load s files).processes t = some p) : t = k.current ∧ p = ⟨some s, false⟩ := by
    change Function.update k.processes k.current (some ⟨some s, false⟩) t = _ at hp'
    by_cases hc : t = k.current
    · rw [hc, Function.update_self] at hp'
      exact ⟨hc, (Option.some.inj hp').symm⟩
    · rw [Function.update_of_ne hc, hp] at hp'
      cases hp'
  have hswap {t : Tid} {n : Name} (hn : (k.load s files).swapOf t = some n) : t = k.current ∧ n = s.swapFileName := by
    obtain ⟨p, hp', hn⟩ := Option.bind_eq_some_iff.mp hn
    obtain ⟨hc, rfl⟩ := hsole hp'
    exact ⟨hc, (Option.some.inj hn).symm⟩
  refine ⟨hinv, fun t n hn => ?_, fun t u n ht hu => ?_, fun t s' c ht => ?_⟩
  · refine ⟨0, Nat.zero_lt_of_lt ht, ?_⟩
    rw [(hswap hn).2, hname]
  · rw [(hswap ht).1, (hswap hu).1]
  · obtain ⟨rfl, he⟩ := hsole ht
    cases he
    change memory k.current = _ at hm
    rw [← hm] at hpaged
    exact ⟨f, hpaged⟩

/-- However the processes take turns, each has a memory of its own: what it reads is what it wrote last or, if it has not
written there, the image of its file, and its pages and its swap file hold nothing else. -/
theorem private_memory (h : Reachable Initial Step x) :
    (∀ addr size w k', AccessSize size → x.kernel.readMem addr size = .ok (.returned (some w) k') →
      ∀ j < size, byteOf w j = x.memory x.kernel.current (addr.toNat + j)) ∧
    ∀ t s c, x.kernel.processes t = some ⟨some s, c⟩ → ∀ a, (x.kernel.running t).contents a =
      if a / pageSize < s.numPages.toNat then some (x.memory t a) else none := by
  have hi : Inv x := h.invariant (fun _ => Initial.inv) (fun _ _ _ hi hs => step hi hs)
  constructor
  · intro addr size w k' hs he
    exact (hi.read hs he).2 w rfl
  · intro t s c ht
    obtain ⟨f, hf⟩ := hi.paged t s c ht
    exact hf.contents

theorem fits_headerOnly {k : Kernel} {w : Word} (hh : k.host = .littleEndian) (hf : k.files [112] = some (headerOnly w))
    (hw : (w + 1024).toNat ≤ 2 ^ 32 - 256) : k.Fits [112] := by
  intro f noffH he hr
  obtain rfl := Option.some.inj (he.symm.trans hf)
  rw [hh] at hr
  obtain rfl := Except.ok.inj ((readHeader_headerOnly k.garbage w).symm.trans hr)
  simpa [NoffHeader.size, NoffHeader.userStackSize] using hw

theorem private_memory_two : ∃ x : Processes, Reachable Initial Step x ∧ (∃ s c, x.kernel.processes 0 = some ⟨some s, c⟩) ∧
    ∃ s c, x.kernel.processes 1 = some ⟨some s, c⟩ ∧ ∀ a, (x.kernel.running 1).contents a =
      if a / pageSize < s.numPages.toNat then some (x.memory 1 a) else none := by
  obtain ⟨k₀, h⟩ := boot_startProcess 256 (by decide)
  obtain ⟨s, files, hn, rfl⟩ := startProcess_eq h
  have hr : Reachable Initial Step ⟨(boot 256).load s files, fun _ => (boot 256).image [112] 0⟩ :=
    .start ⟨boot 256, [112], ⟨_, rfl⟩, fun _ => rfl, Nat.zero_lt_one, fits_headerOnly rfl (boot_files 256) (by decide), h, rfl⟩
  have hf : ((boot 256).load s files).files [112] = some (headerOnly 256) :=
    (AddrSpace.new_other hn (AddrSpace.swapName_ne_short 0 _)).trans (boot_files 256)
  have hp : ((boot 256).load s files).processes 0 = some ⟨some s, false⟩ := by
    change Function.update (boot 256).processes 0 (some ⟨some s, false⟩) 0 = _
    exact Function.update_self ..
  obtain ⟨s', files', hn'⟩ : ∃ s' files', AddrSpace.new .littleEndian (boot 256).garbage ((boot 256).load s files).files
      [112] 1 = .ok (some s', files') :=
    AddrSpace.new_completes 1 hf (readHeader_headerOnly _ 256) rfl (AddrSpace.size_fits (.inl (by decide)))
  have hexec : ((boot 256).load s files).execFile [112] = .ok (((boot 256).load s files).spawn (some s') files') := by
    have hnew : AddrSpace.new ((boot 256).load s files).host ((boot 256).load s files).garbage
      ((boot 256).load s files).files [112] ((boot 256).load s files).threadID = .ok (some s', files') := hn'
    have hp' : ((boot 256).load s files).processes ((boot 256).load s files).current = some ⟨some s, false⟩ := hp
    simp only [execFile, hf, hnew, ok_bind, hp', ↓reduceIte]
  have hids : ((boot 256).load s files).IdsLeft := show 1 < 2 ^ 31 by decide
  have hstep : Step ⟨(boot 256).load s files, fun _ => (boot 256).image [112] 0⟩ (.exec [112])
      ⟨((boot 256).load s files).spawn (some s') files', _⟩ := ⟨hids, hexec, fits_headerOnly rfl hf (by decide), rfl⟩
  have hp₀ : (((boot 256).load s files).spawn (some s') files').processes 0 = some ⟨some s, false⟩ := by
    change Function.update ((boot 256).load s files).processes 1 (some ⟨some s', false⟩) 0 = _
    rw [Function.update_of_ne Nat.zero_ne_one, hp]
  have hp₁ : (((boot 256).load s files).spawn (some s') files').processes 1 = some ⟨some s', false⟩ := by
    change Function.update ((boot 256).load s files).processes 1 (some ⟨some s', false⟩) 1 = _
    exact Function.update_self ..
  exact ⟨_, hr.next _ hstep, ⟨s, false, hp₀⟩, s', false, hp₁, (private_memory (hr.next _ hstep)).2 1 s' false hp₁⟩

end Processes

end Nachos
