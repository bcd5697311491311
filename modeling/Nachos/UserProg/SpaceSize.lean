import Mathlib.Algebra.Order.Floor.Div
import Nachos.UserProg.FrameOwnership

namespace Nachos

open Buffer Machine

namespace NoffHeader

def total (h : NoffHeader) : Nat := h.code.size.toNat + h.initData.size.toNat + h.uninitData.size.toNat + 1024

theorem size_toNat (h : NoffHeader) : h.size.toNat = h.total % 2 ^ 32 := by
  have hs : userStackSize.toNat = 1024 := rfl
  simp only [size, total, BitVec.toNat_add, hs]
  omega

end NoffHeader

namespace AddrSpace

variable {host : Host} {garbage : Garbage} {files files' : Files} {name : Name} {threadID : Nat}
  {executable : UnixFile} {s : AddrSpace} {noffH : NoffHeader}

/-- The sizes of the space are those of the header: in pages, in bytes, in the swap file and in the first
value of the stack pointer. -/
structure Exact (noffH : NoffHeader) (files : Files) (s : AddrSpace) : Prop where
  numPages : s.numPages.toNat = noffH.total ⌈/⌉ pageSize
  size : (s.numPages * .ofNat 32 pageSize).toNat = s.numPages.toNat * pageSize
  covered : noffH.total ≤ s.numPages.toNat * pageSize
  swap : ∃ f, files s.swapFileName = some f ∧ f.length = s.numPages.toNat * pageSize
  stack : (s.initRegisters stackReg).toNat + 16 = s.numPages.toNat * pageSize

theorem ceilDiv_pageSize (n : Nat) : n ⌈/⌉ pageSize = (n + 255) / 256 := by
  rw [pageSize_eq, Nat.ceilDiv_eq_add_pred_div]
  rfl

theorem initRegisters_stackReg (s : AddrSpace) : s.initRegisters stackReg = s.numPages * .ofNat 32 pageSize - 16 :=
  Function.update_self ..

theorem Built.numPages_toNat (h : Built garbage files noffH.size s) :
    s.numPages.toNat = (noffH.total % 2 ^ 32 + 255) / 256 := by
  rw [h.numPages, pagesFor_toNat, noffH.size_toNat]

theorem Built.exact (h : Built garbage files noffH.size s) (ht : noffH.total ≤ 2 ^ 32 - 256) : Exact noffH files s := by
  have hmod : noffH.total % 2 ^ 32 = noffH.total := Nat.mod_eq_of_lt (by omega)
  have hn := h.numPages_toNat
  rw [hmod] at hn
  have hsize : (s.numPages * .ofNat 32 pageSize).toNat = s.numPages.toNat * pageSize := by
    rw [h.numPages]
    apply AddrSpace.size_toNat
    rw [noffH.size_toNat, hmod]
    exact ht
  have hpos : 1024 ≤ noffH.total := Nat.le_add_left ..
  obtain ⟨f, hf, hlen⟩ := h.swap
  refine ⟨by rw [hn, ceilDiv_pageSize], hsize, ?_, ⟨f, hf, hlen.trans hsize⟩, ?_⟩
  · rw [hn, pageSize_eq]
    omega
  · rw [initRegisters_stackReg, BitVec.toNat_sub_of_le, hsize, pageSize_eq]
    · change _ - 16 + 16 = _
      omega
    · rw [BitVec.le_def, hsize, pageSize_eq]
      change 16 ≤ _
      omega

theorem Exact.total_le (h : Exact noffH files s) : noffH.total ≤ 2 ^ 32 - 256 := by
  have hlt := (s.numPages * .ofNat 32 pageSize).isLt
  rw [h.size, pageSize_eq] at hlt
  have hc := h.covered
  rw [pageSize_eq] at hc
  omega

theorem sizes_exact_iff (he : files name = some executable) (hh : readHeader host garbage executable = .ok noffH)
    (hn : new host garbage files name threadID = .ok (some s, files')) :
    Exact noffH files' s ↔ noffH.total ≤ 2 ^ 32 - 256 :=
  ⟨Exact.total_le, (new_built he hh hn).exact⟩

def sizesFile (code initData uninitData : Word) : UnixFile :=
  ⟨noffHeaderSize, ofWords fun i => if i = 0 then noffMagic else if i = 3 then code else if i = 6 then initData
    else if i = 9 then uninitData else 0⟩

theorem readHeader_sizesFile (garbage : Garbage) (code initData uninitData : Word) :
    readHeader .littleEndian garbage (sizesFile code initData uninitData) =
      .ok ⟨noffMagic, ⟨0, 0, code⟩, ⟨0, 0, initData⟩, ⟨0, 0, uninitData⟩⟩ := by
  have hw (i : Nat) : Host.loadWord .littleEndian (sizesFile code initData uninitData).bytes (4 * i) =
      if i = 0 then noffMagic else if i = 3 then code else if i = 6 then initData else if i = 9 then uninitData
      else 0 := wordAt_ofWords _ i
  rw [readHeader_ofFile _ _ (le_refl _), NoffHeader.ofFile]
  simp only [NoffHeader.load, hw, NoffHeader.toHost]
  rfl

theorem new_sizesFile (code initData uninitData : Word)
    (h : (code + initData + uninitData + 1024).toNat ≤ 2 ^ 31 - 256) (garbage : Garbage) (name : Name) (threadID : Nat) :
    ∃ s files', new .littleEndian garbage (fun _ => some (sizesFile code initData uninitData)) name threadID =
      .ok (some s, files') :=
  new_completes threadID rfl (readHeader_sizesFile garbage code initData uninitData) rfl (size_fits (.inl h))

theorem sizes_exact_iff_small : ∃ (garbage : Garbage) (s : AddrSpace) (files' : Files),
    new .littleEndian garbage (fun _ => some (sizesFile 256 256 256)) [112] 0 = .ok (some s, files') ∧
      Exact ⟨noffMagic, ⟨0, 0, 256⟩, ⟨0, 0, 256⟩, ⟨0, 0, 256⟩⟩ files' s := by
  let garbage : Garbage := ⟨fun _ => 0, fun _ => 0, fun _ => ⟨0, 0, false, false, false, false⟩⟩
  obtain ⟨s, files', hn⟩ := new_sizesFile 256 256 256 (by decide) garbage [112] 0
  refine ⟨garbage, s, files', hn, ?_⟩
  exact (sizes_exact_iff rfl (readHeader_sizesFile garbage 256 256 256) hn).mpr (by decide)

theorem huge_program_wraps : ∃ (garbage : Garbage) (noffH : NoffHeader) (s : AddrSpace) (files' : Files),
    0 ≤ noffH.code.size.toInt ∧ 0 ≤ noffH.initData.size.toInt ∧ 0 ≤ noffH.uninitData.size.toInt ∧
      readHeader .littleEndian garbage (sizesFile 0x7fffffff 0x7fffffff 2) = .ok noffH ∧
      new .littleEndian garbage (fun _ => some (sizesFile 0x7fffffff 0x7fffffff 2)) [112] 0 = .ok (some s, files') ∧
      s.numPages = 4 ∧ ¬Exact noffH files' s := by
  let garbage : Garbage := ⟨fun _ => 0, fun _ => 0, fun _ => ⟨0, 0, false, false, false, false⟩⟩
  have hh := readHeader_sizesFile garbage 0x7fffffff 0x7fffffff 2
  obtain ⟨s, files', hn⟩ := new_sizesFile 0x7fffffff 0x7fffffff 2 (by decide) garbage [112] 0
  refine ⟨garbage, _, s, files', by decide, by decide, by decide, hh, hn, ?_, ?_⟩
  · apply BitVec.eq_of_toNat_eq
    rw [(new_built rfl hh hn).numPages_toNat]
    rfl
  · exact fun he => absurd he.total_le (by decide)

end AddrSpace

namespace Kernel

variable {host : Host} {garbage : Garbage} {files files' : Files} {name : Name} {threadID : Nat}
  {executable : UnixFile} {k : Kernel} {s s₀ : AddrSpace} {noffH : NoffHeader}

-- the arguments of `BitMap::Clear` between `SC_Exit` and `Thread::Finish`
def clearArguments (s : AddrSpace) : List Int := s.numPages.toInt :: (List.range numPhysPages).map Int.ofNat

def Clearable (which : Int) : Prop := 0 ≤ which ∧ which < numPhysPages

theorem clearArguments_iff (s : AddrSpace) : (∀ which ∈ clearArguments s, Clearable which) ↔ Clearable s.numPages.toInt := by
  simp only [clearArguments, List.forall_mem_cons, List.forall_mem_map, List.mem_range]
  constructor
  · exact And.left
  · intro h
    refine ⟨h, fun j hj => ⟨Int.natCast_nonneg j, ?_⟩⟩
    exact Int.ofNat_lt.mpr hj

theorem scExit_eq (hs : k.space = .ok s) :
    k.scExit = (do
      let bitMap ← (clearArguments s).foldlM (fun (b : BitMap) (which : Int) => b.clear which) k.bitMap
      .ok (.finished (finish { k with bitMap, files := Function.update k.files s.swapFileName none }))) := by
  simp only [scExit, hs, ok_bind, deleteSpace, clearArguments, List.foldlM_cons, List.foldlM_map, bind_assoc]
  rfl

theorem scExit_asserts (hb : k.bitMap.numBits = numPhysPages) (hs : k.space = .ok s) (h : ¬Clearable s.numPages.toInt) :
    k.scExit = .error .assertion := by
  have hn : ¬(0 ≤ s.numPages.toInt ∧ s.numPages.toInt < k.bitMap.numBits) := by
    rw [hb]
    exact h
  rw [scExit_eq hs, clearArguments, List.foldlM_cons, BitMap.clear, assert_neg hn]
  rfl

theorem clearable_iff (h : AddrSpace.Built garbage files noffH.size s) :
    Clearable s.numPages.toInt ↔ noffH.total % 2 ^ 32 ≤ 31 * pageSize := by
  have hn := h.numPages_toNat
  have hi : s.numPages.toInt = s.numPages.toNat := BitVec.toInt_eq_toNat_of_lt (by omega)
  rw [Clearable, hi, hn, pageSize_eq, numPhysPages]
  omega

theorem exit_asserts_iff (he : files name = some executable)
    (hh : AddrSpace.readHeader host garbage executable = .ok noffH)
    (hn : AddrSpace.new host garbage files name threadID = .ok (some s₀, files'))
    (hs : k.space = .ok s) (hp : s.numPages = s₀.numPages) (hb : k.bitMap.numBits = numPhysPages) :
    (k.scExit ≠ .error .assertion ↔ noffH.total % 2 ^ 32 ≤ 31 * pageSize) ∧
      ((∀ which ∈ clearArguments s, Clearable which) ↔ noffH.total % 2 ^ 32 ≤ 31 * pageSize) ∧
      (noffH.total % 2 ^ 32 ≤ 31 * pageSize → ∃ k', k.scExit = .ok (.finished k')) := by
  have hiff := clearable_iff (AddrSpace.new_built he hh hn)
  rw [← hp] at hiff
  rw [clearArguments_iff, ← hiff]
  have hok : Clearable s.numPages.toInt → ∃ k', k.scExit = .ok (.finished k') := fun h => scExit_completes hb hs h.1 h.2
  refine ⟨⟨?_, ?_⟩, Iff.rfl, hok⟩
  · intro h
    by_contra hc
    exact h (scExit_asserts hb hs hc)
  · intro h ha
    obtain ⟨k', hk⟩ := hok h
    rw [hk] at ha
    cases ha

theorem exit_asserts_iff_small : ∃ k₀ k' : Kernel, (boot 256).startProcess [112] = .ok (some k₀) ∧
    k₀.scExit = .ok (.finished k') := by
  obtain ⟨k₀, h⟩ := boot_startProcess 256 (by decide)
  obtain ⟨s, files, hn, rfl⟩ := startProcess_eq h
  have hb : ((boot 256).load s files).bitMap.numBits = numPhysPages := BitMap.new_numBits ..
  obtain ⟨k', hk⟩ := (exit_asserts_iff (boot_files 256) (readHeader_headerOnly _ 256) hn (load_space s files) rfl hb).2.2
    (by rw [pageSize_eq]; decide)
  exact ⟨_, k', h, hk⟩

theorem exit_of_large_program_asserts : ∃ k₀ : Kernel, (boot 7168).startProcess [112] = .ok (some k₀) ∧
    k₀.bitMap.numBits = numPhysPages ∧ k₀.scExit = .error .assertion := by
  obtain ⟨k₀, h⟩ := boot_startProcess 7168 (by decide)
  obtain ⟨s, files, hn, rfl⟩ := startProcess_eq h
  have hb : ((boot 7168).load s files).bitMap.numBits = numPhysPages := BitMap.new_numBits ..
  refine ⟨_, h, hb, scExit_asserts hb (load_space s files) ?_⟩
  rw [clearable_iff (AddrSpace.new_built (boot_files 7168) (readHeader_headerOnly _ 7168) hn), pageSize_eq]
  decide

end Kernel

end Nachos
