import Nachos.UserProg.DemandPaging

namespace Nachos

open Buffer Machine

namespace AddrSpace

variable {garbage : Garbage} {files files' : Files} {name swap : Name} {threadID : Nat}
  {f : UnixFile} {s : AddrSpace} {size : Word}

/-- The bytes the constructor copies: `Create` has truncated the executable when it is the swap file. -/
def source (f : UnixFile) (name swap : Name) : UnixFile := if name = swap then .empty else f

theorem makeSwap_bytes (he : files name = some f) (h : makeSwap garbage files name swap size = .ok files') :
    ∃ swapFile, files' swap = some swapFile ∧ swapFile.length = size.toNat ∧
      ∀ a < size.toNat, swapFile.bytes a = if noffHeaderSize + a < (source f name swap).length then
        (source f name swap).bytes (noffHeaderSize + a) else garbage.buffer a := by
  obtain ⟨block, hb, h⟩ := bind_eq_ok.mp h
  obtain ⟨-, rfl⟩ := Block.new_eq_ok hb
  have hsrc : Function.update files swap (some UnixFile.empty) name = some (source f name swap) := by
    unfold source
    split_ifs with hn
    · rw [hn, Function.update_self]
    · rw [Function.update_of_ne hn, he]
  simp only [hsrc, UnixFile.readAt, UnixFile.writeAt, assert_pos (Int.natCast_nonneg _), assert_pos (le_refl (0 : Int)),
    ok_bind] at h
  split_ifs at h with hz
  · cases h
    refine ⟨_, Function.update_self .., hz.symm, fun a ha => ?_⟩
    omega
  · cases h
    refine ⟨_, Function.update_self .., by simp [UnixFile.empty], fun a ha => ?_⟩
    simp only [Int.toNat_zero]
    rw [copy_inside (by omega) (by omega), Nat.sub_zero]
    split_ifs with hl
    · rw [copy_inside (by omega) (by simp only [Int.toNat_natCast]; omega), Nat.sub_zero]
      rfl
    · rw [copy_outside (by simp only [Int.toNat_natCast]; omega)]

end AddrSpace

namespace Kernel

variable {k k' : Kernel} {s : AddrSpace} {f : UnixFile} {p i : Nat}

end Kernel

namespace Segment

/-- The members are of type `int`: a segment of negative size has no bytes. -/
def length (s : Segment) : Nat := s.size.toInt.toNat

def start (s : Segment) : Nat := s.virtualAddr.toInt.toNat

def inFile (s : Segment) : Nat := s.inFileAddr.toInt.toNat

def Apart (s t : Segment) : Prop := ∀ i < s.length, ∀ j < t.length, s.start + i ≠ t.start + j

def Inside (s : Segment) (n : Nat) : Prop := 0 ≤ s.virtualAddr.toInt ∧ s.start + s.length ≤ n

def Contained (s : Segment) (f : UnixFile) : Prop := 0 ≤ s.inFileAddr.toInt ∧ s.inFile + s.length ≤ f.length

end Segment

namespace Loading

open AddrSpace Kernel

structure Program where
  host : Host
  files : Files
  name : Name
  threadID : Nat
  file : UnixFile
  found : files name = some file
  whole : noffHeaderSize ≤ file.length
  magic : (NoffHeader.ofFile host file).noffMagic = noffMagic

namespace Program

def header (x : Program) : NoffHeader := .ofFile x.host x.file

def numPages (x : Program) : Nat := (pagesFor x.header.size).toNat

def size (x : Program) : Word := pagesFor x.header.size * .ofNat 32 pageSize

/-- The byte of the file that stands where the constructor takes the byte of address `a` from. -/
def copied (x : Program) (a : Nat) : Option Byte :=
  if x.name ≠ swapName x.threadID ∧ a < x.size.toNat ∧ noffHeaderSize + a < x.file.length then
    some (x.file.bytes (noffHeaderSize + a))
  else none

def InOrder (x : Program) : Prop :=
  (∀ j < x.header.code.length,
    x.copied (x.header.code.start + j) = some (x.file.bytes (x.header.code.inFile + j))) ∧
  (∀ j < x.header.initData.length,
    x.copied (x.header.initData.start + j) = some (x.file.bytes (x.header.initData.inFile + j))) ∧
  ∀ j < x.header.uninitData.length, x.copied (x.header.uninitData.start + j) = some 0

structure WellFormed (x : Program) : Prop where
  codeInit : x.header.code.Apart x.header.initData
  codeUninit : x.header.code.Apart x.header.uninitData
  initUninit : x.header.initData.Apart x.header.uninitData
  code : x.header.code.Inside (x.numPages * pageSize)
  initData : x.header.initData.Inside (x.numPages * pageSize)
  uninitData : x.header.uninitData.Inside (x.numPages * pageSize)
  codeBytes : x.header.code.Contained x.file
  initDataBytes : x.header.initData.Contained x.file

variable {x : Program} {a : Nat} {b : Byte}

def sampleFile (tail : Nat) : UnixFile :=
  ⟨48 + tail, ofWords fun i => if i = 0 then noffMagic else if i = 2 then 40 else if i = 5 then 44 else if i = 7 then 8
    else if i ∈ [3, 4, 6, 9] then 4 else if i = 10 then 0x24020001 else if i = 11 then 7 else 0⟩

theorem sampleFile_header (tail : Nat) : NoffHeader.ofFile .littleEndian (sampleFile tail) =
    ⟨noffMagic, ⟨0, 40, 4⟩, ⟨4, 44, 4⟩, ⟨8, 0, 4⟩⟩ := by
  have hw (i : Nat) : Host.loadWord .littleEndian (sampleFile tail).bytes (4 * i) =
      if i = 0 then noffMagic else if i = 2 then 40 else if i = 5 then 44 else if i = 7 then 8
        else if i ∈ [3, 4, 6, 9] then 4 else if i = 10 then 0x24020001 else if i = 11 then 7 else 0 := wordAt_ofWords _ i
  simp only [NoffHeader.ofFile, NoffHeader.load, hw]
  rfl

def sample (tail : Nat) : Program where
  host := .littleEndian
  files name := if name = [112] then some (sampleFile tail) else none
  name := [112]
  threadID := 1
  file := sampleFile tail
  found := if_pos rfl
  whole := (by omega : 40 ≤ 48 + tail)
  magic := by rw [sampleFile_header]

theorem swapName_ne (threadID : Nat) : [112] ≠ swapName threadID := by
  intro h
  have hl := congrArg List.length h
  simp [swapName] at hl

end Program

end Loading

end Nachos
