import Nachos.Bin.Coff2Noff
import Nachos.UserProg.DemandPaging

namespace Nachos

theorem UnixFile.writeAt_eq (f : UnixFile) (src : Buffer) {n : Nat} (hn : n ≠ 0) (position : Nat) :
    f.writeAt src n position = .ok ⟨max f.length (position + n),
      Buffer.copy (fun k => if k < f.length then f.bytes k else 0) position src n⟩ := by
  rw [writeAt, assert_pos (Int.natCast_nonneg position), ok_bind, if_neg hn, Int.toNat_natCast]

theorem NoffHeader.load_store (h : NoffHeader) : load .littleEndian (h.store .littleEndian) = h := by
  have hw (i : Nat) : Host.loadWord .littleEndian (h.store .littleEndian) (4 * i) = h.words i :=
    Buffer.wordAt_ofWords h.words i
  simp only [load, hw]
  rfl

namespace Coff2Noff

namespace Descriptor

variable {nBytes : Word}

theorem lseek_eq (fd : Descriptor) {offset : Word} (h : 0 ≤ offset.toInt) :
    fd.lseek offset = { fd with position := offset.toNat } := if_neg (not_lt.mpr h)

theorem read_eq (fd : Descriptor) (hn : 0 ≤ nBytes.toInt) : fd.read nBytes =
    if nBytes.toNat ≤ fd.file.length - fd.position then
      .ok (fun k => fd.file.bytes (fd.position + k), { fd with position := fd.position + nBytes.toNat })
    else .error .tooShort := by
  rw [read, if_neg (not_lt.mpr hn)]
  by_cases h : nBytes.toNat ≤ fd.file.length - fd.position
  · rw [if_pos h, if_neg (not_not.mpr (Nat.min_eq_left h))]
  · rw [if_neg h, if_pos (fun hc => h (min_eq_left_iff.mp hc))]

theorem write_eq (fd : Descriptor) (buf : Buffer) (hn : 0 ≤ nBytes.toInt) (h0 : nBytes.toNat ≠ 0) :
    fd.write buf nBytes =
      if fd.position + nBytes.toNat ≤ fileMax then
        .ok ⟨⟨max fd.file.length (fd.position + nBytes.toNat), Buffer.copy
          (fun k => if k < fd.file.length then fd.file.bytes k else 0) fd.position buf nBytes.toNat⟩,
          fd.position + nBytes.toNat⟩
      else .error .unableToWrite := by
  rw [write, if_neg (not_lt.mpr hn), UnixFile.writeAt_eq _ _ h0]
  by_cases h : fd.position + nBytes.toNat ≤ fileMax
  · rw [if_pos h, if_neg (not_lt.mpr h)]
  · rw [if_neg h, if_pos (not_le.mp h)]

end Descriptor

variable {coff out : UnixFile} {l : List Section} {s t : State} {sec : Section}

def nscns (coff : UnixFile) : Nat := (Host.loadShort .littleEndian coff.bytes 2).toNat

def sectionsOf (coff : UnixFile) : List Section :=
  (List.range (nscns coff)).map
    (Section.load .littleEndian fun k => coff.bytes (filehdrSize + aouthdrSize + k))

def ofKind (k : Kind) (l : List Section) : List Section := l.filter (fun sec => sec.size ≠ 0 ∧ sec.kind = some k)

def loaded (l : List Section) : List Section :=
  l.filter (fun sec => sec.size ≠ 0 ∧ (sec.kind = some .text ∨ sec.kind = some .data))

def total (l : List Section) : Nat := (l.map (fun sec => sec.size.toNat)).sum

theorem total_concat (l : List Section) (sec : Section) : total (l ++ [sec]) = total l + sec.size.toNat := by
  simp [total]

theorem filter_concat {α : Type} (p : α → Prop) [DecidablePred p] (l : List α) (a : α) :
    (l ++ [a]).filter (fun x => p x) = if p a then l.filter (fun x => p x) ++ [a] else l.filter (fun x => p x) := by
  rw [List.filter_append]
  by_cases h : p a
  · rw [if_pos h, List.filter_singleton, decide_eq_true h, cond_true]
  · rw [if_neg h, List.filter_singleton, decide_eq_false h, cond_false, List.append_nil]

theorem loaded_concat (l : List Section) (sec : Section) : loaded (l ++ [sec]) =
    if sec.size ≠ 0 ∧ (sec.kind = some .text ∨ sec.kind = some .data) then loaded l ++ [sec] else loaded l :=
  filter_concat (fun sec : Section => sec.size ≠ 0 ∧ (sec.kind = some .text ∨ sec.kind = some .data)) l sec

theorem ofKind_concat (k : Kind) (l : List Section) (sec : Section) : ofKind k (l ++ [sec]) =
    if sec.size ≠ 0 ∧ sec.kind = some k then ofKind k l ++ [sec] else ofKind k l :=
  filter_concat (fun sec : Section => sec.size ≠ 0 ∧ sec.kind = some k) l sec

structure Carries (coff out : UnixFile) (seg : Segment) (sec : Section) : Prop where
  virtualAddr : seg.virtualAddr = sec.paddr
  size : seg.size = sec.size
  inside : seg.inFileAddr.toNat + sec.size.toNat ≤ out.length
  bytes : ∀ k < sec.size.toNat, out.bytes (seg.inFileAddr.toNat + k) = coff.bytes (sec.scnptr.toNat + k)

def uninitSize (l : List Section) : Word := l.foldl (fun size sec => size + sec.size) 0

theorem uninitSize_concat (l : List Section) (sec : Section) : uninitSize (l ++ [sec]) = uninitSize l + sec.size :=
  List.foldl_append

theorem uninitSize_toNat (h : total l < 2 ^ 31) : (uninitSize l).toNat = total l := by
  induction l using List.reverseRecOn with
  | nil => rfl
  | append_singleton l sec ih =>
    rw [total_concat] at h ⊢
    rw [uninitSize_concat, BitVec.toNat_add, ih (by omega), Nat.mod_eq_of_lt (by omega)]

def Slot (coff out : UnixFile) (seg : Segment) : Option Section → Prop
  | none => seg.size = 0
  | some sec => Carries coff out seg sec ∧ noffHeaderSize ≤ seg.inFileAddr.toNat

theorem Slot.inside {seg : Segment} {o : Option Section} (h : Slot coff out seg o) (hne : seg.size ≠ 0) :
    seg.inFileAddr.toNat + seg.size.toNat ≤ out.length := by
  cases o with
  | none => exact absurd h hne
  | some sec =>
    rw [h.1.size]
    exact h.1.inside

structure Reached (coff : UnixFile) (l : List Section) (s : State) : Prop where
  fdIn : s.fdIn.file = coff
  position : s.fdOut.position = noffHeaderSize + total (loaded l)
  length : s.fdOut.file.length ≤ s.fdOut.position
  room : s.fdOut.position ≤ fileMax
  inNoffFile : s.inNoffFile = .ofNat 32 s.fdOut.position
  magic : s.noffH.noffMagic = noffMagic
  code : Slot coff s.fdOut.file s.noffH.code (ofKind .text l).getLast?
  initData : Slot coff s.fdOut.file s.noffH.initData (ofKind .data l).getLast?
  apart : s.noffH.code.size ≠ 0 → s.noffH.initData.size ≠ 0 →
    s.noffH.code.inFileAddr.toNat + s.noffH.code.size.toNat ≤ s.noffH.initData.inFileAddr.toNat ∨
      s.noffH.initData.inFileAddr.toNat + s.noffH.initData.size.toNat ≤ s.noffH.code.inFileAddr.toNat
  uninit : s.noffH.uninitData.size = uninitSize (ofKind .bss l)
  uninitAddr : ∀ sec, (ofKind .bss l).head? = some sec → s.noffH.uninitData.virtualAddr = sec.paddr

theorem mem_ofKind {k : Kind} : sec ∈ ofKind k l ↔ sec ∈ l ∧ sec.size ≠ 0 ∧ sec.kind = some k := by simp [ofKind]

theorem mem_loaded : sec ∈ loaded l ↔ sec ∈ l ∧ sec.size ≠ 0 ∧ (sec.kind = some .text ∨ sec.kind = some .data) := by
  simp [loaded]

structure Section.Proper (sec : Section) : Prop where
  size : 0 ≤ sec.size.toInt
  scnptr : 0 ≤ sec.scnptr.toInt

theorem toNat_ne_zero {w : Word} (h : w ≠ 0) : w.toNat ≠ 0 := fun hc => h (BitVec.eq_of_toNat_eq hc)

def State.appendRaw (s : State) (sec : Section) : UnixFile :=
  ⟨max s.fdOut.file.length (s.fdOut.position + sec.size.toNat),
    Buffer.copy (fun k => if k < s.fdOut.file.length then s.fdOut.file.bytes k else 0) s.fdOut.position
      (fun k => s.fdIn.file.bytes (sec.scnptr.toNat + k)) sec.size.toNat⟩

theorem State.copySegment_eq (s : State) (hp : sec.Proper) (h0 : sec.size ≠ 0) : s.copySegment sec =
    if s.fdIn.file.length < sec.scnptr.toNat + sec.size.toNat then .error .tooShort
    else if fileMax < s.fdOut.position + sec.size.toNat then .error .unableToWrite
    else .ok ⟨⟨s.fdIn.file, sec.scnptr.toNat + sec.size.toNat⟩,
      ⟨s.appendRaw sec, s.fdOut.position + sec.size.toNat⟩, s.noffH, s.inNoffFile + sec.size⟩ := by
  have hn := toNat_ne_zero h0
  rw [copySegment, Descriptor.lseek_eq _ hp.scnptr, Descriptor.read_eq _ hp.size]
  dsimp only
  by_cases hr : s.fdIn.file.length < sec.scnptr.toNat + sec.size.toNat
  · rw [if_pos hr, if_neg (by omega)]
    rfl
  rw [if_neg hr, if_pos (by omega), ok_bind]
  dsimp only
  rw [Descriptor.write_eq _ _ hp.size hn]
  by_cases hw : fileMax < s.fdOut.position + sec.size.toNat
  · rw [if_pos hw, if_neg (by omega)]
    rfl
  · rw [if_neg hw, if_pos (by omega)]
    rfl

section Append

variable (h : Reached coff l s)
include h

theorem Reached.inNoffFile_toNat : s.inNoffFile.toNat = s.fdOut.position := by
  have hr := h.room
  unfold fileMax at hr
  rw [h.inNoffFile, BitVec.toNat_ofNat, Nat.mod_eq_of_lt (by omega)]

theorem Reached.append_new (sec : Section) :
    Slot coff (s.appendRaw sec) ⟨sec.paddr, s.inNoffFile, sec.size⟩ (some sec) := by
  have hpos : noffHeaderSize ≤ s.fdOut.position := by
    rw [h.position]
    exact Nat.le_add_right ..
  refine ⟨⟨rfl, rfl, ?_, fun k hk => ?_⟩, by rw [h.inNoffFile_toNat]; exact hpos⟩
  · rw [h.inNoffFile_toNat]
    exact Nat.le_max_right ..
  · unfold State.appendRaw
    dsimp only
    rw [h.inNoffFile_toNat, Buffer.copy_inside (by omega) (by omega), Nat.add_sub_cancel_left, h.fdIn]

theorem Reached.append_old {seg : Segment} {o : Option Section} (hc : Slot coff s.fdOut.file seg o) (sec : Section) :
    Slot coff (s.appendRaw sec) seg o := by
  cases o with
  | none => exact hc
  | some old =>
    obtain ⟨hc, hle⟩ := hc
    have hl := h.length
    have hi := hc.inside
    refine ⟨⟨hc.virtualAddr, hc.size, hi.trans (Nat.le_max_left ..), fun k hk => ?_⟩, hle⟩
    unfold State.appendRaw
    dsimp only
    rw [Buffer.copy_outside (by omega), if_pos (by omega)]
    exact hc.bytes k hk

end Append

theorem uninitSize_eq_zero (hl : ∀ sec ∈ l, sec.size ≠ 0) (ht : total l < 2 ^ 31) : uninitSize l = 0 ↔ l = [] := by
  constructor
  · intro h
    cases l with
    | nil => rfl
    | cons sec l =>
      have h0 := congrArg BitVec.toNat h
      rw [uninitSize_toNat ht] at h0
      have hs := toNat_ne_zero (hl sec (List.mem_cons_self ..))
      simp [total] at h0
      omega
  · rintro rfl
    rfl

theorem Reached.initData_size (h : Reached coff l s) : s.noffH.initData.size = 0 ↔ ofKind .data l = [] := by
  have hd := h.initData
  constructor
  · intro h0
    cases hl : (ofKind .data l).getLast? with
    | none => exact List.getLast?_eq_none_iff.mp hl
    | some sec =>
      rw [hl] at hd
      rw [hd.1.size] at h0
      exact absurd h0 (mem_ofKind.mp (List.mem_of_getLast? hl)).2.1
  · intro h0
    rw [h0] at hd
    exact hd

end Coff2Noff

end Nachos
