import Nachos.Bin.SectionLoop

namespace Nachos.Coff2Noff

variable {coff out : UnixFile} {l : List Section} {s t : State} {sec : Section}

structure Headers (coff : UnixFile) : Prop where
  magic : Host.loadShort .littleEndian coff.bytes 0 = mipselMagic
  omagic : Host.loadShort .littleEndian coff.bytes filehdrSize = Coff2Noff.omagic
  length : filehdrSize + aouthdrSize + nscns coff * scnhdrSize ≤ coff.length

def start (garbage : NoffHeader) (coff : UnixFile) (position : Nat) : State :=
  ⟨⟨coff, position⟩, ⟨.empty, noffHeaderSize⟩, initialHeader garbage, .ofNat 32 noffHeaderSize⟩

theorem start_reached (garbage : NoffHeader) (coff : UnixFile) (position : Nat) :
    Reached coff [] (start garbage coff position) := by
  refine ⟨rfl, rfl, Nat.zero_le _, ?_, rfl, rfl, rfl, rfl, fun hc => absurd rfl hc, rfl, fun sec hs => by cases hs⟩
  change noffHeaderSize ≤ fileMax
  unfold fileMax noffHeaderSize
  omega

def writeHeader (s : State) : Except Failure UnixFile := do
  let fdOut ← (s.fdOut.lseek 0).write (s.noffH.store .littleEndian) (.ofNat 32 noffHeaderSize)
  .ok fdOut.file

theorem read_small (coff : UnixFile) (position : Nat) {n : Nat} (hn : n < 2 ^ 31) :
    Descriptor.read ⟨coff, position⟩ (.ofNat 32 n) =
      if n ≤ coff.length - position then .ok (fun k => coff.bytes (position + k), ⟨coff, position + n⟩)
      else .error .tooShort := by
  have ht : (BitVec.ofNat 32 n).toNat = n := by rw [BitVec.toNat_ofNat, Nat.mod_eq_of_lt (by omega)]
  have hi : 0 ≤ (BitVec.ofNat 32 n).toInt := by
    rw [BitVec.toInt_eq_toNat_of_lt (by omega)]
    exact Int.natCast_nonneg _
  rw [Descriptor.read_eq _ hi, ht]

theorem main_eq (garbage : NoffHeader) (coff : UnixFile) : main .littleEndian garbage coff =
    if filehdrSize ≤ coff.length then
      if Host.loadShort .littleEndian coff.bytes 0 ≠ mipselMagic then .error .notMipsel
      else if aouthdrSize ≤ coff.length - filehdrSize then
        if Host.loadShort .littleEndian coff.bytes filehdrSize ≠ omagic then .error .notOmagic
        else if nscns coff * scnhdrSize ≤ coff.length - (filehdrSize + aouthdrSize) then
          (sectionsOf coff).foldlM State.copySection
            (start garbage coff (filehdrSize + aouthdrSize + nscns coff * scnhdrSize)) >>= writeHeader
        else .error .tooShort
      else .error .tooShort
    else .error .tooShort := by
  have hshort (x : BitVec 16) : shortToHost .littleEndian x = x := rfl
  have hn := (Host.loadShort .littleEndian coff.bytes 2).isLt
  have hsize : nscns coff * scnhdrSize < 2 ^ 31 := by
    unfold nscns scnhdrSize
    omega
  unfold main
  rw [read_small _ _ (by decide), Nat.sub_zero]
  by_cases hf : filehdrSize ≤ coff.length
  · rw [if_pos hf, if_pos hf, ok_bind]
    simp only [hshort, Nat.zero_add]
    apply ite_congr rfl (fun _ => rfl)
    intro _
    rw [read_small _ _ (by decide)]
    by_cases ha : aouthdrSize ≤ coff.length - filehdrSize
    · rw [if_pos ha, if_pos ha, ok_bind]
      apply ite_congr rfl (fun _ => rfl)
      intro _
      change (Descriptor.read ⟨coff, filehdrSize + aouthdrSize⟩ (.ofNat 32 (nscns coff * scnhdrSize)) >>= _) = _
      rw [read_small _ _ hsize]
      by_cases hs : nscns coff * scnhdrSize ≤ coff.length - (filehdrSize + aouthdrSize)
      · rw [if_pos hs, if_pos hs]
        rfl
      · rw [if_neg hs, if_neg hs]
        rfl
    · rw [if_neg ha, if_neg ha]
      rfl
  · rw [if_neg hf, if_neg hf]
    rfl

theorem main_of_headers (garbage : NoffHeader) (h : Headers coff) : main .littleEndian garbage coff =
    (sectionsOf coff).foldlM State.copySection
      (start garbage coff (filehdrSize + aouthdrSize + nscns coff * scnhdrSize)) >>= writeHeader := by
  have hlen := h.length
  rw [main_eq, if_pos (by omega), if_neg (not_not.mpr h.magic), if_pos (by omega), if_neg (not_not.mpr h.omagic),
    if_pos (by omega)]

theorem main_without_headers (garbage : NoffHeader) (h : ¬Headers coff) : ∃ e, main .littleEndian garbage coff = .error e := by
  rw [main_eq]
  by_cases hf : filehdrSize ≤ coff.length
  · rw [if_pos hf]
    by_cases hm : Host.loadShort .littleEndian coff.bytes 0 = mipselMagic
    · rw [if_neg (not_not.mpr hm)]
      by_cases ha : aouthdrSize ≤ coff.length - filehdrSize
      · rw [if_pos ha]
        by_cases ho : Host.loadShort .littleEndian coff.bytes filehdrSize = omagic
        · rw [if_neg (not_not.mpr ho), if_neg (fun hs => h ⟨hm, ho, by omega⟩)]
          exact ⟨_, rfl⟩
        · rw [if_pos ho]
          exact ⟨_, rfl⟩
      · rw [if_neg ha]
        exact ⟨_, rfl⟩
    · rw [if_pos hm]
      exact ⟨_, rfl⟩
  · rw [if_neg hf]
    exact ⟨_, rfl⟩

structure Accepted (coff out : UnixFile) (h : NoffHeader) : Prop where
  code : Slot coff out h.code (ofKind .text (sectionsOf coff)).getLast?
  initData : Slot coff out h.initData (ofKind .data (sectionsOf coff)).getLast?
  apart : h.code.size ≠ 0 → h.initData.size ≠ 0 →
    h.code.inFileAddr.toNat + h.code.size.toNat ≤ h.initData.inFileAddr.toNat ∨
      h.initData.inFileAddr.toNat + h.initData.size.toNat ≤ h.code.inFileAddr.toNat
  uninit : h.uninitData.size = uninitSize (ofKind .bss (sectionsOf coff))
  uninitAddr : ∀ sec, (ofKind .bss (sectionsOf coff)).head? = some sec → h.uninitData.virtualAddr = sec.paddr

def State.withHeader (s : State) : UnixFile :=
  ⟨max s.fdOut.file.length noffHeaderSize,
    Buffer.copy (fun k => if k < s.fdOut.file.length then s.fdOut.file.bytes k else 0) 0
      (s.noffH.store .littleEndian) noffHeaderSize⟩

theorem writeHeader_eq (s : State) : writeHeader s = .ok s.withHeader := by
  have hfits : (Descriptor.mk s.fdOut.file (0 : Word).toNat).position + (BitVec.ofNat 32 noffHeaderSize).toNat ≤
      fileMax := by
    change 0 + noffHeaderSize ≤ fileMax
    decide
  rw [writeHeader, Descriptor.lseek_eq _ (by decide), Descriptor.write_eq _ _ (by decide) (by decide), if_pos hfits]
  rfl

theorem withHeader_header (hm : s.noffH.noffMagic = noffMagic) :
    NoffHeader.ofFile .littleEndian s.withHeader = s.noffH := by
  have hload : NoffHeader.load .littleEndian s.withHeader.bytes = s.noffH := by
    refine (NoffHeader.load_congr .littleEndian fun k hk => ?_).trans s.noffH.load_store
    unfold State.withHeader
    dsimp only
    rw [Buffer.copy_inside (Nat.zero_le k) (by omega), Nat.sub_zero]
  rw [NoffHeader.ofFile, hload, NoffHeader.toHost, if_neg (fun hc => hc.1 hm)]

theorem Slot.withHeader {seg : Segment} {o : Option Section} (h : Slot coff s.fdOut.file seg o) :
    Slot coff s.withHeader seg o := by
  cases o with
  | none => exact h
  | some sec =>
    obtain ⟨hc, hle⟩ := h
    have hi := hc.inside
    refine ⟨⟨hc.virtualAddr, hc.size, hi.trans (Nat.le_max_left ..), fun k hk => ?_⟩, hle⟩
    unfold State.withHeader
    dsimp only
    rw [Buffer.copy_outside (.inr (by omega)), if_pos (by omega)]
    exact hc.bytes k hk

theorem Reached.accepted (h : Reached coff (sectionsOf coff) s) :
    Accepted coff s.withHeader (.ofFile .littleEndian s.withHeader) := by
  rw [withHeader_header h.magic]
  exact ⟨h.code.withHeader, h.initData.withHeader, h.apart, h.uninit, h.uninitAddr⟩

structure CoffFile where
  file : UnixFile
  proper : ∀ sec ∈ loaded (sectionsOf file), sec.Proper
  uninit : total (ofKind .bss (sectionsOf file)) < 2 ^ 31

structure Sound (coff : UnixFile) : Prop where
  headers : Headers coff
  body : Body coff (sectionsOf coff)

theorem main_accepts (garbage : NoffHeader) (coff : CoffFile) (h : Sound coff.file)
    (hh : ¬Hit (ofKind .bss (sectionsOf coff.file))) : ∃ out, main .littleEndian garbage coff.file = .ok out ∧
      Accepted coff.file out (.ofFile .littleEndian out) := by
  obtain ⟨s, hs, hr⟩ := (loop (start_reached garbage coff.file _) coff.proper coff.uninit).1 ⟨h.body, hh⟩
  rw [main_of_headers garbage h.headers, hs, ok_bind, writeHeader_eq]
  exact ⟨_, rfl, hr.accepted⟩

theorem main_rejects (garbage : NoffHeader) (coff : CoffFile)
    (h : ¬(Sound coff.file ∧ ¬Hit (ofKind .bss (sectionsOf coff.file)))) :
    ∃ e, main .littleEndian garbage coff.file = .error e := by
  by_cases hd : Headers coff.file
  · obtain ⟨e, he⟩ := (loop (start_reached garbage coff.file _) coff.proper coff.uninit).2
      fun hb => h ⟨⟨hd, hb.1⟩, hb.2⟩
    rw [main_of_headers garbage hd, he]
    exact ⟨e, rfl⟩
  · exact main_without_headers garbage hd

def Contiguous (l : List Section) : Prop := l.IsChain (fun a b => b.paddr = a.paddr + a.size)

structure ImageKept (coff out : UnixFile) (h : NoffHeader) : Prop where
  loaded : ∀ sec ∈ loaded (sectionsOf coff), Carries coff out h.code sec ∨ Carries coff out h.initData sec
  behindHeader : ∀ seg, seg = h.code ∨ seg = h.initData → ∀ i < seg.size.toNat, noffHeaderSize ≤ seg.inFileAddr.toNat + i
  apart : ∀ i < h.code.size.toNat, ∀ j < h.initData.size.toNat,
    h.code.inFileAddr.toNat + i ≠ h.initData.inFileAddr.toNat + j
  uninit : ∀ a : Word, (∃ sec ∈ ofKind .bss (sectionsOf coff), ∃ k < sec.size.toNat, a = sec.paddr + .ofNat 32 k) ↔
    ∃ k < h.uninitData.size.toNat, a = h.uninitData.virtualAddr + .ofNat 32 k

/-- What `coff2noff` is for: the files that it makes hold the program, and of the files that are otherwise in order it
takes those whose uninitialised sections are contiguous. -/
def Preserves (garbage : NoffHeader) (coff : UnixFile) : Prop :=
  (∀ out, main .littleEndian garbage coff = .ok out →
    ImageKept coff out (.ofFile .littleEndian out) ∧ Contiguous (ofKind .bss (sectionsOf coff))) ∧
  (Sound coff → Contiguous (ofKind .bss (sectionsOf coff)) → ∃ out, main .littleEndian garbage coff = .ok out)

structure SameImage (coff : UnixFile) (a b : Section) : Prop where
  paddr : a.paddr = b.paddr
  size : a.size = b.size
  bytes : ∀ k < a.size.toNat, coff.bytes (a.scnptr.toNat + k) = coff.bytes (b.scnptr.toNat + k)

def TextsAgree (coff : UnixFile) : Prop :=
  ∀ sec ∈ ofKind .text (sectionsOf coff), (∃ last, (ofKind .text (sectionsOf coff)).getLast? = some last ∧
    SameImage coff sec last) ∨ ∃ data ∈ ofKind .data (sectionsOf coff), SameImage coff sec data

theorem Carries.same {seg : Segment} {a b : Section} (ha : Carries coff out seg a) (hb : Carries coff out seg b) :
    SameImage coff a b := by
  have hsize := ha.size.symm.trans hb.size
  refine ⟨ha.virtualAddr.symm.trans hb.virtualAddr, hsize, fun k hk => ?_⟩
  rw [← ha.bytes k hk, hb.bytes k (hsize ▸ hk)]

theorem Carries.of_same {seg : Segment} {a b : Section} (hb : Carries coff out seg b) (h : SameImage coff a b) :
    Carries coff out seg a := by
  refine ⟨hb.virtualAddr.trans h.paddr.symm, hb.size.trans h.size.symm, ?_, fun k hk => ?_⟩
  · rw [h.size]
    exact hb.inside
  · rw [h.bytes k hk, hb.bytes k (h.size ▸ hk)]

theorem Slot.behindHeader {seg : Segment} {o : Option Section} (h : Slot coff out seg o) {i : Nat}
    (hi : i < seg.size.toNat) : noffHeaderSize ≤ seg.inFileAddr.toNat + i := by
  cases o with
  | none =>
    rw [show seg.size = 0 from h] at hi
    cases hi
  | some sec => exact h.2.trans (Nat.le_add_right ..)

theorem Contiguous.hit (h : Contiguous l) (hl : 2 ≤ l.length) : Hit l := by
  match l, hl with
  | a :: b :: rest, _ =>
    refine ⟨[a], b, rest, rfl, by simp, ?_⟩
    rw [(List.isChain_cons_cons.mp h).1]
    exact congrArg (a.paddr + ·) (BitVec.zero_add _).symm

theorem not_hit (hl : l.length ≤ 1) : ¬Hit l := by
  rintro ⟨a, sec, b, rfl, hne, -⟩
  have ha := List.length_pos_iff.mpr hne
  simp at hl
  omega

theorem contiguous_of_length (hl : l.length ≤ 1) : Contiguous l := by
  match l, hl with
  | [], _ => exact .nil
  | [a], _ => exact .singleton a

section Image

variable {h : NoffHeader} (ha : Accepted coff out h)
include ha

theorem Accepted.uninit_covered (hl : (ofKind .bss (sectionsOf coff)).length ≤ 1) (a : Word) :
    (∃ sec ∈ ofKind .bss (sectionsOf coff), ∃ k < sec.size.toNat, a = sec.paddr + .ofNat 32 k) ↔
      ∃ k < h.uninitData.size.toNat, a = h.uninitData.virtualAddr + .ofNat 32 k := by
  have hsize := ha.uninit
  have haddr := ha.uninitAddr
  generalize ofKind .bss (sectionsOf coff) = l at hl hsize haddr
  match l, hl with
  | [], _ =>
    rw [hsize]
    simp [uninitSize]
  | [sec], _ =>
    rw [haddr sec rfl, hsize, show uninitSize [sec] = sec.size from BitVec.zero_add _]
    simp

theorem Accepted.carries_data (hd : (ofKind .data (sectionsOf coff)).length ≤ 1) {sec : Section}
    (hm : sec ∈ ofKind .data (sectionsOf coff)) : Carries coff out h.initData sec := by
  have hs := ha.initData
  generalize ofKind .data (sectionsOf coff) = l at hd hm hs
  match l, hd with
  | [d], _ =>
    obtain rfl := List.mem_singleton.mp hm
    exact hs.1

theorem Accepted.imageKept (hu : (ofKind .bss (sectionsOf coff)).length ≤ 1)
    (hd : (ofKind .data (sectionsOf coff)).length ≤ 1) (ht : TextsAgree coff) : ImageKept coff out h := by
  constructor
  case loaded =>
    intro sec hm
    obtain ⟨hl, h0, hk | hk⟩ : sec ∈ sectionsOf coff ∧ sec.size ≠ 0 ∧
      (sec.kind = some .text ∨ sec.kind = some .data) := by simpa [loaded] using hm
    · obtain ⟨last, hlast, hs⟩ | ⟨data, hdata, hs⟩ := ht sec (mem_ofKind.mpr ⟨hl, h0, hk⟩)
      · have hc := ha.code
        rw [hlast] at hc
        exact .inl (hc.1.of_same hs)
      · exact .inr ((ha.carries_data hd hdata).of_same hs)
    · exact .inr (ha.carries_data hd (mem_ofKind.mpr ⟨hl, h0, hk⟩))
  case behindHeader =>
    rintro seg (rfl | rfl) i hi
    · exact ha.code.behindHeader hi
    · exact ha.initData.behindHeader hi
  case apart =>
    intro i hi j hj
    have hc : h.code.size ≠ 0 := by
      rintro h0
      rw [h0] at hi
      cases hi
    have hd : h.initData.size ≠ 0 := by
      rintro h0
      rw [h0] at hj
      cases hj
    have := ha.apart hc hd
    omega
  case uninit => exact ha.uninit_covered hu

theorem Accepted.textsAgree (hi : ImageKept coff out h) : TextsAgree coff := by
  intro sec hm
  obtain ⟨hl, h0, hk⟩ := mem_ofKind.mp hm
  obtain hc | hc := hi.loaded sec (List.mem_filter.mpr ⟨hl, decide_eq_true ⟨h0, .inl hk⟩⟩)
  · left
    have hs := ha.code
    cases hlast : (ofKind .text (sectionsOf coff)).getLast? with
    | none =>
      rw [List.getLast?_eq_none_iff.mp hlast] at hm
      cases hm
    | some last =>
      rw [hlast] at hs
      exact ⟨last, rfl, hc.same hs.1⟩
  · right
    have hs := ha.initData
    cases hlast : (ofKind .data (sectionsOf coff)).getLast? with
    | none =>
      rw [hlast] at hs
      exact absurd (hc.size.symm.trans hs) h0
    | some data =>
      rw [hlast] at hs
      exact ⟨data, List.mem_of_getLast? hlast, hc.same hs.1⟩

end Image

/-- `coff2noff` does its work on the files that it rejects for another reason, on those with one uninitialised section
at most whose `.text` sections agree, and on those that it rejects because the sizes of uninitialised sections that are not
contiguous add up to the place of one of them. -/
theorem image_preserved_iff (garbage : NoffHeader) (coff : CoffFile) : Preserves garbage coff.file ↔
    (Sound coff.file → (ofKind .bss (sectionsOf coff.file)).length ≤ 1 ∧ TextsAgree coff.file ∨
      ¬Contiguous (ofKind .bss (sectionsOf coff.file)) ∧ Hit (ofKind .bss (sectionsOf coff.file))) := by
  by_cases hs : Sound coff.file
  · rw [imp_iff_right hs]
    unfold Preserves
    rw [imp_iff_right hs]
    by_cases hh : Hit (ofKind .bss (sectionsOf coff.file))
    · obtain ⟨e, he⟩ := main_rejects garbage coff fun hc => hc.2 hh
      have hlen : ¬(ofKind .bss (sectionsOf coff.file)).length ≤ 1 := fun hl => not_hit hl hh
      rw [he]
      constructor
      · rintro ⟨-, hacc⟩
        refine .inr ⟨fun hc => ?_, hh⟩
        obtain ⟨out, ho⟩ := hacc hc
        cases ho
      · rintro (⟨hl, -⟩ | ⟨hc, -⟩)
        · exact absurd hl hlen
        · exact ⟨fun out ho => (by cases ho), fun hc' => absurd hc' hc⟩
    · obtain ⟨out, ho, ha⟩ := main_accepts garbage coff hs hh
      rw [ho]
      constructor
      · rintro ⟨hkept, -⟩
        obtain ⟨hi, hc⟩ := hkept out rfl
        refine .inl ⟨?_, ha.textsAgree hi⟩
        by_contra hl
        exact hh (hc.hit (by omega))
      · rintro (⟨hl, ht⟩ | ⟨-, hc⟩)
        · refine ⟨fun out' ho' => ?_, fun _ => ⟨out, rfl⟩⟩
          obtain rfl := Except.ok.inj ho'
          exact ⟨ha.imageKept hl hs.body.data ht, contiguous_of_length hl⟩
        · exact absurd hc hh
  · obtain ⟨e, he⟩ := main_rejects garbage coff fun hc => hs hc.1
    unfold Preserves
    rw [he]
    exact ⟨fun _ hc => absurd hc hs, fun _ => ⟨fun out ho => (by cases ho), fun hc => absurd hc hs⟩⟩

theorem textsAgree_of_length (hl : (ofKind .text (sectionsOf coff)).length ≤ 1) : TextsAgree coff := by
  intro sec hm
  left
  generalize ofKind .text (sectionsOf coff) = l at hl hm
  match l, hl with
  | [last], _ =>
    obtain rfl := List.mem_singleton.mp hm
    exact ⟨sec, rfl, rfl, rfl, fun _ _ => rfl⟩

def plainFile : UnixFile :=
  ⟨204, Buffer.ofWords fun i => if i = 0 then 0x00030162 else if i = 5 then 0x0107
    else if i = 19 then 0x7865742e else if i = 20 then 0x74 else if i = 24 then 196
    else if i = 29 then 0x7461642e else if i = 30 then 0x61 else if i = 34 then 200
    else if i = 39 then 0x7373622e else if i = 41 then 8
    else if i ∈ [23, 31, 33, 43] then 4 else if i = 49 then 0x24020001 else if i = 50 then 7 else 0⟩

def plainSections : CoffFile where
  file := plainFile
  proper := by
    have hsize : ∀ sec ∈ loaded (sectionsOf plainFile), 0 ≤ sec.size.toInt := by decide +kernel
    have hscnptr : ∀ sec ∈ loaded (sectionsOf plainFile), 0 ≤ sec.scnptr.toInt := by decide +kernel
    exact fun sec hm => ⟨hsize sec hm, hscnptr sec hm⟩
  uninit := by decide +kernel

theorem image_preserved_plain : Preserves (.load .littleEndian fun _ => 0) plainSections.file ∧
    ∃ out, main .littleEndian (.load .littleEndian fun _ => 0) plainSections.file = .ok out := by
  refine ⟨(image_preserved_iff _ plainSections).mpr fun _ => .inl ⟨by decide +kernel, textsAgree_of_length ?_⟩, _, rfl⟩
  decide +kernel

def twoSections (sbss : Word) : UnixFile :=
  ⟨156, Buffer.ofWords fun i => if i = 0 then 0x00020162 else if i = 5 then 0x0107
    else if i = 19 then 0x7373622e else if i = 23 then 4
    else if i = 29 then 0x7362732e else if i = 30 then 0x73 else if i = 31 then sbss else if i = 33 then 4 else 0⟩

def contiguousSections : CoffFile where
  file := twoSections 4
  proper := by
    have hnone : (loaded (sectionsOf (twoSections 4))).length = 0 := by decide +kernel
    rw [List.length_eq_zero_iff.mp hnone]
    exact fun sec hm => absurd hm List.not_mem_nil
  uninit := by decide +kernel

theorem contiguousSections_sound : Sound contiguousSections.file := by
  constructor
  case headers => exact ⟨by decide +kernel, by decide +kernel, by decide +kernel⟩
  case body => exact ⟨by decide +kernel, by decide +kernel, by decide +kernel, by decide +kernel⟩

/-- The test for contiguous sections is the wrong way round: these are rejected, and with a gap of four bytes between
them they are accepted. -/
theorem contiguous_sections_rejected :
    ¬Preserves (.load .littleEndian fun _ => 0) contiguousSections.file ∧
      main .littleEndian (.load .littleEndian fun _ => 0) contiguousSections.file = .error .bssAndSbss ∧
      (∃ out, main .littleEndian (.load .littleEndian fun _ => 0) (twoSections 8) = .ok out) ∧
      ¬Contiguous (ofKind .bss (sectionsOf (twoSections 8))) := by
  have hr : main .littleEndian (.load .littleEndian fun _ => 0) contiguousSections.file = .error .bssAndSbss := rfl
  refine ⟨fun hp => ?_, hr, ⟨_, rfl⟩, ?_⟩
  · obtain ⟨out, ho⟩ := hp.2 contiguousSections_sound (by unfold Contiguous; decide +kernel)
    cases hr.symm.trans ho
  · unfold Contiguous
    decide +kernel

end Nachos.Coff2Noff
