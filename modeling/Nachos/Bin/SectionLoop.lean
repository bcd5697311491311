import Nachos.Bin.CopiedSections

namespace Nachos.Coff2Noff

variable {coff out : UnixFile} {l : List Section} {s t : State} {sec : Section}

def stop (l : List Section) : Word := (l.head?.map Section.paddr).getD 0 + uninitSize l

def Copyable (coff : UnixFile) (l : List Section) (sec : Section) : Prop :=
  sec.scnptr.toNat + sec.size.toNat ≤ coff.length ∧ noffHeaderSize + total (loaded l) + sec.size.toNat ≤ fileMax

def Admits (coff : UnixFile) (l : List Section) (sec : Section) : Prop :=
  sec.size = 0 ∨
    match sec.kind with
    | some .bss => ofKind .bss l = [] ∨ sec.paddr ≠ stop (ofKind .bss l)
    | some k => (k = .data → ofKind .data l = []) ∧ Copyable coff l sec
    | none => False

section Step

variable (h : Reached coff l s)

theorem ofKind_self {k : Kind} (h0 : sec.size ≠ 0) (hk : sec.kind = some k) :
    ofKind k (l ++ [sec]) = ofKind k l ++ [sec] := by rw [ofKind_concat, if_pos ⟨h0, hk⟩]

theorem ofKind_other {j k : Kind} (hk : sec.kind = some k) (hne : j ≠ k) : ofKind j (l ++ [sec]) = ofKind j l := by
  rw [ofKind_concat, if_neg]
  rintro ⟨-, hc⟩
  exact hne (Option.some.inj (hc.symm.trans hk))

include h

theorem Reached.skip (h0 : sec.size = 0) : Reached coff (l ++ [sec]) s := by
  have hl : loaded (l ++ [sec]) = loaded l := by rw [loaded_concat, if_neg (fun hc => hc.1 h0)]
  have hk (k : Kind) : ofKind k (l ++ [sec]) = ofKind k l := by rw [ofKind_concat, if_neg (fun hc => hc.1 h0)]
  refine { h with position := ?_, code := ?_, initData := ?_, uninit := ?_, uninitAddr := ?_ }
  · rw [hl]
    exact h.position
  · rw [hk]
    exact h.code
  · rw [hk]
    exact h.initData
  · rw [hk]
    exact h.uninit
  · rw [hk]
    exact h.uninitAddr

theorem Reached.inNoffFile_add (sec : Section) :
    s.inNoffFile + sec.size = .ofNat 32 (s.fdOut.position + sec.size.toNat) := by
  rw [h.inNoffFile, BitVec.ofNat_add, BitVec.ofNat_toNat, BitVec.setWidth_eq]

theorem Reached.copied (h0 : sec.size ≠ 0) (hk : sec.kind = some .text ∨ sec.kind = some .data)
    (hroom : s.fdOut.position + sec.size.toNat ≤ fileMax) {noffH : NoffHeader} {position : Nat}
    (hm : noffH.noffMagic = s.noffH.noffMagic)
    (hc : Slot coff (s.appendRaw sec) noffH.code (ofKind .text (l ++ [sec])).getLast?)
    (hd : Slot coff (s.appendRaw sec) noffH.initData (ofKind .data (l ++ [sec])).getLast?)
    (ha : noffH.code.size ≠ 0 → noffH.initData.size ≠ 0 →
      noffH.code.inFileAddr.toNat + noffH.code.size.toNat ≤ noffH.initData.inFileAddr.toNat ∨
        noffH.initData.inFileAddr.toNat + noffH.initData.size.toNat ≤ noffH.code.inFileAddr.toNat)
    (hu : noffH.uninitData = s.noffH.uninitData) :
    Reached coff (l ++ [sec]) ⟨⟨s.fdIn.file, position⟩, ⟨s.appendRaw sec, s.fdOut.position + sec.size.toNat⟩, noffH,
      s.inNoffFile + sec.size⟩ := by
  have hbss : ofKind .bss (l ++ [sec]) = ofKind .bss l := by
    obtain hk | hk := hk
    · exact ofKind_other hk (by decide)
    · exact ofKind_other hk (by decide)
  constructor
  case fdIn => exact h.fdIn
  case position => rw [loaded_concat, if_pos ⟨h0, hk⟩, total_concat, ← Nat.add_assoc, ← h.position]
  case length => exact Nat.max_le.mpr ⟨h.length.trans (Nat.le_add_right ..), Nat.le_refl _⟩
  case room => exact hroom
  case inNoffFile => exact h.inNoffFile_add sec
  case magic => exact hm.trans h.magic
  case code => exact hc
  case initData => exact hd
  case apart => exact ha
  case uninit =>
    rw [hbss]
    exact (congrArg Segment.size hu).trans h.uninit
  case uninitAddr =>
    rw [hbss]
    intro first hf
    exact (congrArg Segment.virtualAddr hu).trans (h.uninitAddr first hf)

theorem Reached.text (h0 : sec.size ≠ 0) (hk : sec.kind = some .text)
    (hroom : s.fdOut.position + sec.size.toNat ≤ fileMax) {position : Nat} :
    Reached coff (l ++ [sec]) ⟨⟨s.fdIn.file, position⟩, ⟨s.appendRaw sec, s.fdOut.position + sec.size.toNat⟩,
      { s.noffH with code := ⟨sec.paddr, s.inNoffFile, sec.size⟩ }, s.inNoffFile + sec.size⟩ := by
  refine h.copied h0 (.inl hk) hroom rfl ?_ ?_ (fun _ hne => .inr ?_) rfl
  · rw [ofKind_self h0 hk, List.getLast?_concat]
    exact h.append_new sec
  · rw [ofKind_other hk (by decide)]
    exact h.append_old h.initData sec
  · change _ ≤ s.inNoffFile.toNat
    rw [h.inNoffFile_toNat]
    exact (h.initData.inside hne).trans h.length

theorem Reached.data (h0 : sec.size ≠ 0) (hk : sec.kind = some .data)
    (hroom : s.fdOut.position + sec.size.toNat ≤ fileMax) {position : Nat} :
    Reached coff (l ++ [sec]) ⟨⟨s.fdIn.file, position⟩, ⟨s.appendRaw sec, s.fdOut.position + sec.size.toNat⟩,
      { s.noffH with initData := ⟨sec.paddr, s.inNoffFile, sec.size⟩ }, s.inNoffFile + sec.size⟩ := by
  refine h.copied h0 (.inr hk) hroom rfl ?_ ?_ (fun hne _ => .inl ?_) rfl
  · rw [ofKind_other hk (by decide)]
    exact h.append_old h.code sec
  · rw [ofKind_self h0 hk, List.getLast?_concat]
    exact h.append_new sec
  · change _ ≤ s.inNoffFile.toNat
    rw [h.inNoffFile_toNat]
    exact (h.code.inside hne).trans h.length

theorem Reached.bss (h0 : sec.size ≠ 0) (hk : sec.kind = some .bss) (virtualAddr : Word)
    (hv : virtualAddr = ((ofKind .bss l).head?.elim sec.paddr fun _ => s.noffH.uninitData.virtualAddr)) :
    Reached coff (l ++ [sec]) { s with noffH := { s.noffH with
      uninitData := { s.noffH.uninitData with virtualAddr, size := s.noffH.uninitData.size + sec.size } } } := by
  have hl : loaded (l ++ [sec]) = loaded l := by
    rw [loaded_concat, if_neg]
    rintro ⟨-, hc | hc⟩
    · cases hc.symm.trans hk
    · cases hc.symm.trans hk
  refine { h with position := ?_, code := ?_, initData := ?_, uninit := ?_, uninitAddr := fun first hf => ?_ }
  · rw [hl]
    exact h.position
  · rw [ofKind_other hk (by decide)]
    exact h.code
  · rw [ofKind_other hk (by decide)]
    exact h.initData
  · rw [ofKind_self h0 hk, uninitSize_concat, h.uninit]
  · rw [ofKind_self h0 hk, List.head?_append] at hf
    rw [hv]
    cases hb : (ofKind .bss l).head? with
    | none =>
      rw [hb] at hf
      obtain rfl := Option.some.inj hf
      rfl
    | some x =>
      rw [hb] at hf
      obtain rfl := Option.some.inj hf
      exact h.uninitAddr x hb

theorem Reached.stop_eq (hb : ofKind .bss l ≠ []) :
    s.noffH.uninitData.virtualAddr + s.noffH.uninitData.size = stop (ofKind .bss l) := by
  obtain ⟨first, rest, hl⟩ := List.exists_cons_of_ne_nil hb
  rw [h.uninit, h.uninitAddr first (by rw [hl]; rfl), stop, hl]
  rfl

theorem Reached.copySegment (hp : sec.Proper) (h0 : sec.size ≠ 0) (noffH : NoffHeader)
    (hr : s.fdOut.position + sec.size.toNat ≤ fileMax → ∀ position, Reached coff (l ++ [sec])
      ⟨⟨s.fdIn.file, position⟩, ⟨s.appendRaw sec, s.fdOut.position + sec.size.toNat⟩, noffH, s.inNoffFile + sec.size⟩) :
    (Copyable coff l sec →
      ∃ t, ({ s with noffH } : State).copySegment sec = .ok t ∧ Reached coff (l ++ [sec]) t) ∧
    (¬Copyable coff l sec → ∃ e, ({ s with noffH } : State).copySegment sec = .error e) := by
  unfold Copyable
  rw [State.copySegment_eq _ hp h0]
  dsimp only
  rw [h.fdIn, ← h.position]
  by_cases hraw : coff.length < sec.scnptr.toNat + sec.size.toNat
  · rw [if_pos hraw]
    exact ⟨fun hc => absurd hc.1 (not_le.mpr hraw), fun _ => ⟨_, rfl⟩⟩
  rw [if_neg hraw]
  by_cases hroom : fileMax < s.fdOut.position + sec.size.toNat
  · rw [if_pos hroom]
    exact ⟨fun hc => absurd hc.2 (not_le.mpr hroom), fun _ => ⟨_, rfl⟩⟩
  · rw [if_neg hroom]
    have ht := hr (not_lt.mp hroom) (sec.scnptr.toNat + sec.size.toNat)
    rw [h.fdIn] at ht
    exact ⟨fun _ => ⟨_, rfl, ht⟩, fun hc => absurd ⟨not_lt.mp hraw, not_lt.mp hroom⟩ hc⟩

theorem Reached.uninitData_size (ht : total (ofKind .bss l) < 2 ^ 31) :
    s.noffH.uninitData.size = 0 ↔ ofKind .bss l = [] := by
  rw [h.uninit]
  exact uninitSize_eq_zero (fun sec hm => (mem_ofKind.mp hm).2.1) ht

theorem Reached.round_bss (h0 : sec.size ≠ 0) (hk : sec.kind = some .bss) (ht : total (ofKind .bss l) < 2 ^ 31) :
    (Admits coff l sec → ∃ t, s.copySection sec = .ok t ∧ Reached coff (l ++ [sec]) t) ∧
      (¬Admits coff l sec → ∃ e, s.copySection sec = .error e) := by
  unfold State.copySection Admits
  rw [if_neg h0, hk]
  simp only [h0, false_or]
  have hz := h.uninitData_size ht
  by_cases hb : ofKind .bss l = []
  · rw [if_neg (not_not.mpr (hz.mpr hb))]
    refine ⟨fun _ => ⟨_, rfl, ?_⟩, fun ha => absurd (.inl hb) ha⟩
    have hr := h.bss h0 hk sec.paddr (by rw [hb]; rfl)
    rw [hz.mpr hb, show (0 : Word) + sec.size = sec.size from BitVec.zero_add _] at hr
    exact hr
  rw [if_pos (fun hc => hb (hz.mp hc)), h.stop_eq hb]
  by_cases hs : sec.paddr = stop (ofKind .bss l)
  · rw [if_pos hs]
    exact ⟨fun ha => absurd hs (ha.resolve_left hb), fun _ => ⟨_, rfl⟩⟩
  · rw [if_neg hs]
    refine ⟨fun _ => ⟨_, rfl, ?_⟩, fun ha => absurd (.inr hs) ha⟩
    obtain ⟨first, rest, hl⟩ := List.exists_cons_of_ne_nil hb
    exact h.bss h0 hk _ (by rw [hl]; rfl)

end Step

theorem Reached.round (h : Reached coff l s)
    (hp : sec.size ≠ 0 → sec.kind = some .text ∨ sec.kind = some .data → sec.Proper) (ht : total (ofKind .bss l) < 2 ^ 31) :
    (Admits coff l sec → ∃ t, s.copySection sec = .ok t ∧ Reached coff (l ++ [sec]) t) ∧
      (¬Admits coff l sec → ∃ e, s.copySection sec = .error e) := by
  by_cases hbss : sec.size ≠ 0 ∧ sec.kind = some .bss
  · exact h.round_bss hbss.1 hbss.2 ht
  unfold State.copySection Admits
  dsimp only
  by_cases h0 : sec.size = 0
  · rw [if_pos h0]
    exact ⟨fun _ => ⟨s, rfl, h.skip h0⟩, fun hn => absurd (.inl h0) hn⟩
  rw [if_neg h0]
  simp only [h0, false_or]
  cases hk : sec.kind with
  | none => exact ⟨fun hf => hf.elim, fun _ => ⟨_, rfl⟩⟩
  | some k =>
    cases k with
    | text =>
      obtain ⟨hok, herr⟩ := h.copySegment (hp h0 (.inl hk)) h0 { s.noffH with code := ⟨sec.paddr, s.inNoffFile, sec.size⟩ }
        fun hroom _ => h.text h0 hk hroom
      exact ⟨fun ha => hok ha.2, fun ha => herr fun hc => ha ⟨fun hd => (by cases hd), hc⟩⟩
    | data =>
      dsimp only
      obtain ⟨hok, herr⟩ := h.copySegment (hp h0 (.inr hk)) h0 { s.noffH with initData := ⟨sec.paddr, s.inNoffFile, sec.size⟩ }
        fun hroom _ => h.data h0 hk hroom
      by_cases hd : ofKind .data l = []
      · rw [if_neg (not_not.mpr (h.initData_size.mpr hd))]
        exact ⟨fun ha => hok ha.2, fun ha => herr fun hc => ha ⟨fun _ => hd, hc⟩⟩
      · rw [if_pos (fun hz => hd (h.initData_size.mp hz))]
        exact ⟨fun ha => absurd (ha.1 rfl) hd, fun _ => ⟨_, rfl⟩⟩
    | bss => exact absurd ⟨h0, hk⟩ hbss

structure Body (coff : UnixFile) (l : List Section) : Prop where
  known : ∀ sec ∈ l, sec.size ≠ 0 → sec.kind ≠ none
  data : (ofKind .data l).length ≤ 1
  raw : ∀ sec ∈ loaded l, sec.scnptr.toNat + sec.size.toNat ≤ coff.length
  room : noffHeaderSize + total (loaded l) ≤ fileMax

def Hit (l : List Section) : Prop := ∃ a sec b, l = a ++ sec :: b ∧ a ≠ [] ∧ sec.paddr = stop a

theorem hit_concat (l : List Section) (sec : Section) :
    Hit (l ++ [sec]) ↔ Hit l ∨ (l ≠ [] ∧ sec.paddr = stop l) := by
  constructor
  · rintro ⟨a, x, b, he, hne, hx⟩
    obtain rfl | ⟨b, y, rfl⟩ := List.eq_nil_or_concat' b
    · obtain ⟨rfl, hs⟩ := List.append_inj' he rfl
      obtain rfl := List.singleton_inj.mp hs
      exact .inr ⟨hne, hx⟩
    · rw [← List.cons_append, ← List.append_assoc] at he
      obtain ⟨rfl, -⟩ := List.append_inj' he rfl
      exact .inl ⟨a, x, b, rfl, hne, hx⟩
  · rintro (⟨a, x, b, rfl, hne, hx⟩ | ⟨hne, hx⟩)
    · exact ⟨a, x, b ++ [sec], by simp, hne, hx⟩
    · exact ⟨l, sec, [], rfl, hne, hx⟩

theorem Body.init (h : Body coff (l ++ [sec])) : Body coff l := by
  constructor
  · intro x hx
    exact h.known x (List.mem_append_left _ hx)
  · have hd := h.data
    rw [ofKind_concat] at hd
    split_ifs at hd
    · rw [List.length_append] at hd
      omega
    · exact hd
  · intro x hx
    apply h.raw
    rw [loaded_concat]
    split_ifs
    · exact List.mem_append_left _ hx
    · exact hx
  · have hr := h.room
    rw [loaded_concat] at hr
    split_ifs at hr
    · rw [total_concat] at hr
      omega
    · exact hr

theorem Body.copied (h : Body coff (l ++ [sec])) (h0 : sec.size ≠ 0)
    (hk : sec.kind = some .text ∨ sec.kind = some .data) : Copyable coff l sec := by
  have hl : loaded (l ++ [sec]) = loaded l ++ [sec] := by rw [loaded_concat, if_pos ⟨h0, hk⟩]
  constructor
  · apply h.raw
    rw [hl]
    exact List.mem_append_right _ (List.mem_singleton_self _)
  · have hr := h.room
    rw [hl, total_concat, ← Nat.add_assoc] at hr
    exact hr

theorem Body.admits (h : Body coff (l ++ [sec])) (hh : ¬Hit (ofKind .bss (l ++ [sec]))) : Admits coff l sec := by
  unfold Admits
  by_cases h0 : sec.size = 0
  · exact .inl h0
  right
  cases hk : sec.kind with
  | none => exact absurd hk (h.known sec (by simp) h0)
  | some k =>
    cases k with
    | text => exact ⟨fun hd => (by cases hd), h.copied h0 (.inl hk)⟩
    | data =>
      refine ⟨fun _ => ?_, h.copied h0 (.inr hk)⟩
      have hd := h.data
      rw [ofKind_self h0 hk, List.length_append, List.length_singleton] at hd
      exact List.length_eq_zero_iff.mp (by omega)
    | bss =>
      rw [ofKind_self h0 hk, hit_concat] at hh
      by_cases hb : ofKind .bss l = []
      · exact .inl hb
      · exact .inr fun hs => hh (.inr ⟨hb, hs⟩)

theorem Body.concat (h : Body coff l) (hkind : sec.size ≠ 0 → sec.kind ≠ none)
    (hdata : sec.size ≠ 0 → sec.kind = some .data → ofKind .data l = [])
    (hcopy : sec.size ≠ 0 → sec.kind = some .text ∨ sec.kind = some .data → Copyable coff l sec) : Body coff (l ++ [sec]) := by
  constructor
  · rw [List.forall_mem_append, List.forall_mem_singleton]
    exact ⟨h.known, hkind⟩
  · rw [ofKind_concat]
    split_ifs with hk
    · rw [hdata hk.1 hk.2]
      exact Nat.le_refl 1
    · exact h.data
  · rw [loaded_concat]
    split_ifs with hk
    · rw [List.forall_mem_append, List.forall_mem_singleton]
      exact ⟨h.raw, (hcopy hk.1 hk.2).1⟩
    · exact h.raw
  · rw [loaded_concat]
    split_ifs with hk
    · rw [total_concat, ← Nat.add_assoc]
      exact (hcopy hk.1 hk.2).2
    · exact h.room

theorem admits_iff (coff : UnixFile) (l : List Section) (sec : Section) :
    Body coff (l ++ [sec]) ∧ ¬Hit (ofKind .bss (l ++ [sec])) ↔
      (Body coff l ∧ ¬Hit (ofKind .bss l)) ∧ Admits coff l sec := by
  constructor
  · rintro ⟨hb, hh⟩
    refine ⟨⟨hb.init, fun hc => hh ?_⟩, hb.admits hh⟩
    rw [ofKind_concat]
    split_ifs
    · exact (hit_concat _ _).mpr (.inl hc)
    · exact hc
  · rintro ⟨⟨hb, hh⟩, ha⟩
    unfold Admits at ha
    by_cases h0 : sec.size = 0
    · rw [ofKind_concat, if_neg (fun hc => hc.1 h0)]
      exact ⟨hb.concat (absurd h0) (absurd h0) (absurd h0), hh⟩
    have ha := ha.resolve_left h0
    cases hk : sec.kind with
    | none =>
      rw [hk] at ha
      exact ha.elim
    | some k =>
      rw [hk] at ha
      cases k with
      | text =>
        rw [ofKind_other hk (by decide)]
        exact ⟨hb.concat (fun _ => by simp [hk]) (fun _ hd => by cases hk.symm.trans hd) fun _ _ => ha.2, hh⟩
      | data =>
        rw [ofKind_other hk (by decide)]
        exact ⟨hb.concat (fun _ => by simp [hk]) (fun _ _ => ha.1 rfl) fun _ _ => ha.2, hh⟩
      | bss =>
        rw [ofKind_self h0 hk, hit_concat]
        refine ⟨hb.concat (fun _ => by simp [hk]) (fun _ hd => by cases hk.symm.trans hd) fun _ hc => ?_, ?_⟩
        · obtain hc | hc := hc <;> cases hk.symm.trans hc
        · rintro (hc | ⟨hne, hs⟩)
          · exact hh hc
          · exact ha.elim hne fun hs' => hs' hs

theorem total_bss_le (l : List Section) (sec : Section) : total (ofKind .bss l) ≤ total (ofKind .bss (l ++ [sec])) := by
  rw [ofKind_concat]
  split_ifs
  · rw [total_concat]
    exact Nat.le_add_right ..
  · exact Nat.le_refl _

theorem loop (h : Reached coff [] s) (hl : ∀ sec ∈ loaded l, sec.Proper) (ht : total (ofKind .bss l) < 2 ^ 31) :
    (Body coff l ∧ ¬Hit (ofKind .bss l) → ∃ t, l.foldlM State.copySection s = .ok t ∧ Reached coff l t) ∧
      (¬(Body coff l ∧ ¬Hit (ofKind .bss l)) → ∃ e, l.foldlM State.copySection s = .error e) := by
  induction l using List.reverseRecOn with
  | nil =>
    refine ⟨fun _ => ⟨s, rfl, h⟩, fun hn => absurd ⟨⟨by simp, by simp [ofKind], by simp [loaded], ?_⟩, ?_⟩ hn⟩
    · have hr := h.room
      rwa [h.position] at hr
    · rintro ⟨a, sec, b, he, -⟩
      simp [ofKind] at he
  | append_singleton l sec ih =>
    have ht' := lt_of_le_of_lt (total_bss_le l sec) ht
    have hinit (x : Section) (hx : x ∈ loaded l) : x.Proper := by
      rw [mem_loaded] at hx
      exact hl x (mem_loaded.mpr ⟨List.mem_append_left _ hx.1, hx.2⟩)
    have hlast (h0 : sec.size ≠ 0) (hk : sec.kind = some .text ∨ sec.kind = some .data) : sec.Proper :=
      hl sec (mem_loaded.mpr ⟨by simp, h0, hk⟩)
    obtain ⟨hok, herr⟩ := ih hinit ht'
    rw [admits_iff, List.foldlM_append]
    by_cases hb : Body coff l ∧ ¬Hit (ofKind .bss l)
    · obtain ⟨t, hfold, hr⟩ := hok hb
      obtain ⟨hadm, hnot⟩ := hr.round hlast ht'
      rw [hfold, ok_bind, List.foldlM_cons]
      constructor
      · rintro ⟨-, ha⟩
        obtain ⟨t', hc, hr'⟩ := hadm ha
        rw [hc]
        exact ⟨t', rfl, hr'⟩
      · intro hn
        obtain ⟨e, he⟩ := hnot fun ha => hn ⟨hb, ha⟩
        rw [he]
        exact ⟨e, rfl⟩
    · obtain ⟨e, he⟩ := herr hb
      rw [he]
      exact ⟨fun hc => absurd hc.1 hb, fun _ => ⟨e, rfl⟩⟩

end Nachos.Coff2Noff
