import Nachos.UserProg.Residency

namespace Nachos

open Buffer Machine Reply

instance : DecidablePred Scratch := fun _ => inferInstanceAs (Decidable (_ ∨ _ ∨ _ ∨ _))

/-- Two calls end the same way, and where the process goes on it finds the same memory. -/
def SameEffect (x y : Except Fault (Reply Unit)) : Prop :=
  match x, y with
  | .ok (.returned _ k₁), .ok (.returned _ k₂) => k₁.Alike k₂ ∧ k₁.contents = k₂.contents
  | .ok (.finished k₁), .ok (.finished k₂) => k₁.Alike k₂
  | .ok .exited, .ok .exited => True
  | .error e₁, .error e₂ => e₁ = e₂
  | _, _ => False

namespace Kernel

variable {k k₁ k₂ : Kernel}

theorem Alike.setRegister (h : k₁.Alike k₂) (r : Register) {v₁ v₂ : Word} (hv : v₁ = v₂) :
    (k₁.setRegister r v₁).Alike (k₂.setRegister r v₂) where
  __ := h
  registers r' hr := by
    subst hv
    simp only [Kernel.setRegister, Function.update_apply, h.registers r' hr]

theorem Alike.advancePC (h : k₁.Alike k₂) : k₁.advancePC.Alike k₂.advancePC := by
  have hpc := h.registers pcReg (by decide)
  have hnext := h.registers nextPCReg (by decide)
  exact ((h.setRegister _ hpc).setRegister _ hnext).setRegister _ (by rw [hnext])

end Kernel

namespace InCall

variable {k k₁ k₂ : Kernel} {s s₁ s₂ : AddrSpace} {f : UnixFile} {v v₁ v₂ : Buffer}

theorem advancePC (h : InCall k s f v) : InCall k.advancePC s f v := by
  have hl : k.advancePC.registers Nachos.loadReg = 0 := by
    rw [k.advancePC_other (by decide), h.raised]
  have hlt : (k.advancePC.registers Nachos.loadReg).toNat < numGPRegs := by
    rw [hl]
    decide
  exact ⟨h.toPaged.withRegisters hlt, h.demand, hl, h.next, h.nextSwap⟩

theorem die_same (h₁ : InCall k₁ s₁ f v₁) (h₂ : InCall k₂ s₂ f v₂) (ha : k₁.Alike k₂) : SameEffect k₁.die k₂.die := by
  rw [h₁.die_eq, h₂.die_eq, ha.current, ha.pooled]
  split_ifs with hm
  · rfl
  · refine { ha with files := ?_, others := ?_, own := ?_, activeThreads := ?_ }
    · simp only [Kernel.killed, Kernel.finish, Kernel.setProcess, ha.files, (ha.outline h₁.space h₂.space).2]
    · intro t (ht : t ≠ k₁.current)
      have ht' : t ≠ k₂.current := ha.current ▸ ht
      simp only [Kernel.killed, Kernel.finish, Kernel.setProcess, Function.update_of_ne ht', Function.update_of_ne ht]
      exact ha.others t ht
    · simp [Kernel.killed, Kernel.finish, Kernel.setProcess]
    · simp only [Kernel.killed, Kernel.finish, Kernel.setProcess, ha.activeThreads, ha.current]

theorem contents_eq_iff (h₁ : Paged k₁ s₁ f v₁) (h₂ : Paged k₂ s₂ f v₂) (ha : k₁.Alike k₂) :
    k₁.contents = k₂.contents ↔ ∀ a, a / pageSize < s₁.numPages.toNat → v₁ a = v₂ a := by
  simp only [funext_iff, h₁.contents, h₂.contents, (ha.outline h₁.space h₂.space).1]
  refine forall_congr' fun a => ?_
  split_ifs with ha
  · simp [ha]
  · simp [ha]

theorem contents_same (h₁ : Paged k₁ s₁ f v) (h₂ : Paged k₂ s₂ f v) (ha : k₁.Alike k₂) : k₁.contents = k₂.contents :=
  (contents_eq_iff h₁ h₂ ha).mpr (fun _ _ => rfl)

theorem sWrite_same (h₁ : InCall k₁ s₁ f v) (h₂ : InCall k₂ s₂ f v) (ha : k₁.Alike k₂) (text : List Byte) (id : Int) :
    SameEffect (do let k ← k₁.sWrite text id; .ok (.returned () k)) (do let k ← k₂.sWrite text id; .ok (.returned () k)) := by
  have hc := contents_same h₁.toPaged h₂.toPaged ha
  unfold Kernel.sWrite
  split_ifs
  · exact ⟨{ ha with output := by simp only [ha.output] }, hc⟩
  · by_cases ho : k₂.opened id = true
    · rw [assert_pos ho, assert_pos (by rw [ha.opened]; exact ho)]
      exact ⟨{ ha with output := by simp only [ha.output] }, hc⟩
    · rw [assert_neg ho, assert_neg (by rw [ha.opened]; exact ho)]
      rfl
  · exact ⟨ha, hc⟩

theorem scWrite_same (h₁ : InCall k₁ s₁ f v) (h₂ : InCall k₂ s₂ f v) (ha : k₁.Alike k₂) {fuel : Nat}
    (hf : 2 * Kernel.chSize + 2 ≤ fuel) (hx₁ : k₁.scWrite fuel ≠ .ok .exited) (hx₂ : k₂.scWrite fuel ≠ .ok .exited) :
    SameEffect (k₁.scWrite fuel) (k₂.scWrite fuel) := by
  have ha' := ha.advancePC
  have harg₁ := ha'.registers Kernel.arg1Reg (by decide)
  have harg₃ := ha'.registers Kernel.arg3Reg (by decide)
  have hempty : ([] : List Byte).length + Kernel.chSize = Kernel.chSize := Nat.zero_add _
  obtain ⟨k₁', s₁', h₁', hk₁, he₁⟩ := h₁.advancePC.copyIn_eq hempty hf (proceed_exited hx₁)
  obtain ⟨k₂', s₂', h₂', hk₂, he₂⟩ := h₂.advancePC.copyIn_eq hempty hf (proceed_exited hx₂)
  have hk := (hk₁.symm.trans ha').trans hk₂
  rw [harg₁, (ha.outline h₁.space h₂.space).1] at he₁
  simp only [Kernel.scWrite, harg₁, harg₃, he₁, he₂]
  cases scan s₂.numPages v (k₂.advancePC.registers Kernel.arg1Reg + .ofNat 32 ([] : List Byte).length) [] Kernel.chSize with
  | ended text =>
    simp only [Scan.copied]
    split_ifs
    · simp only [proceed_returned]
      split_ifs
      · exact ⟨hk, contents_same h₁'.toPaged h₂'.toPaged hk⟩
      · exact h₁'.sWrite_same h₂' hk text _
    · rfl
  | outside =>
    simp only [Scan.copied, Kernel.proceed_die]
    exact h₁'.die_same h₂' hk
  | tooLong => rfl

end InCall

theorem SameEffect.symm {x y : Except Fault (Reply Unit)} (h : SameEffect x y) : SameEffect y x := by
  unfold SameEffect at h ⊢
  split at h
  · exact ⟨h.1.symm, h.2.symm⟩
  · exact Kernel.Alike.symm h
  · trivial
  · exact Eq.symm h
  · exact h.elim

def Scan.executed (k : Kernel) : Scan → Except Fault (Reply Unit)
  | .ended text =>
    if text.length < Kernel.nameSize then do
      let k ← k.execFile text
      .ok (.returned () k)
    else .error .outOfBounds
  | .outside => k.die
  | .tooLong => .error .outOfBounds

def Unopened (files : Files) (x : Scan) : Prop := ∃ name, x = .ended name ∧ name.length < Kernel.nameSize ∧ files name = none

namespace InCall

variable {k k₁ k₂ : Kernel} {s s₁ s₂ : AddrSpace} {f : UnixFile} {v v₁ v₂ : Buffer} {name : Name} {files : Files}
  {space : Option AddrSpace}

theorem scExec_eq (h : InCall k s f v) (hx : k.scExec ≠ .ok .exited) :
    ∃ k' s', InCall k' s' f v ∧ k.advancePC.Alike k' ∧
      (MeetsCold s v (k.registers Kernel.arg1Reg) Kernel.nameSize → k.scExec = .ok (.returned () k')) ∧
      (¬MeetsCold s v (k.registers Kernel.arg1Reg) Kernel.nameSize →
        k.scExec = (scan s.numPages v (k.registers Kernel.arg1Reg) [] Kernel.nameSize).executed k') := by
  obtain ⟨k', s', h', ha, hcold, hwarm⟩ := h.advancePC.readName_eq (proceed_exited hx)
  rw [Kernel.advancePC_arg1Reg] at hcold hwarm
  refine ⟨k', s', h', ha, ?_, ?_⟩
  · intro hm
    simp only [Kernel.scExec, Kernel.advancePC_arg1Reg, hcold hm, proceed_returned]
  · intro hm
    simp only [Kernel.scExec, Kernel.advancePC_arg1Reg, hwarm hm]
    cases scan s.numPages v (k.registers Kernel.arg1Reg) [] Kernel.nameSize with
    | ended text => rfl
    | outside => exact Kernel.proceed_die _ _
    | tooLong => rfl

theorem spawn_paged (h : InCall k s f v) (hn : AddrSpace.new k.host k.garbage k.files name k.threadID = .ok (space, files)) :
    Paged (k.spawn space files) s f v := by
  obtain ⟨c, hc⟩ := Kernel.space_eq_ok.mp h.space
  refine ⟨?_, ?_, h.length, h.bound, h.bits, ?_, h.readOnly, h.frame, h.distinct, h.resident, h.cold⟩
  · refine Kernel.space_eq_ok.mpr ⟨c, ?_⟩
    change Function.update k.processes k.threadID _ k.current = _
    rw [Function.update_of_ne h.next, hc]
  · exact (AddrSpace.new_other hn h.nextSwap).trans h.swap
  · have hl : (k.spawn space files).registers Nachos.loadReg = k.registers Nachos.loadReg := rfl
    rw [hl]
    exact h.loadReg

theorem refuse_paged (h : InCall k s f v) (hn : AddrSpace.new k.host k.garbage k.files name k.threadID = .ok (space, files))
    (c : Bool) : Paged (k.refuse ⟨some s, c⟩ files) s f v := by
  refine ⟨?_, ?_, h.length, h.bound, h.bits, ?_, h.readOnly, h.frame, h.distinct, h.resident, h.cold⟩
  · refine Kernel.space_eq_ok.mpr ⟨false, ?_⟩
    exact Function.update_self ..
  · exact (AddrSpace.new_other hn h.nextSwap).trans h.swap
  · have hl : (k.refuse ⟨some s, c⟩ files).registers Nachos.loadReg = k.registers Nachos.loadReg := rfl
    rw [hl]
    exact h.loadReg

theorem spawn_alike (h : InCall k₁ s f v) (ha : k₁.Alike k₂) (space : Option AddrSpace) (files : Files) :
    (k₁.spawn space files).Alike (k₂.spawn space files) := by
  have hr := ha.setRegister Kernel.resultReg (congrArg (BitVec.ofNat 32) ha.threadID)
  refine { hr with files := rfl, others := ?_, own := ?_, activeThreads := ?_, threadID := ?_, ready := ?_ }
  · intro t (ht : t ≠ k₁.current)
    change Function.update k₁.processes k₁.threadID _ t = Function.update k₂.processes k₂.threadID _ t
    simp only [Function.update_apply, ha.threadID, ha.others t ht]
  · change (Function.update k₁.processes k₁.threadID _ k₁.current).map _ = (Function.update k₂.processes k₂.threadID _ k₂.current).map _
    have hne : k₂.current ≠ k₂.threadID := by
      rw [← ha.current, ← ha.threadID]
      exact h.next
    rw [Function.update_of_ne h.next, Function.update_of_ne hne]
    exact ha.own
  · simp only [Kernel.spawn, ha.threadID]
  · simp only [Kernel.spawn, ha.activeThreads, ha.threadID]
  · simp only [Kernel.spawn, ha.ready, ha.threadID]

theorem refuse_alike (ha : k₁.Alike k₂) (hn : s₁.numPages = s₂.numPages) (hw : s₁.swapFileName = s₂.swapFileName)
    (c₁ c₂ : Bool) (files : Files) : (k₁.refuse ⟨some s₁, c₁⟩ files).Alike (k₂.refuse ⟨some s₂, c₂⟩ files) := by
  have hv : -BitVec.ofNat 32 (k₁.threadID + 1) = -BitVec.ofNat 32 (k₂.threadID + 1) := by rw [ha.threadID]
  have hr := ha.setRegister Kernel.resultReg hv
  refine { hr with files := rfl, others := ?_, own := ?_ }
  · intro t (ht : t ≠ k₁.current)
    change Function.update k₁.processes k₁.current _ t = Function.update k₂.processes k₂.current _ t
    rw [Function.update_of_ne ht, Function.update_of_ne (ha.current ▸ ht)]
    exact ha.others t ht
  · change (Function.update k₁.processes k₁.current _ k₁.current).map _ = (Function.update k₂.processes k₂.current _ k₂.current).map _
    simp [Process.outline, hn, hw]

theorem execFile_same (h₁ : InCall k₁ s₁ f v) (h₂ : InCall k₂ s₂ f v) (ha : k₁.Alike k₂) (name : Name) :
    SameEffect (do let k ← k₁.execFile name; .ok (.returned () k)) (do let k ← k₂.execFile name; .ok (.returned () k)) := by
  obtain ⟨c₁, hc₁⟩ := Kernel.space_eq_ok.mp h₁.space
  obtain ⟨c₂, hc₂⟩ := Kernel.space_eq_ok.mp h₂.space
  obtain ⟨hn, hw⟩ := ha.outline h₁.space h₂.space
  have hkill : c₁ = c₂ := by
    have ho := ha.own
    simp only [hc₁, hc₂, Option.map_some, Process.outline, Option.some.injEq, Prod.mk.injEq] at ho
    exact ho.1
  cases hf : k₂.files name with
  | none =>
    have hf₁ : k₁.files name = none := by rw [ha.files, hf]
    simp only [Kernel.execFile, hf, hf₁]
    exact ⟨ha, contents_same h₁.toPaged h₂.toPaged ha⟩
  | some executable =>
    have hf₁ : k₁.files name = some executable := by rw [ha.files, hf]
    simp only [Kernel.execFile, hf, hf₁]
    cases hnew : AddrSpace.new k₂.host k₂.garbage k₂.files name k₂.threadID with
    | error e =>
      have hnew₁ : AddrSpace.new k₁.host k₁.garbage k₁.files name k₁.threadID = .error e := by
        rw [ha.host, ha.garbage, ha.files, ha.threadID, hnew]
      rw [hnew₁]
      rfl
    | ok x =>
      have hnew₁ : AddrSpace.new k₁.host k₁.garbage k₁.files name k₁.threadID = .ok x := by
        rw [ha.host, ha.garbage, ha.files, ha.threadID, hnew]
      obtain ⟨space, files⟩ := x
      rw [hnew₁]
      simp only [ok_bind, hc₁, hc₂, hkill]
      split_ifs
      · have hs := h₁.spawn_alike ha space files
        exact ⟨hs, contents_same (h₁.spawn_paged hnew₁) (h₂.spawn_paged hnew) hs⟩
      · have hr := refuse_alike ha hn hw c₂ c₂ files
        exact ⟨hr, contents_same (h₁.refuse_paged hnew₁ c₂) (h₂.refuse_paged hnew c₂) hr⟩

theorem executed_differs (h₂ : InCall k₂ s₂ f v) (ha : k₁.Alike k₂) {x : Scan} (hu : ¬Unopened k₂.files x) :
    ¬SameEffect (.ok (.returned () k₁)) (x.executed k₂) := by
  cases x with
  | outside =>
    rw [Scan.executed, h₂.die_eq]
    split_ifs
    · exact id
    · exact id
  | tooLong => exact id
  | ended name =>
    rw [Scan.executed]
    split_ifs with hl
    · obtain ⟨c, hc⟩ := Kernel.space_eq_ok.mp h₂.space
      cases hf : k₂.files name with
      | none => exact absurd ⟨name, rfl, hl, hf⟩ hu
      | some executable =>
        simp only [Kernel.execFile, hf]
        cases AddrSpace.new k₂.host k₂.garbage k₂.files name k₂.threadID with
        | error e => exact id
        | ok x =>
          simp only [ok_bind, hc]
          split_ifs with hk
          · rintro ⟨ha', -⟩
            have ht := ha'.threadID
            rw [ha.threadID] at ht
            exact absurd ht (Nat.ne_of_lt (Nat.lt_succ_self _))
          · rintro ⟨ha', -⟩
            have ho := ha.own.symm.trans ha'.own
            simp only [Kernel.refuse, Kernel.setRegister, Kernel.setProcess, Function.update_self, hc, Option.map_some,
              Process.outline, Option.some.injEq, Prod.mk.injEq] at ho
            exact hk ho.1
    · exact id

theorem scExec_same_iff (h₁ : InCall k₁ s₁ f v) (h₂ : InCall k₂ s₂ f v) (ha : k₁.Alike k₂)
    (hx₁ : k₁.scExec ≠ .ok .exited) (hx₂ : k₂.scExec ≠ .ok .exited) :
    SameEffect k₁.scExec k₂.scExec ↔
      (MeetsCold s₁ v (k₁.registers Kernel.arg1Reg) Kernel.nameSize ↔
        MeetsCold s₂ v (k₁.registers Kernel.arg1Reg) Kernel.nameSize) ∨
      Unopened k₁.files (scan s₁.numPages v (k₁.registers Kernel.arg1Reg) [] Kernel.nameSize) := by
  have harg := ha.registers Kernel.arg1Reg (by decide)
  obtain ⟨k₁', s₁', h₁', hk₁, hcold₁, hwarm₁⟩ := h₁.scExec_eq hx₁
  obtain ⟨k₂', s₂', h₂', hk₂, hcold₂, hwarm₂⟩ := h₂.scExec_eq hx₂
  have hk := (hk₁.symm.trans ha.advancePC).trans hk₂
  have hfiles₁ : k₁'.files = k₁.files := hk₁.files.symm
  have hfiles₂ : k₂'.files = k₁.files := hk.files.symm.trans hfiles₁
  rw [← harg] at hcold₂ hwarm₂
  rw [← (ha.outline h₁.space h₂.space).1] at hwarm₂
  set x := scan s₁.numPages v (k₁.registers Kernel.arg1Reg) [] Kernel.nameSize
  have hnothing (hu : Unopened k₁.files x) : x.executed k₁' = .ok (.returned () k₁') ∧
      x.executed k₂' = .ok (.returned () k₂') := by
    obtain ⟨name, hname, hl, hf⟩ := hu
    constructor
    · rw [hname, Scan.executed, if_pos hl, Kernel.execFile, hfiles₁, hf]
      rfl
    · rw [hname, Scan.executed, if_pos hl, Kernel.execFile, hfiles₂, hf]
      rfl
  have hsame : SameEffect (.ok (.returned () k₁')) (.ok (.returned () k₂')) := ⟨hk, contents_same h₁'.toPaged h₂'.toPaged hk⟩
  by_cases hm₁ : MeetsCold s₁ v (k₁.registers Kernel.arg1Reg) Kernel.nameSize
  · rw [hcold₁ hm₁]
    by_cases hm₂ : MeetsCold s₂ v (k₁.registers Kernel.arg1Reg) Kernel.nameSize
    · rw [hcold₂ hm₂]
      exact iff_of_true hsame (.inl (iff_of_true hm₁ hm₂))
    · rw [hwarm₂ hm₂]
      by_cases hu : Unopened k₁.files x
      · rw [(hnothing hu).2]
        exact iff_of_true hsame (.inr hu)
      · refine iff_of_false (h₂'.executed_differs hk (by rwa [hfiles₂])) ?_
        exact fun hor => hor.elim (fun hiff => hm₂ (hiff.mp hm₁)) hu
  · rw [hwarm₁ hm₁]
    by_cases hm₂ : MeetsCold s₂ v (k₁.registers Kernel.arg1Reg) Kernel.nameSize
    · rw [hcold₂ hm₂]
      by_cases hu : Unopened k₁.files x
      · rw [(hnothing hu).1]
        exact iff_of_true hsame (.inr hu)
      · refine iff_of_false (fun hc => h₁'.executed_differs hk.symm (by rwa [hfiles₁]) hc.symm) ?_
        exact fun hor => hor.elim (fun hiff => hm₁ (hiff.mpr hm₂)) hu
    · rw [hwarm₂ hm₂]
      refine iff_of_true ?_ (.inl (iff_of_false hm₁ hm₂))
      cases x with
      | ended name =>
        rw [Scan.executed, Scan.executed]
        split_ifs
        · exact h₁'.execFile_same h₂' hk name
        · rfl
      | outside => exact h₁'.die_same h₂' hk
      | tooLong => rfl

end InCall

def SameDelivery (s₁ s₂ : AddrSpace) (v : Buffer) (addr : Nat) : Transfer → Prop
  | .done _ sent _ => ∀ j b, sent[j]? = some b → (Lost s₁ addr j ↔ Lost s₂ addr j) ∨ v (addr + j) = b
  | _ => True

namespace InCall

variable {k k₁ k₂ : Kernel} {s s₁ s₂ : AddrSpace} {f : UnixFile} {v v₁ v₂ : Buffer} {addr : Word}

theorem transfer_inside (h : InCall k s f v) {num n m j : Nat} {bytes sent rest : List Byte}
    (ht : transfer s.numPages addr num bytes n = .done m sent rest) (hj : j < sent.length) :
    (addr.toNat + j) / pageSize < s.numPages.toNat := by
  induction n generalizing addr num bytes sent j with
  | zero =>
    cases ht
    simp at hj
  | succ n ih =>
    cases bytes with
    | nil => cases ht
    | cons b bytes =>
      rw [transfer] at ht
      split_ifs at ht with hi hz
      · cases ht
        obtain rfl : j = 0 := by simpa using hj
        exact hi
      · cases hr : transfer s.numPages (addr + 1) (num + 1) bytes n with
        | done m' sent' rest' =>
          rw [hr] at ht
          cases ht
          cases j with
          | zero => exact hi
          | succ j =>
            have hrec := ih hr (Nat.lt_of_succ_lt_succ hj)
            rw [h.toNat_succ hi] at hrec
            rwa [show addr.toNat + (j + 1) = addr.toNat + 1 + j by omega]
        | outside rest' =>
          rw [hr] at ht
          cases ht
        | short =>
          rw [hr] at ht
          cases ht

theorem delivered_same_iff {sent : List Byte} {a m : Nat} {rest : List Byte} (h₁ : Delivered s₁ v a sent v₁)
    (h₂ : Delivered s₂ v a sent v₂) {numPages : Word} (hi : ∀ j < sent.length, (a + j) / pageSize < numPages.toNat) :
    (∀ b, b / pageSize < numPages.toNat → v₁ b = v₂ b) ↔ SameDelivery s₁ s₂ v a (.done m sent rest) := by
  constructor
  · intro hv j b hb
    have he := hv (a + j) (hi j (List.getElem?_eq_some_iff.mp hb).1)
    rw [h₁.inside j b hb, h₂.inside j b hb] at he
    split_ifs at he with hl₁ hl₂ hl₂
    · exact .inl (iff_of_true hl₁ hl₂)
    · exact .inr he
    · exact .inr he.symm
    · exact .inl (iff_of_false hl₁ hl₂)
  · intro hs b _
    by_cases hb : b < a ∨ a + sent.length ≤ b
    · rw [h₁.outside b hb, h₂.outside b hb]
    · obtain ⟨j, rfl⟩ := Nat.exists_eq_add_of_le (show a ≤ b by omega)
      obtain ⟨c, hc⟩ : ∃ c, sent[j]? = some c := ⟨_, List.getElem?_eq_getElem (by omega)⟩
      rw [h₁.inside j c hc, h₂.inside j c hc]
      rcases hs j c hc with hl | hv
      · simp only [hl]
      · rw [hv, ite_self, ite_self]

theorem scRead_file (hid : 2 ≤ (k.registers Kernel.arg3Reg).toInt)
    (hsize : ¬CInt.wrap ((k.registers Kernel.arg2Reg).toInt + 10) ≤ 0) :
    k.scRead = proceed (k.advancePC.readFrom (k.registers Kernel.arg1Reg) (k.registers Kernel.arg3Reg).toInt 0
      (k.registers Kernel.arg2Reg).toInt.toNat)
        (fun result k => .ok (.returned () (k.setRegister Kernel.resultReg (.ofNat 32 result)))) := by
  simp only [Kernel.scRead, Kernel.advancePC_arg1Reg, Kernel.advancePC_arg2Reg, Kernel.advancePC_arg3Reg, Kernel.sRead]
  rw [if_neg hsize, if_neg (by omega)]

theorem scRead_overflow (hsize : CInt.wrap ((k.registers Kernel.arg2Reg).toInt + 10) ≤ 0) :
    k.scRead = .error .outOfBounds := by
  simp only [Kernel.scRead, Kernel.advancePC_arg2Reg, Kernel.sRead]
  rw [if_pos hsize, proceed_error]

theorem scRead_same_iff (h₁ : InCall k₁ s₁ f v) (h₂ : InCall k₂ s₂ f v) (ha : k₁.Alike k₂)
    (hid : 2 ≤ (k₁.registers Kernel.arg3Reg).toInt)
    (hx₁ : k₁.scRead ≠ .ok .exited) (hx₂ : k₂.scRead ≠ .ok .exited) :
    SameEffect k₁.scRead k₂.scRead ↔
      CInt.wrap ((k₁.registers Kernel.arg2Reg).toInt + 10) ≤ 0 ∨
      SameDelivery s₁ s₂ v (k₁.registers Kernel.arg1Reg).toNat
        (transfer s₁.numPages (k₁.registers Kernel.arg1Reg) 0 (k₁.input (k₁.registers Kernel.arg3Reg).toInt)
          (k₁.registers Kernel.arg2Reg).toInt.toNat) := by
  have harg₁ := ha.registers Kernel.arg1Reg (by decide)
  have harg₂ := ha.registers Kernel.arg2Reg (by decide)
  have harg₃ := ha.registers Kernel.arg3Reg (by decide)
  by_cases hsize : CInt.wrap ((k₁.registers Kernel.arg2Reg).toInt + 10) ≤ 0
  · rw [scRead_overflow hsize, scRead_overflow (harg₂ ▸ hsize)]
    exact iff_of_true rfl (.inl hsize)
  have hs₁ := scRead_file hid hsize
  have hs₂ := scRead_file (k := k₂) (harg₃ ▸ hid) (harg₂ ▸ hsize)
  rw [← harg₁, ← harg₂, ← harg₃] at hs₂
  rw [hs₁] at hx₁ ⊢
  rw [hs₂] at hx₂ ⊢
  set addr := k₁.registers Kernel.arg1Reg
  set id := (k₁.registers Kernel.arg3Reg).toInt
  set n := (k₁.registers Kernel.arg2Reg).toInt.toNat
  have haddr : addr + BitVec.ofNat 32 0 = addr := BitVec.add_zero addr
  have hpages := (ha.outline h₁.space h₂.space).1
  have hinput : k₂.advancePC.input = k₁.advancePC.input := ha.advancePC.input.symm
  have hr₁ := h₁.advancePC.readFrom_eq (proceed_exited hx₁)
  have hr₂ := h₂.advancePC.readFrom_eq (proceed_exited hx₂)
  rw [haddr] at hr₁ hr₂
  rw [← hpages, hinput] at hr₂
  have hupd (rest : List Byte) : Kernel.Alike { k₁.advancePC with input := Function.update k₁.advancePC.input id rest }
      { k₂.advancePC with input := Function.update k₁.advancePC.input id rest } := { ha.advancePC with input := rfl }
  have hin : k₁.advancePC.input id = k₁.input id := rfl
  rw [hin] at hr₁ hr₂
  rcases hr₁ with ⟨ht, he₁⟩ | ⟨rest, k₁', s₁', v₁, ht, h₁', hk₁, he₁⟩ | ⟨m, sent, rest, k₁', s₁', v₁, ht, h₁', hk₁, he₁, hd₁⟩
  all_goals
    rw [ht] at hr₂ ⊢
    rcases hr₂ with ⟨ht₂, he₂⟩ | ⟨rest₂, k₂', s₂', v₂, ht₂, h₂', hk₂, he₂⟩ | ⟨m₂, sent₂, rest₂, k₂', s₂', v₂, ht₂, h₂', hk₂, he₂, hd₂⟩
    all_goals cases ht₂
    rw [he₁, he₂]
  · exact iff_of_true rfl (.inr trivial)
  · have hk := (hk₁.symm.trans (hupd rest)).trans hk₂
    rw [Kernel.proceed_die, Kernel.proceed_die]
    exact iff_of_true (h₁'.die_same h₂' hk) (.inr trivial)
  · have hk := (hk₁.symm.trans (hupd rest)).trans hk₂
    have hr := hk.setRegister Kernel.resultReg (rfl : BitVec.ofNat 32 m = .ofNat 32 m)
    have hinside : ∀ j < sent.length, (addr.toNat + j) / pageSize < s₁.numPages.toNat :=
      fun j hj => h₁.transfer_inside ht hj
    have hcontents := contents_eq_iff h₁'.toPaged h₂'.toPaged hk
    rw [← (hk₁.outline (h₁.advancePC.withInput _).space h₁'.space).1] at hcontents
    rw [proceed_returned, proceed_returned, or_iff_right hsize, ← delivered_same_iff hd₁ hd₂ hinside, ← hcontents]
    exact ⟨fun hs => hs.2, fun hc => ⟨hr, hc⟩⟩

theorem proceed_ne_exited {α : Type} {x : Except Fault (Reply α)} {g : α → Kernel → Except Fault (Reply Unit)}
    (hx : x ≠ .ok .exited) (hg : ∀ a k, g a k ≠ .ok .exited) : proceed x g ≠ .ok .exited := by
  cases x with
  | error e => nofun
  | ok x =>
    cases x with
    | returned a k => exact hg a k
    | finished k => nofun
    | exited => exact absurd rfl hx
    | running => nofun

theorem then_ne_exited (x : Except Fault Kernel) :
    (do let k ← x; Except.ok (Reply.returned () k) : Except Fault (Reply Unit)) ≠ .ok .exited := by
  cases x with
  | error e => nofun
  | ok k => nofun

theorem scWrite_room (h : InCall k s f v) (hr : Room k s) (fuel : Nat) : k.scWrite fuel ≠ .ok .exited := by
  refine proceed_ne_exited (h.advancePC.copyIn_room hr _ _ _) ?_
  intro ch k'
  split_ifs
  · nofun
  · exact then_ne_exited _

theorem scExec_room (h : InCall k s f v) (hr : Room k s) : k.scExec ≠ .ok .exited := by
  refine proceed_ne_exited (h.advancePC.readName_room hr _ _ _) ?_
  intro r k'
  cases r with
  | none => nofun
  | some filename =>
    simp only
    split_ifs
    · exact then_ne_exited _
    · nofun

theorem scRead_room (h : InCall k s f v) (hr : Room k s) (hid : 2 ≤ (k.registers Kernel.arg3Reg).toInt) :
    k.scRead ≠ .ok .exited := by
  by_cases hsize : CInt.wrap ((k.registers Kernel.arg2Reg).toInt + 10) ≤ 0
  · rw [scRead_overflow hsize]
    nofun
  · rw [scRead_file hid hsize]
    exact proceed_ne_exited (h.advancePC.readFrom_room hr _ _ _ _) (fun _ _ => nofun)

end InCall

namespace Kernel

variable {k₁ k₂ : Kernel} {s₁ s₂ : AddrSpace} {f : UnixFile} {v : Buffer}

def letter : Buffer := fun a => if a = 0 then 112 else 0

def sampleSpace (resident : Bool) : AddrSpace :=
  ⟨fun p => ⟨.ofNat 32 p, 0, resident && p == 0, false, false, false⟩, 5, AddrSpace.swapName 0⟩

def sample (resident : Bool) : Kernel where
  __ := boot 256
  registers r := if r = arg2Reg then 1 else if r = arg3Reg then 2 else 0
  mainMemory := letter
  bitMap := { BitMap.new numPhysPages (fun _ => 0) with map := (BitMap.new numPhysPages (fun _ => 0)).map.mark 0 }
  files name :=
    if name = AddrSpace.swapName 0 then some ⟨5 * pageSize, letter⟩
    else if name = [112] then some (headerOnly 256) else none
  processes t := if t = 0 then some ⟨some (sampleSpace resident), false⟩ else none
  input _ := [5]
  opened id := decide (id = 2)

theorem sample_marked (resident : Bool) : (sample resident).bitMap.marked = {0} := by
  change BitMap.marked { BitMap.new numPhysPages (fun _ => 0) with map := _ } = _
  rw [BitMap.marked_mark (by decide), BitMap.marked_new]
  rfl

theorem sample_inCall (resident : Bool) : InCall (sample resident) (sampleSpace resident) ⟨5 * pageSize, letter⟩ letter := by
  have hvalid (p : Nat) (h : ((sampleSpace resident).pageTable p).valid = true) : p = 0 := by
    simp [sampleSpace] at h
    exact h.2
  refine ⟨⟨rfl, ?_, ?_, ?_, rfl, ?_, fun _ _ => rfl, ?_, ?_, ?_, fun _ _ _ _ _ => rfl⟩, rfl, rfl, ?_, ?_⟩
  · simp [sample, sampleSpace]
  · exact le_refl _
  · change 5 * pageSize ≤ 2 ^ 31
    rw [pageSize_eq]
    decide
  · change (0 : Word).toNat < numGPRegs
    decide
  · intro p _ _
    rw [sample_marked]
    exact Finset.mem_singleton_self 0
  · intro p _ q _ hp hq _
    rw [hvalid p hp, hvalid q hq]
  · intro p _ hp o _
    rw [hvalid p hp]
    rfl
  · exact Nat.zero_ne_one
  · intro h
    have hr : AddrSpace.swapName 0 = AddrSpace.swapName 1 := h
    revert hr
    decide

theorem sample_alike : (sample false).Alike (sample true) where
  __ := Alike.refl (boot 256)
  registers _ _ := rfl
  files := rfl
  others t ht := by
    have hne : t ≠ 0 := ht
    simp [sample, hne]
  own := rfl
  input := rfl
  opened := rfl

theorem sample_room (resident : Bool) : Room (sample resident) (sampleSpace resident) := by
  have hcount := (sample resident).bitMap.numClear_add_card
  rw [sample_marked, Finset.card_singleton] at hcount
  have hbits : (sample resident).bitMap.numBits = 32 := rfl
  have hcold : (sampleSpace resident).coldPages.card ≤ (Finset.range 5).card := Finset.card_filter_le _ _
  rw [Finset.card_range] at hcold
  rw [Room]
  omega

theorem sample_meetsCold (resident : Bool) :
    InCall.MeetsCold (sampleSpace resident) letter ((sample false).registers arg1Reg) nameSize ↔ resident = false := by
  have harg : (sample false).registers arg1Reg = 0 := rfl
  rw [harg, show nameSize = 98 + 1 + 1 from rfl, InCall.meetsCold_succ, InCall.meetsCold_succ]
  simp [InCall.Cold, Inside, sampleSpace, letter, pageSize_eq]

theorem sample_scan (resident : Bool) (n : Nat) :
    scan (sampleSpace resident).numPages letter ((sample false).registers arg1Reg) [] (n + 1 + 1) = .ended [112] := by
  have harg : (sample false).registers arg1Reg = 0 := rfl
  rw [harg, scan, scan]
  simp [Inside, sampleSpace, letter, pageSize_eq]

theorem sample_writes (resident : Bool) : ∃ k, (sample resident).scWrite (2 * chSize + 2) = .ok (.returned () k) ∧
    k.output 2 = [112] := by
  have hempty : ([] : List Byte).length + chSize = chSize := Nat.zero_add _
  obtain ⟨k, s, -, ha, he⟩ := (sample_inCall resident).advancePC.copyIn_eq hempty (le_refl _)
    ((sample_inCall resident).advancePC.copyIn_room (sample_room resident) ((sample resident).advancePC.registers arg1Reg) [] _)
  have hopened : k.opened 2 = true := (congrFun ha.opened 2).symm
  have houtput : k.output = fun _ => [] := ha.output.symm
  have hend : (sample resident).advancePC.registers arg1Reg + .ofNat 32 ([] : List Byte).length =
      (sample false).registers arg1Reg := rfl
  have hid : ((sample resident).advancePC.registers arg3Reg).toInt = 2 := rfl
  have hscan : scan (sampleSpace resident).numPages letter ((sample false).registers arg1Reg) [] chSize = .ended [112] :=
    sample_scan resident 498
  rw [hend, hscan] at he
  rw [scWrite, he, hid, Scan.copied, if_pos (by decide), proceed_returned, if_neg (by simp), sWrite, if_neg (by decide),
    if_pos (by decide), hopened, houtput]
  exact ⟨_, rfl, rfl⟩

/-- A process makes one call in two kernels that differ in which of its pages are in memory, and neither run ends
the simulator for want of a frame. A write has the same effect. An `Exec` has it if and only if both runs or none
meet a page that is not in memory in the name, or there is no such file; a read from a file if and only if each
byte that only one run drops was in memory before. -/
theorem calls_and_residency (h₁ : InCall k₁ s₁ f v) (h₂ : InCall k₂ s₂ f v) (ha : k₁.Alike k₂) :
    (∀ fuel, 2 * chSize + 2 ≤ fuel → k₁.scWrite fuel ≠ .ok .exited → k₂.scWrite fuel ≠ .ok .exited →
      SameEffect (k₁.scWrite fuel) (k₂.scWrite fuel)) ∧
    (k₁.scExec ≠ .ok .exited → k₂.scExec ≠ .ok .exited →
      (SameEffect k₁.scExec k₂.scExec ↔
        (InCall.MeetsCold s₁ v (k₁.registers arg1Reg) nameSize ↔ InCall.MeetsCold s₂ v (k₁.registers arg1Reg) nameSize) ∨
        Unopened k₁.files (scan s₁.numPages v (k₁.registers arg1Reg) [] nameSize))) ∧
    (2 ≤ (k₁.registers arg3Reg).toInt → k₁.scRead ≠ .ok .exited → k₂.scRead ≠ .ok .exited →
      (SameEffect k₁.scRead k₂.scRead ↔
        CInt.wrap ((k₁.registers arg2Reg).toInt + 10) ≤ 0 ∨
        SameDelivery s₁ s₂ v (k₁.registers arg1Reg).toNat
          (transfer s₁.numPages (k₁.registers arg1Reg) 0 (k₁.input (k₁.registers arg3Reg).toInt)
            (k₁.registers arg2Reg).toInt.toNat))) :=
  ⟨fun _ hf => h₁.scWrite_same h₂ ha hf, h₁.scExec_same_iff h₂ ha, h₁.scRead_same_iff h₂ ha⟩

theorem calls_and_residency_sample :
    (∀ resident, ∃ k, (sample resident).scWrite (2 * chSize + 2) = .ok (.returned () k) ∧ k.output 2 = [112]) ∧
    SameEffect ((sample false).scWrite (2 * chSize + 2)) ((sample true).scWrite (2 * chSize + 2)) := by
  refine ⟨sample_writes, ?_⟩
  exact (calls_and_residency (sample_inCall false) (sample_inCall true) sample_alike).1 _ (le_refl _)
    ((sample_inCall false).scWrite_room (sample_room false) _) ((sample_inCall true).scWrite_room (sample_room true) _)

theorem cold_page_changes_calls :
    InCall (sample false) (sampleSpace false) ⟨5 * pageSize, letter⟩ letter ∧
      InCall (sample true) (sampleSpace true) ⟨5 * pageSize, letter⟩ letter ∧ (sample false).Alike (sample true) ∧
      Room (sample false) (sampleSpace false) ∧ Room (sample true) (sampleSpace true) ∧
      ¬SameEffect (sample false).scExec (sample true).scExec ∧ ¬SameEffect (sample false).scRead (sample true).scRead := by
  have h₁ := sample_inCall false
  have h₂ := sample_inCall true
  refine ⟨h₁, h₂, sample_alike, sample_room false, sample_room true, ?_, ?_⟩
  · rw [h₁.scExec_same_iff h₂ sample_alike (h₁.scExec_room (sample_room false)) (h₂.scExec_room (sample_room true))]
    rintro (hiff | ⟨name, hname, -, hf⟩)
    · have hwarm := (sample_meetsCold true).mp (hiff.mp ((sample_meetsCold false).mpr rfl))
      cases hwarm
    · rw [show nameSize = 98 + 1 + 1 from rfl, sample_scan false 98] at hname
      cases hname
      simp [sample, AddrSpace.swapName_ne_short] at hf
  · rw [h₁.scRead_same_iff h₂ sample_alike (by decide) (h₁.scRead_room (sample_room false) (by decide))
      (h₂.scRead_room (sample_room true) (by decide))]
    rintro (hsize | hsame)
    · exact absurd hsize (by decide)
    · have ht : transfer (sampleSpace false).numPages ((sample false).registers arg1Reg) 0
          ((sample false).input ((sample false).registers arg3Reg).toInt)
          ((sample false).registers arg2Reg).toInt.toNat = .done 1 [5] [] := by
        change transfer 5 0 0 [5] 1 = _
        rw [transfer, transfer]
        simp [Inside, pageSize_eq, Transfer.cons]
      rw [ht] at hsame
      rcases hsame 0 5 rfl with hiff | hv
      · have hlost (resident : Bool) : Lost (sampleSpace resident) ((sample false).registers arg1Reg).toNat 0 ↔
            resident = false := by
          have harg : ((sample false).registers arg1Reg).toNat = 0 := rfl
          simp [Lost, harg, sampleSpace]
        have hwarm := (hlost true).mp (hiff.mp ((hlost false).mpr rfl))
        cases hwarm
      · exact absurd hv (by decide)

end Kernel

end Nachos
