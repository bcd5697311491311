import Nachos.UserProg.FrameOwnership

namespace Nachos

open Buffer Machine Reply

def Process.outline (p : Process) : Bool × Option (Word × Name) :=
  (p.killNewChild, p.space.map (fun s => (s.numPages, s.swapFileName)))

def Scratch (r : Register) : Prop := r = badVAddrReg ∨ r = loadReg ∨ r = loadValueReg ∨ r = gpReg 0

namespace Kernel

/-- Two kernels that differ in nothing but the frames, and in which pages of the running process are in them. -/
structure Alike (k₁ k₂ : Kernel) : Prop where
  host : k₁.host = k₂.host
  registers : ∀ r, ¬Scratch r → k₁.registers r = k₂.registers r
  virtualOption : k₁.virtualOption = k₂.virtualOption
  fifo : k₁.fifo = k₂.fifo
  random : k₁.random = k₂.random
  files : k₁.files = k₂.files
  garbage : k₁.garbage = k₂.garbage
  others : ∀ t, t ≠ k₁.current → k₁.processes t = k₂.processes t
  own : (k₁.processes k₁.current).map Process.outline = (k₂.processes k₂.current).map Process.outline
  current : k₁.current = k₂.current
  threadID : k₁.threadID = k₂.threadID
  activeThreads : k₁.activeThreads = k₂.activeThreads
  ready : k₁.ready = k₂.ready
  input : k₁.input = k₂.input
  output : k₁.output = k₂.output
  opened : k₁.opened = k₂.opened
  pooled : k₁.pooled = k₂.pooled

namespace Alike

variable {k k₁ k₂ k₃ : Kernel} {s s₁ s₂ : AddrSpace}

theorem refl (k : Kernel) : k.Alike k :=
  ⟨rfl, fun _ _ => rfl, rfl, rfl, rfl, rfl, rfl, fun _ _ => rfl, rfl, rfl, rfl, rfl, rfl, rfl, rfl, rfl, rfl⟩

theorem symm (h : k₁.Alike k₂) : k₂.Alike k₁ where
  host := h.host.symm
  registers r hr := (h.registers r hr).symm
  virtualOption := h.virtualOption.symm
  fifo := h.fifo.symm
  random := h.random.symm
  files := h.files.symm
  garbage := h.garbage.symm
  others t ht := (h.others t (h.current ▸ ht)).symm
  own := h.own.symm
  current := h.current.symm
  threadID := h.threadID.symm
  activeThreads := h.activeThreads.symm
  ready := h.ready.symm
  input := h.input.symm
  output := h.output.symm
  opened := h.opened.symm
  pooled := h.pooled.symm

theorem trans (h : k₁.Alike k₂) (h' : k₂.Alike k₃) : k₁.Alike k₃ where
  host := h.host.trans h'.host
  registers r hr := (h.registers r hr).trans (h'.registers r hr)
  virtualOption := h.virtualOption.trans h'.virtualOption
  fifo := h.fifo.trans h'.fifo
  random := h.random.trans h'.random
  files := h.files.trans h'.files
  garbage := h.garbage.trans h'.garbage
  others t ht := (h.others t ht).trans (h'.others t (h.current ▸ ht))
  own := h.own.trans h'.own
  current := h.current.trans h'.current
  threadID := h.threadID.trans h'.threadID
  activeThreads := h.activeThreads.trans h'.activeThreads
  ready := h.ready.trans h'.ready
  input := h.input.trans h'.input
  output := h.output.trans h'.output
  opened := h.opened.trans h'.opened
  pooled := h.pooled.trans h'.pooled

theorem paged (hs : k.space = .ok s) (s' : AddrSpace) (hn : s'.numPages = s.numPages) (hw : s'.swapFileName = s.swapFileName)
    {registers : Register → Word} (hr : ∀ r, ¬Scratch r → registers r = k.registers r) (mainMemory : Buffer)
    (bitMap : BitMap) (ipt : Nat → Option Tid) (iptVP : Nat → Int) :
    k.Alike (setSpace { k with registers, mainMemory, bitMap, ipt, iptVP } s') := by
  obtain ⟨c, hc⟩ := space_eq_ok.mp hs
  refine ⟨rfl, fun r h => (hr r h).symm, rfl, rfl, rfl, rfl, rfl, ?_, ?_, rfl, rfl, rfl, rfl, rfl, rfl, rfl, rfl⟩
  · intro t ht
    exact (Function.update_of_ne ht _ _).symm
  · simp [setSpace, setProcess, hc, Process.outline, hn, hw]

theorem touched (hs : k.space = .ok s) (pageTable : Nat → TranslationEntry) (mainMemory : Buffer) :
    k.Alike (setSpace { k with mainMemory } { s with pageTable }) :=
  paged hs { s with pageTable } rfl rfl (fun _ _ => rfl) mainMemory k.bitMap k.ipt k.iptVP

theorem withRegisters {registers : Register → Word} (hr : ∀ r, ¬Scratch r → registers r = k.registers r) :
    k.Alike { k with registers } :=
  ⟨rfl, fun r h => (hr r h).symm, rfl, rfl, rfl, rfl, rfl, fun _ _ => rfl, rfl, rfl, rfl, rfl, rfl, rfl, rfl, rfl, rfl⟩

theorem outline (h : k₁.Alike k₂) (h₁ : k₁.space = .ok s₁) (h₂ : k₂.space = .ok s₂) :
    s₁.numPages = s₂.numPages ∧ s₁.swapFileName = s₂.swapFileName := by
  obtain ⟨c₁, hc₁⟩ := space_eq_ok.mp h₁
  obtain ⟨c₂, hc₂⟩ := space_eq_ok.mp h₂
  have ho := h.own
  simp only [hc₁, hc₂, Option.map_some, Process.outline, Option.some.injEq, Prod.mk.injEq] at ho
  exact ho.2

end Alike

def contents (k : Kernel) (a : Nat) : Option Byte :=
  match k.space with
  | .error _ => none
  | .ok s =>
    if a / pageSize < s.numPages.toNat then
      if (s.pageTable (a / pageSize)).valid = true then some (k.mainMemory (frameAddress s.pageTable a))
      else (k.files s.swapFileName).map (fun f => f.bytes a)
    else none

end Kernel

theorem Paged.contents {k : Kernel} {s : AddrSpace} {f : UnixFile} {v : Buffer} (h : Paged k s f v) (a : Nat) :
    k.contents a = if a / pageSize < s.numPages.toNat then some (v a) else none := by
  simp only [Kernel.contents, h.space]
  have ho : a % pageSize < pageSize := Nat.mod_lt _ (by rw [pageSize_eq]; omega)
  by_cases hp : a / pageSize < s.numPages.toNat
  · rw [if_pos hp, if_pos hp]
    cases hv : (s.pageTable (a / pageSize)).valid with
    | true =>
      have hr := h.resident _ hp hv _ ho
      rw [Nat.div_add_mod'] at hr
      rw [if_pos rfl, frameAddress, hr]
    | false =>
      have hc := h.cold _ hp hv _ ho
      rw [Nat.div_add_mod'] at hc
      rw [if_neg (by simp), h.swap, Option.map_some, hc]
  · rw [if_neg hp, if_neg hp]

abbrev Inside (numPages addr : Word) : Prop := addr.toNat / pageSize < numPages.toNat

structure InCall (k : Kernel) (s : AddrSpace) (f : UnixFile) (v : Buffer) : Prop extends Paged k s f v where
  demand : k.virtualOption = 0
  raised : k.registers Nachos.loadReg = 0
  next : k.current ≠ k.threadID
  nextSwap : s.swapFileName ≠ AddrSpace.swapName k.threadID

namespace InCall

variable {k : Kernel} {s : AddrSpace} {f : UnixFile} {v : Buffer} {addr value : Word}

theorem scratch_raised {registers : Register → Word} (h : InCall k s f v) (hr : Raised k.registers addr registers)
    (r : Register) (hs : ¬Scratch r) : registers r = k.registers r := by
  simp only [Scratch, not_or] at hs
  exact hr.same h.raised r hs.1 hs.2.1 hs.2.2.1 hs.2.2.2

def SameValid (s s' : AddrSpace) : Prop :=
  s'.numPages = s.numPages ∧ ∀ p, (s'.pageTable p).valid = (s.pageTable p).valid

theorem sameValid_touch (s : AddrSpace) (p : Nat) (w : Bool) :
    SameValid s { s with pageTable := Machine.touch s.pageTable p w } := by
  refine ⟨rfl, ?_⟩
  intro q
  simp only [Machine.touch, Function.update_apply]
  split_ifs with hq
  · rw [hq]
  · rfl

section Access

variable {α : Type} {g : Machine → Except Fault (Outcome α)}

theorem access_outside (h : InCall k s f v)
    (hg : g (k.machine s) = (k.machine s).raiseException .addressErrorException addr) :
    ∃ k', InCall k' s f v ∧ k.Alike k' ∧ k.access g = proceed k'.fatal (fun _ k => .ok (.returned none k)) := by
  obtain ⟨registers, hr, he⟩ := Kernel.access_raised h.space h.loadReg hg
  exact ⟨{ k with registers }, ⟨h.toPaged.withRegisters (by simp [hr.loadReg]), h.demand, hr.loadReg, h.next, h.nextSwap⟩,
    Kernel.Alike.withRegisters (h.scratch_raised hr), he⟩

theorem access_fault (h : InCall k s f v)
    (hg : g (k.machine s) = (k.machine s).raiseException .pageFaultException addr)
    (hp : addr.toNat / pageSize < s.numPages.toNat) (hv : (s.pageTable (addr.toNat / pageSize)).valid = false)
    (hx : k.access g ≠ .ok .exited) :
    ∃ k' i, InCall k' (s.enter (addr.toNat / pageSize) i) f v ∧ k.Alike k' ∧ k.access g = .ok (.returned none k') := by
  rcases h.toPaged.access_cold h.demand hg hp hv with ⟨-, he⟩ | ⟨registers, i, hr, -, he, hpg⟩
  · exact absurd he hx
  · exact ⟨_, i, ⟨hpg, h.demand, hr.loadReg, h.next, h.nextSwap⟩,
      Kernel.Alike.paged h.space (s.enter (addr.toNat / pageSize) i) rfl rfl (h.scratch_raised hr) _ _ _ _, he⟩

end Access

theorem aligned (addr : Word) : ¬misaligned addr 1 := by simp [misaligned]

def Cold (s : AddrSpace) (addr : Word) : Prop := (s.pageTable (addr.toNat / pageSize)).valid = false

theorem readMem_outside (h : InCall k s f v) (ho : ¬Inside s.numPages addr) :
    ∃ k', InCall k' s f v ∧ k.Alike k' ∧
      k.readMem addr 1 = proceed k'.fatal (fun _ k => .ok (.returned none k)) :=
  h.access_outside (g := fun m => m.readMem addr 1)
    (readMem_of_fail (translate_outside (m := k.machine s) rfl rfl (Nat.le_of_not_lt ho) false))

theorem readMem_fault (h : InCall k s f v) (hi : Inside s.numPages addr) (hc : Cold s addr) (hx : k.readMem addr 1 ≠ .ok .exited) :
    ∃ k' i, InCall k' (s.enter (addr.toNat / pageSize) i) f v ∧ k.Alike k' ∧
      k.readMem addr 1 = .ok (.returned none k') :=
  h.access_fault (g := fun m => m.readMem addr 1)
    (readMem_of_fail (translate_cold (m := k.machine s) rfl rfl (aligned addr) hi hc false)) hi hc hx

theorem readMem_byte (h : InCall k s f v) (hi : Inside s.numPages addr) (hc : ¬Cold s addr) :
    ∃ k' s', InCall k' s' f v ∧ SameValid s s' ∧ k.Alike k' ∧
      k.readMem addr 1 = .ok (.returned (some ((v addr.toNat).signExtend 32)) k') := by
  have hv : (s.pageTable (addr.toNat / pageSize)).valid = true := by simpa [Cold] using hc
  have hmem : loaded k.host k.mainMemory (frameAddress s.pageTable addr.toNat) 1 = (v addr.toNat).signExtend 32 := by
    have ho : addr.toNat % pageSize < pageSize := Nat.mod_lt _ (by rw [pageSize_eq]; omega)
    have hr := h.resident _ hi hv _ ho
    rw [Nat.div_add_mod'] at hr
    rw [← hr]
    rfl
  refine ⟨_, _, ⟨h.toPaged.touch (addr.toNat / pageSize) false, h.demand, h.raised, h.next, h.nextSwap⟩,
    sameValid_touch .., Kernel.Alike.touched h.space _ _, ?_⟩
  rw [Kernel.readMem_resident h.space (.inl rfl) (aligned addr) (h.isResident hi hv), hmem]

theorem writeMem_outside (h : InCall k s f v) (value : Word) (ho : ¬Inside s.numPages addr) :
    ∃ k', InCall k' s f v ∧ k.Alike k' ∧
      k.writeMem addr 1 value = proceed k'.fatal (fun _ k => .ok (.returned none k)) :=
  h.access_outside (g := fun m => m.writeMem addr 1 value)
    (writeMem_of_fail (translate_outside (m := k.machine s) rfl rfl (Nat.le_of_not_lt ho) true))

theorem writeMem_fault (h : InCall k s f v) (hi : Inside s.numPages addr) (hc : Cold s addr)
    (hx : k.writeMem addr 1 value ≠ .ok .exited) :
    ∃ k' i, InCall k' (s.enter (addr.toNat / pageSize) i) f v ∧ k.Alike k' ∧
      k.writeMem addr 1 value = .ok (.returned none k') :=
  h.access_fault (g := fun m => m.writeMem addr 1 value)
    (writeMem_of_fail (translate_cold (m := k.machine s) rfl rfl (aligned addr) hi hc true)) hi hc hx

theorem writeMem_byte (h : InCall k s f v) (value : Word) (hi : Inside s.numPages addr) (hc : ¬Cold s addr) :
    ∃ k' s', InCall k' s' f (v.record addr.toNat 1 value) ∧ SameValid s s' ∧ k.Alike k' ∧
      k.writeMem addr 1 value = .ok (.returned (some ()) k') := by
  have hv : (s.pageTable (addr.toNat / pageSize)).valid = true := by simpa [Cold] using hc
  refine ⟨_, _, ⟨(h.toPaged.write (.inl rfl) (aligned addr) hi hv).touch (addr.toNat / pageSize) true, h.demand, h.raised,
    h.next, h.nextSwap⟩, sameValid_touch .., Kernel.Alike.touched h.space _ _, ?_⟩
  exact Kernel.writeMem_resident h.space (.inl rfl) (aligned addr) (h.isResident hi hv)

end InCall

def Kernel.die {α : Type} (k : Kernel) : Except Fault (Reply α) := proceed k.fatal (fun _ _ => .error .indeterminate)

theorem Kernel.proceed_fatal {α : Type} (k : Kernel) (g : Unit → Kernel → Except Fault (Reply α)) :
    proceed k.fatal g = k.die := by
  rw [die]
  cases h : k.fatal with
  | error e => rfl
  | ok x =>
    cases x with
    | returned a k' => exact absurd h fatal_ne_returned
    | finished k' => rfl
    | exited => rfl
    | running => rfl

theorem Kernel.proceed_die {α β : Type} (k : Kernel) (g : α → Kernel → Except Fault (Reply β)) :
    proceed k.die g = k.die := by
  rw [die, die]
  cases h : k.fatal with
  | error e => rfl
  | ok x =>
    cases x with
    | returned a k' => exact absurd h fatal_ne_returned
    | finished k' => rfl
    | exited => rfl
    | running => rfl

def Kernel.killed (k : Kernel) (s : AddrSpace) : Kernel :=
  Kernel.finish { k with
    bitMap := { k.bitMap with map := (List.range numPhysPages).foldl Words.clear k.bitMap.map }
    files := Function.update k.files s.swapFileName none }

theorem InCall.die_eq {α : Type} {k : Kernel} {s : AddrSpace} {f : UnixFile} {v : Buffer} (h : InCall k s f v) :
    (k.die : Except Fault (Reply α)) =
      if k.current = 0 ∧ k.pooled = true then .error .assertion else .ok (.finished (k.killed s)) := by
  obtain ⟨c, hc⟩ := Kernel.space_eq_ok.mp h.space
  by_cases hm : k.current = 0 ∧ k.pooled = true
  · rw [if_pos hm, Kernel.die, Kernel.fatal, assert_neg (not_not.mpr hm)]
    rfl
  · have hf : k.fatal = .ok (.finished (k.killed s)) := by
      simp only [Kernel.fatal, assert_pos hm, ok_bind, hc, Kernel.deleteSpace, BitMap.clearAll k.bitMap h.bits.ge]
      rfl
    rw [if_neg hm, Kernel.die, hf, proceed_finished]

theorem Reply.proceed_exited {α β : Type} {x : Except Fault (Reply α)} {g : α → Kernel → Except Fault (Reply β)}
    (h : proceed x g ≠ .ok .exited) : x ≠ .ok .exited := by
  rintro rfl
  exact h rfl

inductive Scan where
  | ended (text : List Byte)
  | outside
  | tooLong

def scan (numPages : Word) (v : Buffer) (addr : Word) (text : List Byte) : Nat → Scan
  | 0 =>
    if Inside numPages addr then if v addr.toNat = 0#8 then .ended text else .tooLong
    else .outside
  | n + 1 =>
    if Inside numPages addr then
      if v addr.toNat = 0#8 then .ended text else scan numPages v (addr + 1) (text ++ [v addr.toNat]) n
    else .outside

def Scan.copied (k : Kernel) : Scan → Except Fault (Reply (List Byte))
  | .ended text => if text.length < Kernel.chSize then .ok (.returned text k) else .error .outOfBounds
  | .outside => k.die
  | .tooLong => .error .outOfBounds

theorem signExtend_eq_zero (b : Byte) : b.signExtend 32 = 0 ↔ b = 0#8 := by
  constructor
  · intro h
    rw [← byteOf_signExtend b, h]
    rfl
  · rintro rfl
    rfl

theorem setWidth_signExtend (b : Byte) : (b.signExtend 32).setWidth 8 = b := by
  exact byteOf_signExtend b

namespace InCall

variable {k : Kernel} {s : AddrSpace} {f : UnixFile} {v : Buffer} {addr value : Word} {n fuel : Nat} {ch : List Byte}

theorem copyIn_warm (h : InCall k s f v) (hi : Inside s.numPages (addr + .ofNat 32 ch.length))
    (hc : ¬Cold s (addr + .ofNat 32 ch.length)) (fuel : Nat) :
    ∃ k' s', InCall k' s' f v ∧ k.Alike k' ∧ k.copyIn addr ch (fuel + 1) =
      if ch.length < Kernel.chSize then
        if v (addr + .ofNat 32 ch.length).toNat = 0#8 then .ok (.returned ch k')
        else k'.copyIn addr (ch ++ [v (addr + .ofNat 32 ch.length).toNat]) fuel
      else .error .outOfBounds := by
  obtain ⟨k', s', h', -, ha, he⟩ := h.readMem_byte hi hc
  refine ⟨k', s', h', ha, ?_⟩
  rw [Kernel.copyIn, he, proceed_returned]
  simp only [setWidth_signExtend]

theorem copyIn_inside (h : InCall k s f v) (hi : Inside s.numPages (addr + .ofNat 32 ch.length))
    (hx : k.copyIn addr ch (fuel + 2) ≠ .ok .exited) :
    ∃ k' s' m, fuel ≤ m ∧ InCall k' s' f v ∧ k.Alike k' ∧ k.copyIn addr ch (fuel + 2) =
      if ch.length < Kernel.chSize then
        if v (addr + .ofNat 32 ch.length).toNat = 0#8 then .ok (.returned ch k')
        else k'.copyIn addr (ch ++ [v (addr + .ofNat 32 ch.length).toNat]) m
      else .error .outOfBounds := by
  by_cases hc : Cold s (addr + .ofNat 32 ch.length)
  · obtain ⟨k₁, i, h₁, ha₁, he₁⟩ := h.readMem_fault hi hc (proceed_exited hx)
    have hwarm : ¬Cold (s.enter ((addr + .ofNat 32 ch.length).toNat / pageSize) i) (addr + .ofNat 32 ch.length) := by
      simp [Cold, AddrSpace.enter]
    obtain ⟨k', s', h', ha', he'⟩ := h₁.copyIn_warm hi hwarm fuel
    refine ⟨k', s', fuel, le_refl _, h', ha₁.trans ha', ?_⟩
    rw [← he', Kernel.copyIn, he₁, proceed_returned]
  · obtain ⟨k', s', h', ha', he'⟩ := h.copyIn_warm hi hc (fuel + 1)
    exact ⟨k', s', fuel + 1, Nat.le_succ _, h', ha', he'⟩

theorem copyIn_outside (h : InCall k s f v) (ho : ¬Inside s.numPages (addr + .ofNat 32 ch.length)) (fuel : Nat) :
    ∃ k', InCall k' s f v ∧ k.Alike k' ∧ k.copyIn addr ch (fuel + 1) = k'.die := by
  obtain ⟨k', h', ha, he⟩ := h.readMem_outside ho
  refine ⟨k', h', ha, ?_⟩
  rw [Kernel.copyIn, he, Kernel.proceed_fatal, Kernel.proceed_die]

theorem copyIn_eq (h : InCall k s f v) (hn : ch.length + n = Kernel.chSize) (hf : 2 * n + 2 ≤ fuel)
    (hx : k.copyIn addr ch fuel ≠ .ok .exited) :
    ∃ k' s', InCall k' s' f v ∧ k.Alike k' ∧
      k.copyIn addr ch fuel = (scan s.numPages v (addr + .ofNat 32 ch.length) ch n).copied k' := by
  induction n generalizing k s ch fuel with
  | zero =>
    obtain ⟨fuel, rfl⟩ := Nat.exists_eq_add_of_le' hf
    by_cases hi : Inside s.numPages (addr + .ofNat 32 ch.length)
    · obtain ⟨k', s', m, hm, h', ha, he⟩ := h.copyIn_inside hi hx
      refine ⟨k', s', h', ha, ?_⟩
      rw [he, if_neg (by omega), scan, if_pos hi]
      split_ifs
      · rw [Scan.copied, if_neg (by omega)]
      · rfl
    · obtain ⟨k', h', ha, he⟩ := h.copyIn_outside hi (fuel + 1)
      refine ⟨k', s, h', ha, ?_⟩
      rw [scan, if_neg hi]
      exact he
  | succ n ih =>
    obtain ⟨fuel, rfl⟩ := Nat.exists_eq_add_of_le' (Nat.le_trans (by omega : 2 ≤ 2 * (n + 1) + 2) hf)
    by_cases hi : Inside s.numPages (addr + .ofNat 32 ch.length)
    · obtain ⟨k₁, s₁, m, hm, h₁, ha₁, he₁⟩ := h.copyIn_inside hi hx
      rw [if_pos (by omega)] at he₁
      rw [scan, if_pos hi]
      split_ifs at he₁ ⊢ with hz
      · refine ⟨k₁, s₁, h₁, ha₁, ?_⟩
        rw [he₁, Scan.copied, if_pos (by omega)]
      · rw [he₁] at hx ⊢
        have hnext : addr + BitVec.ofNat 32 (ch ++ [v (addr + .ofNat 32 ch.length).toNat]).length =
            addr + .ofNat 32 ch.length + 1 := by
          rw [List.length_append, List.length_singleton, BitVec.ofNat_add, ← BitVec.add_assoc]
          rfl
        obtain ⟨k', s', h', ha', he'⟩ := ih h₁ (by simp; omega) (by omega) hx
        rw [hnext, ← (ha₁.outline h.space h₁.space).1] at he'
        exact ⟨k', s', h', ha₁.trans ha', he'⟩
    · obtain ⟨k', h', ha, he⟩ := h.copyIn_outside hi (fuel + 1)
      refine ⟨k', s, h', ha, ?_⟩
      rw [scan, if_neg hi]
      exact he

def MeetsCold (s : AddrSpace) (v : Buffer) (addr : Word) (n : Nat) : Prop :=
  ∃ j ≤ n, (∀ i < j, Inside s.numPages (addr + .ofNat 32 i) ∧ v (addr + .ofNat 32 i).toNat ≠ 0#8) ∧
    Inside s.numPages (addr + .ofNat 32 j) ∧ Cold s (addr + .ofNat 32 j)

theorem meetsCold_zero : MeetsCold s v addr 0 ↔ Inside s.numPages addr ∧ Cold s addr := by
  have h0 : addr + BitVec.ofNat 32 0 = addr := BitVec.add_zero addr
  constructor
  · rintro ⟨j, hj, -, hi, hc⟩
    obtain rfl : j = 0 := by omega
    rw [h0] at hi hc
    exact ⟨hi, hc⟩
  · rintro ⟨hi, hc⟩
    exact ⟨0, le_refl 0, by simp, by rwa [h0], by rwa [h0]⟩

theorem meetsCold_succ : MeetsCold s v addr (n + 1) ↔
    Inside s.numPages addr ∧ (Cold s addr ∨ v addr.toNat ≠ 0#8 ∧ MeetsCold s v (addr + 1) n) := by
  have h0 : addr + BitVec.ofNat 32 0 = addr := BitVec.add_zero addr
  have hsucc (j : Nat) : addr + BitVec.ofNat 32 (j + 1) = addr + 1 + .ofNat 32 j := by
    rw [Nat.add_comm j 1, BitVec.ofNat_add, ← BitVec.add_assoc]
    rfl
  constructor
  · rintro ⟨j, hj, hall, hi, hc⟩
    cases j with
    | zero =>
      rw [h0] at hi hc
      exact ⟨hi, .inl hc⟩
    | succ j =>
      have h₀ := hall 0 (Nat.succ_pos j)
      rw [h0] at h₀
      rw [hsucc] at hi hc
      refine ⟨h₀.1, .inr ⟨h₀.2, j, Nat.le_of_succ_le_succ hj, ?_, hi, hc⟩⟩
      intro i hij
      rw [← hsucc]
      exact hall (i + 1) (Nat.succ_lt_succ hij)
  · rintro ⟨hi, hc | ⟨hz, j, hj, hall, hij, hcj⟩⟩
    · exact ⟨0, Nat.zero_le _, by simp, by rwa [h0], by rwa [h0]⟩
    · refine ⟨j + 1, Nat.succ_le_succ hj, ?_, by rwa [hsucc], by rwa [hsucc]⟩
      intro i hlt
      cases i with
      | zero =>
        rw [h0]
        exact ⟨hi, hz⟩
      | succ i =>
        rw [hsucc]
        exact hall i (Nat.lt_of_succ_lt_succ hlt)

theorem SameValid.meetsCold {s' : AddrSpace} (h : SameValid s s') : MeetsCold s' v addr n ↔ MeetsCold s v addr n := by
  simp only [MeetsCold, Cold, h.1, h.2]

end InCall

def Scan.named (k : Kernel) : Scan → Except Fault (Reply (Option Name))
  | .ended text => .ok (.returned (some text) k)
  | .outside => k.die
  | .tooLong => .error .outOfBounds

namespace InCall

variable {k : Kernel} {s : AddrSpace} {f : UnixFile} {v : Buffer} {addr : Word} {n : Nat} {filename : Name}

theorem readName_step (h : InCall k s f v) {g : Option Word → Kernel → Except Fault (Reply (Option Name))}
    (hg : ∀ k, g none k = .ok (.returned none k)) (hx : proceed (k.readMem addr 1) g ≠ .ok .exited) :
    ∃ k' s', InCall k' s' f v ∧ k.Alike k' ∧
      (¬Inside s.numPages addr ∧ proceed (k.readMem addr 1) g = k'.die ∨
        Inside s.numPages addr ∧ Cold s addr ∧ proceed (k.readMem addr 1) g = .ok (.returned none k') ∨
        Inside s.numPages addr ∧ ¬Cold s addr ∧ SameValid s s' ∧
          proceed (k.readMem addr 1) g = g (some ((v addr.toNat).signExtend 32)) k') := by
  by_cases hi : Inside s.numPages addr
  · by_cases hc : Cold s addr
    · obtain ⟨k', i, h', ha, he⟩ := h.readMem_fault hi hc (proceed_exited hx)
      refine ⟨k', _, h', ha, .inr (.inl ⟨hi, hc, ?_⟩)⟩
      rw [he, proceed_returned, hg]
    · obtain ⟨k', s', h', hs, ha, he⟩ := h.readMem_byte hi hc
      refine ⟨k', s', h', ha, .inr (.inr ⟨hi, hc, hs, ?_⟩)⟩
      rw [he, proceed_returned]
  · obtain ⟨k', h', ha, he⟩ := h.readMem_outside hi
    refine ⟨k', s, h', ha, .inl ⟨hi, ?_⟩⟩
    rw [he, Kernel.proceed_fatal, Kernel.proceed_die]

theorem readName_eq (h : InCall k s f v) (hx : k.readName addr filename n ≠ .ok .exited) :
    ∃ k' s', InCall k' s' f v ∧ k.Alike k' ∧
      (MeetsCold s v addr n → k.readName addr filename n = .ok (.returned none k')) ∧
      (¬MeetsCold s v addr n → k.readName addr filename n = (scan s.numPages v addr filename n).named k') := by
  induction n generalizing k s addr filename with
  | zero =>
    rw [Kernel.readName] at hx ⊢
    obtain ⟨k', s', h', ha, ⟨hi, he⟩ | ⟨hi, hc, he⟩ | ⟨hi, hc, -, he⟩⟩ := h.readName_step (fun _ => rfl) hx
    all_goals
      refine ⟨k', s', h', ha, ?_⟩
      rw [he, meetsCold_zero, scan]
    · exact ⟨fun hm => absurd hm.1 hi, fun _ => by rw [if_neg hi]; rfl⟩
    · exact ⟨fun _ => rfl, fun hm => absurd ⟨hi, hc⟩ hm⟩
    · refine ⟨fun hm => absurd hm.2 hc, fun _ => ?_⟩
      simp only [signExtend_eq_zero, if_pos hi]
      split_ifs
      · rfl
      · rfl
  | succ n ih =>
    rw [Kernel.readName] at hx ⊢
    obtain ⟨k', s', h', ha, ⟨hi, he⟩ | ⟨hi, hc, he⟩ | ⟨hi, hc, hs, he⟩⟩ := h.readName_step (fun _ => rfl) hx
    · refine ⟨k', s', h', ha, ?_⟩
      rw [he, meetsCold_succ, scan]
      exact ⟨fun hm => absurd hm.1 hi, fun _ => by rw [if_neg hi]; rfl⟩
    · refine ⟨k', s', h', ha, ?_⟩
      rw [he, meetsCold_succ]
      exact ⟨fun _ => rfl, fun hm => absurd ⟨hi, .inl hc⟩ hm⟩
    · rw [he] at hx ⊢
      simp only [signExtend_eq_zero, setWidth_signExtend] at hx ⊢
      rw [meetsCold_succ, scan, if_pos hi]
      split_ifs at hx ⊢ with hz
      · exact ⟨k', s', h', ha, fun hm => absurd hz (hm.2.resolve_left hc).1, fun _ => rfl⟩
      · obtain ⟨k₂, s₂, h₂, ha₂, hcold, hwarm⟩ := ih h' hx
        rw [hs.meetsCold] at hcold hwarm
        rw [hs.1] at hwarm
        refine ⟨k₂, s₂, h₂, ha.trans ha₂, ?_, ?_⟩
        · exact fun hm => hcold (hm.2.resolve_left hc).2
        · exact fun hm => hwarm (fun hm' => hm ⟨hi, .inr ⟨hz, hm'⟩⟩)

end InCall

inductive Transfer where
  | done (num : Nat) (sent rest : List Byte)
  | outside (rest : List Byte)
  | short

def Transfer.cons (b : Byte) : Transfer → Transfer
  | .done num sent rest => .done num (b :: sent) rest
  | x => x

def transfer (numPages addr : Word) (num : Nat) (bytes : List Byte) : Nat → Transfer
  | 0 => .done num [] bytes
  | n + 1 =>
    match bytes with
    | [] => .short
    | b :: rest =>
      if Inside numPages addr then
        if b = 0#8 then .done num [b] rest else (transfer numPages (addr + 1) (num + 1) rest n).cons b
      else .outside rest

/-- Byte `j` of the delivery is the first on a page that is not in memory: the fault is served, and the byte dropped. -/
def Lost (s : AddrSpace) (addr j : Nat) : Prop :=
  (s.pageTable ((addr + j) / pageSize)).valid = false ∧ (j = 0 ∨ (addr + j) % pageSize = 0)

instance (s : AddrSpace) (addr j : Nat) : Decidable (Lost s addr j) := inferInstanceAs (Decidable (_ ∧ _))

structure Delivered (s : AddrSpace) (v : Buffer) (addr : Nat) (sent : List Byte) (v' : Buffer) : Prop where
  inside : ∀ j b, sent[j]? = some b → v' (addr + j) = if Lost s addr j then v (addr + j) else b
  outside : ∀ a, a < addr ∨ addr + sent.length ≤ a → v' a = v a

def BroughtIn (s s' : AddrSpace) (p : Nat) : Prop :=
  (s'.pageTable p).valid = true ∧ ∀ q, q ≠ p → (s'.pageTable q).valid = (s.pageTable q).valid

theorem BroughtIn.lost {s s' : AddrSpace} {a j : Nat} (h : BroughtIn s s' (a / pageSize)) :
    Lost s' (a + 1) j ↔ Lost s a (j + 1) := by
  have hj : a + 1 + j = a + (j + 1) := by omega
  simp only [Lost, hj, Nat.succ_ne_zero, false_or]
  by_cases hz : (a + (j + 1)) % pageSize = 0
  · have hne : (a + (j + 1)) / pageSize ≠ a / pageSize := by
      rw [pageSize_eq] at *
      omega
    simp [hz, h.2 _ hne]
  · have hfirst : ¬((s'.pageTable ((a + (j + 1)) / pageSize)).valid = false ∧ j = 0) := by
      rintro ⟨hv, rfl⟩
      have he : (a + (0 + 1)) / pageSize = a / pageSize := by
        rw [pageSize_eq] at *
        omega
      rw [he, h.1] at hv
      cases hv
    simp only [hz, or_false, and_false, iff_false]
    exact hfirst

namespace Delivered

variable {s s' : AddrSpace} {v v₁ v' : Buffer} {a : Nat} {b : Byte} {sent : List Byte}

theorem nil (s : AddrSpace) (v : Buffer) (a : Nat) : Delivered s v a [] v :=
  ⟨by simp, fun _ _ => rfl⟩

theorem cons (hb : BroughtIn s s' (a / pageSize)) (h₁ : v₁ a = if Lost s a 0 then v a else b)
    (ho : ∀ c, c ≠ a → v₁ c = v c) (h : Delivered s' v₁ (a + 1) sent v') : Delivered s v a (b :: sent) v' where
  inside j c hc := by
    cases j with
    | zero =>
      obtain rfl : b = c := by simpa using hc
      rw [Nat.add_zero, h.outside a (.inl (by omega)), h₁]
    | succ j =>
      rw [List.getElem?_cons_succ] at hc
      have hj : a + (j + 1) = a + 1 + j := by omega
      rw [hj, h.inside j c hc, ho _ (by omega)]
      simp only [hb.lost]
  outside c hc := by
    rw [List.length_cons] at hc
    rw [h.outside c (by omega), ho c (by omega)]

end Delivered

namespace InCall

variable {k : Kernel} {s : AddrSpace} {f : UnixFile} {v : Buffer} {addr value : Word} {n num : Nat} {b : Byte} {id : Int}

theorem withInput (h : InCall k s f v) (input : Int → List Byte) : InCall { k with input } s f v :=
  ⟨⟨h.space, h.swap, h.length, h.bound, h.bits, h.loadReg, h.readOnly, h.frame, h.distinct, h.resident, h.cold⟩,
    h.demand, h.raised, h.next, h.nextSwap⟩

theorem toNat_succ (h : InCall k s f v) (hi : Inside s.numPages addr) : (addr + 1).toNat = addr.toNat + 1 := by
  have hb := h.bound
  have hlt : addr.toNat < 2 ^ 31 := by
    simp only [Inside] at hi
    rw [pageSize_eq] at hb hi
    omega
  rw [BitVec.toNat_add]
  change (addr.toNat + 1) % 2 ^ 32 = _
  omega

theorem writeMem_inside (h : InCall k s f v) (hi : Inside s.numPages addr) (b : Byte)
    (hx : k.writeMem addr 1 (b.signExtend 32) ≠ .ok .exited) :
    ∃ k' s' v₁ r, InCall k' s' f v₁ ∧ k.Alike k' ∧ BroughtIn s s' (addr.toNat / pageSize) ∧
      v₁ addr.toNat = (if Lost s addr.toNat 0 then v addr.toNat else b) ∧ (∀ c, c ≠ addr.toNat → v₁ c = v c) ∧
      k.writeMem addr 1 (b.signExtend 32) = .ok (.returned r k') := by
  have hlost : Lost s addr.toNat 0 ↔ Cold s addr := by simp [Lost, Cold]
  by_cases hc : Cold s addr
  · obtain ⟨k', i, h', ha, he⟩ := h.writeMem_fault hi hc hx
    refine ⟨k', _, v, none, h', ha, ⟨?_, ?_⟩, by rw [if_pos (hlost.mpr hc)], fun _ _ => rfl, he⟩
    · simp [AddrSpace.enter]
    · intro q hq
      simp [AddrSpace.enter, hq]
  · obtain ⟨k', s', h', hs, ha, he⟩ := h.writeMem_byte (b.signExtend 32) hi hc
    refine ⟨k', s', _, some (), h', ha, ⟨?_, fun q _ => hs.2 q⟩, ?_, ?_, he⟩
    · rw [hs.2]
      simpa [Cold] using hc
    · rw [if_neg (mt hlost.mp hc), Buffer.record, if_pos (by omega), Nat.sub_self, byteOf_signExtend]
    · intro c hne
      rw [Buffer.record, if_neg (by omega)]

theorem readFrom_eq (h : InCall k s f v) (hx : k.readFrom addr id num n ≠ .ok .exited) :
    transfer s.numPages (addr + .ofNat 32 num) num (k.input id) n = .short ∧
        k.readFrom addr id num n = .error .assertion ∨
      (∃ rest k' s' v', transfer s.numPages (addr + .ofNat 32 num) num (k.input id) n = .outside rest ∧
        InCall k' s' f v' ∧ Kernel.Alike { k with input := Function.update k.input id rest } k' ∧
        k.readFrom addr id num n = k'.die) ∨
      ∃ m sent rest k' s' v', transfer s.numPages (addr + .ofNat 32 num) num (k.input id) n = .done m sent rest ∧
        InCall k' s' f v' ∧ Kernel.Alike { k with input := Function.update k.input id rest } k' ∧
        k.readFrom addr id num n = .ok (.returned m k') ∧
        Delivered s v (addr + .ofNat 32 num).toNat sent v' := by
  induction n generalizing k s v num with
  | zero =>
    refine .inr (.inr ⟨num, [], k.input id, k, s, v, rfl, h, ?_, rfl, .nil ..⟩)
    rw [Function.update_eq_self]
    exact .refl k
  | succ n ih =>
    rw [Kernel.readFrom] at hx ⊢
    cases hin : k.input id with
    | nil => exact .inl ⟨rfl, rfl⟩
    | cons b rest =>
      simp only [hin, transfer] at hx ⊢
      have h₀ := h.withInput (Function.update k.input id rest)
      by_cases hi : Inside s.numPages (addr + .ofNat 32 num)
      · obtain ⟨k', s', v₁, r, h', ha, hb, hv, ho, he⟩ := h₀.writeMem_inside hi b (proceed_exited hx)
        rw [he, proceed_returned] at hx ⊢
        rw [if_pos hi]
        split_ifs at hx ⊢ with hz
        · exact .inr (.inr ⟨num, [b], rest, k', s', v₁, rfl, h', ha, rfl, .cons hb hv ho (.nil ..)⟩)
        · have hnext : addr + BitVec.ofNat 32 (num + 1) = addr + .ofNat 32 num + 1 := by
            rw [BitVec.ofNat_add, ← BitVec.add_assoc]
            rfl
          have hinput : k'.input id = rest := by
            rw [← ha.input]
            exact Function.update_self ..
          have hupd (rest' : List Byte) : Kernel.Alike { k with input := Function.update k.input id rest' }
              { k' with input := Function.update k'.input id rest' } := by
            have hi' := ha.input
            simp only at hi'
            refine { ha with input := ?_ }
            simp only [← hi', Function.update_idem]
          have hrec := ih h' hx
          rw [hnext, hinput, ← (ha.outline h₀.space h'.space).1] at hrec
          rcases hrec with ⟨ht, he'⟩ | ⟨rest', k₂, s₂, v₂, ht, h₂, ha₂, he'⟩ | ⟨m, sent, rest', k₂, s₂, v₂, ht, h₂, ha₂, he', hd⟩
          · exact .inl ⟨by rw [ht]; rfl, he'⟩
          · exact .inr (.inl ⟨rest', k₂, s₂, v₂, by rw [ht]; rfl, h₂, (hupd rest').trans ha₂, he'⟩)
          · rw [h.toNat_succ hi] at hd
            exact .inr (.inr ⟨m, b :: sent, rest', k₂, s₂, v₂, by rw [ht]; rfl, h₂, (hupd rest').trans ha₂, he',
              .cons hb hv ho hd⟩)
      · obtain ⟨k', h', ha, he⟩ := h₀.writeMem_outside (b.signExtend 32) hi
        refine .inr (.inl ⟨rest, k', s, v, by rw [if_neg hi], h', ha, ?_⟩)
        rw [he, Kernel.proceed_fatal, Kernel.proceed_die]

end InCall

def AddrSpace.coldPages (s : AddrSpace) : Finset Nat :=
  (Finset.range s.numPages.toNat).filter (fun p => (s.pageTable p).valid = false)

def Room (k : Kernel) (s : AddrSpace) : Prop := s.coldPages.card ≤ k.bitMap.numClear

theorem BitMap.numClear_mark {b : BitMap} {i : Nat} (hi : i < b.numBits) (hm : i ∉ b.marked) :
    BitMap.numClear { b with map := b.map.mark i } + 1 = b.numClear := by
  have h₁ := b.numClear_add_card
  have h₂ := BitMap.numClear_add_card { b with map := b.map.mark i }
  rw [BitMap.marked_mark hi, Finset.card_insert_of_notMem hm] at h₂
  simp only at h₂
  omega

theorem AddrSpace.coldPages_enter (s : AddrSpace) (p i : Nat) : (s.enter p i).coldPages = s.coldPages.erase p := by
  ext q
  rw [coldPages, coldPages, Finset.mem_filter, Finset.mem_erase, Finset.mem_filter]
  by_cases hq : q = p
  · simp [hq, AddrSpace.enter]
  · simp [hq, AddrSpace.enter]

namespace InCall

variable {k : Kernel} {s : AddrSpace} {f : UnixFile} {v : Buffer} {addr value : Word} {n num fuel : Nat} {id : Int}

theorem room_fault {α : Type} {g : Machine → Except Fault (Outcome α)} (h : InCall k s f v) (hr : Room k s)
    (hg : g (k.machine s) = (k.machine s).raiseException .pageFaultException addr) (hi : Inside s.numPages addr)
    (hc : Cold s addr) : ∃ k' s', InCall k' s' f v ∧ Room k' s' ∧ k.access g = .ok (.returned none k') := by
  have hp : addr.toNat / pageSize ∈ s.coldPages := Finset.mem_filter.mpr ⟨Finset.mem_range.mpr hi, hc⟩
  have hcard := Finset.card_erase_of_mem hp
  have hpos := Finset.card_pos.mpr ⟨_, hp⟩
  simp only [Room] at hr
  rcases Kernel.access_cold h.space h.loadReg hg h.swap (h.page_eq hi) hi h.demand with
    ⟨hz, -⟩ | ⟨registers, i, hreg, hib, him, he⟩
  · omega
  · have hload : (registers Nachos.loadReg).toNat < numGPRegs := by simp [hreg.loadReg]
    have hpg := (h.toPaged.withRegisters hload).pagedIn hi hc (h.bits ▸ hib) him
    refine ⟨_, _, ⟨hpg, h.demand, hreg.loadReg, h.next, h.nextSwap⟩, ?_, he⟩
    have hclear := BitMap.numClear_mark hib him
    rw [Room, AddrSpace.coldPages_enter]
    change _ ≤ BitMap.numClear ⟨k.bitMap.numBits, k.bitMap.map.mark i⟩
    omega

theorem SameValid.room {s' : AddrSpace} {k' : Kernel} (h : SameValid s s') (hb : k'.bitMap = k.bitMap) (hr : Room k s) :
    Room k' s' := by
  simpa only [Room, AddrSpace.coldPages, h.1, h.2, hb] using hr

theorem readMem_room (h : InCall k s f v) (hr : Room k s) (addr : Word) :
    (∃ k' s', InCall k' s' f v ∧ k.readMem addr 1 = k'.die) ∨
      ∃ k' s' r, InCall k' s' f v ∧ Room k' s' ∧ k.readMem addr 1 = .ok (.returned r k') := by
  by_cases hi : Inside s.numPages addr
  · by_cases hc : Cold s addr
    · obtain ⟨k', s', h', hr', he⟩ := h.room_fault (g := fun m => m.readMem addr 1) hr
        (readMem_of_fail (translate_cold (m := k.machine s) rfl rfl (aligned addr) hi hc false)) hi hc
      exact .inr ⟨k', s', none, h', hr', he⟩
    · have hv : (s.pageTable (addr.toNat / pageSize)).valid = true := by simpa [Cold] using hc
      exact .inr ⟨_, _, _, ⟨h.toPaged.touch (addr.toNat / pageSize) false, h.demand, h.raised, h.next, h.nextSwap⟩,
        (sameValid_touch ..).room rfl hr, Kernel.readMem_resident h.space (.inl rfl) (aligned addr) (h.isResident hi hv)⟩
  · obtain ⟨k', h', -, he⟩ := h.readMem_outside hi
    exact .inl ⟨k', s, h', by rw [he, Kernel.proceed_fatal]⟩

theorem writeMem_room (h : InCall k s f v) (hr : Room k s) (addr value : Word) :
    (∃ k' s', InCall k' s' f v ∧ k.writeMem addr 1 value = k'.die) ∨
      ∃ k' s' v' r, InCall k' s' f v' ∧ Room k' s' ∧ k.writeMem addr 1 value = .ok (.returned r k') := by
  by_cases hi : Inside s.numPages addr
  · by_cases hc : Cold s addr
    · obtain ⟨k', s', h', hr', he⟩ := h.room_fault (g := fun m => m.writeMem addr 1 value) hr
        (writeMem_of_fail (translate_cold (m := k.machine s) rfl rfl (aligned addr) hi hc true)) hi hc
      exact .inr ⟨k', s', v, none, h', hr', he⟩
    · have hv : (s.pageTable (addr.toNat / pageSize)).valid = true := by simpa [Cold] using hc
      exact .inr ⟨_, _, _, _, ⟨(h.toPaged.write (.inl rfl) (aligned addr) hi hv).touch (addr.toNat / pageSize) true,
        h.demand, h.raised, h.next, h.nextSwap⟩, (sameValid_touch ..).room rfl hr,
        Kernel.writeMem_resident h.space (.inl rfl) (aligned addr) (h.isResident hi hv)⟩
  · obtain ⟨k', h', -, he⟩ := h.writeMem_outside value hi
    exact .inl ⟨k', s, h', by rw [he, Kernel.proceed_fatal]⟩

theorem die_ne_exited {α : Type} (h : InCall k s f v) : (k.die : Except Fault (Reply α)) ≠ .ok .exited := by
  rw [h.die_eq]
  split_ifs
  · nofun
  · nofun

theorem copyIn_room (h : InCall k s f v) (hr : Room k s) (addr : Word) (ch : List Byte) (fuel : Nat) :
    k.copyIn addr ch fuel ≠ .ok .exited := by
  induction fuel generalizing k s ch with
  | zero => nofun
  | succ fuel ih =>
    rw [Kernel.copyIn]
    rcases h.readMem_room hr (addr + .ofNat 32 ch.length) with ⟨k', s', h', he⟩ | ⟨k', s', r, h', hr', he⟩
    · rw [he, Kernel.proceed_die]
      exact h'.die_ne_exited
    · rw [he, proceed_returned]
      cases r with
      | none => exact ih h' hr' ch
      | some x =>
        simp only
        split_ifs
        · nofun
        · exact ih h' hr' _
        · nofun

theorem readName_room (h : InCall k s f v) (hr : Room k s) (addr : Word) (filename : Name) (n : Nat) :
    k.readName addr filename n ≠ .ok .exited := by
  induction n generalizing k s addr filename with
  | zero =>
    rw [Kernel.readName]
    rcases h.readMem_room hr addr with ⟨k', s', h', he⟩ | ⟨k', s', r, h', hr', he⟩
    · rw [he, Kernel.proceed_die]
      exact h'.die_ne_exited
    · rw [he, proceed_returned]
      cases r with
      | none => nofun
      | some x =>
        simp only
        split_ifs
        · nofun
        · nofun
  | succ n ih =>
    rw [Kernel.readName]
    rcases h.readMem_room hr addr with ⟨k', s', h', he⟩ | ⟨k', s', r, h', hr', he⟩
    · rw [he, Kernel.proceed_die]
      exact h'.die_ne_exited
    · rw [he, proceed_returned]
      cases r with
      | none => nofun
      | some x =>
        simp only
        split_ifs
        · nofun
        · exact ih h' hr' _ _

theorem readFrom_room (h : InCall k s f v) (hr : Room k s) (addr : Word) (id : Int) (num n : Nat) :
    k.readFrom addr id num n ≠ .ok .exited := by
  induction n generalizing k s v num with
  | zero => nofun
  | succ n ih =>
    rw [Kernel.readFrom]
    cases k.input id with
    | nil => nofun
    | cons b rest =>
      simp only
      have h₀ := h.withInput (Function.update k.input id rest)
      rcases h₀.writeMem_room hr (addr + .ofNat 32 num) (b.signExtend 32) with ⟨k', s', h', he⟩ | ⟨k', s', v', r, h', hr', he⟩
      · rw [he, Kernel.proceed_die]
        exact h'.die_ne_exited
      · rw [he, proceed_returned]
        split_ifs
        · nofun
        · exact ih h' hr' (num + 1)

end InCall

end Nachos
