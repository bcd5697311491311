import Nachos.Threads.Registry
import Nachos.UserProg.CallEffects
import Nachos.UserProg.CopyIn

namespace Nachos

open Machine Reply

theorem AddrSpace.new_some {host : Host} {garbage : Garbage} {files files' : Files} {name : Name} {threadID : Nat}
    {space : AddrSpace} {executable : UnixFile} (hf : files name = some executable)
    (h : AddrSpace.new host garbage files name threadID = .ok (some space, files')) :
    ∃ noffH, AddrSpace.readHeader host garbage executable = .ok noffH ∧ noffH.noffMagic = noffMagic ∧
      0 ≤ (AddrSpace.pagesFor noffH.size * .ofNat 32 pageSize).toInt := by
  have hn := h
  simp only [AddrSpace.new, hf] at hn
  obtain ⟨noffH, hh, hn⟩ := bind_eq_ok.mp hn
  have hb := AddrSpace.new_built hf hh h
  refine ⟨noffH, hh, ?_, hb.numPages ▸ hb.fits⟩
  by_contra hm
  rw [if_pos hm] at hn
  cases hn

theorem AddrSpace.new_swapFileName {host : Host} {garbage : Garbage} {files files' : Files} {name : Name} {threadID : Nat}
    {space : AddrSpace} (h : AddrSpace.new host garbage files name threadID = .ok (some space, files')) :
    space.swapFileName = swapName threadID := by
  unfold AddrSpace.new at h
  split at h
  · obtain ⟨noffH, -, h⟩ := bind_eq_ok.mp h
    split_ifs at h
    · cases h
    · obtain ⟨files₁, -, h⟩ := bind_eq_ok.mp h
      have hs := (Prod.mk.inj (Except.ok.inj h)).1
      rw [← Option.some.inj hs]
  · cases h

namespace Kernel

variable {k k' k₁ k₂ : Kernel} {a : Word} {name filename : Name} {n : Nat}

theorem Reads.readName (h : Reads false k a (name ++ [0#8]) k') (hz : 0#8 ∉ name) (hn : name.length ≤ n)
    (filename : Name) : k.readName a filename n = .ok (.returned (some (filename ++ name)) k') := by
  induction name generalizing k a filename n with
  | nil =>
    cases h with
    | fault hagain => cases hagain
    | byte hr ht =>
      cases ht
      cases n with
      | zero => simp [Kernel.readName, hr]
      | succ n => simp [Kernel.readName, hr]
  | cons b name ih =>
    obtain ⟨hb, hz⟩ := not_or.mp (List.mem_cons.not.mp hz)
    cases h with
    | fault hagain => cases hagain
    | byte hr ht =>
      obtain ⟨n, rfl⟩ : ∃ m, n = m + 1 := Nat.exists_eq_add_one_of_ne_zero (by simp only [List.length_cons] at hn; omega)
      have hi := ih ht hz (Nat.le_of_succ_le_succ hn) (filename ++ [b])
      rw [List.append_assoc, List.singleton_append] at hi
      simp only [Kernel.readName, hr, proceed_returned, signExtend_eq_zero, setWidth_signExtend, if_neg (Ne.symm hb), hi]

theorem readName_round {r : Option Name} (h : k.readName a filename n = .ok (.returned r k')) :
    k.readMem a 1 = .ok (.returned none k') ∧ r = none ∨
      k.readMem a 1 = .ok (.returned (some (BitVec.signExtend 32 0#8)) k') ∧ r = some filename ∨
      ∃ (b : Byte) (k₁ : Kernel) (m : Nat), k.readMem a 1 = .ok (.returned (some (b.signExtend 32)) k₁) ∧ b ≠ 0#8 ∧ m < n ∧
        k₁.readName (a + 1) (filename ++ [b]) m = .ok (.returned r k') := by
  have hread : ∃ x k₁, k.readMem a 1 = .ok (.returned x k₁) := by
    cases n with
    | zero | succ n =>
      obtain ⟨x, k₁, hr, -⟩ := proceed_eq_returned.mp h
      exact ⟨x, k₁, hr⟩
  obtain ⟨x, k₁, hr⟩ := hread
  cases x with
  | none =>
    have he : k₁ = k' ∧ none = r := by cases n <;> simpa [readName, hr, and_comm] using h
    rw [← he.1, ← he.2]
    exact .inl ⟨hr, rfl⟩
  | some j =>
    obtain ⟨b, rfl⟩ := readMem_signExtend hr
    by_cases hb : b = 0#8
    · have he : k₁ = k' ∧ some filename = r := by cases n <;> simpa [readName, hr, hb, and_comm] using h
      rw [← he.1, ← he.2, ← hb]
      exact .inr (.inl ⟨hr, rfl⟩)
    · cases n with
      | zero =>
        simp only [readName, hr, proceed_returned, signExtend_eq_zero, if_neg hb] at h
        cases h
      | succ n =>
        simp only [readName, hr, proceed_returned, signExtend_eq_zero, setWidth_signExtend, if_neg hb] at h
        exact .inr (.inr ⟨b, k₁, n, hr, hb, Nat.lt_succ_self n, h⟩)

theorem readName_cases {r : Option Name} (h : k.readName a filename n = .ok (.returned r k')) :
    (∃ name, r = some (filename ++ name) ∧ Reads false k a (name ++ [0#8]) k' ∧ 0#8 ∉ name) ∨
      r = none ∧ ∃ text k₁ b, Reads false k a text k₁ ∧ k₁.readMem b 1 = .ok (.returned none k') := by
  induction n using Nat.strong_induction_on generalizing k a filename with
  | _ n ih =>
    obtain ⟨hr, rfl⟩ | ⟨hr, rfl⟩ | ⟨b, k₁, m, hr, hb, hm, h⟩ := readName_round h
    · exact .inr ⟨rfl, [], k, a, .nil .., hr⟩
    · exact .inl ⟨[], by rw [List.append_nil], .byte hr (.nil ..), List.not_mem_nil⟩
    · obtain ⟨name, rfl, ht, hz⟩ | ⟨rfl, text, k₂, c, ht, hn⟩ := ih m hm h
      · refine .inl ⟨b :: name, by rw [List.append_assoc, List.singleton_append], .byte hr ht, ?_⟩
        rw [List.mem_cons, not_or]
        exact ⟨Ne.symm hb, hz⟩
      · exact .inr ⟨rfl, b :: text, k₂, c, .byte hr ht, hn⟩

def Unanswered (k k' : Kernel) : Prop :=
  k'.registers loadReg = 0 ∧ k'.registers resultReg = k.registers resultReg

theorem unanswered_readMem {r : Option Word} (hl : k.registers loadReg = 0) (h : k.readMem a 1 = .ok (.returned r k')) :
    k.Unanswered k' := by
  obtain ⟨s, hs, ⟨-, w, mainMemory, rfl⟩ | ⟨-, -, -, registers, hr, hf⟩⟩ :=
    readMem_touched (by rw [hl]; decide) (.inl rfl) h
  · exact ⟨hl, rfl⟩
  · have hregs := (pageFault_returned hf).2.1
    unfold Unanswered
    rw [hregs]
    exact ⟨hr.loadReg, hr.same hl _ (by decide) (by decide) (by decide) (by decide)⟩

theorem Reads.unanswered {again : Bool} {text : List Byte} (hl : k.registers loadReg = 0)
    (h : Reads again k a text k') : k.Unanswered k' := by
  induction h with
  | nil k a => exact ⟨hl, rfl⟩
  | fault _ hr _ ih | byte hr _ ih =>
    obtain ⟨hl₁, hr₁⟩ := unanswered_readMem hl hr
    obtain ⟨hl₂, hr₂⟩ := ih hl₁
    exact ⟨hl₂, hr₂.trans hr₁⟩

def processID (t : Tid) : Int := CInt.wrap t

def getID (k : Kernel) (toGet : Int) : Option Tid :=
  k.activeThreads.foldl (fun found t => if processID t = toGet then some t else found) none

theorem processID_of_lt {t : Nat} (h : t < 2 ^ 31) : processID t = t := by
  apply CInt.wrap_of_range
  · omega
  · simp only [CInt.intMax]
    omega

def SetUp (k : Kernel) : Prop := k.Started ∧ k.threadID = 1 ∧ k.activeThreads = []

def NamingStep (k : Kernel) (a : Action) (k' : Kernel) : Prop :=
  k.Step a k' ∧ ∀ filename, a = .exec filename → k.IdsLeft

structure Named (k : Kernel) : Prop where
  pos : 0 < k.threadID
  bound : k.threadID ≤ 2 ^ 31
  fresh : ∀ t, k.threadID ≤ t → k.processes t = none
  smaller : ∀ t ∈ k.activeThreads, t < k.threadID
  listed : ∀ t, t ≠ 0 → k.processes t ≠ none → t ∈ k.activeThreads
  kill : ∀ t p, k.processes t = some p → p.killNewChild = false

theorem Named.frame (h : k.Named) (hi : k'.threadID = k.threadID) (ha : k'.activeThreads = k.activeThreads)
    (hp : ∀ t, (k'.processes t).map Process.outline = (k.processes t).map Process.outline) : k'.Named := by
  have hnone (t : Tid) : k'.processes t = none ↔ k.processes t = none := by
    rw [← Option.map_eq_none_iff (f := Process.outline), hp t, Option.map_eq_none_iff]
  refine ⟨hi ▸ h.pos, hi ▸ h.bound, ?_, ?_, ?_, ?_⟩
  · intro t ht
    rw [hi] at ht
    exact (hnone t).mpr (h.fresh t ht)
  · rw [ha, hi]
    exact h.smaller
  · intro t ht hl
    rw [ha]
    exact h.listed t ht fun hn => hl ((hnone t).mpr hn)
  · intro t p ht
    have ho := hp t
    rw [ht] at ho
    obtain ⟨q, hq, he⟩ := Option.map_eq_some_iff.mp ho.symm
    have hk : q.killNewChild = p.killNewChild := congrArg Prod.fst he
    rw [← hk]
    exact h.kill t q hq

theorem MemoryOnly.fixed (h : k.MemoryOnly k') : k'.host = k.host ∧ k'.garbage = k.garbage ∧ k'.files = k.files ∧
    k'.current = k.current ∧ k'.threadID = k.threadID ∧ k'.activeThreads = k.activeThreads ∧ k'.ready = k.ready := by
  obtain ⟨hp, r, m, b, t, v, f, d, p, rfl⟩ := h
  exact ⟨rfl, rfl, rfl, rfl, rfl, rfl, rfl⟩

theorem Named.memoryOnly (h : k.Named) (hm : k.MemoryOnly k') : k'.Named := by
  obtain ⟨-, -, -, -, hi, ha, -⟩ := hm.fixed
  exact h.frame hi ha hm.1

theorem Named.spawn (h : k.Named) (hi : k.IdsLeft) (space : Option AddrSpace) (files : Files) :
    (k.spawn space files).Named := by
  have hself : (k.spawn space files).processes k.threadID = some ⟨space, false⟩ := Function.update_self ..
  have hother (t : Tid) (ht : t ≠ k.threadID) : (k.spawn space files).processes t = k.processes t :=
    Function.update_of_ne ht ..
  refine ⟨Nat.succ_pos _, Nat.succ_le_of_lt hi, spawn_fresh h.fresh, ?_, ?_, ?_⟩
  · intro t ht
    obtain ht | ht := List.mem_append.mp ht
    · exact Nat.lt_succ_of_lt (h.smaller t ht)
    · rw [List.mem_singleton.mp ht]
      exact Nat.lt_succ_self _
  · intro t h0 ht
    by_cases hc : t = k.threadID
    · rw [hc]
      exact List.mem_append_right _ (List.mem_singleton_self _)
    · rw [hother t hc] at ht
      exact List.mem_append_left _ (h.listed t h0 ht)
  · intro t p ht
    by_cases hc : t = k.threadID
    · rw [hc, hself] at ht
      cases ht
      rfl
    · rw [hother t hc] at ht
      exact h.kill t p ht

theorem Named.finish (h : k.Named) (bitMap : BitMap) (files : Files) : (finish { k with bitMap, files }).Named := by
  have hself : (Kernel.finish { k with bitMap, files }).processes k.current = none := Function.update_self ..
  have hother (t : Tid) (ht : t ≠ k.current) : (Kernel.finish { k with bitMap, files }).processes t = k.processes t :=
    Function.update_of_ne ht ..
  refine ⟨h.pos, h.bound, ?_, ?_, ?_, ?_⟩
  · intro t ht
    by_cases hc : t = k.current
    · rw [hc, hself]
    · rw [hother t hc]
      exact h.fresh t ht
  · intro t ht
    exact h.smaller t (mem_of_mem_purge ht)
  · intro t h0 ht
    by_cases hc : t = k.current
    · rw [hc, hself] at ht
      exact absurd rfl ht
    · rw [hother t hc] at ht
      exact mem_purge (h.listed t h0 ht) hc
  · intro t p ht
    by_cases hc : t = k.current
    · rw [hc, hself] at ht
      cases ht
    · rw [hother t hc] at ht
      exact h.kill t p ht

theorem deleteSpace_ok {space : Option AddrSpace} (h : k.deleteSpace space = .ok k') :
    ∃ bitMap files, k' = { k with bitMap, files } := by
  obtain ⟨bitMap, -, h⟩ := bind_eq_ok.mp h
  cases space with
  | none => cases h
  | some s =>
    cases h
    exact ⟨_, _, rfl⟩

theorem Named.execFile (h : k.Named) (hi : k.IdsLeft) (he : k.execFile filename = .ok k') : k'.Named := by
  rcases execFile_cases he with rfl | ⟨space, files, rfl, -⟩ | ⟨x, files, hx, rfl⟩
  · exact h
  · exact h.spawn hi space files
  · refine h.frame rfl rfl fun t => ?_
    by_cases hc : t = k.current
    · subst hc
      have hk := h.kill _ x hx
      simp [refuse, setRegister, setProcess, hx, Process.outline, hk]
    · simp [refuse, setRegister, setProcess, hc]

theorem Named.step {a : Action} (h : k.Named) (hs : k.NamingStep a k') : k'.Named := by
  obtain ⟨hs, hi⟩ := hs
  cases a with
  | read addr size =>
    obtain ⟨-, r, he⟩ := hs
    exact h.memoryOnly (.access he)
  | write addr size value =>
    obtain ⟨-, r, he⟩ := hs
    exact h.memoryOnly (.access he)
  | exec filename => exact h.execFile (hi filename rfl) hs
  | exit =>
    obtain ⟨s, -, h₁⟩ := bind_eq_ok.mp hs
    obtain ⟨bitMap, -, h₂⟩ := bind_eq_ok.mp h₁
    obtain ⟨k₁, hk, h₃⟩ := bind_eq_ok.mp h₂
    obtain ⟨bitMap', files, rfl⟩ := deleteSpace_ok hk
    cases h₃
    exact h.finish bitMap' files
  | fatal =>
    obtain ⟨_, -, h₁⟩ := bind_eq_ok.mp hs
    split at h₁
    · cases h₁
    · obtain ⟨k₁, hk, h₂⟩ := bind_eq_ok.mp h₁
      obtain ⟨bitMap, files, rfl⟩ := deleteSpace_ok hk
      cases h₂
      exact h.finish bitMap files
  | compute registers =>
    obtain ⟨-, rfl⟩ := hs
    exact h.frame rfl rfl fun _ => rfl
  | switch t =>
    obtain ⟨-, registers, -, rfl⟩ := hs
    exact h.frame rfl rfl fun _ => rfl

theorem SetUp.named (h : k.SetUp) : k.Named := by
  obtain ⟨⟨k₀, filename, -, hp, hc, hk⟩, ht, ha⟩ := h
  obtain ⟨s, files, -, rfl⟩ := startProcess_eq hk
  have ht' : k₀.threadID = 1 := ht
  have hzero : k₀.current = 0 := Nat.lt_one_iff.mp (ht' ▸ hc)
  have hproc (t : Tid) : (k₀.load s files).processes t = if t = 0 then some ⟨some s, false⟩ else none := by
    change Function.update k₀.processes k₀.current _ t = _
    rw [Function.update_apply, hzero, hp]
  refine ⟨by omega, by omega, ?_, ?_, ?_, ?_⟩
  · intro t h1
    rw [ht] at h1
    rw [hproc, if_neg (Nat.ne_of_gt h1)]
  · rw [ha]
    exact fun t hm => absurd hm List.not_mem_nil
  · intro t h0 hl
    rw [hproc, if_neg h0] at hl
    exact absurd rfl hl
  · intro t p hl
    rw [hproc] at hl
    split_ifs at hl
    cases hl
    rfl

theorem named_of_reachable {init : Kernel → Prop} (hi : ∀ k, init k → k.Named) (h : Reachable init NamingStep k) :
    k.Named := h.invariant hi fun _ _ _ hn hs => hn.step hs

/-- The handler runs for `SC_Exec`, and the load that was delayed is done. -/
def CallsExec (k : Kernel) : Prop := k.registers resultReg = 2 ∧ k.registers loadReg = 0

def Starts (k k' : Kernel) : Prop := ∃ s c, k'.processes k.threadID = some ⟨some s, c⟩

structure Succeeds (k k' : Kernel) : Prop where
  nonneg : 0 ≤ (k'.registers resultReg).toInt
  result : (k'.registers resultReg).toInt = processID k.threadID
  unique : ∀ t, t ≠ k.threadID → k'.processes t ≠ none → processID t ≠ processID k.threadID
  found : ∀ k'', Reachable (· = k') NamingStep k'' → k''.processes k.threadID ≠ none →
    k''.getID (processID k.threadID) = some k.threadID

structure Fails (k k' : Kernel) : Prop where
  negative : (k'.registers resultReg).toInt < 0
  activeThreads : k'.activeThreads = k.activeThreads
  threadID : k'.threadID = k.threadID
  ready : k'.ready = k.ready

def Reports (k k' : Kernel) : Prop := (k.Starts k' → k.Succeeds k') ∧ (¬k.Starts k' → k.Fails k')

def Executable (k : Kernel) : Prop :=
  ∃ name k₁ executable noffH, Reads false k.advancePC (k.registers arg1Reg) (name ++ [0#8]) k₁ ∧ 0#8 ∉ name ∧
    name.length < nameSize ∧ k.files name = some executable ∧
    AddrSpace.readHeader k.host k.garbage executable = .ok noffH ∧ noffH.noffMagic = noffMagic ∧
    0 ≤ (AddrSpace.pagesFor noffH.size * .ofNat 32 pageSize).toInt

theorem Reads.process {again : Bool} {b : Byte} {text : List Byte} (h : Reads again k a (b :: text) k') :
    ∃ p, k.processes k.current = some p := by
  have hr : ∃ r k₁, k.readMem a 1 = .ok (.returned r k₁) := by
    cases h with
    | fault _ hr _ => exact ⟨_, _, hr⟩
    | byte hr _ => exact ⟨_, _, hr⟩
  obtain ⟨r, k₁, hr⟩ := hr
  obtain ⟨s, hs, -⟩ := access_cases hr
  obtain ⟨c, hc⟩ := space_eq_ok.mp hs
  exact ⟨_, hc⟩

theorem advancePC_memoryOnly (k : Kernel) : k.MemoryOnly k.advancePC :=
  ⟨fun _ => rfl, k.advancePC.registers, k.mainMemory, k.bitMap, k.ipt, k.iptVP, k.fifo, k.random, k.processes, rfl⟩

theorem advancePC_named (h : k.Named) : k.advancePC.Named := h.frame rfl rfl fun _ => rfl

theorem scExec_spawns {executable : UnixFile} {space : Option AddrSpace} {files : Files} {p : Process}
    (hname : k.advancePC.readName (k.registers arg1Reg) [] nameSize = .ok (.returned (some name) k₁))
    (hlen : name.length < nameSize) (hf : k₁.files name = some executable)
    (hnew : AddrSpace.new k₁.host k₁.garbage k₁.files name k₁.threadID = .ok (space, files))
    (hp : k₁.processes k₁.current = some p) (hkill : p.killNewChild = false) :
    k.scExec = .ok (.returned () (k₁.spawn space files)) := by
  have hexec : k₁.execFile name = .ok (k₁.spawn space files) := by
    simp only [execFile, hf, hnew, ok_bind, hp, if_pos hkill]
  simp only [scExec, advancePC_arg1Reg, hname, proceed_returned, if_pos hlen, hexec, ok_bind]

theorem scExec_executable (hn : k.Named) (h : k.Executable) : ∃ k₁ s files, k.advancePC.MemoryOnly k₁ ∧
    k.scExec = .ok (.returned () (k₁.spawn (some s) files)) := by
  obtain ⟨name, k₁, executable, noffH, hr, hz, hlen, hf, hh, hm, hs⟩ := h
  have hname := hr.readName hz (Nat.le_of_lt hlen) []
  have hmem := hr.memoryOnly
  obtain ⟨hhost, hgarbage, hfiles, hcur, -⟩ := hmem.fixed
  have hn₁ := (advancePC_named hn).memoryOnly hmem
  have hproc : ∃ p, k₁.processes k₁.current = some p ∧ p.killNewChild = false := by
    obtain ⟨b, text, hb⟩ : ∃ b text, name ++ [0#8] = b :: text := List.exists_cons_of_ne_nil (by simp)
    rw [hb] at hr
    obtain ⟨p, hp⟩ := hr.process
    have hc := hmem.1 k.advancePC.current
    rw [hp, ← hcur] at hc
    obtain ⟨q, hq, -⟩ := Option.map_eq_some_iff.mp hc
    exact ⟨q, hq, hn₁.kill _ q hq⟩
  obtain ⟨p, hp, hkill⟩ := hproc
  have hf₁ : k₁.files name = some executable := (congrFun hfiles name).trans hf
  have hh₁ : AddrSpace.readHeader k₁.host k₁.garbage executable = .ok noffH := by
    rw [hhost, hgarbage]
    exact hh
  obtain ⟨s, files, hnew⟩ := AddrSpace.new_completes k₁.threadID hf₁ hh₁ hm hs
  exact ⟨k₁, s, files, hmem, scExec_spawns hname hlen hf₁ hnew hp hkill⟩

theorem scExec_returned (hn : k.Named) (hl : k.registers loadReg = 0) (h : k.scExec = .ok (.returned () k')) :
    k.advancePC.MemoryOnly k' ∧ k'.registers resultReg = k.registers resultReg ∨
      ∃ k₁ space files, k.advancePC.MemoryOnly k₁ ∧ k' = k₁.spawn space files ∧ (space.isSome → k.Executable) := by
  have hl' : k.advancePC.registers loadReg = 0 := (k.advancePC_other (by decide)).trans hl
  have hresult : k.advancePC.registers resultReg = k.registers resultReg := k.advancePC_other (by decide)
  obtain ⟨r, k₁, hr, h⟩ := proceed_eq_returned.mp h
  obtain ⟨name, rfl, ht, hz⟩ | ⟨rfl, text, k₂, b, ht, hfail⟩ := readName_cases hr
  · rw [advancePC_arg1Reg] at ht
    have hmem := ht.memoryOnly
    obtain ⟨hhost, hgarbage, hfiles, -⟩ := hmem.fixed
    simp only [List.nil_append] at h
    split_ifs at h with hlen
    obtain ⟨k₂, he, h⟩ := bind_eq_ok.mp h
    cases h
    unfold execFile at he
    cases hf : k₁.files name with
    | none =>
      simp only [hf] at he
      cases he
      exact .inl ⟨hmem, (ht.unanswered hl').2.trans hresult⟩
    | some executable =>
      simp only [hf] at he
      obtain ⟨⟨space, files⟩, hnew, he⟩ := bind_eq_ok.mp he
      simp only at he
      split at he
      · cases he
      · next p hp =>
        rw [if_pos (((advancePC_named hn).memoryOnly hmem).kill _ p hp)] at he
        cases he
        refine .inr ⟨k₁, space, files, hmem, rfl, fun hs => ?_⟩
        obtain ⟨s, rfl⟩ := Option.isSome_iff_exists.mp hs
        obtain ⟨noffH, hh, hm, hfit⟩ := AddrSpace.new_some hf hnew
        rw [hhost, hgarbage] at hh
        exact ⟨name, k₁, executable, noffH, ht, hz, hlen, (congrFun hfiles name).symm.trans hf, hh, hm, hfit⟩
  · cases h
    obtain ⟨hl₂, hr₂⟩ := ht.unanswered hl'
    have hr₁ := (unanswered_readMem hl₂ hfail).2
    exact .inl ⟨ht.memoryOnly.trans (.access hfail), hr₁.trans (hr₂.trans hresult)⟩

theorem processID_ne {t u : Nat} (ht : t < 2 ^ 31) (hu : u < 2 ^ 31) (h : t ≠ u) : processID t ≠ processID u := by
  rw [processID_of_lt ht, processID_of_lt hu]
  exact fun he => h (Int.ofNat.inj he)

theorem Named.getID {t : Tid} (h : k.Named) (h0 : t ≠ 0) (ht : k.processes t ≠ none) :
    k.getID (processID t) = some t := by
  have hlt {u : Tid} (hu : u ∈ k.activeThreads) : u < 2 ^ 31 := Nat.lt_of_lt_of_le (h.smaller u hu) h.bound
  have hmem := h.listed t h0 ht
  unfold Kernel.getID
  obtain ⟨u, hu, hi, he⟩ | ⟨hn, -⟩ := ThreadSystem.found_cases (p := fun u => processID u = processID t) k.activeThreads none
  · obtain rfl | hne := eq_or_ne u t
    · exact he
    · exact absurd hi (processID_ne (hlt hu) (hlt hmem) hne)
  · exact absurd rfl (hn t hmem)

theorem spawn_result (space : Option AddrSpace) (files : Files) :
    ((k.spawn space files).registers resultReg).toInt = processID k.threadID := by
  have hr : (k.spawn space files).registers resultReg = .ofNat 32 k.threadID := by
    simp only [spawn, setRegister, Function.update_self]
  rw [hr, BitVec.toInt_ofNat']
  rfl

theorem Named.succeeds (h : k.Named) (hi : k.IdsLeft) (s : AddrSpace) (files : Files) :
    k.Succeeds (k.spawn (some s) files) := by
  have hid := processID_of_lt hi
  refine ⟨?_, spawn_result .., fun t ht hl => ?_, fun k'' hr hl => ?_⟩
  · rw [spawn_result, hid]
    exact Int.natCast_nonneg _
  · have hp : (k.spawn (some s) files).processes t = k.processes t := Function.update_of_ne ht ..
    have hlt : t < k.threadID := by
      by_contra hge
      exact hl (hp.trans (h.fresh t (Nat.le_of_not_lt hge)))
    exact processID_ne (hlt.trans hi) hi ht
  · have hn : k''.Named := named_of_reachable (fun k₀ he => by rw [he]; exact h.spawn hi _ _) hr
    exact hn.getID h.pos.ne' hl

theorem not_starts (hn : k.Named) (hm : k.advancePC.MemoryOnly k') : ¬k.Starts k' := by
  rintro ⟨s, c, hs⟩
  have ho := hm.1 k.threadID
  rw [show k.advancePC.processes k.threadID = none from hn.fresh _ (le_refl _), hs] at ho
  cases ho

theorem spawn_process (hm : k.advancePC.MemoryOnly k₁) (space : Option AddrSpace) (files : Files) :
    k₁.threadID = k.threadID ∧ (k₁.spawn space files).processes k.threadID = some ⟨space, false⟩ := by
  obtain ⟨-, -, -, -, hid, -⟩ := hm.fixed
  have hid : k₁.threadID = k.threadID := hid
  refine ⟨hid, ?_⟩
  rw [← hid]
  exact Function.update_self ..

theorem executable_of_reports (hn : k.Named) (hc : k.CallsExec) (h : k.scExec = .ok (.returned () k'))
    (hrep : k.Reports k') : k.Executable ∧ k.IdsLeft := by
  obtain ⟨hmem, hres⟩ | ⟨k₁, space, files, hmem, rfl, hspace⟩ := scExec_returned hn hc.2 h
  · -- nothing has been written to the register, so it still has the number of the call
    have hneg := (hrep.2 (not_starts hn hmem)).negative
    rw [hres, hc.1] at hneg
    exact absurd hneg (by decide)
  · obtain ⟨hid, hproc⟩ := spawn_process hmem space files
    cases space with
    | none =>
      have hns : ¬k.Starts (k₁.spawn none files) := by
        rintro ⟨s, c, hs⟩
        cases hproc.symm.trans hs
      have hsucc : k₁.threadID + 1 = k.threadID := (hrep.2 hns).threadID
      omega
    | some s =>
      refine ⟨hspace rfl, ?_⟩
      have hnonneg := (hrep.1 ⟨s, false, hproc⟩).nonneg
      rw [spawn_result, hid] at hnonneg
      obtain hlt | heq := Nat.lt_or_eq_of_le hn.bound
      · exact hlt
      · rw [heq] at hnonneg
        exact absurd hnonneg (by decide)

theorem reports_of_executable (hn : k.Named) (he : k.Executable) (hi : k.IdsLeft)
    (h : k.scExec = .ok (.returned () k')) : k.Reports k' := by
  obtain ⟨k₁, s, files, hmem, hret⟩ := scExec_executable hn he
  obtain rfl : k₁.spawn (some s) files = k' := by
    cases hret.symm.trans h
    rfl
  obtain ⟨hid, hproc⟩ := spawn_process hmem (some s) files
  have hids : k₁.IdsLeft := by
    rw [IdsLeft, hid]
    exact hi
  have hsucc := ((advancePC_named hn).memoryOnly hmem).succeeds hids s files
  refine ⟨fun _ => ?_, fun hns => absurd ⟨s, false, hproc⟩ hns⟩
  exact ⟨hsucc.nonneg, hid ▸ hsucc.result, hid ▸ hsucc.unique, hid ▸ hsucc.found⟩

/-- The result of `Exec` can be trusted if and only if there is a program to run and an identifier left for it. -/
theorem exec_reports (hr : Reachable SetUp NamingStep k) (hc : k.CallsExec) :
    (k.Executable → ∃ k', k.scExec = .ok (.returned () k')) ∧
      ∀ k', k.scExec = .ok (.returned () k') → (k.Reports k' ↔ k.Executable ∧ k.IdsLeft) := by
  have hn := named_of_reachable (fun _ h => h.named) hr
  constructor
  · intro he
    obtain ⟨k₁, s, files, -, hret⟩ := scExec_executable hn he
    exact ⟨_, hret⟩
  · intro k' h
    constructor
    · exact executable_of_reports hn hc h
    · exact fun hok => reports_of_executable hn hok.1 hok.2 h

section Sample

variable {s : AddrSpace} {f : UnixFile} {v : Buffer}

theorem boot_inCall : ∃ k s f v, Reachable SetUp NamingStep k ∧ InCall k s f v ∧ s.numPages = 5 ∧ ¬InCall.Cold s 0 ∧
    k.threadID = 1 ∧ k.host = .littleEndian ∧ k.files [112] = some (headerOnly 256) ∧ k.files [] = none := by
  obtain ⟨k₀, h⟩ := boot_startProcess 256 (by decide)
  have hst := boot_started h
  obtain ⟨s, files, hn, rfl⟩ := startProcess_eq h
  have hbuilt := AddrSpace.new_built (boot_files 256) (readHeader_headerOnly _ 256) hn
  obtain ⟨f, hf, hp⟩ := (boot_booted 256).paged hbuilt (by decide)
  have hpages : s.numPages = 5 := by
    rw [hbuilt.numPages, ← BitVec.toNat_inj, AddrSpace.pagesFor_toNat]
    rfl
  have hin : (0 : Word).toNat / pageSize < s.numPages.toNat := by
    rw [hpages, Wrapped.page_zero]
    decide
  have hcold : (s.pageTable ((0 : Word).toNat / pageSize)).valid = false := AddrSpace.new_cold hn hin
  have ht : (Kernel.machine ((boot 256).load s files) s).translate 0 1 false = .ok (.fail .pageFaultException) :=
    translate_cold rfl rfl (by decide) hin hcold false
  have hempty : ([] : Name) ≠ AddrSpace.swapName 0 := by decide
  rcases hp.access_cold rfl (g := fun m => m.readMem 0 1) (readMem_of_fail ht) hin hcold with
    ⟨hz, -⟩ | ⟨registers, i, hr, -, hx, hpg⟩
  · have hcount := (boot 256).bitMap.numClear_add_card
    have hnew : (boot 256).bitMap.marked = ∅ := BitMap.marked_new ..
    rw [hnew, Finset.card_empty, Nat.add_zero] at hcount
    exact absurd (hcount.symm.trans hz) (by decide)
  · refine ⟨_, _, f, f.bytes, .next (.read 0 1) (.start ⟨hst, rfl, rfl⟩) ⟨⟨.inl rfl, none, hx⟩, fun _ he => by cases he⟩,
      ⟨hpg, rfl, hr.loadReg, Nat.zero_ne_one, ?_⟩, hpages, ?_, rfl, rfl, ?_, ?_⟩
    · change s.swapFileName ≠ AddrSpace.swapName 1
      rw [AddrSpace.new_swapFileName hn]
      decide
    · simp [InCall.Cold, AddrSpace.enter_valid]
    · exact (AddrSpace.new_other hn (AddrSpace.swapName_ne_short 0 _)).trans (boot_files 256)
    · exact (AddrSpace.new_other hn hempty).trans rfl

theorem store_reachable (h : InCall k s f v) (hr : Reachable SetUp NamingStep k) (a value : Word)
    (hi : Inside s.numPages a) (hc : ¬InCall.Cold s a) :
    ∃ k' s', Reachable SetUp NamingStep k' ∧ InCall k' s' f (v.record a.toNat 1 value) ∧ InCall.SameValid s s' ∧
      k.Alike k' := by
  obtain ⟨k', s', h', hv, ha, he⟩ := h.writeMem_byte value hi hc
  exact ⟨k', s', .next (.write a 1 value) hr ⟨⟨.inl rfl, _, he⟩, fun _ he => by cases he⟩, h', hv, ha⟩

theorem boot_calls (b c : Byte) : ∃ k k₁ k₂, Reachable SetUp NamingStep k ∧ k.CallsExec ∧ k.registers arg1Reg = 0 ∧
    k.advancePC.readMem 0 1 = .ok (.returned (some (b.signExtend 32)) k₁) ∧
    k₁.readMem 1 1 = .ok (.returned (some (c.signExtend 32)) k₂) ∧
    k.threadID = 1 ∧ k.host = .littleEndian ∧ k.files [112] = some (headerOnly 256) ∧ k.files [] = none := by
  obtain ⟨k₀, s₀, f, v, hr₀, h₀, hpages, hwarm, hid, hhost, hfile, hempty⟩ := boot_inCall
  have hpage : (1 : Word).toNat / pageSize = (0 : Word).toNat / pageSize := by
    rw [pageSize_eq]
    rfl
  have hinside {s : AddrSpace} (h : s.numPages = 5) : Inside s.numPages 0 := by
    rw [Inside, h, Wrapped.page_zero]
    decide
  obtain ⟨k₁, s₁, hr₁, h₁, hv₁, ha₁⟩ := store_reachable h₀ hr₀ 0 (b.signExtend 32) (hinside hpages) hwarm
  have hpages₁ : s₁.numPages = 5 := hv₁.1.trans hpages
  have hwarm₁ : ¬InCall.Cold s₁ 1 := by
    rw [InCall.Cold, hpage, hv₁.2]
    exact hwarm
  obtain ⟨k₂, s₂, hr₂, h₂, hv₂, ha₂⟩ :=
    store_reachable h₁ hr₁ 1 (c.signExtend 32) (by rw [Inside, hpage]; exact hinside hpages₁) hwarm₁
  have hpages₂ : s₂.numPages = 5 := hv₂.1.trans hpages₁
  let registers : Register → Word := fun r => if r = resultReg then 2 else 0
  have h₃ : InCall { k₂ with registers } s₂ f _ :=
    ⟨h₂.toPaged.withRegisters (by decide), h₂.demand, rfl, h₂.next, h₂.nextSwap⟩
  have hwarm₃ : ¬InCall.Cold s₂ 0 := by
    rw [InCall.Cold, hv₂.2, hv₁.2]
    exact hwarm
  obtain ⟨k₄, s₄, h₄, hv₄, -, he₄⟩ := h₃.advancePC.readMem_byte (hinside hpages₂) hwarm₃
  have hwarm₄ : ¬InCall.Cold s₄ 1 := by
    rw [InCall.Cold, hpage, hv₄.2]
    exact hwarm₃
  have hin₄ : Inside s₄.numPages 1 := by
    rw [Inside, hpage]
    exact hinside (hv₄.1.trans hpages₂)
  obtain ⟨k₅, s₅, -, -, -, he₅⟩ := h₄.readMem_byte hin₄ hwarm₄
  have hb : ((v.record (0 : Word).toNat 1 (b.signExtend 32)).record (1 : Word).toNat 1 (c.signExtend 32)) (0 : Word).toNat =
      b := byteOf_signExtend b
  have hc : ((v.record (0 : Word).toNat 1 (b.signExtend 32)).record (1 : Word).toNat 1 (c.signExtend 32)) (1 : Word).toNat =
      c := byteOf_signExtend c
  rw [hb] at he₄
  rw [hc] at he₅
  refine ⟨{ k₂ with registers }, k₄, k₅, .next (.compute registers) hr₂ ⟨⟨by decide, rfl⟩, fun _ he => by cases he⟩,
    ⟨rfl, rfl⟩, rfl, he₄, he₅, ?_, ?_, ?_, ?_⟩
  · exact (ha₁.threadID.trans ha₂.threadID).symm.trans hid
  · exact (ha₁.host.trans ha₂.host).symm.trans hhost
  · exact (congrFun (ha₁.files.trans ha₂.files) _).symm.trans hfile
  · exact (congrFun (ha₁.files.trans ha₂.files) _).symm.trans hempty

theorem exec_reports_program : ∃ k k' : Kernel, k.CallsExec ∧ k.scExec = .ok (.returned () k') ∧ k.Starts k' ∧
    k.Reports k' := by
  obtain ⟨k, k₁, k₂, hr, hc, harg, h₁, h₂, hid, hhost, hfile, -⟩ := boot_calls 112 0
  have hreads : Reads false k.advancePC (k.registers arg1Reg) ([112] ++ [0#8]) k₂ := by
    rw [harg]
    exact .byte h₁ (.byte h₂ (.nil ..))
  have hheader : AddrSpace.readHeader k.host k.garbage (headerOnly 256) = .ok ⟨noffMagic, ⟨0, 0, 256⟩, ⟨0, 0, 0⟩, ⟨0, 0, 0⟩⟩ := by
    rw [hhost]
    exact readHeader_headerOnly _ 256
  have hexe : k.Executable :=
    ⟨[112], k₂, headerOnly 256, _, hreads, by decide, by decide, hfile, hheader, rfl, AddrSpace.size_fits (.inl (by decide))⟩
  obtain ⟨k₃, s, files, hmem, he⟩ := scExec_executable (named_of_reachable (fun _ h => h.named) hr) hexe
  have hstarts : k.Starts (k₃.spawn (some s) files) := ⟨s, false, (spawn_process hmem (some s) files).2⟩
  exact ⟨k, _, hc, he, hstarts, ((exec_reports hr hc).2 _ he).mpr ⟨hexe, by rw [IdsLeft, hid]; decide⟩⟩

theorem failed_exec_unreported : ∃ k k' : Kernel, Reachable SetUp NamingStep k ∧ k.CallsExec ∧
    k.scExec = .ok (.returned () k') ∧ ¬k.Starts k' ∧ (k'.registers resultReg).toInt = 2 ∧ ¬k.Reports k' := by
  obtain ⟨k, k₁, k₂, hr, hc, harg, h₁, -, hid, -, -, hempty⟩ := boot_calls 0 0
  have hreads : Reads false k.advancePC 0 ([] ++ [0#8]) k₁ := .byte h₁ (.nil ..)
  have hn := named_of_reachable (fun _ h => h.named) hr
  have hmem := hreads.memoryOnly
  obtain ⟨-, -, hfiles, -⟩ := hmem.fixed
  have harg' : k.advancePC.registers arg1Reg = 0 := (k.advancePC_other (by decide)).trans harg
  have hload : k.advancePC.registers loadReg = 0 := (k.advancePC_other (by decide)).trans hc.2
  have hcall : k.advancePC.registers resultReg = 2 := (k.advancePC_other (by decide)).trans hc.1
  have hret : k.scExec = .ok (.returned () k₁) := by
    have hname := hreads.readName (n := nameSize) List.not_mem_nil (Nat.zero_le _) []
    have hf : k₁.files [] = none := (congrFun hfiles []).trans hempty
    simp only [scExec, harg', hname, proceed_returned, List.append_nil, execFile, hf]
    rfl
  have hresult : (k₁.registers resultReg).toInt = 2 := by
    rw [(hreads.unanswered hload).2, hcall]
    rfl
  have hns := not_starts hn hmem
  refine ⟨k, k₁, hr, hc, hret, hns, hresult, fun hrep => ?_⟩
  have hneg := (hrep.2 hns).negative
  omega

end Sample

end Kernel

end Nachos
