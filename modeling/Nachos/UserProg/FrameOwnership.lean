import Nachos.UserProg.DemandPaging
import Nachos.UserProg.SystemCalls

namespace Nachos

open Buffer Machine Reply

theorem BitMap.clearAll (b : BitMap) {n : Nat} (h : n ≤ b.numBits) :
    (List.range n).foldlM (fun (b : BitMap) (j : Nat) => b.clear j) b =
      .ok { b with map := (List.range n).foldl Words.clear b.map } := by
  induction n with
  | zero => rfl
  | succ n ih =>
    rw [List.range_succ, List.foldlM_append, ih (by omega), List.foldl_append]
    simp only [ok_bind, List.foldlM_cons, List.foldlM_nil, List.foldl_cons, List.foldl_nil]
    have hc := BitMap.clear_eq (b := { b with map := (List.range n).foldl Words.clear b.map }) (Nat.lt_of_succ_le h)
    rw [hc]
    rfl

theorem BitMap.marked_clearAll {b : BitMap} {n : Nat} (h : b.numBits = n) :
    marked { b with map := (List.range n).foldl Words.clear b.map } = ∅ := by
  subst h
  ext i
  simp only [mem_marked, foldl_clear_test]
  grind

theorem AddrSpace.makeSwap_other {garbage : Garbage} {files files' : Files} {name swap other : Name} {size : Word}
    (h : makeSwap garbage files name swap size = .ok files') (hne : other ≠ swap) : files' other = files other := by
  obtain ⟨block, -, h⟩ := bind_eq_ok.mp h
  split at h
  · obtain ⟨⟨n, buffer⟩, -, h⟩ := bind_eq_ok.mp h
    obtain ⟨swapFile, -, h⟩ := bind_eq_ok.mp h
    cases h
    rw [Function.update_of_ne hne, Function.update_of_ne hne]
  · cases h

theorem AddrSpace.new_other {host : Host} {garbage : Garbage} {files files' : Files} {name other : Name} {threadID : Nat}
    {space : Option AddrSpace} (h : AddrSpace.new host garbage files name threadID = .ok (space, files'))
    (hne : other ≠ swapName threadID) : files' other = files other := by
  unfold AddrSpace.new at h
  split at h
  · obtain ⟨noffH, -, h⟩ := bind_eq_ok.mp h
    split_ifs at h
    · cases h
      rfl
    · obtain ⟨files₁, hs, h⟩ := bind_eq_ok.mp h
      cases h
      exact makeSwap_other hs hne
  · cases h

theorem AddrSpace.swapName_ne_short (threadID : Nat) (b : Byte) : [b] ≠ swapName threadID := by
  intro h
  have hl := congrArg List.length h
  simp [swapName] at hl

theorem AddrSpace.new_cold {host : Host} {garbage : Garbage} {files files' : Files} {name : Name} {threadID : Nat}
    {s : AddrSpace} (h : AddrSpace.new host garbage files name threadID = .ok (some s, files')) {p : Nat}
    (hp : p < s.numPages.toNat) : (s.pageTable p).valid = false := by
  unfold AddrSpace.new at h
  split at h
  · obtain ⟨noffH, hh, h₁⟩ := bind_eq_ok.mp h
    rename_i executable he
    have hb := AddrSpace.new_built he hh (by rw [AddrSpace.new, he]; exact h)
    rw [hb.pageTable, AddrSpace.emptyTable, if_pos hp]
  · cases h

namespace Kernel

variable {k k' : Kernel} {t u : Tid} {p q f i : Nat} {s : AddrSpace} {addr : Word}

def Owns (k : Kernel) (t : Tid) (p f : Nat) : Prop :=
  ∃ s c, k.processes t = some ⟨some s, c⟩ ∧ p < s.numPages.toNat ∧ (s.pageTable p).valid = true ∧
    (s.pageTable p).physicalPage.toNat = f

/-- A bit of the bitmap is set if and only if exactly one valid entry of a live process has its frame. -/
def FrameOwnership (k : Kernel) : Prop :=
  ∀ f < numPhysPages, f ∈ k.bitMap.marked ↔ ∃! x : Tid × Nat, k.Owns x.1 x.2 f

def NoSharing (k : Kernel) : Prop :=
  ∀ t p u q f, k.Owns t p f → k.Owns u q f → t = u ∧ p = q

inductive Action where
  | read (addr : Word) (size : Nat)
  | write (addr : Word) (size : Nat) (value : Word)
  | exec (filename : Name)
  | exit
  | fatal
  | compute (registers : Register → Word)
  | switch (t : Tid)

def Step (k : Kernel) (a : Action) (k' : Kernel) : Prop :=
  -- what the running process, or the scheduler, can do next. The accesses are those that return, with the page
  -- fault they may have raised; a fatal exception can strike at any time
  match a with
  | .read addr size => AccessSize size ∧ ∃ r, k.readMem addr size = .ok (.returned r k')
  | .write addr size value => AccessSize size ∧ ∃ r, k.writeMem addr size value = .ok (.returned r k')
  | .exec filename => k.execFile filename = .ok k'
  | .exit => k.scExit = .ok (.finished k')
  | .fatal => k.fatal = .ok (.finished k')
  | .compute registers => (registers loadReg).toNat < numGPRegs ∧ k' = { k with registers }
  | .switch t => k.processes t ≠ none ∧ ∃ registers, (registers loadReg).toNat < numGPRegs ∧
      k' = { k with current := t, registers }

def Displaces (k : Kernel) (addr : Word) : Prop :=
  -- the access faults in the last page of a space of `2 ^ 24` pages, where the handler computes page `0`, and page
  -- `0` has a frame already
  0 < k.bitMap.numClear ∧ ∃ s, k.space = .ok s ∧ 2 ^ 32 - pageSize < addr.toNat ∧ addr.toNat / pageSize < s.numPages.toNat ∧
    (s.pageTable (addr.toNat / pageSize)).valid = false ∧ (s.pageTable 0).valid = true

def Alone (k : Kernel) : Prop := ∀ t p f, t ≠ k.current → ¬k.Owns t p f

def Safe (k : Kernel) (a : Action) : Prop :=
  match a with
  | .read addr size => ¬misaligned addr size → ¬k.Displaces addr
  | .write addr size _ => ¬misaligned addr size → ¬k.Displaces addr
  | .exit => k.Alone
  | .fatal => k.Alone
  | _ => True

def Started (k₀ : Kernel) : Prop :=
  ∃ (k : Kernel) (filename : Name), (∃ words, k.bitMap = .new numPhysPages words) ∧
    (∀ t, k.processes t = none) ∧ k.current < k.threadID ∧ k.startProcess filename = .ok (some k₀)

structure Inv (k : Kernel) : Prop where
  bits : k.bitMap.numBits = numPhysPages
  loadReg : (k.registers loadReg).toNat < numGPRegs
  fresh : ∀ t, k.threadID ≤ t → k.processes t = none
  inside : ∀ t p f, k.Owns t p f → f < numPhysPages
  unique : k.NoSharing
  marked : ∀ f, f ∈ k.bitMap.marked ↔ ∃ t p, k.Owns t p f

theorem Inv.frameOwnership (h : k.Inv) : k.FrameOwnership := by
  intro f _
  rw [h.marked]
  constructor
  · rintro ⟨t, p, ho⟩
    refine ⟨(t, p), ho, ?_⟩
    rintro ⟨u, q⟩ hq
    obtain ⟨rfl, rfl⟩ := h.unique u q t p f hq ho
    rfl
  · rintro ⟨x, hx, -⟩
    exact ⟨x.1, x.2, hx⟩

theorem owns_setSpace (hs : k.space = .ok s) (s' : AddrSpace) :
    (k.setSpace s').Owns t p f ↔
      t = k.current ∧ p < s'.numPages.toNat ∧ (s'.pageTable p).valid = true ∧ (s'.pageTable p).physicalPage.toNat = f ∨
      t ≠ k.current ∧ k.Owns t p f := by
  obtain ⟨c, hc⟩ := space_eq_ok.mp hs
  by_cases ht : t = k.current
  · subst ht
    simp [Owns, setSpace, setProcess, hc]
  · simp [Owns, setSpace, setProcess, ht]

theorem owns_current (hs : k.space = .ok s) :
    k.Owns k.current p f ↔
      p < s.numPages.toNat ∧ (s.pageTable p).valid = true ∧ (s.pageTable p).physicalPage.toNat = f := by
  obtain ⟨c, hc⟩ := space_eq_ok.mp hs
  simp [Owns, hc]

theorem owns_enter (hs : k.space = .ok s) (hp : p < s.numPages.toNat) (hi : i < numPhysPages) :
    (k.setSpace (s.enter p i)).Owns t q f ↔
      t = k.current ∧ q = p ∧ f = i ∨ ¬(t = k.current ∧ q = p) ∧ k.Owns t q f := by
  have hin := frame_toNat hi
  rw [owns_setSpace hs]
  by_cases ht : t = k.current
  · subst ht
    rw [owns_current hs]
    by_cases hq : q = p
    · subst hq
      simp only [AddrSpace.enter, Function.update_self, hin, hp, true_and, and_self, not_true_eq_false, false_and,
        ne_eq, or_false]
      exact eq_comm
    · simp [AddrSpace.enter, hq]
  · simp [ht]

theorem Inv.frame (h : k.Inv) (hb : k'.bitMap = k.bitMap)
    (hf : ∀ t, k'.threadID ≤ t → k'.processes t = none) (hl : (k'.registers Nachos.loadReg).toNat < numGPRegs)
    (ho : ∀ t p f, k'.Owns t p f ↔ k.Owns t p f) : k'.Inv where
  bits := by rw [hb, h.bits]
  loadReg := hl
  fresh := hf
  inside t p f h' := h.inside t p f ((ho t p f).mp h')
  unique t p u q f ht hu := h.unique t p u q f ((ho t p f).mp ht) ((ho u q f).mp hu)
  marked f := by
    rw [hb, h.marked]
    simp only [ho]

theorem owns_congr (h : k'.processes = k.processes) : k'.Owns t p f ↔ k.Owns t p f := by
  simp only [Owns, h]

theorem setSpace_fresh (hs : k.space = .ok s) (hf : ∀ t, k.threadID ≤ t → k.processes t = none) (s' : AddrSpace)
    (ht : k.threadID ≤ t) : (k.setSpace s').processes t = none := by
  obtain ⟨c, hc⟩ := space_eq_ok.mp hs
  have hne : t ≠ k.current := by
    rintro rfl
    simp [hf _ ht] at hc
  simp [setSpace, setProcess, hne, hf t ht]

theorem Inv.enter (h : k.Inv) (hs : k.space = .ok s) (hp : p < s.numPages.toNat) (hv : (s.pageTable p).valid = false)
    (hi : i < k.bitMap.numBits) (him : i ∉ k.bitMap.marked)
    (hk : k'.processes = (k.setSpace (s.enter p i)).processes)
    (hb : k'.bitMap = { k.bitMap with map := k.bitMap.map.mark i }) (ht : k'.threadID = k.threadID)
    (hl : (k'.registers Nachos.loadReg).toNat < numGPRegs) : k'.Inv := by
  have hi' : i < numPhysPages := h.bits ▸ hi
  have ho (t q f) : k'.Owns t q f ↔
      t = k.current ∧ q = p ∧ f = i ∨ ¬(t = k.current ∧ q = p) ∧ k.Owns t q f :=
    (owns_congr hk).trans (owns_enter hs hp hi')
  have hfree (t q) : ¬k.Owns t q i := fun hc => him ((h.marked i).mpr ⟨t, q, hc⟩)
  have hnew (q f) (hq : k.Owns k.current q f) : q ≠ p := by
    rintro rfl
    have hc := ((owns_current hs).mp hq).2.1
    simp [hv] at hc
  refine ⟨by rw [hb, h.bits], hl, ?_, ?_, ?_, ?_⟩
  · intro t htt
    rw [hk]
    exact setSpace_fresh hs h.fresh _ (ht ▸ htt)
  · intro t q f hq
    rcases (ho t q f).mp hq with ⟨-, -, rfl⟩ | ⟨-, hq⟩
    · exact hi'
    · exact h.inside t q f hq
  · intro t q u r f hq hr
    rcases (ho t q f).mp hq with ⟨rfl, rfl, rfl⟩ | ⟨-, hq⟩
    · rcases (ho u r f).mp hr with ⟨rfl, rfl, -⟩ | ⟨-, hr⟩
      · exact ⟨rfl, rfl⟩
      · exact absurd hr (hfree u r)
    · rcases (ho u r f).mp hr with ⟨-, -, rfl⟩ | ⟨-, hr⟩
      · exact absurd hq (hfree t q)
      · exact h.unique t q u r f hq hr
  · intro f
    rw [hb, BitMap.marked_mark hi, Finset.mem_insert, h.marked]
    constructor
    · rintro (rfl | ⟨t, q, hq⟩)
      · exact ⟨k.current, p, (ho _ _ _).mpr (.inl ⟨rfl, rfl, rfl⟩)⟩
      · refine ⟨t, q, (ho _ _ _).mpr (.inr ⟨?_, hq⟩)⟩
        rintro ⟨rfl, rfl⟩
        exact hnew q f hq rfl
    · rintro ⟨t, q, hq⟩
      rcases (ho t q f).mp hq with ⟨-, -, rfl⟩ | ⟨-, hq⟩
      · exact .inl rfl
      · exact .inr ⟨t, q, hq⟩

theorem Inv.displace (h : k.Inv) (hs : k.space = .ok s) (hp : p < s.numPages.toNat) (hv : (s.pageTable p).valid = true)
    (hi : i < k.bitMap.numBits) (him : i ∉ k.bitMap.marked)
    (hk : k'.processes = (k.setSpace (s.enter p i)).processes)
    (hb : k'.bitMap = { k.bitMap with map := k.bitMap.map.mark i }) : ¬k'.FrameOwnership := by
  have hi' : i < numPhysPages := h.bits ▸ hi
  have hold := (owns_current hs).mpr ⟨hp, hv, rfl⟩
  have hmark := (h.marked _).mpr ⟨_, _, hold⟩
  intro hown
  have hset : (s.pageTable p).physicalPage.toNat ∈ k'.bitMap.marked := by
    rw [hb, BitMap.marked_mark hi]
    exact Finset.mem_insert_of_mem hmark
  obtain ⟨⟨t, q⟩, hq, -⟩ := (hown _ (h.inside _ _ _ hold)).mp hset
  rcases ((owns_congr hk).trans (owns_enter hs hp hi')).mp hq with ⟨-, -, hf⟩ | ⟨hne, hq⟩
  · exact him (hf ▸ hmark)
  · exact hne (h.unique t q _ _ _ hq hold)

theorem pageFault_returned (h : k.pageFault = .ok (.returned () k')) :
    k'.threadID = k.threadID ∧ k'.registers = k.registers ∧
      (k.bitMap.numClear = 0 ∧ k'.processes = k.processes ∧ k'.bitMap = k.bitMap ∨
        0 < k.bitMap.numClear ∧ ∃ (s : AddrSpace) (p i : Nat), k.space = .ok s ∧ divRoundDown (k.registers badVAddrReg).toInt pageSize = p ∧
          p < s.numPages.toNat ∧ i < k.bitMap.numBits ∧ i ∉ k.bitMap.marked ∧
          k'.processes = (k.setSpace (s.enter p i)).processes ∧
          k'.bitMap = { k.bitMap with map := k.bitMap.map.mark i }) := by
  rcases pageFault_cases h with ⟨hz, fifo, random, rfl⟩ | ⟨hpos, s, f, p, i, hs, -, hd, hp, hi, him, -, rfl⟩
  · exact ⟨rfl, rfl, .inl ⟨hz, rfl, rfl⟩⟩
  · exact ⟨rfl, rfl, .inr ⟨hpos, s, p, i, hs, hd, hp, hi, him, rfl, rfl⟩⟩

def Accessed (k : Kernel) (s : AddrSpace) (addr : Word) (size : Nat) (k' : Kernel) : Prop :=
  (k'.bitMap = k.bitMap ∧ k'.threadID = k.threadID ∧ k'.registers = k.registers ∧
    (s.pageTable (addr.toNat / pageSize)).valid = true ∧
    ∃ w, k'.processes = (k.setSpace { s with pageTable := touch s.pageTable (addr.toNat / pageSize) w }).processes) ∨
  (¬misaligned addr size ∧ addr.toNat / pageSize < s.numPages.toNat ∧
    (s.pageTable (addr.toNat / pageSize)).valid = false ∧
    ∃ registers, Raised k.registers addr registers ∧ pageFault { k with registers } = .ok (.returned () k'))

def Touched (k : Kernel) (s : AddrSpace) (addr : Word) (size : Nat) (k' : Kernel) : Prop :=
  ((s.pageTable (addr.toNat / pageSize)).valid = true ∧
    ∃ w mainMemory, k' = setSpace { k with mainMemory } { s with pageTable := touch s.pageTable (addr.toNat / pageSize) w }) ∨
  (¬misaligned addr size ∧ addr.toNat / pageSize < s.numPages.toNat ∧
    (s.pageTable (addr.toNat / pageSize)).valid = false ∧
    ∃ registers, Raised k.registers addr registers ∧ pageFault { k with registers } = .ok (.returned () k'))

theorem Touched.accessed {size : Nat} (h : k.Touched s addr size k') : k.Accessed s addr size k' := by
  rcases h with ⟨hv, w, mainMemory, rfl⟩ | h
  · exact .inl ⟨rfl, rfl, rfl, hv, w, rfl⟩
  · exact .inr h

theorem access_touched {α : Type} {g : Machine → Except Fault (Outcome α)} {r : Option α} {size : Nat} {w : Bool}
    (hl : (k.registers loadReg).toNat < numGPRegs) (h : k.access g = .ok (.returned r k'))
    (hg : ∀ s x, k.space = .ok s → g (k.machine s) = .ok x →
      ∃ y, (k.machine s).translate addr size w = .ok y ∧
        (∀ which, y = .fail which → g (k.machine s) = (k.machine s).raiseException which addr) ∧
        ∀ a m, y = .ok a m → ∃ b mem, x = .value b { m with mainMemory := mem }) :
    ∃ s, k.space = .ok s ∧ k.Touched s addr size k' := by
  obtain ⟨s, hs, h'⟩ := bind_eq_ok.mp h
  obtain ⟨x, hx, h'⟩ := bind_eq_ok.mp h'
  obtain ⟨y, hy, hfail, hok⟩ := hg s x hs hx
  refine ⟨s, hs, ?_⟩
  rcases translate_inv rfl rfl hy with ⟨rfl, ha, hp, hv⟩ | ⟨which, rfl, hne, hne'⟩ | ⟨hv, a, rfl⟩
  · obtain ⟨registers, hr, he⟩ := access_raised hs hl (hfail _ rfl)
    rw [he] at h
    obtain ⟨z, hz, h⟩ := bind_eq_ok.mp h
    cases z with
    | returned _ k₁ =>
      cases h
      exact .inr ⟨ha, hp, hv, registers, hr, hz⟩
    | finished _ => cases h
    | exited => cases h
    | running => cases h
  · obtain ⟨registers, hr, he⟩ := access_raised hs hl (hfail _ rfl)
    have htrap : trap { k with registers } which = fatal { k with registers } := by
      cases which <;> first | rfl | exact absurd rfl hne | exact absurd rfl hne'
    rw [he, htrap] at h
    exact absurd h proceed_fatal_ne_returned
  · obtain ⟨b, mem, rfl⟩ := hok _ _ rfl
    cases h'
    exact .inl ⟨hv, w, mem, rfl⟩

theorem readMem_touched {r : Option Word} {size : Nat} (hl : (k.registers loadReg).toNat < numGPRegs)
    (hs : AccessSize size) (h : k.readMem addr size = .ok (.returned r k')) :
    ∃ s, k.space = .ok s ∧ k.Touched s addr size k' := by
  apply access_touched (w := false) hl h
  intro s x _ hx
  obtain ⟨y, hy, -⟩ := bind_eq_ok.mp hx
  refine ⟨y, hy, ?_, ?_⟩
  · rintro which rfl
    exact readMem_of_fail hy
  · rintro a m rfl
    have he := (readMem_of_ok hs hy).symm.trans hx
    cases he
    exact ⟨_, m.mainMemory, rfl⟩

theorem writeMem_touched {r : Option Unit} {size : Nat} {value : Word} (hl : (k.registers loadReg).toNat < numGPRegs)
    (hs : AccessSize size) (h : k.writeMem addr size value = .ok (.returned r k')) :
    ∃ s, k.space = .ok s ∧ k.Touched s addr size k' := by
  apply access_touched (w := true) hl h
  intro s x _ hx
  obtain ⟨y, hy, -⟩ := bind_eq_ok.mp hx
  refine ⟨y, hy, ?_, ?_⟩
  · rintro which rfl
    exact writeMem_of_fail hy
  · rintro a m rfl
    have he := (writeMem_of_ok hs hy).symm.trans hx
    cases he
    exact ⟨(), _, rfl⟩

theorem divRoundDown_page (h : divRoundDown addr.toInt pageSize = p) :
    p = addr.toNat / pageSize ∧ addr.toNat < 2 ^ 31 ∨ p = 0 ∧ 2 ^ 32 - pageSize < addr.toNat := by
  have hlt := addr.isLt
  rw [divRoundDown, BitVec.toInt_eq_toNat_cond] at h
  split_ifs at h with hs
  · left
    rw [CInt.tdiv_of_nonneg (by omega)] at h
    exact ⟨by exact_mod_cast h.symm, by omega⟩
  · right
    have hneg : ((addr.toNat : Int) - (2 ^ 32 : Nat)) = -((2 ^ 32 - addr.toNat : Nat) : Int) := by omega
    rw [hneg, Int.neg_tdiv, CInt.tdiv_of_nonneg (by omega), pageSize_eq] at h
    rw [pageSize_eq]
    omega

theorem Inv.withRegisters (h : k.Inv) {registers : Register → Word}
    (hl : (registers Nachos.loadReg).toNat < numGPRegs) : Inv { k with registers } :=
  ⟨h.bits, hl, h.fresh, h.inside, h.unique, h.marked⟩

theorem owns_touch (hs : k.space = .ok s) (w : Bool) :
    (k.setSpace { s with pageTable := touch s.pageTable q w }).Owns t p f ↔ k.Owns t p f := by
  rw [owns_setSpace hs]
  by_cases ht : t = k.current
  · subst ht
    rw [owns_current hs]
    by_cases hp : p = q
    · subst hp
      simp [touch]
    · simp [touch, hp]
  · simp [ht]

theorem Inv.accessed {size : Nat} (h : k.Inv) (hs : k.space = .ok s) (ha : k.Accessed s addr size k') :
    k'.Inv ∧ (¬misaligned addr size → ¬k.Displaces addr) ∨
      ¬k'.FrameOwnership ∧ ¬misaligned addr size ∧ k.Displaces addr := by
  have hspace : ∀ s', k.space = .ok s' → s' = s := fun s' h' => Except.ok.inj (h'.symm.trans hs)
  rcases ha with ⟨hb, ht, hr, hv, w, hp⟩ | ⟨hal, hin, hv, registers, hr, hf⟩
  · refine .inl ⟨h.frame hb ?_ (by rw [hr]; exact h.loadReg) ?_, ?_⟩
    · intro t htt
      rw [hp]
      exact setSpace_fresh hs h.fresh _ (ht ▸ htt)
    · intro t p f
      exact (owns_congr hp).trans (owns_touch hs w)
    · rintro - ⟨-, s', hs', -, -, hv', -⟩
      rw [hspace s' hs', hv] at hv'
      cases hv'
  · have hload : (registers Nachos.loadReg).toNat < numGPRegs := by simp [hr.loadReg]
    have h₁ : Inv { k with registers } := h.withRegisters hload
    obtain ⟨ht, hreg, ⟨hz, hp, hb⟩ | ⟨hpos, s', p, i, hs', hd, hpn, hi, him, hp, hb⟩⟩ := pageFault_returned hf
    · refine .inl ⟨h₁.frame hb ?_ (by rw [hreg]; exact hload) (fun _ _ _ => owns_congr hp), ?_⟩
      · intro t htt
        rw [hp]
        exact h.fresh t (ht ▸ htt)
      · rintro - ⟨hpos, -⟩
        exact absurd hz hpos.ne'
    · obtain rfl : s' = s := hspace s' hs'
      replace hd : divRoundDown addr.toInt pageSize = p := by rwa [← hr.badVAddr]
      have henter : (s'.pageTable p).valid = false → k'.Inv :=
        fun hv' => h₁.enter hs' hpn hv' hi him hp hb ht (by rw [hreg]; exact hload)
      rcases divRoundDown_page hd with ⟨rfl, hlow⟩ | ⟨rfl, hlast⟩
      · refine .inl ⟨henter hv, ?_⟩
        rintro - ⟨-, -, -, hlast, -⟩
        rw [pageSize_eq] at hlast
        omega
      · cases hv₀ : (s'.pageTable 0).valid with
        | false =>
          refine .inl ⟨henter hv₀, ?_⟩
          rintro - ⟨-, s₁, hs₁, -, -, -, hv₁⟩
          rw [hspace s₁ hs₁, hv₀] at hv₁
          cases hv₁
        | true =>
          exact .inr ⟨h₁.displace hs' hpn hv₀ hi him hp hb, hal, hpos, s', hs', hlast, hin, hv, hv₀⟩

structure Ended (k k' : Kernel) : Prop where
  processes : k'.processes = Function.update k.processes k.current none
  bits : k'.bitMap.numBits = k.bitMap.numBits
  marked : k'.bitMap.marked = ∅
  threadID : k'.threadID = k.threadID
  registers : k'.registers = k.registers

theorem deleteSpace_ended (hb : k.bitMap.numBits = numPhysPages) {space : Option AddrSpace} {k₁ : Kernel}
    (h : k.deleteSpace space = .ok k₁) : k.Ended k₁.finish := by
  simp only [deleteSpace, BitMap.clearAll k.bitMap hb.ge, ok_bind] at h
  cases space with
  | none => cases h
  | some s =>
    cases h
    exact ⟨rfl, rfl, BitMap.marked_clearAll hb, rfl, rfl⟩

theorem scExit_ended (hb : k.bitMap.numBits = numPhysPages) (h : k.scExit = .ok (.finished k')) : k.Ended k' := by
  obtain ⟨s, hs, h₁⟩ := bind_eq_ok.mp h
  obtain ⟨bitMap, hc, h₂⟩ := bind_eq_ok.mp h₁
  obtain ⟨k₁, hk, h₃⟩ := bind_eq_ok.mp h₂
  obtain ⟨_, -, hc'⟩ := bind_eq_ok.mp hc
  cases h₃
  cases hc'
  obtain ⟨hp, hn, hm, ht, hr⟩ := deleteSpace_ended
    (k := { k with bitMap := { k.bitMap with map := k.bitMap.map.clear s.numPages.toInt.toNat } }) hb hk
  exact ⟨hp, hn, hm, ht, hr⟩

theorem scExit_completes (hb : k.bitMap.numBits = numPhysPages) (hs : k.space = .ok s) (h₀ : 0 ≤ s.numPages.toInt)
    (h₁ : s.numPages.toInt < numPhysPages) : ∃ k', k.scExit = .ok (.finished k') := by
  obtain ⟨n, hn⟩ := Int.eq_ofNat_of_zero_le h₀
  rw [hn] at h₁
  have hlt : n < k.bitMap.numBits := by omega
  have hall := BitMap.clearAll { k.bitMap with map := k.bitMap.map.clear n } hb.ge
  simp only [scExit, hs, ok_bind, hn, BitMap.clear_eq hlt, deleteSpace, hall]
  exact ⟨_, rfl⟩

theorem fatal_ended (hb : k.bitMap.numBits = numPhysPages) (h : k.fatal = .ok (.finished k')) : k.Ended k' := by
  obtain ⟨_, -, h⟩ := bind_eq_ok.mp h
  split at h
  · cases h
  · obtain ⟨k₁, hk, h⟩ := bind_eq_ok.mp h
    cases h
    exact deleteSpace_ended hb hk

theorem Ended.owns (h : k.Ended k') : k'.Owns t p f ↔ t ≠ k.current ∧ k.Owns t p f := by
  by_cases ht : t = k.current
  · simp [Owns, h.processes, ht]
  · simp [Owns, h.processes, ht]

theorem Ended.fresh (h : k.Ended k') (hf : ∀ t, k.threadID ≤ t → k.processes t = none) :
    ∀ t, k'.threadID ≤ t → k'.processes t = none := by
  intro t ht
  rw [h.processes]
  by_cases hc : t = k.current
  · rw [hc, Function.update_self]
  · rw [Function.update_of_ne hc]
    exact hf t (h.threadID ▸ ht)

theorem Inv.ended (h : k.Inv) (he : k.Ended k') (ha : k.Alone) : k'.Inv := by
  have hnone (t p f) : ¬k'.Owns t p f := fun ho => ha t p f (he.owns.mp ho).1 (he.owns.mp ho).2
  refine ⟨by rw [he.bits, h.bits], by rw [he.registers]; exact h.loadReg, he.fresh h.fresh, ?_, ?_, ?_⟩
  · exact fun t p f ho => absurd ho (hnone t p f)
  · exact fun t p u q f ho => absurd ho (hnone t p f)
  · intro f
    simp [he.marked, hnone]

theorem Inv.ended_shared (h : k.Inv) (he : k.Ended k') (ha : ¬k.Alone) : ¬k'.FrameOwnership := by
  simp only [Alone, not_forall, not_not] at ha
  obtain ⟨t, p, f, ht, ho⟩ := ha
  intro hown
  have hf := h.inside t p f ho
  have huniq : ∃! x : Tid × Nat, k'.Owns x.1 x.2 f := by
    refine ⟨(t, p), he.owns.mpr ⟨ht, ho⟩, ?_⟩
    rintro ⟨u, q⟩ hq
    obtain ⟨rfl, rfl⟩ := h.unique u q t p f (he.owns.mp hq).2 ho
    rfl
  have hmark := (hown f hf).mpr huniq
  simp [he.marked] at hmark

theorem spawn_fresh {space : Option AddrSpace} {files : Files} (hf : ∀ t, k.threadID ≤ t → k.processes t = none) :
    ∀ t, (k.spawn space files).threadID ≤ t → (k.spawn space files).processes t = none := by
  intro t (ht : k.threadID + 1 ≤ t)
  change Function.update k.processes k.threadID _ t = none
  rw [Function.update_of_ne (Nat.ne_of_gt ht)]
  exact hf t (Nat.le_of_succ_le ht)

theorem owns_spawn {space : Option AddrSpace} {files : Files} (hf : k.processes k.threadID = none)
    (hs : ∀ s, space = some s → ∀ p < s.numPages.toNat, (s.pageTable p).valid = false) :
    (k.spawn space files).Owns t p f ↔ k.Owns t p f := by
  have hp (t : Tid) : (k.spawn space files).processes t = Function.update k.processes k.threadID (some ⟨space, false⟩) t :=
    rfl
  by_cases hc : t = k.threadID
  · subst hc
    refine iff_of_false ?_ ?_
    · rintro ⟨s, c, he, hpn, hv, -⟩
      rw [hp, Function.update_self] at he
      cases he
      rw [hs s rfl p hpn] at hv
      cases hv
    · rintro ⟨s, c, he, -⟩
      rw [hf] at he
      cases he
  · simp only [Owns, hp, Function.update_of_ne hc]

theorem spawn_loadReg (space : Option AddrSpace) (files : Files) :
    (k.spawn space files).registers loadReg = k.registers loadReg := by
  have hne : loadReg ≠ resultReg := by decide
  simp [Kernel.spawn, setRegister, setProcess, hne]

theorem Inv.spawn (h : k.Inv) {space : Option AddrSpace} (files : Files)
    (hs : ∀ s, space = some s → ∀ p < s.numPages.toNat, (s.pageTable p).valid = false) : (k.spawn space files).Inv := by
  refine h.frame rfl (spawn_fresh h.fresh) ?_ (fun _ _ _ => owns_spawn (h.fresh _ (le_refl _)) hs)
  rw [spawn_loadReg]
  exact h.loadReg

theorem refuse_fresh {x : Process} {files : Files} (hx : k.processes k.current = some x)
    (hf : ∀ t, k.threadID ≤ t → k.processes t = none) :
    ∀ t, (k.refuse x files).threadID ≤ t → (k.refuse x files).processes t = none := by
  intro t (ht : k.threadID ≤ t)
  have htc : t ≠ k.current := by
    rintro rfl
    rw [hf _ ht] at hx
    cases hx
  change Function.update k.processes k.current _ t = none
  rw [Function.update_of_ne htc]
  exact hf t ht

theorem owns_refuse {x : Process} {files : Files} (hx : k.processes k.current = some x) :
    (k.refuse x files).Owns t p f ↔ k.Owns t p f := by
  have hp (t : Tid) : (k.refuse x files).processes t =
      Function.update k.processes k.current (some { x with killNewChild := false }) t := rfl
  by_cases htc : t = k.current
  · subst htc
    obtain ⟨space, kill⟩ := x
    simp [Owns, hp, hx]
  · simp only [Owns, hp, Function.update_of_ne htc]

theorem refuse_loadReg (x : Process) (files : Files) : (k.refuse x files).registers loadReg = k.registers loadReg := by
  have hne : loadReg ≠ resultReg := by decide
  simp [Kernel.refuse, setRegister, setProcess, hne]

theorem Inv.refuse (h : k.Inv) {x : Process} (hx : k.processes k.current = some x) (files : Files) :
    (k.refuse x files).Inv := by
  refine h.frame rfl (refuse_fresh hx h.fresh) ?_ (fun _ _ _ => owns_refuse hx)
  rw [refuse_loadReg]
  exact h.loadReg

theorem execFile_cases {filename : Name} (h : k.execFile filename = .ok k') :
    k' = k ∨ (∃ space files, k' = k.spawn space files ∧
      ∀ s, space = some s → ∀ p < s.numPages.toNat, (s.pageTable p).valid = false) ∨
      ∃ x files, k.processes k.current = some x ∧ k' = k.refuse x files := by
  unfold Kernel.execFile at h
  split at h
  · cases h
    exact .inl rfl
  · obtain ⟨⟨space, files⟩, hn, h₁⟩ := bind_eq_ok.mp h
    simp only at h₁
    split at h₁
    · cases h₁
    · rename_i x hx
      split_ifs at h₁ with hkill
      · cases h₁
        refine .inr (.inl ⟨space, files, rfl, ?_⟩)
        rintro s rfl
        exact fun p hp => AddrSpace.new_cold hn hp
      · cases h₁
        exact .inr (.inr ⟨x, files, hx, rfl⟩)

theorem Inv.execFile (h : k.Inv) {filename : Name} (he : k.execFile filename = .ok k') : k'.Inv := by
  rcases execFile_cases he with rfl | ⟨space, files, rfl, hs⟩ | ⟨x, files, hx, rfl⟩
  · exact h
  · exact h.spawn files hs
  · exact h.refuse hx files

theorem load_inv {files files' : Files} {name : Name} {words : Words} (hb : k.bitMap = .new numPhysPages words)
    (hp : ∀ t, k.processes t = none) (ht : k.current < k.threadID)
    (hn : AddrSpace.new k.host k.garbage files name 0 = .ok (some s, files')) : (k.load s files').Inv := by
  have hproc (t : Tid) : (k.load s files').processes t = Function.update k.processes k.current (some ⟨some s, false⟩) t :=
    rfl
  have hnone (t p f) : ¬(k.load s files').Owns t p f := by
    rintro ⟨s', c, he, hpn, hv, -⟩
    by_cases htc : t = k.current
    · rw [hproc, htc, Function.update_self] at he
      cases he
      rw [AddrSpace.new_cold hn hpn] at hv
      cases hv
    · rw [hproc, Function.update_of_ne htc, hp] at he
      cases he
  refine ⟨?_, ?_, ?_, ?_, ?_, ?_⟩
  · exact (congrArg BitMap.numBits hb).trans (BitMap.new_numBits ..)
  · change (s.initRegisters loadReg).toNat < numGPRegs
    rw [AddrSpace.initRegisters_loadReg]
    decide
  · intro t (htt : k.threadID ≤ t)
    have hne : t ≠ k.current := Nat.ne_of_gt (ht.trans_le htt)
    rw [hproc, Function.update_of_ne hne, hp]
  · exact fun t p f ho => absurd ho (hnone t p f)
  · exact fun t p u q f ho => absurd ho (hnone t p f)
  · intro f
    have hm : k.bitMap.marked = ∅ := by rw [hb, BitMap.marked_new]
    change f ∈ k.bitMap.marked ↔ _
    simp [hm, hnone]

theorem Started.inv (h : k.Started) : k.Inv := by
  obtain ⟨k₀, filename, ⟨words, hb⟩, hp, ht, hk⟩ := h
  obtain ⟨s, files, hn, rfl⟩ := startProcess_eq hk
  exact load_inv hb hp ht hn

theorem Inv.step {a : Action} (h : k.Inv) (hs : k.Step a k') :
    k'.Inv ∧ k.Safe a ∨ ¬k'.FrameOwnership ∧ ¬k.Safe a := by
  cases a with
  | read addr size =>
    obtain ⟨hsize, r, he⟩ := hs
    obtain ⟨s, hspace, hacc⟩ := readMem_touched h.loadReg hsize he
    rcases h.accessed hspace hacc.accessed with hok | ⟨hown, hal, hdis⟩
    · exact .inl hok
    · exact .inr ⟨hown, fun hsafe => hsafe hal hdis⟩
  | write addr size value =>
    obtain ⟨hsize, r, he⟩ := hs
    obtain ⟨s, hspace, hacc⟩ := writeMem_touched h.loadReg hsize he
    rcases h.accessed hspace hacc.accessed with hok | ⟨hown, hal, hdis⟩
    · exact .inl hok
    · exact .inr ⟨hown, fun hsafe => hsafe hal hdis⟩
  | exec filename => exact .inl ⟨h.execFile hs, trivial⟩
  | exit =>
    by_cases ha : k.Alone
    · exact .inl ⟨h.ended (scExit_ended h.bits hs) ha, ha⟩
    · exact .inr ⟨h.ended_shared (scExit_ended h.bits hs) ha, ha⟩
  | fatal =>
    by_cases ha : k.Alone
    · exact .inl ⟨h.ended (fatal_ended h.bits hs) ha, ha⟩
    · exact .inr ⟨h.ended_shared (fatal_ended h.bits hs) ha, ha⟩
  | compute registers =>
    obtain ⟨hl, rfl⟩ := hs
    exact .inl ⟨h.withRegisters hl, trivial⟩
  | switch t =>
    obtain ⟨-, registers, hl, rfl⟩ := hs
    exact .inl ⟨⟨h.bits, hl, h.fresh, h.inside, h.unique, h.marked⟩, trivial⟩

def SafeStep (k : Kernel) (a : Action) (k' : Kernel) : Prop := k.Step a k' ∧ k.Safe a

def KeepsOthers (k k' : Kernel) : Prop :=
  ∀ t p f, t ≠ k.current → k.Owns t p f → (f ∈ k'.bitMap.marked ↔ f ∈ k.bitMap.marked)

theorem Inv.keepsOthers_iff (h : k.Inv) (he : k.Ended k') : k.KeepsOthers k' ↔ k.Alone := by
  constructor
  · intro hk t p f ht ho
    have hm := (hk t p f ht ho).mpr ((h.marked f).mpr ⟨t, p, ho⟩)
    simp [he.marked] at hm
  · intro ha t p f ht ho
    exact absurd ho (ha t p f ht)

theorem Inv.reachable (h : Reachable Started SafeStep k) : k.Inv := by
  refine h.invariant (fun _ => Started.inv) ?_
  rintro k a k' hi ⟨hs, hsafe⟩
  rcases hi.step hs with ⟨hok, -⟩ | ⟨-, hn⟩
  · exact hok
  · exact absurd hsafe hn

theorem boot_started {k₀ : Kernel} {codeSize : Word} (h : (boot codeSize).startProcess [112] = .ok (some k₀)) :
    k₀.Started :=
  ⟨boot codeSize, [112], ⟨_, rfl⟩, fun _ => rfl, Nat.zero_lt_one, h⟩

theorem touch_first {garbage : Garbage} {size : Word} (hi : k.Inv) (hs : k.space = .ok s) (hb : AddrSpace.Built garbage k.files size s)
    (hp : 0 < s.numPages.toNat) (ho : k.virtualOption = 0) (hm : k.bitMap.marked.card ≤ 1) : ∃ k' i, SafeStep k (.read 0 1) k' ∧
      k'.current = k.current ∧ k'.threadID = k.threadID ∧ k'.host = k.host ∧ k'.files = k.files ∧ k'.virtualOption = 0 ∧
      k'.bitMap.marked = insert i k.bitMap.marked ∧ k'.processes = (k.setSpace (s.enter 0 i)).processes ∧
      ∀ t p f, k'.Owns t p f ↔ t = k.current ∧ p = 0 ∧ f = i ∨ ¬(t = k.current ∧ p = 0) ∧ k.Owns t p f := by
  have hin : (0 : Word).toNat / pageSize < s.numPages.toNat := by rwa [Wrapped.page_zero]
  have hv : (s.pageTable ((0 : Word).toNat / pageSize)).valid = false := by
    simp only [hb.pageTable, AddrSpace.emptyTable, if_pos hin]
  have ht : (Kernel.machine k s).translate 0 1 false = .ok (.fail .pageFaultException) :=
    translate_cold rfl rfl (by decide) hin hv false
  have hd : divRoundDown (0 : Word).toInt pageSize = (0 : Nat) := by
    rw [pageSize_eq]
    rfl
  have hfree : k.bitMap.numClear ≠ 0 := by
    have hcount := k.bitMap.numClear_add_card
    have hlen : numPhysPages = 32 := rfl
    rw [hi.bits, hlen] at hcount
    omega
  obtain ⟨f, hf, -⟩ := hb.swap
  rcases access_cold (g := fun m => m.readMem 0 1) hs hi.loadReg (readMem_of_fail ht) hf hd hp ho with
    ⟨hz, -⟩ | ⟨registers, i, -, hbits, -, hx⟩
  · exact absurd hz hfree
  · refine ⟨_, i, ⟨⟨.inl rfl, none, hx⟩, ?_⟩, rfl, rfl, rfl, rfl, ho, BitMap.marked_mark hbits, rfl, fun t p f => ?_⟩
    · rintro - ⟨-, s', -, hlast, -⟩
      rw [pageSize_eq] at hlast
      exact absurd hlast (by decide)
    · exact owns_enter hs hp (hi.bits ▸ hbits)

theorem boot_touched : ∃ (k : Kernel) (i : Nat), Reachable Started SafeStep k ∧ k.Owns 0 0 i ∧ k.current = 0 ∧
    k.threadID = 1 ∧ k.host = .littleEndian ∧ k.files [112] = some (headerOnly 256) ∧ k.virtualOption = 0 ∧
    k.bitMap.marked.card ≤ 1 ∧ ∃ s, k.processes 0 = some ⟨some s, false⟩ := by
  obtain ⟨k₀, h⟩ := boot_startProcess 256 (by decide)
  have hr := boot_started h
  obtain ⟨s, files, hn, rfl⟩ := startProcess_eq h
  have hbuilt := AddrSpace.new_built (boot_files 256) (readHeader_headerOnly _ 256) hn
  have hpages : s.numPages.toNat = 5 := by
    rw [hbuilt.numPages, AddrSpace.pagesFor_toNat]
    rfl
  have hs : ((boot 256).load s files).space = .ok s := space_eq_ok.mpr ⟨false, rfl⟩
  have hnew : (boot 256).bitMap.marked = ∅ := BitMap.marked_new ..
  have hempty : ((boot 256).load s files).bitMap.marked = ∅ := hnew
  obtain ⟨k', i, hstep, hcurrent, hid, hhost, hfiles, ho, hmarked, hproc, howns⟩ :=
    touch_first (Inv.reachable (.start hr)) hs hbuilt (hpages ▸ by decide) rfl (hempty ▸ Nat.zero_le 1)
  refine ⟨k', i, .next (.read 0 1) (.start hr) hstep, (howns 0 0 i).mpr (.inl ⟨rfl, rfl, rfl⟩), hcurrent, hid, hhost, ?_, ho, ?_, ?_⟩
  · rw [hfiles]
    exact (AddrSpace.new_other hn (AddrSpace.swapName_ne_short 0 _)).trans (boot_files 256)
  · rw [hmarked, hempty]
    exact le_refl 1
  · exact ⟨_, congrFun hproc 0⟩

theorem boot_pair : ∃ (k : Kernel) (i : Nat) (s : AddrSpace) (garbage : Garbage) (size : Word), Reachable Started SafeStep k ∧
    k.Owns 0 0 i ∧ k.current = 1 ∧ k.virtualOption = 0 ∧ k.bitMap.marked.card ≤ 1 ∧ k.processes 1 = some ⟨some s, false⟩ ∧
    s.numPages = 5 ∧ AddrSpace.Built garbage k.files size s := by
  obtain ⟨k₁, i, hr₁, ho₁, hc₁, ht₁, hh₁, hf₁, hv₁, hm₁, s₁, hp₁⟩ := boot_touched
  have hh := readHeader_headerOnly k₁.garbage 256
  have hnew : ∃ s files, AddrSpace.new .littleEndian k₁.garbage k₁.files [112] 1 = .ok (some s, files) :=
    AddrSpace.new_completes 1 hf₁ hh rfl (AddrSpace.size_fits (.inl (by decide)))
  obtain ⟨s, files, hn⟩ := hnew
  have hexec : k₁.execFile [112] = .ok (k₁.spawn (some s) files) := by
    simp only [execFile, hf₁, hh₁, ht₁, hn, ok_bind, hc₁, hp₁, ↓reduceIte]
  have hr₂ : Reachable Started SafeStep (k₁.spawn (some s) files) := .next (.exec [112]) hr₁ ⟨hexec, trivial⟩
  have hp₂ : (k₁.spawn (some s) files).processes 1 = some ⟨some s, false⟩ := by
    change Function.update k₁.processes k₁.threadID _ 1 = _
    rw [ht₁, Function.update_self]
  have hr₃ : Reachable Started SafeStep { k₁.spawn (some s) files with current := 1, registers := fun _ => 0 } := by
    refine .next (.switch 1) hr₂ ⟨⟨?_, fun _ => 0, by decide, rfl⟩, trivial⟩
    rw [hp₂]
    exact Option.some_ne_none _
  have hbuilt := AddrSpace.new_built hf₁ hh hn
  have hpages : s.numPages = 5 := by
    rw [hbuilt.numPages, ← BitVec.toNat_inj, AddrSpace.pagesFor_toNat]
    rfl
  refine ⟨_, i, s, k₁.garbage, _, hr₃, ?_, rfl, hv₁, hm₁, hp₂, hpages, hbuilt⟩
  obtain ⟨s₀, c, hp, hrest⟩ := ho₁
  refine ⟨s₀, c, ?_, hrest⟩
  change Function.update k₁.processes k₁.threadID _ 0 = _
  rw [ht₁, Function.update_of_ne Nat.zero_ne_one, hp]

/-- Frames have one owner as long as every process that ends is the only one with pages in memory; the
first end beside another such process clears the bits of its frames. -/
theorem frames_owned (h : Reachable Started SafeStep k) :
    k.FrameOwnership ∧ k.NoSharing ∧ (∀ a k', k.Step a k' → (k'.FrameOwnership ↔ k.Safe a)) ∧
      ∀ k', k.Step .exit k' ∨ k.Step .fatal k' → (k.KeepsOthers k' ↔ k.Alone) := by
  have hi := Inv.reachable h
  refine ⟨hi.frameOwnership, hi.unique, ?_, ?_⟩
  · intro a k' hs
    rcases hi.step hs with ⟨hok, hsafe⟩ | ⟨hbad, hunsafe⟩
    · exact iff_of_true hok.frameOwnership hsafe
    · exact iff_of_false hbad hunsafe
  · rintro k' (hs | hs)
    · exact hi.keepsOthers_iff (scExit_ended hi.bits hs)
    · exact hi.keepsOthers_iff (fatal_ended hi.bits hs)

theorem frames_owned_touched : ∃ (k : Kernel) (i j : Nat), Reachable Started SafeStep k ∧ k.Owns 0 0 i ∧ k.Owns 1 0 j ∧
    k.FrameOwnership := by
  obtain ⟨k, i, s, garbage, size, hr, ho, hc, hv, hm, hp, hn, hb⟩ := boot_pair
  have hs : k.space = .ok s := space_eq_ok.mpr ⟨false, hc ▸ hp⟩
  have hpages : 0 < s.numPages.toNat := by
    rw [hn]
    decide
  obtain ⟨k', j, hstep, -, -, -, -, -, -, -, howns⟩ := touch_first (Inv.reachable hr) hs hb hpages hv hm
  rw [hc] at howns
  have hr' : Reachable Started SafeStep k' := .next (.read 0 1) hr hstep
  refine ⟨k', i, j, hr', (howns 0 0 i).mpr (.inr ⟨?_, ho⟩), (howns 1 0 j).mpr (.inl ⟨rfl, rfl, rfl⟩), (frames_owned hr').1⟩
  exact fun h => absurd h.1 Nat.zero_ne_one

theorem exit_clears_others : ∃ k k' : Kernel, Reachable Started Step k ∧ k.Step .exit k' ∧ ¬k.KeepsOthers k' ∧
    ¬k'.FrameOwnership := by
  obtain ⟨k, i, s, garbage, size, hr, ho, hc, -, -, hp, hpages, -⟩ := boot_pair
  have hs : k.space = .ok s := space_eq_ok.mpr ⟨false, hc ▸ hp⟩
  have hinv := Inv.reachable hr
  obtain ⟨k', hexit⟩ := scExit_completes hinv.bits hs (by rw [hpages]; decide) (by rw [hpages]; decide)
  have hshared : ¬Alone k := by
    intro ha
    refine ha 0 0 i ?_ ho
    rw [hc]
    exact Nat.zero_ne_one
  have hended := scExit_ended hinv.bits hexit
  refine ⟨k, k', hr.mono (fun _ _ _ h => h.1), hexit, ?_, hinv.ended_shared hended hshared⟩
  rwa [hinv.keepsOthers_iff hended]

end Kernel

end Nachos
