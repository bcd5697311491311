import Nachos.UserProg.FrameOwnership
import Nachos.UserProg.Loading

namespace Nachos

open Buffer Machine

theorem BitMap.mem_marked_of_full {b : BitMap} (h : b.numClear = 0) {f : Nat} (hf : f < b.numBits) : f ∈ b.marked := by
  have ht := List.countP_eq_zero.mp h f (List.mem_range.mpr hf)
  exact mem_marked.mpr ⟨hf, by simpa using ht⟩

namespace Kernel

variable {k k' : Kernel} {t : Tid} {p q f i : Nat} {s : AddrSpace} {swap : UnixFile} {addr : Word}

def Listed (k : Kernel) (f : Nat) : Prop :=
  ∃ (t : Tid) (p : Nat), k.ipt f = some t ∧ k.iptVP f = p ∧ k.Owns t p f

def Trustworthy (k : Kernel) : Prop := k.bitMap.numClear = 0 → ∀ f < numPhysPages, k.Listed f

def Linked (k : Kernel) : Prop := ∀ f ∈ k.bitMap.marked, k.Listed f

def Orphans (k : Kernel) (addr : Word) : Prop :=
  k.Displaces addr ∧ ∃ s, k.space = .ok s ∧ (s.pageTable 0).physicalPage.toNat ∈ k.bitMap.marked ∧
    k.ipt (s.pageTable 0).physicalPage.toNat = some k.current ∧ k.iptVP (s.pageTable 0).physicalPage.toNat = 0

def KeepsTable (k : Kernel) (a : Action) : Prop :=
  match a with
  | .read addr size => ¬misaligned addr size → ¬k.Orphans addr
  | .write addr size _ => ¬misaligned addr size → ¬k.Orphans addr
  | _ => True

def TableStep (k : Kernel) (a : Action) (k' : Kernel) : Prop := k.Step a k' ∧ k.KeepsTable a

structure Table (k : Kernel) : Prop where
  bits : k.bitMap.numBits = numPhysPages
  loadReg : (k.registers loadReg).toNat < numGPRegs
  fresh : ∀ t, k.threadID ≤ t → k.processes t = none
  linked : k.Linked

theorem Table.trustworthy (h : k.Table) : k.Trustworthy := by
  intro hfull f hf
  exact h.linked f (BitMap.mem_marked_of_full hfull (h.bits ▸ hf))

theorem Table.frame (h : k.Table) (hb : k'.bitMap = k.bitMap) (hi : k'.ipt = k.ipt) (hv : k'.iptVP = k.iptVP)
    (hf : ∀ t, k'.threadID ≤ t → k'.processes t = none) (hl : (k'.registers Nachos.loadReg).toNat < numGPRegs)
    (ho : ∀ t p f, k.Owns t p f → k'.Owns t p f) : k'.Table where
  bits := by rw [hb, h.bits]
  loadReg := hl
  fresh := hf
  linked f hm := by
    rw [hb] at hm
    obtain ⟨t, p, ht, hp, hown⟩ := h.linked f hm
    exact ⟨t, p, by rw [hi, ht], by rw [hv, hp], ho t p f hown⟩

theorem Table.withRegisters (h : k.Table) {registers : Register → Word}
    (hl : (registers Nachos.loadReg).toNat < numGPRegs) : Table { k with registers } :=
  h.frame rfl rfl rfl h.fresh hl (fun _ _ _ ho => ho)

theorem owns_pagedIn (hs : k.space = .ok s) (hp : p < s.numPages.toNat) (hi : i < numPhysPages) :
    (k.pagedIn s swap p i).Owns t q f ↔
      t = k.current ∧ q = p ∧ f = i ∨ ¬(t = k.current ∧ q = p) ∧ k.Owns t q f := by
  have hc : (k.pagedIn s swap p i).processes = (k.setSpace (s.enter p i)).processes := rfl
  exact (owns_congr hc).trans (owns_enter hs hp hi)

theorem Table.pagedIn (h : k.Table) (hs : k.space = .ok s) (hp : p < s.numPages.toNat) (hi : i < k.bitMap.numBits)
    (hl : ∀ f ∈ k.bitMap.marked, k.ipt f = some k.current → k.iptVP f ≠ p) : (k.pagedIn s swap p i).Table where
  bits := h.bits
  loadReg := h.loadReg
  fresh t ht := setSpace_fresh hs h.fresh _ ht
  linked f hm := by
    have hi' : i < numPhysPages := h.bits ▸ hi
    rw [marked_pagedIn hi, Finset.mem_insert] at hm
    by_cases hf : f = i
    · subst hf
      exact ⟨k.current, p, Function.update_self .., Function.update_self .., (owns_pagedIn hs hp hi').mpr (.inl ⟨rfl, rfl, rfl⟩)⟩
    · have hold := hm.resolve_left hf
      obtain ⟨t, q, ht, hq, ho⟩ := h.linked f hold
      refine ⟨t, q, (Function.update_of_ne hf ..).trans ht, (Function.update_of_ne hf ..).trans hq,
        (owns_pagedIn hs hp hi').mpr (.inr ⟨?_, ho⟩)⟩
      rintro ⟨rfl, rfl⟩
      exact hl f hold ht hq

theorem Linked.unlisted (h : k.Linked) (hs : k.space = .ok s) (hv : (s.pageTable p).valid = false) (hf : f ∈ k.bitMap.marked)
    (ht : k.ipt f = some k.current) : k.iptVP f ≠ p := by
  intro hp
  obtain ⟨t, q, ht', hq, ho⟩ := h f hf
  obtain rfl := Option.some.inj (ht.symm.trans ht')
  obtain rfl := Int.ofNat_inj.mp (hp.symm.trans hq)
  have hv' := ((owns_current hs).mp ho).2.1
  rw [hv] at hv'
  cases hv'

theorem not_linked_of_orphan (hb : k.bitMap.numBits = numPhysPages) (hs : k.space = .ok s) (hp : p < s.numPages.toNat)
    (hi : i < k.bitMap.numBits) (him : i ∉ k.bitMap.marked) (hf : f ∈ k.bitMap.marked) (ht : k.ipt f = some k.current)
    (hq : k.iptVP f = p) : ¬(k.pagedIn s swap p i).Linked := by
  intro h
  have hne : f ≠ i := ne_of_mem_of_not_mem hf him
  have hm : f ∈ (k.pagedIn s swap p i).bitMap.marked := by
    rw [marked_pagedIn hi]
    exact Finset.mem_insert_of_mem hf
  obtain ⟨t, q, ht', hq', ho⟩ := h f hm
  obtain rfl := Option.some.inj ((ht.symm.trans (Function.update_of_ne hne ..).symm).trans ht')
  obtain rfl := Int.ofNat_inj.mp ((hq.symm.trans (Function.update_of_ne hne ..).symm).trans hq')
  rcases (owns_pagedIn hs hp (hb ▸ hi)).mp ho with ⟨-, -, rfl⟩ | ⟨hc, -⟩
  · exact hne rfl
  · exact hc ⟨rfl, rfl⟩

theorem Table.faulted (h : k.Table) (hs : k.space = .ok s) (hin : addr.toNat / pageSize < s.numPages.toNat)
    (hv : (s.pageTable (addr.toNat / pageSize)).valid = false) (hbad : k.registers badVAddrReg = addr)
    (hf : k.pageFault = .ok (.returned () k')) :
    k'.Table ∧ ¬k.Orphans addr ∨ ¬k'.Linked ∧ k.Orphans addr := by
  have hspace : ∀ s', k.space = .ok s' → s' = s := fun s' h' => Except.ok.inj (h'.symm.trans hs)
  rcases pageFault_cases hf with ⟨hz, fifo, random, rfl⟩ | ⟨hpos, s', f, p, i, hs', -, hd, hp, hi, him, -, rfl⟩
  · refine .inl ⟨h.frame rfl rfl rfl h.fresh h.loadReg (fun _ _ _ ho => ho), ?_⟩
    rintro ⟨⟨hpos, -⟩, -⟩
    exact absurd hz hpos.ne'
  · obtain rfl := hspace s' hs'
    rw [hbad] at hd
    rcases divRoundDown_page hd with ⟨rfl, hlow⟩ | ⟨rfl, hlast⟩
    · refine .inl ⟨h.pagedIn hs hp hi (fun f hm ht => h.linked.unlisted hs hv hm ht), ?_⟩
      rintro ⟨⟨-, -, -, hlast, -⟩, -⟩
      rw [pageSize_eq] at hlast
      omega
    · by_cases hl : ∃ f ∈ k.bitMap.marked, k.ipt f = some k.current ∧ k.iptVP f = 0
      · obtain ⟨f, hm, ht, hq⟩ := hl
        obtain ⟨t, q, ht', hq', ho⟩ := h.linked f hm
        obtain rfl := Option.some.inj (ht.symm.trans ht')
        obtain rfl := Int.ofNat_inj.mp (hq.symm.trans hq')
        obtain ⟨-, hv₀, rfl⟩ := (owns_current hs).mp ho
        exact .inr ⟨not_linked_of_orphan h.bits hs hp hi him hm ht hq, ⟨hpos, s', hs, hlast, hin, hv, hv₀⟩, s', hs, hm, ht, hq⟩
      · refine .inl ⟨h.pagedIn hs hp hi (fun f hm ht hq => hl ⟨f, hm, ht, hq⟩), ?_⟩
        rintro ⟨-, s₁, hs₁, hm, ht, hq⟩
        exact hl ⟨_, hm, ht, hq⟩

theorem Table.touched {size : Nat} (h : k.Table) (hs : k.space = .ok s) (ha : k.Touched s addr size k') :
    k'.Table ∧ (¬misaligned addr size → ¬k.Orphans addr) ∨ ¬k'.Linked ∧ ¬misaligned addr size ∧ k.Orphans addr := by
  rcases ha with ⟨hv, w, mainMemory, rfl⟩ | ⟨hal, hin, hv, registers, hr, hf⟩
  · have hs' : space { k with mainMemory } = .ok s := hs
    refine .inl ⟨h.frame rfl rfl rfl (fun t ht => setSpace_fresh hs' h.fresh _ ht) h.loadReg
      (fun t p f ho => (owns_touch hs' w).mpr ho), ?_⟩
    rintro - ⟨⟨-, s₁, hs₁, -, -, hv₁, -⟩, -⟩
    obtain rfl := Except.ok.inj (hs₁.symm.trans hs)
    rw [hv] at hv₁
    cases hv₁
  · have h₁ : Table { k with registers } := h.withRegisters (by simp [hr.loadReg])
    rcases h₁.faulted hs hin hv hr.badVAddr hf with ⟨hok, ho⟩ | ⟨hbad, ho⟩
    · exact .inl ⟨hok, fun _ => ho⟩
    · exact .inr ⟨hbad, hal, ho⟩

theorem Table.ended (h : k.Table) (he : k.Ended k') : k'.Table where
  bits := by rw [he.bits, h.bits]
  loadReg := by rw [he.registers]; exact h.loadReg
  fresh := he.fresh h.fresh
  -- no frame is marked, so the stale entries of the table are not read before they are overwritten
  linked f hm := by simp [he.marked] at hm

theorem Table.execFile (h : k.Table) {filename : Name} (he : k.execFile filename = .ok k') : k'.Table := by
  rcases execFile_cases he with rfl | ⟨space, files, rfl, hs⟩ | ⟨x, files, hx, rfl⟩
  · exact h
  · refine h.frame rfl rfl rfl (spawn_fresh h.fresh) ?_ (fun _ _ _ ho => (owns_spawn (h.fresh _ (le_refl _)) hs).mpr ho)
    rw [spawn_loadReg]
    exact h.loadReg
  · refine h.frame rfl rfl rfl (refuse_fresh hx h.fresh) ?_ (fun _ _ _ ho => (owns_refuse hx).mpr ho)
    rw [refuse_loadReg]
    exact h.loadReg

theorem Table.step {a : Action} (h : k.Table) (hs : k.Step a k') :
    k'.Table ∧ k.KeepsTable a ∨ ¬k'.Linked ∧ ¬k.KeepsTable a := by
  cases a with
  | read addr size =>
    obtain ⟨hsize, r, he⟩ := hs
    obtain ⟨s, hspace, ht⟩ := readMem_touched h.loadReg hsize he
    rcases h.touched hspace ht with hok | ⟨hbad, hal, ho⟩
    · exact .inl hok
    · exact .inr ⟨hbad, fun hk => hk hal ho⟩
  | write addr size value =>
    obtain ⟨hsize, r, he⟩ := hs
    obtain ⟨s, hspace, ht⟩ := writeMem_touched h.loadReg hsize he
    rcases h.touched hspace ht with hok | ⟨hbad, hal, ho⟩
    · exact .inl hok
    · exact .inr ⟨hbad, fun hk => hk hal ho⟩
  | exec filename => exact .inl ⟨h.execFile hs, trivial⟩
  | exit => exact .inl ⟨h.ended (scExit_ended h.bits hs), trivial⟩
  | fatal => exact .inl ⟨h.ended (fatal_ended h.bits hs), trivial⟩
  | compute registers =>
    obtain ⟨hl, rfl⟩ := hs
    exact .inl ⟨h.withRegisters hl, trivial⟩
  | switch t =>
    obtain ⟨-, registers, hl, rfl⟩ := hs
    exact .inl ⟨h.frame rfl rfl rfl h.fresh hl (fun _ _ _ ho => ho), trivial⟩

theorem Inv.table (h : k.Inv) (hm : k.bitMap.marked = ∅) : k.Table :=
  ⟨h.bits, h.loadReg, h.fresh, fun f hf => by simp [hm] at hf⟩

theorem Started.marked (h : k.Started) : k.bitMap.marked = ∅ := by
  obtain ⟨k₀, filename, ⟨words, hb⟩, -, -, hk⟩ := h
  obtain ⟨s, files, -, rfl⟩ := startProcess_eq hk
  change k₀.bitMap.marked = ∅
  rw [hb, BitMap.marked_new]

theorem Table.reachable (h : Reachable Started TableStep k) : k.Table := by
  refine h.invariant (fun _ h₀ => h₀.inv.table h₀.marked) ?_
  rintro k a k' ht ⟨hs, hkeep⟩
  rcases ht.step hs with ⟨hok, -⟩ | ⟨-, hn⟩
  · exact hok
  · exact absurd hkeep hn

/-- The inverted page table can be trusted whenever all frames are taken. An exit leaves it stale, but
clears every bit as well; only a fault in the last page of an address space whose size wraps breaks it. -/
theorem table_trustworthy (h : Reachable Started TableStep k) :
    k.Trustworthy ∧ ∀ a k', k.Step a k' → (k'.Linked ↔ k.KeepsTable a) := by
  have ht := Table.reachable h
  refine ⟨ht.trustworthy, ?_⟩
  intro a k' hs
  rcases ht.step hs with ⟨hok, hkeep⟩ | ⟨hbad, hbreak⟩
  · exact iff_of_true hok.linked hkeep
  · exact iff_of_false hbad hbreak

structure Filled (page : Nat → Nat) (n : Nat) (k : Kernel) (s : AddrSpace) : Prop where
  space : k.space = .ok s
  swap : ∃ f, k.files s.swapFileName = some f
  bits : k.bitMap.numBits = numPhysPages
  loadReg : (k.registers loadReg).toNat < numGPRegs
  card : k.bitMap.marked.card = n
  valid : ∀ q < s.numPages.toNat, (s.pageTable q).valid = true → ∃ m < n, q = page m
  listed : ∀ f ∈ k.bitMap.marked, k.ipt f = some k.current ∧ ∃ m < n, k.iptVP f = page m
  alone : ∀ t, t ≠ k.current → k.processes t = none

variable {page : Nat → Nat} {n : Nat}

theorem Filled.pagedIn (h : Filled page n k s) (hi : i < k.bitMap.numBits) (him : i ∉ k.bitMap.marked) :
    Filled page (n + 1) (k.pagedIn s swap (page n) i) (s.enter (page n) i) where
  space := setSpace_space (s := s) h.space _
  swap := h.swap
  bits := h.bits
  loadReg := h.loadReg
  card := by rw [marked_pagedIn hi, Finset.card_insert_of_notMem him, h.card]
  valid q hq hv := by
    by_cases hqn : q = page n
    · exact ⟨n, Nat.lt_succ_self n, hqn⟩
    · rw [AddrSpace.enter_of_ne s i hqn] at hv
      obtain ⟨m, hm, rfl⟩ := h.valid q hq hv
      exact ⟨m, Nat.lt_succ_of_lt hm, rfl⟩
  listed f hf := by
    rw [marked_pagedIn hi, Finset.mem_insert] at hf
    by_cases hfi : f = i
    · subst hfi
      exact ⟨Function.update_self .., n, Nat.lt_succ_self n, Function.update_self ..⟩
    · obtain ⟨ht, m, hm, hp⟩ := h.listed f (hf.resolve_left hfi)
      exact ⟨(Function.update_of_ne hfi ..).trans ht, m, Nat.lt_succ_of_lt hm, (Function.update_of_ne hfi ..).trans hp⟩
  alone t ht := (Function.update_of_ne ht ..).trans (h.alone t ht)

theorem Filled.withRegisters (h : Filled page n k s) {registers : Register → Word}
    (hl : (registers Nachos.loadReg).toNat < numGPRegs) : Filled page n { k with registers } s :=
  ⟨h.space, h.swap, h.bits, hl, h.card, h.valid, h.listed, h.alone⟩

theorem Filled.cold (h : Filled page n k s) (hin : q < s.numPages.toNat) (hne : ∀ m < n, q ≠ page m) :
    (s.pageTable q).valid = false := by
  cases hv : (s.pageTable q).valid with
  | false => rfl
  | true =>
    obtain ⟨m, hm, he⟩ := h.valid q hin hv
    exact absurd he (hne m hm)

theorem Filled.numClear (h : Filled page n k s) : k.bitMap.numClear + n = numPhysPages := by
  have hcount := k.bitMap.numClear_add_card
  rwa [h.card, h.bits] at hcount

theorem Filled.step (h : Filled page n k s) (hn : n < numPhysPages) (hd : divRoundDown addr.toInt pageSize = page n)
    (hp : page n < s.numPages.toNat) (hin : addr.toNat / pageSize < s.numPages.toNat)
    (hne : ∀ m < n, addr.toNat / pageSize ≠ page m) :
    ∃ k' i, k.Step (.read addr 1) k' ∧ Filled page (n + 1) k' (s.enter (page n) i) ∧
      k'.virtualOption = k.virtualOption := by
  obtain ⟨f, hf⟩ := h.swap
  have hclear := h.numClear
  have ht : (k.machine s).translate addr 1 false = .ok (.fail .pageFaultException) :=
    translate_cold rfl rfl (Wrapped.aligned addr) hin (h.cold hin hne) false
  obtain ⟨registers, i, hr, hi, him, he⟩ := access_served (g := fun m => m.readMem addr 1) h.space h.loadReg
    (readMem_of_fail ht) hf hd hp (by omega)
  have h₁ : Filled page n { k with registers } s := h.withRegisters (by simp [hr.loadReg])
  exact ⟨_, i, ⟨.inl rfl, none, he⟩, h₁.pagedIn hi him, rfl⟩

theorem Filled.run {init : Kernel → Prop} {R : Kernel → Action → Kernel → Prop} {k₀ : Kernel} {s₀ : AddrSpace}
    {addr : Nat → Word} (hr : Reachable init R k₀) (h : Filled page 0 k₀ s₀)
    (hR : ∀ m < numPhysPages, ∀ k k' : Kernel, k.Step (.read (addr m) 1) k' → R k (.read (addr m) 1) k')
    (hd : ∀ m < numPhysPages, divRoundDown (addr m).toInt pageSize = page m ∧ page m < s₀.numPages.toNat ∧
      (addr m).toNat / pageSize < s₀.numPages.toNat ∧ ∀ l < m, (addr m).toNat / pageSize ≠ page l)
    (hn : n ≤ numPhysPages) :
    ∃ k s, Reachable init R k ∧ Filled page n k s ∧ s.numPages = s₀.numPages ∧ k.virtualOption = k₀.virtualOption := by
  induction n with
  | zero => exact ⟨k₀, s₀, hr, h, rfl, rfl⟩
  | succ n ih =>
    obtain ⟨k, s, hk, hf, hs, ho⟩ := ih (by omega)
    obtain ⟨hd', hp, hin, hne⟩ := hd n (by omega)
    rw [← hs] at hp hin
    obtain ⟨k', i, hstep, hf', ho'⟩ := hf.step (by omega) hd' hp hin hne
    exact ⟨k', _, .next _ hk (hR n (by omega) k k' hstep), hf', hs, ho'.trans ho⟩

theorem load_filled {files : Files} {words : Words} {size : Word} (hb : k.bitMap = .new numPhysPages words)
    (hp : ∀ t, k.processes t = none) (h : AddrSpace.Built k.garbage files size s) : Filled page 0 (k.load s files) s where
  space := load_space s files
  swap := by
    obtain ⟨f, hf, -⟩ := h.swap
    exact ⟨f, hf⟩
  bits := (congrArg BitMap.numBits hb).trans (BitMap.new_numBits ..)
  loadReg := by
    change (s.initRegisters Nachos.loadReg).toNat < numGPRegs
    rw [AddrSpace.initRegisters_loadReg]
    decide
  card := by
    change k.bitMap.marked.card = 0
    rw [hb, BitMap.marked_new, Finset.card_empty]
  valid q hq hv := by
    rw [h.pageTable, AddrSpace.emptyTable, if_pos hq] at hv
    cases hv
  listed f hf := by
    change f ∈ k.bitMap.marked at hf
    simp [hb, BitMap.marked_new] at hf
  alone t ht := (Function.update_of_ne ht ..).trans (hp t)

def crowded : Kernel := { boot 7424 with virtualOption := 2 }

theorem crowded_load : ∃ s files, Started (crowded.load s files) ∧ AddrSpace.Built crowded.garbage files 8448 s ∧
    s.numPages.toNat = 33 := by
  have hfile : crowded.files [112] = some (headerOnly 7424) := boot_files 7424
  have hh := readHeader_headerOnly crowded.garbage 7424
  obtain ⟨k₀, h⟩ := startProcess_completes hfile hh rfl (AddrSpace.size_fits (.inl (by decide)))
  obtain ⟨s, files, hn, rfl⟩ := startProcess_eq h
  have hbuilt := AddrSpace.new_built hfile hh hn
  rw [(by decide : NoffHeader.size ⟨noffMagic, ⟨0, 0, 7424⟩, ⟨0, 0, 0⟩, ⟨0, 0, 0⟩⟩ = 8448)] at hbuilt
  refine ⟨s, files, ⟨crowded, [112], ⟨_, rfl⟩, fun _ => rfl, Nat.zero_lt_one, h⟩, hbuilt, ?_⟩
  rw [hbuilt.numPages, AddrSpace.pagesFor_toNat]
  decide

def pageStart (m : Nat) : Word := .ofNat 32 (m * pageSize)

theorem pageStart_toNat {m : Nat} (hm : m < 2 ^ 24) : (pageStart m).toNat = m * pageSize := by
  rw [pageStart, BitVec.toNat_ofNat, pageSize_eq]
  omega

theorem pageStart_page {m : Nat} (hm : m < 2 ^ 24) : (pageStart m).toNat / pageSize = m := by
  rw [pageStart_toNat hm, Nat.mul_div_cancel]
  rw [pageSize_eq]
  decide

theorem pageStart_divRoundDown {m : Nat} (hm : m < 2 ^ 23) : divRoundDown (pageStart m).toInt pageSize = m := by
  rw [divRoundDown_of_lt, pageStart_page (by omega)]
  rw [pageStart_toNat (by omega), pageSize_eq]
  omega

theorem crowded_fills (hn : n ≤ numPhysPages) : ∃ k s, Reachable Started TableStep k ∧ Filled id n k s ∧
    s.numPages.toNat = 33 ∧ k.virtualOption = 2 := by
  obtain ⟨s₀, files, hstart, hbuilt, hpages⟩ := crowded_load
  have hkeeps : ∀ m < numPhysPages, ∀ k k' : Kernel, k.Step (.read (pageStart m) 1) k' →
      k.TableStep (.read (pageStart m) 1) k' := by
    intro m hm k k' hstep
    have h32 : m < 32 := hm
    refine ⟨hstep, ?_⟩
    rintro - ⟨⟨-, -, -, hlast, -⟩, -⟩
    rw [pageStart_toNat (by omega), pageSize_eq] at hlast
    omega
  have haddr : ∀ m < numPhysPages, divRoundDown (pageStart m).toInt pageSize = (id m : Nat) ∧ id m < s₀.numPages.toNat ∧
      (pageStart m).toNat / pageSize < s₀.numPages.toNat ∧ ∀ l < m, (pageStart m).toNat / pageSize ≠ id l := by
    intro m hm
    have h32 : m < 32 := hm
    rw [pageStart_page (by omega), hpages]
    exact ⟨pageStart_divRoundDown (by omega), by simp only [id]; omega, by omega, fun l hl => Nat.ne_of_gt hl⟩
  obtain ⟨k, s, hr, hf, hs, ho⟩ := Filled.run (.start hstart) (load_filled rfl (fun _ => rfl) hbuilt) hkeeps haddr hn
  exact ⟨k, s, hr, hf, by rw [hs, hpages], ho⟩

theorem table_trustworthy_crowded : ∃ k : Kernel, Reachable Started TableStep k ∧ k.bitMap.numClear = 0 ∧
    ∀ f < numPhysPages, k.Listed f := by
  obtain ⟨k, s, hr, hf, -⟩ := crowded_fills (le_refl numPhysPages)
  have hz : k.bitMap.numClear = 0 := by
    have hcount := hf.numClear
    omega
  exact ⟨k, hr, hz, (table_trustworthy hr).1 hz⟩

open Loading

def wideFile : UnixFile :=
  ⟨2 ^ 30 + 40, ofWords fun i => if i = 0 then noffMagic else if i = 2 then 40 else if i = 3 then 0x40000000
    else if i = 4 then 0x40000000 else if i = 5 then 40 else if i = 6 then 0x3ffffc00
    else if i = 7 then 0x7ffffc00 else if i = 9 then 0x7fffffff else 0⟩

theorem wideFile_header : NoffHeader.ofFile .littleEndian wideFile =
    ⟨noffMagic, ⟨0, 40, 0x40000000⟩, ⟨0x40000000, 40, 0x3ffffc00⟩, ⟨0x7ffffc00, 0, 0x7fffffff⟩⟩ := by
  have hw (i : Nat) : Host.loadWord .littleEndian wideFile.bytes (4 * i) =
      if i = 0 then noffMagic else if i = 2 then 40 else if i = 3 then 0x40000000
        else if i = 4 then 0x40000000 else if i = 5 then 40 else if i = 6 then 0x3ffffc00
        else if i = 7 then 0x7ffffc00 else if i = 9 then 0x7fffffff else 0 := wordAt_ofWords _ i
  simp only [NoffHeader.ofFile, NoffHeader.load, hw]
  rfl

def wide : Program where
  host := .littleEndian
  files name := if name = [112] then some wideFile else none
  name := [112]
  threadID := 0
  file := wideFile
  found := if_pos rfl
  whole := (by decide : 40 ≤ 2 ^ 30 + 40)
  magic := by rw [wideFile_header]

theorem wide_header : wide.header =
    ⟨noffMagic, ⟨0, 40, 0x40000000⟩, ⟨0x40000000, 40, 0x3ffffc00⟩, ⟨0x7ffffc00, 0, 0x7fffffff⟩⟩ :=
  wideFile_header

theorem wide_numPages : wide.numPages = 2 ^ 24 := by
  rw [Program.numPages, AddrSpace.pagesFor_toNat, wide_header]
  decide

theorem wide_wellFormed : wide.WellFormed := by
  constructor
  all_goals
    simp only [wide_header, wide_numPages, pageSize_eq]
  case codeInit =>
    intro i hi j _
    change i < 0x40000000 at hi
    change 0 + i ≠ 0x40000000 + j
    omega
  case codeUninit =>
    intro i hi j _
    change i < 0x40000000 at hi
    change 0 + i ≠ 0x7ffffc00 + j
    omega
  case initUninit =>
    intro i hi j _
    change i < 0x3ffffc00 at hi
    change 0x40000000 + i ≠ 0x7ffffc00 + j
    omega
  case code | initData | uninitData => exact ⟨by decide, by decide⟩
  case codeBytes => exact ⟨by decide, (by decide : 40 + 0x40000000 ≤ 2 ^ 30 + 40)⟩
  case initDataBytes => exact ⟨by decide, (by decide : 40 + 0x3ffffc00 ≤ 2 ^ 30 + 40)⟩

theorem Filled.not_trustworthy (h : Filled (fun _ => 0) numPhysPages k s) : ¬k.Trustworthy := by
  intro ht
  have hcount := h.numClear
  have hown : ∀ f < numPhysPages, (s.pageTable 0).physicalPage.toNat = f := by
    intro f hf
    obtain ⟨t, p, hl, -, ho⟩ := ht (by omega) f hf
    have hm : f ∈ k.bitMap.marked := BitMap.mem_marked_of_full (by omega) (h.bits ▸ hf)
    obtain rfl := Option.some.inj ((h.listed f hm).1.symm.trans hl)
    obtain ⟨hp, hv, hpf⟩ := (owns_current h.space).mp ho
    obtain ⟨-, -, rfl⟩ := h.valid p hp hv
    exact hpf
  exact absurd ((hown 0 (by decide)).symm.trans (hown 1 (by decide))) (by decide)

def wideKernel : Kernel := { boot 0 with files := wide.files, virtualOption := 2 }

theorem wide_program_misleads : wide.WellFormed ∧ ∃ k₀ k : Kernel, wideKernel.startProcess wide.name = .ok (some k₀) ∧
    k₀.Started ∧ Reachable (· = k₀) Step k ∧ ¬k.Trustworthy := by
  refine ⟨wide_wellFormed, ?_⟩
  have hfile : wideKernel.files wide.name = some wide.file := wide.found
  have hh : AddrSpace.readHeader wideKernel.host wideKernel.garbage wide.file = .ok wide.header :=
    AddrSpace.readHeader_ofFile .littleEndian wideKernel.garbage wide.whole
  have hsize : 2 ^ 32 - 256 < wide.header.size.toNat := by
    rw [wide_header]
    decide
  obtain ⟨k₀, h⟩ := startProcess_completes hfile hh wide.magic (AddrSpace.size_fits (.inr hsize))
  obtain ⟨s₀, files, hn, rfl⟩ := startProcess_eq h
  have hbuilt := AddrSpace.new_built hfile hh hn
  have hpages : s₀.numPages.toNat = 2 ^ 24 := by
    rw [hbuilt.numPages]
    exact wide_numPages
  have haddr : ∀ m < numPhysPages, divRoundDown (0xffffffff : Word).toInt pageSize = (0 : Nat) ∧ 0 < s₀.numPages.toNat ∧
      (0xffffffff : Word).toNat / pageSize < s₀.numPages.toNat ∧ ∀ l < m, (0xffffffff : Word).toNat / pageSize ≠ 0 := by
    intro m _
    rw [Wrapped.page_last, hpages]
    exact ⟨by rw [pageSize_eq]; decide, by decide, by decide, fun _ _ => by decide⟩
  have hstart : Reachable (· = wideKernel.load s₀ files) Step (wideKernel.load s₀ files) := .start rfl
  obtain ⟨k, s, hr, hf, -⟩ := Filled.run hstart (load_filled rfl (fun _ => rfl) hbuilt) (fun _ _ _ _ hstep => hstep) haddr
    (le_refl numPhysPages)
  exact ⟨_, k, h, ⟨wideKernel, wide.name, ⟨_, rfl⟩, fun _ => rfl, Nat.zero_lt_one, h⟩, hr, hf.not_trustworthy⟩

end Kernel

end Nachos
