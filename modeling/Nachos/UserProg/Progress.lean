import Nachos.UserProg.InvertedTable

namespace Nachos.Kernel

open Buffer Machine

variable {k k' : Kernel} {t : Tid} {p q f i o : Nat} {s s' : AddrSpace} {swap : UnixFile} {addr : Word}

structure Faulted (k : Kernel) (s : AddrSpace) (addr : Word) : Prop where
  space : k.space = .ok s
  bits : k.bitMap.numBits = numPhysPages
  raised : ∃ (k₀ : Kernel) (size : Nat) (writing : Bool) (registers : Register → Word),
    (k₀.machine s).translate addr size writing = .ok (.fail .pageFaultException) ∧ Raised k₀.registers addr registers ∧
    k = { k₀ with registers }

def pageByte (k : Kernel) (s : AddrSpace) (p o : Nat) : Option Byte :=
  if (s.pageTable p).valid = true then some (k.mainMemory ((s.pageTable p).physicalPage.toNat * pageSize + o))
  else
    match k.files s.swapFileName with
    | none => none
    | some f => if p * pageSize + o < f.length then some (f.bytes (p * pageSize + o)) else none

def Replaced (k k' : Kernel) (t : Tid) (p f : Nat) : Prop :=
  ∃ s s' c c', k.processes t = some ⟨some s, c⟩ ∧ k'.processes t = some ⟨some s', c'⟩ ∧
    (s'.pageTable p).valid = false ∧
    ((s.pageTable p).dirty = true → ∀ o < pageSize, k'.pageByte s' p o = some (k.mainMemory (f * pageSize + o)))

structure Served (k : Kernel) (s : AddrSpace) (p : Nat) (k' : Kernel) (s' : AddrSpace) : Prop where
  space : k'.space = .ok s'
  valid : (s'.pageTable p).valid = true
  inside : (s'.pageTable p).physicalPage.toNat < numPhysPages
  bytes : ∀ o < pageSize, k'.pageByte s' p o = k.pageByte s p o
  replaced : ∀ t q, k.Owns t q (s'.pageTable p).physicalPage.toNat →
    k.Replaced k' t q (s'.pageTable p).physicalPage.toNat
  retried : ∀ (addr : Word) (size : Nat) (writing : Bool), addr.toNat / pageSize = p →
    (k'.machine s').translate addr size writing ≠ .ok (.fail .pageFaultException)

/-- A frame is free and nobody's, the swap file has the page, and the address is not negative as an `int`. -/
structure Servable (k : Kernel) (s : AddrSpace) (addr : Word) : Prop where
  free : 0 < k.bitMap.numClear
  unowned : ∀ t q, ¬k.Owns t q (BitMap.firstClear k.bitMap.numBits k.bitMap.marked)
  swap : ∃ f, k.files s.swapFileName = some f ∧ (addr.toNat / pageSize + 1) * pageSize ≤ f.length
  positive : addr.toNat < 2 ^ 31

theorem Faulted.cold (h : k.Faulted s addr) : k.registers badVAddrReg = addr ∧
    addr.toNat / pageSize < s.numPages.toNat ∧ (s.pageTable (addr.toNat / pageSize)).valid = false := by
  obtain ⟨k₀, size, writing, registers, ht, hr, rfl⟩ := h.raised
  rcases translate_inv rfl rfl ht with ⟨-, -, hp, hv⟩ | ⟨which, he, hne, -⟩ | ⟨-, a, he⟩
  · exact ⟨hr.badVAddr, hp, hv⟩
  · cases he
    exact absurd rfl hne
  · cases he

theorem pageByte_cold (hv : (s.pageTable p).valid = false) (hf : k.files s.swapFileName = some swap) :
    k.pageByte s p o = if p * pageSize + o < swap.length then some (swap.bytes (p * pageSize + o)) else none := by
  simp only [pageByte, hv, hf, Bool.false_eq_true, ↓reduceIte]

theorem pageByte_pagedIn (hi : i < numPhysPages) (ho : o < pageSize) (hb : p * pageSize + o < swap.length) :
    (k.pagedIn s swap p i).pageByte (s.enter p i) p o = some (swap.bytes (p * pageSize + o)) := by
  rw [pageByte, if_pos (AddrSpace.enter_valid ..), AddrSpace.enter_frame s p hi]
  change some (k.mainMemory.copy (i * pageSize) (fun o => swap.bytes (p * pageSize + o)) _ _) = _
  rw [copy_inside (by omega) (by omega), Nat.add_sub_cancel_left]

theorem Replaced.not_owns (h : k.Replaced k' t q f) : ¬k'.Owns t q i := by
  rintro ⟨s₁, c₁, hp₁, -, hv₁, -⟩
  obtain ⟨-, s', -, c', -, hp, hv, -⟩ := h
  rw [hp] at hp₁
  cases hp₁
  rw [hv] at hv₁
  cases hv₁

theorem translate_of_valid {m : Machine} {table : Nat → TranslationEntry} (ht : m.tlb = none) (hp : m.pageTable = some table)
    (hv : (table (addr.toNat / pageSize)).valid = true) (size : Nat) (writing : Bool) :
    m.translate addr size writing ≠ .ok (.fail .pageFaultException) := by
  intro h
  rcases translate_inv ht hp h with ⟨-, -, -, hv'⟩ | ⟨which, he, hne, -⟩ | ⟨-, a, he⟩
  · rw [hv] at hv'
    cases hv'
  · cases he
    exact hne rfl
  · cases he

theorem Servable.served (h : k.Servable s addr) (hs : k.space = .ok s)
    (hv : (s.pageTable (addr.toNat / pageSize)).valid = false) (hi : i < numPhysPages)
    (hfirst : BitMap.firstClear k.bitMap.numBits k.bitMap.marked = i) (hf : k.files s.swapFileName = some swap) :
    k.Served s (addr.toNat / pageSize) (k.pagedIn s swap (addr.toNat / pageSize) i) (s.enter (addr.toNat / pageSize) i) where
  space := setSpace_space (s := s) hs _
  valid := AddrSpace.enter_valid ..
  inside := by rwa [AddrSpace.enter_frame s _ hi]
  bytes o ho := by
    obtain ⟨f, hf', hlen⟩ := h.swap
    obtain rfl := Option.some.inj (hf.symm.trans hf')
    rw [Nat.add_mul, Nat.one_mul] at hlen
    rw [pageByte_pagedIn hi ho (by omega), pageByte_cold hv hf, if_pos (by omega)]
  replaced t q ho := by
    rw [AddrSpace.enter_frame s _ hi, ← hfirst] at ho
    exact absurd ho (h.unowned t q)
  retried a size writing ha := by
    refine translate_of_valid rfl rfl ?_ size writing
    rw [ha]
    exact AddrSpace.enter_valid ..

theorem Served.servable (h : k.Served s (addr.toNat / pageSize) (k.pagedIn s swap (addr.toNat / pageSize) i) s')
    (hs : k.space = .ok s) (hp : addr.toNat / pageSize < s.numPages.toNat)
    (hv : (s.pageTable (addr.toNat / pageSize)).valid = false) (hi : i < numPhysPages)
    (hfirst : BitMap.firstClear k.bitMap.numBits k.bitMap.marked = i) (hf : k.files s.swapFileName = some swap)
    (hpos : 0 < k.bitMap.numClear) (hlow : addr.toNat < 2 ^ 31) : k.Servable s addr := by
  have hs' : (k.pagedIn s swap (addr.toNat / pageSize) i).space = .ok (s.enter (addr.toNat / pageSize) i) :=
    setSpace_space (s := s) hs _
  obtain rfl := Except.ok.inj (hs'.symm.trans h.space)
  refine ⟨hpos, ?_, ⟨swap, hf, ?_⟩, hlow⟩
  · -- nobody loses a page: an owner of the frame still has it afterwards
    intro t q ho
    rw [hfirst] at ho
    have hr := h.replaced t q (by rwa [AddrSpace.enter_frame s _ hi])
    refine hr.not_owns ((owns_pagedIn hs hp hi).mpr (.inr ⟨?_, ho⟩))
    rintro ⟨rfl, rfl⟩
    have hv' := ((owns_current hs).mp ho).2.1
    rw [hv] at hv'
    cases hv'
  · have hlast := h.bytes (pageSize - 1) (by rw [pageSize_eq]; decide)
    rw [pageByte_cold hv hf, pageByte, if_pos h.valid] at hlast
    split_ifs at hlast with hlen
    rw [pageSize_eq] at hlen ⊢
    omega

/-- A fault makes progress if and only if the first free frame belongs to no page. Without a free frame the
handler chooses a page to evict, looks at its dirty bit and returns. -/
theorem pageFault_progress (h : k.Faulted s addr) :
    (k.Servable s addr → ∃ k', k.pageFault = .ok (.returned () k')) ∧
      ∀ k', k.pageFault = .ok (.returned () k') →
        ((∃ s', k.Served s (addr.toNat / pageSize) k' s') ↔ k.Servable s addr) := by
  obtain ⟨hbad, hp, hv⟩ := h.cold
  constructor
  · intro hok
    obtain ⟨f, hf, -⟩ := hok.swap
    obtain ⟨i, -, -, -, hfind⟩ := BitMap.find_of_clear hok.free
    have hd := divRoundDown_of_lt hok.positive
    exact ⟨_, pageFault_eq h.space hf (by rw [hbad, hd]) hp hfind⟩
  · intro k' hk
    rcases pageFault_cases hk with ⟨hz, fifo, random, rfl⟩ | ⟨hpos, s₁, f, p, i, hs, hf, hd, hpn, hi, him, hfirst, rfl⟩
    · refine iff_of_false ?_ (fun hok => absurd hz hok.free.ne')
      rintro ⟨s', hs'⟩
      have hsame : s' = s := Except.ok.inj (hs'.space.symm.trans h.space)
      have hv' := hs'.valid
      rw [hsame, hv] at hv'
      cases hv'
    · obtain rfl := Except.ok.inj (hs.symm.trans h.space)
      have hi' : i < numPhysPages := h.bits ▸ hi
      rw [hbad] at hd
      rcases divRoundDown_page hd with ⟨rfl, hlow⟩ | ⟨rfl, hlast⟩
      · constructor
        · rintro ⟨s', hs'⟩
          exact hs'.servable hs hp hv hi' hfirst hf hpos hlow
        · intro hok
          exact ⟨_, hok.served hs hv hi' hfirst hf⟩
      · rw [pageSize_eq] at hlast
        refine iff_of_false ?_ (fun hok => absurd hok.positive (by omega))
        rintro ⟨s', hs'⟩
        have hspace : (k.pagedIn s₁ f 0 i).space = .ok (s₁.enter 0 i) := setSpace_space (s := s₁) hs _
        obtain rfl := Except.ok.inj (hspace.symm.trans hs'.space)
        have hne : addr.toNat / pageSize ≠ 0 := by
          rw [pageSize_eq]
          omega
        have hv' := hs'.valid
        rw [AddrSpace.enter_of_ne s₁ i hne, hv] at hv'
        cases hv'

theorem readMem_faulted (hs : k.space = .ok s) (hb : k.bitMap.numBits = numPhysPages)
    (hl : (k.registers loadReg).toNat < numGPRegs) (hp : addr.toNat / pageSize < s.numPages.toNat)
    (hv : (s.pageTable (addr.toNat / pageSize)).valid = false) :
    ∃ registers, Faulted { k with registers } s addr ∧
      k.readMem addr 1 = Reply.proceed (pageFault { k with registers }) (fun _ k => .ok (.returned none k)) := by
  have ht : (k.machine s).translate addr 1 false = .ok (.fail .pageFaultException) :=
    translate_cold rfl rfl (Wrapped.aligned addr) hp hv false
  obtain ⟨registers, hr, he⟩ := access_raised (g := fun m => m.readMem addr 1) hs hl (readMem_of_fail ht)
  exact ⟨registers, ⟨hs, hb, k, 1, false, registers, ht, hr, rfl⟩, he⟩

theorem pageFault_progress_first : ∃ (k k' : Kernel) (s s' : AddrSpace), k.Faulted s 0 ∧
    k.pageFault = .ok (.returned () k') ∧ k.Served s ((0 : Word).toNat / pageSize) k' s' := by
  obtain ⟨s, files, hstart, hbuilt, hpages⟩ := crowded_load
  have hinv := hstart.inv
  have hp : (0 : Word).toNat / pageSize < s.numPages.toNat := by
    rw [Wrapped.page_zero]
    omega
  have hv : (s.pageTable ((0 : Word).toNat / pageSize)).valid = false := by
    rw [hbuilt.pageTable, AddrSpace.emptyTable, if_pos hp]
  obtain ⟨registers, hfault, -⟩ := readMem_faulted (load_space s files) hinv.bits hinv.loadReg hp hv
  have hok : Servable { crowded.load s files with registers } s 0 := by
    refine ⟨?_, ?_, ?_, by decide⟩
    · have hcount := (crowded.load s files).bitMap.numClear_add_card
      rw [hstart.marked, Finset.card_empty, hinv.bits, Nat.add_zero] at hcount
      exact hcount ▸ (by decide : 0 < numPhysPages)
    · intro t q ho
      have hm := (hinv.marked _).mpr ⟨t, q, ho⟩
      simp [hstart.marked] at hm
    · obtain ⟨f, hf, hlen⟩ := hbuilt.swap
      refine ⟨f, hf, ?_⟩
      rw [Wrapped.page_zero, hlen, hbuilt.numPages, AddrSpace.size_toNat (by decide), ← hbuilt.numPages, hpages, pageSize_eq]
      decide
  obtain ⟨k', hk⟩ := (pageFault_progress hfault).1 hok
  obtain ⟨s', hs'⟩ := ((pageFault_progress hfault).2 k' hk).mpr hok
  exact ⟨_, k', s, s', hfault, hk, hs'⟩

theorem Filled.evicted {page : Nat → Nat} {n : Nat} (h : Filled page n k s) (hf : f ∈ k.bitMap.marked)
    (hp : ∀ m < n, page m < s.numPages.toNat) : ∃ entry, k.evicted f = .ok entry := by
  obtain ⟨ht, m, hm, hv⟩ := h.listed f hf
  obtain ⟨c, hc⟩ := space_eq_ok.mp h.space
  have hin : 0 ≤ k.iptVP f ∧ k.iptVP f < s.numPages.toNat := by
    rw [hv]
    exact ⟨Int.natCast_nonneg _, Int.ofNat_lt.mpr (hp m hm)⟩
  simp only [Kernel.evicted, ht, hc]
  exact ⟨_, if_pos hin⟩

theorem pageFault_random {entry : TranslationEntry} (hz : k.bitMap.numClear = 0) (ho : k.virtualOption = 2)
    (he : k.evicted (k.random.headD 0 % numPhysPages) = .ok entry) :
    k.pageFault = .ok (.returned () { k with random := k.random.tail }) := by
  have hfind : k.bitMap.find = (Int.negSucc 0, k.bitMap) := BitMap.find_of_full hz
  simp only [pageFault, hfind, noFreePage]
  rw [if_neg (by omega), if_neg (by omega), if_pos ho, he]
  rfl

theorem full_memory_no_progress : ∃ (k k' : Kernel) (s : AddrSpace) (registers : Register → Word),
    Reachable Started Step k ∧ k.virtualOption = 2 ∧ k.Step (.read (pageStart 32) 1) k' ∧
      Faulted { k with registers } s (pageStart 32) ∧ pageFault { k with registers } = .ok (.returned () k') ∧
      ¬∃ s', Served { k with registers } s ((pageStart 32).toNat / pageSize) k' s' := by
  obtain ⟨k, s, hr, hf, hpages, ho⟩ := crowded_fills (le_refl numPhysPages)
  have hcount := hf.numClear
  have hz : k.bitMap.numClear = 0 := by omega
  have hpage : (pageStart 32).toNat / pageSize = 32 := pageStart_page (by decide)
  have hp : (pageStart 32).toNat / pageSize < s.numPages.toNat := by
    rw [hpage]
    omega
  have hv : (s.pageTable ((pageStart 32).toNat / pageSize)).valid = false := by
    refine hf.cold hp fun m hm => ?_
    rw [hpage]
    exact Nat.ne_of_gt hm
  obtain ⟨registers, hfault, hread⟩ := readMem_faulted hf.space hf.bits hf.loadReg hp hv
  have hframe : k.random.headD 0 % numPhysPages ∈ k.bitMap.marked := by
    refine BitMap.mem_marked_of_full hz ?_
    rw [hf.bits]
    exact Nat.mod_lt _ (by decide)
  obtain ⟨entry, he⟩ := hf.evicted hframe fun m hm => by
    have h32 : m < 32 := hm
    rw [hpages]
    exact h32.trans (by decide)
  have hk := pageFault_random (k := { k with registers }) hz ho he
  refine ⟨k, _, s, registers, hr.mono (fun _ _ _ h => h.1), ho, ⟨.inl rfl, none, ?_⟩, hfault, hk, ?_⟩
  · rw [hread, hk]
    rfl
  · rintro ⟨s', hs'⟩
    obtain rfl := Except.ok.inj (hs'.space.symm.trans hf.space)
    have hv' := hs'.valid
    rw [hv] at hv'
    cases hv'

end Nachos.Kernel
