import Nachos.FileSys.BitMap

namespace Nachos

open Disk CInt

def sizeofInt : Nat := 4
def numDirect : Nat := (sectorSize - 2 * sizeofInt) / sizeofInt
def maxFileSize : Nat := numDirect * sectorSize

theorem numDirect_eq : numDirect = 62 := by simp [numDirect, sectorSize, sizeofInt]

theorem maxFileSize_eq : maxFileSize = 15872 := by simp [maxFileSize, numDirect_eq, sectorSize]

structure FileHeader where
  numBytes : Word
  numSectors : Word
  dataSectors : Fin numDirect → Word

namespace FileHeader

def words (h : FileHeader) : Words
  | 0 => h.numBytes
  | 1 => h.numSectors
  | i + 2 => if hi : i < numDirect then h.dataSectors ⟨i, hi⟩ else 0

-- `(char *) this`: the object fills one sector exactly
def encode (h : FileHeader) : Buffer := Buffer.ofWords h.words

def decode (b : Buffer) : FileHeader :=
  ⟨b.wordAt 0, b.wordAt 4, fun i => b.wordAt (8 + 4 * i)⟩

theorem decode_encode (h : FileHeader) : decode h.encode = h := by
  have h0 := Buffer.wordAt_ofWords h.words 0
  have h1 := Buffer.wordAt_ofWords h.words 1
  have hd : (fun i : Fin numDirect => (Buffer.ofWords h.words).wordAt (8 + 4 * i)) = h.dataSectors := by
    funext i
    rw [show 8 + 4 * (i : Nat) = 4 * (i + 2) by omega, Buffer.wordAt_ofWords]
    simp [words]
  cases h
  exact FileHeader.mk.injEq .. ▸ ⟨h0, h1, hd⟩

theorem decode_congr {b c : Buffer} (h : ∀ k < sectorSize, b k = c k) : decode b = decode c := by
  have hw (i : Nat) (hi : i + 4 ≤ sectorSize) : b.wordAt i = c.wordAt i :=
    Buffer.wordAt_congr (fun k hk => h _ (by omega))
  have hd : (fun i : Fin numDirect => b.wordAt (8 + 4 * i)) =
      fun i : Fin numDirect => c.wordAt (8 + 4 * i) := by
    funext i
    have hi : (i : Nat) < 62 := numDirect_eq ▸ i.isLt
    exact hw _ (by simp only [sectorSize]; omega)
  simp only [decode, hw 0 (by simp [sectorSize]), hw 4 (by simp [sectorSize]), hd]

def fetchFrom (d : Disk) (sector : Int) : Except Fault FileHeader := do
  let data ← d.readSector sector
  .ok (decode data)

def writeBack (h : FileHeader) (d : Disk) (sector : Int) : Except Fault Disk :=
  d.writeSector sector h.encode

def fileLength (h : FileHeader) : Int := h.numBytes.toInt

def sector (h : FileHeader) (i : Nat) : Int := if hi : i < numDirect then (h.dataSectors ⟨i, hi⟩).toInt else -1

def setSector (h : FileHeader) (i : Nat) (s : Int) : Except Fault FileHeader :=
  if hi : i < numDirect then
    .ok { h with dataSectors := Function.update h.dataSectors ⟨i, hi⟩ (.ofInt 32 s) }
  else .error .outOfBounds

def getSector (h : FileHeader) (i : Int) : Except Fault Int :=
  if 0 ≤ i ∧ i < numDirect then .ok (h.sector i.toNat) else .error .outOfBounds

def byteToSector (h : FileHeader) (offset : Int) : Except Fault Int :=
  h.getSector (divRoundDown offset sectorSize)

def allocateSectors (h : FileHeader) (freeMap : BitMap) : Nat → Except Fault (FileHeader × BitMap)
  | 0 => .ok (h, freeMap)
  | n + 1 => do
    let (h, freeMap) ← allocateSectors h freeMap n
    let (s, freeMap) := freeMap.find
    let h ← h.setSector n s
    .ok (h, freeMap)

def allocate (h : FileHeader) (freeMap : BitMap) (fileSize : Int) :
    Except Fault (Bool × FileHeader × BitMap) := do
  let numSectors := divRoundUp fileSize sectorSize
  let h := { h with numBytes := .ofInt 32 fileSize, numSectors := .ofInt 32 numSectors }
  if freeMap.numClear < numSectors then .ok (false, h, freeMap)
  else do
    let r ← allocateSectors h freeMap numSectors.toNat
    .ok (true, r)

def deallocateSectors (h : FileHeader) (freeMap : BitMap) : Nat → Except Fault BitMap
  | 0 => .ok freeMap
  | n + 1 => do
    let freeMap ← deallocateSectors h freeMap n
    let s ← h.getSector n
    let marked ← freeMap.test s
    assert (marked = true)
    freeMap.clear s

def deallocate (h : FileHeader) (freeMap : BitMap) : Except Fault BitMap :=
  deallocateSectors h freeMap h.numSectors.toInt.toNat

def block (h : FileHeader) (i : Nat) : Nat := (h.sector i).toNat

def blocks (h : FileHeader) (n : Nat) : List Nat := (List.range n).map h.block

def size (h : FileHeader) : Nat := h.numSectors.toInt.toNat

theorem blocks_succ (h : FileHeader) (n : Nat) : h.blocks (n + 1) = h.blocks n ++ [h.block n] := by
  simp [blocks, List.range_succ]

theorem mem_blocks {h : FileHeader} {n s : Nat} : s ∈ h.blocks n ↔ ∃ i < n, h.block i = s := by
  simp [blocks]

theorem blocks_congr {h h' : FileHeader} {n : Nat} (he : ∀ i < n, h.sector i = h'.sector i) :
    h.blocks n = h'.blocks n := by
  apply List.map_congr_left
  intro i hi
  rw [block, block, he i (List.mem_range.mp hi)]

theorem setSector_ok {h : FileHeader} {n : Nat} (hn : n < numDirect) {s : Nat} (hs : s < 2 ^ 31) :
    ∃ h', h.setSector n s = .ok h' ∧ h'.numBytes = h.numBytes ∧ h'.numSectors = h.numSectors ∧
      h'.sector n = s ∧ ∀ i, i ≠ n → h'.sector i = h.sector i := by
  refine ⟨_, dif_pos hn, rfl, rfl, ?_, ?_⟩
  · simp only [sector, hn, ↓reduceDIte, Function.update_self]
    exact toInt_ofInt (by omega) (by simp only [intMax]; omega)
  · intro i hi
    simp only [sector]
    split_ifs with hd
    · rw [Function.update_of_ne (by simpa using hi)]
    · rfl

theorem getSector_ok {h : FileHeader} {i : Nat} (hi : i < numDirect) : h.getSector i = .ok (h.sector i) := by
  rw [getSector, if_pos ⟨by omega, by omega⟩, Int.toNat_natCast]

structure Allocated (b : BitMap) (n : Nat) (h : FileHeader) (b' : BitMap) : Prop where
  numBits : b'.numBits = b.numBits
  sector : ∀ i < n, h.sector i = h.block i
  bound : ∀ s ∈ h.blocks n, s < b.numBits
  fresh : ∀ s ∈ h.blocks n, s ∉ b.marked
  nodup : (h.blocks n).Nodup
  marked : b'.marked = b.marked ∪ (h.blocks n).toFinset
  fit : h.blocks n = BitMap.firstFit b.numBits b.marked n

theorem allocateSectors_spec (h : FileHeader) (b : BitMap) (hb : b.numBits ≤ 2 ^ 31) (n : Nat)
    (hn : n ≤ numDirect) (hc : n ≤ b.numClear) :
    ∃ h' b', allocateSectors h b n = .ok (h', b') ∧ h'.numBytes = h.numBytes ∧
      h'.numSectors = h.numSectors ∧ Allocated b n h' b' := by
  induction n with
  | zero => exact ⟨h, b, rfl, rfl, rfl, ⟨rfl, by simp, by simp [blocks], by simp [blocks],
      by simp [blocks], by simp [blocks], rfl⟩⟩
  | succ n ih =>
    obtain ⟨h1, b1, he, hnb, hns, ha⟩ := ih (by omega) (by omega)
    have hcard : b1.marked.card = b.marked.card + n := by
      rw [ha.marked, Finset.card_union_of_disjoint, List.toFinset_card_of_nodup ha.nodup]
      · simp [blocks]
      · exact Finset.disjoint_right.mpr (fun s hs => ha.fresh s (List.mem_toFinset.mp hs))
    have hclear : 0 < b1.numClear := by
      have h1 := b1.numClear_add_card
      have h2 := b.numClear_add_card
      rw [ha.numBits] at h1
      omega
    obtain ⟨i, hi, hfree, hfirst, hfind⟩ := BitMap.find_of_clear hclear
    rw [ha.numBits] at hi
    rw [ha.numBits, ha.marked] at hfirst
    obtain ⟨h2, hset, hnb2, hns2, hsec, hother⟩ :=
      setSector_ok (h := h1) (show n < numDirect by omega) (show i < 2 ^ 31 by omega)
    have hblocks : h2.blocks n = h1.blocks n := blocks_congr (fun j hj => hother j (by omega))
    have hblock : h2.block n = i := by rw [block, hsec]; rfl
    rw [ha.marked, Finset.notMem_union, List.mem_toFinset] at hfree
    refine ⟨h2, { b1 with map := b1.map.mark i }, ?_, by rw [hnb2, hnb], by rw [hns2, hns], ?_⟩
    · simp [allocateSectors, he, hfind, hset]
    · refine ⟨ha.numBits, ?_, ?_, ?_, ?_, ?_, ?_⟩
      · intro j hj
        by_cases hjn : j = n
        · rw [hjn, hblock, hsec]
        · rw [hother j hjn, block, hother j hjn]
          exact ha.sector j (by omega)
      · simp only [blocks_succ, hblocks, hblock, List.mem_append, List.mem_singleton]
        rintro s (hs | rfl)
        · exact ha.bound s hs
        · exact hi
      · simp only [blocks_succ, hblocks, hblock, List.mem_append, List.mem_singleton]
        rintro s (hs | rfl)
        · exact ha.fresh s hs
        · exact hfree.1
      · rw [blocks_succ, hblocks, hblock]
        exact List.Nodup.append ha.nodup (List.nodup_singleton i) (by simpa using hfree.2)
      · rw [BitMap.marked_mark (by rw [ha.numBits]; exact hi), ha.marked, blocks_succ, hblocks, hblock]
        ext s
        simp
      · rw [blocks_succ, hblocks, hblock, BitMap.firstFit, ← ha.fit, hfirst]

theorem numSectors_range {fileSize : Int} (h0 : 0 ≤ fileSize) (hm : fileSize ≤ maxFileSize) :
    0 ≤ divRoundUp fileSize sectorSize ∧ divRoundUp fileSize sectorSize ≤ numDirect := by
  rw [maxFileSize_eq] at hm
  rw [sectorSize_eq, divRoundUp_of_nonneg h0 (by decide), numDirect_eq]
  omega

theorem allocate_of_room (h : FileHeader) (b : BitMap) (hb : b.numBits ≤ 2 ^ 31) (fileSize : Int)
    (h0 : 0 ≤ fileSize) (hm : fileSize ≤ maxFileSize)
    (hc : divRoundUp fileSize sectorSize ≤ b.numClear) :
    ∃ h' b', h.allocate b fileSize = .ok (true, h', b') ∧ h'.fileLength = fileSize ∧
      h'.numSectors.toInt = divRoundUp fileSize sectorSize ∧ Allocated b h'.size h' b' := by
  obtain ⟨hl, hu⟩ := numSectors_range h0 hm
  have hd := numDirect_eq
  have hs := maxFileSize_eq
  obtain ⟨h', b', he, hnb, hns, ha⟩ := allocateSectors_spec
    { h with numBytes := .ofInt 32 fileSize, numSectors := .ofInt 32 (divRoundUp fileSize sectorSize) }
    b hb (divRoundUp fileSize sectorSize).toNat (by omega) (by omega)
  have hsize : h'.numSectors.toInt = divRoundUp fileSize sectorSize := by
    rw [hns, toInt_ofInt (by omega) (by simp only [intMax]; omega)]
  refine ⟨h', b', ?_, ?_, hsize, ?_⟩
  · simp only [allocate, he, if_neg (Int.not_lt.mpr hc), ok_bind]
  · rw [fileLength, hnb, toInt_ofInt (by omega) (by simp only [intMax]; omega)]
  · rwa [size, hsize]

theorem allocateSectors_rest {h h' : FileHeader} {b b' : BitMap} {n : Nat}
    (he : allocateSectors h b n = .ok (h', b')) : ∀ i, n ≤ i → h'.sector i = h.sector i := by
  induction n generalizing h' b' with
  | zero =>
    obtain ⟨rfl, -⟩ := Prod.mk.inj (Except.ok.inj he)
    exact fun _ _ => rfl
  | succ n ih =>
    simp only [allocateSectors, bind_eq_ok] at he
    obtain ⟨⟨h1, b1⟩, he1, h2, hset, he⟩ := he
    obtain ⟨rfl, -⟩ := Prod.mk.inj (Except.ok.inj he)
    intro i hi
    rw [← ih he1 i (by omega)]
    unfold setSector at hset
    split_ifs at hset with hn
    obtain rfl := Except.ok.inj hset
    simp only [sector]
    split_ifs with hd
    · rw [Function.update_of_ne (by simp; omega)]
    · rfl

theorem allocate_rest {h h' : FileHeader} {b b' : BitMap} {fileSize : Int}
    (he : h.allocate b fileSize = .ok (true, h', b')) (hs : h'.size = (divRoundUp fileSize sectorSize).toNat) :
    ∀ i, h'.size ≤ i → h'.sector i = h.sector i := by
  simp only [allocate] at he
  split_ifs at he with hc
  · simp at he
  simp only [bind_eq_ok] at he
  obtain ⟨⟨h1, b1⟩, he1, he⟩ := he
  obtain ⟨-, hr⟩ := Prod.mk.inj (Except.ok.inj he)
  obtain ⟨rfl, -⟩ := Prod.mk.inj hr
  rw [hs]
  exact fun i hi => allocateSectors_rest he1 i hi

theorem allocate_of_full (h : FileHeader) (b : BitMap) {fileSize : Int}
    (hc : b.numClear < divRoundUp fileSize sectorSize) :
    ∃ h', h.allocate b fileSize = .ok (false, h', b) := by
  simp only [allocate, if_pos hc]
  exact ⟨_, rfl⟩

theorem deallocateSectors_spec {h : FileHeader} {b : BitMap} (n : Nat) (hn : n ≤ numDirect)
    (hs : ∀ i < n, h.sector i = h.block i) (hm : ∀ s ∈ h.blocks n, s ∈ b.marked)
    (hd : (h.blocks n).Nodup) :
    ∃ b', deallocateSectors h b n = .ok b' ∧ b'.numBits = b.numBits ∧
      b'.marked = b.marked \ (h.blocks n).toFinset := by
  induction n with
  | zero => exact ⟨b, rfl, rfl, by simp [blocks]⟩
  | succ n ih =>
    simp only [blocks_succ, List.mem_append, List.mem_singleton] at hm hd
    obtain ⟨b1, he, hbits, hmarked⟩ := ih (by omega) (fun i hi => hs i (by omega))
      (fun s hs => hm s (.inl hs)) (List.Nodup.of_append_left hd)
    have hnew : h.block n ∉ h.blocks n := fun hmem =>
      (List.nodup_append.mp hd).2.2 _ hmem _ (List.mem_singleton_self _) rfl
    have hin : h.block n ∈ b1.marked := by
      rw [hmarked, Finset.mem_sdiff, List.mem_toFinset]
      exact ⟨hm _ (.inr rfl), hnew⟩
    obtain ⟨hlt, ht⟩ := BitMap.mem_marked.mp hin
    refine ⟨{ b1 with map := b1.map.clear (h.block n) }, ?_, hbits, ?_⟩
    · simp only [deallocateSectors, he, ok_bind, getSector_ok (show n < numDirect by omega),
        hs n (by omega), BitMap.test_eq hlt, BitMap.clear_eq hlt, assert_pos ht]
    · rw [BitMap.marked_clear, hmarked, blocks_succ]
      ext s
      simp only [Finset.mem_erase, Finset.mem_sdiff, List.mem_toFinset, List.mem_append,
        List.mem_singleton]
      tauto

end FileHeader

end Nachos
