import Nachos.FileSys.Disk
import Nachos.Lib.CString
import Mathlib.Data.List.FinRange

namespace Nachos

open CString CInt

def fileNameMaxLen : Nat := 9

/-- `padding` and `tail` are the bytes the compiler leaves between and after the members. -/
structure DirectoryEntry where
  inUse : Bool
  padding : Fin 3 → Byte
  sector : Word
  name : Fin (fileNameMaxLen + 1) → Byte
  tail : Fin 2 → Byte

namespace DirectoryEntry

def sizeof : Nat := 20

def encode (e : DirectoryEntry) : Buffer := fun k =>
  if k = 0 then if e.inUse then 1 else 0
  else if h : k - 1 < 3 then e.padding ⟨k - 1, h⟩
  else if k < 8 then Buffer.byteOf e.sector (k - 4)
  else if h : k - 8 < fileNameMaxLen + 1 then e.name ⟨k - 8, h⟩
  else if h : k - 18 < 2 then e.tail ⟨k - 18, h⟩
  else 0

def decode (b : Buffer) : DirectoryEntry :=
  ⟨b 0 ≠ 0, fun i => b (1 + i), b.wordAt 4, fun i => b (8 + i), fun i => b (18 + i)⟩

theorem decode_encode (e : DirectoryEntry) : decode e.encode = e := by
  have hp : (fun i : Fin 3 => e.encode (1 + i)) = e.padding := by
    funext i
    have hi := i.isLt
    simp [encode]
  have hs : e.encode.wordAt 4 = e.sector := by
    apply Buffer.wordAt_byteOf
    intro j hj
    simp only [encode]
    rw [if_neg (by omega), dif_neg (by omega), if_pos (by omega), Nat.add_sub_cancel_left]
  have hn : (fun i : Fin (fileNameMaxLen + 1) => e.encode (8 + i)) = e.name := by
    funext i
    have hi : (i : Nat) < 10 := i.isLt
    simp only [encode]
    rw [if_neg (by omega), dif_neg (by omega), if_neg (by omega), dif_pos (by omega)]
    congr 2
    omega
  have ht : (fun i : Fin 2 => e.encode (18 + i)) = e.tail := by
    funext i
    have hi := i.isLt
    simp only [encode]
    rw [if_neg (by omega), dif_neg (by omega), if_neg (by omega),
      dif_neg (by simp only [fileNameMaxLen]; omega), dif_pos (by omega)]
    congr 2
    omega
  obtain ⟨u, p, s, n, t⟩ := e
  simp only [decode, hp, hs, hn, ht]
  cases u <;> simp [encode]

theorem decode_congr {b c : Buffer} (h : ∀ k < sizeof, b k = c k) : decode b = decode c := by
  simp only [sizeof] at h
  have hp : (fun i : Fin 3 => b (1 + i)) = fun i : Fin 3 => c (1 + i) := funext fun i => h _ (by omega)
  have hn : (fun i : Fin (fileNameMaxLen + 1) => b (8 + i)) = fun i : Fin (fileNameMaxLen + 1) => c (8 + i) :=
    funext fun i => h _ (by have hi : (i : Nat) < 10 := i.isLt; omega)
  have ht : (fun i : Fin 2 => b (18 + i)) = fun i : Fin 2 => c (18 + i) := funext fun i => h _ (by omega)
  simp only [decode, h 0 (by omega), hp, hn, ht, Buffer.wordAt_congr (fun k hk => h (4 + k) (by omega))]

def nameBytes (e : DirectoryEntry) : Buffer :=
  fun k => if h : k < fileNameMaxLen + 1 then e.name ⟨k, h⟩ else 0

def key (e : DirectoryEntry) : List Byte := CString.key fileNameMaxLen e.nameBytes

def fill (e : DirectoryEntry) (name : Buffer) (newSector : Int) : DirectoryEntry :=
  { e with
    inUse := true
    name := fun i => strncpy e.nameBytes name fileNameMaxLen i
    sector := .ofInt 32 newSector }

def release (e : DirectoryEntry) : DirectoryEntry := { e with inUse := false }

theorem key_fill (e : DirectoryEntry) (name : Buffer) (newSector : Int) :
    (e.fill name newSector).key = CString.key fileNameMaxLen name := by
  rw [key, ← key_strncpy e.nameBytes name fileNameMaxLen]
  apply key_congr
  intro k hk
  have hk' : k < fileNameMaxLen + 1 := by omega
  simp [nameBytes, fill, hk']

end DirectoryEntry

structure Directory (n : Nat) where
  table : Fin n → DirectoryEntry

namespace Directory

variable {n : Nat}

def encode (dir : Directory n) : Buffer := fun k =>
  if h : k / DirectoryEntry.sizeof < n then
    (dir.table ⟨k / DirectoryEntry.sizeof, h⟩).encode (k % DirectoryEntry.sizeof)
  else 0

def decode (b : Buffer) : Directory n :=
  ⟨fun i => DirectoryEntry.decode (fun k => b (DirectoryEntry.sizeof * i + k))⟩

theorem decode_congr {b c : Buffer} (h : ∀ k < n * DirectoryEntry.sizeof, b k = c k) :
    (decode b : Directory n) = decode c := by
  rw [decode, decode, Directory.mk.injEq]
  funext i
  have hi := i.isLt
  apply DirectoryEntry.decode_congr
  intro k hk
  apply h
  simp only [DirectoryEntry.sizeof] at *
  omega

theorem decode_encode (dir : Directory n) : decode dir.encode = dir := by
  obtain ⟨table⟩ := dir
  rw [decode, Directory.mk.injEq]
  funext i
  rw [← DirectoryEntry.decode_encode (table i)]
  apply DirectoryEntry.decode_congr
  intro k hk
  have hd : (DirectoryEntry.sizeof * i + k) / DirectoryEntry.sizeof = i := by
    simp only [DirectoryEntry.sizeof] at *; omega
  have hm : (DirectoryEntry.sizeof * i + k) % DirectoryEntry.sizeof = k := by
    simp only [DirectoryEntry.sizeof] at *; omega
  simp only [encode, hd, hm, i.isLt, ↓reduceDIte]

def new (n : Nat) (heap : Buffer) : Directory n :=
  -- `Directory::Directory`: only `inUse` is initialized
  ⟨fun i => ((decode heap : Directory n).table i).release⟩

def findIndex (dir : Directory n) (name : Buffer) : Option (Fin n) :=
  (List.finRange n).find? fun i =>
    (dir.table i).inUse && strncmp (dir.table i).nameBytes name fileNameMaxLen == 0

def find (dir : Directory n) (name : Buffer) : Int :=
  match dir.findIndex name with
  | some i => (dir.table i).sector.toInt
  | none => -1

def update (dir : Directory n) (i : Fin n) (e : DirectoryEntry) : Directory n :=
  ⟨Function.update dir.table i e⟩

def add (dir : Directory n) (name : Buffer) (newSector : Int) : Bool × Directory n :=
  match dir.findIndex name with
  | some _ => (false, dir)
  | none =>
    match (List.finRange n).find? (fun i => !(dir.table i).inUse) with
    | some i => (true, dir.update i ((dir.table i).fill name newSector))
    | none => (false, dir)

def remove (dir : Directory n) (name : Buffer) : Bool × Directory n :=
  match dir.findIndex name with
  | none => (false, dir)
  | some i => (true, dir.update i (dir.table i).release)

def Unique (dir : Directory n) : Prop :=
  ∀ i j, (dir.table i).inUse → (dir.table j).inUse → (dir.table i).key = (dir.table j).key → i = j

theorem findIndex_some {dir : Directory n} {name : Buffer} {i : Fin n} (h : dir.findIndex name = some i) :
    (dir.table i).inUse = true ∧ (dir.table i).key = CString.key fileNameMaxLen name := by
  have hp := List.find?_some h
  simp only [Bool.and_eq_true, beq_iff_eq] at hp
  exact ⟨hp.1, strncmp_eq_zero.mp hp.2⟩

theorem findIndex_none {dir : Directory n} {name : Buffer} :
    dir.findIndex name = none ↔
      ∀ i, (dir.table i).inUse → (dir.table i).key ≠ CString.key fileNameMaxLen name := by
  simp only [findIndex, List.find?_eq_none, List.mem_finRange, true_implies, Bool.and_eq_true, beq_iff_eq,
    not_and, strncmp_eq_zero]
  rfl

theorem findIndex_unique {dir : Directory n} (hu : dir.Unique) {name : Buffer} {i : Fin n}
    (hi : (dir.table i).inUse) (hk : (dir.table i).key = CString.key fileNameMaxLen name) :
    dir.findIndex name = some i := by
  cases hf : dir.findIndex name with
  | none => exact absurd hk (findIndex_none.mp hf i hi)
  | some j =>
    obtain ⟨hj, hkj⟩ := findIndex_some hf
    rw [hu i j hi hj (hk.trans hkj.symm)]

theorem update_self (dir : Directory n) (i : Fin n) (e : DirectoryEntry) : (dir.update i e).table i = e :=
  Function.update_self ..

theorem update_of_ne (dir : Directory n) {i j : Fin n} (h : j ≠ i) (e : DirectoryEntry) :
    (dir.update i e).table j = dir.table j := Function.update_of_ne h ..

theorem add_true {dir dir' : Directory n} {name : Buffer} {s : Int} (h : dir.add name s = (true, dir')) :
    dir.findIndex name = none ∧ ∃ i, (dir.table i).inUse = false ∧
      dir' = dir.update i ((dir.table i).fill name s) := by
  unfold add at h
  split at h
  · simp at h
  · next hnone =>
    split at h
    · next i hi =>
      obtain ⟨-, rfl⟩ := Prod.mk.inj h
      exact ⟨hnone, i, by simpa using List.find?_some hi, rfl⟩
    · simp at h

theorem add_of_free {dir : Directory n} {name : Buffer} (hn : dir.findIndex name = none)
    (hf : ∃ i, (dir.table i).inUse = false) (s : Int) : (dir.add name s).1 = true := by
  obtain ⟨i, hi⟩ := hf
  simp only [add, hn]
  split
  · rfl
  · next hnone => exact absurd (List.find?_eq_none.mp hnone i (List.mem_finRange i)) (by simp [hi])

theorem Unique.fill {dir : Directory n} (hu : dir.Unique) {name : Buffer}
    (hn : dir.findIndex name = none) (i : Fin n) (s : Int) :
    (dir.update i ((dir.table i).fill name s)).Unique := by
  have hnew := findIndex_none.mp hn
  intro j k hj hk hjk
  by_cases hji : j = i <;> by_cases hki : k = i
  · rw [hji, hki]
  · subst hji
    rw [update_of_ne dir hki] at hk hjk
    rw [update_self, DirectoryEntry.key_fill] at hjk
    exact absurd hjk.symm (hnew k hk)
  · subst hki
    rw [update_of_ne dir hji] at hj hjk
    rw [update_self, DirectoryEntry.key_fill] at hjk
    exact absurd hjk (hnew j hj)
  · rw [update_of_ne dir hji] at hj hjk
    rw [update_of_ne dir hki] at hk hjk
    exact hu j k hj hk hjk

theorem Unique.clear {dir : Directory n} (hu : dir.Unique) (i : Fin n) :
    (dir.update i (dir.table i).release).Unique := by
  intro j k hj hk hjk
  have hne (l : Fin n) (hl : ((dir.update i (dir.table i).release).table l).inUse) : l ≠ i := by
    rintro rfl
    rw [update_self] at hl
    exact absurd hl (by simp [DirectoryEntry.release])
  have hji := hne j hj
  have hki := hne k hk
  rw [update_of_ne dir hji] at hj hjk
  rw [update_of_ne dir hki] at hk hjk
  exact hu j k hj hk hjk

end Directory

end Nachos
