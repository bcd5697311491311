import Nachos.FileSys.NameTable

namespace Nachos

open CString BoundedMap

namespace DirectoryEntry

def text (e : DirectoryEntry) : Option (List Byte) := CString.text (fileNameMaxLen + 1) e.nameBytes

def lastByte (e : DirectoryEntry) : Byte := e.name ⟨fileNameMaxLen, Nat.lt_succ_self _⟩

theorem nameBytes_last (e : DirectoryEntry) : e.nameBytes fileNameMaxLen = e.lastByte :=
  dif_pos (Nat.lt_succ_self fileNameMaxLen)

theorem lastByte_fill (e : DirectoryEntry) (name : Buffer) (newSector : Int) :
    (e.fill name newSector).lastByte = e.lastByte := by
  simp only [lastByte, fill, strncpy, lt_irrefl, ↓reduceIte]
  exact nameBytes_last e

theorem exists_nul_iff (e : DirectoryEntry) :
    (∃ k, e.name k = 0#8) ↔ e.key.length < fileNameMaxLen ∨ e.lastByte = 0#8 := by
  rw [key, CString.key, length_keyFrom_lt_iff, ← nameBytes_last]
  constructor
  · rintro ⟨k, hk⟩
    have hn : e.nameBytes k = 0#8 := (dif_pos k.isLt).trans hk
    obtain hlt | heq := Nat.lt_succ_iff_lt_or_eq.mp k.isLt
    · exact .inl ⟨k, hlt, by rwa [Nat.zero_add]⟩
    · exact .inr (heq ▸ hn)
  · rintro (⟨k, hk, hz⟩ | hz)
    · rw [Nat.zero_add] at hz
      exact ⟨⟨k, Nat.lt_succ_of_lt hk⟩, (dif_pos (Nat.lt_succ_of_lt hk)).symm.trans hz⟩
    · exact ⟨⟨fileNameMaxLen, Nat.lt_succ_self _⟩, (nameBytes_last e).symm.trans hz⟩

theorem text_eq (e : DirectoryEntry) :
    e.text = if e.key.length < fileNameMaxLen ∨ e.lastByte = 0#8 then some e.key else none := by
  rw [text, CString.text, textFrom_succ, Nat.zero_add, nameBytes_last]
  rfl

end DirectoryEntry

namespace Directory

variable {n : Nat}

def entries (dir : Directory n) : List (Fin n) := (List.finRange n).filter (fun i => (dir.table i).inUse)

def list (dir : Directory n) : Option (List (List Byte)) := dir.entries.mapM (fun i => (dir.table i).text)

def print (dir : Directory n) : Option (List (List Byte × Int)) :=
  -- what `Directory::Print` puts in front of each header: the name and the sector
  dir.entries.mapM (fun i => (dir.table i).text.map fun name => (name, (dir.table i).sector.toInt))

theorem perform_cases (dir : Directory n) (op : Op Buffer Int) :
    (dir.perform op).2 = dir ∨
      (∃ name newSector i, op = .add name newSector ∧ (dir.table i).inUse = false ∧
        (dir.perform op).2 = dir.update i ((dir.table i).fill name newSector)) ∨
      ∃ name i, op = .remove name ∧ (dir.perform op).2 = dir.update i (dir.table i).release := by
  cases hp : (dir.perform op).1 with
  | false => exact .inl (perform_failed hp)
  | true =>
    cases op with
    | add name newSector =>
      obtain ⟨-, i, hi, he⟩ := add_true (Prod.ext hp rfl : dir.add name newSector = (true, _))
      exact .inr (.inl ⟨name, newSector, i, rfl, hi, he⟩)
    | remove name =>
      simp only [perform, remove] at hp ⊢
      split at hp
      · cases hp
      · next i hi => exact .inr (.inr ⟨name, i, rfl, rfl⟩)

structure Named (n : Nat) where
  dir : Directory n
  added : Fin n → Name

namespace Named

def perform (s : Named n) (op : Op Name Int) : Named n :=
  let dir := (s.dir.perform (op.mapKey Name.bytes)).2
  match op with
  | .add name _ =>
    ⟨dir, fun i => if (s.dir.table i).inUse = false ∧ (dir.table i).inUse = true then name else s.added i⟩
  | .remove _ => { s with dir }

def run (heap : Buffer) (added : Fin n → Name) (ops : List (Op Name Int)) : Named n :=
  ops.foldl perform ⟨new n heap, added⟩

structure Inv (heap : Buffer) (s : Named n) : Prop where
  last : ∀ i : Fin n, (s.dir.table i).lastByte = heap (DirectoryEntry.sizeof * i + 17)
  name : ∀ i, (s.dir.table i).inUse = true → (s.dir.table i).key = (s.added i).take fileNameMaxLen

variable {heap : Buffer} {s : Named n}

theorem Inv.update (h : Inv heap s) {i : Fin n} {e : DirectoryEntry} {added : Fin n → Name}
    (hlast : e.lastByte = (s.dir.table i).lastByte) (hname : e.inUse = true → e.key = (added i).take fileNameMaxLen)
    (hadded : ∀ j ≠ i, added j = s.added j) : Inv heap ⟨s.dir.update i e, added⟩ := by
  constructor
  · intro j
    by_cases hj : j = i
    · subst hj
      rw [update_self, hlast, h.last]
    · rw [update_of_ne _ hj, h.last]
  · intro j hu
    by_cases hj : j = i
    · subst hj
      rw [update_self] at hu ⊢
      exact hname hu
    · rw [update_of_ne _ hj] at hu ⊢
      have hn := h.name j hu
      rw [← hadded j hj] at hn
      exact hn

theorem Inv.perform (h : Inv heap s) (op : Op Name Int) : Inv heap (s.perform op) := by
  obtain he | ⟨bytes, newSector, i, hop, hi, he⟩ | ⟨bytes, i, hop, he⟩ := perform_cases s.dir (op.mapKey Name.bytes)
  · have hs : s.perform op = s := by
      cases op with
      | add name newSector =>
        have hadded (i : Fin n) : ¬((s.dir.table i).inUse = false ∧ (s.dir.table i).inUse = true) := by
          rintro ⟨hf, ht⟩
          simp [hf] at ht
        simp only [Named.perform, he, hadded, ↓reduceIte]
      | remove name => simp only [Named.perform, he]
    rw [hs]
    exact h
  · cases op with
    | remove name => cases hop
    | add name sector =>
      obtain ⟨rfl, rfl⟩ := Op.add.inj hop
      simp only [Named.perform, he]
      refine h.update (DirectoryEntry.lastByte_fill ..) (fun _ => ?_) (fun j hj => ?_)
      · rw [if_pos ⟨hi, by rw [update_self]; rfl⟩, DirectoryEntry.key_fill, Name.key_eq]
      · refine if_neg fun hc => ?_
        rw [update_of_ne _ hj] at hc
        simp [hc.1] at hc
  · cases op with
    | add name sector => cases hop
    | remove name =>
      simp only [Named.perform, he]
      exact h.update rfl (fun hu => by simp [DirectoryEntry.release] at hu) (fun _ _ => rfl)

theorem Inv.run (heap : Buffer) (added : Fin n → Name) (ops : List (Op Name Int)) : Inv heap (run heap added ops) := by
  unfold Named.run
  have h0 : Inv heap ⟨new n heap, added⟩ := by
    refine ⟨fun i => ?_, fun i hu => ?_⟩
    · rfl
    · simp [new, DirectoryEntry.release] at hu
  generalize (⟨new n heap, added⟩ : Named n) = s at h0
  induction ops generalizing s with
  | nil => exact h0
  | cons op ops ih => exact ih _ (h0.perform op)

def Fits (heap : Buffer) (s : Named n) (i : Fin n) : Prop :=
  (s.added i).strlen < fileNameMaxLen ∨ heap (DirectoryEntry.sizeof * i + 17) = 0#8

theorem Inv.fits_iff (h : Inv heap s) {i : Fin n} (hi : (s.dir.table i).inUse = true) :
    (s.dir.table i).key.length < fileNameMaxLen ∨ (s.dir.table i).lastByte = 0#8 ↔ Fits heap s i := by
  rw [h.name i hi, h.last, Name.length_take, Fits, min_lt_iff, or_iff_left (lt_irrefl _)]

theorem Inv.exists_nul_iff (h : Inv heap s) {i : Fin n} (hi : (s.dir.table i).inUse = true) :
    (∃ k, (s.dir.table i).name k = 0#8) ↔ Fits heap s i :=
  ((s.dir.table i).exists_nul_iff).trans (h.fits_iff hi)

theorem Inv.text_iff (h : Inv heap s) {i : Fin n} (hi : (s.dir.table i).inUse = true) :
    (s.dir.table i).text = some ((s.added i).take fileNameMaxLen) ↔ Fits heap s i := by
  rw [DirectoryEntry.text_eq, ← h.fits_iff hi, ← h.name i hi]
  split_ifs with hc
  · exact iff_of_true rfl hc
  · exact iff_of_false (by simp) hc

end Named

theorem mapM_eq_some_map {α β : Type} {f : α → Option β} {g : α → β} {l : List α} :
    l.mapM f = some (l.map g) ↔ ∀ x ∈ l, f x = some (g x) := by
  induction l with
  | nil => simp
  | cons x l ih =>
    rw [List.mapM_cons, List.forall_mem_cons, ← ih]
    cases f x with
    | none => simp
    | some y => cases l.mapM f <;> simp

theorem mem_entries {dir : Directory n} {i : Fin n} : i ∈ dir.entries ↔ (dir.table i).inUse = true := by
  simp [entries]

namespace Named

variable {heap : Buffer} {s : Named n}

theorem Inv.list_iff (h : Inv heap s) :
    s.dir.list = some (s.dir.entries.map fun i => (s.added i).take fileNameMaxLen) ↔
      ∀ i, (s.dir.table i).inUse = true → Fits heap s i := by
  rw [list, mapM_eq_some_map]
  refine forall_congr' fun i => ?_
  rw [mem_entries]
  exact imp_congr_right fun hi => h.text_iff hi

theorem Inv.print_iff (h : Inv heap s) :
    s.dir.print = some (s.dir.entries.map fun i =>
        ((s.added i).take fileNameMaxLen, (s.dir.table i).sector.toInt)) ↔
      ∀ i, (s.dir.table i).inUse = true → Fits heap s i := by
  rw [print, mapM_eq_some_map]
  refine forall_congr' fun i => ?_
  rw [mem_entries]
  refine imp_congr_right fun hi => ?_
  rw [← h.text_iff hi]
  simp

/-- A stored name is terminated exactly where the last byte of its field is not needed, or is a NUL by chance. -/
theorem stored_name_terminated {n : Nat} (heap : Buffer) (added : Fin n → Name) (ops : List (Op Name Int)) (s : Named n)
    (hs : s = run heap added ops) :
    (∀ i, (s.dir.table i).inUse = true →
      ((∃ k, (s.dir.table i).name k = 0#8) ↔
        (s.added i).strlen < fileNameMaxLen ∨ heap (DirectoryEntry.sizeof * i + 17) = 0#8)) ∧
      (s.dir.list = some (s.dir.entries.map fun i => (s.added i).take fileNameMaxLen) ↔
        ∀ i, (s.dir.table i).inUse = true →
          (s.added i).strlen < fileNameMaxLen ∨ heap (DirectoryEntry.sizeof * i + 17) = 0#8) ∧
      (s.dir.print = some (s.dir.entries.map fun i =>
          ((s.added i).take fileNameMaxLen, (s.dir.table i).sector.toInt)) ↔
        ∀ i, (s.dir.table i).inUse = true →
          (s.added i).strlen < fileNameMaxLen ∨ heap (DirectoryEntry.sizeof * i + 17) = 0#8) := by
  subst hs
  have h := Inv.run heap added ops
  exact ⟨fun _ hi => h.exists_nul_iff hi, h.list_iff, h.print_iff⟩

def repeated (c : Byte) (length : Nat) : Name := ⟨fun k => if k < length then c else 0, length, if_neg (lt_irrefl _)⟩

def one (name : Name) : Named 1 := run (fun _ => 1) (fun _ => name) [.add name 5]

theorem stored_name_terminated_short : ((one (repeated 97 4)).dir.table 0).inUse = true ∧
    (one (repeated 97 4)).dir.list =
      some ((one (repeated 97 4)).dir.entries.map fun i => ((one (repeated 97 4)).added i).take fileNameMaxLen) :=
  ⟨by decide, (stored_name_terminated _ _ _ (one (repeated 97 4)) rfl).2.1.mpr (by decide +kernel)⟩

theorem stored_name_unterminated : ((one (repeated 97 9)).dir.table 0).inUse = true ∧
    (¬∃ k, ((one (repeated 97 9)).dir.table 0).name k = 0#8) ∧ (one (repeated 97 9)).dir.list = none := by
  decide

end Named

end Directory

end Nachos
