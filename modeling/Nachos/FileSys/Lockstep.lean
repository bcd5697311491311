import Nachos.FileSys.Known

namespace Nachos

open Disk CInt FileSystem Layout

namespace Handle

/-- Handles of two runs on the same file; `placed` says that they stand at the same position. -/
structure Alike (placed : Prop) (h h' : Handle) : Prop where
  name : h'.name = h.name
  sector : h'.sector = h.sector
  standing : h'.standing = h.standing
  header : OpenFile.Agrees h.file.hdr h'.file.hdr
  position : placed → h'.file.seekPosition = h.file.seekPosition

namespace Alike

variable {placed : Prop} {h h' : Handle} (ha : Alike placed h h')
include ha

theorem against (marked : Finset Nat) : Alike placed (h.against marked) (h'.against marked) := by
  simp only [Handle.against, ha.standing, ha.header.dataSectors]
  split_ifs
  · exact ha
  · exact ⟨ha.name, ha.sector, rfl, ha.header, ha.position⟩
  · exact ⟨ha.name, ha.sector, rfl, ha.header, ha.position⟩

theorem afterRemove (sector : Int) : Alike placed (h.afterRemove sector) (h'.afterRemove sector) := by
  simp only [Handle.afterRemove, ha.standing, ha.sector]
  split_ifs
  · exact ⟨ha.name, rfl, rfl, ha.header, ha.position⟩
  · exact ha

theorem seek {position position' : Int} (hp : placed → position' = position) :
    Alike placed { h with file := h.file.seek position } { h' with file := h'.file.seek position' } :=
  ⟨ha.name, ha.sector, ha.standing, ha.header, hp⟩

end Alike

end Handle

theorem forall₂_set {α β : Type} {R : α → β → Prop} {l : List α} {l' : List β} (h : List.Forall₂ R l l') {a : α} {b : β}
    (hab : R a b) (k : Nat) : List.Forall₂ R (l.set k a) (l'.set k b) := by
  induction h generalizing k with
  | nil => exact .nil
  | cons hr ht ih =>
    cases k with
    | zero => exact .cons hab ht
    | succ k => exact .cons hr (ih k)

theorem forall₂_getElem? {α β : Type} {R : α → β → Prop} {l : List α} {l' : List β} (h : List.Forall₂ R l l') (k : Nat) :
    (l[k]? = none ∧ l'[k]? = none) ∨ ∃ a b, l[k]? = some a ∧ l'[k]? = some b ∧ R a b := by
  induction h generalizing k with
  | nil => exact .inl ⟨rfl, rfl⟩
  | cons hr ht ih =>
    cases k with
    | zero => exact .inr ⟨_, _, rfl, rfl, hr⟩
    | succ k => exact ih k

namespace Session

def Op.Positional : Op → Prop
  | .read _ _ => False
  | .write _ _ _ => False
  | _ => True

def Op.Within : Op → Prop
  | .readAt _ numBytes _ => numBytes ≤ maxFileSize
  | .writeAt _ _ numBytes _ => numBytes ≤ maxFileSize
  | .read _ numBytes => numBytes ≤ maxFileSize
  | .write _ _ numBytes => numBytes ≤ maxFileSize
  | _ => True

def Op.target (s : Session) : Op → Option (FileHeader × Int)
  | .readAt k _ position => s.handles[k]?.map fun h => (h.file.hdr, position)
  | .writeAt k _ _ position => s.handles[k]?.map fun h => (h.file.hdr, position)
  | .read k _ => s.handles[k]?.map fun h => (h.file.hdr, h.file.seekPosition)
  | .write k _ _ => s.handles[k]?.map fun h => (h.file.hdr, h.file.seekPosition)
  | _ => none

def knownAfter (known : Known) (s t : Session) (op : Op) : Result → Known
  | .flag true =>
    match op with
    | .create name _ => known.created t.disk ((directory t.disk).find name).toNat
    | _ => known
  | .count n =>
    match op.target s with
    | some (hdr, position) => known.written hdr position.toNat n.toNat
    | none => known
  | _ => known

def Seen (known : Known) (s : Session) (op : Op) (k : Nat) : Prop :=
  ∀ hdr position, op.target s = some (hdr, position) → known.content hdr (position.toNat + k)

def Result.Alike (seen : Nat → Prop) : Result → Result → Prop
  | .bytes n data, .bytes n' data' => n' = n ∧ data'.length = data.length ∧ ∀ k, seen k → data'[k]? = data[k]?
  | r, r' => r' = r

structure Alike (placed : Prop) (known : Known) (s s' : Session) : Prop where
  inv : s.Inv
  inv' : s'.Inv
  disk : Layout.Alike known s.disk s'.disk
  handles : List.Forall₂ (Handle.Alike placed) s.handles s'.handles

structure Together (placed : Prop) (known : Known) (s s' : Session) (heap heap' : Heap) (op : Op) (t t' : Session)
    (r r' : Result) : Prop where
  step : s.step heap op = .ok (t, r)
  step' : s'.step heap' op = .ok (t', r')
  result : r.Alike (Seen known s op) r'
  alike : Alike placed (knownAfter known s t op r) t t'

namespace Alike

variable {placed : Prop} {known : Known} {s s' : Session} (ha : Alike placed known s s') (heap heap' : Heap)
include ha

theorem create (name : Buffer) {size : Int} (h0 : 0 ≤ size) (hmax : size ≤ maxFileSize) :
    ∃ t t' r r', Together placed known s s' heap heap' (.create name size) t t' r r' := by
  have hr := ha.disk.refused name size
  obtain ⟨href, he⟩ | ⟨d1, i, hcr, he⟩ := step_create ha.inv heap name h0 hmax
  · obtain ⟨-, he'⟩ | ⟨d1', i', hcr', -⟩ := step_create ha.inv' heap' name h0 hmax
    · exact ⟨_, _, _, _, he, he', rfl, ha⟩
    · exact absurd (hr.mpr href) ((not_refused_iff h0).mpr (hcr'.creatable h0))
  · obtain ⟨href', -⟩ | ⟨d1', i', hcr', he'⟩ := step_create ha.inv' heap' name h0 hmax
    · exact absurd (hr.mp href') ((not_refused_iff h0).mpr (hcr.creatable h0))
    have hd := ha.disk.created hcr hcr'
    have hfind := find_of_inUse hcr.consistent
      (Directory.findIndex_unique hcr.consistent.unique hcr.inUse hcr.key)
    refine ⟨_, _, _, _, he, he', rfl, ha.inv.created hcr, ha.inv'.created hcr', ?_, ?_⟩
    · simpa only [knownAfter, hfind, Int.toNat_natCast] using hd
    · rw [List.forall₂_map_left_iff, List.forall₂_map_right_iff, hd.marked_eq]
      exact ha.handles.imp fun _ _ h => h.against _

theorem openFile (name : Buffer) : ∃ t t' r r', Together placed known s s' heap heap' (.openFile name) t t' r r' := by
  have hdir := ha.disk.directory_eq
  obtain ⟨hf, he⟩ | ⟨i, hf, he⟩ := step_openFile ha.inv heap name
  · obtain ⟨-, he'⟩ | ⟨i', hf', -⟩ := step_openFile ha.inv' heap' name
    · exact ⟨_, _, _, _, he, he', rfl, ha⟩
    · rw [hdir, hf] at hf'
      cases hf'
  · obtain ⟨hf', -⟩ | ⟨i', hf', he'⟩ := step_openFile ha.inv' heap' name
    · rw [hdir, hf] at hf'
      cases hf'
    have hinv' := ha.inv'.opened hf'
    rw [hdir, hf] at hf'
    obtain rfl := Option.some.inj hf'
    refine ⟨_, _, _, _, he, he', rfl, ha.inv.opened hf, hinv', ha.disk, List.rel_append ha.handles (.cons ?_ .nil)⟩
    have hin := (Directory.findIndex_some hf).1
    exact ⟨rfl, by rw [ha.disk.entrySector], rfl, ha.disk.header i hin, fun _ => rfl⟩

theorem remove (name : Buffer) : ∃ t t' r r', Together placed known s s' heap heap' (.remove name) t t' r r' := by
  have hdir := ha.disk.directory_eq
  obtain ⟨hf, he⟩ | ⟨d1, i, hf, hr, he⟩ := step_remove ha.inv heap name
  · obtain ⟨-, he'⟩ | ⟨d1', i', hf', -⟩ := step_remove ha.inv' heap' name
    · exact ⟨_, _, _, _, he, he', rfl, ha⟩
    · rw [hdir, hf] at hf'
      cases hf'
  · obtain ⟨hf', -⟩ | ⟨d1', i', hf', hr', he'⟩ := step_remove ha.inv' heap' name
    · rw [hdir, hf] at hf'
      cases hf'
    rw [hdir, hf] at hf'
    obtain rfl := Option.some.inj hf'
    have hd := ha.disk.removed hr hr'
    refine ⟨_, _, _, _, he, he', rfl, ha.inv.removed hr, ha.inv'.removed hr', hd, ?_⟩
    rw [List.forall₂_map_left_iff, List.forall₂_map_right_iff, hd.marked_eq, ha.disk.entrySector]
    exact ha.handles.imp fun _ _ h => (h.afterRemove _).against _

omit heap heap' in
theorem absent {heap heap' : Heap} {k : Nat} (hk : s.handles[k]? = none) (hk' : s'.handles[k]? = none) {op : Op}
    {f f' : Handle → Except Fault (Session × Result)} (hf : s.step heap op = s.withHandle k f)
    (hf' : s'.step heap' op = s'.withHandle k f') : Together placed known s s' heap heap' op s s' .done .done :=
  ⟨hf.trans (withHandle_none hk f), hf'.trans (withHandle_none hk' f'), rfl, ha⟩

theorem live {h h' : Handle} (hm : h ∈ s.handles) (hm' : h' ∈ s'.handles)
    (hs : h.standing = .live) :
    h.file.hdr.Valid ∧ h'.file.hdr.Valid ∧ ∀ x ∈ dataSectors h.file.hdr, ¬Metadata s.disk x := by
  have hw := (ha.inv.handles h hm).writable ha.inv.consistent (by simp [hs])
  exact ⟨hw.1, (ha.inv'.handles h' hm').valid ha.inv'.consistent, hw.2⟩

theorem setFile {h h' : Handle} {k : Nat} (hh : Handle.Alike placed h h') (hk : s.handles[k]? = some h)
    (hk' : s'.handles[k]? = some h') {position position' : Int} (hp : placed → position' = position) :
    Alike placed known (s.setFile k h (h.file.seek position)) (s'.setFile k h' (h'.file.seek position')) :=
  ⟨ha.inv.setFile hk rfl, ha.inv'.setFile hk' rfl, ha.disk, forall₂_set ha.handles (hh.seek hp) k⟩

theorem seek (k : Nat) (position : Int) :
    ∃ t t' r r', Together placed known s s' heap heap' (.seek k position) t t' r r' := by
  obtain ⟨hk, hk'⟩ | ⟨h, h', hk, hk', hh⟩ := forall₂_getElem? ha.handles k
  · exact ⟨_, _, _, _, ha.absent hk hk' rfl rfl⟩
  · exact ⟨_, _, _, _, withHandle_some hk _, withHandle_some hk' _, rfl, ha.setFile hh hk hk' fun _ => rfl⟩

theorem readBytes {h h' : Handle} (hh : Handle.Alike placed h h') (hm : h ∈ s.handles) (hm' : h' ∈ s'.handles)
    (hs : h.standing = .live) {numBytes position : Int} (hp : 0 ≤ position) (hn : numBytes ≤ maxFileSize)
    {seen : Nat → Prop} (hseen : ∀ k, seen k → known.content h.file.hdr (position.toNat + k)) :
    ∃ n data data', OpenFile.readAt s.disk h.file.hdr (heap 0) numBytes position = .ok (n, data) ∧
      OpenFile.readAt s'.disk h'.file.hdr (heap' 0) numBytes position = .ok (n, data') ∧
      (bytesRead n data).Alike seen (bytesRead n data') := by
  obtain ⟨hv, hv', hmeta⟩ := ha.live hm hm' hs
  obtain ⟨data, he, hdata⟩ := OpenFile.readAt_within s.disk hv (heap 0) hp hn
  obtain ⟨data', he', hdata'⟩ := OpenFile.readAt_within s'.disk hv' (heap' 0) hp hn
  rw [hh.header.fileLength] at he' hdata'
  refine ⟨_, data, data', he, he', rfl, by simp, fun k hk => ?_⟩
  by_cases hlt : k < (OpenFile.transferred h.file.hdr.fileLength numBytes position).toNat
  · rw [List.getElem?_map, List.getElem?_map, List.getElem?_range hlt, Option.map_some, Option.map_some,
      hdata k (by omega), hdata' k (by omega)]
    have hlen : position.toNat + k < h.file.hdr.len := by
      have hf := hv.fileLength_eq
      rw [OpenFile.transferred] at hlt
      split_ifs at hlt
      · omega
      · omega
    have hin : (position.toNat + k) / sectorSize < h.file.hdr.size :=
      (Nat.div_lt_iff_lt_mul sectorSize_pos).mpr (hlen.trans_le hv.len_le_size)
    rw [FileHeader.content, FileHeader.content, hh.header.block hin]
    exact congrArg some (ha.disk.bytes _ _ (fun hsys => hmeta _ (FileHeader.Valid.block_mem hin) (.inl hsys))
      (Nat.mod_lt _ sectorSize_pos) (hseen k hk))
  · rw [List.getElem?_eq_none (by simp; omega), List.getElem?_eq_none (by simp; omega)]

theorem readAt {k : Nat} {numBytes position : Int} (hn : numBytes ≤ maxFileSize) (hp : 0 ≤ position)
    (hs : ∀ h, s.handles[k]? = some h → h.standing = .live) :
    ∃ t t' r r', Together placed known s s' heap heap' (.readAt k numBytes position) t t' r r' := by
  obtain ⟨hk, hk'⟩ | ⟨h, h', hk, hk', hh⟩ := forall₂_getElem? ha.handles k
  · exact ⟨_, _, _, _, ha.absent hk hk' rfl rfl⟩
  have hseen (j : Nat) (hj : Seen known s (.readAt k numBytes position) j) :
      known.content h.file.hdr (Int.toNat position + j) :=
    hj _ _ (by simp only [Op.target, hk, Option.map_some])
  obtain ⟨n, data, data', he, he', hr⟩ := ha.readBytes heap heap' hh (List.mem_of_getElem? hk)
    (List.mem_of_getElem? hk') (hs h hk) hp hn hseen
  exact ⟨_, _, _, _, step_readAt hk he, step_readAt hk' he', hr, ha⟩

theorem read {k : Nat} {numBytes : Int} (hn : numBytes ≤ maxFileSize) (hplaced : placed)
    (hs : ∀ h, s.handles[k]? = some h → 0 ≤ h.file.seekPosition ∧ h.standing = .live) :
    ∃ t t' r r', Together placed known s s' heap heap' (.read k numBytes) t t' r r' := by
  obtain ⟨hk, hk'⟩ | ⟨h, h', hk, hk', hh⟩ := forall₂_getElem? ha.handles k
  · exact ⟨_, _, _, _, ha.absent hk hk' rfl rfl⟩
  have hpos := hh.position hplaced
  have hseen (j : Nat) (hj : Seen known s (.read k numBytes) j) :
      known.content h.file.hdr (Int.toNat h.file.seekPosition + j) :=
    hj _ _ (by simp only [Op.target, hk, Option.map_some])
  obtain ⟨n, data, data', he, he', hr⟩ := ha.readBytes heap heap' hh (List.mem_of_getElem? hk)
    (List.mem_of_getElem? hk') (hs h hk).2 (hs h hk).1 hn hseen
  rw [← hpos] at he'
  exact ⟨_, _, _, _, step_read hk he, step_read hk' he', hr, ha.setFile hh hk hk' fun _ => by rw [hpos]⟩

theorem writeBytes {h h' : Handle} (hh : Handle.Alike placed h h') (hm : h ∈ s.handles) (hm' : h' ∈ s'.handles)
    (hs : h.standing = .live) (src : Buffer) {numBytes position : Int} (hp : 0 ≤ position)
    (hn : numBytes ≤ maxFileSize) :
    ∃ (n : Nat) (d1 d1' : Disk), OpenFile.writeAt s.disk h.file.hdr heap src numBytes position = .ok ((n : Int), d1) ∧
      OpenFile.writeAt s'.disk h'.file.hdr heap' src numBytes position = .ok ((n : Int), d1') ∧
      Alike placed (known.written h.file.hdr position.toNat n) { s with disk := d1 } { s' with disk := d1' } := by
  obtain ⟨hv, hv', hmeta⟩ := ha.live hm hm' hs
  have hmax : numBytes ≤ intMax := by rw [maxFileSize_eq] at hn; simp only [intMax]; omega
  obtain ⟨n, d1, d1', he, he', hd⟩ := ha.disk.written ha.inv.consistent ha.inv'.consistent hh.header hv hv' hmeta src hp
    hn heap heap'
  exact ⟨n, d1, d1', he, he', ha.inv.writeAt hm (by simp [hs]) hp hmax he,
    ha.inv'.writeAt hm' (by simp [hh.standing, hs]) hp hmax he', hd, ha.handles⟩

theorem writeAt {k : Nat} (src : Buffer) {numBytes position : Int} (hn : numBytes ≤ maxFileSize) (hp : 0 ≤ position)
    (hs : ∀ h, s.handles[k]? = some h → h.standing = .live) :
    ∃ t t' r r', Together placed known s s' heap heap' (.writeAt k src numBytes position) t t' r r' := by
  obtain ⟨hk, hk'⟩ | ⟨h, h', hk, hk', hh⟩ := forall₂_getElem? ha.handles k
  · exact ⟨_, _, _, _, ha.absent hk hk' rfl rfl⟩
  obtain ⟨n, d1, d1', he, he', hd⟩ := ha.writeBytes heap heap' hh (List.mem_of_getElem? hk)
    (List.mem_of_getElem? hk') (hs h hk) src hp hn
  refine ⟨_, _, _, _, step_writeAt hk he, step_writeAt hk' he', rfl, ?_⟩
  simpa only [knownAfter, Op.target, hk, Option.map_some, Int.toNat_natCast] using hd

theorem write {k : Nat} (src : Buffer) {numBytes : Int} (hn : numBytes ≤ maxFileSize) (hplaced : placed)
    (hs : ∀ h, s.handles[k]? = some h → 0 ≤ h.file.seekPosition ∧ h.standing = .live) :
    ∃ t t' r r', Together placed known s s' heap heap' (.write k src numBytes) t t' r r' := by
  obtain ⟨hk, hk'⟩ | ⟨h, h', hk, hk', hh⟩ := forall₂_getElem? ha.handles k
  · exact ⟨_, _, _, _, ha.absent hk hk' rfl rfl⟩
  have hpos := hh.position hplaced
  obtain ⟨n, d1, d1', he, he', hd⟩ := ha.writeBytes heap heap' hh (List.mem_of_getElem? hk)
    (List.mem_of_getElem? hk') (hs h hk).2 src (hs h hk).1 hn
  rw [← hpos] at he'
  refine ⟨_, _, _, _, step_write hk he, step_write hk' he', rfl, ?_⟩
  simp only [knownAfter, Op.target, hk, Option.map_some, Int.toNat_natCast]
  exact hd.setFile hh hk hk' fun _ => by rw [hpos]

theorem step {op : Op} (hp : s.Permitted (· = .live) (· = .live) op) (hw : op.Within) (hpl : placed ∨ op.Positional) :
    ∃ t t' r r', Together placed known s s' heap heap' op t t' r r' := by
  cases op with
  | create name size => exact ha.create heap heap' name hp.1 hp.2
  | openFile name => exact ha.openFile heap heap' name
  | remove name => exact ha.remove heap heap' name
  | seek k position => exact ha.seek heap heap' k position
  | readAt k numBytes position => exact ha.readAt heap heap' hw hp.2.1 hp.2.2
  | writeAt k src numBytes position => exact ha.writeAt heap heap' src hw hp.2.1 hp.2.2
  | read k numBytes => exact ha.read heap heap' hw (hpl.resolve_right id) hp.2
  | write k src numBytes => exact ha.write heap heap' src hw (hpl.resolve_right id) hp.2

end Alike

end Session

end Nachos
