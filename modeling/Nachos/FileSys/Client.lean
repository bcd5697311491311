import Nachos.FileSys.Layout

namespace Nachos

open Disk CInt Layout

/-- What became of the file of a handle since it was opened: it is still there, it was removed and its data
sectors are free, or it was removed and one of them is in use again. -/
inductive Standing where
  | live
  | removed
  | overtaken
  deriving DecidableEq

structure Handle where
  file : OpenFile
  name : Buffer
  sector : Int
  standing : Standing

namespace Handle

def afterRemove (h : Handle) (sector : Int) : Handle :=
  if h.standing = .live ∧ h.sector = sector then { h with standing := .removed } else h

def against (h : Handle) (marked : Finset Nat) : Handle :=
  if h.standing = .live then h
  else { h with standing := if ∃ x ∈ dataSectors h.file.hdr, x ∈ marked then .overtaken else .removed }

end Handle

structure Session where
  disk : Disk
  fs : FileSystem
  handles : List Handle

namespace Session

inductive Op where
  | create (name : Buffer) (initialSize : Int)
  | openFile (name : Buffer)
  | remove (name : Buffer)
  | seek (handle : Nat) (position : Int)
  | readAt (handle : Nat) (numBytes position : Int)
  | writeAt (handle : Nat) (src : Buffer) (numBytes position : Int)
  | read (handle : Nat) (numBytes : Int)
  | write (handle : Nat) (src : Buffer) (numBytes : Int)

inductive Result where
  | flag (success : Bool)
  | count (n : Int)
  | bytes (n : Int) (data : List Byte)
  | done

def start (d : Disk) (heap : Heap) : Except Fault Session := do
  let (fs, d) ← FileSystem.format d heap
  .ok ⟨d, fs, []⟩

def setFile (s : Session) (handle : Nat) (h : Handle) (file : OpenFile) : Session :=
  { s with handles := s.handles.set handle { h with file := file } }

def bytesRead (n : Int) (data : Buffer) : Result := .bytes n ((List.range n.toNat).map data)

def withHandle (s : Session) (handle : Nat) (f : Handle → Except Fault (Session × Result)) :
    Except Fault (Session × Result) :=
  match s.handles[handle]? with
  | none => .ok (s, .done)
  | some h => f h

def step (s : Session) (heap : Heap) : Op → Except Fault (Session × Result)
  | .create name initialSize => do
    let (success, d) ← s.fs.create s.disk heap name initialSize
    .ok ({ s with
      disk := d, handles := if success then s.handles.map (·.against (freeMap d).marked) else s.handles },
      .flag success)
  | .openFile name => do
    let sector ← s.fs.lookup s.disk heap name
    let file ← s.fs.openFile s.disk heap name
    match file with
    | none => .ok (s, .flag false)
    | some file => .ok ({ s with handles := s.handles ++ [⟨file, name, sector, .live⟩] }, .flag true)
  | .remove name => do
    let sector ← s.fs.lookup s.disk heap name
    let (success, d) ← s.fs.remove s.disk heap name
    .ok ({ s with
      disk := d
      handles := if success then s.handles.map fun h => (h.afterRemove sector).against (freeMap d).marked
        else s.handles },
      .flag success)
  | .seek handle position => s.withHandle handle fun h => .ok (s.setFile handle h (h.file.seek position), .done)
  | .readAt handle numBytes position => s.withHandle handle fun h => do
    let (n, data) ← OpenFile.readAt s.disk h.file.hdr (heap 0) numBytes position
    .ok (s, bytesRead n data)
  | .writeAt handle src numBytes position => s.withHandle handle fun h => do
    let (n, d) ← OpenFile.writeAt s.disk h.file.hdr heap src numBytes position
    .ok ({ s with disk := d }, .count n)
  | .read handle numBytes => s.withHandle handle fun h => do
    let (n, data, file) ← h.file.read s.disk (heap 0) numBytes
    .ok (s.setFile handle h file, bytesRead n data)
  | .write handle src numBytes => s.withHandle handle fun h => do
    let (n, d, file) ← h.file.write s.disk heap src numBytes
    .ok ({ s with disk := d }.setFile handle h file, .count n)

def run (s : Session) : List (Heap × Op) → Except Fault (Session × List Result)
  | [] => .ok (s, [])
  | (heap, op) :: ops => do
    let (s, r) ← s.step heap op
    let (s, rs) ← s.run ops
    .ok (s, r :: rs)

theorem withHandle_none {s : Session} {handle : Nat} (hk : s.handles[handle]? = none)
    (f : Handle → Except Fault (Session × Result)) : s.withHandle handle f = .ok (s, .done) := by
  simp only [withHandle, hk]

theorem withHandle_some {s : Session} {handle : Nat} {h : Handle} (hk : s.handles[handle]? = some h)
    (f : Handle → Except Fault (Session × Result)) : s.withHandle handle f = f h := by
  simp only [withHandle, hk]

theorem withHandle_ok {s t : Session} {handle : Nat} {f : Handle → Except Fault (Session × Result)}
    {result : Result} (h : s.withHandle handle f = .ok (t, result)) :
    t = s ∨ ∃ h, s.handles[handle]? = some h ∧ f h = .ok (t, result) := by
  unfold withHandle at h
  split at h
  · exact .inl (Prod.mk.inj (Except.ok.inj h)).1.symm
  · next f hf => exact .inr ⟨f, hf, h⟩

section Steps

variable {s : Session} {heap : Heap} {k : Nat} {h : Handle} (hk : s.handles[k]? = some h)
include hk

theorem step_readAt {numBytes position n : Int} {data : Buffer}
    (he : OpenFile.readAt s.disk h.file.hdr (heap 0) numBytes position = .ok (n, data)) :
    s.step heap (.readAt k numBytes position) = .ok (s, bytesRead n data) :=
  (withHandle_some hk _).trans (by rw [he]; rfl)

theorem step_writeAt {src : Buffer} {numBytes position n : Int} {d' : Disk}
    (he : OpenFile.writeAt s.disk h.file.hdr heap src numBytes position = .ok (n, d')) :
    s.step heap (.writeAt k src numBytes position) = .ok ({ s with disk := d' }, .count n) :=
  (withHandle_some hk _).trans (by rw [he]; rfl)

theorem step_read {numBytes n : Int} {data : Buffer}
    (he : OpenFile.readAt s.disk h.file.hdr (heap 0) numBytes h.file.seekPosition = .ok (n, data)) :
    s.step heap (.read k numBytes) =
      .ok (s.setFile k h (h.file.seek (wrap (h.file.seekPosition + n))), bytesRead n data) :=
  (withHandle_some hk _).trans (by rw [OpenFile.read, he]; rfl)

theorem step_write {src : Buffer} {numBytes n : Int} {d' : Disk}
    (he : OpenFile.writeAt s.disk h.file.hdr heap src numBytes h.file.seekPosition = .ok (n, d')) :
    s.step heap (.write k src numBytes) =
      .ok ({ s with disk := d' }.setFile k h (h.file.seek (wrap (h.file.seekPosition + n))), .count n) :=
  (withHandle_some hk _).trans (by rw [OpenFile.write, he]; rfl)

end Steps

end Session

end Nachos
