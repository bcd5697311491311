import Nachos.FileSys.Disk
import Nachos.Lib.Run
import Nachos.Machine.Interrupt
import Nachos.Network.PostOffice

namespace Nachos

open CInt Disk

def rotationTime : Int := 500
def seekTime : Int := 500
def consoleTime : Int := 100
def networkTime : Int := 100

structure DiskUnit where
  contents : Disk
  active : Bool
  lastSector : Int
  bufferInit : Int

namespace DiskUnit

def new (contents : Disk) : DiskUnit := ⟨contents, false, 0, 0⟩

def timeToSeek (u : DiskUnit) (totalTicks newSector : Int) : Int × Int :=
  let newTrack := newSector.tdiv sectorsPerTrack
  let oldTrack := u.lastSector.tdiv sectorsPerTrack
  let seek := wrap (|newTrack - oldTrack| * seekTime)
  let overTicks := (wrap (totalTicks + seek)).tmod rotationTime
  (seek, if overTicks > 0 then rotationTime - overTicks else 0)

def moduloDiff (toSector fromSector : Int) : Int :=
  (toSector.tmod sectorsPerTrack - fromSector.tmod sectorsPerTrack + sectorsPerTrack).tmod sectorsPerTrack

def computeLatency (u : DiskUnit) (totalTicks newSector : Int) (writing : Bool) : Int :=
  let (seek, rotation) := u.timeToSeek totalTicks newSector
  let timeAfter := wrap (wrap (totalTicks + seek) + rotation)
  if writing = false ∧ seek = 0 ∧ (wrap (timeAfter - u.bufferInit)).tdiv rotationTime >
      moduloDiff newSector (u.bufferInit.tdiv rotationTime) then rotationTime
  else
    let rotation := rotation + moduloDiff newSector (timeAfter.tdiv rotationTime) * rotationTime
    wrap (seek + rotation + rotationTime)

def updateLast (u : DiskUnit) (totalTicks newSector : Int) : DiskUnit :=
  let (seek, rotate) := u.timeToSeek totalTicks newSector
  { u with
    bufferInit := if seek ≠ 0 then wrap (wrap (totalTicks + seek) + rotate) else u.bufferInit
    lastSector := newSector }

def handleInterrupt (u : DiskUnit) : DiskUnit := { u with active := false }

variable {u : DiskUnit} {newSector : Int}

def OnDisk (sector : Int) : Prop := 0 ≤ sector ∧ sector < Disk.numSectors

theorem moduloDiff_range (h : 0 ≤ newSector) (fromSector : Int) :
    0 ≤ moduloDiff newSector fromSector ∧ moduloDiff newSector fromSector < 32 := by
  have hs : (sectorsPerTrack : Int) = 32 := rfl
  have h1 := Int.tmod_nonneg (sectorsPerTrack : Int) h
  have h2 := Int.tmod_lt_of_pos fromSector (show 0 < (sectorsPerTrack : Int) by decide)
  rw [moduloDiff]
  exact ⟨Int.tmod_nonneg _ (by omega), Int.tmod_lt_of_pos _ (by decide)⟩

theorem seek_range {oldSector : Int} (hl : OnDisk oldSector) (hn : OnDisk newSector) :
    0 ≤ |newSector / 32 - oldSector / 32| * 500 ∧ |newSector / 32 - oldSector / 32| * 500 ≤ 15500 := by
  have hs : (Disk.numSectors : Int) = 1024 := by decide
  obtain ⟨hn1, hn2⟩ := hn
  obtain ⟨hl1, hl2⟩ := hl
  have ha : |newSector / 32 - oldSector / 32| ≤ 31 := by
    rw [abs_le]
    omega
  have h0 := abs_nonneg (newSector / 32 - oldSector / 32)
  omega

theorem seek_eq (hl : OnDisk u.lastSector) (hn : OnDisk newSector) (totalTicks : Int) :
    (u.timeToSeek totalTicks newSector).1 = |newSector / 32 - u.lastSector / 32| * 500 := by
  have hs := seek_range hl hn
  simp only [timeToSeek, tdiv_of_nonneg hn.1, tdiv_of_nonneg hl.1, show (sectorsPerTrack : Int) = 32 from rfl, seekTime]
  exact wrap_of_range (by omega) (by simp only [intMax]; omega)

theorem timeToSeek_range (hl : OnDisk u.lastSector) (hn : OnDisk newSector) (totalTicks : Int) :
    (0 ≤ (u.timeToSeek totalTicks newSector).1 ∧ (u.timeToSeek totalTicks newSector).1 ≤ 15500) ∧
      0 ≤ (u.timeToSeek totalTicks newSector).2 ∧ (u.timeToSeek totalTicks newSector).2 ≤ 500 := by
  refine ⟨?_, ?_⟩
  · rw [seek_eq hl hn]
    exact seek_range hl hn
  · simp only [timeToSeek]
    generalize wrap (totalTicks + _) = x
    have ho := Int.tmod_lt_of_pos x (show 0 < rotationTime by decide)
    have hr : rotationTime = 500 := rfl
    split_ifs <;> omega

theorem seek_add_le_latency (hl : OnDisk u.lastSector) (hn : OnDisk newSector) (totalTicks : Int) (writing : Bool) :
    (u.timeToSeek totalTicks newSector).1 + rotationTime ≤ u.computeLatency totalTicks newSector writing := by
  obtain ⟨hs, hr⟩ := timeToSeek_range hl hn totalTicks
  simp only [computeLatency]
  split_ifs with hb
  · rw [hb.2.1]
    decide
  · have hm := moduloDiff_range hn.1 ((wrap (wrap (totalTicks + (u.timeToSeek totalTicks newSector).1) +
      (u.timeToSeek totalTicks newSector).2)).tdiv rotationTime)
    generalize moduloDiff newSector _ = m at *
    simp only [rotationTime] at *
    rw [wrap_of_range (by omega) (by simp only [intMax]; omega)]
    omega

theorem computeLatency_pos (hl : OnDisk u.lastSector) (hn : OnDisk newSector) (totalTicks : Int) (writing : Bool) :
    0 < u.computeLatency totalTicks newSector writing := by
  obtain ⟨hs, -⟩ := timeToSeek_range hl hn totalTicks
  have hle := seek_add_le_latency hl hn totalTicks writing
  simp only [rotationTime] at hle
  omega

end DiskUnit

structure Console where
  putBusy : Bool
  display : List Byte

namespace Console

def new : Console := ⟨false, []⟩

def writeDone (c : Console) : Console := { c with putBusy := false }

end Console

def Network.sendDone (n : Network) : Network := { n with sendBusy := false }

/-- The output devices of one machine; `wire` is what was handed to the socket. -/
structure Devices where
  interrupt : Interrupt
  disk : DiskUnit
  console : Console
  network : Network
  host : Host
  wire : List Buffer

inductive Device where
  | disk
  | console
  | network
  deriving DecidableEq

namespace Device

def completion : Device → IntType
  | .disk => .diskInt
  | .console => .consoleWriteInt
  | .network => .networkSendInt

def object : Device → Nat
  | .disk => 0
  | .console => 1
  | .network => 2

theorem completion_inj {a b : Device} (h : a.completion = b.completion) : a = b := by
  cases a <;> cases b <;> first | rfl | cases h

end Device

namespace Devices

def busy (s : Devices) : Device → Bool
  | .disk => s.disk.active
  | .console => s.console.putBusy
  | .network => s.network.sendBusy

def startDisk (s : Devices) (contents : Disk) (sectorNumber ticks : Int) : Except Fault Devices := do
  let disk := { s.disk with contents, active := true }
  let interrupt ← s.interrupt.schedule Device.disk.object ticks .diskInt
  .ok { s with interrupt, disk := disk.updateLast s.interrupt.totalTicks sectorNumber }

def readRequest (s : Devices) (sectorNumber : Int) (data : Buffer) : Except Fault (Buffer × Devices) := do
  let ticks := s.disk.computeLatency s.interrupt.totalTicks sectorNumber false
  assert (s.disk.active = false)
  let bytes ← s.disk.contents.readSector sectorNumber
  let s ← s.startDisk s.disk.contents sectorNumber ticks
  .ok (data.copy 0 bytes sectorSize, s)

def writeRequest (s : Devices) (sectorNumber : Int) (data : Buffer) : Except Fault Devices := do
  let ticks := s.disk.computeLatency s.interrupt.totalTicks sectorNumber true
  assert (s.disk.active = false)
  let contents ← s.disk.contents.writeSector sectorNumber data
  s.startDisk contents sectorNumber ticks

def putChar (s : Devices) (ch : Byte) : Except Fault Devices := do
  assert (s.console.putBusy = false)
  let interrupt ← s.interrupt.schedule Device.console.object consoleTime .consoleWriteInt
  .ok { s with interrupt, console := ⟨true, s.console.display ++ [ch]⟩ }

def send (s : Devices) (garbage : Buffer) (random : Nat) (hdr : PacketHeader) (data : Buffer) :
    Except Fault Devices := do
  -- `sendBusy` is tested here, and nothing sets it
  let frame ← s.network.send s.host garbage random hdr data
  let interrupt ← s.interrupt.schedule Device.network.object networkTime .networkSendInt
  .ok { s with interrupt, wire := s.wire ++ frame.toList }

def handle (s : Devices) (toOccur : PendingInterrupt) (interrupt : Interrupt) : Devices :=
  match toOccur.type with
  | .diskInt => { s with interrupt, disk := s.disk.handleInterrupt }
  | .consoleWriteInt => { s with interrupt, console := s.console.writeDone }
  | .networkSendInt => { s with interrupt, network := s.network.sendDone }
  | .timerInt | .consoleReadInt | .networkRecvInt => { s with interrupt }

inductive Request where
  | read (sectorNumber : Int) (data : Buffer)
  | write (sectorNumber : Int) (data : Buffer)
  | putChar (ch : Byte)
  | send (garbage : Buffer) (random : Nat) (hdr : PacketHeader) (data : Buffer)

def Request.device : Request → Device
  | .read _ _ | .write _ _ => .disk
  | .putChar _ => .console
  | .send _ _ _ _ => .network

def request (s : Devices) : Request → Except Fault Devices
  | .read sectorNumber data => do
    let (_, s) ← s.readRequest sectorNumber data
    .ok s
  | .write sectorNumber data => s.writeRequest sectorNumber data
  | .putChar ch => s.putChar ch
  | .send garbage random hdr data => s.send garbage random hdr data

def WellFormed (s : Devices) : Request → Prop
  | .read sectorNumber _ | .write sectorNumber _ => 0 ≤ sectorNumber ∧ sectorNumber < Disk.numSectors
  | .putChar _ => True
  | .send _ _ hdr _ => 0 < hdr.length.toNat ∧ hdr.length.toNat ≤ maxPacketSize ∧ hdr.fromAddr = s.network.ident

def outstanding (s : Devices) (dev : Device) : Nat := s.interrupt.pending.countP fun p => p.type = dev.completion

inductive Action where
  | request (r : Request)
  | checkIfDue
  | schedule (type : IntType)
  | time

inductive Step (s : Devices) : Action → Devices → Prop
  | request {r : Request} {t : Devices} (h : s.request r = .ok t) : Step s (.request r) t
  | fire {advanceClock : Bool} {old : MachineStatus} {toOccur : PendingInterrupt} {i : Interrupt}
      (h : s.interrupt.checkIfDue advanceClock = .ok (.fire old toOccur i)) : Step s .checkIfDue (s.handle toOccur i)
  | quiet {advanceClock : Bool} {i : Interrupt} (h : s.interrupt.checkIfDue advanceClock = .ok (.quiet i)) :
      Step s .checkIfDue { s with interrupt := i }
  -- the timer and the two polls
  | schedule {id : Nat} {fromNow : Int} {type : IntType} {i : Interrupt} (ht : ∀ dev : Device, type ≠ dev.completion)
      (h : s.interrupt.schedule id fromNow type = .ok i) : Step s (.schedule type) { s with interrupt := i }
  -- ticks, levels and modes
  | time {i : Interrupt} (h : i.pending = s.interrupt.pending) : Step s .time { s with interrupt := i }

structure Started (s : Devices) : Prop where
  disk : ∃ contents, s.disk = .new contents
  console : s.console = .new
  network : ∃ addr reliability hdr inbox, s.network = .new addr reliability hdr inbox
  idle : ∀ dev, s.outstanding dev = 0

def Reached (meets : Devices → Action → Prop) (s : Devices) : Prop :=
  Reachable Started (fun s a t => meets s a ∧ Step s a t) s

variable {s t : Devices} {dev : Device}

theorem outstanding_schedule {id : Nat} {fromNow : Int} {type : IntType} {i : Interrupt}
    (h : s.interrupt.schedule id fromNow type = .ok i) (dev : Device) :
    i.pending.countP (fun p => p.type = dev.completion) =
      s.outstanding dev + if type = dev.completion then 1 else 0 := by
  obtain ⟨-, rfl⟩ := Interrupt.schedule_ok h
  rw [(sortedInsert_perm _ _ _).countP_eq, List.countP_cons, outstanding]
  simp only [decide_eq_true_eq]

theorem outstanding_fire {advanceClock : Bool} {old : MachineStatus} {toOccur : PendingInterrupt} {i : Interrupt}
    (h : s.interrupt.checkIfDue advanceClock = .ok (.fire old toOccur i)) (dev : Device) :
    s.outstanding dev = (s.handle toOccur i).outstanding dev + if toOccur.type = dev.completion then 1 else 0 := by
  obtain ⟨-, -, rest, totalTicks, hp, -, -, rfl⟩ := Interrupt.checkIfDue_fire h
  have hi : (s.handle toOccur { s.interrupt with
      pending := rest, totalTicks, inHandler := true, status := .systemMode }).interrupt.pending = rest := by
    unfold handle
    split <;> rfl
  rw [outstanding, outstanding, hp, hi, List.countP_cons]
  simp only [decide_eq_true_eq]

theorem outstanding_quiet {advanceClock : Bool} {i : Interrupt}
    (h : s.interrupt.checkIfDue advanceClock = .ok (.quiet i)) (dev : Device) :
    outstanding { s with interrupt := i } dev = s.outstanding dev := by
  obtain ⟨-, pending, totalTicks, rfl, -, hperm, -⟩ := Interrupt.checkIfDue_quiet h
  exact hperm.countP_eq _

theorem busy_handle (s : Devices) (toOccur : PendingInterrupt) (i : Interrupt) (dev : Device) :
    (s.handle toOccur i).busy dev = if toOccur.type = dev.completion then false else s.busy dev := by
  cases hp : toOccur.type <;> cases dev <;>
    simp only [handle, hp, busy, Device.completion, reduceCtorEq, ↓reduceIte, DiskUnit.handleInterrupt,
      Console.writeDone, Network.sendDone]

theorem lastSector_handle (s : Devices) (toOccur : PendingInterrupt) (i : Interrupt) :
    (s.handle toOccur i).disk.lastSector = s.disk.lastSector := by
  cases hp : toOccur.type <;> simp only [handle, hp, DiskUnit.handleInterrupt]

structure Sound (s : Devices) : Prop where
  lastSector : DiskUnit.OnDisk s.disk.lastSector
  disk : s.outstanding .disk = if s.disk.active then 1 else 0
  console : s.outstanding .console = if s.console.putBusy then 1 else 0
  network : s.network.sendBusy = false

theorem schedule_pos (i : Interrupt) (id : Nat) {fromNow : Int} (type : IntType) (h : 0 < fromNow) :
    ∃ i', i.schedule id fromNow type = .ok i' := by
  rw [Interrupt.schedule, assert_pos h]
  exact ⟨_, rfl⟩

structure Requested (s : Devices) (dev : Device) (t : Devices) : Prop where
  outstanding : ∀ other, t.outstanding other = s.outstanding other + if dev.completion = other.completion then 1 else 0
  lastSector : t.disk.lastSector = s.disk.lastSector ∨ DiskUnit.OnDisk t.disk.lastSector
  active : t.disk.active = (s.disk.active || decide (dev = .disk))
  putBusy : t.console.putBusy = (s.console.putBusy || decide (dev = .console))
  network : t.network = s.network

theorem startDisk_requested {contents : Disk} {sectorNumber ticks : Int} (hs : DiskUnit.OnDisk sectorNumber)
    (h : s.startDisk contents sectorNumber ticks = .ok t) : Requested s .disk t := by
  obtain ⟨i, hi, he⟩ := bind_eq_ok.mp h
  obtain rfl := Except.ok.inj he
  exact ⟨outstanding_schedule hi, .inr hs, by simp [DiskUnit.updateLast], by simp, rfl⟩

theorem assert_bind_ok {p : Prop} [Decidable p] {α : Type} {f : Unit → Except Fault α} {a : α}
    (h : (assert p >>= f) = .ok a) : p ∧ f () = .ok a := by
  obtain ⟨_, hp, hf⟩ := bind_eq_ok.mp h
  exact ⟨(assert_ok_iff p).mp hp, hf⟩

theorem request_requested {r : Request} (h : s.request r = .ok t) :
    s.busy r.device = false ∧ s.WellFormed r ∧ Requested s r.device t := by
  cases r with
  | read sectorNumber data =>
    simp only [request, bind_eq_ok] at h
    obtain ⟨⟨_, t'⟩, h, he⟩ := h
    obtain rfl := Except.ok.inj he
    obtain ⟨ha, h⟩ := assert_bind_ok h
    obtain ⟨bytes, hread, h⟩ := bind_eq_ok.mp h
    obtain ⟨hs, -⟩ := assert_bind_ok hread
    obtain ⟨u, hu, he⟩ := bind_eq_ok.mp h
    obtain ⟨-, rfl⟩ := Prod.mk.inj (Except.ok.inj he)
    exact ⟨ha, hs, startDisk_requested hs hu⟩
  | write sectorNumber data =>
    obtain ⟨ha, h⟩ := assert_bind_ok h
    obtain ⟨contents, hwrite, h⟩ := bind_eq_ok.mp h
    obtain ⟨hs, -⟩ := assert_bind_ok hwrite
    exact ⟨ha, hs, startDisk_requested hs h⟩
  | putChar ch =>
    obtain ⟨ha, h⟩ := assert_bind_ok h
    obtain ⟨i, hi, he⟩ := bind_eq_ok.mp h
    obtain rfl := Except.ok.inj he
    exact ⟨ha, trivial, outstanding_schedule hi, .inl rfl, by simp [Request.device], by simp [Request.device], rfl⟩
  | send garbage random hdr data =>
    obtain ⟨frame, hsend, h⟩ := bind_eq_ok.mp h
    obtain ⟨⟨ha, hw⟩, -⟩ := assert_bind_ok hsend
    obtain ⟨i, hi, he⟩ := bind_eq_ok.mp h
    obtain rfl := Except.ok.inj he
    exact ⟨ha, hw, outstanding_schedule hi, .inl rfl, by simp [Request.device], by simp [Request.device], rfl⟩

theorem request_accepted {r : Request} (hl : DiskUnit.OnDisk s.disk.lastSector) (hb : s.busy r.device = false)
    (hw : s.WellFormed r) : ∃ t, s.request r = .ok t := by
  cases r with
  | read sectorNumber data =>
    have hb : s.disk.active = false := hb
    obtain ⟨i, hi⟩ := schedule_pos s.interrupt Device.disk.object .diskInt
      (DiskUnit.computeLatency_pos hl hw s.interrupt.totalTicks false)
    simp only [request, readRequest, assert_pos hb, readSector_ok hw.1 hw.2, startDisk, hi, ok_bind]
    exact ⟨_, rfl⟩
  | write sectorNumber data =>
    have hb : s.disk.active = false := hb
    obtain ⟨i, hi⟩ := schedule_pos s.interrupt Device.disk.object .diskInt
      (DiskUnit.computeLatency_pos hl hw s.interrupt.totalTicks true)
    simp only [request, writeRequest, assert_pos hb, writeSector_ok hw.1 hw.2, startDisk, hi, ok_bind]
    exact ⟨_, rfl⟩
  | putChar ch =>
    have hb : s.console.putBusy = false := hb
    obtain ⟨i, hi⟩ := schedule_pos s.interrupt Device.console.object .consoleWriteInt
      (show 0 < consoleTime by decide)
    simp only [request, putChar, assert_pos hb, hi, ok_bind]
    exact ⟨_, rfl⟩
  | send garbage random hdr data =>
    obtain ⟨i, hi⟩ := schedule_pos s.interrupt Device.network.object .networkSendInt
      (show 0 < networkTime by decide)
    obtain ⟨frame, hf⟩ : ∃ frame, s.network.send s.host garbage random hdr data = .ok frame := by
      have hp : s.network.sendBusy = false ∧ 0 < hdr.length.toNat ∧ hdr.length.toNat ≤ maxPacketSize ∧
          hdr.fromAddr = s.network.ident := ⟨hb, hw⟩
      rw [Network.send, assert_pos hp, ok_bind]
      split_ifs <;> exact ⟨_, rfl⟩
    simp only [request, send, hf, hi, ok_bind]
    exact ⟨_, rfl⟩

theorem request_iff {r : Request} (hl : DiskUnit.OnDisk s.disk.lastSector) :
    (∃ t, s.request r = .ok t) ↔ s.busy r.device = false ∧ s.WellFormed r := by
  constructor
  · rintro ⟨t, h⟩
    obtain ⟨hb, hw, -⟩ := request_requested h
    exact ⟨hb, hw⟩
  · rintro ⟨hb, hw⟩
    exact request_accepted hl hb hw

namespace Sound

theorem started (h : s.Started) : s.Sound := by
  obtain ⟨contents, hd⟩ := h.disk
  obtain ⟨addr, reliability, hdr, inbox, hn⟩ := h.network
  refine ⟨?_, ?_, ?_, ?_⟩
  · rw [hd]
    exact show (0 : Int) ≤ 0 ∧ (0 : Int) < Disk.numSectors by decide
  · rw [h.idle, hd]
    rfl
  · rw [h.idle, h.console]
    rfl
  · rw [hn]
    rfl

theorem keep (h : s.Sound) {i : Interrupt} (ho : ∀ dev, outstanding { s with interrupt := i } dev = s.outstanding dev) :
    Sound { s with interrupt := i } := ⟨h.lastSector, (ho .disk).trans h.disk, (ho .console).trans h.console, h.network⟩

theorem requested (h : s.Sound) {r : Request} (hr : s.request r = .ok t) : t.Sound := by
  obtain ⟨hb, -, hq⟩ := request_requested hr
  have ho := hq.outstanding
  refine ⟨?_, ?_, ?_, by rw [hq.network]; exact h.network⟩
  · obtain he | hd := hq.lastSector
    · rw [he]
      exact h.lastSector
    · exact hd
  · rw [ho, h.disk, hq.active]
    cases hd : r.device with
    | disk =>
      rw [hd] at hb
      simp [show s.disk.active = false from hb]
    | console => simp [Device.completion]
    | network => simp [Device.completion]
  · rw [ho, h.console, hq.putBusy]
    cases hd : r.device with
    | disk => simp [Device.completion]
    | console =>
      rw [hd] at hb
      simp [show s.console.putBusy = false from hb]
    | network => simp [Device.completion]

theorem handled (h : s.Sound) {advanceClock : Bool} {old : MachineStatus} {toOccur : PendingInterrupt} {i : Interrupt}
    (hf : s.interrupt.checkIfDue advanceClock = .ok (.fire old toOccur i)) : (s.handle toOccur i).Sound := by
  have hflag (dev : Device) (hd : s.outstanding dev = if s.busy dev then 1 else 0) :
      (s.handle toOccur i).outstanding dev = if (s.handle toOccur i).busy dev then 1 else 0 := by
    have ho := outstanding_fire hf dev
    rw [busy_handle]
    by_cases hp : toOccur.type = dev.completion
    · have hle : s.outstanding dev ≤ 1 := by
        rw [hd]
        split_ifs <;> omega
      rw [if_pos hp] at ho ⊢
      rw [if_neg Bool.false_ne_true]
      omega
    · rw [if_neg hp] at ho ⊢
      rw [← hd, ho, Nat.add_zero]
  refine ⟨?_, hflag .disk h.disk, hflag .console h.console, ?_⟩
  · rw [lastSector_handle]
    exact h.lastSector
  · have hb := busy_handle s toOccur i .network
    rw [show s.busy .network = false from h.network, ite_self] at hb
    exact hb

theorem step (h : s.Sound) {a : Action} (hs : Step s a t) : t.Sound := by
  cases hs with
  | request hr => exact h.requested hr
  | fire hf => exact h.handled hf
  | quiet hq => exact h.keep (outstanding_quiet hq)
  | schedule ht hi =>
    apply h.keep
    intro dev
    rw [outstanding, outstanding_schedule hi, if_neg (ht dev), Nat.add_zero]
  | time hp =>
    apply h.keep
    intro dev
    rw [outstanding, hp, outstanding]

end Sound

def NoOverlap (s : Devices) : Action → Prop
  | .request r => r.device = .network → s.outstanding .network = 0
  | _ => True

theorem network_step {a : Action} (hn : s.NoOverlap a) (hs : Step s a t) (h : s.outstanding .network ≤ 1) :
    t.outstanding .network ≤ 1 := by
  cases hs with
  | @request r t hr =>
    obtain ⟨-, -, hq⟩ := request_requested hr
    rw [hq.outstanding]
    split_ifs with hc
    · rw [hn (Device.completion_inj hc)]
    · exact h
  | fire hf =>
    have ho := outstanding_fire hf .network
    omega
  | quiet hq =>
    rw [outstanding_quiet hq]
    exact h
  | schedule ht hi =>
    rw [outstanding, outstanding_schedule hi, if_neg (ht _)]
    exact h
  | time hp =>
    rw [outstanding, hp]
    exact h

theorem Reached.sound {meets : Devices → Action → Prop} (hr : Reached meets s) : s.Sound :=
  hr.invariant (fun _ => Sound.started) (fun _ _ _ h hs => h.step hs.2)

/-- The flags of the disk and of the console are exact in every run; that of the network is never set, so that
what it should prevent is left to the callers. -/
theorem requests_exclusive (s : Devices) (hr : Reached (fun _ _ => True) s) :
    (∀ r, (∃ t, s.request r = .ok t) ↔ s.busy r.device = false ∧ s.WellFormed r) ∧
      (∀ dev, dev ≠ .network → s.outstanding dev ≤ 1 ∧ (s.busy dev = false ↔ s.outstanding dev = 0)) ∧
      ((s.busy .network = false ↔ s.outstanding .network = 0) ↔ s.outstanding .network = 0) ∧
      (Reached NoOverlap s → s.outstanding .network ≤ 1) := by
  have hs := hr.sound
  have hflag {b : Bool} {n : Nat} (h : n = if b then 1 else 0) : n ≤ 1 ∧ (b = false ↔ n = 0) := by
    cases b with
    | false =>
      have h0 : n = 0 := h.trans rfl
      exact ⟨by omega, iff_of_true rfl h0⟩
    | true =>
      have h1 : n = 1 := h.trans rfl
      exact ⟨by omega, iff_of_false (by decide) (by omega)⟩
  refine ⟨fun r => request_iff hs.lastSector, ?_, ?_, ?_⟩
  · intro dev hne
    cases dev with
    | disk => exact hflag hs.disk
    | console => exact hflag hs.console
    | network => exact absurd rfl hne
  · rw [show s.busy .network = false from hs.network]
    exact ⟨fun h => h.mp rfl, fun h => iff_of_true rfl h⟩
  · intro hn
    apply hn.invariant (I := fun s => s.outstanding .network ≤ 1)
    · exact fun s h => by rw [h.idle]; omega
    · exact fun s a t h hs => network_step hs.1 hs.2 h

def idle : Devices :=
  ⟨.new, .new fun _ _ => 0, .new, .new 0 1 ⟨0, 0, 0⟩ fun _ => 0, .littleEndian, []⟩

theorem idle_started : idle.Started :=
  ⟨⟨_, rfl⟩, rfl, ⟨_, _, _, _, rfl⟩, fun _ => rfl⟩

def packet : Request := .send (fun _ => 0) 0 ⟨1, 0, 10⟩ fun _ => 0

theorem requests_exclusive_sent :
    ∃ s t : Devices, s.request packet = .ok t ∧ t.outstanding .network ≤ 1 := by
  have hl := (Sound.started idle_started).lastSector
  obtain ⟨t, ht⟩ := request_accepted (r := packet) hl rfl ⟨by decide, by decide, rfl⟩
  have hr : Reached (fun _ _ => True) t := .next (.request packet) (.start idle_started) ⟨trivial, .request ht⟩
  have hn : Reached NoOverlap t := .next (.request packet) (.start idle_started) ⟨fun _ => rfl, .request ht⟩
  exact ⟨idle, t, ht, (requests_exclusive t hr).2.2.2 hn⟩

theorem sends_overlap :
    ∃ s t u : Devices, s.Started ∧ s.request packet = .ok t ∧ t.outstanding .network = 1 ∧
      t.request packet = .ok u ∧ u.outstanding .network = 2 := by
  have hi := Sound.started idle_started
  obtain ⟨t, ht⟩ := request_accepted (r := packet) hi.lastSector rfl ⟨by decide, by decide, rfl⟩
  obtain ⟨-, -, hq⟩ := request_requested ht
  have hi' := hi.requested ht
  have hw : t.WellFormed packet := by
    refine ⟨by decide, by decide, ?_⟩
    rw [hq.network]
    rfl
  obtain ⟨u, hu⟩ := request_accepted (r := packet) hi'.lastSector hi'.network hw
  obtain ⟨-, -, hq'⟩ := request_requested hu
  have h1 : t.outstanding .network = 1 := hq.outstanding .network
  refine ⟨idle, t, u, idle_started, ht, h1, hu, ?_⟩
  rw [hq'.outstanding .network, h1]
  rfl

end Devices

end Nachos
