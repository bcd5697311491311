import Nachos.Machine.Devices

namespace Nachos

open CInt Disk

namespace DiskUnit

def Buffered (u : DiskUnit) (totalTicks newSector : Int) (writing : Bool) : Prop :=
  writing = false ∧ (u.timeToSeek totalTicks newSector).1 = 0 ∧
    (wrap (wrap (wrap (totalTicks + (u.timeToSeek totalTicks newSector).1) + (u.timeToSeek totalTicks newSector).2) -
      u.bufferInit)).tdiv rotationTime > moduloDiff newSector (u.bufferInit.tdiv rotationTime)

section Ticks

variable {u : DiskUnit} {t sector : Int} {writing : Bool}

theorem track_eq (hl : OnDisk u.lastSector) (hn : OnDisk sector) (hz : (u.timeToSeek t sector).1 = 0) :
    sector / 32 = u.lastSector / 32 := by
  rw [seek_eq hl hn] at hz
  have habs : |sector / 32 - u.lastSector / 32| = 0 := by omega
  exact sub_eq_zero.mp (abs_eq_zero.mp habs)

theorem rotation_eq (ht : 0 ≤ t) (hs : 0 ≤ (u.timeToSeek t sector).1)
    (hc : t + (u.timeToSeek t sector).1 ≤ intMax) :
    (u.timeToSeek t sector).2 = (-(t + (u.timeToSeek t sector).1)) % 500 := by
  have hw : wrap (t + (u.timeToSeek t sector).1) = t + (u.timeToSeek t sector).1 := wrap_of_range (by omega) hc
  have hr : (u.timeToSeek t sector).2 = if (wrap (t + (u.timeToSeek t sector).1)).tmod rotationTime > 0 then
      rotationTime - (wrap (t + (u.timeToSeek t sector).1)).tmod rotationTime else 0 := rfl
  rw [hr, hw, tmod_of_nonneg (by omega)]
  simp only [rotationTime]
  split_ifs <;> omega

theorem moduloDiff_eq {toSector fromSector : Int} (ht : 0 ≤ toSector) (hf : 0 ≤ fromSector) :
    moduloDiff toSector fromSector = (toSector - fromSector) % 32 := by
  have hs : (sectorsPerTrack : Int) = 32 := rfl
  rw [moduloDiff, hs, tmod_of_nonneg ht, tmod_of_nonneg hf, tmod_of_nonneg (by omega)]
  omega

structure AfterSeek (u : DiskUnit) (t sector after : Int) : Prop where
  eq : after = t + (u.timeToSeek t sector).1 + (u.timeToSeek t sector).2
  wrap : wrap (wrap (t + (u.timeToSeek t sector).1) + (u.timeToSeek t sector).2) = after
  boundary : 500 ∣ after
  least : ∀ T, t + (u.timeToSeek t sector).1 ≤ T → 500 ∣ T → after ≤ T
  start : t + (u.timeToSeek t sector).1 ≤ after
  wait : after < t + (u.timeToSeek t sector).1 + 500
  range : after ≤ intMax

theorem afterSeek (hl : OnDisk u.lastSector) (hn : OnDisk sector) (ht : 0 ≤ t)
    (hc : t + u.computeLatency t sector writing ≤ intMax) :
    AfterSeek u t sector (t + (u.timeToSeek t sector).1 + (u.timeToSeek t sector).2) := by
  have hle := seek_add_le_latency hl hn t writing
  obtain ⟨hs, -⟩ := timeToSeek_range hl hn t
  simp only [rotationTime] at hle
  have hr := @rotation_eq u t sector ht hs.1 (by omega)
  refine ⟨rfl, ?_, ?_, fun T hT hd => ?_, ?_, ?_, ?_⟩
  · rw [wrap_of_range (x := t + _) (by omega) (by omega), wrap_of_range (by omega) (by omega)]
  · rw [hr]
    omega
  · rw [hr]
    omega
  · rw [hr]
    omega
  · rw [hr]
    omega
  · rw [hr]
    omega

theorem computeLatency_unbuffered (hb : ¬u.Buffered t sector writing) :
    u.computeLatency t sector writing = wrap ((u.timeToSeek t sector).1 + ((u.timeToSeek t sector).2 +
      moduloDiff sector ((wrap (wrap (t + (u.timeToSeek t sector).1) + (u.timeToSeek t sector).2)).tdiv rotationTime) *
        rotationTime) + rotationTime) := if_neg hb

theorem latency_least (hl : OnDisk u.lastSector) (hn : OnDisk sector) (ht : 0 ≤ t)
    (hc : t + u.computeLatency t sector writing ≤ intMax) (hb : ¬u.Buffered t sector writing) :
    IsLeast {T | t + (u.timeToSeek t sector).1 ≤ T ∧ rotationTime ∣ T ∧
        T / rotationTime % sectorsPerTrack = sector % sectorsPerTrack}
      (t + u.computeLatency t sector writing - rotationTime) := by
  obtain ⟨after, ha⟩ : ∃ after, AfterSeek u t sector after := ⟨_, afterSeek hl hn ht hc⟩
  obtain ⟨hs, hr⟩ := timeToSeek_range hl hn t
  have hafter := ha.eq
  have hlat : u.computeLatency t sector writing =
      (u.timeToSeek t sector).1 + (u.timeToSeek t sector).2 + (sector - after / 500) % 32 * 500 + 500 := by
    have hpos : 0 ≤ after := by omega
    rw [computeLatency_unbuffered hb, ha.wrap, tdiv_of_nonneg hpos, moduloDiff_eq hn.1 (Int.ediv_nonneg hpos (by decide))]
    simp only [rotationTime]
    rw [wrap_of_range (by omega) (by simp only [intMax]; omega)]
    omega
  have hstart := ha.start
  have hbound := ha.boundary
  simp only [rotationTime, show (sectorsPerTrack : Int) = 32 from rfl]
  rw [hlat]
  refine ⟨⟨?_, ?_, ?_⟩, ?_⟩
  · omega
  · omega
  · omega
  · rintro T ⟨hT, hd, hm⟩
    have hlast := ha.least T hT hd
    omega

theorem buffered_passed (hl : OnDisk u.lastSector) (hn : OnDisk sector) (ht : 0 ≤ t)
    (hc : t + u.computeLatency t sector writing ≤ intMax) (hi : 0 ≤ u.bufferInit) (hd : rotationTime ∣ u.bufferInit)
    (hu : u.bufferInit ≤ intMax) (hb : u.Buffered t sector writing) :
    ∃ T, u.bufferInit ≤ T ∧ T + rotationTime ≤ t + rotationTime ∧ rotationTime ∣ T ∧
      T / rotationTime % sectorsPerTrack = sector % sectorsPerTrack := by
  obtain ⟨after, ha⟩ : ∃ after, AfterSeek u t sector after := ⟨_, afterSeek hl hn ht hc⟩
  obtain ⟨-, hseek, hgt⟩ := hb
  have hwait := ha.wait
  have hstart := ha.start
  have hbound := ha.boundary
  have hrange := ha.range
  have hmax : intMax = 2147483647 := rfl
  rw [ha.wrap, wrap_of_range (by omega) (by omega), moduloDiff_eq hn.1 (Int.tdiv_nonneg hi (by decide)),
    tdiv_of_nonneg hi] at hgt
  simp only [rotationTime, show (sectorsPerTrack : Int) = 32 from rfl] at *
  obtain ⟨k, hk⟩ := Int.dvd_sub hbound hd
  rw [hk, Int.mul_tdiv_cancel_left k (by decide)] at hgt
  refine ⟨u.bufferInit + (sector - u.bufferInit / 500) % 32 * 500, ?_, ?_, ?_, ?_⟩
  · omega
  · omega
  · omega
  · omega

end Ticks

end DiskUnit

namespace Devices

def Action.target : Action → Option (Int × Bool)
  | .request (.read sectorNumber _) => some (sectorNumber, false)
  | .request (.write sectorNumber _) => some (sectorNumber, true)
  | _ => none

def clock (s : Devices) : Int := s.interrupt.totalTicks

structure DiskRequest (s : Devices) (sector : Int) (writing : Bool) (t : Devices) : Prop where
  free : s.disk.active = false
  onDisk : DiskUnit.OnDisk sector
  disk : ∃ contents, t.disk = DiskUnit.updateLast { s.disk with contents, active := true } s.clock sector
  schedule : s.interrupt.schedule Device.disk.object (s.disk.computeLatency s.clock sector writing) .diskInt =
    .ok t.interrupt

variable {s t : Devices}

theorem startDisk_diskRequest {contents : Disk} {sector : Int} {writing : Bool} (hf : s.disk.active = false)
    (hs : DiskUnit.OnDisk sector)
    (h : s.startDisk contents sector (s.disk.computeLatency s.clock sector writing) = .ok t) :
    DiskRequest s sector writing t := by
  obtain ⟨i, hi, he⟩ := bind_eq_ok.mp h
  obtain rfl := Except.ok.inj he
  exact ⟨hf, hs, ⟨contents, rfl⟩, hi⟩

theorem DiskRequest.lastSector {sector : Int} {writing : Bool} (h : DiskRequest s sector writing t) :
    t.disk.lastSector = sector := by
  obtain ⟨contents, hd⟩ := h.disk
  rw [hd]
  rfl

theorem DiskRequest.bufferInit {sector after : Int} {writing : Bool} (h : DiskRequest s sector writing t)
    (ha : DiskUnit.AfterSeek s.disk s.clock sector after) :
    t.disk.bufferInit = if (s.disk.timeToSeek s.clock sector).1 ≠ 0 then after else s.disk.bufferInit := by
  obtain ⟨contents, hd⟩ := h.disk
  rw [hd, ← ha.wrap]
  rfl

theorem request_target {r : Request} (h : s.request r = .ok t) :
    (∃ sector writing, Action.target (.request r) = some (sector, writing) ∧ DiskRequest s sector writing t) ∨
      Action.target (.request r) = none ∧ t.disk = s.disk ∧
        ∃ id fromNow type, type ≠ .diskInt ∧ s.interrupt.schedule id fromNow type = .ok t.interrupt := by
  cases r with
  | read sectorNumber data =>
    simp only [request, bind_eq_ok] at h
    obtain ⟨⟨_, t'⟩, h, he⟩ := h
    obtain rfl := Except.ok.inj he
    obtain ⟨ha, h⟩ := assert_bind_ok h
    obtain ⟨bytes, hread, h⟩ := bind_eq_ok.mp h
    obtain ⟨hs, -⟩ := assert_bind_ok hread
    obtain ⟨u, hu, he⟩ := bind_eq_ok.mp h
    obtain ⟨-, rfl⟩ := Prod.mk.inj (Except.ok.inj he)
    exact .inl ⟨sectorNumber, false, rfl, startDisk_diskRequest ha hs hu⟩
  | write sectorNumber data =>
    obtain ⟨ha, h⟩ := assert_bind_ok h
    obtain ⟨contents, hwrite, h⟩ := bind_eq_ok.mp h
    obtain ⟨hs, -⟩ := assert_bind_ok hwrite
    exact .inl ⟨sectorNumber, true, rfl, startDisk_diskRequest ha hs h⟩
  | putChar ch =>
    obtain ⟨ha, h⟩ := assert_bind_ok h
    obtain ⟨i, hi, he⟩ := bind_eq_ok.mp h
    obtain rfl := Except.ok.inj he
    exact .inr ⟨rfl, rfl, _, _, _, by decide, hi⟩
  | send garbage random hdr data =>
    obtain ⟨frame, hsend, h⟩ := bind_eq_ok.mp h
    obtain ⟨i, hi, he⟩ := bind_eq_ok.mp h
    obtain rfl := Except.ok.inj he
    exact .inr ⟨rfl, rfl, _, _, _, by decide, hi⟩

end Devices

/-- The devices, and the track the head is over at each time, if it is not moving. -/
structure Spindle where
  devices : Devices
  head : Int → Option Int

namespace Spindle

def moveHead (head : Int → Option Int) (t track : Int) : Int → Option Int :=
  match head t with
  | some old => fun τ => if τ < t then head τ else if τ < t + |track - old| * seekTime then none else some track
  | none => head

def Initial (s : Spindle) : Prop := s.devices.Started ∧ 0 ≤ s.devices.clock ∧ s.head = fun _ => some 0

def Step (s : Spindle) (a : Devices.Action) (t : Spindle) : Prop :=
  Devices.Step s.devices a t.devices ∧ s.devices.clock ≤ t.devices.clock ∧
    match a.target with
    | some (sector, writing) =>
      s.devices.clock + s.devices.disk.computeLatency s.devices.clock sector writing ≤ intMax ∧
        t.head = moveHead s.head s.devices.clock (sector / sectorsPerTrack)
    | none => t.head = s.head

structure Inv (s : Spindle) : Prop where
  sound : s.devices.Sound
  clock : 0 ≤ s.devices.clock
  nonneg : 0 ≤ s.devices.disk.bufferInit
  range : s.devices.disk.bufferInit ≤ intMax
  boundary : rotationTime ∣ s.devices.disk.bufferInit
  settled : ∀ τ, s.devices.disk.bufferInit ≤ τ → s.head τ = some (s.devices.disk.lastSector / sectorsPerTrack)
  idle : s.devices.disk.active = false → s.devices.disk.bufferInit ≤ s.devices.clock
  pending : ∀ p ∈ s.devices.interrupt.pending, p.type = .diskInt → s.devices.disk.bufferInit ≤ p.when

variable {s t : Spindle}

theorem Inv.initial (h : Initial s) : Inv s := by
  obtain ⟨hs, hclock, hhead⟩ := h
  obtain ⟨contents, hd⟩ := hs.disk
  refine ⟨.started hs, hclock, ?_, ?_, ?_, fun τ _ => ?_, fun _ => ?_, fun p hp ht => ?_⟩
  · rw [hd]
    exact le_refl _
  · rw [hd]
    exact show (0 : Int) ≤ intMax by decide
  · rw [hd]
    exact Int.dvd_zero _
  · rw [hhead, hd]
    rfl
  · rw [hd]
    exact hclock
  · have h0 := List.countP_eq_zero.mp (hs.idle .disk) p hp
    simp [Device.completion, ht] at h0

theorem Inv.head_clock (h : Inv s) (hf : s.devices.disk.active = false) :
    s.head s.devices.clock = some (s.devices.disk.lastSector / sectorsPerTrack) := h.settled _ (h.idle hf)

theorem Inv.no_pending (h : Inv s) (hf : s.devices.disk.active = false) :
    ∀ p ∈ s.devices.interrupt.pending, p.type ≠ .diskInt := by
  intro p hp ht
  have h0 := h.sound.disk
  rw [hf] at h0
  have hc := List.countP_eq_zero.mp h0 p hp
  simp [Device.completion, ht] at hc

theorem Inv.moveHead (h : Inv s) (hf : s.devices.disk.active = false) {sector after : Int}
    (hn : DiskUnit.OnDisk sector) (ha : DiskUnit.AfterSeek s.devices.disk s.devices.clock sector after) {τ : Int}
    (hτ : (s.devices.disk.timeToSeek s.devices.clock sector).1 ≠ 0 ∧ after ≤ τ ∨
      (s.devices.disk.timeToSeek s.devices.clock sector).1 = 0 ∧ s.devices.disk.bufferInit ≤ τ) :
    Spindle.moveHead s.head s.devices.clock (sector / sectorsPerTrack) τ = some (sector / sectorsPerTrack) := by
  have hseek := DiskUnit.seek_eq h.sound.lastSector hn s.devices.clock
  have hstart := ha.start
  rw [Spindle.moveHead, h.head_clock hf]
  change (if τ < s.devices.clock then s.head τ else
    if τ < s.devices.clock + |sector / 32 - s.devices.disk.lastSector / 32| * 500 then none else some (sector / 32)) = _
  rw [← hseek]
  obtain ⟨hne, hle⟩ | ⟨hz, hle⟩ := hτ
  · have hpos := (DiskUnit.timeToSeek_range h.sound.lastSector hn s.devices.clock).1.1
    rw [if_neg (by omega), if_neg (by omega)]
    rfl
  · have htrack := DiskUnit.track_eq h.sound.lastSector hn hz
    split_ifs
    · exact (h.settled τ hle).trans (congrArg some htrack.symm)
    · omega
    · rfl

section Request

variable (h : Inv s) {sector : Int} {writing : Bool} {d : Devices}
  (hr : Devices.DiskRequest s.devices sector writing d)
  (hc : s.devices.clock + s.devices.disk.computeLatency s.devices.clock sector writing ≤ intMax)
include h hr hc

theorem Inv.requested_buffer : 0 ≤ d.disk.bufferInit ∧ rotationTime ∣ d.disk.bufferInit ∧
    d.disk.bufferInit ≤ s.devices.clock + s.devices.disk.computeLatency s.devices.clock sector writing := by
  obtain ⟨after, ha⟩ : ∃ after, DiskUnit.AfterSeek s.devices.disk s.devices.clock sector after :=
    ⟨_, DiskUnit.afterSeek h.sound.lastSector hr.onDisk h.clock hc⟩
  have hle := DiskUnit.seek_add_le_latency h.sound.lastSector hr.onDisk s.devices.clock writing
  have hseek := (DiskUnit.timeToSeek_range h.sound.lastSector hr.onDisk s.devices.clock).1.1
  have hclock := h.clock
  have hstart := ha.start
  have hpos : 0 < rotationTime := by decide
  rw [hr.bufferInit ha]
  split_ifs with hz
  · have hb : ¬s.devices.disk.Buffered s.devices.clock sector writing := fun hb => hz hb.2.1
    obtain ⟨hT, hdvd, -⟩ := (DiskUnit.latency_least h.sound.lastSector hr.onDisk h.clock hc hb).1
    have hafter := ha.least _ hT hdvd
    exact ⟨by omega, ha.boundary, by omega⟩
  · have hidle := h.idle hr.free
    exact ⟨h.nonneg, h.boundary, by omega⟩

theorem Inv.requested_head {τ : Int} (hτ : d.disk.bufferInit ≤ τ) :
    Spindle.moveHead s.head s.devices.clock (sector / sectorsPerTrack) τ = some (sector / sectorsPerTrack) := by
  have ha := DiskUnit.afterSeek h.sound.lastSector hr.onDisk h.clock hc
  rw [hr.bufferInit ha] at hτ
  apply h.moveHead hr.free hr.onDisk ha
  split_ifs at hτ with hz
  · exact .inl ⟨hz, hτ⟩
  · exact .inr ⟨not_not.mp hz, hτ⟩

theorem Inv.request (hsound : d.Sound) (hclock : s.devices.clock ≤ d.clock) :
    Inv ⟨d, Spindle.moveHead s.head s.devices.clock (sector / sectorsPerTrack)⟩ := by
  obtain ⟨hnonneg, hboundary, hdone⟩ := h.requested_buffer hr hc
  constructor
  case sound => exact hsound
  case clock => exact h.clock.trans hclock
  case nonneg => exact hnonneg
  case range => exact hdone.trans hc
  case boundary => exact hboundary
  case settled =>
    intro τ hτ
    change Spindle.moveHead _ _ _ τ = some (d.disk.lastSector / _)
    rw [hr.lastSector]
    exact h.requested_head hr hc hτ
  case idle =>
    intro hfree
    obtain ⟨contents, hdisk⟩ := hr.disk
    change d.disk.active = false at hfree
    rw [hdisk] at hfree
    cases hfree
  case pending =>
    intro p hp ht
    obtain ⟨-, hi⟩ := Interrupt.schedule_ok hr.schedule
    change p ∈ d.interrupt.pending at hp
    rw [hi] at hp
    obtain rfl | hp := mem_sortedInsert.mp hp
    · have hwhen : wrap (s.devices.clock + s.devices.disk.computeLatency s.devices.clock sector writing) =
          s.devices.clock + s.devices.disk.computeLatency s.devices.clock sector writing :=
        wrap_of_range (by omega) hc
      exact hdone.trans_eq hwhen.symm
    · exact absurd ht (h.no_pending hr.free p hp)

end Request

theorem Inv.keep (h : Inv s) {d : Devices} (hsound : d.Sound) (hclock : s.devices.clock ≤ d.clock)
    (hlast : d.disk.lastSector = s.devices.disk.lastSector) (hinit : d.disk.bufferInit = s.devices.disk.bufferInit)
    (hidle : d.disk.active = false → s.devices.disk.active = false ∨ s.devices.disk.bufferInit ≤ d.clock)
    (hp : ∀ p ∈ d.interrupt.pending, p.type = .diskInt → p ∈ s.devices.interrupt.pending) : Inv ⟨d, s.head⟩ := by
  refine ⟨hsound, h.clock.trans hclock, hinit ▸ h.nonneg, hinit ▸ h.range, hinit ▸ h.boundary, fun τ hτ => ?_,
    fun hf => ?_, fun p hmem ht => ?_⟩
  · change d.disk.bufferInit ≤ τ at hτ
    rw [hinit] at hτ
    exact (h.settled τ hτ).trans (by rw [← hlast])
  · change d.disk.bufferInit ≤ d.clock
    rw [hinit]
    obtain hf | hle := hidle hf
    · exact (h.idle hf).trans hclock
    · exact hle
  · change d.disk.bufferInit ≤ p.when
    rw [hinit]
    exact h.pending p (hp p hmem ht) ht

theorem schedule_mem {i i' : Interrupt} {id : Nat} {fromNow : Int} {type : IntType}
    (h : i.schedule id fromNow type = .ok i') (ht : type ≠ .diskInt) :
    ∀ p ∈ i'.pending, p.type = .diskInt → p ∈ i.pending := by
  intro p hp hd
  obtain ⟨-, rfl⟩ := Interrupt.schedule_ok h
  obtain rfl | hp := mem_sortedInsert.mp hp
  · exact absurd hd ht
  · exact hp

theorem Inv.fire (h : Inv s) {advanceClock : Bool} {old : MachineStatus} {toOccur : PendingInterrupt} {i : Interrupt}
    (hf : s.devices.interrupt.checkIfDue advanceClock = .ok (.fire old toOccur i))
    (hsound : (s.devices.handle toOccur i).Sound) : Inv ⟨s.devices.handle toOccur i, s.head⟩ := by
  obtain ⟨-, -, rest, totalTicks, hp, hclock, hdue, hi⟩ := Interrupt.checkIfDue_fire hf
  have hint : (s.devices.handle toOccur i).interrupt = i := by
    unfold Devices.handle
    split <;> rfl
  have hinit : (s.devices.handle toOccur i).disk.bufferInit = s.devices.disk.bufferInit := by
    unfold Devices.handle
    split <;> rfl
  have hactive := Devices.busy_handle s.devices toOccur i .disk
  have htime : (s.devices.handle toOccur i).clock = totalTicks := by
    rw [Devices.clock, hint, hi]
  refine h.keep hsound (htime ▸ hclock) (Devices.lastSector_handle ..) hinit (fun hfree => ?_) fun p hmem _ => ?_
  · rw [htime]
    by_cases ht : toOccur.type = Device.disk.completion
    · exact .inr ((h.pending toOccur (by simp [hp]) ht).trans hdue)
    · rw [if_neg ht] at hactive
      exact .inl (hactive.symm.trans hfree)
  · rw [hint, hi] at hmem
    rw [hp]
    exact List.mem_cons_of_mem _ hmem

theorem Inv.step (h : Inv s) {a : Devices.Action} (hs : Step s a t) : Inv t := by
  obtain ⟨d, head⟩ := t
  obtain ⟨hs, hclock, hhead⟩ := hs
  have hsound := h.sound.step hs
  cases hs with
  | request hr =>
    obtain ⟨sector, writing, ht, hd⟩ | ⟨ht, hdisk, id, fromNow, type, hne, hsched⟩ := Devices.request_target hr
    · rw [ht] at hhead
      obtain ⟨hc, rfl⟩ := hhead
      exact h.request hd hc hsound hclock
    · rw [ht] at hhead
      obtain rfl : head = s.head := hhead
      change d.disk = s.devices.disk at hdisk
      exact h.keep hsound hclock (by rw [hdisk]) (by rw [hdisk]) (fun hf => .inl (hdisk ▸ hf)) (schedule_mem hsched hne)
  | fire hf =>
    obtain rfl : head = s.head := hhead
    exact h.fire hf hsound
  | quiet hq =>
    obtain rfl : head = s.head := hhead
    obtain ⟨-, pending, totalTicks, rfl, -, hperm, -⟩ := Interrupt.checkIfDue_quiet hq
    exact h.keep hsound hclock rfl rfl .inl fun p hp _ => hperm.mem_iff.mp hp
  | schedule hne hi =>
    obtain rfl : head = s.head := hhead
    exact h.keep hsound hclock rfl rfl .inl (schedule_mem hi (hne .disk))
  | time hp =>
    obtain rfl : head = s.head := hhead
    exact h.keep hsound hclock rfl rfl .inl fun p hmem _ => hp ▸ hmem

theorem Inv.run (h : Reachable Initial Step s) : Inv s :=
  Reachable.invariant (fun _ h0 => .initial h0) (fun _ _ _ hi hs => hi.step hs) h

/-- The latency is that of the rotating disk, for every request that is issued when none is outstanding. -/
theorem disk_latency {s : Spindle} (h : Reachable Initial Step s) {t : Int} {u : DiskUnit}
    (ht : t = s.devices.clock) (hu : u = s.devices.disk) (hf : u.active = false) {sector : Int}
    (hn : 0 ≤ sector ∧ sector < Disk.numSectors) {writing : Bool}
    (hc : t + u.computeLatency t sector writing ≤ intMax) :
    ∃ track, s.head t = some track ∧ (u.timeToSeek t sector).1 = |sector / sectorsPerTrack - track| * seekTime ∧
      (¬u.Buffered t sector writing →
        IsLeast {T | t + (u.timeToSeek t sector).1 ≤ T ∧ rotationTime ∣ T ∧
            T / rotationTime % sectorsPerTrack = sector % sectorsPerTrack}
          (t + u.computeLatency t sector writing - rotationTime)) ∧
      (u.Buffered t sector writing → sector / sectorsPerTrack = track ∧
        ∃ T, u.bufferInit ≤ T ∧ T + rotationTime ≤ t + rotationTime ∧ rotationTime ∣ T ∧
          T / rotationTime % sectorsPerTrack = sector % sectorsPerTrack ∧
          ∀ τ, u.bufferInit ≤ τ → τ ≤ t + rotationTime → s.head τ = some track) ∧
      rotationTime ≤ u.computeLatency t sector writing ∧
      ∃ i, s.devices.interrupt.schedule Device.disk.object (u.computeLatency t sector writing) .diskInt = .ok i := by
  subst ht hu
  have hi := Inv.run h
  have hl := hi.sound.lastSector
  have hseek := DiskUnit.seek_eq hl hn s.devices.clock
  have hle := DiskUnit.seek_add_le_latency hl hn s.devices.clock writing
  have hpos := (DiskUnit.timeToSeek_range hl hn s.devices.clock).1.1
  refine ⟨_, hi.head_clock hf, hseek, DiskUnit.latency_least hl hn hi.clock hc, fun hb => ?_, by omega,
    Devices.schedule_pos _ _ _ (DiskUnit.computeLatency_pos hl hn _ _)⟩
  obtain ⟨T, hT⟩ := DiskUnit.buffered_passed hl hn hi.clock hc hi.nonneg hi.boundary hi.range hb
  exact ⟨DiskUnit.track_eq hl hn hb.2.1, T, hT.1, hT.2.1, hT.2.2.1, hT.2.2.2, fun τ hτ _ => hi.settled τ hτ⟩

theorem disk_latency_first_read : (DiskUnit.new fun _ _ => 0).computeLatency 0 5 false = 3000 ∧
    IsLeast {T : Int | 0 ≤ T ∧ 500 ∣ T ∧ T / 500 % 32 = 5} 2500 := by
  have h0 : Reachable Initial Step ⟨.idle, fun _ => some 0⟩ := .start ⟨Devices.idle_started, le_refl _, rfl⟩
  have hn : (0 : Int) ≤ 5 ∧ (5 : Int) < Disk.numSectors := by decide
  have hc : (0 : Int) + (DiskUnit.new fun _ _ => 0).computeLatency 0 5 false ≤ intMax := by decide
  obtain ⟨track, -, -, hleast, -⟩ := disk_latency h0 rfl rfl rfl hn hc
  exact ⟨rfl, hleast fun hb => absurd hb.2.2 (by decide)⟩

end Spindle

end Nachos
