import Nachos.Network.Wire
import Nachos.Threads.Synch
import Nachos.Lib.Run

namespace Nachos

open Buffer

structure Network where
  ident : NetworkAddress
  chanceToWork : ℚ
  sendBusy : Bool
  inHdr : PacketHeader
  inbox : Buffer

namespace Network

def new (addr : NetworkAddress) (reliability : ℚ) (hdr : PacketHeader) (inbox : Buffer) : Network where
  -- `hdr` and `inbox` are what the new object held before: only `inHdr.length` is set
  ident := addr
  chanceToWork := if reliability < 0 then 0 else if reliability > 1 then 1 else reliability
  sendBusy := false
  inHdr := { hdr with length := 0 }
  inbox := inbox

def send (n : Network) (host : Host) (garbage : Buffer) (random : Nat) (hdr : PacketHeader) (data : Buffer) :
    Except Fault (Option Buffer) := do
  assert (n.sendBusy = false ∧ 0 < hdr.length.toNat ∧ hdr.length.toNat ≤ maxPacketSize ∧ hdr.fromAddr = n.ident)
  if ((random % 100 : Nat) : ℚ) ≥ n.chanceToWork * 100 then .ok none
  else .ok (some ((hdr.store host garbage).copy packetHeaderSize data hdr.length.toNat))

def checkPktAvail (n : Network) (host : Host) (socket : List Buffer) :
    Except Fault (Option (Network × Buffer × List Buffer)) :=
  if n.inHdr.length ≠ 0 then .ok none
  else
    match socket with
    | [] => .ok none
    | buffer :: rest => do
      let inHdr := PacketHeader.load host buffer
      assert (inHdr.toAddr = n.ident ∧ inHdr.length.toNat ≤ maxPacketSize)
      .ok (some ({ n with inHdr, inbox := n.inbox.copy 0 (buffer.drop packetHeaderSize) inHdr.length.toNat },
        buffer, rest))

def receive (n : Network) (data : Buffer) : PacketHeader × Buffer × Network :=
  let hdr := n.inHdr
  (hdr, if hdr.length ≠ 0 then data.copy 0 n.inbox hdr.length.toNat else data, { n with inHdr := { hdr with length := 0 } })

end Network

structure Mail where
  pktHdr : PacketHeader
  mailHdr : MailHeader
  data : List Byte
  deriving DecidableEq

def Mail.new (pktH : PacketHeader) (mailH : MailHeader) (msgData : Buffer) : Except Fault Mail := do
  assert (mailH.length.toNat ≤ maxMailSize)
  .ok ⟨pktH, mailH, msgData.take mailH.length.toNat⟩

/-- The postal worker: in the loop of `P`, asleep there, past it, or back from `Network::Receive`. -/
inductive Worker where
  | testing
  | asleep
  | passed
  | delivering (pktHdr : PacketHeader)
  deriving DecidableEq

abbrev Packet := PacketHeader × List Byte

def Packet.ofFrame (host : Host) (frame : Buffer) : Packet :=
  let hdr := PacketHeader.load host frame
  (hdr, (frame.drop packetHeaderSize).take hdr.length.toNat)

structure PostOffice where
  host : Host
  netAddr : NetworkAddress
  numBoxes : Word
  network : Network
  socket : List Buffer
  messageAvailable : Semaphore Unit
  worker : Worker
  buffer : Buffer
  boxes : Nat → List Mail
  -- history: the frames that were on the socket, those read from it, the packets the worker
  -- got from them, and the messages it put into the boxes and that were taken out again
  arrived : List Buffer
  read : List Buffer
  handed : List Packet
  put : List Mail
  got : Nat → List Mail

namespace PostOffice

inductive Action where
  | arrive (frame : Buffer)
  | poll
  | p
  | receive
  | deliver
  | get (box : Nat)

def arrive (o : PostOffice) (frame : Buffer) : PostOffice :=
  { o with socket := o.socket ++ [frame], arrived := o.arrived ++ [frame] }

def incomingPacket (o : PostOffice) : PostOffice :=
  match o.messageAvailable.v with
  | (none, messageAvailable) => { o with messageAvailable }
  | (some _, messageAvailable) => { o with messageAvailable, worker := .testing }

def poll (o : PostOffice) : Except Fault PostOffice := do
  match ← o.network.checkPktAvail o.host o.socket with
  | none => .ok o
  | some (network, frame, socket) => .ok (incomingPacket { o with network, socket, read := o.read ++ [frame] })

def p (o : PostOffice) : PostOffice :=
  match o.messageAvailable.tryP () with
  | (true, messageAvailable) => { o with messageAvailable, worker := .passed }
  | (false, messageAvailable) => { o with messageAvailable, worker := .asleep }

def receive (o : PostOffice) : PostOffice :=
  let (pktHdr, buffer, network) := o.network.receive o.buffer
  { o with
    network, buffer, worker := .delivering pktHdr
    handed := o.handed ++ [(pktHdr, buffer.take pktHdr.length.toNat)] }

def deliver (o : PostOffice) (pktHdr : PacketHeader) : Except Fault PostOffice := do
  let mailHdr := MailHeader.load o.host o.buffer
  assert (0 ≤ mailHdr.toAddr.toInt ∧ mailHdr.toAddr.toInt < o.numBoxes.toInt)
  assert (mailHdr.length.toNat ≤ maxMailSize)
  let mail ← Mail.new pktHdr mailHdr (o.buffer.drop mailHeaderSize)
  let box := mailHdr.toAddr.toNat
  .ok { o with boxes := Function.update o.boxes box (o.boxes box ++ [mail]), put := o.put ++ [mail], worker := .testing }

def send (o : PostOffice) (garbage wire : Buffer) (random : Nat) (pktHdr : PacketHeader) (mailHdr : MailHeader)
    (data : Buffer) : Except Fault (Option Buffer) := do
  assert (mailHdr.length.toNat ≤ maxMailSize)
  assert (0 ≤ mailHdr.toAddr.toInt ∧ mailHdr.toAddr.toInt < o.numBoxes.toInt)
  let pktHdr := { pktHdr with fromAddr := o.netAddr, length := mailHdr.length + .ofNat 32 mailHeaderSize }
  let buffer := (mailHdr.store o.host garbage).copy mailHeaderSize data mailHdr.length.toNat
  o.network.send o.host wire random pktHdr buffer

def get (o : PostOffice) (box : Nat) : Except Fault (Mail × PostOffice) := do
  -- `Receive` on a box. On an empty one `Condition::Wait` fails its `ASSERT(FALSE)`
  assert ((box : Int) < o.numBoxes.toInt)
  match o.boxes box with
  | [] => .error .assertion
  | mail :: rest => do
    assert (mail.mailHdr.length.toNat ≤ maxMailSize)
    .ok (mail, { o with
      boxes := Function.update o.boxes box rest, got := Function.update o.got box (o.got box ++ [mail]) })

def NonEmpty (host : Host) (frame : Buffer) : Prop := (PacketHeader.load host frame).length ≠ 0

inductive Step (o : PostOffice) : Action → PostOffice → Prop
  | arrive {frame : Buffer} (hf : NonEmpty o.host frame) : Step o (.arrive frame) (o.arrive frame)
  | poll {o' : PostOffice} (h : o.poll = .ok o') : Step o .poll o'
  | p (hw : o.worker = .testing) : Step o .p o.p
  | receive (hw : o.worker = .passed) : Step o .receive o.receive
  | deliver {pktHdr : PacketHeader} {o' : PostOffice} (hw : o.worker = .delivering pktHdr)
      (h : o.deliver pktHdr = .ok o') : Step o .deliver o'
  | get {box : Nat} {mail : Mail} {o' : PostOffice} (h : o.get box = .ok (mail, o')) : Step o (.get box) o'

structure Initial (o : PostOffice) : Prop where
  network : o.network.inHdr.length = 0
  messageAvailable : o.messageAvailable = .new 0
  worker : o.worker = .testing
  boxes : ∀ box, o.boxes box = []
  socket : ∀ frame ∈ o.socket, NonEmpty o.host frame
  arrived : o.arrived = o.socket
  read : o.read = []
  handed : o.handed = []
  put : o.put = []
  got : ∀ box, o.got box = []

def buffered (o : PostOffice) : List Packet :=
  if o.network.inHdr.length = 0 then []
  else [(o.network.inHdr, o.network.inbox.take o.network.inHdr.length.toNat)]

structure Inv (o : PostOffice) : Prop where
  queue : o.messageAvailable.queue = if o.worker = .asleep then [()] else []
  count : o.messageAvailable.value + (if o.worker = .passed then 1 else 0) =
    if o.network.inHdr.length ≠ 0 then 1 else 0
  asleep : o.worker = .asleep → o.messageAvailable.value = 0
  nonneg : 0 ≤ o.messageAvailable.value
  socket : ∀ frame ∈ o.socket, NonEmpty o.host frame
  arrived : o.arrived = o.read ++ o.socket
  packets : o.read.map (Packet.ofFrame o.host) = o.handed ++ o.buffered

variable {o o' : PostOffice}

theorem Initial.inv (h : Initial o) : Inv o where
  queue := by
    rw [h.messageAvailable, h.worker]
    rfl
  count := by
    rw [h.messageAvailable, h.worker, h.network]
    rfl
  asleep := by simp [h.worker]
  nonneg := by
    rw [h.messageAvailable]
    exact le_refl _
  socket := h.socket
  arrived := by rw [h.arrived, h.read, List.nil_append]
  packets := by rw [h.read, h.handed, buffered, if_pos h.network]; rfl

theorem Inv.empty (h : Inv o) (he : o.network.inHdr.length = 0) :
    o.messageAvailable.value = 0 ∧ o.worker ≠ .passed := by
  have hc := h.count
  have hn := h.nonneg
  simp only [he, ne_eq, not_true_eq_false, ↓reduceIte] at hc
  by_cases hp : o.worker = .passed
  · rw [if_pos hp] at hc
    omega
  · rw [if_neg hp, add_zero] at hc
    exact ⟨hc, hp⟩

theorem Inv.passed (h : Inv o) (hp : o.worker = .passed) :
    o.messageAvailable.value = 0 ∧ o.network.inHdr.length ≠ 0 := by
  have hc := h.count
  have hn := h.nonneg
  rw [if_pos hp] at hc
  split_ifs at hc with he
  · exact ⟨by omega, he⟩
  · omega

theorem incomingPacket_eq (hv : o.messageAvailable.value = 0)
    (hq : o.messageAvailable.queue = if o.worker = .asleep then [()] else []) :
    ∃ worker, worker ≠ .asleep ∧ (worker = o.worker ∨ o.worker = .asleep ∧ worker = .testing) ∧
      o.incomingPacket = { o with messageAvailable := ⟨1, []⟩, worker } := by
  have hw : CInt.wrap 1 = 1 := by decide
  by_cases ha : o.worker = .asleep
  · rw [if_pos ha] at hq
    refine ⟨.testing, by simp, .inr ⟨ha, rfl⟩, ?_⟩
    simp [incomingPacket, Semaphore.v, hv, hq, hw]
  · rw [if_neg ha] at hq
    refine ⟨o.worker, ha, .inl rfl, ?_⟩
    simp [incomingPacket, Semaphore.v, hv, hq, hw]

def readIn (o : PostOffice) (frame : Buffer) (rest : List Buffer) : PostOffice :=
  let inHdr := PacketHeader.load o.host frame
  { o with
    network := { o.network with
      inHdr, inbox := o.network.inbox.copy 0 (frame.drop packetHeaderSize) inHdr.length.toNat }
    socket := rest
    read := o.read ++ [frame] }

theorem poll_cases (h : o.poll = .ok o') :
    o' = o ∨ ∃ frame rest, o.network.inHdr.length = 0 ∧ o.socket = frame :: rest ∧
      o' = (o.readIn frame rest).incomingPacket := by
  obtain ⟨r, hr, h⟩ := bind_eq_ok.mp h
  unfold Network.checkPktAvail at hr
  split_ifs at hr with he
  · cases hr
    exact .inl (Except.ok.inj h).symm
  · split at hr
    · cases hr
      exact .inl (Except.ok.inj h).symm
    · rename_i frame rest hs
      obtain ⟨_, -, hr⟩ := bind_eq_ok.mp hr
      cases hr
      exact .inr ⟨frame, rest, not_not.mp he, hs, (Except.ok.inj h).symm⟩

theorem poll_idle (h : o.network.inHdr.length ≠ 0 ∨ o.socket = []) : o.poll = .ok o := by
  unfold poll Network.checkPktAvail
  split_ifs with he
  · rfl
  · rw [h.resolve_left he]
    rfl

theorem readIn_buffered {frame : Buffer} {rest : List Buffer} (hf : NonEmpty o.host frame) :
    (o.readIn frame rest).buffered = [Packet.ofFrame o.host frame] := by
  rw [buffered, if_neg (show ¬(o.readIn frame rest).network.inHdr.length = 0 from hf)]
  refine congrArg (fun x => [(PacketHeader.load o.host frame, x)]) (take_congr fun k hk => ?_)
  exact copy_inside (Nat.zero_le k) (by rw [Nat.zero_add]; exact hk)

theorem Inv.poll (h : Inv o) (hp : o.poll = .ok o') : Inv o' := by
  obtain rfl | ⟨frame, rest, he, hs, rfl⟩ := poll_cases hp
  · exact h
  obtain ⟨hv, hnp⟩ := h.empty he
  have hne : NonEmpty o.host frame := h.socket frame (by simp [hs])
  obtain ⟨worker, ha, hor, hin⟩ := incomingPacket_eq (o := o.readIn frame rest) hv h.queue
  have hpassed : worker ≠ .passed := by
    obtain rfl | ⟨-, rfl⟩ := hor
    · exact hnp
    · simp
  rw [hin]
  refine ⟨(if_neg ha).symm, ?_, fun hc => absurd hc ha, Int.one_nonneg, fun f hf => ?_, ?_, ?_⟩
  · exact (congrArg (1 + ·) (if_neg hpassed)).trans (if_pos hne).symm
  · exact h.socket f (by rw [hs]; exact List.mem_cons_of_mem _ hf)
  · change o.arrived = (o.read ++ [frame]) ++ rest
    rw [h.arrived, hs, List.append_assoc, List.singleton_append]
  · have hb := h.packets
    rw [buffered, if_pos he, List.append_nil] at hb
    change (o.read ++ [frame]).map (Packet.ofFrame o.host) = o.handed ++ (o.readIn frame rest).buffered
    rw [List.map_append, hb, readIn_buffered hne, List.map_singleton]

theorem Inv.p (h : Inv o) (hw : o.worker = .testing) : Inv o.p := by
  have hq := h.queue
  have hc := h.count
  have hn := h.nonneg
  simp only [hw, reduceCtorEq, ↓reduceIte, add_zero] at hq hc
  by_cases hv : o.messageAvailable.value = 0
  · have he : o.p = { o with messageAvailable := ⟨0, [()]⟩, worker := .asleep } := by
      simp [PostOffice.p, Semaphore.tryP, hv, hq]
    rw [he]
    refine ⟨rfl, ?_, fun _ => rfl, le_refl _, h.socket, h.arrived, h.packets⟩
    rw [hv] at hc
    simpa using hc
  · have h1 : o.messageAvailable.value = 1 := by
      split_ifs at hc <;> omega
    have he : o.p = { o with messageAvailable := ⟨0, []⟩, worker := .passed } := by
      have hw0 : CInt.wrap 0 = 0 := by decide
      simp [PostOffice.p, Semaphore.tryP, h1, hq, hw0]
    rw [he]
    refine ⟨rfl, ?_, by simp, le_refl _, h.socket, h.arrived, h.packets⟩
    rw [h1] at hc
    simpa using hc

theorem receive_handed (he : o.network.inHdr.length ≠ 0) :
    o.receive.handed = o.handed ++ o.buffered ∧ o.receive.buffered = [] := by
  refine ⟨?_, by simp [buffered, PostOffice.receive, Network.receive]⟩
  rw [buffered, if_neg he]
  simp only [PostOffice.receive, Network.receive, if_pos he]
  refine congrArg (fun x => o.handed ++ [(_, x)]) (take_congr fun k hk => ?_)
  rw [copy_inside (by omega) (by omega), Nat.sub_zero]

theorem Inv.receive (h : Inv o) (hw : o.worker = .passed) : Inv o.receive := by
  obtain ⟨hv, he⟩ := h.passed hw
  obtain ⟨hh, hb⟩ := receive_handed he
  have hq := h.queue
  simp only [hw, reduceCtorEq, ↓reduceIte] at hq
  refine ⟨?_, ?_, by simp [PostOffice.receive, Network.receive], h.nonneg, h.socket, h.arrived, ?_⟩
  · simpa [PostOffice.receive, Network.receive] using hq
  · simpa [PostOffice.receive, Network.receive] using hv
  · rw [hh, hb, List.append_nil]
    exact h.packets

structure HandsOver (o o' : PostOffice) (packet : Packet) : Prop where
  buffered : o.buffered = [packet]
  handed : o'.handed = o.handed ++ [packet]
  worker : o'.worker = .delivering packet.1
  data : o'.buffer.take packet.1.length.toNat = packet.2
  emptied : o'.network.inHdr.length = 0
  unread : o'.read = o.read ∧ o'.socket = o.socket

theorem receive_handsOver (he : o.network.inHdr.length ≠ 0) :
    HandsOver o o.receive (o.network.inHdr, o.network.inbox.take o.network.inHdr.length.toNat) := by
  have hb : o.buffered = [(o.network.inHdr, o.network.inbox.take o.network.inHdr.length.toNat)] := if_neg he
  have hh := (receive_handed he).1
  rw [hb] at hh
  refine ⟨hb, hh, rfl, ?_, rfl, rfl, rfl⟩
  exact congrArg Prod.snd (List.singleton_injective (List.append_cancel_left hh))

theorem deliver_eq {pktHdr : PacketHeader} (h : o.deliver pktHdr = .ok o') :
    ∃ mail boxes, o' = { o with boxes, put := o.put ++ [mail], worker := .testing } ∧
      mail.pktHdr = pktHdr ∧ mail.mailHdr = .load o.host o.buffer ∧
      mail.data = (o.buffer.drop mailHeaderSize).take mail.mailHdr.length.toNat ∧
      boxes = Function.update o.boxes mail.mailHdr.toAddr.toNat (o.boxes mail.mailHdr.toAddr.toNat ++ [mail]) := by
  obtain ⟨_, -, h⟩ := bind_eq_ok.mp h
  obtain ⟨_, -, h⟩ := bind_eq_ok.mp h
  obtain ⟨mail, hm, h⟩ := bind_eq_ok.mp h
  obtain ⟨_, -, hm⟩ := bind_eq_ok.mp hm
  cases hm
  exact ⟨_, _, (Except.ok.inj h).symm, rfl, rfl, rfl, rfl⟩

theorem get_eq {box : Nat} {mail : Mail} (h : o.get box = .ok (mail, o')) :
    ∃ rest, o.boxes box = mail :: rest ∧ o' = { o with
      boxes := Function.update o.boxes box rest, got := Function.update o.got box (o.got box ++ [mail]) } := by
  obtain ⟨_, -, h⟩ := bind_eq_ok.mp h
  split at h
  · cases h
  · rename_i mail' rest hb
    obtain ⟨_, -, h⟩ := bind_eq_ok.mp h
    obtain ⟨rfl, rfl⟩ := Prod.mk.inj (Except.ok.inj h)
    exact ⟨rest, hb, rfl⟩

theorem Inv.step {a : Action} (h : Inv o) (hs : o.Step a o') : Inv o' := by
  cases hs with
  | @arrive frame hf =>
    refine ⟨h.queue, h.count, h.asleep, h.nonneg, fun f hm => ?_, ?_, h.packets⟩
    · obtain hm | hm := List.mem_append.mp hm
      · exact h.socket f hm
      · rwa [List.mem_singleton.mp hm]
    · simp only [PostOffice.arrive, h.arrived, List.append_assoc]
  | poll hp => exact h.poll hp
  | p hw => exact h.p hw
  | receive hw => exact h.receive hw
  | deliver hw hd =>
    obtain ⟨mail, boxes, rfl, -⟩ := deliver_eq hd
    have hq := h.queue
    have hc := h.count
    simp only [hw, reduceCtorEq, ↓reduceIte] at hq hc
    exact ⟨hq, hc, by simp, h.nonneg, h.socket, h.arrived, h.packets⟩
  | get hg =>
    obtain ⟨rest, -, rfl⟩ := get_eq hg
    exact ⟨h.queue, h.count, h.asleep, h.nonneg, h.socket, h.arrived, h.packets⟩

theorem reachable_inv (h : Reachable Initial Step o) : Inv o :=
  h.invariant (fun _ h0 => h0.inv) (fun _ _ _ hi hs => hi.step hs)

/-- No packet is overwritten, lost or delivered twice. -/
theorem one_packet_buffer {o : PostOffice} (h : Reachable Initial Step o) :
    o.messageAvailable.value + (if o.worker = .passed then 1 else 0) =
        (if o.network.inHdr.length ≠ 0 then 1 else 0) ∧
      (o.worker = .passed → o.network.inHdr.length ≠ 0) ∧
      (∀ o', o.poll = .ok o' → o.network.inHdr.length ≠ 0 → o' = o) ∧
      o.arrived = o.read ++ o.socket ∧
      o.read.map (Packet.ofFrame o.host) = o.handed ++ o.buffered ∧
      (o.worker = .passed →
        (∃ packet, HandsOver o o.receive packet) ∧ o.receive.handed = o.read.map (Packet.ofFrame o.host)) := by
  have hi := reachable_inv h
  refine ⟨hi.count, fun hw => (hi.passed hw).2, fun o' hp hne => ?_, hi.arrived, hi.packets, fun hw => ?_⟩
  · obtain rfl | ⟨frame, rest, he, -⟩ := poll_cases hp
    · rfl
    · exact absurd he hne
  · have he := (hi.passed hw).2
    exact ⟨⟨_, receive_handsOver he⟩, (receive_handed he).1.trans hi.packets.symm⟩

def onePacket : PostOffice where
  host := .littleEndian
  netAddr := 1
  numBoxes := 10
  network := .new 1 1 ⟨0, 0, 0⟩ (fun _ => 0)
  socket := [PacketHeader.store .littleEndian (fun _ => 0) ⟨1, 0, 12⟩]
  messageAvailable := .new 0
  worker := .testing
  buffer _ := 0
  boxes _ := []
  arrived := [PacketHeader.store .littleEndian (fun _ => 0) ⟨1, 0, 12⟩]
  read := []
  handed := []
  put := []
  got _ := []

theorem one_packet_buffer_passed : ∃ o : PostOffice,
    Reachable Initial Step o ∧ o.worker = .passed ∧ (∃ packet, HandsOver o o.receive packet) ∧
      o.receive.handed = [Packet.ofFrame .littleEndian (PacketHeader.store .littleEndian (fun _ => 0) ⟨1, 0, 12⟩)] := by
  have h0 : Initial onePacket := by
    refine ⟨rfl, rfl, rfl, fun _ => rfl, fun frame hf => ?_, rfl, rfl, rfl, rfl, fun _ => rfl⟩
    obtain rfl := List.mem_singleton.mp hf
    rw [NonEmpty, show onePacket.host = .littleEndian from rfl, PacketHeader.load_store]
    decide
  have hpoll : onePacket.poll = .ok (onePacket.readIn _ []).incomingPacket := rfl
  have h1 : Reachable Initial Step (onePacket.readIn _ []).incomingPacket := .next .poll (.start h0) (.poll hpoll)
  have h : Reachable Initial Step (onePacket.readIn _ []).incomingPacket.p := .next .p h1 (.p rfl)
  obtain ⟨hover, hread⟩ := (one_packet_buffer h).2.2.2.2.2 rfl
  exact ⟨_, h, rfl, hover, hread⟩

end PostOffice

end Nachos
