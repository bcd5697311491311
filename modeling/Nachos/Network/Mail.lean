import Nachos.Network.PostOffice
import Mathlib.Tactic.NormNum

namespace Nachos

open Buffer

def Buffer.ofList (l : List Byte) : Buffer := fun k => l.getD k 0

theorem Buffer.ofList_take (b : Buffer) {n k : Nat} (hk : k < n) : ofList (b.take n) k = b k := by
  simp [ofList, Buffer.take, hk]

def Mail.inData (host : Host) (pktHdr : PacketHeader) (b : Buffer) : Mail :=
  let mailHdr := MailHeader.load host b
  ⟨pktHdr, mailHdr, (b.drop mailHeaderSize).take mailHdr.length.toNat⟩

def Mail.ofPacket (host : Host) (p : Packet) : Mail := .inData host p.1 (ofList p.2)

theorem Mail.inData_congr {host : Host} {pktHdr : PacketHeader} {b c : Buffer} {n : Nat} (h : ∀ k < n, b k = c k)
    (hl : mailHeaderSize + (MailHeader.load host b).length.toNat ≤ n) :
    Mail.inData host pktHdr b = .inData host pktHdr c := by
  have hm : MailHeader.load host b = .load host c := MailHeader.load_congr host fun k hk => h k (by omega)
  rw [inData, inData, ← hm]
  refine congrArg (Mail.mk pktHdr _) (take_congr fun k hk => h _ ?_)
  omega

structure Packet.Good (host : Host) (ident : NetworkAddress) (numBoxes : Word) (p : Packet) : Prop where
  dest : p.1.toAddr = ident
  length : p.1.length.toNat = (Mail.ofPacket host p).mailHdr.length.toNat + mailHeaderSize
  mailSize : (Mail.ofPacket host p).mailHdr.length.toNat ≤ maxMailSize
  box : 0 ≤ (Mail.ofPacket host p).mailHdr.toAddr.toInt ∧ (Mail.ofPacket host p).mailHdr.toAddr.toInt < numBoxes.toInt

theorem Mail.ofPacket_take {host : Host} {ident : NetworkAddress} {numBoxes : Word} {hdr : PacketHeader} {b : Buffer}
    (h : Packet.Good host ident numBoxes (hdr, b.take hdr.length.toNat)) :
    Mail.ofPacket host (hdr, b.take hdr.length.toNat) = .inData host hdr b := by
  have hl : hdr.length.toNat = _ := h.length
  exact inData_congr (fun k hk => ofList_take b hk) (by rw [Nat.add_comm]; exact hl.ge)

theorem Packet.ofFrame_eq (host : Host) (wire data : Buffer) (hdr : PacketHeader) :
    Packet.ofFrame host ((hdr.store host wire).copy packetHeaderSize data hdr.length.toNat) =
      (hdr, data.take hdr.length.toNat) := by
  have hload : PacketHeader.load host ((hdr.store host wire).copy packetHeaderSize data hdr.length.toNat) = hdr := by
    refine Eq.trans (PacketHeader.load_congr host fun k hk => ?_) (hdr.load_store host wire)
    exact copy_outside (.inl hk)
  rw [ofFrame, hload]
  refine congrArg (Prod.mk hdr) (take_congr fun k hk => ?_)
  rw [Buffer.drop, copy_inside (by omega) (by omega), Nat.add_sub_cancel_left]

theorem Mail.inData_store (host : Host) (garbage data : Buffer) (pktHdr : PacketHeader) (mailHdr : MailHeader) :
    Mail.inData host pktHdr ((mailHdr.store host garbage).copy mailHeaderSize data mailHdr.length.toNat) =
      ⟨pktHdr, mailHdr, data.take mailHdr.length.toNat⟩ := by
  have hload : MailHeader.load host ((mailHdr.store host garbage).copy mailHeaderSize data mailHdr.length.toNat) =
      mailHdr := by
    refine Eq.trans (MailHeader.load_congr host fun k hk => ?_) (mailHdr.load_store host garbage)
    exact copy_outside (.inl hk)
  rw [inData, hload]
  refine congrArg (Mail.mk pktHdr mailHdr) (take_congr fun k hk => ?_)
  rw [Buffer.drop, copy_inside (by omega) (by omega), Nat.add_sub_cancel_left]

namespace PostOffice

variable {o o' : PostOffice}

def fillIn (o : PostOffice) (pktHdr : PacketHeader) (mailHdr : MailHeader) : PacketHeader :=
  { pktHdr with fromAddr := o.netAddr, length := mailHdr.length + .ofNat 32 mailHeaderSize }

theorem fillIn_length (o : PostOffice) (pktHdr : PacketHeader) {mailHdr : MailHeader}
    (hl : mailHdr.length.toNat ≤ maxMailSize) :
    (o.fillIn pktHdr mailHdr).length.toNat = mailHdr.length.toNat + mailHeaderSize := by
  have h40 : mailHdr.length.toNat ≤ 40 := hl
  rw [fillIn, BitVec.toNat_add, BitVec.toNat_ofNat]
  simp only [mailHeaderSize]
  omega

theorem send_frame (garbage wire : Buffer) (random : Nat) (pktHdr : PacketHeader) {mailHdr : MailHeader}
    (data : Buffer) (hl : mailHdr.length.toNat ≤ maxMailSize)
    (hb : 0 ≤ mailHdr.toAddr.toInt ∧ mailHdr.toAddr.toInt < o.numBoxes.toInt) (hbusy : o.network.sendBusy = false)
    (hid : o.network.ident = o.netAddr) (hrel : o.network.chanceToWork = 1) :
    ∃ frame, o.send garbage wire random pktHdr mailHdr data = .ok (some frame) ∧
      Packet.Good o.host pktHdr.toAddr o.numBoxes (.ofFrame o.host frame) ∧
      Mail.ofPacket o.host (.ofFrame o.host frame) =
        ⟨o.fillIn pktHdr mailHdr, mailHdr, data.take mailHdr.length.toNat⟩ := by
  have hlen := o.fillIn_length pktHdr hl
  have h40 : mailHdr.length.toNat ≤ 40 := hl
  have h12 : mailHeaderSize = 12 := rfl
  have hstore := Mail.inData_store o.host garbage data (o.fillIn pktHdr mailHdr) mailHdr
  let buffer := (mailHdr.store o.host garbage).copy mailHeaderSize data mailHdr.length.toNat
  have hsend : o.send garbage wire random pktHdr mailHdr data = .ok (some
      (((o.fillIn pktHdr mailHdr).store o.host wire).copy packetHeaderSize buffer
        (o.fillIn pktHdr mailHdr).length.toNat)) := by
    have hlost : ¬((random % 100 : Nat) : ℚ) ≥ o.network.chanceToWork * 100 := by
      have hr : random % 100 < 100 := Nat.mod_lt _ (by decide)
      rw [hrel, one_mul, ge_iff_le, not_le]
      exact_mod_cast hr
    have hassert : o.network.sendBusy = false ∧ 0 < (o.fillIn pktHdr mailHdr).length.toNat ∧
        (o.fillIn pktHdr mailHdr).length.toNat ≤ maxPacketSize ∧
        (o.fillIn pktHdr mailHdr).fromAddr = o.network.ident := by
      refine ⟨hbusy, by omega, ?_, hid.symm⟩
      change _ ≤ 52
      omega
    rw [send, assert_pos hl, ok_bind, assert_pos hb, ok_bind]
    change o.network.send o.host wire random (o.fillIn pktHdr mailHdr) buffer = _
    rw [Network.send, assert_pos hassert, ok_bind, if_neg hlost]
  have hmail : Mail.ofPacket o.host (o.fillIn pktHdr mailHdr, buffer.take (o.fillIn pktHdr mailHdr).length.toNat) =
      ⟨o.fillIn pktHdr mailHdr, mailHdr, data.take mailHdr.length.toNat⟩ := by
    refine Eq.trans ?_ hstore
    refine (Mail.inData_congr (fun k hk => (ofList_take buffer hk).symm) ?_).symm
    have hm : MailHeader.load o.host buffer = mailHdr := congrArg Mail.mailHdr hstore
    rw [hm, hlen, Nat.add_comm]
  refine ⟨_, hsend, ?_, ?_⟩
  · rw [Packet.ofFrame_eq]
    refine ⟨rfl, ?_, ?_, ?_⟩
    · rw [hmail]
      exact hlen
    · rw [hmail]
      exact hl
    · rw [hmail]
      exact hb
  · rw [Packet.ofFrame_eq]
    exact hmail

def inHand (o : PostOffice) : List Mail :=
  match o.worker with
  | .delivering pktHdr => [.inData o.host pktHdr o.buffer]
  | .testing | .asleep | .passed => []

def GoodFrame (o : PostOffice) (frame : Buffer) : Prop :=
  Packet.Good o.host o.network.ident o.numBoxes (.ofFrame o.host frame)

structure Sound (o : PostOffice) : Prop extends Inv o where
  good : ∀ frame ∈ o.arrived, o.GoodFrame frame
  delivered : o.handed.map (Mail.ofPacket o.host) = o.put ++ o.inHand
  boxed : ∀ box, o.got box ++ o.boxes box = o.put.filter (fun m => m.mailHdr.toAddr.toNat = box)

theorem Initial.sound (h : Initial o) (hs : o.socket = []) : Sound o where
  toInv := h.inv
  good := by simp [h.arrived, hs]
  delivered := by simp [h.handed, h.put, inHand, h.worker]
  boxed := by simp [h.got, h.boxes, h.put]

theorem GoodFrame.nonEmpty {frame : Buffer} (h : o.GoodFrame frame) : NonEmpty o.host frame := by
  intro hz
  have hl := h.length
  change (PacketHeader.load o.host frame).length.toNat = _ + 12 at hl
  rw [hz] at hl
  simp at hl

namespace Sound

variable (h : Sound o)
include h

theorem good_packet {p : Packet} (hp : p ∈ o.handed ++ o.buffered) :
    Packet.Good o.host o.network.ident o.numBoxes p := by
  rw [← h.packets] at hp
  obtain ⟨frame, hf, rfl⟩ := List.mem_map.mp hp
  exact h.good frame (by rw [h.arrived]; exact List.mem_append_left _ hf)

theorem mails : o.arrived.map (fun frame => Mail.ofPacket o.host (.ofFrame o.host frame)) =
    o.put ++ o.inHand ++ o.buffered.map (Mail.ofPacket o.host) ++
      o.socket.map (fun frame => Mail.ofPacket o.host (.ofFrame o.host frame)) := by
  have hp := congrArg (List.map (Mail.ofPacket o.host)) h.packets
  rw [List.map_map, List.map_append, h.delivered] at hp
  rw [h.toInv.arrived, List.map_append]
  exact congrArg (· ++ _) hp

theorem poll_reads {frame : Buffer} {rest : List Buffer} (he : o.network.inHdr.length = 0)
    (hs : o.socket = frame :: rest) : o.poll = .ok (o.readIn frame rest).incomingPacket := by
  have hg := h.good frame (by rw [h.arrived, hs]; simp)
  have hlen : (PacketHeader.load o.host frame).length.toNat = _ := hg.length
  have hassert : (PacketHeader.load o.host frame).toAddr = o.network.ident ∧
      (PacketHeader.load o.host frame).length.toNat ≤ maxPacketSize := by
    refine ⟨hg.dest, ?_⟩
    rw [hlen]
    exact Nat.add_le_add_right hg.mailSize 12
  unfold PostOffice.poll Network.checkPktAvail
  rw [if_neg (not_not.mpr he), hs]
  dsimp only
  rw [assert_pos hassert]
  rfl

theorem poll_ok : ∃ o', o.poll = .ok o' := by
  by_cases he : o.network.inHdr.length = 0
  · cases hs : o.socket with
    | nil => exact ⟨o, poll_idle (.inr hs)⟩
    | cons frame rest => exact ⟨_, h.poll_reads he hs⟩
  · exact ⟨o, poll_idle (.inl he)⟩

theorem inHand_good {pktHdr : PacketHeader} (hw : o.worker = .delivering pktHdr) :
    ∃ p, Packet.Good o.host o.network.ident o.numBoxes p ∧
      Mail.ofPacket o.host p = .inData o.host pktHdr o.buffer := by
  have hd := h.delivered
  rw [inHand, hw] at hd
  have hm : Mail.inData o.host pktHdr o.buffer ∈ o.handed.map (Mail.ofPacket o.host) := by
    rw [hd]
    simp
  obtain ⟨p, hp, he⟩ := List.mem_map.mp hm
  exact ⟨p, h.good_packet (List.mem_append_left _ hp), he⟩

theorem deliver_ok {pktHdr : PacketHeader} (hw : o.worker = .delivering pktHdr) :
    ∃ o', o.deliver pktHdr = .ok o' := by
  obtain ⟨p, hg, he⟩ := h.inHand_good hw
  have hbox := hg.box
  have hsize := hg.mailSize
  rw [he] at hbox hsize
  have hbox' : 0 ≤ (MailHeader.load o.host o.buffer).toAddr.toInt ∧
      (MailHeader.load o.host o.buffer).toAddr.toInt < o.numBoxes.toInt := hbox
  have hsize' : (MailHeader.load o.host o.buffer).length.toNat ≤ maxMailSize := hsize
  simp only [PostOffice.deliver, assert_pos hbox', assert_pos hsize', ok_bind, Mail.new]
  exact ⟨_, rfl⟩

theorem quiet {network : Network} {socket read : List Buffer} {messageAvailable : Semaphore Unit} {worker : Worker}
    (hi : Inv { o with network, socket, read, messageAvailable, worker }) (hid : network.ident = o.network.ident)
    (hw : ∀ pktHdr, worker = .delivering pktHdr ↔ o.worker = .delivering pktHdr) :
    Sound { o with network, socket, read, messageAvailable, worker } := by
  refine ⟨hi, fun frame hf => ?_, ?_, h.boxed⟩
  · have hg := h.good frame hf
    rw [GoodFrame, ← hid] at hg
    exact hg
  · have hhand : inHand { o with network, socket, read, messageAvailable, worker } = o.inHand := by
      unfold inHand
      cases hworker : o.worker with
      | delivering pktHdr => rw [(hw pktHdr).mpr hworker]
      | testing | asleep | passed =>
        cases hworker' : worker with
        | delivering pktHdr => simp [(hw pktHdr).mp hworker'] at hworker
        | testing | asleep | passed => rfl
    rw [hhand]
    exact h.delivered

theorem poll (hp : o.poll = .ok o') : Sound o' := by
  have hi := h.toInv.poll hp
  obtain rfl | ⟨frame, rest, he, hs, rfl⟩ := poll_cases hp
  · exact h
  obtain ⟨worker, ha, hor, hin⟩ := incomingPacket_eq (o := o.readIn frame rest) (h.empty he).1 h.queue
  rw [hin] at hi ⊢
  refine h.quiet hi rfl fun pktHdr => ?_
  obtain rfl | ⟨hasleep, rfl⟩ := hor
  · exact Iff.rfl
  · have hw : o.worker = .asleep := hasleep
    simp [hw]

theorem p (hw : o.worker = .testing) : Sound o.p := by
  have hi := h.toInv.p hw
  have he : ∃ messageAvailable worker, o.p = { o with messageAvailable, worker } ∧
      (worker = .passed ∨ worker = .asleep) := by
    unfold PostOffice.p
    split
    · exact ⟨_, _, rfl, .inl rfl⟩
    · exact ⟨_, _, rfl, .inr rfl⟩
  obtain ⟨messageAvailable, worker, he, hor⟩ := he
  rw [he] at hi ⊢
  refine h.quiet hi rfl fun pktHdr => ?_
  obtain rfl | rfl := hor
  · simp [hw]
  · simp [hw]

theorem receive (hw : o.worker = .passed) : Sound o.receive := by
  have hi := h.toInv.receive hw
  have hne := (h.passed hw).2
  have hd := h.delivered
  rw [inHand, hw, List.append_nil] at hd
  refine ⟨hi, h.good, ?_, h.boxed⟩
  have hbuffered : (o.network.inHdr, o.network.inbox.take o.network.inHdr.length.toNat) ∈ o.buffered := by
    rw [buffered, if_neg hne]
    exact List.mem_singleton_self _
  have hg := h.good_packet (List.mem_append_right _ hbuffered)
  -- the worker's buffer starts with the bytes of `inbox`
  have htake : o.receive.buffer.take o.network.inHdr.length.toNat =
      o.network.inbox.take o.network.inHdr.length.toNat := by
    simp only [PostOffice.receive, Network.receive, if_pos hne]
    refine take_congr fun k hk => ?_
    rw [copy_inside (by omega) (by omega), Nat.sub_zero]
  rw [← htake] at hg
  have hmail := Mail.ofPacket_take hg
  change (o.handed ++ [(o.network.inHdr, o.receive.buffer.take o.network.inHdr.length.toNat)]).map
    (Mail.ofPacket o.host) = o.put ++ [Mail.inData o.host o.network.inHdr o.receive.buffer]
  rw [List.map_append, hd, List.map_singleton, hmail]

theorem deliver {pktHdr : PacketHeader} (hw : o.worker = .delivering pktHdr) (hd : o.deliver pktHdr = .ok o') :
    Sound o' := by
  have hi := h.toInv.step (.deliver hw hd)
  obtain ⟨mail, boxes, rfl, hpkt, hmail, hdata, rfl⟩ := deliver_eq hd
  have heq : mail = .inData o.host pktHdr o.buffer := by
    cases mail
    simp only at hpkt hmail hdata
    subst hpkt hmail hdata
    rfl
  have hdel := h.delivered
  rw [inHand, hw] at hdel
  refine ⟨hi, h.good, ?_, fun box => ?_⟩
  · change o.handed.map (Mail.ofPacket o.host) = (o.put ++ [mail]) ++ []
    rw [hdel, heq, List.append_nil]
  · have hbox := h.boxed box
    change o.got box ++ Function.update o.boxes mail.mailHdr.toAddr.toNat _ box = (o.put ++ [mail]).filter _
    rw [List.filter_append, ← hbox]
    by_cases hb : mail.mailHdr.toAddr.toNat = box
    · subst hb
      rw [Function.update_self, ← List.append_assoc]
      simp
    · rw [Function.update_of_ne (fun hc => hb hc.symm)]
      simp [hb]

theorem get {box : Nat} {mail : Mail} (hg : o.get box = .ok (mail, o')) : Sound o' := by
  have hi := h.toInv.step (.get hg)
  obtain ⟨rest, hb, rfl⟩ := get_eq hg
  refine ⟨hi, h.good, h.delivered, fun b => ?_⟩
  have hbox := h.boxed b
  change Function.update o.got box _ b ++ Function.update o.boxes box rest b = _
  by_cases hbb : b = box
  · subst hbb
    rw [Function.update_self, Function.update_self, List.append_assoc, List.singleton_append, ← hb]
    exact hbox
  · rw [Function.update_of_ne hbb, Function.update_of_ne hbb]
    exact hbox

theorem step {a : Action} (hs : o.Step a o') (ha : ∀ frame, a = .arrive frame → o.GoodFrame frame) : Sound o' := by
  cases hs with
  | @arrive frame hf =>
    refine ⟨h.toInv.step (.arrive hf), fun f hm => ?_, h.delivered, h.boxed⟩
    obtain hm | hm := List.mem_append.mp hm
    · exact h.good f hm
    · rw [List.mem_singleton.mp hm]
      exact ha frame rfl
  | poll hp => exact h.poll hp
  | p hw => exact h.p hw
  | receive hw => exact h.receive hw
  | deliver hw hd => exact h.deliver hw hd
  | get hg => exact h.get hg

end Sound

def Worker.weight : Worker → Nat
  | .testing | .asleep => 3
  | .passed => 2
  | .delivering _ => 4

def work (o : PostOffice) : Nat :=
  5 * o.socket.length + (if o.network.inHdr.length = 0 then 0 else 4) + Worker.weight o.worker

def Action.Internal : Action → Prop
  | .poll | .p | .receive | .deliver => True
  | .arrive _ | .get _ => False

theorem Sound.poll_work {frame : Buffer} {rest : List Buffer} (h : Sound o) (he : o.network.inHdr.length = 0)
    (hs : o.socket = frame :: rest) : (o.readIn frame rest).incomingPacket.work < o.work := by
  have hne : NonEmpty o.host frame := h.socket frame (by simp [hs])
  obtain ⟨worker, -, hor, hin⟩ := incomingPacket_eq (o := o.readIn frame rest) (h.empty he).1 h.queue
  have hweight : Worker.weight worker = Worker.weight o.worker := by
    obtain rfl | ⟨ha, rfl⟩ := hor
    · rfl
    · rw [show o.worker = .asleep from ha]
      rfl
  rw [hin, work, work, hs, if_pos he]
  change 5 * rest.length + (if (PacketHeader.load o.host frame).length = 0 then 0 else 4) + Worker.weight worker <
    5 * (frame :: rest).length + 0 + Worker.weight o.worker
  rw [if_neg hne, hweight, List.length_cons]
  omega

theorem Sound.progress (h : Sound o) :
    (o.socket = [] ∧ o.buffered = [] ∧ o.inHand = []) ∨ ∃ a o', a.Internal ∧ o.Step a o' ∧ o'.work < o.work := by
  have hpoll (he : o.network.inHdr.length = 0) (hw : o.inHand = []) :
      (o.socket = [] ∧ o.buffered = [] ∧ o.inHand = []) ∨ ∃ a o', a.Internal ∧ o.Step a o' ∧ o'.work < o.work := by
    cases hs : o.socket with
    | nil => exact .inl ⟨rfl, if_pos he, hw⟩
    | cons frame rest => exact .inr ⟨.poll, _, trivial, .poll (h.poll_reads he hs), h.poll_work he hs⟩
  have hc := h.count
  cases hw : o.worker with
  | delivering pktHdr =>
    obtain ⟨o', hd⟩ := h.deliver_ok hw
    refine .inr ⟨.deliver, o', trivial, .deliver hw hd, ?_⟩
    obtain ⟨mail, boxes, rfl, -⟩ := deliver_eq hd
    rw [work, work, hw]
    exact Nat.lt_succ_self _
  | passed =>
    refine .inr ⟨.receive, o.receive, trivial, .receive hw, ?_⟩
    have hne := (h.passed hw).2
    change 5 * o.socket.length + 0 + 4 < _
    rw [work, if_neg hne, hw, Worker.weight]
    omega
  | testing =>
    by_cases he : o.network.inHdr.length = 0
    · exact hpoll he (by rw [inHand, hw])
    · have hv : o.messageAvailable.value = 1 := by
        rw [hw, if_pos he] at hc
        simpa using hc
      refine .inr ⟨.p, o.p, trivial, .p hw, ?_⟩
      have hp : o.p = { o with messageAvailable := ⟨CInt.wrap (1 - 1), o.messageAvailable.queue⟩, worker := .passed } := by
        simp [PostOffice.p, Semaphore.tryP, hv]
      rw [hp, work, work, hw]
      exact Nat.lt_succ_self _
  | asleep =>
    have hz := h.asleep hw
    have he : o.network.inHdr.length = 0 := by
      rw [hw, hz] at hc
      by_contra hne
      rw [if_pos hne] at hc
      simp at hc
    exact hpoll he (by rw [inHand, hw])

def config (o : PostOffice) : Host × NetworkAddress × Word × NetworkAddress × ℚ × Bool :=
  (o.host, o.netAddr, o.numBoxes, o.network.ident, o.network.chanceToWork, o.network.sendBusy)

theorem incomingPacket_frame (o : PostOffice) : o.incomingPacket.config = o.config ∧
    o.incomingPacket.arrived = o.arrived := by
  unfold incomingPacket
  split
  · exact ⟨rfl, rfl⟩
  · exact ⟨rfl, rfl⟩

theorem Step.internal {a : Action} (hs : o.Step a o') (ha : ∀ frame, a ≠ .arrive frame) :
    o'.config = o.config ∧ o'.arrived = o.arrived := by
  cases hs with
  | @arrive frame hf => exact absurd rfl (ha frame)
  | poll hp =>
    obtain rfl | ⟨frame, rest, -, -, rfl⟩ := poll_cases hp
    · exact ⟨rfl, rfl⟩
    · exact incomingPacket_frame (o.readIn frame rest)
  | p hw =>
    unfold PostOffice.p
    split
    · exact ⟨rfl, rfl⟩
    · exact ⟨rfl, rfl⟩
  | receive hw => exact ⟨rfl, rfl⟩
  | deliver hw hd =>
    obtain ⟨mail, boxes, rfl, -⟩ := deliver_eq hd
    exact ⟨rfl, rfl⟩
  | get hg =>
    obtain ⟨rest, -, rfl⟩ := get_eq hg
    exact ⟨rfl, rfl⟩

theorem send_checked {garbage wire data : Buffer} {random : Nat} {pktHdr : PacketHeader} {mailHdr : MailHeader}
    {x : Option Buffer} (h : o.send garbage wire random pktHdr mailHdr data = .ok x) :
    mailHdr.length.toNat ≤ maxMailSize ∧
      0 ≤ mailHdr.toAddr.toInt ∧ mailHdr.toAddr.toInt < o.numBoxes.toInt := by
  obtain ⟨_, hl, h⟩ := bind_eq_ok.mp h
  obtain ⟨_, hb, h⟩ := bind_eq_ok.mp h
  exact ⟨(assert_ok_iff _).mp hl, (assert_ok_iff _).mp hb⟩

end PostOffice

structure PostalService (I : Type) where
  office : I → PostOffice
  sent : I → List Mail

namespace PostalService

variable {I : Type}

inductive Action (I : Type) where
  | send (i : I) (pktHdr : PacketHeader) (mailHdr : MailHeader) (data : Buffer)
  | office (i : I) (a : PostOffice.Action)

def letter (sender : NetworkAddress) (pktHdr : PacketHeader) (mailHdr : MailHeader) (data : Buffer) : Mail :=
  ⟨⟨pktHdr.toAddr, sender, mailHdr.length + 12⟩, mailHdr, data.take mailHdr.length.toNat⟩

inductive Step [DecidableEq I] (s : PostalService I) : Action I → PostalService I → Prop
  -- the socket of machine `d` has the name that `Network::Send` makes of `pktHdr.to`
  | send {i d : I} {garbage wire data frame : Buffer} {random : Nat} {pktHdr : PacketHeader} {mailHdr : MailHeader}
      (hd : (s.office d).netAddr = pktHdr.toAddr)
      (h : (s.office i).send garbage wire random pktHdr mailHdr data = .ok (some frame)) :
      Step s (.send i pktHdr mailHdr data)
        { office := Function.update s.office d ((s.office d).arrive frame)
          sent := Function.update s.sent d (s.sent d ++ [letter (s.office i).netAddr pktHdr mailHdr data]) }
  | office {i : I} {a : PostOffice.Action} {o : PostOffice} (ha : ∀ frame, a ≠ .arrive frame)
      (h : (s.office i).Step a o) : Step s (.office i a) { s with office := Function.update s.office i o }

structure Initial (s : PostalService I) : Prop where
  office : ∀ i, (s.office i).Initial
  socket : ∀ i, (s.office i).socket = []
  host : ∀ i j, (s.office i).host = (s.office j).host
  numBoxes : ∀ i j, (s.office i).numBoxes = (s.office j).numBoxes
  ident : ∀ i, (s.office i).network.ident = (s.office i).netAddr
  netAddr : ∀ i j, (s.office i).netAddr = (s.office j).netAddr → i = j
  reliable : ∀ i, (s.office i).network.chanceToWork = 1
  sendBusy : ∀ i, (s.office i).network.sendBusy = false
  sent : ∀ i, s.sent i = []

structure Inv (s₀ s : PostalService I) : Prop where
  sound : ∀ i, (s.office i).Sound
  config : ∀ i, (s.office i).config = (s₀.office i).config
  arrived : ∀ d, (s.office d).arrived.map (fun frame => Mail.ofPacket (s.office d).host (.ofFrame (s.office d).host frame)) =
    s.sent d

variable {s₀ s s' : PostalService I}

theorem Initial.inv (h : Initial s₀) : Inv s₀ s₀ where
  sound i := (h.office i).sound (h.socket i)
  config _ := rfl
  arrived i := by rw [(h.office i).arrived, h.socket i, h.sent i, List.map_nil]

namespace Inv

variable (h : Inv s₀ s)
include h

theorem host (i : I) : (s.office i).host = (s₀.office i).host := congrArg (·.1) (h.config i)

theorem netAddr (i : I) : (s.office i).netAddr = (s₀.office i).netAddr := congrArg (·.2.1) (h.config i)

theorem numBoxes (i : I) : (s.office i).numBoxes = (s₀.office i).numBoxes := congrArg (·.2.2.1) (h.config i)

theorem ident (i : I) : (s.office i).network.ident = (s₀.office i).network.ident := congrArg (·.2.2.2.1) (h.config i)

theorem send_ok (h₀ : Initial s₀) (i : I) (garbage wire : Buffer) (random : Nat) (pktHdr : PacketHeader)
    (mailHdr : MailHeader) (data : Buffer) (hl : mailHdr.length.toNat ≤ maxMailSize)
    (hb : 0 ≤ mailHdr.toAddr.toInt ∧ mailHdr.toAddr.toInt < (s.office i).numBoxes.toInt) :
    ∃ frame, (s.office i).send garbage wire random pktHdr mailHdr data = .ok (some frame) ∧
      Packet.Good (s.office i).host pktHdr.toAddr (s.office i).numBoxes (.ofFrame (s.office i).host frame) ∧
      Mail.ofPacket (s.office i).host (.ofFrame (s.office i).host frame) =
        letter (s.office i).netAddr pktHdr mailHdr data := by
  have hbusy : (s.office i).network.sendBusy = (s₀.office i).network.sendBusy := congrArg (·.2.2.2.2.2) (h.config i)
  have hrel : (s.office i).network.chanceToWork = (s₀.office i).network.chanceToWork :=
    congrArg (·.2.2.2.2.1) (h.config i)
  exact PostOffice.send_frame garbage wire random pktHdr data hl hb (hbusy.trans (h₀.sendBusy i))
    (by rw [h.ident, h.netAddr, h₀.ident]) (hrel.trans (h₀.reliable i))

theorem replace [DecidableEq I] (d : I) {o : PostOffice} {l : List Mail} (hs : o.Sound) (hc : o.config = (s.office d).config)
    (ha : o.arrived.map (fun frame => Mail.ofPacket o.host (.ofFrame o.host frame)) = l) :
    Inv s₀ ⟨Function.update s.office d o, Function.update s.sent d l⟩ := by
  refine ⟨fun j => ?_, fun j => ?_, fun j => ?_⟩
  · by_cases hj : j = d
    · subst hj
      simpa only [Function.update_self] using hs
    · simpa only [Function.update_of_ne hj] using h.sound j
  · by_cases hj : j = d
    · subst hj
      simpa only [Function.update_self] using hc.trans (h.config j)
    · simpa only [Function.update_of_ne hj] using h.config j
  · by_cases hj : j = d
    · subst hj
      simpa only [Function.update_self] using ha
    · simpa only [Function.update_of_ne hj] using h.arrived j

theorem office [DecidableEq I] (i : I) {a : PostOffice.Action} {o : PostOffice} (ha : ∀ frame, a ≠ .arrive frame)
    (hs : (s.office i).Step a o) : Inv s₀ { s with office := Function.update s.office i o } := by
  obtain ⟨hc, harr⟩ := hs.internal ha
  have hhost : o.host = (s.office i).host := congrArg (·.1) hc
  have hi := h.replace i (l := s.sent i) ((h.sound i).step hs fun frame hf => absurd hf (ha frame)) hc
    (by rw [harr, hhost]; exact h.arrived i)
  rwa [Function.update_eq_self] at hi

theorem send [DecidableEq I] (h₀ : Initial s₀) {i d : I} {garbage wire data frame : Buffer} {random : Nat} {pktHdr : PacketHeader}
    {mailHdr : MailHeader} (hd : (s.office d).netAddr = pktHdr.toAddr)
    (hs : (s.office i).send garbage wire random pktHdr mailHdr data = .ok (some frame)) :
    Inv s₀ ⟨Function.update s.office d ((s.office d).arrive frame),
      Function.update s.sent d (s.sent d ++ [letter (s.office i).netAddr pktHdr mailHdr data])⟩ := by
  obtain ⟨hl, hb⟩ := PostOffice.send_checked hs
  obtain ⟨frame', hs', hgood, hmail⟩ := h.send_ok h₀ i garbage wire random pktHdr mailHdr data hl hb
  obtain rfl : frame = frame' := Option.some.inj (Except.ok.inj (hs.symm.trans hs'))
  have hhost : (s.office i).host = (s.office d).host := by rw [h.host, h.host, h₀.host i d]
  have hboxes : (s.office i).numBoxes = (s.office d).numBoxes := by rw [h.numBoxes, h.numBoxes, h₀.numBoxes i d]
  have hid : (s.office d).network.ident = pktHdr.toAddr := by rw [h.ident, h₀.ident, ← h.netAddr, hd]
  have hframe : (s.office d).GoodFrame frame := by
    rw [PostOffice.GoodFrame, ← hhost, ← hboxes, hid]
    exact hgood
  have hsound := (h.sound d).step (.arrive hframe.nonEmpty) fun f hf => by
    cases hf
    exact hframe
  refine h.replace d hsound rfl ?_
  rw [hhost] at hmail
  change ((s.office d).arrived ++ [frame]).map
    (fun frame => Mail.ofPacket (s.office d).host (.ofFrame (s.office d).host frame)) = _
  rw [List.map_append, List.map_singleton, h.arrived d]
  exact congrArg (fun m => s.sent d ++ [m]) hmail

theorem step [DecidableEq I] (h₀ : Initial s₀) {a : Action I} (hs : s.Step a s') : Inv s₀ s' := by
  cases hs with
  | send hd hsend => exact h.send h₀ hd hsend
  | office ha hstep => exact h.office _ ha hstep

theorem mails (d : I) : s.sent d = (s.office d).put ++ (s.office d).inHand ++
    (s.office d).buffered.map (Mail.ofPacket (s.office d).host) ++
      (s.office d).socket.map (fun frame => Mail.ofPacket (s.office d).host (.ofFrame (s.office d).host frame)) := by
  rw [← h.arrived d]
  exact (h.sound d).mails

theorem drain [DecidableEq I] (d : I) :
    ∃ s', Reachable (fun t => t = s) Step s' ∧ s'.sent = s.sent ∧ (s'.office d).put = s.sent d := by
  induction hn : (s.office d).work using Nat.strong_induction_on generalizing s with
  | _ n ih =>
    obtain ⟨hs, hb, hw⟩ | ⟨a, o, ha, hstep, hlt⟩ := (h.sound d).progress
    · refine ⟨s, .start rfl, rfl, ?_⟩
      rw [h.mails d, hs, hb, hw]
      simp
    · have hne : ∀ frame, a ≠ .arrive frame := by
        rintro frame rfl
        exact ha
      have hi := h.office d hne hstep
      obtain ⟨s', hr, hsent, hput⟩ := ih o.work (hn ▸ hlt) hi (by simp only [Function.update_self])
      refine ⟨s', ?_, hsent, hput⟩
      exact hr.trans (fun t ht => ht ▸ .next (.office d a) (.start rfl) (.office hne hstep))

theorem put_prefix (d : I) : (s.office d).put <+: s.sent d := by
  refine ⟨(s.office d).inHand ++ ((s.office d).buffered.map (Mail.ofPacket (s.office d).host) ++
    (s.office d).socket.map (fun frame => Mail.ofPacket (s.office d).host (.ofFrame (s.office d).host frame))), ?_⟩
  rw [h.mails d, List.append_assoc, List.append_assoc]

theorem sent_length (d : I) {m : Mail} (hm : m ∈ s.sent d) : m.mailHdr.length.toNat ≤ maxMailSize := by
  rw [← h.arrived d] at hm
  obtain ⟨frame, hf, rfl⟩ := List.mem_map.mp hm
  exact ((h.sound d).good frame hf).mailSize

theorem box_length (d : I) (box : Nat) {m : Mail} (hm : m ∈ (s.office d).boxes box) :
    m.mailHdr.length.toNat ≤ maxMailSize := by
  have hb : m ∈ (s.office d).put.filter (fun m => m.mailHdr.toAddr.toNat = box) := by
    rw [← (h.sound d).boxed box]
    exact List.mem_append_right _ hm
  exact h.sent_length d ((h.put_prefix d).subset (List.mem_filter.mp hb).1)

theorem box_prefix (d : I) (box : Nat) (a : NetworkAddress) :
    ((s.office d).got box ++ (s.office d).boxes box).filter (fun m => m.pktHdr.fromAddr = a) <+:
      ((s.sent d).filter (fun m => m.mailHdr.toAddr.toNat = box)).filter (fun m => m.pktHdr.fromAddr = a) := by
  rw [(h.sound d).boxed box]
  exact ((h.put_prefix d).filter _).filter _

end Inv

/-- A message arrives whole, once, in its box, and behind what the same machine sent to that box before. -/
theorem mail_integrity [DecidableEq I] {s₀ s : PostalService I} (h₀ : Initial s₀)
    (h : Reachable (fun t => t = s₀) Step s) :
    (∀ i garbage wire random pktHdr mailHdr data, mailHdr.length.toNat ≤ maxMailSize →
      0 ≤ mailHdr.toAddr.toInt ∧ mailHdr.toAddr.toInt < (s.office i).numBoxes.toInt →
      ∃ frame, (s.office i).send garbage wire random pktHdr mailHdr data = .ok (some frame)) ∧
    (∀ d, (∃ o, (s.office d).poll = .ok o) ∧
      (∀ pktHdr, (s.office d).worker = .delivering pktHdr → ∃ o, (s.office d).deliver pktHdr = .ok o) ∧
      ∀ box, ∀ m ∈ (s.office d).boxes box, m.mailHdr.length.toNat ≤ maxMailSize) ∧
    (∀ d, (s.office d).put <+: s.sent d) ∧
    (∀ d box, (s.office d).got box ++ (s.office d).boxes box =
      (s.office d).put.filter (fun m => m.mailHdr.toAddr.toNat = box)) ∧
    (∀ d box a, ((s.office d).got box ++ (s.office d).boxes box).filter (fun m => m.pktHdr.fromAddr = a) <+:
      ((s.sent d).filter (fun m => m.mailHdr.toAddr.toNat = box)).filter (fun m => m.pktHdr.fromAddr = a)) ∧
    ∀ d, ∃ s', Reachable (fun t => t = s) Step s' ∧ s'.sent = s.sent ∧ (s'.office d).put = s.sent d := by
  have hi : Inv s₀ s := h.invariant (fun _ hs => hs ▸ h₀.inv) (fun _ _ _ hi hs => hi.step h₀ hs)
  refine ⟨?_, fun d => ⟨(hi.sound d).poll_ok, fun _ hw => (hi.sound d).deliver_ok hw, fun box _ hm => hi.box_length d box hm⟩,
    hi.put_prefix, fun d => (hi.sound d).boxed, hi.box_prefix, hi.drain⟩
  intro i garbage wire random pktHdr mailHdr data hl hb
  obtain ⟨frame, hs, -⟩ := hi.send_ok h₀ i garbage wire random pktHdr mailHdr data hl hb
  exact ⟨frame, hs⟩

def emptyOffice (addr : NetworkAddress) : PostOffice where
  host := .littleEndian
  netAddr := addr
  numBoxes := 10
  network := .new addr 1 ⟨0, 0, 0⟩ (fun _ => 0)
  socket := []
  messageAvailable := .new 0
  worker := .testing
  buffer _ := 0
  boxes _ := []
  arrived := []
  read := []
  handed := []
  put := []
  got _ := []

def twoOffices : PostalService Bool := ⟨fun b => emptyOffice (if b then 1 else 0), fun _ => []⟩

theorem twoOffices_initial : Initial twoOffices where
  office _ := ⟨rfl, rfl, rfl, fun _ => rfl, fun _ hf => absurd hf List.not_mem_nil, rfl, rfl, rfl, rfl, fun _ => rfl⟩
  socket _ := rfl
  host _ _ := rfl
  numBoxes _ _ := rfl
  ident _ := rfl
  netAddr := by decide
  reliable _ := by
    change (if (1 : ℚ) < 0 then (0 : ℚ) else if (1 : ℚ) > 1 then 1 else 1) = 1
    norm_num
  sendBusy _ := rfl
  sent _ := rfl

theorem mail_integrity_two : ∃ s : PostalService Bool, Reachable (fun t => t = twoOffices) Step s ∧
    ∃ s', Reachable (fun t => t = s) Step s' ∧
      (s'.office true).put = [letter 0 ⟨1, 0, 0⟩ ⟨3, 1, 2⟩ (fun _ => 7)] := by
  have hinit := twoOffices_initial
  obtain ⟨frame, hs, -⟩ := hinit.inv.send_ok hinit false (fun _ => 0) (fun _ => 0) 5 ⟨1, 0, 0⟩ ⟨3, 1, 2⟩ (fun _ => 7)
    (by decide) (by decide)
  have hr : Reachable (fun t => t = twoOffices) Step _ :=
    .next (.send false ⟨1, 0, 0⟩ ⟨3, 1, 2⟩ (fun _ => 7)) (.start rfl) (.send (d := true) rfl hs)
  obtain ⟨s', hs', -, hput⟩ := (mail_integrity hinit hr).2.2.2.2.2 true
  exact ⟨_, hr, s', hs', hput⟩

end PostalService

end Nachos
