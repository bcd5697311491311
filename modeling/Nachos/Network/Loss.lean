import Nachos.Network.Mail

namespace Nachos

open Buffer

namespace PostOffice

variable {o : PostOffice}

def Lost (o : PostOffice) (random : Nat) : Prop := ((random % 100 : Nat) : ℚ) ≥ o.network.chanceToWork * 100

theorem send_cases (garbage wire : Buffer) (random : Nat) (pktHdr : PacketHeader) {mailHdr : MailHeader}
    (data : Buffer) (hl : mailHdr.length.toNat ≤ maxMailSize)
    (hb : 0 ≤ mailHdr.toAddr.toInt ∧ mailHdr.toAddr.toInt < o.numBoxes.toInt) (hbusy : o.network.sendBusy = false)
    (hid : o.network.ident = o.netAddr) :
    (o.Lost random ∧ o.send garbage wire random pktHdr mailHdr data = .ok none) ∨
      ¬o.Lost random ∧ ∃ frame, o.send garbage wire random pktHdr mailHdr data = .ok (some frame) ∧
        Packet.Good o.host pktHdr.toAddr o.numBoxes (.ofFrame o.host frame) ∧
        Mail.ofPacket o.host (.ofFrame o.host frame) =
          ⟨o.fillIn pktHdr mailHdr, mailHdr, data.take mailHdr.length.toNat⟩ := by
  -- what `Send` puts together does not depend on the reliability
  let reliable : PostOffice := { o with network := { o.network with chanceToWork := 1 } }
  obtain ⟨frame, hs, hgood, hmail⟩ := send_frame (o := reliable) garbage wire random pktHdr data hl hb hbusy hid rfl
  have h12 : (o.fillIn pktHdr mailHdr).length.toNat = mailHdr.length.toNat + 12 := o.fillIn_length pktHdr hl
  have h40 : mailHdr.length.toNat ≤ 40 := hl
  have hassert : o.network.sendBusy = false ∧ 0 < (o.fillIn pktHdr mailHdr).length.toNat ∧
      (o.fillIn pktHdr mailHdr).length.toNat ≤ maxPacketSize ∧ (o.fillIn pktHdr mailHdr).fromAddr = o.network.ident := by
    refine ⟨hbusy, by omega, ?_, hid.symm⟩
    change _ ≤ 52
    omega
  have hsend (n : PostOffice) (hn : n.network.sendBusy = false ∧ 0 < (o.fillIn pktHdr mailHdr).length.toNat ∧
      (o.fillIn pktHdr mailHdr).length.toNat ≤ maxPacketSize ∧ (o.fillIn pktHdr mailHdr).fromAddr = n.network.ident)
      (hbox : 0 ≤ mailHdr.toAddr.toInt ∧ mailHdr.toAddr.toInt < n.numBoxes.toInt) (hnet : n.netAddr = o.netAddr) :
      n.send garbage wire random pktHdr mailHdr data =
        if ((random % 100 : Nat) : ℚ) ≥ n.network.chanceToWork * 100 then .ok none
        else .ok (some (((o.fillIn pktHdr mailHdr).store n.host wire).copy packetHeaderSize
          ((mailHdr.store n.host garbage).copy mailHeaderSize data mailHdr.length.toNat)
          (o.fillIn pktHdr mailHdr).length.toNat)) := by
    have hfill : n.fillIn pktHdr mailHdr = o.fillIn pktHdr mailHdr := by rw [fillIn, fillIn, hnet]
    rw [send, assert_pos hl, ok_bind, assert_pos hbox, ok_bind]
    change n.network.send n.host wire random (n.fillIn pktHdr mailHdr) _ = _
    rw [hfill, Network.send, assert_pos hn, ok_bind]
  have hs' := hsend reliable hassert hb rfl
  rw [hs] at hs'
  rw [hsend o hassert hb rfl]
  by_cases hlost : o.Lost random
  · exact .inl ⟨hlost, if_pos hlost⟩
  · refine .inr ⟨hlost, frame, ?_, hgood, hmail⟩
    refine (if_neg hlost).trans ?_
    split_ifs at hs'
    · cases hs'
    · exact hs'.symm

end PostOffice

/-- Post offices between which packets may get lost: `service` has what arrives, `sent d` what was sent to machine `d`. -/
structure LossyService (I : Type) where
  service : PostalService I
  sent : I → List Mail

namespace LossyService

variable {I : Type}

inductive Action (I : Type) where
  | send (i : I) (random : Nat) (pktHdr : PacketHeader) (mailHdr : MailHeader) (data : Buffer)
  | office (i : I) (a : PostOffice.Action)

open PostalService (letter)

inductive Step [DecidableEq I] (s : LossyService I) : Action I → LossyService I → Prop
  | carried {i d : I} {garbage wire data frame : Buffer} {random : Nat} {pktHdr : PacketHeader} {mailHdr : MailHeader}
      (hd : (s.service.office d).netAddr = pktHdr.toAddr)
      (h : (s.service.office i).send garbage wire random pktHdr mailHdr data = .ok (some frame)) :
      Step s (.send i random pktHdr mailHdr data)
        { service :=
            { office := Function.update s.service.office d ((s.service.office d).arrive frame)
              sent := Function.update s.service.sent d
                (s.service.sent d ++ [letter (s.service.office i).netAddr pktHdr mailHdr data]) }
          sent := Function.update s.sent d (s.sent d ++ [letter (s.service.office i).netAddr pktHdr mailHdr data]) }
  | lost {i d : I} {garbage wire data : Buffer} {random : Nat} {pktHdr : PacketHeader} {mailHdr : MailHeader}
      (hd : (s.service.office d).netAddr = pktHdr.toAddr)
      (h : (s.service.office i).send garbage wire random pktHdr mailHdr data = .ok none) :
      Step s (.send i random pktHdr mailHdr data)
        { s with sent := Function.update s.sent d (s.sent d ++ [letter (s.service.office i).netAddr pktHdr mailHdr data]) }
  | office {i : I} {a : PostOffice.Action} {o : PostOffice} (ha : ∀ frame, a ≠ .arrive frame)
      (h : (s.service.office i).Step a o) :
      Step s (.office i a) { s with service := { s.service with office := Function.update s.service.office i o } }

structure Initial (s : LossyService I) : Prop where
  office : ∀ i, (s.service.office i).Initial
  socket : ∀ i, (s.service.office i).socket = []
  host : ∀ i j, (s.service.office i).host = (s.service.office j).host
  numBoxes : ∀ i j, (s.service.office i).numBoxes = (s.service.office j).numBoxes
  network : ∀ i, ∃ reliability hdr inbox, (s.service.office i).network = .new (s.service.office i).netAddr reliability hdr inbox
  netAddr : ∀ i j, (s.service.office i).netAddr = (s.service.office j).netAddr → i = j
  carried : ∀ i, s.service.sent i = []
  sent : ∀ i, s.sent i = []

variable {s₀ s s' : LossyService I}

namespace Initial

variable (h : Initial s₀)
include h

theorem ident (i : I) : (s₀.service.office i).network.ident = (s₀.service.office i).netAddr := by
  obtain ⟨reliability, hdr, inbox, hn⟩ := h.network i
  rw [hn]
  rfl

theorem sendBusy (i : I) : (s₀.service.office i).network.sendBusy = false := by
  obtain ⟨reliability, hdr, inbox, hn⟩ := h.network i
  rw [hn]
  rfl

theorem inv : PostalService.Inv s₀.service s₀.service where
  sound i := (h.office i).sound (h.socket i)
  config _ := rfl
  arrived i := by rw [(h.office i).arrived, h.socket i, h.carried i, List.map_nil]

end Initial

theorem send_cases (h₀ : Initial s₀) (h : PostalService.Inv s₀.service s.service) (i : I) (garbage wire : Buffer)
    (random : Nat) (pktHdr : PacketHeader) (mailHdr : MailHeader) (data : Buffer) (hl : mailHdr.length.toNat ≤ maxMailSize)
    (hb : 0 ≤ mailHdr.toAddr.toInt ∧ mailHdr.toAddr.toInt < (s.service.office i).numBoxes.toInt) :
    ((s₀.service.office i).Lost random ∧ (s.service.office i).send garbage wire random pktHdr mailHdr data = .ok none) ∨
      ¬(s₀.service.office i).Lost random ∧ ∃ frame,
        (s.service.office i).send garbage wire random pktHdr mailHdr data = .ok (some frame) ∧
        Packet.Good (s.service.office i).host pktHdr.toAddr (s.service.office i).numBoxes
          (.ofFrame (s.service.office i).host frame) ∧
        Mail.ofPacket (s.service.office i).host (.ofFrame (s.service.office i).host frame) =
          letter (s.service.office i).netAddr pktHdr mailHdr data := by
  have hbusy : (s.service.office i).network.sendBusy = (s₀.service.office i).network.sendBusy :=
    congrArg (·.2.2.2.2.2) (h.config i)
  have hchance : (s.service.office i).network.chanceToWork = (s₀.service.office i).network.chanceToWork :=
    congrArg (·.2.2.2.2.1) (h.config i)
  have hlost : (s.service.office i).Lost random = (s₀.service.office i).Lost random := by
    rw [PostOffice.Lost, PostOffice.Lost, hchance]
  have hid : (s.service.office i).network.ident = (s.service.office i).netAddr := by rw [h.ident, h.netAddr, h₀.ident]
  rw [← hlost]
  exact PostOffice.send_cases garbage wire random pktHdr data hl hb (hbusy.trans (h₀.sendBusy i)) hid

structure Inv (s₀ s : LossyService I) : Prop where
  service : PostalService.Inv s₀.service s.service
  carried : ∀ d, (s.service.sent d).Sublist (s.sent d)
  reliable : (∀ i, (s₀.service.office i).network.chanceToWork = 1) → ∀ d, s.service.sent d = s.sent d
  dead : (∀ i, (s₀.service.office i).network.chanceToWork = 0) → ∀ d, s.service.sent d = []

namespace Inv

variable [DecidableEq I]

theorem office (h : Inv s₀ s) (i : I) {a : PostOffice.Action} {o : PostOffice} (ha : ∀ frame, a ≠ .arrive frame)
    (hs : (s.service.office i).Step a o) :
    Inv s₀ { s with service := { s.service with office := Function.update s.service.office i o } } :=
  ⟨h.service.office i ha hs, h.carried, h.reliable, h.dead⟩

theorem carry (h₀ : Initial s₀) (h : Inv s₀ s) {i d : I} {garbage wire data frame : Buffer} {random : Nat}
    {pktHdr : PacketHeader} {mailHdr : MailHeader} (hd : (s.service.office d).netAddr = pktHdr.toAddr)
    (hs : (s.service.office i).send garbage wire random pktHdr mailHdr data = .ok (some frame)) :
    PostalService.Inv s₀.service
      { office := Function.update s.service.office d ((s.service.office d).arrive frame)
        sent := Function.update s.service.sent d
          (s.service.sent d ++ [letter (s.service.office i).netAddr pktHdr mailHdr data]) } := by
  obtain ⟨hl, hb⟩ := PostOffice.send_checked hs
  rcases send_cases h₀ h.service i garbage wire random pktHdr mailHdr data hl hb with ⟨-, hs'⟩ | ⟨-, frame', hs', hgood, hmail⟩
  · cases hs.symm.trans hs'
  obtain rfl := Option.some.inj (Except.ok.inj (hs.symm.trans hs'))
  have hhost : (s.service.office i).host = (s.service.office d).host := by
    rw [h.service.host, h.service.host, h₀.host i d]
  have hboxes : (s.service.office i).numBoxes = (s.service.office d).numBoxes := by
    rw [h.service.numBoxes, h.service.numBoxes, h₀.numBoxes i d]
  have hid : (s.service.office d).network.ident = pktHdr.toAddr := by
    rw [h.service.ident, h₀.ident, ← h.service.netAddr, hd]
  have hframe : (s.service.office d).GoodFrame frame := by
    rw [PostOffice.GoodFrame, ← hhost, ← hboxes, hid]
    exact hgood
  have hsound := (h.service.sound d).step (.arrive hframe.nonEmpty) fun f hf => by
    cases hf
    exact hframe
  refine h.service.replace d hsound rfl ?_
  rw [hhost] at hmail
  change ((s.service.office d).arrived ++ [frame]).map
    (fun frame => Mail.ofPacket (s.service.office d).host (.ofFrame (s.service.office d).host frame)) = _
  rw [List.map_append, List.map_singleton, h.service.arrived d]
  exact congrArg (fun m => s.service.sent d ++ [m]) hmail

theorem step (h₀ : Initial s₀) (h : Inv s₀ s) {a : Action I} (hs : s.Step a s') : Inv s₀ s' := by
  cases hs with
  | office ha hstep => exact h.office _ ha hstep
  | @carried i d garbage wire data frame random pktHdr mailHdr hd hsend =>
    have hchance := congrArg (·.2.2.2.2.1) (h.service.config i)
    refine ⟨carry h₀ h hd hsend, fun j => ?_, fun hr j => ?_, fun hz => ?_⟩
    · by_cases hj : j = d
      · subst hj
        simp only [Function.update_self]
        exact (h.carried j).append (List.Sublist.refl _)
      · simp only [Function.update_of_ne hj]
        exact h.carried j
    · by_cases hj : j = d
      · subst hj
        simp only [Function.update_self, h.reliable hr j]
      · simp only [Function.update_of_ne hj, h.reliable hr j]
    · -- a network that never works has carried nothing
      exfalso
      obtain ⟨hl, hb⟩ := PostOffice.send_checked hsend
      rcases send_cases h₀ h.service i garbage wire random pktHdr mailHdr data hl hb with ⟨-, hs'⟩ | ⟨hlost, -⟩
      · cases hsend.symm.trans hs'
      · apply hlost
        rw [PostOffice.Lost, hz i, zero_mul]
        exact_mod_cast Nat.zero_le _
  | @lost i d garbage wire data random pktHdr mailHdr hd hsend =>
    refine ⟨h.service, fun j => ?_, fun hr => ?_, h.dead⟩
    · by_cases hj : j = d
      · subst hj
        simp only [Function.update_self]
        exact (h.carried j).trans (List.sublist_append_left ..)
      · simp only [Function.update_of_ne hj]
        exact h.carried j
    · exfalso
      obtain ⟨hl, hb⟩ := PostOffice.send_checked hsend
      rcases send_cases h₀ h.service i garbage wire random pktHdr mailHdr data hl hb with ⟨hlost, -⟩ | ⟨-, frame, hs', -⟩
      · have hlt : random % 100 < 100 := Nat.mod_lt _ (by decide)
        rw [PostOffice.Lost, hr i, one_mul, ge_iff_le] at hlost
        have hle : 100 ≤ random % 100 := by exact_mod_cast hlost
        omega
      · cases hsend.symm.trans hs'

theorem drain (h : Inv s₀ s) (d : I) :
    ∃ s', Reachable (fun t => t = s) Step s' ∧ s'.sent = s.sent ∧ s'.service.sent = s.service.sent ∧
      (s'.service.office d).put = s.service.sent d := by
  induction hn : (s.service.office d).work using Nat.strong_induction_on generalizing s with
  | _ n ih =>
    obtain ⟨hs, hb, hw⟩ | ⟨a, o, ha, hstep, hlt⟩ := (h.service.sound d).progress
    · refine ⟨s, .start rfl, rfl, rfl, ?_⟩
      rw [h.service.mails d, hs, hb, hw]
      simp
    · have hne : ∀ frame, a ≠ .arrive frame := by
        rintro frame rfl
        exact ha
      have hi := h.office d hne hstep
      obtain ⟨s', hr, hsent, hcarried, hput⟩ := ih o.work (hn ▸ hlt) hi (by simp only [Function.update_self])
      refine ⟨s', ?_, hsent, hcarried, hput⟩
      exact hr.trans (fun t ht => ht ▸ .next (.office d a) (.start rfl) (.office hne hstep))

end Inv

/-- A lossy network loses whole messages and does nothing else to them: what is put into a box is a part of what was
sent there, in the order in which it was sent. -/
theorem lossy_delivery [DecidableEq I] (h₀ : Initial s₀) (h : Reachable (fun t => t = s₀) Step s) :
    (∀ i garbage wire random pktHdr mailHdr data, mailHdr.length.toNat ≤ maxMailSize →
      0 ≤ mailHdr.toAddr.toInt ∧ mailHdr.toAddr.toInt < (s.service.office i).numBoxes.toInt →
      ∃ x, (s.service.office i).send garbage wire random pktHdr mailHdr data = .ok x ∧
        (x = none ↔ (s₀.service.office i).Lost random)) ∧
    (∀ d, (∃ o, (s.service.office d).poll = .ok o) ∧
      ∀ pktHdr, (s.service.office d).worker = .delivering pktHdr → ∃ o, (s.service.office d).deliver pktHdr = .ok o) ∧
    (∀ d box, ((s.service.office d).got box ++ (s.service.office d).boxes box).Sublist
      ((s.sent d).filter fun m => m.mailHdr.toAddr.toNat = box)) ∧
    (∀ d, ∃ s', Reachable (fun t => t = s) Step s' ∧ s'.sent = s.sent ∧ s'.service.sent = s.service.sent ∧
      (s'.service.office d).put = s.service.sent d) ∧
    ((∀ i, (s₀.service.office i).network.chanceToWork = 1) → ∀ d, s.service.sent d = s.sent d) ∧
    ((∀ i, (s₀.service.office i).network.chanceToWork = 0) → ∀ d box,
      (s.service.office d).got box = [] ∧ (s.service.office d).boxes box = []) := by
  have h₁ : Inv s₀ s₀ := by
    refine ⟨h₀.inv, fun d => ?_, fun _ d => ?_, fun _ => h₀.carried⟩
    · rw [h₀.carried d]
      exact List.nil_sublist _
    · rw [h₀.carried d, h₀.sent d]
  have hi : Inv s₀ s := h.invariant (fun _ hs => hs ▸ h₁) (fun _ _ _ hi hs => hi.step h₀ hs)
  have hbox (d : I) (box : Nat) : ((s.service.office d).got box ++ (s.service.office d).boxes box).Sublist
      ((s.service.sent d).filter fun m => m.mailHdr.toAddr.toNat = box) := by
    rw [(hi.service.sound d).boxed box]
    exact (hi.service.put_prefix d).sublist.filter _
  refine ⟨?_, fun d => ⟨(hi.service.sound d).poll_ok, fun _ hw => (hi.service.sound d).deliver_ok hw⟩,
    fun d box => (hbox d box).trans ((hi.carried d).filter _), hi.drain, hi.reliable, fun hz d box => ?_⟩
  · intro i garbage wire random pktHdr mailHdr data hl hb
    rcases send_cases h₀ hi.service i garbage wire random pktHdr mailHdr data hl hb with ⟨hlost, hs⟩ | ⟨hlost, frame, hs, -⟩
    · exact ⟨none, hs, iff_of_true rfl hlost⟩
    · exact ⟨some frame, hs, iff_of_false (Option.some_ne_none _) hlost⟩
  · have hnil := hbox d box
    rw [hi.dead hz d, List.filter_nil] at hnil
    exact List.append_eq_nil_iff.mp (List.sublist_nil.mp hnil)

def twoMachines : LossyService Bool where
  service :=
    { office := fun b =>
        let addr : NetworkAddress := if b then 1 else 0
        { PostalService.emptyOffice addr with network := .new addr (1 / 2) ⟨0, 0, 0⟩ (fun _ => 0) }
      sent := fun _ => [] }
  sent _ := []

theorem twoMachines_initial : Initial twoMachines where
  office _ := ⟨rfl, rfl, rfl, fun _ => rfl, fun _ hf => absurd hf List.not_mem_nil, rfl, rfl, rfl, rfl, fun _ => rfl⟩
  socket _ := rfl
  host _ _ := rfl
  numBoxes _ _ := rfl
  network _ := ⟨1 / 2, _, _, rfl⟩
  netAddr := by decide
  carried _ := rfl
  sent _ := rfl

theorem lossy_delivery_two : ∃ s : LossyService Bool, Reachable (fun t => t = twoMachines) Step s ∧
    s.sent true = [letter 0 ⟨1, 0, 0⟩ ⟨3, 1, 2⟩ (fun _ => 7)] ∧ s.service.sent true = [] ∧
    ∃ s', Reachable (fun t => t = s) Step s' ∧ (s'.service.office true).put = [] := by
  have hinit := twoMachines_initial
  have hlost : (twoMachines.service.office false).Lost 70 := by
    change ((70 % 100 : Nat) : ℚ) ≥ (if (1 / 2 : ℚ) < 0 then 0 else if (1 / 2 : ℚ) > 1 then 1 else 1 / 2) * 100
    norm_num
  rcases send_cases hinit hinit.inv false (fun _ => 0) (fun _ => 0) 70 ⟨1, 0, 0⟩ ⟨3, 1, 2⟩ (fun _ => 7)
    (by decide) (by decide) with ⟨-, hs⟩ | ⟨hn, -⟩
  · have hr : Reachable (fun t => t = twoMachines) Step _ :=
      .next (.send false 70 ⟨1, 0, 0⟩ ⟨3, 1, 2⟩ (fun _ => 7)) (.start rfl) (.lost (d := true) rfl hs)
    obtain ⟨s', hs', -, -, hput⟩ := (lossy_delivery hinit hr).2.2.2.1 true
    exact ⟨_, hr, rfl, rfl, s', hs', hput⟩
  · exact absurd hlost hn

end LossyService

end Nachos
