import Nachos.Machine.Devices
import Nachos.UserProg.ConsoleInput

namespace Nachos

inductive Writer where
  | idle
  | put (ch : Byte)
  | waiting (ch : Byte)
  | asleep (ch : Byte)
  | printed (ch : Byte)
  | returned
  deriving DecidableEq

structure Echo where
  keyboard : Keyboard
  console : Console
  pending : Nat
  writeDone : Semaphore Unit
  writer : Writer

namespace Echo

def new (input : List Byte) : Echo := ⟨.new input, .new, 0, .new 0, .idle⟩

def putChar (e : Echo) (ch : Byte) : Except Fault Echo := do
  assert (e.console.putBusy = false)
  .ok { e with console := ⟨true, e.console.display ++ [ch]⟩, pending := e.pending + 1, writer := .waiting ch }

def interrupt (e : Echo) : Echo :=
  { e with
    console := e.console.writeDone
    pending := e.pending - 1
    writeDone := e.writeDone.v.2
    writer :=
      match e.writeDone.v.1, e.writer with
      | some (), .asleep ch => .waiting ch
      | _, w => w }

def p (e : Echo) (ch : Byte) : Echo :=
  { e with
    writeDone := (e.writeDone.tryP ()).2
    writer := if (e.writeDone.tryP ()).1 then .printed ch else .asleep ch }

inductive Action where
  | keyboard (a : Keyboard.Action)
  | putChar
  | interrupt
  | p
  | again
  | exit

inductive Step (e : Echo) : Action → Echo → Prop
  | poll {found : Bool} {k : Keyboard} (h : e.keyboard.Step (.poll found) k) :
    Step e (.keyboard (.poll found)) { e with keyboard := k }
  | wait {k : Keyboard} (h : e.keyboard.Step .p k) : Step e (.keyboard .p) { e with keyboard := k }
  | getChar {k : Keyboard} (h : e.keyboard.Step .getChar k) :
    Step e (.keyboard .getChar) { e with keyboard := k, writer := .put e.keyboard.getChar.1 }
  | putChar {ch : Byte} {e' : Echo} (hw : e.writer = .put ch) (h : e.putChar ch = .ok e') : Step e .putChar e'
  | interrupt (hp : 0 < e.pending) : Step e .interrupt e.interrupt
  | p {ch : Byte} (hw : e.writer = .waiting ch) : Step e .p (e.p ch)
  | again {ch : Byte} {k : Keyboard} (hw : e.writer = .printed ch) (hq : ch ≠ 113) (h : e.keyboard.Step .again k) :
    Step e .again { e with keyboard := k, writer := .idle }
  | exit (hw : e.writer = .printed 113) : Step e .exit { e with writer := .returned }

inductive Printing (e : Echo) : Writer → Prop
  | idle (hr : e.keyboard.reader ≠ .echo) (hb : e.console.putBusy = false) (hp : e.pending = 0)
    (hs : e.writeDone = ⟨0, []⟩) (hd : e.keyboard.returned = e.console.display) (hq : 113 ∉ e.console.display) :
    Printing e .idle
  | put {ch : Byte} (hr : e.keyboard.reader = .echo) (hb : e.console.putBusy = false) (hp : e.pending = 0)
    (hs : e.writeDone = ⟨0, []⟩) (hd : e.keyboard.returned = e.console.display ++ [ch]) (hq : 113 ∉ e.console.display) :
    Printing e (.put ch)
  | busy {ch : Byte} {l : List Byte} (hr : e.keyboard.reader = .echo) (hp : e.pending = 1)
    (hs : e.writeDone = ⟨0, []⟩) (hd : e.keyboard.returned = l ++ [ch] ∧ e.console.display = l ++ [ch]) (hq : 113 ∉ l) :
    Printing e (.waiting ch)
  | asleep {ch : Byte} {l : List Byte} (hr : e.keyboard.reader = .echo) (hp : e.pending = 1)
    (hs : e.writeDone = ⟨0, [()]⟩) (hd : e.keyboard.returned = l ++ [ch] ∧ e.console.display = l ++ [ch]) (hq : 113 ∉ l) :
    Printing e (.asleep ch)
  | done {ch : Byte} {l : List Byte} (hr : e.keyboard.reader = .echo) (hb : e.console.putBusy = false) (hp : e.pending = 0)
    (hs : e.writeDone = ⟨1, []⟩) (hd : e.keyboard.returned = l ++ [ch] ∧ e.console.display = l ++ [ch]) (hq : 113 ∉ l) :
    Printing e (.waiting ch)
  | printed {ch : Byte} {l : List Byte} (hr : e.keyboard.reader = .echo) (hb : e.console.putBusy = false) (hp : e.pending = 0)
    (hs : e.writeDone = ⟨0, []⟩) (hd : e.keyboard.returned = l ++ [ch] ∧ e.console.display = l ++ [ch]) (hq : 113 ∉ l) :
    Printing e (.printed ch)
  | returned {l : List Byte} (hr : e.keyboard.reader = .echo) (hp : e.pending = 0)
    (hd : e.keyboard.returned = l ++ [113] ∧ e.console.display = l ++ [113]) (hq : 113 ∉ l) : Printing e .returned

structure Inv (input : List Byte) (e : Echo) : Prop where
  keyboard : Keyboard.Inv input e.keyboard
  asleep : e.keyboard.reader = .asleep → e.keyboard.held = none
  printing : Printing e e.writer

variable {input : List Byte} {e e' : Echo} {a : Action} {k : Keyboard}

theorem Inv.new (input : List Byte) : Inv input (.new input) :=
  ⟨Keyboard.Inv.new input, fun _ => rfl, .idle (fun h => by cases h) rfl rfl rfl rfl List.not_mem_nil⟩

theorem Printing.keyboard {w : Writer} (h : Printing e w) (hr : k.returned = e.keyboard.returned)
    (he : k.reader = .echo ↔ e.keyboard.reader = .echo) : Printing { e with keyboard := k } w := by
  cases h with
  | idle hr' hb hp hs hd hq => exact .idle (fun hc => hr' (he.mp hc)) hb hp hs (hr.trans hd) hq
  | put hr' hb hp hs hd hq => exact .put (he.mpr hr') hb hp hs (hr.trans hd) hq
  | busy hr' hp hs hd hq => exact .busy (he.mpr hr') hp hs ⟨hr.trans hd.1, hd.2⟩ hq
  | asleep hr' hp hs hd hq => exact .asleep (he.mpr hr') hp hs ⟨hr.trans hd.1, hd.2⟩ hq
  | done hr' hb hp hs hd hq => exact .done (he.mpr hr') hb hp hs ⟨hr.trans hd.1, hd.2⟩ hq
  | printed hr' hb hp hs hd hq => exact .printed (he.mpr hr') hb hp hs ⟨hr.trans hd.1, hd.2⟩ hq
  | returned hr' hp hd hq => exact .returned (he.mpr hr') hp ⟨hr.trans hd.1, hd.2⟩ hq

theorem readHandler_reader (hi : Keyboard.Inv input e.keyboard) (c : Byte) (rest : List Byte) :
    (Keyboard.readHandler { e.keyboard with incoming := c, unread := rest, held := some c }).reader =
      if e.keyboard.reader = .asleep then .wait else e.keyboard.reader := by
  have hq := hi.queue
  simp only [Keyboard.readHandler, Semaphore.v, hq]
  split_ifs
  all_goals simp_all

theorem poll_frame {found : Bool} (hi : Keyboard.Inv input e.keyboard) (h : e.keyboard.Step (.poll found) k) :
    k.returned = e.keyboard.returned ∧ (k.reader = .echo ↔ e.keyboard.reader = .echo) ∧
      (k.reader = .asleep → k = e.keyboard) := by
  cases h with
  | poll hc =>
    obtain ⟨rfl, -⟩ | ⟨-, -, c, rest, -, rfl⟩ := Keyboard.checkCharAvail_cases hc
    · exact ⟨rfl, Iff.rfl, fun _ => rfl⟩
    · refine ⟨rfl, ?_⟩
      rw [readHandler_reader hi]
      by_cases hr : e.keyboard.reader = .asleep
      · simp [hr]
      · simp [hr]

theorem p_frame (hi : Keyboard.Inv input e.keyboard) (h : e.keyboard.Step .p k) :
    k.returned = e.keyboard.returned ∧ k.reader ≠ .echo ∧ e.keyboard.reader ≠ .echo ∧ k.unread = e.keyboard.unread ∧
      k.held = e.keyboard.held ∧ k.reader = if e.keyboard.held = none then .asleep else .take := by
  cases h with
  | p hr =>
    have hv := hi.value
    simp only [hr, reduceCtorEq, ↓reduceIte, add_zero] at hv
    refine ⟨rfl, ?_, by rw [hr]; decide, rfl, rfl, ?_⟩
    · simp only
      split_ifs
      · decide
      · decide
    · simp only [Semaphore.tryP, hv]
      split_ifs
      all_goals simp_all

theorem Printing.interrupt (h : Printing e e.writer) (hp : 0 < e.pending) : Printing e.interrupt e.interrupt.writer := by
  have hw : CInt.wrap 1 = 1 := by decide
  generalize he : e.writer = w at h
  cases h with
  | busy hr hp' hs hd hq =>
    have hwriter : e.interrupt.writer = e.writer := by simp [Echo.interrupt, hs, Semaphore.v]
    rw [hwriter, he]
    refine .done hr rfl ?_ ?_ hd hq
    · simp [Echo.interrupt, hp']
    · simp [Echo.interrupt, hs, Semaphore.v, hw]
  | @asleep ch l hr hp' hs hd hq =>
    have hwriter : e.interrupt.writer = .waiting ch := by simp [Echo.interrupt, hs, Semaphore.v, he]
    rw [hwriter]
    refine .done hr rfl ?_ ?_ hd hq
    · simp [Echo.interrupt, hp']
    · simp [Echo.interrupt, hs, Semaphore.v, hw]
  | idle _ _ hp' => omega
  | put _ _ hp' => omega
  | done _ _ hp' => omega
  | printed _ _ hp' => omega
  | returned _ hp' => omega

theorem Printing.p {ch : Byte} (h : Printing e (.waiting ch)) : Printing (e.p ch) (e.p ch).writer := by
  have hw : CInt.wrap 0 = 0 := by decide
  cases h with
  | busy hr hp hs hd hq =>
    have hwriter : (e.p ch).writer = .asleep ch := by simp [Echo.p, hs, Semaphore.tryP]
    rw [hwriter]
    refine .asleep hr hp ?_ hd hq
    simp [Echo.p, hs, Semaphore.tryP]
  | done hr hb hp hs hd hq =>
    have hwriter : (e.p ch).writer = .printed ch := by simp [Echo.p, hs, Semaphore.tryP]
    rw [hwriter]
    refine .printed hr hb hp ?_ hd hq
    simp [Echo.p, hs, Semaphore.tryP, hw]

theorem Inv.step (hin : 0xFF ∉ input) (h : Inv input e) (hs : e.Step a e') : Inv input e' := by
  have hkeyboard {b : Keyboard.Action} {k : Keyboard} (hk : e.keyboard.Step b k) : Keyboard.Inv input k :=
    h.keyboard.step ⟨h.keyboard.spares hin b, hk⟩
  have hprinting := h.printing
  cases hs with
  | poll hk =>
    obtain ⟨hr, he, hsame⟩ := poll_frame h.keyboard hk
    refine ⟨hkeyboard hk, fun ha => ?_, h.printing.keyboard hr he⟩
    obtain rfl := hsame ha
    exact h.asleep ha
  | wait hk =>
    obtain ⟨hr, hne, hne', -, hheld, hreader⟩ := p_frame h.keyboard hk
    refine ⟨hkeyboard hk, fun ha => ?_, h.printing.keyboard hr (iff_of_false hne hne')⟩
    rw [ha] at hreader
    split_ifs at hreader with hnone
    exact hheld.trans hnone
  | getChar hk =>
    refine ⟨hkeyboard hk, ?_, ?_⟩
    · cases hk
      exact fun ha => by cases ha
    cases hk with
    | getChar hr hg =>
      obtain ⟨rfl, rfl⟩ := Prod.mk.inj hg
      generalize e.writer = w at hprinting
      cases hprinting with
      | idle hr' hb hp hs hd hq => exact .put rfl hb hp hs (congrArg (· ++ _) hd) hq
      | put hr' => simp [hr] at hr'
      | busy hr' => simp [hr] at hr'
      | asleep hr' => simp [hr] at hr'
      | done hr' => simp [hr] at hr'
      | printed hr' => simp [hr] at hr'
      | returned hr' => simp [hr] at hr'
  | putChar hw hp =>
    obtain ⟨_, -, hp⟩ := bind_eq_ok.mp hp
    cases hp
    rw [hw] at hprinting
    cases hprinting with
    | put hr hb hp hs hd hq =>
      refine ⟨h.keyboard, h.asleep, .busy hr ?_ hs ⟨hd, rfl⟩ hq⟩
      simp [hp]
  | interrupt hp => exact ⟨h.keyboard, h.asleep, h.printing.interrupt hp⟩
  | p hw =>
    rw [hw] at hprinting
    exact ⟨h.keyboard, h.asleep, hprinting.p⟩
  | again hw hq hk =>
    refine ⟨hkeyboard hk, ?_, ?_⟩
    · cases hk
      exact fun ha => by cases ha
    rw [hw] at hprinting
    cases hprinting with
    | printed hr hb hp hs hd hnot =>
      cases hk with
      | again hr' hlast =>
        refine .idle (fun hc => by cases hc) hb hp hs (hd.1.trans hd.2.symm) ?_
        rw [hd.2, List.mem_append, List.mem_singleton]
        exact fun hm => hm.elim hnot (fun he => hq he.symm)
  | exit hw =>
    rw [hw] at hprinting
    cases hprinting with
    | printed hr hb hp hs hd hq => exact ⟨h.keyboard, h.asleep, .returned hr hp hd hq⟩

def rank (e : Echo) : Nat :=
  10 * (e.keyboard.unread.length + e.keyboard.held.toList.length) +
    match e.writer with
    | .idle => if e.keyboard.reader = .take then 1 else if e.keyboard.held = none then 3 else 2
    | .put _ => 9
    | .waiting _ => 7 + e.pending
    | .asleep _ => 8
    | .printed _ => 6
    | .returned => 0

theorem Inv.reads (h : Inv input e) (hw : e.writer = .idle) (hr : e.keyboard.reader ≠ .echo)
    (hmore : e.keyboard.held = none → e.keyboard.unread ≠ []) : ∃ a e', e.Step a e' ∧ e'.rank < e.rank := by
  by_cases htake : e.keyboard.reader = .take
  · have hheld := h.keyboard.held_of_take htake
    refine ⟨_, _, .getChar (.getChar htake rfl), ?_⟩
    simp only [rank, hw, htake, hheld, ↓reduceIte, Option.toList_some, Option.toList_none, List.length_nil,
      List.length_singleton]
    omega
  cases hheld : e.keyboard.held with
  | none =>
    obtain ⟨c, rest, hu⟩ := List.exists_cons_of_ne_nil (hmore hheld)
    have hincoming : e.keyboard.incoming = 0xFF := by rw [h.keyboard.incoming, hheld]; rfl
    have hpoll : e.keyboard.checkCharAvail true =
        .ok (Keyboard.readHandler { e.keyboard with incoming := c, unread := rest, held := some c }) := by
      have hc : ¬(e.keyboard.incoming.toInt ≠ eof ∨ true = false) := by
        rw [hincoming]
        decide
      rw [Keyboard.checkCharAvail, if_neg hc, hu]
    refine ⟨_, _, .poll (.poll hpoll), ?_⟩
    have hreader := readHandler_reader h.keyboard c rest
    have hne : (Keyboard.readHandler { e.keyboard with incoming := c, unread := rest, held := some c }).reader ≠ .take := by
      rw [hreader]
      split_ifs
      · decide
      · exact htake
    simp only [rank, hw, hheld, hu, if_neg htake, if_neg hne]
    change 10 * (rest.length + 1) + 2 < 10 * (rest.length + 1 + 0) + 3
    omega
  | some c =>
    have hwait : e.keyboard.reader = .wait := by
      cases hreader : e.keyboard.reader with
      | wait => rfl
      | asleep => exact absurd ((h.asleep hreader).symm.trans hheld) (by simp)
      | take => exact absurd hreader htake
      | echo => exact absurd hreader hr
    obtain ⟨k, hp⟩ : ∃ k, e.keyboard.Step .p k := ⟨_, .p hwait⟩
    obtain ⟨-, -, -, hunread, hheld', hreader⟩ := p_frame h.keyboard hp
    have hsome : e.keyboard.held ≠ none := by rw [hheld]; exact Option.some_ne_none c
    rw [if_neg hsome] at hreader
    refine ⟨_, _, .wait hp, ?_⟩
    simp only [rank, hw, hreader, hheld', hunread, if_neg hsome, if_neg htake, ↓reduceIte]
    omega

theorem Inv.progress (hq : 113 ∈ input) (h : Inv input e) : e.writer = .returned ∨ ∃ a e', e.Step a e' ∧ e'.rank < e.rank := by
  have hf := h.keyboard.faithful
  have hprinting := h.printing
  generalize hw : e.writer = w at hprinting
  cases hprinting with
  | idle hr hb hp hs hd hnot =>
    refine .inr (h.reads hw hr fun hheld hu => hnot ?_)
    rw [Keyboard.Faithful, hheld, hu, hd] at hf
    simpa [← hf] using hq
  | @put ch hr hb hp hs hd hnot =>
    have hput : e.putChar ch = .ok
        { e with console := ⟨true, e.console.display ++ [ch]⟩, pending := e.pending + 1, writer := .waiting ch } := by
      rw [putChar, assert_pos hb]
      rfl
    refine .inr ⟨_, _, .putChar hw hput, ?_⟩
    simp only [rank, hw, hp]
    omega
  | busy hr hp hs hd hnot =>
    refine .inr ⟨_, _, .interrupt (by omega), ?_⟩
    simp [rank, Echo.interrupt, hs, Semaphore.v, hw, hp]
  | asleep hr hp hs hd hnot =>
    refine .inr ⟨_, _, .interrupt (by omega), ?_⟩
    simp [rank, Echo.interrupt, hs, Semaphore.v, hw, hp]
  | done hr hb hp hs hd hnot =>
    refine .inr ⟨_, _, .p hw, ?_⟩
    simp [rank, Echo.p, hs, Semaphore.tryP, hw, hp]
  | @printed ch l hr hb hp hs hd hnot =>
    by_cases hc : ch = 113
    · subst hc
      refine .inr ⟨_, _, .exit hw, ?_⟩
      simp [rank, hw]
    · have hlast : e.keyboard.returned.getLast? ≠ some 113 := by
        rw [hd.1, List.getLast?_concat]
        exact fun he => hc (Option.some.inj he)
      refine .inr ⟨_, _, .again hw hc (.again hr hlast), ?_⟩
      simp only [rank, hw, reduceCtorEq, ↓reduceIte]
      split_ifs
      · omega
      · omega
  | returned hr hp hd hnot => exact .inl rfl

theorem Inv.finishes (hin : 0xFF ∉ input) (hq : 113 ∈ input) (h : Inv input e) :
    ∃ e', Reachable (fun d => d = e) Step e' ∧ e'.writer = .returned := by
  induction hn : e.rank using Nat.strong_induction_on generalizing e with
  | _ n ih =>
    rcases h.progress hq with hw | ⟨a, e', hs, hlt⟩
    · exact ⟨e, .start rfl, hw⟩
    · obtain ⟨e'', hr, hw⟩ := ih e'.rank (hn ▸ hlt) (h.step hin hs) rfl
      exact ⟨e'', hr.trans (fun d hd => hd ▸ .next a (.start rfl) hs), hw⟩

theorem Printing.display {w : Writer} (h : Printing e w) : ∃ l, e.console.display ++ l = e.keyboard.returned := by
  cases h with
  | idle hr hb hp hs hd hq => exact ⟨[], by rw [hd, List.append_nil]⟩
  | put hr hb hp hs hd hq => exact ⟨_, hd.symm⟩
  | busy hr hp hs hd hq => exact ⟨[], by rw [hd.1, hd.2, List.append_nil]⟩
  | asleep hr hp hs hd hq => exact ⟨[], by rw [hd.1, hd.2, List.append_nil]⟩
  | done hr hb hp hs hd hq => exact ⟨[], by rw [hd.1, hd.2, List.append_nil]⟩
  | printed hr hb hp hs hd hq => exact ⟨[], by rw [hd.1, hd.2, List.append_nil]⟩
  | returned hr hp hd hq => exact ⟨[], by rw [hd.1, hd.2, List.append_nil]⟩

/-- The test prints what is typed, up to the first `q`, and in the order of typing; it never prints while the display is
busy, and it never gets stuck before the `q`. -/
theorem console_echo (hin : 0xFF ∉ input) (h : Reachable (fun e => e = .new input) Step e) :
    (∀ ch, e.writer = .put ch → ∃ e', e.putChar ch = .ok e') ∧
    e.console.display <+: input ∧
    (e.writer = .returned → e.console.display = input.takeWhile (fun b => b ≠ 113) ++ [113]) ∧
    (113 ∈ input → ∃ e', Reachable (fun d => d = e) Step e' ∧ e'.writer = .returned) := by
  have hi : Inv input e := h.invariant (fun _ h0 => h0 ▸ Inv.new input) (fun _ _ _ hi hs => hi.step hin hs)
  have hprinting := hi.printing
  have hf := hi.keyboard.faithful
  refine ⟨fun ch hw => ?_, ?_, fun hw => ?_, fun hq => hi.finishes hin hq⟩
  · rw [hw] at hprinting
    cases hprinting with
    | put hr hb hp hs hd hq =>
      rw [putChar, assert_pos hb]
      exact ⟨_, rfl⟩
  · obtain ⟨l, hl⟩ := hprinting.display
    refine ⟨l ++ e.keyboard.held.toList ++ e.keyboard.unread, ?_⟩
    rw [← List.append_assoc, ← List.append_assoc, hl]
    exact hf
  · rw [hw] at hprinting
    cases hprinting with
    | @returned l hr hp hd hq =>
      rw [hd.2, ← hf, hd.1, List.append_assoc, List.append_assoc, List.takeWhile_append_of_pos]
      · simp
      · intro b hb
        simp only [ne_eq, decide_eq_true_eq]
        rintro rfl
        exact hq hb

theorem console_echo_quit : ∃ e : Echo, Reachable (fun e => e = .new [65, 113, 66]) Step e ∧ e.writer = .returned ∧
    e.console.display = [65, 113] := by
  have hstart : Reachable (fun e => e = .new [65, 113, 66]) Step (.new [65, 113, 66]) := .start rfl
  obtain ⟨e, hr, hw⟩ := (console_echo (by decide) hstart).2.2.2 (by decide)
  have hr' : Reachable (fun e => e = .new [65, 113, 66]) Step e := hr.trans fun d hd => .start hd
  exact ⟨e, hr', hw, (console_echo (by decide) hr').2.2.1 hw⟩

end Echo

end Nachos
