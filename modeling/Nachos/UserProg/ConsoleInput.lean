import Nachos.Lib.Heap
import Nachos.Lib.Run
import Nachos.Threads.Synch

namespace Nachos

def eof : Int := -1

inductive Reader where
  | wait
  | asleep
  | take
  | echo
  deriving DecidableEq, Repr

/-- The input side of the console; `unread` is what the keyboard file still has. `held` and `returned` are history:
the character no `GetChar` has returned yet, and those that were returned. -/
structure Keyboard where
  incoming : Byte
  readAvail : Semaphore Unit
  reader : Reader
  unread : List Byte
  held : Option Byte
  returned : List Byte

namespace Keyboard

def new (input : List Byte) : Keyboard := ⟨.ofInt 8 eof, .new 0, .wait, input, none, []⟩

def readHandler (k : Keyboard) : Keyboard :=
  -- `ReadAvail`: the thread that is woken up looks at the value again
  { k with
    readAvail := k.readAvail.v.2
    reader := if k.readAvail.v.1 = some () then .wait else k.reader }

def checkCharAvail (k : Keyboard) (found : Bool) : Except Fault Keyboard :=
  -- `found` is the answer of `PollFile`; `Read` asserts that there was a byte
  if k.incoming.toInt ≠ eof ∨ found = false then .ok k
  else
    match k.unread with
    | [] => .error .assertion
    | c :: rest => .ok { k with incoming := c, unread := rest, held := some c }.readHandler

def getChar (k : Keyboard) : Byte × Keyboard := (k.incoming, { k with incoming := .ofInt 8 eof })

inductive Action where
  | poll (found : Bool)
  | p
  | getChar
  | again
  deriving DecidableEq

inductive Step (k : Keyboard) : Action → Keyboard → Prop
  | poll {found : Bool} {k' : Keyboard} (h : k.checkCharAvail found = .ok k') : Step k (.poll found) k'
  | p (hr : k.reader = .wait) :
      Step k .p { k with
        readAvail := (k.readAvail.tryP ()).2
        reader := if (k.readAvail.tryP ()).1 then .take else .asleep }
  | getChar {ch : Byte} {k' : Keyboard} (hr : k.reader = .take) (h : k.getChar = (ch, k')) :
      Step k .getChar { k' with reader := .echo, held := none, returned := k.returned ++ [ch] }
  -- the character is echoed; after a `q` the test returns
  | again (hr : k.reader = .echo) (hq : k.returned.getLast? ≠ some 113) : Step k .again { k with reader := .wait }

def Spares (k : Keyboard) : Action → Prop
  | .poll found => found = true → k.held ≠ some 0xFF
  | _ => True

def SparingStep (k : Keyboard) (a : Action) (k' : Keyboard) : Prop := k.Spares a ∧ Step k a k'

def Faithful (input : List Byte) (k : Keyboard) : Prop := k.returned ++ k.held.toList ++ k.unread = input

structure Inv (input : List Byte) (k : Keyboard) : Prop where
  faithful : Faithful input k
  incoming : k.incoming = k.held.getD 0xFF
  nonneg : 0 ≤ k.readAvail.value
  value : k.readAvail.value + (if k.reader = .take then 1 else 0) = if k.held = none then 0 else 1
  queue : k.readAvail.queue = if k.reader = .asleep then [()] else []

variable {input : List Byte} {k k' : Keyboard} {a : Action}

theorem toInt_eq_eof {b : Byte} : b.toInt = eof ↔ b = 0xFF := by
  constructor
  · exact fun h => BitVec.eq_of_toInt_eq h
  · rintro rfl
    rfl

theorem checkCharAvail_cases {found : Bool} (h : k.checkCharAvail found = .ok k') :
    k' = k ∧ (found = true → k.incoming ≠ 0xFF) ∨ found = true ∧ k.incoming = 0xFF ∧ ∃ c rest, k.unread = c :: rest ∧
      k' = { k with incoming := c, unread := rest, held := some c }.readHandler := by
  unfold checkCharAvail at h
  split_ifs at h with hc
  · rw [ne_eq, toInt_eq_eof] at hc
    refine .inl ⟨(Except.ok.inj h).symm, fun hf => hc.resolve_right ?_⟩
    simp [hf]
  · rw [not_or, not_not, toInt_eq_eof, Bool.not_eq_false] at hc
    cases hu : k.unread with
    | nil => simp [hu] at h
    | cons c rest =>
      simp only [hu, Except.ok.injEq] at h
      exact .inr ⟨hc.2, hc.1, c, rest, rfl, h.symm⟩

theorem Inv.new (input : List Byte) : Inv input (.new input) := ⟨rfl, rfl, le_refl _, rfl, rfl⟩

theorem readHandler_eq (h0 : k.readAvail.value = 0) (hq : k.readAvail.queue = if k.reader = .asleep then [()] else []) :
    k.readHandler = { k with readAvail := ⟨1, []⟩, reader := if k.reader = .asleep then .wait else k.reader } := by
  have hw : CInt.wrap 1 = 1 := rfl
  by_cases hr : k.reader = .asleep
  · simp [readHandler, Semaphore.v, h0, hq, hw, hr]
  · simp [readHandler, Semaphore.v, h0, hq, hw, hr]

theorem Inv.read (h : Inv input k) (hheld : k.held = none) {c : Byte} {rest : List Byte} (hu : k.unread = c :: rest) :
    Inv input { k with incoming := c, unread := rest, held := some c }.readHandler := by
  have hv := h.value
  have hn := h.nonneg
  have hf := h.faithful
  rw [if_pos hheld] at hv
  have htake : k.reader ≠ .take := by
    intro hr
    rw [if_pos hr] at hv
    omega
  rw [if_neg htake, add_zero] at hv
  have he := readHandler_eq (k := { k with incoming := c, unread := rest, held := some c }) hv h.queue
  rw [he]
  refine ⟨?_, rfl, Int.one_nonneg, ?_, ?_⟩
  · rw [Faithful, hheld, hu] at hf
    simpa [Faithful] using hf
  · by_cases hr : k.reader = .asleep
    · simp [hr]
    · simp [hr, htake]
  · by_cases hr : k.reader = .asleep
    · simp [hr]
    · simp [hr]

theorem Inv.p (h : Inv input k) (hr : k.reader = .wait) :
    Inv input { k with
      readAvail := (k.readAvail.tryP ()).2
      reader := if (k.readAvail.tryP ()).1 then .take else .asleep } := by
  have hv := h.value
  have hn := h.nonneg
  have hq := h.queue
  simp only [hr, reduceCtorEq, ↓reduceIte, add_zero] at hv hq
  by_cases h0 : k.readAvail.value = 0
  · refine ⟨h.faithful, h.incoming, ?_, ?_, ?_⟩
    · simp [Semaphore.tryP, h0]
    · simpa [Semaphore.tryP, h0] using hv
    · simp [Semaphore.tryP, h0, hq]
  · have h1 : k.readAvail.value = 1 := by
      split_ifs at hv <;> omega
    have hw : CInt.wrap 0 = 0 := rfl
    refine ⟨h.faithful, h.incoming, ?_, ?_, ?_⟩
    · simp [Semaphore.tryP, h1, hw]
    · rw [h1] at hv
      simpa [Semaphore.tryP, h1, hw] using hv
    · simp [Semaphore.tryP, h1, hq]

theorem Inv.held_of_take (h : Inv input k) (hr : k.reader = .take) : k.held = some k.incoming := by
  have hv := h.value
  have hn := h.nonneg
  rw [if_pos hr] at hv
  cases hheld : k.held with
  | none =>
    rw [if_pos hheld] at hv
    omega
  | some c =>
    rw [h.incoming, hheld]
    rfl

theorem Inv.getChar (h : Inv input k) (hr : k.reader = .take) :
    Inv input { k with
      incoming := .ofInt 8 eof, reader := .echo, held := none, returned := k.returned ++ [k.incoming] } := by
  have hheld := h.held_of_take hr
  have hv := h.value
  have hf := h.faithful
  have hq := h.queue
  simp only [hr, hheld, reduceCtorEq, ↓reduceIte] at hv hq
  refine ⟨?_, rfl, h.nonneg, ?_, hq⟩
  · rw [Faithful, hheld] at hf
    simpa [Faithful] using hf
  · simp only [reduceCtorEq, ↓reduceIte]
    omega

theorem Inv.poll_iff (h : Inv input k) {found : Bool} (hs : Step k (.poll found) k') :
    Faithful input k' ↔ k.Spares (.poll found) := by
  cases hs with
  | poll hc =>
    obtain ⟨rfl, hin⟩ | ⟨hfound, hin, c, rest, hu, rfl⟩ := checkCharAvail_cases hc
    · refine iff_of_true h.faithful fun hf hheld => hin hf ?_
      rw [h.incoming, hheld]
      rfl
    · cases hheld : k.held with
      | none => exact iff_of_true (h.read hheld hu).faithful fun _ => by simp [hheld]
      | some b =>
        rw [h.incoming, hheld] at hin
        obtain rfl : b = 0xFF := hin
        refine iff_of_false (fun hf => ?_) fun hspare => hspare hfound hheld
        -- one character fewer than were typed
        have hlen := congrArg List.length (hf.trans h.faithful.symm)
        simp [readHandler, hheld, hu] at hlen

theorem Inv.step (h : Inv input k) (hs : SparingStep k a k') : Inv input k' := by
  obtain ⟨hspare, hs⟩ := hs
  cases hs with
  | poll hc =>
    obtain ⟨rfl, -⟩ | ⟨hfound, hin, c, rest, hu, rfl⟩ := checkCharAvail_cases hc
    · exact h
    · refine h.read ?_ hu
      cases hheld : k.held with
      | none => rfl
      | some b =>
        rw [h.incoming, hheld] at hin
        exact absurd (hheld.trans (congrArg some hin)) (hspare hfound)
  | p hr => exact h.p hr
  | getChar hr hg =>
    obtain ⟨rfl, rfl⟩ := Prod.mk.inj hg
    exact h.getChar hr
  | again hr hq =>
    have hv := h.value
    have hqueue := h.queue
    simp only [hr, reduceCtorEq, ↓reduceIte] at hv hqueue
    exact ⟨h.faithful, h.incoming, h.nonneg, hv, hqueue⟩

theorem Inv.run (h : Reachable (fun k => k = .new input) SparingStep k) : Inv input k :=
  Reachable.invariant (fun _ h0 => h0 ▸ Inv.new input) (fun _ _ _ hi hs => hi.step hs) h

theorem Inv.spares (h : Inv input k) (hin : 0xFF ∉ input) (a : Action) : k.Spares a := by
  cases a with
  | poll found =>
    intro _ hheld
    have hf := h.faithful
    rw [Faithful, hheld] at hf
    exact hin (by simp [← hf])
  | p | getChar | again => trivial

theorem Inv.run_of_not_mem (hin : 0xFF ∉ input) (h : Reachable (fun k => k = .new input) Step k) : Inv input k :=
  Reachable.invariant (fun _ h0 => h0 ▸ Inv.new input) (fun _ a _ hi hs => hi.step ⟨hi.spares hin a, hs⟩) h

/-- What `GetChar` has returned, the character it will return next and what was not read yet are the input, until a
poll takes an unread character with the value of `EOF` for an empty buffer. -/
theorem console_input_faithful (input : List Byte) :
    (∀ k, Reachable (fun k => k = .new input) SparingStep k →
      k.returned ++ k.held.toList ++ k.unread = input ∧ (k.reader = .take → k.held = some k.incoming) ∧
        ∀ found k', Step k (.poll found) k' →
          (k'.returned ++ k'.held.toList ++ k'.unread = input ↔ (found = true → k.held ≠ some 0xFF))) ∧
      (0xFF ∉ input → ∀ k, Reachable (fun k => k = .new input) Step k →
        k.returned ++ k.held.toList ++ k.unread = input) := by
  refine ⟨fun k h => ?_, fun hin k h => (Inv.run_of_not_mem hin h).faithful⟩
  have hi := Inv.run h
  exact ⟨hi.faithful, hi.held_of_take, fun found k' hs => hi.poll_iff hs⟩

theorem console_input_faithful_one : ∃ k : Keyboard, Reachable (fun k => k = .new [0xFF, 65]) SparingStep k ∧
    k.returned = [0xFF] ∧ k.unread = [65] ∧ k.returned ++ k.held.toList ++ k.unread = [0xFF, 65] := by
  have h1 : Reachable (fun k => k = .new [0xFF, 65]) SparingStep ⟨0xFF, ⟨1, []⟩, .wait, [65], some 0xFF, []⟩ :=
    .next (.poll true) (.start rfl) ⟨by simp [Spares, new], .poll rfl⟩
  have h2 : Reachable (fun k => k = .new [0xFF, 65]) SparingStep ⟨0xFF, ⟨0, []⟩, .take, [65], some 0xFF, []⟩ :=
    .next .p h1 ⟨trivial, .p rfl⟩
  have h3 := Reachable.next Action.getChar h2 ⟨trivial, .getChar rfl rfl⟩
  exact ⟨_, h3, rfl, rfl, ((console_input_faithful [0xFF, 65]).1 _ h3).1⟩

theorem console_input_swapped : ∃ k, Reachable (fun k => k = .new [0xFF, 65]) Step k ∧ k.returned = [65, 0xFF] := by
  have h1 : Reachable (fun k => k = .new [0xFF, 65]) Step ⟨0xFF, ⟨1, []⟩, .wait, [65], some 0xFF, []⟩ :=
    .next (.poll true) (.start rfl) (.poll rfl)
  have h2 : Reachable (fun k => k = .new [0xFF, 65]) Step ⟨65, ⟨2, []⟩, .wait, [], some 65, []⟩ :=
    .next (.poll true) h1 (.poll rfl)
  have h3 : Reachable (fun k => k = .new [0xFF, 65]) Step ⟨65, ⟨1, []⟩, .take, [], some 65, []⟩ :=
    .next .p h2 (.p rfl)
  have h4 : Reachable (fun k => k = .new [0xFF, 65]) Step ⟨0xFF, ⟨1, []⟩, .echo, [], none, [65]⟩ :=
    .next .getChar h3 (.getChar rfl rfl)
  have h5 : Reachable (fun k => k = .new [0xFF, 65]) Step ⟨0xFF, ⟨1, []⟩, .wait, [], none, [65]⟩ :=
    .next .again h4 (.again rfl (by decide))
  have h6 : Reachable (fun k => k = .new [0xFF, 65]) Step ⟨0xFF, ⟨0, []⟩, .take, [], none, [65]⟩ :=
    .next .p h5 (.p rfl)
  exact ⟨_, .next .getChar h6 (.getChar rfl rfl), rfl⟩

end Keyboard

end Nachos
