import Nachos.FileSys.Lockstep

namespace Nachos

open Disk CInt FileSystem Layout

namespace Handle

def reopen (h : Handle) (fs : FileSystem) (d : Disk) (heap : Heap) : Except Fault Handle :=
  -- `Open` by the handle's name again; a handle of a removed file cannot be reopened and stays as it is
  match h.standing with
  | .live => do
    let sector ← fs.lookup d heap h.name
    let file ← fs.openFile d heap h.name
    match file with
    | none => .error .outOfBounds
    | some file => .ok ⟨file, h.name, sector, .live⟩
  | .removed => .ok h
  | .overtaken => .ok h

def resume (h : Handle) (fs : FileSystem) (d : Disk) (heap : Heap) : Except Fault Handle := do
  let h' ← h.reopen fs d heap
  .ok { h' with file := h'.file.seek h.file.seekPosition }

end Handle

namespace Session

def remountWith (again : Handle → FileSystem → Disk → Heap → Except Fault Handle) (s : Session) (heap : Heap) :
    Except Fault Session := do
  let fs ← FileSystem.mount s.disk
  let handles ← s.handles.mapM fun h => again h fs s.disk heap
  .ok { s with fs := fs, handles := handles }

def remount : Session → Heap → Except Fault Session := remountWith Handle.reopen

def remountAt : Session → Heap → Except Fault Session := remountWith Handle.resume

end Session

namespace Handle

variable {d : Disk} {h : Handle}

def rewound (h : Handle) : Handle := { h with file := h.file.seek 0 }

theorem against_rewound (marked : Finset Nat) (h : Handle) :
    (h.against marked).rewound = h.rewound.against marked := by
  by_cases hs : h.standing = .live
  · rw [against, against, if_pos hs, if_pos (show h.rewound.standing = .live from hs)]
  · rw [against, against, if_neg hs, if_neg (show ¬h.rewound.standing = .live from hs)]
    rfl

theorem afterRemove_rewound (sector : Int) (h : Handle) :
    (h.afterRemove sector).rewound = h.rewound.afterRemove sector := by
  by_cases hs : h.standing = .live ∧ h.sector = sector <;> simp [afterRemove, rewound, hs]

theorem Good.reopen (hg : h.Good d) (hc : Consistent d) (heap : Heap) :
    ∃ h', h.reopen (opened d) d heap = .ok h' ∧ h'.rewound = h.rewound := by
  cases hst : h.standing with
  | live =>
    obtain ⟨i, hl⟩ := hg.live hst
    have hf := Directory.findIndex_unique hc.unique hl.inUse hl.key
    have hlookup := lookup_ok hc (opened_mounted d) heap h.name
    rw [find_of_inUse hc hf] at hlookup
    obtain ⟨hnone, -⟩ | ⟨j, hj, he⟩ := openFile_cases hc (opened_mounted d) heap h.name
    · exact absurd (hf.symm.trans hnone) (by simp)
    obtain rfl : i = j := Option.some.inj (hf.symm.trans hj)
    refine ⟨⟨⟨fileHeader d i, 0⟩, h.name, entrySector d i, .live⟩,
      by simp only [Handle.reopen, hst, hlookup, he, ok_bind], ?_⟩
    obtain ⟨⟨hdr, pos⟩, name, sector, standing⟩ := h
    obtain rfl : standing = .live := hst
    simp only [rewound, OpenFile.seek, Handle.mk.injEq, OpenFile.mk.injEq, and_true, true_and]
    exact ⟨hl.header.symm, hl.sector.symm⟩
  | removed => exact ⟨h, by simp only [Handle.reopen, hst], rfl⟩
  | overtaken => exact ⟨h, by simp only [Handle.reopen, hst], rfl⟩

theorem resumed {h' : Handle} (hr : h'.rewound = h.rewound) :
    { h' with file := h'.file.seek h.file.seekPosition } = h := by
  obtain ⟨⟨hdr, pos⟩, name, sector, standing⟩ := h
  obtain ⟨⟨hdr', pos'⟩, name', sector', standing'⟩ := h'
  simpa [rewound, OpenFile.seek] using hr

theorem Good.resume (hg : h.Good d) (hc : Consistent d) (heap : Heap) : h.resume (opened d) d heap = .ok h := by
  obtain ⟨h', he, hr⟩ := hg.reopen hc heap
  simp only [Handle.resume, he, ok_bind, resumed hr]

end Handle

theorem mapM_ok {α β γ : Type} {f : α → Except Fault β} {g : β → γ} {e : α → γ} {l : List α}
    (h : ∀ a ∈ l, ∃ b, f a = .ok b ∧ g b = e a) : ∃ l', l.mapM f = .ok l' ∧ l'.map g = l.map e := by
  induction l with
  | nil => exact ⟨[], rfl, rfl⟩
  | cons a l ih =>
    obtain ⟨b, hb, hg⟩ := h a (List.mem_cons_self ..)
    obtain ⟨l', hl, hm⟩ := ih (fun a ha => h a (List.mem_cons_of_mem _ ha))
    exact ⟨b :: l', by rw [List.mapM_cons, hb, ok_bind, hl, ok_bind]; rfl, by simp [hg, hm]⟩

namespace Session

variable {s s' : Session}

structure Agree (s s' : Session) : Prop where
  disk : s'.disk = s.disk
  fs : s'.fs = s.fs
  handles : s'.handles.map Handle.rewound = s.handles.map Handle.rewound

theorem Agree.handle (ha : Agree s s') (k : Nat) :
    (s.handles[k]? = none ∧ s'.handles[k]? = none) ∨
      ∃ h h', s.handles[k]? = some h ∧ s'.handles[k]? = some h' ∧ h'.rewound = h.rewound := by
  have hk := congrArg (·[k]?) ha.handles
  simp only [List.getElem?_map] at hk
  cases h : s.handles[k]? with
  | none => exact .inl ⟨rfl, by simpa [h] using hk⟩
  | some f =>
    rw [h, Option.map_some, Option.map_eq_some_iff] at hk
    obtain ⟨f', hf, hr⟩ := hk
    exact .inr ⟨f, f', rfl, hf, hr⟩

theorem hdr_of_rewound {h h' : Handle} (hr : h'.rewound = h.rewound) : h'.file.hdr = h.file.hdr :=
  congrArg (fun h => h.file.hdr) hr

theorem Agree.map {d d' : Disk} {fs : FileSystem} {l l' : List Handle} (ha : Agree ⟨d, fs, l⟩ ⟨d, fs, l'⟩)
    {f : Handle → Handle} (hf : ∀ h, (f h).rewound = f h.rewound) :
    Agree ⟨d', fs, l.map f⟩ ⟨d', fs, l'.map f⟩ := by
  refine ⟨rfl, rfl, ?_⟩
  have he : (Handle.rewound ∘ f) = f ∘ Handle.rewound := funext hf
  have hl : l'.map Handle.rewound = l.map Handle.rewound := ha.handles
  rw [List.map_map, List.map_map, he, ← List.map_map, ← List.map_map, hl]

theorem Agree.setFile (ha : Agree s s') {k : Nat} {h h' : Handle} (hr : h'.rewound = h.rewound) (position : Int) :
    Agree (s.setFile k h (h.file.seek position)) (s'.setFile k h' (h'.file.seek position)) := by
  refine ⟨ha.disk, ha.fs, ?_⟩
  simp only [Session.setFile, List.map_set, ha.handles]
  exact congrArg (fun h => (s.handles.map Handle.rewound).set k h) hr

inductive Same : Except Fault (Session × Result) → Except Fault (Session × Result) → Prop where
  | error (e : Fault) : Same (.error e) (.error e)
  | ok {t t' : Session} (r : Result) : Agree t t' → Same (.ok (t, r)) (.ok (t', r))

theorem Same.bind {α : Type} {x : Except Fault α} {f f' : α → Except Fault (Session × Result)}
    (h : ∀ a, Same (f a) (f' a)) : Same (x >>= f) (x >>= f') := by
  cases x with
  | error e => exact .error e
  | ok a => exact h a

theorem Agree.step (ha : Agree s s') (heap : Heap) {op : Op} (hp : op.Positional) :
    Same (s.step heap op) (s'.step heap op) := by
  obtain ⟨d, fs, l⟩ := s
  obtain ⟨d', fs', l'⟩ := s'
  obtain rfl : d' = d := ha.disk
  obtain rfl : fs' = fs := ha.fs
  have hl : l'.map Handle.rewound = l.map Handle.rewound := ha.handles
  cases op with
  | create name size =>
    apply Same.bind
    rintro ⟨success, d⟩
    cases success with
    | false => exact .ok _ ⟨rfl, rfl, hl⟩
    | true => exact .ok _ (ha.map (Handle.against_rewound _))
  | openFile name =>
    apply Same.bind
    intro sector
    apply Same.bind
    rintro (_ | file)
    · exact .ok _ ha
    · exact .ok _ ⟨rfl, rfl, by simp [hl]⟩
  | remove name =>
    apply Same.bind
    intro sector
    apply Same.bind
    rintro ⟨success, d⟩
    cases success with
    | false => exact .ok _ ⟨rfl, rfl, hl⟩
    | true =>
      exact .ok _ (ha.map fun h => by rw [Handle.against_rewound, Handle.afterRemove_rewound])
  | seek k position =>
    simp only [Session.step, withHandle]
    obtain ⟨h, h'⟩ | ⟨f, f', h, h', hr⟩ := ha.handle k
    · simp only [h, h']
      exact .ok _ ha
    · simp only [h, h']
      exact .ok _ (ha.setFile hr position)
  | readAt k numBytes position =>
    simp only [Session.step, withHandle]
    obtain ⟨h, h'⟩ | ⟨f, f', h, h', hr⟩ := ha.handle k
    · simp only [h, h']
      exact .ok _ ha
    · simp only [h, h', hdr_of_rewound hr]
      apply Same.bind
      rintro ⟨n, data⟩
      exact .ok _ ha
  | writeAt k src numBytes position =>
    simp only [Session.step, withHandle]
    obtain ⟨h, h'⟩ | ⟨f, f', h, h', hr⟩ := ha.handle k
    · simp only [h, h']
      exact .ok _ ha
    · simp only [h, h', hdr_of_rewound hr]
      apply Same.bind
      rintro ⟨n, d⟩
      exact .ok _ ⟨rfl, rfl, hl⟩
  | read k numBytes => exact absurd hp (by simp [Op.Positional])
  | write k src numBytes => exact absurd hp (by simp [Op.Positional])

def observed (x : Except Fault (Session × List Result)) : Except Fault (Disk × List Result) := do
  let (s, rs) ← x
  .ok (s.disk, rs)

theorem Agree.run (ha : Agree s s') {ops : List (Heap × Op)} (hp : ∀ a ∈ ops, a.2.Positional) :
    observed (s'.run ops) = observed (s.run ops) := by
  induction ops generalizing s s' with
  | nil => simp only [Session.run, observed, ok_bind, ha.disk]
  | cons a ops ih =>
    have hs := ha.step a.1 (hp a (List.mem_cons_self ..))
    simp only [Session.run]
    generalize s.step a.1 a.2 = x, s'.step a.1 a.2 = x' at hs
    cases hs with
    | error e => rfl
    | @ok t t' r ht =>
      have hrun := ih ht (fun b hb => hp b (List.mem_cons_of_mem _ hb))
      simp only [ok_bind]
      generalize t.run ops = y, t'.run ops = y' at hrun
      cases y <;> cases y' <;> simp_all [observed]

theorem Inv.remount (hi : s.Inv) (heap : Heap) : ∃ s', s.remount heap = .ok s' ∧ Agree s s' := by
  obtain ⟨l, hl, hm⟩ := mapM_ok (f := fun h => h.reopen (FileSystem.opened s.disk) s.disk heap) (g := Handle.rewound)
    (e := Handle.rewound) (fun h hh => (hi.handles h hh).reopen hi.consistent heap)
  refine ⟨⟨s.disk, FileSystem.opened s.disk, l⟩, ?_, rfl, hi.fs.symm, hm⟩
  simp only [Session.remount, remountWith, mount_ok, ok_bind, hl]

theorem Inv.remountAt (hi : s.Inv) (heap : Heap) : s.remountAt heap = .ok s := by
  obtain ⟨l, hl, hm⟩ := mapM_ok (f := fun h => h.resume (FileSystem.opened s.disk) s.disk heap) (g := id)
    (e := id) (fun h hh => ⟨h, (hi.handles h hh).resume hi.consistent heap, rfl⟩)
  rw [List.map_id, List.map_id] at hm
  rw [← hi.fs] at hl
  simp only [Session.remountAt, remountWith, mount_ok, ok_bind, ← hi.fs, hl, hm]

theorem Inv.agree (hi : s.Inv) (ha : Agree s s') : s'.Inv := by
  refine ⟨ha.disk ▸ hi.consistent, ha.fs.trans (ha.disk ▸ hi.fs), fun h' hh => ?_⟩
  obtain ⟨h, hm, hr⟩ := List.mem_map.mp (ha.handles ▸ List.mem_map_of_mem hh)
  have hg := ((hi.handles h hm).withFile (f := h.file.seek 0) rfl)
  rw [show { h with file := h.file.seek 0 } = h'.rewound from hr, ← ha.disk] at hg
  exact hg.withFile (f := h'.file) rfl

theorem Agree.alike (ha : Agree s s') (hi : s.Inv) (known : Known) : Alike False known s s' := by
  refine ⟨hi, hi.agree ha, ha.disk ▸ .refl known _, ?_⟩
  have he : List.Forall₂ Eq (s'.handles.map Handle.rewound) (s.handles.map Handle.rewound) :=
    List.forall₂_eq_eq_eq ▸ ha.handles
  rw [List.forall₂_map_left_iff, List.forall₂_map_right_iff] at he
  refine he.flip.imp fun h h' hr => ⟨(congrArg Handle.name hr :), (congrArg Handle.sector hr :),
    (congrArg Handle.standing hr :), ?_, False.elim⟩
  rw [hdr_of_rewound hr]
  exact .refl _

theorem Inv.alike (hi : s.Inv) (placed : Prop) (known : Known) : Alike placed known s s :=
  ⟨hi, hi, .refl known _, List.forall₂_same.mpr fun _ _ => ⟨rfl, rfl, rfl, .refl _, fun _ => rfl⟩⟩

structure Runs where
  plain : Session
  again : Session
  known : Known

namespace Runs

structure Step (placed : Prop) (p : Runs) (a : Heap × Heap × Op) (q : Runs) : Prop where
  permitted : p.plain.Permitted (· = .live) (· = .live) a.2.2
  within : a.2.2.Within
  placed : placed ∨ a.2.2.Positional
  steps : ∃ r r', p.plain.step a.1 a.2.2 = .ok (q.plain, r) ∧ p.again.step a.2.1 a.2.2 = .ok (q.again, r') ∧
    q.known = knownAfter p.known p.plain q.plain a.2.2 r

def From (s s' : Session) (p : Runs) : Prop := p = ⟨s, s', fun _ _ => True⟩

theorem reachable_alike {placed : Prop} (ha : Alike placed (fun _ _ => True) s s') {p : Runs}
    (hr : Reachable (From s s') (Step placed) p) : Alike placed p.known p.plain p.again := by
  apply hr.invariant (I := fun p => Alike placed p.known p.plain p.again)
  · rintro _ rfl
    exact ha
  · rintro p ⟨heap, heap', op⟩ q hi ⟨hp, hw, hpl, r, r', he, he', hk⟩
    obtain ⟨t, t', r1, r1', hs⟩ := hi.step heap heap' hp hw hpl
    obtain ⟨rfl, rfl⟩ := Prod.mk.inj (Except.ok.inj (hs.step.symm.trans he))
    obtain ⟨rfl, -⟩ := Prod.mk.inj (Except.ok.inj (hs.step'.symm.trans he'))
    exact hk ▸ hs.alike

end Runs

/-- No operation, and nothing left on the disk, tells the second run from the first, whatever uninitialised
memory holds in either. -/
structure Unnoticed (placed : Prop) (s s' : Session) : Prop where
  disk : ∀ p, Reachable (Runs.From s s') (Runs.Step placed) p → Layout.Alike p.known p.plain.disk p.again.disk
  contents : ∀ p, Reachable (Runs.From s s') (Runs.Step placed) p → ∀ i, InUse p.plain.disk i →
    ∀ y < (fileHeader p.plain.disk i).len, p.known.content (fileHeader p.plain.disk i) y →
      (fileHeader p.again.disk i).content p.again.disk y = (fileHeader p.plain.disk i).content p.plain.disk y
  results : ∀ p, Reachable (Runs.From s s') (Runs.Step placed) p → ∀ heap heap' op,
    p.plain.Permitted (· = .live) (· = .live) op → op.Within → (placed ∨ op.Positional) →
      ∃ t t' r r', p.plain.step heap op = .ok (t, r) ∧ p.again.step heap' op = .ok (t', r') ∧
        r.Alike (Seen p.known p.plain op) r'

theorem Alike.unnoticed {placed : Prop} (ha : Alike placed (fun _ _ => True) s s') : Unnoticed placed s s' := by
  refine ⟨fun p hr => (Runs.reachable_alike ha hr).disk, fun p hr i hi y hy hk => ?_,
    fun p hr heap heap' op hp hw hpl => ?_⟩
  · have hp := Runs.reachable_alike ha hr
    exact hp.disk.content hp.inv.consistent hi hy hk
  · obtain ⟨t, t', r, r', hs⟩ := (Runs.reachable_alike ha hr).step heap heap' hp hw hpl
    exact ⟨t, t', r, r', hs.step, hs.step', hs.result⟩

/-- Remounting goes unnoticed: by every operation when the handles are put back where they stood, and by
those that name their position in any case; with the same memory in both runs, without exception. -/
theorem remount_equivalent (s : Session) (hr : Reached (· = .live) (· = .live) s) (heap : Heap) :
    (∃ s', s.remountAt heap = .ok s' ∧ Unnoticed True s s' ∧ ∀ ops, s'.run ops = s.run ops) ∧
      ∃ s', s.remount heap = .ok s' ∧ Unnoticed False s s' ∧ ∀ ops, (∀ a ∈ ops, a.2.Positional) →
        observed (s'.run ops) = observed (s.run ops) := by
  have hi := hr.live.inv
  obtain ⟨s', he, ha⟩ := hi.remount heap
  exact ⟨⟨s, hi.remountAt heap, (hi.alike True _).unnoticed, fun _ => rfl⟩, s', he, (ha.alike hi _).unnoticed,
    fun _ hp => ha.run hp⟩

theorem remount_equivalent_opened :
    ∃ (s s' t t' : Session) (n : Int) (data : List Byte), s.handles.length = 1 ∧ s.remountAt (fun _ _ => 0) = .ok s' ∧
      s.step (fun _ _ => 0) (.readAt 0 256 0) = .ok (t, .bytes n data) ∧
      s'.step (fun _ _ => 1) (.readAt 0 256 0) = .ok (t', .bytes n data) := by
  have hmax : (256 : Int) ≤ maxFileSize := by rw [maxFileSize_eq]; decide
  obtain ⟨d, d1, fs, i, -, hcr, hr, -⟩ := opened_file (· = .live) (· = .live)
  obtain ⟨⟨s', he, hn, -⟩, -⟩ := remount_equivalent _ hr (fun _ _ => 0)
  obtain ⟨data, hread, -⟩ := OpenFile.readAt_law d1 (hcr.consistent.valid i hcr.inUse) (fun _ => 0) 256 0 (by decide)
    (by decide)
  obtain ⟨t, t', r, r', hs, hs', halike⟩ := hn.results _ (.start rfl) (fun _ _ => 0) (fun _ _ => 1) (.readAt 0 256 0)
    ⟨by decide, by decide, by rintro h ⟨⟩; rfl⟩ hmax (.inl trivial)
  have hplain := @step_readAt ⟨d1, fs, [⟨⟨fileHeader d1 i, 0⟩, nameA, entrySector d1 i, .live⟩]⟩ (fun _ _ => 0) 0 _ rfl
    _ _ _ _ hread
  obtain ⟨rfl, rfl⟩ := Prod.mk.inj (Except.ok.inj (hplain.symm.trans hs))
  cases r' with
  | bytes n data' =>
    obtain ⟨rfl, -, hsame⟩ := halike
    rw [List.ext_getElem? fun k => hsame k fun _ _ _ => trivial] at hs'
    exact ⟨_, s', _, t', _, _, rfl, he, hs, hs'⟩
  | flag success => cases halike
  | count n => cases halike
  | done => cases halike

theorem sector_one (b : Byte) : (FileHeader.decode fun _ => b).sector 1 = (b ++ b ++ b ++ b).toInt := by
  have hd : 1 < numDirect := by rw [numDirect_eq]; decide
  simp only [FileHeader.sector, hd, ↓reduceDIte, FileHeader.decode, Buffer.wordAt]

theorem remount_differs :
    ¬∀ s, Reached (· = .live) (· = .live) s → ∀ heap s', s.remountAt heap = .ok s' →
      ∀ p, Reachable (Runs.From s s') (Runs.Step True) p → ∀ i, InUse p.plain.disk i → ∀ k < sectorSize,
        p.again.disk (entrySector p.plain.disk i) k = p.plain.disk (entrySector p.plain.disk i) k := by
  -- `Create` leaves in the header what its memory held, so the two headers differ
  have hmax : (256 : Int) ≤ maxFileSize := by rw [maxFileSize_eq]; decide
  obtain ⟨s, hs, hi, -, hempty⟩ := start_ok (fun _ _ => 0) (fun _ _ => 0)
  have hnot := not_refused hi.consistent hempty nameA (one_sector (n := 256) (by decide) (by decide)).le
  have hcreate (heap : Heap) : ∃ d1 i t, s.step heap (.create nameA 256) = .ok (t, .flag true) ∧ t.disk = d1 ∧
      Created s.disk nameA 256 i d1 ∧ (fileHeader d1 i).sector 1 = (FileHeader.decode (heap 4)).sector 1 := by
    obtain ⟨href, -⟩ | ⟨d1, i, he, hcr, hrest⟩ := create_cases hi.consistent hi.mounted heap nameA (by decide) hmax
    · exact absurd href hnot
    · refine ⟨d1, i, { s with disk := d1, handles := s.handles.map (·.against (freeMap d1).marked) },
        by rw [step, he]; rfl, rfl, hcr, hrest 1 ?_⟩
      rw [FileHeader.size, (hcr.consistent.valid i hcr.inUse).numSectors, hcr.length,
        one_sector (by decide) (by decide)]
      decide
  obtain ⟨d0, i, t, ht, rfl, hcr, h0⟩ := hcreate fun _ _ => 0
  obtain ⟨d1, i', t', ht', rfl, hcr', h1⟩ := hcreate fun _ _ => 1
  have hsector : entrySector t'.disk i' = entrySector t.disk i :=
    (List.cons.inj (hcr'.sectors.trans hcr.sectors.symm)).1
  have hstep : Runs.Step True ⟨s, s, fun _ _ => True⟩ (fun _ _ => 0, fun _ _ => 1, .create nameA 256)
      ⟨t, t', knownAfter (fun _ _ => True) s t (.create nameA 256) (.flag true)⟩ :=
    ⟨⟨by decide, hmax⟩, trivial, .inl trivial, _, _, ht, ht', rfl⟩
  intro hall
  have hsame := hall s (.start ⟨_, _, hs⟩) (fun _ _ => 0) s (hi.remountAt _) _ (.next _ (.start rfl) hstep) i hcr.inUse
  have hheader : fileHeader t'.disk i' = fileHeader t.disk i := by
    rw [fileHeader, fileHeader, header, header, hsector]
    exact FileHeader.decode_congr hsame
  rw [hheader, h0, sector_one, sector_one] at h1
  exact absurd h1 (by decide)

end Session

end Nachos
