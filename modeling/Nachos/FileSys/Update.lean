import Nachos.FileSys.Transfer

namespace Nachos

open Disk CInt

theorem FileHeader.content_sector (h : FileHeader) (d : Disk) (i : Nat) {o : Nat} (ho : o < sectorSize) :
    h.content d (i * sectorSize + o) = d (h.block i) o := by
  rw [content, Nat.add_comm, Nat.add_mul_div_right _ _ sectorSize_pos, Nat.div_eq_of_lt ho, Nat.zero_add,
    Nat.add_mul_mod_self_right, Nat.mod_eq_of_lt ho]

namespace OpenFile

variable {d : Disk} {h : FileHeader}

theorem readPartial_sector (hv : h.Valid) (heap : Buffer) (buf : Block) (start j : Nat)
    (hj : j * sectorSize < h.len) (hb : (start : Int) + sectorSize ≤ buf.size) :
    ∃ bytes, (do
      let (n, data) ← readAt d h heap sectorSize (wrap (j * sectorSize))
      buf.store start data n) = .ok ⟨buf.size, bytes⟩ ∧
      ∀ k, bytes k = if start ≤ k ∧ k < start + sectorSize ∧ j * sectorSize + (k - start) < h.len
        then h.content d (j * sectorSize + (k - start)) else buf.bytes k := by
  have hl := h.len_le
  have hle := hv.fileLength_eq
  have hsz := hv.size_le
  have hup := hv.len_le_size
  have hnd := numDirect_eq
  have hS := sectorSize_eq
  rw [← Nat.cast_mul]
  rw [hnd] at hsz
  have hub : j * sectorSize < 62 * 256 :=
    (hj.trans_le hup).trans_le (Nat.mul_le_mul hsz (by omega))
  generalize j * sectorSize = q at *
  rw [wrap_of_range (by omega) (by omega)]
  have r : Request h sectorSize q q (min sectorSize (h.len - q)) := by
    constructor <;> omega
  obtain ⟨data, hread, hdata⟩ := readAt_request (d := d) hv r
    (by simp only [intMax]; omega) heap
  refine ⟨buf.bytes.copy start data (min sectorSize (h.len - q)), ?_, ?_⟩
  · rw [hread, ok_bind]
    simp only
    rw [Block.store_of_fits (by omega) (by omega)]
    simp only [Int.toNat_natCast]
  · intro k
    split_ifs with hk
    · rw [Buffer.copy_inside hk.1 (by omega)]
      exact hdata _ (by omega)
    · rw [Buffer.copy_outside (by omega)]

theorem fillFirst (hv : h.Valid) {p a : Nat} (hp : a * sectorSize < h.len)
    (heap : Buffer) (buf : Block) (hbuf : (sectorSize : Int) ≤ buf.size) :
    ∃ bytes, readPartial (¬(p : Int) = wrap (a * sectorSize)) d h heap buf 0 (wrap (a * sectorSize)) =
        .ok ⟨buf.size, bytes⟩ ∧
      (¬(p : Int) = wrap (a * sectorSize) → ∀ k < sectorSize, a * sectorSize + k < h.len →
        bytes k = h.content d (a * sectorSize + k)) ∧
      ∀ k, h.len ≤ a * sectorSize + k → bytes k = buf.bytes k := by
  by_cases hA : (p : Int) = wrap (a * sectorSize)
  · rw [readPartial, if_neg (not_not_intro hA)]
    exact ⟨buf.bytes, rfl, fun hn => absurd hA hn, fun _ _ => rfl⟩
  · rw [readPartial, if_pos hA]
    obtain ⟨bytes, hread, hbytes⟩ := readPartial_sector (d := d) hv heap buf 0 a hp (by omega)
    refine ⟨bytes, hread, fun _ k hk hlen => ?_, fun k hk => ?_⟩
    · rw [hbytes, Nat.sub_zero, if_pos ⟨by omega, by omega, hlen⟩]
    · rw [hbytes, Nat.sub_zero, if_neg (by omega)]

theorem fillLast (hv : h.Valid) {a b e : Nat} (hab : a ≤ b) (hb : b < 62) (hlt : b * sectorSize < h.len)
    (aligned : Prop) [Decidable aligned]
    (heap : Buffer) (buf : Block) (hbuf : buf.size = ((b + 1 - a : Nat) : Int) * sectorSize) :
    ∃ bytes, readPartial (¬(e : Int) = wrap (wrap (b + 1) * sectorSize) ∧ ((a : Int) ≠ b ∨ aligned))
        d h heap buf (wrap (wrap (b - a) * sectorSize)) (wrap (b * sectorSize)) = .ok ⟨buf.size, bytes⟩ ∧
      (∀ k, k < (b + 1 - a) * sectorSize → a * sectorSize + k < h.len →
        bytes k = h.content d (a * sectorSize + k) ∨ bytes k = buf.bytes k ∧
          (k < (b - a) * sectorSize ∨ e = b * sectorSize + sectorSize ∨ (a = b ∧ ¬aligned))) ∧
      ∀ k, h.len ≤ a * sectorSize + k → bytes k = buf.bytes k := by
  have hw (x : Nat) (hx : x ≤ 62) : wrap (wrap x * sectorSize) = (x * sectorSize : Nat) := by
    rw [wrap_of_range (x := (x : Int)) (by omega) (by simp only [intMax]; omega), ← Nat.cast_mul,
      sectorSize_eq, wrap_of_range (by omega) (by simp only [intMax]; push_cast; omega)]
  have hw1 : wrap (wrap ((b : Int) + 1) * sectorSize) = (b * sectorSize + sectorSize : Nat) := by
    have := hw (b + 1) (by omega)
    rwa [Nat.add_mul, Nat.one_mul] at this
  have hw2 : wrap (wrap ((b : Int) - a) * sectorSize) = ((b - a) * sectorSize : Nat) := by
    have := hw (b - a) (by omega)
    rwa [Nat.cast_sub hab] at this
  have hba : (b - a) * sectorSize + a * sectorSize = b * sectorSize := by
    rw [← Nat.add_mul, Nat.sub_add_cancel hab]
  have hba' : (b + 1 - a) * sectorSize = (b - a) * sectorSize + sectorSize := by
    rw [show b + 1 - a = b - a + 1 by omega, Nat.add_mul, Nat.one_mul]
  by_cases hc : ¬(e : Int) = wrap (wrap (b + 1) * sectorSize) ∧ ((a : Int) ≠ b ∨ aligned)
  · rw [readPartial, if_pos hc, hw2]
    obtain ⟨bytes, hread, hbytes⟩ := readPartial_sector (d := d) hv heap buf ((b - a) * sectorSize) b hlt
      (by rw [hbuf, ← Nat.cast_mul, hba', Nat.cast_add])
    have hshift (k : Nat) (hk : (b - a) * sectorSize ≤ k) :
        b * sectorSize + (k - (b - a) * sectorSize) = a * sectorSize + k := by
      clear hbytes hread hw1 hw2 hw hbuf
      omega
    refine ⟨bytes, hread, fun k hk hkl => ?_, fun k hkl => ?_⟩
    · by_cases hkb : k < (b - a) * sectorSize
      · exact .inr ⟨by rw [hbytes, if_neg (fun hn => absurd hn.1 (Nat.not_le.mpr hkb))], .inl hkb⟩
      · left
        rw [hbytes, hshift k (Nat.not_lt.mp hkb),
          if_pos ⟨Nat.not_lt.mp hkb, by rwa [hba'] at hk, hkl⟩]
    · rw [hbytes, if_neg]
      rintro ⟨hk1, -, hk2⟩
      rw [hshift k hk1] at hk2
      omega
  · rw [readPartial, if_neg hc]
    refine ⟨buf.bytes, rfl, fun k _ _ => .inr ⟨rfl, .inr ?_⟩, fun _ _ => rfl⟩
    by_cases hne : e = b * sectorSize + sectorSize
    · exact .inl hne
    · have hne' : ¬(e : Int) = wrap (wrap (b + 1) * sectorSize) := by
        rw [hw1]
        exact_mod_cast hne
      push Not at hc
      obtain ⟨hab', hal⟩ := hc hne'
      exact .inr ⟨by exact_mod_cast hab', hal⟩

structure Span (p n a b : Nat) : Prop where
  le : a ≤ b
  first_le : a * sectorSize ≤ p
  first_lt : p < a * sectorSize + sectorSize
  last_lt : b * sectorSize < p + n
  last_le : p + n ≤ b * sectorSize + sectorSize
  offset : a * sectorSize + p % sectorSize = p
  width : a * sectorSize + (b + 1 - a) * sectorSize = b * sectorSize + sectorSize

theorem Span.fits {p n a b : Nat} (s : Span p n a b) : p % sectorSize + n ≤ (b + 1 - a) * sectorSize := by
  obtain ⟨hle, hf1, hf2, hl1, hl2, hoff, hwidth⟩ := s
  omega

theorem Span.last_lt_len {p n a b l : Nat} (s : Span p n a b) (hn : 0 < n) (hl : p + n ≤ l) :
    a * sectorSize < l ∧ b * sectorSize < l := by
  obtain ⟨hle, hf1, hf2, hl1, hl2, hoff, hwidth⟩ := s
  omega

theorem span (p : Nat) {n : Nat} (hn : 0 < n) : Span p n (p / sectorSize) ((p + n - 1) / sectorSize) := by
  have hle : p / sectorSize ≤ (p + n - 1) / sectorSize := Nat.div_le_div_right (by omega)
  have h1 := Nat.div_add_mod' p sectorSize
  have h2 := Nat.mod_lt p sectorSize_pos
  have h3 := Nat.div_add_mod' (p + n - 1) sectorSize
  have h4 := Nat.mod_lt (p + n - 1) sectorSize_pos
  refine ⟨hle, by omega, by omega, by omega, by omega, h1, ?_⟩
  rw [← Nat.add_mul, Nat.add_sub_cancel' (by omega), Nat.add_mul, Nat.one_mul]

theorem fill_byte {p n a b k : Nat} (s : Span p n a b) {bytes1 bytes2 src : Buffer} {c : Byte}
    (hk : k < (b + 1 - a) * sectorSize) (hfirst : p ≠ a * sectorSize → k < sectorSize → bytes1 k = c)
    (hlast : bytes2 k = c ∨ bytes2 k = bytes1 k ∧
      (k < (b - a) * sectorSize ∨ p + n = b * sectorSize + sectorSize ∨ a = b ∧ p ≠ a * sectorSize)) :
    bytes2.copy (p % sectorSize) src n k =
      if p ≤ a * sectorSize + k ∧ a * sectorSize + k < p + n then src (a * sectorSize + k - p) else c := by
  obtain ⟨hle, hf1, hf2, hl1, hl2, hoff, hwidth⟩ := s
  have hba : (b - a) * sectorSize + a * sectorSize = b * sectorSize := by
    rw [← Nat.add_mul, Nat.sub_add_cancel hle]
  split_ifs with hr
  · rw [Buffer.copy_inside (by omega) (by omega), show a * sectorSize + k - p = k - p % sectorSize by omega]
  · rw [Buffer.copy_outside (by omega)]
    obtain hfile | ⟨hsame, hc | hc | ⟨rfl, hc⟩⟩ := hlast
    · exact hfile
    · rw [hsame]
      exact hfirst (by omega) (by omega)
    · rw [hsame]
      exact hfirst (by omega) (by omega)
    · rw [hsame]
      exact hfirst hc (by omega)

theorem fill (hv : h.Valid) {p n a b : Nat} (s : Span p n a b) (hb : b < 62) (hp : 0 < n)
    (hlen : p + n ≤ h.len) (heap : Heap) (src : Buffer) :
    ∃ bytes1 bytes2, let size := ((b + 1 - a : Nat) : Int) * sectorSize
      readPartial (¬(p : Int) = wrap (a * sectorSize)) d h (heap 1) ⟨size, heap 0⟩ 0
        (wrap (a * sectorSize)) = .ok ⟨size, bytes1⟩ ∧
      readPartial (¬((p + n : Nat) : Int) = wrap (wrap (b + 1) * sectorSize) ∧
        ((a : Int) ≠ b ∨ (p : Int) = wrap (a * sectorSize))) d h (heap 2) ⟨size, bytes1⟩
        (wrap (wrap (b - a) * sectorSize)) (wrap (b * sectorSize)) = .ok ⟨size, bytes2⟩ ∧
      (∀ k, k < (b + 1 - a) * sectorSize → a * sectorSize + k < h.len →
        bytes2.copy (p % sectorSize) src n k =
          if p ≤ a * sectorSize + k ∧ a * sectorSize + k < p + n then src (a * sectorSize + k - p)
          else h.content d (a * sectorSize + k)) ∧
      ∀ k, h.len ≤ a * sectorSize + k → bytes2.copy (p % sectorSize) src n k = heap 0 k := by
  obtain ⟨ha, hbl⟩ := s.last_lt_len hp hlen
  have hsize : (sectorSize : Int) ≤ ((b + 1 - a : Nat) : Int) * sectorSize := by
    have h1 : 1 * sectorSize ≤ (b + 1 - a) * sectorSize := Nat.mul_le_mul_right _ (by have := s.le; omega)
    rw [Nat.one_mul] at h1
    exact_mod_cast h1
  have hw : wrap ((a : Int) * sectorSize) = (a * sectorSize : Nat) := by
    have hl := h.len_le
    rw [← Nat.cast_mul]
    generalize a * sectorSize = q at *
    exact wrap_of_range (by omega) (by omega)
  obtain ⟨bytes1, hfirst, hbytes1, hpast1⟩ := fillFirst (d := d) (p := p) hv ha
    (heap 1) ⟨((b + 1 - a : Nat) : Int) * sectorSize, heap 0⟩ hsize
  obtain ⟨bytes2, hlast, hbytes2, hpast2⟩ := fillLast (d := d) (e := p + n) hv s.le hb hbl
    ((p : Int) = wrap (a * sectorSize)) (heap 2) ⟨((b + 1 - a : Nat) : Int) * sectorSize, bytes1⟩ rfl
  refine ⟨bytes1, bytes2, hfirst, hlast, ?_, ?_⟩
  · intro k hk hkl
    have hb1 := fun hne hlt => hbytes1 hne k hlt hkl
    have hb2 := hbytes2 k hk hkl
    rw [hw] at hb1 hb2
    simp only [Nat.cast_inj] at hb1 hb2
    exact fill_byte s hk hb1 hb2
  · intro k hk
    have hout : p % sectorSize + n ≤ k := by
      have hoff := s.offset
      clear hfirst hlast hw hsize hbytes1 hbytes2 hpast1 hpast2
      omega
    exact (Buffer.copy_outside (.inr hout)).trans ((hpast2 k hk).trans (hpast1 k hk))

/-- What `WriteAt` hands to the disk: bytes of the request, bytes of the file around it, and past the end
of the file whatever the buffer held when it was allocated. -/
theorem writeAt_buffer (hv : h.Valid) {numBytes position : Int} {p n : Nat}
    (r : Request h numBytes position p n) (ho : position + numBytes ≤ intMax) {a b : Nat}
    (ha : a = p / sectorSize) (hb : b = (p + n - 1) / sectorSize) (heap : Heap) (src : Buffer) :
    ∃ bytes, (writeAt d h heap src numBytes position = do
        let d' ← writeSectors d h a ⟨((b + 1 - a : Nat) : Int) * sectorSize, bytes⟩ (b + 1 - a)
        .ok ((n : Int), d')) ∧
      (∀ k, k < (b + 1 - a) * sectorSize → a * sectorSize + k < h.len →
        bytes k = if p ≤ a * sectorSize + k ∧ a * sectorSize + k < p + n then src (a * sectorSize + k - p)
          else h.content d (a * sectorSize + k)) ∧
      ∀ k, h.len ≤ a * sectorSize + k → bytes k = heap 0 k := by
  have hfits := r.fits
  have sp := span p r.pos
  have hcheck := r.check
  have hclip := r.clip_eq ho
  have hoffset := Request.offset_eq r.position_le
  have hfirst := r.first_eq
  have hlast := r.last_eq
  have hnd := numDirect_eq
  rw [r.sum_eq] at hlast
  obtain ⟨hle, hlt⟩ := r.sectors_lt hv
  obtain ⟨hcount, hsize⟩ := Request.span_eq hle (hlt.trans_le hv.size_le)
  rw [← ha] at *
  rw [← hb] at *
  have hb62 : b < 62 := by have := hv.size_le; omega
  obtain ⟨bytes1, bytes2, hfill1, hfill2, hin, hpast⟩ := fill (d := d) hv sp hb62 r.pos hfits heap src
  refine ⟨bytes2.copy (p % sectorSize) src n, ?_, hin, hpast⟩
  have hpos : position = p := r.position_eq
  have hsum := r.sum_eq
  subst hpos
  have hs0 : (0 : Int) ≤ ((b + 1 - a : Nat) : Int) * sectorSize := by
    rw [← Nat.cast_mul]
    exact Int.natCast_nonneg _
  have hs1 : ((p % sectorSize : Nat) : Int) + n ≤ ((b + 1 - a : Nat) : Int) * sectorSize := by
    exact_mod_cast sp.fits
  simp only [writeAt, if_neg hcheck, hclip, hfirst, hsum, hlast, hcount, hsize, hoffset]
  rw [Block.new_of_nonneg hs0, ok_bind, hfill1, ok_bind, hfill2, ok_bind,
    Block.store_of_fits (by omega) hs1, ok_bind]
  simp only [Int.toNat_natCast]

theorem writeAt_sectors (hv : h.Valid) {numBytes position : Int} {p n : Nat} (r : Request h numBytes position p n)
    (ho : position + numBytes ≤ intMax) (heap : Heap) (src : Buffer) :
    ∃ d', writeAt d h heap src numBytes position = .ok ((n : Int), d') ∧
      (∀ i < h.size, ∀ o < sectorSize, d' (h.block i) o =
        if i < p / sectorSize ∨ (p + n - 1) / sectorSize < i then d (h.block i) o
        else if h.len ≤ i * sectorSize + o then heap 0 ((i - p / sectorSize) * sectorSize + o)
        else if p ≤ i * sectorSize + o ∧ i * sectorSize + o < p + n then src (i * sectorSize + o - p)
        else d (h.block i) o) ∧
      ∀ s, s ∉ h.blocks h.size → d' s = d s := by
  obtain ⟨hle, hlt⟩ := r.sectors_lt hv
  generalize ha : p / sectorSize = a at *
  generalize hb : (p + n - 1) / sectorSize = b at *
  obtain ⟨bytes, hwrites, hbytes, hpast⟩ := writeAt_buffer (d := d) hv r ho ha.symm hb.symm heap src
  obtain ⟨d', hwrite, hin, hout⟩ := writeSectors_spec (d := d) hv a
    ⟨((b + 1 - a : Nat) : Int) * sectorSize, bytes⟩ (b + 1 - a) (by omega) (le_refl _)
  refine ⟨d', by rw [hwrites, hwrite, ok_bind], ?_,
    fun s hs => hout s (fun i hi hc => hs (hc ▸ FileHeader.Valid.block_mem (by omega)))⟩
  intro i hi o hos
  split_ifs with hab hl hr
  · rw [hout]
    intro j hj hc
    have hij := hv.block_inj (by omega) hi hc
    omega
  all_goals
    obtain ⟨j, rfl⟩ := Nat.exists_eq_add_of_le (show a ≤ i by omega)
    have hk : a * sectorSize + (j * sectorSize + o) = (a + j) * sectorSize + o := by
      rw [Nat.add_mul, Nat.add_assoc]
    have hju : j * sectorSize + o < (b + 1 - a) * sectorSize := by
      have hm := Nat.mul_le_mul_right sectorSize (show j + 1 ≤ b + 1 - a by omega)
      rw [Nat.add_mul, Nat.one_mul] at hm
      omega
    rw [hin j (by omega) o hos]
  · rw [Nat.add_sub_cancel_left]
    exact hpast _ (by rw [hk]; exact hl)
  · have hb' := hbytes _ hju (by rw [hk]; omega)
    rwa [hk, if_pos hr] at hb'
  · have hb' := hbytes _ hju (by rw [hk]; omega)
    rwa [hk, if_neg hr, FileHeader.content_sector h d _ hos] at hb'

theorem writeAt_request (hv : h.Valid) {numBytes position : Int} {p n : Nat}
    (r : Request h numBytes position p n) (ho : position + numBytes ≤ intMax) (heap : Heap) (src : Buffer) :
    ∃ d', writeAt d h heap src numBytes position = .ok ((n : Int), d') ∧
      (∀ i : Nat, (i : Int) < h.fileLength →
        h.content d' i = if p ≤ i ∧ i < p + n then src (i - p) else h.content d i) ∧
      ∀ s, s ∉ h.blocks h.size → d' s = d s := by
  obtain ⟨d', he, hsectors, hframe⟩ := writeAt_sectors (d := d) hv r ho heap src
  refine ⟨d', he, ?_, hframe⟩
  intro i hi
  have hil : i < h.len := by rw [hv.fileLength_eq] at hi; omega
  have hin : i / sectorSize < h.size := (Nat.div_lt_iff_lt_mul sectorSize_pos).mpr (hil.trans_le hv.len_le_size)
  rw [FileHeader.content, hsectors _ hin _ (Nat.mod_lt i sectorSize_pos), Nat.div_add_mod', FileHeader.content]
  by_cases hr : p ≤ i ∧ i < p + n
  · have hfirst : p / sectorSize ≤ i / sectorSize := Nat.div_le_div_right hr.1
    have hlast : i / sectorSize ≤ (p + n - 1) / sectorSize := Nat.div_le_div_right (by omega)
    rw [if_neg (by omega), if_neg (by omega), if_pos hr]
  · rw [if_neg hr, if_neg (by omega : ¬h.len ≤ i), ite_self]

end OpenFile

end Nachos
