import Nachos.Machine.Decode
import Nachos.Lib.WordArith
import Nachos.Lib.WordExtend

namespace Nachos.Instruction

open WordArith

def formatOf : OpCode → Format
  | .j | .jal => .jfmt
  | .sll | .srl | .sra | .sllv | .srlv | .srav | .jr | .jalr | .syscall | .mfhi | .mthi | .mflo | .mtlo
  | .mult | .multu | .div | .divu | .add | .addu | .sub | .subu | .and | .or | .xor | .nor | .slt | .sltu => .rfmt
  | _ => .ifmt

def Listed (op : OpCode) : Prop := op ≠ .res ∧ op ≠ .unimp

instance (op : OpCode) : Decidable (Listed op) := inferInstanceAs (Decidable (_ ∧ _))

theorem special_format : ∀ i, (opTable.get i).opCode = .special → (opTable.get i).format = .rfmt := by decide

theorem bcond_format : ∀ i, (opTable.get i).opCode = .bcond → (opTable.get i).format = .ifmt := by decide

theorem specialTable_format : ∀ i, Listed (specialTable.get i) → formatOf (specialTable.get i) = .rfmt := by decide

theorem opTable_format : ∀ i, (opTable.get i).opCode ≠ .special → Listed (opTable.get i).opCode →
    (opTable.get i).format = formatOf (opTable.get i).opCode := by decide

theorem decodeBCond_format (w : Word) : formatOf (decodeBCond w) = .ifmt := by
  simp only [decodeBCond]
  split_ifs <;> rfl

theorem decode_extra {w : Word} (h : Listed (decode w).opCode) :
    (decode w).extra = decodeExtra w (formatOf (decode w).opCode) := by
  change decodeExtra w _ = _
  apply congrArg
  simp only [decode] at h ⊢
  split_ifs at h ⊢ with hs hb
  · rw [special_format _ hs, specialTable_format _ h]
  · rw [bcond_format _ hb, decodeBCond_format]
  · exact opTable_format _ hs h

theorem low5_shift (w : Word) (n : Nat) : low5 (w >>> n) = Fin.ofNat 32 (w.toNat / 2 ^ n) := by
  apply Fin.ext
  simp [low5, Nat.shiftRight_eq_div_pow]

theorem low_half (w : Word) : (w &&& 0xffff).toNat = w.toNat % 2 ^ 16 := toNat_and_low w 16 (by decide)

theorem extra_rfmt (w : Word) : (decodeExtra w .rfmt).toNat = w.toNat / 2 ^ 6 % 32 := by
  have h := toNat_and_low (w >>> 6) 5 (by decide)
  rw [BitVec.toNat_ushiftRight, Nat.shiftRight_eq_div_pow] at h
  exact h

theorem extra_jfmt (w : Word) : (decodeExtra w .jfmt).toNat = w.toNat % 2 ^ 26 := toNat_and_low w 26 (by decide)

theorem low_bits (w : Word) : ∀ i ≤ 15, (w &&& 0xffff).getLsbD i = (w.setWidth 16).getLsbD i := by
  intro i hi
  have hlt : i < 16 := Nat.lt_succ_of_le hi
  rw [BitVec.getLsbD_and, bits_ffff i (by omega), BitVec.getLsbD_setWidth]
  simp [hi, hlt]

theorem extra_ifmt (w : Word) : decodeExtra w .ifmt = .ofInt 32 (w.setWidth 16).toInt := by
  change _ = (w.setWidth 16).signExtend 32
  have hsame : w &&& 0xffff &&& 0xffff = w &&& 0xffff := by rw [BitVec.and_assoc, BitVec.and_self]
  have hbit : w &&& 0xffff &&& 0x8000 ≠ 0 ↔ (w &&& 0xffff).getLsbD 15 = true := bit_iff (by decide) bits_8000 _
  rw [← extend_signed bits_ffff0000 bits_ffff (w &&& 0xffff) (low_bits w), hsame]
  simp only [decodeExtra, hbit]

theorem extra_low (w : Word) : decodeExtra w .ifmt &&& 0xffff = .ofNat 32 (w.toNat % 2 ^ 16) := by
  have hw : w &&& 0xffff = .ofNat 32 (w.toNat % 2 ^ 16) := by
    rw [← low_half, BitVec.ofNat_toNat, BitVec.setWidth_eq]
  rw [← hw]
  apply BitVec.eq_of_getLsbD_eq
  intro i hi
  simp only [decodeExtra]
  split_ifs
  · rw [BitVec.getLsbD_and, BitVec.getLsbD_or, bits_ffff i hi, bits_ffff0000 i hi, BitVec.getLsbD_and, bits_ffff i hi]
    by_cases h15 : i ≤ 15
    · simp [h15, Nat.not_lt.mpr h15]
    · simp [h15]
  · rw [BitVec.getLsbD_and, BitVec.getLsbD_and, bits_ffff i hi]
    by_cases h15 : i ≤ 15 <;> simp [h15]

end Nachos.Instruction
