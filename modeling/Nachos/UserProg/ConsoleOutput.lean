import Nachos.UserProg.Assembly

namespace Nachos.Kernel

open AddrSpace Buffer Processor

variable {k k₀ k' : Kernel} {s : AddrSpace} {f executable : UnixFile} {filename : Name} {noffH : NoffHeader} {c : Nat}
  {d e : Computer}

theorem Executes.shown (h : Executes c d k e) : k.Shown e.processor := by
  obtain ⟨s, f, hv, -⟩ := h.runs.view
  exact ⟨s, f, hv⟩

theorem startProcess_executes (c : Nat) (hb : k.Booted) (he : k.files filename = some executable)
    (hh : readHeader k.host k.garbage executable = .ok noffH) (hw : noffH.size.toNat ≤ 2 ^ 32 - 256)
    (h : k.startProcess filename = .ok (some k₀)) (hs : k₀.space = .ok s) (hf : k₀.files s.swapFileName = some f)
    (hc : s.numPages.toNat ≤ numPhysPages + c) :
    Executes c ⟨.boot f.bytes (s.numPages.toNat * pageSize), k₀.output 1⟩ k₀
      ⟨.boot f.bytes (s.numPages.toNat * pageSize), k₀.output 1⟩ :=
  ⟨startProcess_runs c hb he hh hw h hs hf hc, rfl, 0, .zero⟩

/-- What a program writes on the console does not depend on its pages: it is what the processor writes and, when the
pages fit in memory, all of it. -/
theorem startProcess_output (hb : k.Booted) (he : k.files filename = some executable)
    (hh : readHeader k.host k.garbage executable = .ok noffH) (hw : noffH.size.toNat ≤ 2 ^ 32 - 256)
    (h : k.startProcess filename = .ok (some k₀)) (hs : k₀.space = .ok s) (hf : k₀.files s.swapFileName = some f)
    (hd : Computer.Disciplined ⟨.boot f.bytes (s.numPages.toNat * pageSize), k₀.output 1⟩) {n : Nat}
    (hn : Observed CallStep CallSilent k₀ n k') :
    ∃ e, Steps Computer.Next ⟨.boot f.bytes (s.numPages.toNat * pageSize), k₀.output 1⟩ n e ∧ k'.Shown e.processor ∧
      k'.output 1 = e.output ∧ (s.numPages.toNat ≤ numPhysPages → ∀ m e', Steps Computer.Next e m e' →
        ∃ k'', Observed CallStep CallSilent k' m k'' ∧ k''.Shown e'.processor ∧ k''.output 1 = e'.output) := by
  have hstart := startProcess_executes s.numPages.toNat hb he hh hw h hs hf (Nat.le_add_left ..)
  obtain ⟨e, hsteps, hr⟩ := (call_simulates s.numPages.toNat hd).run hstart hn
  refine ⟨e, hsteps, hr.shown, hr.output, fun hfit m e' hm => ?_⟩
  have hstart := startProcess_executes 0 hb he hh hw h hs hf hfit
  obtain ⟨e₁, hsteps₁, hr₁⟩ := (call_simulates 0 hd).run hstart hn
  obtain rfl := hsteps.unique Computer.next_unique hsteps₁
  obtain ⟨k'', hk, hr''⟩ := (call_serves hd).run hr₁ hm
  exact ⟨k'', hk, hr''.shown, hr''.output⟩

theorem traced_starts (text : List Word) (hlen : 0 < text.length ∧ text.length ≤ 64) {i n : Nat} (hi : text[i]? = some 0x41)
    (ht : Cpu.traced text (.ofNat 32 (4 * i)) n (Processor.boot (fun _ => 0) 1280).cpu = true) :
    (programHeader text).size.toNat ≤ 2 ^ 32 - 256 ∧ ∃ k₀ s f, (programKernel text).startProcess [112] = .ok (some k₀) ∧
      k₀.space = .ok s ∧ k₀.files s.swapFileName = some f ∧ s.numPages.toNat ≤ numPhysPages ∧
      Processor.Coded text (.boot f.bytes (s.numPages.toNat * pageSize)) ∧
      Processor.Text (.boot f.bytes (s.numPages.toNat * pageSize)) (.ofNat 32 (4 * i)) [0x41] ∧
      Computer.Disciplined ⟨.boot f.bytes (s.numPages.toNat * pageSize), k₀.output 1⟩ := by
  obtain ⟨hw, k₀, s, f, h, hs, hf, hnum, htext⟩ := program_starts hlen
  have hsize : s.numPages.toNat * pageSize = 1280 := by rw [hnum, pageSize_eq]
  refine ⟨hw, k₀, s, f, h, hs, hf, by rw [hnum]; decide, ?_⟩
  rw [hsize]
  obtain ⟨hlt, -⟩ := List.getElem?_eq_some_iff.mp hi
  have hnat : (BitVec.ofNat 32 (4 * i)).toNat = 4 * i := by
    rw [BitVec.toNat_ofNat, Nat.mod_eq_of_lt]
    omega
  have hnext : (BitVec.ofNat 32 (4 * i) + 1).toNat = 4 * i + 1 := by
    rw [BitVec.toNat_add, hnat]
    change (4 * i + 1) % 2 ^ 32 = _
    omega
  have hbyte (j : Nat) (hj : j < 4) : f.bytes (4 * i + j) = byteOf 0x41 j := by rw [← htext i _ hi, byteOf_wordAt _ _ _ hj]
  have hs (c : Cpu) : Processor.Text ⟨c, f.bytes, 1280, none⟩ (.ofNat 32 (4 * i)) [0x41] := by
    refine ⟨⟨⟨one_dvd _, ?_⟩, ?_, ⟨one_dvd _, ?_⟩, ?_, trivial⟩, by decide, by decide⟩
    · rw [hnat]
      change 4 * i + 1 ≤ 1280
      omega
    · rw [hnat]
      exact hbyte 0 (by omega)
    · rw [hnext]
      change 4 * i + 1 + 1 ≤ 1280
      omega
    · rw [hnext]
      exact hbyte 1 (by omega)
  exact ⟨⟨show 4 * text.length ≤ 1280 by omega, by omega, htext⟩, hs _, Cpu.traced_disciplined (by omega) htext hs ht⟩

def printText : List Word :=
  [0x2404001c, 0x24060001, 0x24020007, 0x0000000c, 0x24020001, 0x0000000c, 0, 0x00000041]

theorem print_writes {q : Processor} (h : Coded printText q) (hz : q.cpu.gpr 0 = 0) (hat : q.At 0)
    (ht : q.Text 0x1c [0x41]) (output : List Byte) : ∃ q', Steps Computer.Next ⟨q, output⟩ 4 ⟨q', output ++ [0x41]⟩ := by
  obtain ⟨h₀, hat₁, hc₁⟩ := h.addiu hz hat 0x2404001c 4 0x1c rfl (by decide) (by decide) (by decide)
  obtain ⟨h₁, hat₂, hc₂⟩ := hc₁.addiu hz hat₁ 0x24060001 6 1 rfl (by decide) (by decide) (by decide)
  obtain ⟨h₂, hat₃, hc₃⟩ := hc₂.addiu hz hat₂ 0x24020007 2 7 rfl (by decide) (by decide) (by decide)
  have hwrite : Computer.Next ⟨((q.assigned 4 0x1c).assigned 6 1).assigned 2 7, output⟩
      ⟨(((q.assigned 4 0x1c).assigned 6 1).assigned 2 7).resumed, output ++ [0x41]⟩ :=
    .write (hc₃.syscall hat₃ rfl) rfl rfl (ht.congr rfl rfl)
  exact ⟨_, .succ (.succ (.succ (.succ .zero (.instruction h₀)) (.instruction h₁)) (.instruction h₂)) hwrite⟩

theorem startProcess_output_print : ∃ k₀ s f k', (programKernel printText).startProcess [112] = .ok (some k₀) ∧
    k₀.space = .ok s ∧ k₀.files s.swapFileName = some f ∧ Observed CallStep CallSilent k₀ 4 k' ∧
      k'.output 1 = k₀.output 1 ++ [0x41] := by
  obtain ⟨hw, k₀, s, f, h, hs, hf, hfit, hc, ht, hd⟩ :=
    traced_starts printText (i := 7) (n := 10) (by decide) rfl (by decide +kernel)
  obtain ⟨q, hq⟩ := print_writes hc rfl ⟨rfl, rfl⟩ ht (k₀.output 1)
  obtain ⟨e, he, -, -, hall⟩ := startProcess_output (programKernel_booted _) (programKernel_files _)
    (programFile_header _ _) hw h hs hf hd .start
  cases he
  obtain ⟨k', hobs, -, hout⟩ := hall hfit 4 _ hq
  exact ⟨k₀, s, f, k', h, hs, hf, hobs, hout⟩

end Nachos.Kernel
