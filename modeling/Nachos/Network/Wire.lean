import Nachos.Machine.Translate
import Mathlib.Tactic.IntervalCases
import Mathlib.Data.Rat.Init

namespace Nachos

open Buffer

abbrev NetworkAddress := Word
abbrev MailBoxAddress := Word

structure PacketHeader where
  toAddr : NetworkAddress
  fromAddr : NetworkAddress
  length : Word
  deriving DecidableEq

structure MailHeader where
  toAddr : MailBoxAddress
  fromAddr : MailBoxAddress
  length : Word
  deriving DecidableEq

def maxWireSize : Nat := 64
def packetHeaderSize : Nat := 12
def maxPacketSize : Nat := maxWireSize - packetHeaderSize
def mailHeaderSize : Nat := 12
def maxMailSize : Nat := maxPacketSize - mailHeaderSize

def Host.storeHeader (host : Host) (b : Buffer) (x y z : Word) : Buffer :=
  host.storeWord (host.storeWord (host.storeWord b 0 x) 4 y) 8 z

def PacketHeader.store (host : Host) (b : Buffer) (h : PacketHeader) : Buffer := host.storeHeader b h.toAddr h.fromAddr h.length

def PacketHeader.load (host : Host) (b : Buffer) : PacketHeader :=
  ⟨host.loadWord b 0, host.loadWord b 4, host.loadWord b 8⟩

def MailHeader.store (host : Host) (b : Buffer) (h : MailHeader) : Buffer := host.storeHeader b h.toAddr h.fromAddr h.length

def MailHeader.load (host : Host) (b : Buffer) : MailHeader :=
  ⟨host.loadWord b 0, host.loadWord b 4, host.loadWord b 8⟩

def Buffer.drop (b : Buffer) (n : Nat) : Buffer := fun k => b (n + k)

def Buffer.take (b : Buffer) (n : Nat) : List Byte := (List.range n).map b

theorem Buffer.take_congr {b c : Buffer} {n : Nat} (h : ∀ k < n, b k = c k) : b.take n = c.take n :=
  List.map_congr_left fun k hk => h k (List.mem_range.mp hk)

namespace Host

theorem storeWord_inside (host : Host) (b : Buffer) (a : Nat) (w : Word) {k : Nat} (hk : k < 4) :
    host.storeWord b a w (a + k) = byteOf w (match host with | .littleEndian => k | .bigEndian => 3 - k) := by
  cases host with
  | littleEndian => rw [storeWord, copy_inside (by omega) (by omega), Nat.add_sub_cancel_left]
  | bigEndian => rw [storeWord, copy_inside (by omega) (by omega), Nat.add_sub_cancel_left]

theorem storeWord_outside (host : Host) (b : Buffer) {a c : Nat} (w : Word) (h : c < a ∨ a + 4 ≤ c) :
    host.storeWord b a w c = b c := copy_outside h

theorem loadWord_storeWord (host : Host) (b : Buffer) (a : Nat) (w : Word) :
    host.loadWord (host.storeWord b a w) a = w := by
  have h0 := host.storeWord_inside b a w (k := 0) (by omega)
  have h1 := host.storeWord_inside b a w (k := 1) (by omega)
  have h2 := host.storeWord_inside b a w (k := 2) (by omega)
  have h3 := host.storeWord_inside b a w (k := 3) (by omega)
  rw [Nat.add_zero] at h0
  have hw : byteOf w 3 ++ byteOf w 2 ++ byteOf w 1 ++ byteOf w 0 = w :=
    wordAt_byteOf (b := fun k => byteOf w k) (i := 0) (fun j _ => by rw [Nat.zero_add])
  cases host with
  | littleEndian =>
    simp only [loadWord, h0, h1, h2, h3]
    exact hw
  | bigEndian =>
    simp only [loadWord, h0, h1, h2, h3]
    exact hw

theorem loadWord_storeWord_of_apart (host : Host) (b : Buffer) {a c : Nat} (w : Word) (h : c + 4 ≤ a ∨ a + 4 ≤ c) :
    host.loadWord (host.storeWord b a w) c = host.loadWord b c :=
  host.loadWord_congr fun k hk => host.storeWord_outside b w (by omega)

variable (host : Host) (b : Buffer) (x y z : Word)

theorem storeHeader_first : host.loadWord (host.storeHeader b x y z) 0 = x := by
  rw [storeHeader, host.loadWord_storeWord_of_apart _ _ (by omega), host.loadWord_storeWord_of_apart _ _ (by omega),
    host.loadWord_storeWord]

theorem storeHeader_second : host.loadWord (host.storeHeader b x y z) 4 = y := by
  rw [storeHeader, host.loadWord_storeWord_of_apart _ _ (by omega), host.loadWord_storeWord]

theorem storeHeader_third : host.loadWord (host.storeHeader b x y z) 8 = z := by
  rw [storeHeader, host.loadWord_storeWord]

end Host

theorem PacketHeader.load_store (host : Host) (b : Buffer) (h : PacketHeader) : load host (h.store host b) = h := by
  rw [load, store, host.storeHeader_first, host.storeHeader_second, host.storeHeader_third]

theorem MailHeader.load_store (host : Host) (b : Buffer) (h : MailHeader) : load host (h.store host b) = h := by
  rw [load, store, host.storeHeader_first, host.storeHeader_second, host.storeHeader_third]

theorem PacketHeader.load_congr (host : Host) {b c : Buffer} (h : ∀ k < packetHeaderSize, b k = c k) :
    load host b = load host c := by
  have hw (i : Nat) (hi : i + 4 ≤ 12) : host.loadWord b i = host.loadWord c i :=
    host.loadWord_congr fun k hk => h _ (lt_of_lt_of_le (by omega) hi)
  rw [load, load, hw 0 (by omega), hw 4 (by omega), hw 8 (by omega)]

theorem MailHeader.load_congr (host : Host) {b c : Buffer} (h : ∀ k < mailHeaderSize, b k = c k) :
    load host b = load host c := by
  have hw (i : Nat) (hi : i + 4 ≤ 12) : host.loadWord b i = host.loadWord c i :=
    host.loadWord_congr fun k hk => h _ (lt_of_lt_of_le (by omega) hi)
  rw [load, load, hw 0 (by omega), hw 4 (by omega), hw 8 (by omega)]

end Nachos
