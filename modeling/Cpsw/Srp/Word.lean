import Cpsw.ByteMux.Demux
import Cpsw.Lib.Digits

namespace Cpsw.Srp

open ByteMux Lib Lib.Digits

abbrev SRPWord := UInt32

/-- `hostByteOrder()` -/
inductive ByteOrder
  | LE
  | BE
  deriving DecidableEq, Repr

/-- The bytes that a word has in memory. -/
def ByteOrder.store : ByteOrder → SRPWord → Bytes
  | .LE, w => bytes 4 w.toNat
  | .BE, w => (bytes 4 w.toNat).reverse

def ByteOrder.load : ByteOrder → Bytes → SRPWord
  | .LE, p => .ofNat (value p)
  | .BE, p => .ofNat (value p.reverse)

/-- `__builtin_bswap32` -/
def swp32 (w : SRPWord) : SRPWord := ByteOrder.BE.load (ByteOrder.LE.store w)

variable {o : ByteOrder} {w : SRPWord} {p : Bytes}

@[simp] theorem store_length : (o.store w).length = 4 := by
  cases o <;> simp [ByteOrder.store]

theorem load_store (o : ByteOrder) (w : SRPWord) : o.load (o.store w) = w := by
  have h : UInt32.ofNat (value (bytes 4 w.toNat)) = w := by
    have hlt : w.toNat < 256 ^ 4 := w.toNat_lt
    rw [value_bytes, Nat.mod_eq_of_lt hlt, UInt32.ofNat_toNat]
  cases o with
  | LE => exact h
  | BE =>
    rw [ByteOrder.load, ByteOrder.store, List.reverse_reverse]
    exact h

theorem store_load (o : ByteOrder) (hp : p.length = 4) : o.store (o.load p) = p := by
  have h : ∀ q : Bytes, q.length = 4 → bytes 4 (UInt32.ofNat (value q)).toNat = q := by
    intro q hq
    have hlt : value q < 2 ^ 32 := by
      have := value_lt q
      rwa [hq] at this
    rw [UInt32.toNat_ofNat_of_lt' hlt, ← hq, bytes_value]
  cases o with
  | LE => exact h p hp
  | BE =>
    rw [ByteOrder.load, ByteOrder.store, h _ (by rwa [List.length_reverse]), List.reverse_reverse]

/-- To swap a word is to write it in the other order. -/
theorem store_swp32 (o : ByteOrder) (w : SRPWord) : o.store (swp32 w) = (o.store w).reverse := by
  have h : ByteOrder.BE.store (swp32 w) = ByteOrder.LE.store w := store_load .BE store_length
  cases o with
  | BE =>
    rw [h, ByteOrder.store, ByteOrder.store, List.reverse_reverse]
  | LE =>
    have hrev : ByteOrder.LE.store (swp32 w) = (ByteOrder.BE.store (swp32 w)).reverse := by
      rw [ByteOrder.store, ByteOrder.store, List.reverse_reverse]
    rw [hrev, h]

theorem swp32_load (o : ByteOrder) (hp : p.length = 4) : swp32 (o.load p) = o.load p.reverse := by
  rw [← load_store o (swp32 (o.load p)), store_swp32, store_load o hp]

/-- The byte order of the words of a header: version 1 has that of the network. -/
def order : SRPProtoVersion → ByteOrder
  | .SRP_UDP_V1 => .BE
  | _ => .LE

/-- `needsSwap_` -/
def needsHdrSwap (v : SRPProtoVersion) (host : ByteOrder) : Bool :=
  (if v = .SRP_UDP_V1 then .LE else .BE) = host

/-- A word as it goes out, and as it is taken over. -/
def hdrSwap (v : SRPProtoVersion) (host : ByteOrder) (w : SRPWord) : SRPWord :=
  if needsHdrSwap v host then swp32 w else w

/-- A word goes out in the order of the protocol, whatever the order of the host. -/
theorem store_hdrSwap (v : SRPProtoVersion) (host : ByteOrder) (w : SRPWord) :
    host.store (hdrSwap v host w) = (order v).store w := by
  have hrev : ByteOrder.BE.store w = (ByteOrder.LE.store w).reverse := rfl
  unfold hdrSwap
  cases v <;> cases host <;> simp [needsHdrSwap, order, store_swp32, hrev]

theorem hdrSwap_load (v : SRPProtoVersion) (host : ByteOrder) (hp : p.length = 4) :
    hdrSwap v host (host.load p) = (order v).load p := by
  have hle : ByteOrder.LE.load p.reverse = ByteOrder.BE.load p := rfl
  have hbe : ByteOrder.BE.load p.reverse = ByteOrder.LE.load p := by
    rw [ByteOrder.load, ByteOrder.load, List.reverse_reverse]
  unfold hdrSwap
  cases v <;> cases host <;> simp [needsHdrSwap, order, swp32_load _ hp, hle, hbe]

end Cpsw.Srp
