import Cpsw.ByteMux.Robust
import Cpsw.Srp.Word

namespace Cpsw.Srp

open ByteMux Depack Lib Lib.Digits Lib.Throw

inductive SrpError
  | unknownVersion
  | tooSmall
  | noTid
  | nullBuf
  deriving DecidableEq, Repr

def SrpError.text : SrpError → String
  | .unknownVersion => "CSRPPort::processOutput -- unknown protocol version"
  | .tooSmall => "CSRPPort::processOutput -- message too small"
  | .noTid => "No TID found in SRP message\n"
  | .nullBuf => ""

/-- The loop of `processOutput`, and the byte that is stored behind it. -/
def insertVC (vc : UInt8) : ℕ → BufChain → Except SrpError BufChain
  | _, [] => .error .nullBuf
  | off, b :: rest =>
    if b.getSize ≤ off then (insertVC vc (off - b.getSize) rest).map (b :: ·)
    else .ok (b.write off [vc] :: rest)

/-- `CSRPPort::processOutput` -/
def processOutput (v : SRPProtoVersion) (dest : UInt8) (bc : BufChain) : Except SrpError BufChain :=
  match v.vcOff with
  | none => .error .unknownVersion
  | some off => if total bc ≤ off then .error .tooSmall else insertVC dest off bc

/-- `CBufChainImpl::extract` -/
def extract : ℕ → ℕ → BufChain → Bytes
  | _, _, [] => []
  | off, size, b :: rest =>
    if b.getSize ≤ off then extract (off - b.getSize) size rest
    else
      let l := b.getSize - off
      let l := if l > size then size else l
      (b.getPayload.drop off).take l ++ if size - l > 0 then extract 0 (size - l) rest else []

def tidOff (v : SRPProtoVersion) : ℕ := if v = .SRP_UDP_V2 then 0 else 4

def getTidLsb : UInt32 := 0

def getTidNumBits : UInt32 := 24

def tidLsb : UInt32 := 1 <<< getTidLsb

def tidMsk : UInt32 :=
  let bits : UInt32 := if getTidNumBits > 31 then 0xffffffff else (1 <<< getTidNumBits) - 1
  bits <<< getTidLsb

def toTid (bits : UInt32) : UInt32 := bits &&& tidMsk

def tidMatch (a b : UInt32) : Bool := (a ^^^ b) &&& tidMsk = 0

/-- `raw` is what `msgTid` holds before. -/
def extractTid (v : SRPProtoVersion) (host : ByteOrder) (raw : SRPWord) (rchn : BufChain) :
    Except SrpError UInt32 :=
  let got := extract (tidOff v) 4 rchn
  if got.length = 0 then .error .noTid
  else .ok (toTid (hdrSwap v host (host.load (got ++ (host.store raw).drop got.length))))

variable {v : SRPProtoVersion} {host : ByteOrder} {vc : UInt8} {bc rest : BufChain} {b : Buf} {w : UInt32}

theorem bytes_cons (b : Buf) (rest : BufChain) :
    BufChain.bytes (b :: rest) = b.content ++ BufChain.bytes rest := by
  simp [BufChain.bytes]

/-- One byte of the message is replaced. -/
theorem insertVC_ok (vc : UInt8) {off : ℕ} (hok : ∀ b ∈ bc, b.Ok) (h : off < total bc) :
    ∃ bc', insertVC vc off bc = .ok bc' ∧ (∀ b ∈ bc', b.Ok) ∧ bc'.bytes = bc.bytes.set off vc := by
  induction bc generalizing off with
  | nil => exact absurd h (Nat.not_lt_zero _)
  | cons b rest ih =>
    have hb := hok b List.mem_cons_self
    have hrest : ∀ x ∈ rest, x.Ok := fun x hx ↦ hok x (List.mem_cons_of_mem b hx)
    have hlen := hb.content_length
    rw [insertVC]
    split_ifs with hs
    · rw [total_cons] at h
      have hoff : off - b.getSize < total rest := by omega
      obtain ⟨bc', he, hok', hbytes⟩ := ih hrest hoff
      refine ⟨b :: bc', by rw [he]; rfl, List.forall_mem_cons.2 ⟨hb, hok'⟩, ?_⟩
      rw [bytes_cons, bytes_cons, hbytes, List.set_append_right _ _ (hlen ▸ hs), hlen]
    · have hlt : off < b.getSize := Nat.lt_of_not_le hs
      have hroom : off + [vc].length ≤ b.getSize := hlt
      obtain ⟨hok', hc⟩ := hb.write hroom
      refine ⟨_, rfl, List.forall_mem_cons.2 ⟨hok', hrest⟩, ?_⟩
      rw [bytes_cons, bytes_cons, hc, List.set_append_left _ _ (hlen ▸ hlt),
        List.set_eq_take_append_cons_drop, if_pos (hlen ▸ hlt), List.append_assoc (List.take off _)]
      rfl

theorem extract_eq (hok : ∀ b ∈ bc, b.Ok) (off size : ℕ) :
    extract off size bc = (bc.bytes.drop off).take size := by
  induction bc generalizing off size with
  | nil => simp [extract, BufChain.bytes]
  | cons b rest ih =>
    have hb := hok b List.mem_cons_self
    have hlen := hb.content_length
    replace ih := ih fun x hx ↦ hok x (List.mem_cons_of_mem b hx)
    rw [extract, bytes_cons, List.drop_append, hlen]
    split_ifs with hs
    · have hnil : b.content.drop off = [] := List.drop_eq_nil_of_le (by omega)
      rw [ih, hnil, List.nil_append]
    · have hzero : off - b.getSize = 0 := by omega
      have hhead : ∀ l ≤ b.getSize - off,
          (b.getPayload.drop off).take l = (b.content.drop off).take l := by
        intro l hl
        rw [Buf.content, List.drop_take, List.take_take, Nat.min_eq_left hl]
      rw [hzero, List.drop_zero, List.take_append, List.length_drop, hlen]
      by_cases hl : b.getSize - off > size
      · simp only [if_pos hl, Nat.sub_self, gt_iff_lt, Nat.lt_irrefl, if_false]
        rw [hhead _ (by omega), Nat.sub_eq_zero_of_le (by omega), List.take_zero]
      · simp only [if_neg hl]
        have hall : (b.content.drop off).take size = b.content.drop off :=
          List.take_of_length_le (by rw [List.length_drop, hlen]; omega)
        rw [hhead _ le_rfl, hall, List.take_of_length_le (by rw [List.length_drop, hlen])]
        congr 1
        split_ifs with hmore
        · rw [ih, List.drop_zero]
        · rw [Nat.eq_zero_of_not_pos hmore, List.take_zero]

theorem toTid_toNat (w : UInt32) : (toTid w).toNat = w.toNat % 2 ^ 24 := by
  have hmsk : tidMsk.toNat = 2 ^ 24 - 1 := by decide
  rw [toTid, UInt32.toNat_and, hmsk, Nat.and_two_pow_sub_one_eq_mod]

theorem toTid_toTid (w : UInt32) : toTid (toTid w) = toTid w := by
  rw [toTid, toTid, UInt32.and_assoc, UInt32.and_self]

/-- Two words match where they have the same identifier. -/
theorem tidMatch_iff {a b : UInt32} : tidMatch a b = true ↔ toTid a = toTid b := by
  have h : (a ^^^ b) &&& tidMsk = toTid a ^^^ toTid b := by
    apply UInt32.toBitVec_inj.1
    ext i hi
    simp [toTid, Bool.and_xor_distrib_right]
  rw [tidMatch, decide_eq_true_iff, h, UInt32.xor_eq_zero_iff]

/-- The bytes of the word that holds the identifier. -/
def tidWord (v : SRPProtoVersion) (bc : BufChain) : Bytes := (bc.bytes.drop (tidOff v)).take 4

/-- The place of the virtual channel in that word. -/
def vcPlace (v : SRPProtoVersion) : ℕ := if v = .SRP_UDP_V1 then 0 else 3

theorem vcOff_eq (hv : v ≠ .SRP_UDP_NONE) : v.vcOff = some (tidOff v + vcPlace v) := by
  cases v with
  | SRP_UDP_NONE => contradiction
  | _ => rfl

theorem vcPlace_lt (v : SRPProtoVersion) : vcPlace v < 4 := by
  cases v <;> decide

theorem length_of_tidWord (hl : (tidWord v bc).length = 4) : tidOff v + 4 ≤ bc.bytes.length := by
  rw [tidWord, List.length_take, List.length_drop] at hl
  omega

theorem extractTid_eq (hok : ∀ b ∈ bc, b.Ok) (hl : (tidWord v bc).length = 4)
    (raw : SRPWord) : extractTid v host raw bc = .ok (toTid ((order v).load (tidWord v bc))) := by
  have hgot : extract (tidOff v) 4 bc = tidWord v bc := extract_eq hok _ _
  have hraw : (host.store raw).drop 4 = [] := List.drop_eq_nil_of_le store_length.le
  unfold extractTid
  dsimp only
  rw [hgot, hl, if_neg (by decide), hraw, List.append_nil, hdrSwap_load v host hl]

theorem extractVC_eq (hv : v ≠ .SRP_UDP_NONE) (hok : ∀ b ∈ bc, b.Ok)
    (hl : (tidWord v bc).length = 4) :
    ((extractVC v bc).exec []).1 = .ok (tidWord v bc)[vcPlace v]? := by
  have hlen := length_of_tidWord hl
  have hplace := vcPlace_lt v
  rw [bytes_length hok] at hlen
  have hoff : tidOff v + vcPlace v < total bc := by omega
  obtain ⟨c, a, he, hc, -⟩ := exec_extractByte [] hok hoff
  have hbyte : (tidWord v bc)[vcPlace v]? = some c := by
    rw [tidWord, List.getElem?_take, if_pos hplace, List.getElem?_drop, hc]
  unfold extractVC
  rw [vcOff_eq hv]
  dsimp only
  rw [if_neg (by omega), exec_bind, he, hbyte]
  rfl

/-- `processOutput` replaces the byte of the channel, and nothing else. -/
theorem processOutput_ok (hv : v ≠ .SRP_UDP_NONE) (hok : ∀ b ∈ bc, b.Ok)
    (hl : (tidWord v bc).length = 4) (vc : UInt8) : ∃ bc', processOutput v vc bc = .ok bc' ∧
      (∀ b ∈ bc', b.Ok) ∧ bc'.bytes = bc.bytes.set (tidOff v + vcPlace v) vc ∧
        tidWord v bc' = (tidWord v bc).set (vcPlace v) vc := by
  have hlen := length_of_tidWord hl
  have hplace := vcPlace_lt v
  rw [bytes_length hok] at hlen
  have hoff : tidOff v + vcPlace v < total bc := by omega
  obtain ⟨bc', he, hok', hbytes⟩ := insertVC_ok vc hok hoff
  refine ⟨bc', ?_, hok', hbytes, ?_⟩
  · unfold processOutput
    rw [vcOff_eq hv]
    exact (if_neg (by omega)).trans he
  · rw [tidWord, hbytes, List.drop_set, if_neg (by omega), Nat.add_sub_cancel_left, List.take_set]
    rfl

theorem toTid_append (x y : UInt8) {p : Bytes} (hp : p.length = 3) :
    toTid (.ofNat (value (p ++ [x]))) = toTid (.ofNat (value (p ++ [y]))) := by
  apply UInt32.toNat_inj.1
  simp only [toTid_toNat, UInt32.toNat_ofNat', value_append, hp]
  omega

/-- The channel takes the place of the highest byte, which is no part of the identifier. -/
theorem toTid_inserted (v : SRPProtoVersion) (w : SRPWord) (vc : UInt8) :
    toTid ((order v).load (((order v).store w).set (vcPlace v) vc)) = toTid w := by
  obtain ⟨a, b, c, d, hw⟩ : ∃ a b c d, bytes 4 w.toNat = [a, b, c, d] :=
    ⟨_, _, _, _, rfl⟩
  have hp : [a, b, c].length = 3 := rfl
  have hload := load_store (order v) w
  unfold ByteOrder.store ByteOrder.load at hload ⊢
  cases v <;> dsimp only [order, vcPlace] at hload ⊢ <;> rw [hw] at hload ⊢ <;>
    exact (toTid_append vc d hp).trans (congrArg toTid hload)

end Cpsw.Srp
