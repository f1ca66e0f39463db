import Cpsw.Srp.Deliver
import Cpsw.Srp.Merge

namespace Cpsw.Srp

open ByteMux Depack Lib MemDev
open Sval (mergeByte slice splice keepMask)

variable {a : Address} {b : Block} {dev : Mem} {fw lw : Bytes} {tid : SRPWord}

namespace Address

/-- The word of a request that says that something is to be written. -/
def isWrite (a : Address) (w : SRPWord) : Bool :=
  if a.protoVersion = .SRP_UDP_V3 then
    w &&& 0xff = 3 && ((w >>> 8) &&& 3 = 1 || (w >>> 8) &&& 3 = 2)
  else w &&& 0xc0000000 = 0x40000000

/-- What a device makes of a request to write: an address and what is to be written there. In front of
version 3 a word with a zero follows the payload, in version 3 the payload is as long as the header
says, and filled up to a word. -/
def writeRequest (a : Address) (ws : List SRPWord) (body : Bytes) : Option (ℕ × Bytes) :=
  match a.protoVersion, ws with
  | .SRP_UDP_V1, [_, _, addr] =>
    if a.isWrite addr && 4 ≤ body.length && body.length % 4 = 0 then
      some ((addr &&& 0x3fffffff).toNat * 4, a.wire (body.take (body.length - 4)))
    else none
  | .SRP_UDP_V2, [_, addr] =>
    if a.isWrite addr && 4 ≤ body.length && body.length % 4 = 0 then
      some ((addr &&& 0x3fffffff).toNat * 4, a.wire (body.take (body.length - 4)))
    else none
  | .SRP_UDP_V3, [cmd, _, lo, hi, n] =>
    if a.isWrite cmd && body.length = (n.toNat + 1 + 3) / 4 * 4 then
      some (lo.toNat + 2 ^ 32 * hi.toNat, body.take (n.toNat + 1))
    else none
  | _, _ => none

/-- The address of a word with the bit that says that it is written. -/
theorem writeAddr (w : SRPWord) :
    (w &&& 0x3fffffff ||| 0x40000000) &&& 0xc0000000 = 0x40000000 ∧
      (w &&& 0x3fffffff ||| 0x40000000) &&& 0x3fffffff = w &&& 0x3fffffff := by
  have hand (m : SRPWord) : (w &&& 0x3fffffff ||| 0x40000000) &&& m =
      w &&& (0x3fffffff &&& m) ||| 0x40000000 &&& m := by
    refine UInt32.toBitVec_inj.1 ?_
    ext i hi
    simp [Bool.and_or_distrib_right, Bool.and_assoc]
  have htop : (0x3fffffff : SRPWord) &&& 0xc0000000 = 0 := rfl
  have hsame : (0x3fffffff : SRPWord) &&& 0x3fffffff = 0x3fffffff := rfl
  have hwrite : (0x40000000 : SRPWord) &&& 0xc0000000 = 0x40000000 := rfl
  have hlow : (0x40000000 : SRPWord) &&& 0x3fffffff = 0 := rfl
  rw [hand, hand, htop, hsame, hwrite, hlow, UInt32.and_zero, UInt32.zero_or, UInt32.or_zero]
  exact ⟨rfl, rfl⟩

theorem wire_wire (data : Bytes) : a.wire (a.wire data) = data := by
  unfold wire
  split_ifs
  · exact swapWords_swapWords data
  · rfl

end Address

namespace Block

open Address

theorem head_le (a : Address) (b : Block) : a.headBytes b.off ≤ b.off.toNat := by
  cases hb : a.byteResolution with
  | false =>
    rw [headBytes_eq hb]
    exact Nat.mod_le _ _
  | true =>
    rw [headBytes_bytes hb]
    exact Nat.zero_le _

/-- Outside of version 1 nothing is swapped. -/
theorem swapWords_eq {p : Bytes} (hp : a.protoVersion = .SRP_UDP_V1 → p.length % 4 = 0) :
    swapWords a p = a.wire p := by
  unfold swapWords wire
  split_ifs with hv
  · obtain ⟨k, hk⟩ : ∃ k, p.length = 4 * k := Nat.dvd_of_mod_eq_zero (hp hv)
    have hwords : (p.length + 3) / 4 = k := by omega
    rw [hwords]
    clear hp hwords
    induction k generalizing p with
    | zero => rw [List.eq_nil_iff_length_eq_zero.2 hk, List.range_zero, List.flatMap_nil, swapWords_nil]
    | succ k ih =>
      have htake : (p.take 4).length = 4 := by
        rw [List.length_take]
        omega
      have hdrop : (p.drop 4).length = 4 * k := by
        rw [List.length_drop]
        omega
      have hstep : (List.range k).flatMap (fun j ↦ swpw a.host (slice p (4 * j.succ) 4)) =
          (List.range k).flatMap fun j ↦ swpw a.host (slice (p.drop 4) (4 * j) 4) := by
        congr 1
        funext j
        simp only [slice, List.drop_drop, Nat.mul_succ, Nat.add_comm (4 * j) 4]
      rw [List.range_succ_eq_map, List.flatMap_cons, List.flatMap_map, hstep,
        ih hdrop, Nat.mul_zero, slice, List.drop_zero, swpw_eq a.host htake,
        ← swapWords_word htake, ← swapWords_append (n := 1) htake, List.take_append_drop]
  · rfl

theorem swapWord_eq {p : Bytes} (hp : a.protoVersion = .SRP_UDP_V1 → p.length = 4) :
    swapWord a p = a.wire p := by
  unfold swapWord wire
  split_ifs with hv
  · rw [swpw_eq a.host (hp hv), swapWords_word (hp hv)]
  · rfl

theorem wire_append {p q : Bytes} (hp : a.protoVersion = .SRP_UDP_V1 → p.length % 4 = 0) :
    a.wire (p ++ q) = a.wire p ++ a.wire q := by
  unfold wire
  split_ifs with hv
  · obtain ⟨k, hk⟩ : ∃ k, p.length = 4 * k := Nat.dvd_of_mod_eq_zero (hp hv)
    exact swapWords_append hk
  · rfl

/-- In version 1 there are only whole words. -/
theorem wordwise (hpos : 0 < b.dbytes) (hcol : ¬b.Collapsed a) (hb : a.byteResolution = false) :
    (b.merge_first a = true → b.firstlen a = 4) ∧ (b.lastWord a = true → b.lastlen a = 4) ∧
      b.toput a % 4 = 0 := by
  have hfirst : b.firstlen a = 4 := by
    unfold firstlen
    rw [firstRead_length, hb]
    simp only [Bool.false_eq_true, if_false]
    split_ifs with hw h <;> first | rfl | skip
    have hwide : 0 < b.totbytes a := Nat.lt_of_lt_of_le hpos (Nat.le_add_left _ _)
    omega
  have hlast : b.lastlen a = 4 := by
    unfold lastlen
    rw [hb]
    rfl
  refine ⟨fun _ ↦ hfirst, fun _ ↦ hlast, ?_⟩
  have hsum := (layout hpos hcol).sum
  unfold frontlen backlen span at hsum
  rw [hfirst, hlast, hb, if_neg Bool.false_ne_true] at hsum
  split_ifs at hsum <;> omega

/-- The transmit buffer has the payload as it is sent. -/
theorem body_eq (hpos : 0 < b.dbytes) (hcol : ¬b.Collapsed a) (hvalid : a.Valid)
    (hle : a.headBytes b.off ≤ b.off.toNat) (hback : b.ReadsBack a dev fw lw) :
    b.body a fw lw = a.wire (b.payload a fw lw) ++ b.tail a := by
  have hfront := congrArg List.length (front_eq hpos hcol hle hback)
  have hmid := congrArg List.length (@middle_eq a b dev hpos hcol hle)
  have hback := congrArg List.length (back_eq hpos hcol hle hback)
  rw [Mem.get_length] at hfront hmid hback
  have hword (hv : a.protoVersion = .SRP_UDP_V1) := wordwise hpos hcol
    (Bool.eq_false_iff.2 fun h ↦ SRPProtoVersion.noConfusion (hv.symm.trans (hvalid.bytes h)))
  have hone {merge : Bool} {p : Bytes} {n : ℕ}
      (hp : (if merge then p else []).length = if merge then n else 0)
      (hn : a.protoVersion = .SRP_UDP_V1 → merge = true → n = 4) :
      (if merge then swapWord a p else []) = a.wire (if merge then p else []) := by
    cases merge with
    | false => cases h : a.protoVersion <;> simp [wire, h]
    | true => exact swapWord_eq fun hv ↦ hp.trans (hn hv rfl)
  have hhead (hv : a.protoVersion = .SRP_UDP_V1) : b.frontlen a % 4 = 0 := by
    have h := (hword hv).1
    unfold frontlen
    split_ifs with hf
    · rw [h hf]
    · rfl
  have hrest (hv : a.protoVersion = .SRP_UDP_V1) : b.toput a % 4 = 0 := (hword hv).2.2
  rw [body, payload, hone hfront fun hv ↦ (hword hv).1, hone hback fun hv ↦ (hword hv).2.1,
    swapWords_eq fun hv ↦ (congrArg (· % 4) hmid).trans (hrest hv), wire_append, wire_append]
  · exact fun hv ↦ (congrArg (· % 4) hfront).trans (hhead hv)
  · intro hv
    rw [List.length_append, hfront, hmid, Nat.add_mod, hhead hv, hrest hv]

theorem body_length (hpos : 0 < b.dbytes) (hcol : ¬b.Collapsed a) (hvalid : a.Valid)
    (hle : a.headBytes b.off ≤ b.off.toNat) (hback : b.ReadsBack a dev fw lw) :
    (b.body a fw lw).length = b.span a + (b.tail a).length := by
  rw [body_eq hpos hcol hvalid hle hback, List.length_append, wire_length,
    payload_eq hpos hcol hle hback, Mem.get_length]

theorem base_add_span (hle : a.headBytes b.off ≤ b.off.toNat) :
    b.base a + b.span a = a.wordEnd (b.off.toNat + b.dbytes) := by
  unfold base span nWords totbytes wordEnd
  cases hb : a.byteResolution with
  | false =>
    have hhead := headBytes_eq hb b.off
    simp only [Bool.false_eq_true, if_false]
    omega
  | true =>
    simp only [if_true]
    omega

/-- A device gets the payload out of a message, with the address of its first word. -/
theorem writeRequest_eq (tid : SRPWord) (hpos : 0 < b.dbytes) (hcol : ¬b.Collapsed a)
    (hvalid : a.Valid) (hreach : a.Reaches b.off b.dbytes) (hlen : b.totbytes a ≤ 2 ^ 30)
    (hle : a.headBytes b.off ≤ b.off.toNat) (hback : b.ReadsBack a dev fw lw) :
    a.writeRequest (a.writeHeader tid b.off b.dbytes) (b.body a fw lw) =
      some (b.base a, b.payload a fw lw) := by
  have hlength := body_length hpos hcol hvalid hle hback
  have hpayload : (b.payload a fw lw).length = b.span a := by
    rw [payload_eq hpos hcol hle hback, Mem.get_length]
  have hhead : a.headBytes b.off + b.dbytes = b.totbytes a := rfl
  have hold (hv : a.protoVersion ≠ .SRP_UDP_V3) :
      (4 ≤ (b.body a fw lw).length ∧ (b.body a fw lw).length % 4 = 0) ∧
      a.wire ((b.body a fw lw).take ((b.body a fw lw).length - 4)) = b.payload a fw lw ∧
      ((b.off >>> 2).toUInt32 &&& 0x3fffffff).toNat * 4 = b.base a := by
    have hb : a.byteResolution = false := Bool.not_eq_true _ ▸ fun hb ↦ hv (hvalid.bytes hb)
    have htail : (b.tail a).length = 4 := by
      rw [tail, if_pos hv, store_length]
    have hspan : b.span a = b.nWords a * 4 := by
      rw [span, hb, if_neg Bool.false_ne_true]
    unfold Reaches at hreach
    rw [if_neg hv] at hreach
    refine ⟨by omega, ?_, ?_⟩
    · rw [hlength, htail, Nat.add_sub_cancel, body_eq hpos hcol hvalid hle hback,
        List.take_left' ((wire_length _ _).trans hpayload), wire_wire]
    · rw [wordAddr (by omega), base, headBytes_eq hb]
  cases hv : a.protoVersion with
  | SRP_UDP_NONE => exact absurd hv hvalid.srp
  | SRP_UDP_V1 =>
    have hne : a.protoVersion ≠ .SRP_UDP_V3 := hv ▸ SRPProtoVersion.noConfusion
    obtain ⟨⟨h4, hmod⟩, hdata, haddr⟩ := hold hne
    obtain ⟨hwrite, hlow⟩ := writeAddr (b.off >>> 2).toUInt32
    unfold writeRequest writeHeader vcWords isWrite
    rw [hv]
    simp only [reduceCtorEq, if_false, if_true, List.cons_append, List.nil_append, hwrite, hlow,
      h4, hmod, decide_true, Bool.and_self, haddr, hdata]
  | SRP_UDP_V2 =>
    have hne : a.protoVersion ≠ .SRP_UDP_V3 := hv ▸ SRPProtoVersion.noConfusion
    obtain ⟨⟨h4, hmod⟩, hdata, haddr⟩ := hold hne
    obtain ⟨hwrite, hlow⟩ := writeAddr (b.off >>> 2).toUInt32
    unfold writeRequest writeHeader vcWords isWrite
    rw [hv]
    simp only [reduceCtorEq, if_false, if_true, List.nil_append, hwrite, hlow,
      h4, hmod, decide_true, Bool.and_self, haddr, hdata]
  | SRP_UDP_V3 =>
    have hwrite : a.isWrite ((if a.isPosted then 0x200 else 0x100) ||| 3) = true := by
      rw [isWrite, if_pos hv]
      split_ifs <;> rfl
    have hT : 0 < b.totbytes a := Nat.lt_of_lt_of_le hpos (Nat.le_add_left _ _)
    have hdata : a.wire (b.payload a fw lw) = b.payload a fw lw := by
      rw [wire, hv, if_neg SRPProtoVersion.noConfusion]
    have hn : ((UInt32.ofNat (if a.byteResolution then b.totbytes a else b.nWords a <<< 2) - 1)).toNat
        + 1 = b.span a := by
      unfold span
      rw [Nat.shiftLeft_eq]
      have hwords : b.nWords a * 4 ≤ 2 ^ 32 ∧ 0 < b.nWords a := by
        unfold nWords
        omega
      split_ifs
      · exact toNat_less_one hT (by omega)
      · exact toNat_less_one (by omega) (by omega)
    have haddr : (if a.byteResolution then b.off else b.off &&& ~~~3).toUInt32.toNat +
        2 ^ 32 * (b.off >>> 32).toUInt32.toNat = b.base a := by
      have hhalves := halves b.off
      cases hb : a.byteResolution with
      | false =>
        have hlow : (b.off &&& ~~~3).toUInt32.toNat = b.off.toUInt32.toNat - b.off.toNat % 4 := by
          rw [UInt64.toNat_toUInt32, UInt64.toNat_toUInt32, aligned]
          omega
        have hmod : b.off.toUInt32.toNat % 4 = b.off.toNat % 4 := by
          rw [UInt64.toNat_toUInt32]
          omega
        rw [if_neg Bool.false_ne_true, hlow, base, headBytes_eq hb]
        omega
      | true => rw [if_pos rfl, halves, base, headBytes_bytes hb, Nat.sub_zero]
    have hfull : (b.body a fw lw).length = (b.span a + 3) / 4 * 4 := by
      rw [hlength]
      unfold tail span nWords
      rw [if_neg (not_not.2 hv)]
      cases hb : a.byteResolution with
      | false =>
        simp only [Bool.false_and, Bool.false_eq_true, if_false, List.length_nil]
        omega
      | true =>
        simp only [Bool.true_and, if_true]
        split_ifs with h <;> simp at h ⊢ <;> omega
    have htake : (b.body a fw lw).take (b.span a) = b.payload a fw lw := by
      rw [body_eq hpos hcol hvalid hle hback, hdata, List.take_left' hpayload]
    unfold writeRequest writeHeader wordsV3
    rw [hv]
    simp only [if_true, hwrite, hhead]
    have hwords : (b.totbytes a + 3) / 4 = b.nWords a := rfl
    rw [hwords, hn, hfull, haddr, htake]
    simp only [decide_true, Bool.and_self, if_true]

/-- Only the first and the last word are sent of what is read back together. -/
theorem collapsed_length (hvalid : a.Valid) (hcol : b.Collapsed a) (hfw : fw.length = FIRST_WORDS) :
    (b.body a fw lw).length = 8 + if a.protoVersion = .SRP_UDP_V3 then 0 else 4 := by
  obtain ⟨hw, h8⟩ := hcol
  have hbuf : FIRST_WORDS = 32 := rfl
  have hT : b.totbytes a = a.headBytes b.off + b.dbytes := rfl
  have hhead := a.headBytes_lt b.off
  obtain ⟨hf, hmany, hfit⟩ : b.merge_first a = true ∧ b.dbytes ≠ 1 ∧ b.totbytes a ≤ FIRST_WORDS := by
    simp only [lastbyte_in_firstwords, Bool.and_eq_true, decide_eq_true_eq] at hw
    exact ⟨hw.1.1.1, hw.1.2, hw.2⟩
  have hshort : b.short a = false := by
    rw [Block.short, decide_eq_false (by omega), Bool.and_false]
  have hlast : b.lastWord a = true := by
    rw [lastWord, hw, hshort]
    exact Bool.or_true _
  have hread : b.totbytes a ≤ (b.firstRead a).2 := by
    rw [firstRead_length, hw, if_pos rfl]
    split_ifs <;> omega
  have hfirst : b.firstlen a = 4 := if_pos (by omega)
  have hremaining : b.remaining a = b.totbytes a - a.headBytes b.off - 1 := by
    rw [remaining, if_pos hread, hshort]
    rfl
  have hput : b.toput a = 0 := by
    unfold toput
    rw [hf, hlast, hremaining]
    simp only [if_true]
    omega
  have hlb : b.last_byte a = (b.totbytes a - 1) % 4 := by
    rw [last_byte, hw]
    simp
  have hmerged : (b.firstMerged a fw).length = 32 := mergeAt_length.trans hfw
  have hwords : ((b.firstWords a fw).take 4).length = 4 := by
    rw [List.length_take, firstWords_length hfw (by omega) (by omega)]
    rfl
  have hwlast : (b.lastWords a fw lw).length = 4 := by
    unfold lastWords
    rw [hw, if_pos rfl, mergeAt_length, Sval.splice_length]
    · exact Sval.slice_length (by omega)
    · rw [Sval.slice_length (by unfold dbytes at *; omega), Sval.slice_length (by omega)]
      omega
  have hwire : ((b.lastWords a fw lw).take (b.lastlen a)).length = b.lastlen a := by
    refine List.length_take_of_le ?_
    rw [hwlast, lastlen]
    split_ifs <;> omega
  have hone {p : Bytes} {n : ℕ} (hp : p.length = n) (hn : a.protoVersion = .SRP_UDP_V1 → n = 4) :
      (swapWord a p).length = n := by
    rw [swapWord_eq fun hv ↦ hp.trans (hn hv), wire_length, hp]
  have hmiddle : swapWords a (slice b.src (b.skipped a) 0) = [] := by
    rw [slice, List.take_zero, swapWords_eq fun _ ↦ rfl]
    exact List.eq_nil_of_length_eq_zero (wire_length a [])
  have hbytes (hv : a.protoVersion ≠ .SRP_UDP_V3) : a.byteResolution = false :=
    Bool.eq_false_iff.2 fun hb ↦ hv (hvalid.bytes hb)
  have hlen : b.lastlen a + (b.tail a).length = 4 + if a.protoVersion = .SRP_UDP_V3 then 0 else 4 := by
    unfold tail lastlen
    rw [hlb]
    by_cases hv : a.protoVersion = .SRP_UDP_V3
    · rw [if_neg (not_not.2 hv), if_pos hv]
      cases hb : a.byteResolution with
      | false => rfl
      | true =>
        simp only [Bool.true_and, if_true]
        split_ifs with h <;> simp at h ⊢ <;> omega
    · rw [if_pos hv, if_neg hv, hbytes hv, if_neg Bool.false_ne_true, store_length]
  have hv1 (hv : a.protoVersion = .SRP_UDP_V1) : b.lastlen a = 4 := by
    rw [lastlen, hbytes (hv ▸ SRPProtoVersion.noConfusion), if_neg Bool.false_ne_true]
  unfold body
  rw [hf, hlast, if_pos rfl, if_pos rfl, hfirst, hput, hmiddle, List.append_nil]
  simp only [List.length_append, hone hwords fun _ ↦ rfl, hone hwire hv1]
  omega

theorem writeRequest_length {ws : List SRPWord} {p data : Bytes} {o : ℕ}
    (h : a.writeRequest ws p = some (o, data)) :
    data.length ≤ p.length - if a.protoVersion = .SRP_UDP_V3 then 0 else 4 := by
  unfold writeRequest at h
  split at h
  case h_1 hv =>
    split_ifs at h with hp
    obtain ⟨-, rfl⟩ := Prod.mk.inj (Option.some.inj h)
    rw [hv, wire_length, List.length_take]
    exact Nat.min_le_left _ _
  case h_2 hv =>
    split_ifs at h with hp
    obtain ⟨-, rfl⟩ := Prod.mk.inj (Option.some.inj h)
    rw [hv, wire_length, List.length_take]
    exact Nat.min_le_left _ _
  case h_3 hv =>
    split_ifs at h with hp
    obtain ⟨-, rfl⟩ := Prod.mk.inj (Option.some.inj h)
    rw [hv, List.length_take]
    exact Nat.min_le_right _ _
  case h_4 => cases h

/-- What is sent asks the device for what the write is to leave there, with what was read back around
it, but where more than two words have been read back together: then a device can never get from the
message what is to be written. -/
theorem writeRequest_iff (tid : SRPWord) (hvalid : a.Valid) (hpos : 0 < b.dbytes)
    (hreach : a.Reaches b.off b.dbytes) (hlen : b.totbytes a ≤ 2 ^ 30)
    (hback : b.ReadsBack a dev fw lw) :
    a.writeRequest (a.writeHeader tid b.off b.dbytes) (b.body a fw lw) =
      some (b.base a, (b.target dev).get (b.base a) (b.span a)) ↔ ¬b.Collapsed a := by
  constructor
  · intro hreq hcol
    have hle := writeRequest_length hreq
    have h8 := hcol.2
    rw [collapsed_length hvalid hcol hback.first_length, Nat.add_sub_cancel, Mem.get_length] at hle
    unfold span nWords at hle
    split_ifs at hle <;> omega
  · intro hcol
    rw [writeRequest_eq tid hpos hcol hvalid hreach hlen (head_le a b) hback,
      payload_eq hpos hcol (head_le a b) hback]

/-- The bytes in the middle of a word of the register. -/
def twoBytes : Block := ⟨[1, 2], 5, 0, 0⟩

theorem twoBytes_readsBack : twoBytes.ReadsBack register UInt8.ofNat
    ([4, 5, 6, 7] ++ List.replicate 28 0) [0, 0, 0, 0] :=
  ⟨rfl, rfl, fun _ ↦ by decide, fun h ↦ absurd h (by decide)⟩

theorem writeRequest_iff_twoBytes :
    register.writeRequest (register.writeHeader 7 twoBytes.off twoBytes.dbytes)
        (twoBytes.body register ([4, 5, 6, 7] ++ List.replicate 28 0) [0, 0, 0, 0]) =
      some (twoBytes.base register,
        (twoBytes.target UInt8.ofNat).get (twoBytes.base register) (twoBytes.span register)) ↔
      ¬twoBytes.Collapsed register :=
  writeRequest_iff 7 ⟨by decide, by decide⟩ (by decide) (by unfold Reaches; decide) (by decide)
    twoBytes_readsBack

/-- Eight bytes that lie in three words. -/
example : Collapsed register ⟨[1, 2, 3, 4, 5, 6, 7, 8], 1, 0, 0⟩ := by
  unfold Collapsed
  decide

end Block

end Cpsw.Srp
