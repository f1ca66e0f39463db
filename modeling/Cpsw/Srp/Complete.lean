import Cpsw.Lib.Words
import Cpsw.Srp.Read

namespace Cpsw.Srp

open ByteMux Depack Lib

variable {host : ByteOrder} {m : Mem} {first mid last w rHdrBuf rTailBuf : Bytes} {n : ℕ}

theorem swpw_eq (host : ByteOrder) (hw : w.length = 4) : swpw host w = w.reverse := by
  rw [swpw, store_swp32, store_load host hw]

namespace CSRPReadTransaction

variable {t : CSRPReadTransaction}

/-- The first word is put together from the end of the header and from the destination. -/
theorem swapHead_eq (hfirst : first.length = 4) (hh : t.headBytes_ ≠ 0)
    (hle : t.hoff ≤ t.sbytes_)
    (hhdr : (rHdrBuf.drop 8).take t.headBytes_ = first.reverse.take t.headBytes_) (v : Bytes) :
    t.swapHead host rHdrBuf rTailBuf (m.put t.dst_ (first.reverse.drop t.headBytes_ ++ v)) =
      m.put t.dst_ (first.drop t.headBytes_ ++ v) := by
  have hhoff : t.hoff = 4 - t.headBytes_ := if_pos hh
  have hlen : (first.reverse.drop t.headBytes_).length = t.hoff := by
    rw [List.length_drop, List.length_reverse, hfirst, hhoff]
  have hlen' : (first.drop t.headBytes_).length = t.hoff := by
    rw [List.length_drop, hfirst, hhoff]
  have hget : (m.put t.dst_ (first.reverse.drop t.headBytes_ ++ v)).get t.dst_ t.hoff =
      first.reverse.drop t.headBytes_ := by
    have h := Mem.get_part (m := m) (a := t.dst_) (u := []) (x := first.reverse.drop t.headBytes_)
      (v := v)
    rwa [List.nil_append, List.length_nil, Nat.add_zero, hlen] at h
  have hput := Mem.put_part (m := m) (a := t.dst_) (u := []) (v := v)
    (x := first.reverse.drop t.headBytes_) (y := first.drop t.headBytes_) (hlen'.trans hlen.symm)
  unfold swapHead
  rw [if_pos hh]
  dsimp only
  rw [if_neg (Nat.not_lt.2 hle), hhdr, hget, List.take_append_drop,
    swpw_eq host (by rwa [List.length_reverse]), List.reverse_reverse,
    List.take_of_length_le hlen'.le]
  simpa using hput

theorem swapWhole_eq {u v : Bytes} (hu : u.length = t.hoff) (hmid : mid.length = 4 * t.nWhole) :
    t.swapWhole host (m.put t.dst_ (u ++ swapWords mid ++ v)) = m.put t.dst_ (u ++ mid ++ v) := by
  have h := Mem.swap_part (m := m) (a := t.dst_) (u := u) (x := swapWords mid) (v := v)
    (fun w hw ↦ swpw_eq host hw) ((swapWords_length mid).trans hmid)
  rwa [swapWords_swapWords, hu] at h

/-- The last word is put together from the destination and from what is behind it. -/
theorem swapTail_eq {u : Bytes} (hlast : last.length = 4) (ht : t.tailBytes_ ≠ 0)
    (ht' : t.tailBytes_ < 4) (hle : t.hoff ≤ t.sbytes_)
    (hu : u.length = t.hoff + 4 * t.nWhole) :
    t.swapTail host (last.reverse.drop (4 - t.tailBytes_))
      (m.put t.dst_ (u ++ last.reverse.take (4 - t.tailBytes_))) =
        m.put t.dst_ (u ++ last.take (4 - t.tailBytes_)) := by
  have hlen : (last.reverse.take (4 - t.tailBytes_)).length = 4 - t.tailBytes_ := by
    rw [List.length_take, List.length_reverse, hlast]
    omega
  have hlen' : (last.take (4 - t.tailBytes_)).length = 4 - t.tailBytes_ := by
    rw [List.length_take, hlast]
    omega
  have hp : t.dst_ + t.hoff + 4 * t.nWhole = t.dst_ + u.length := by
    rw [hu, Nat.add_assoc]
  have hget : (m.put t.dst_ (u ++ last.reverse.take (4 - t.tailBytes_))).get (t.dst_ + u.length)
      (4 - t.tailBytes_) = last.reverse.take (4 - t.tailBytes_) := by
    have h := Mem.get_part (m := m) (a := t.dst_) (u := u) (v := [])
      (x := last.reverse.take (4 - t.tailBytes_))
    rwa [List.append_nil, hlen] at h
  have hput := Mem.put_part (m := m) (a := t.dst_) (u := u) (v := [])
    (x := last.reverse.take (4 - t.tailBytes_)) (y := last.take (4 - t.tailBytes_))
    (hlen'.trans hlen.symm)
  unfold swapTail
  rw [if_pos ⟨ht, hle⟩, hp]
  dsimp only
  rw [hget, List.take_append_drop, swpw_eq host (by rwa [List.length_reverse]), List.reverse_reverse]
  simpa using hput

/-- The bytes of the destination are turned word by word, as if the words were complete. -/
theorem swapPayload_eq (hh : t.headBytes_ < 4) (htail : t.tailBytes_ < 4)
    (hfirst : first.length = if t.headBytes_ ≠ 0 then 4 else 0) (hmid : mid.length = 4 * n)
    (hlast : last.length = if t.tailBytes_ ≠ 0 then 4 else 0)
    (hs : t.headBytes_ + t.sbytes_ + t.tailBytes_ = first.length + 4 * n + last.length)
    (hhdr : (rHdrBuf.drop 8).take t.headBytes_ = first.reverse.take t.headBytes_) :
    t.swapPayload host rHdrBuf (last.reverse.drop (4 - t.tailBytes_))
      (m.put t.dst_ (first.reverse.drop t.headBytes_ ++ swapWords mid ++
        last.reverse.take (4 - t.tailBytes_))) =
      m.put t.dst_ (first.drop t.headBytes_ ++ mid ++ last.take (4 - t.tailBytes_)) := by
  have hhoff : t.hoff = first.length - t.headBytes_ := by
    unfold hoff
    split_ifs at hfirst ⊢ <;> omega
  have hle : t.hoff ≤ t.sbytes_ := by
    split_ifs at hfirst hlast <;> omega
  have hn : n = t.nWhole := by
    unfold nWhole
    split_ifs at hfirst hlast <;> omega
  have hx : (first.drop t.headBytes_).length = t.hoff := List.length_drop.trans hhoff.symm
  have hwhole (v : Bytes) := @swapWhole_eq host m mid t _ v hx (hn ▸ hmid)
  have hhead : t.swapHead host rHdrBuf (last.reverse.drop (4 - t.tailBytes_))
      (m.put t.dst_ (first.reverse.drop t.headBytes_ ++ swapWords mid ++
        last.reverse.take (4 - t.tailBytes_))) =
      m.put t.dst_ (first.drop t.headBytes_ ++ swapWords mid ++
        last.reverse.take (4 - t.tailBytes_)) := by
    by_cases hzero : t.headBytes_ ≠ 0
    · rw [if_pos hzero] at hfirst
      rw [List.append_assoc, swapHead_eq hfirst hzero hle hhdr, List.append_assoc]
    · rw [if_neg hzero] at hfirst
      rw [List.eq_nil_iff_length_eq_zero.2 hfirst]
      exact if_neg hzero
  rw [swapPayload, hhead, hwhole]
  by_cases hzero : t.tailBytes_ ≠ 0
  · rw [if_pos hzero] at hlast
    refine swapTail_eq hlast hzero htail hle ?_
    rw [List.length_append, hx, hmid, hn]
  · rw [if_neg hzero] at hlast
    rw [List.eq_nil_iff_length_eq_zero.2 hlast]
    exact if_neg fun h ↦ hzero h.1

/-- Where one word covers all, the destination is written to the end of that word. -/
theorem swapPayload_short (hfirst : first.length = 4) (hh : t.headBytes_ ≠ 0)
    (hs : t.headBytes_ + t.sbytes_ < 4)
    (htail : t.headBytes_ + t.sbytes_ + t.tailBytes_ = 4)
    (hhdr : (rHdrBuf.drop 8).take t.headBytes_ = first.reverse.take t.headBytes_) :
    t.swapPayload host rHdrBuf (first.reverse.drop (t.headBytes_ + t.sbytes_))
      (m.put t.dst_ ((first.reverse.drop t.headBytes_).take t.sbytes_)) =
      m.put t.dst_ (first.drop t.headBytes_) := by
  have hhoff : t.hoff = 4 - t.headBytes_ := if_pos hh
  have hn : t.nWhole = 0 := by
    unfold nWhole
    omega
  have hlen : ((first.reverse.drop t.headBytes_).take t.sbytes_).length = t.sbytes_ := by
    rw [List.length_take, List.length_drop, List.length_reverse, hfirst]
    omega
  have hget : (m.put t.dst_ ((first.reverse.drop t.headBytes_).take t.sbytes_)).get t.dst_ t.sbytes_ =
      (first.reverse.drop t.headBytes_).take t.sbytes_ := by
    have h := @Mem.get_put m t.dst_ ((first.reverse.drop t.headBytes_).take t.sbytes_)
    rwa [hlen] at h
  have hword : first.reverse.take t.headBytes_ ++ ((first.reverse.drop t.headBytes_).take t.sbytes_ ++
      first.reverse.drop (t.headBytes_ + t.sbytes_)) = first.reverse := by
    rw [← List.drop_drop, List.take_append_drop, List.take_append_drop]
  have hlen' : (first.drop t.headBytes_).length = t.hoff := by
    rw [List.length_drop, hfirst, hhoff]
  have hhead : t.swapHead host rHdrBuf (first.reverse.drop (t.headBytes_ + t.sbytes_))
      (m.put t.dst_ ((first.reverse.drop t.headBytes_).take t.sbytes_)) =
      m.put t.dst_ (first.drop t.headBytes_) := by
    unfold swapHead
    rw [if_pos hh]
    dsimp only
    rw [if_pos (by omega), hhdr, hget, hword, swpw_eq host (by rwa [List.length_reverse]),
      List.reverse_reverse, List.take_of_length_le hlen'.le, Mem.put_put (by omega)]
  have htl : ¬ (t.tailBytes_ ≠ 0 ∧ t.hoff ≤ t.sbytes_) := by omega
  rw [swapPayload, hhead, swapWhole, hn, swapTail, if_neg htl]
  rfl

/-- The payload of a response, from the first byte of the destination on. -/
theorem swapPayload_data {data : Bytes} (hh : t.headBytes_ < 4) (htail : t.tailBytes_ < 4)
    (hsum : t.headBytes_ + t.sbytes_ + t.tailBytes_ = data.length) (hfour : 4 ∣ data.length)
    (hlong : t.headBytes_ = 0 ∨ 4 ≤ t.headBytes_ + t.sbytes_)
    (hhdr : (rHdrBuf.drop 8).take t.headBytes_ = (swapWords data).take t.headBytes_) :
    t.swapPayload host rHdrBuf ((swapWords data).drop (t.headBytes_ + t.sbytes_))
      (m.put t.dst_ (((swapWords data).drop t.headBytes_).take t.sbytes_)) =
      m.put t.dst_ ((data.drop t.headBytes_).take t.sbytes_) := by
  have hroom : (if t.headBytes_ ≠ 0 then 4 else 0) + (if t.tailBytes_ ≠ 0 then 4 else 0) ≤
      data.length := by
    split_ifs <;> omega
  obtain ⟨first, mid, last, rfl, hfirst, hlast⟩ := exists_middle hroom
  rw [List.length_append, List.length_append] at hsum hfour
  obtain ⟨n, hn⟩ : 4 ∣ mid.length := by
    split_ifs at hfirst hlast <;> omega
  have hfst : first.length = 4 * if t.headBytes_ ≠ 0 then 1 else 0 := by
    rw [hfirst]
    split_ifs <;> rfl
  have hwire : swapWords (first ++ mid ++ last) = first.reverse ++ swapWords mid ++ last.reverse := by
    rw [List.append_assoc, swapWords_append hfst, swapWords_append hn, swapWords_ite hfirst,
      swapWords_ite hlast, List.append_assoc]
  have hle : t.headBytes_ ≤ first.length := by
    split_ifs at hfirst <;> omega
  have hcut (x y z : Bytes) (hx : x.length = first.length) (hy : y.length = mid.length)
      (hz : z.length = last.length) :
      ((x ++ y ++ z).drop t.headBytes_).take t.sbytes_ =
        x.drop t.headBytes_ ++ y ++ z.take (4 - t.tailBytes_) ∧
      (x ++ y ++ z).drop (t.headBytes_ + t.sbytes_) = z.drop (4 - t.tailBytes_) := by
    have hdrop : (x ++ y ++ z).drop t.headBytes_ =
        (x.drop t.headBytes_ ++ y ++ z.take (4 - t.tailBytes_)) ++ z.drop (4 - t.tailBytes_) := by
      rw [List.append_assoc, List.drop_append_of_le_length (hx ▸ hle), List.append_assoc _ _ (z.drop _),
        List.take_append_drop, List.append_assoc]
    have hlen : (x.drop t.headBytes_ ++ y ++ z.take (4 - t.tailBytes_)).length = t.sbytes_ := by
      rw [List.length_append, List.length_append, List.length_drop, List.length_take]
      split_ifs at hfirst hlast <;> omega
    rw [← List.drop_drop, hdrop]
    exact ⟨List.take_left' hlen, List.drop_left' hlen⟩
  have hhead : (first.reverse ++ swapWords mid ++ last.reverse).take t.headBytes_ =
      first.reverse.take t.headBytes_ := by
    rw [List.append_assoc, List.take_append_of_le_length (by rwa [List.length_reverse])]
  rw [hwire] at hhdr ⊢
  rw [(hcut _ _ _ List.length_reverse (swapWords_length mid) List.length_reverse).1,
    (hcut _ _ _ List.length_reverse (swapWords_length mid) List.length_reverse).2,
    (hcut _ _ _ rfl rfl rfl).1]
  exact swapPayload_eq hh htail hfirst hn hlast (hn ▸ hsum) (hhdr.trans hhead)

end CSRPReadTransaction

namespace Address

variable {a : Address} {off : UInt64} {sbytes : ℕ}

/-- A payload as it is sent: version 1 has the words in the order of the network. -/
def wire (a : Address) (data : Bytes) : Bytes :=
  if a.protoVersion = .SRP_UDP_V1 then swapWords data else data

/-- How many bytes are written to the destination: where a single word is read in version 1, and not
from its start, all bytes up to its end. -/
def touched (a : Address) (off : UInt64) (sbytes : ℕ) : ℕ :=
  if a.protoVersion = .SRP_UDP_V1 ∧ a.headBytes off ≠ 0 ∧ a.headBytes off + sbytes < 4 then
    4 - a.headBytes off
  else sbytes

theorem wire_length (a : Address) (data : Bytes) : (a.wire data).length = data.length := by
  unfold wire
  split_ifs
  · exact swapWords_length data
  · rfl

theorem headBytes_lt (a : Address) (off : UInt64) : a.headBytes off < 4 := by
  unfold headBytes
  split_ifs
  · decide
  · have h : (off &&& 3).toNat = off.toNat % 2 ^ 2 := by
      rw [UInt64.toNat_and]
      exact Nat.and_two_pow_sub_one_eq_mod _ 2
    omega

/-- The words in front of a payload, and those around it. -/
def hdrWords (a : Address) : ℕ :=
  if a.protoVersion = .SRP_UDP_V3 then 5 else if a.protoVersion = .SRP_UDP_V1 then 3 else 2

end Address

namespace CSRPReadTransaction

variable {a : Address} {tid : SRPWord} {dst sbytes : ℕ} {off : UInt64} {rchn : BufChain}
variable {hdr data : Bytes}

theorem reset_expected (a : Address) (tid : SRPWord) (dst : ℕ) (off : UInt64) (sbytes : ℕ) :
    (reset a tid dst off sbytes).expected_ = a.hdrWords + 1 := by
  unfold reset Address.hdrWords
  cases a.protoVersion <;> rfl

theorem reset_tail (a : Address) (tid : SRPWord) (dst : ℕ) (off : UInt64) (sbytes : ℕ) :
    a.headBytes off + sbytes + (reset a tid dst off sbytes).tailBytes_ =
      4 * (reset a tid dst off sbytes).getNWords := by
  unfold reset getNWords getTotbytes
  dsimp only
  split_ifs <;> omega

theorem reset_tail_lt (a : Address) (tid : SRPWord) (dst : ℕ) (off : UInt64) (sbytes : ℕ) :
    (reset a tid dst off sbytes).tailBytes_ < 4 := by
  unfold reset
  dsimp only
  split_ifs <;> omega

theorem hdrSwap_zero (v : SRPProtoVersion) (host : ByteOrder) :
    hdrSwap v host (host.load [0, 0, 0, 0]) = 0 := by
  cases v <;> cases host <;> rfl

/-- Turning the words of the payload of a response. -/
theorem reset_swapPayload (hv : a.protoVersion = .SRP_UDP_V1)
    (hdata : data.length = 4 * (reset a tid dst off sbytes).getNWords)
    (hhdr : (rHdrBuf.drop 8).take (a.headBytes off) = (swapWords data).take (a.headBytes off)) :
    (reset a tid dst off sbytes).swapPayload host rHdrBuf
      ((swapWords data).drop (a.headBytes off + sbytes))
      (m.put dst (((swapWords data).drop (a.headBytes off)).take sbytes)) =
      m.put dst ((data.drop (a.headBytes off)).take (a.touched off sbytes)) := by
  have htail := reset_tail a tid dst off sbytes
  have hhead := a.headBytes_lt off
  have hlt := reset_tail_lt a tid dst off sbytes
  by_cases hshort : a.headBytes off ≠ 0 ∧ a.headBytes off + sbytes < 4
  · have hword : data.length = 4 := by omega
    have htouched : a.touched off sbytes = 4 - a.headBytes off := if_pos ⟨hv, hshort⟩
    have hall : ((data.drop (a.headBytes off)).take (4 - a.headBytes off)) =
        data.drop (a.headBytes off) :=
      List.take_of_length_le (by rw [List.length_drop, hword])
    rw [swapWords_word hword] at hhdr ⊢
    rw [htouched, hall]
    exact swapPayload_short (t := reset a tid dst off sbytes) hword hshort.1 hshort.2
      (htail.trans (by omega)) hhdr
  · have htouched : a.touched off sbytes = sbytes := if_neg fun h ↦ hshort h.2
    have hlong : a.headBytes off = 0 ∨ 4 ≤ a.headBytes off + sbytes := by omega
    rw [htouched]
    exact swapPayload_data (t := reset a tid dst off sbytes) hhead hlt (htail.trans hdata.symm)
      ⟨_, hdata⟩ hlong hhdr

/-- A response with the right number of words is delivered, and nothing else is written. -/
theorem complete_eq (hdst : dst ≠ 0) (hok : ∀ b ∈ rchn, b.Ok) (hhdr : hdr.length = 4 * a.hdrWords)
    (hdata : data.length = 4 * (reset a tid dst off sbytes).getNWords)
    (hbytes : rchn.bytes = hdr ++ a.wire data ++ [0, 0, 0, 0]) :
    (reset a tid dst off sbytes).complete a rchn m =
      (.ok (), m.put dst ((data.drop (a.headBytes off)).take (a.touched off sbytes))) := by
  have htail := reset_tail a tid dst off sbytes
  have hexpected := reset_expected a tid dst off sbytes
  have hwire := a.wire_length data
  have hgot : total rchn = 4 * ((reset a tid dst off sbytes).getNWords +
      (reset a tid dst off sbytes).expected_) := by
    rw [← bytes_length hok, hbytes, hexpected]
    simp only [List.length_append, hwire, hhdr, List.length_cons, List.length_nil]
    omega
  have hfront : (if a.protoVersion = .SRP_UDP_V1 then 4 else 0) +
      (reset a tid dst off sbytes).hdrWords_ * 4 = hdr.length := by
    rw [hhdr, Address.hdrWords]
    unfold reset
    cases a.protoVersion <;> rfl
  have hcut (k n : ℕ) (hkn : k + n ≤ (a.wire data).length) :
      extract (hdr.length + k) n rchn = ((a.wire data).drop k).take n := by
    rw [extract_eq hok, hbytes, List.append_assoc, ← List.drop_drop, List.drop_left' rfl,
      List.drop_append_of_le_length (by omega), List.take_append_of_le_length]
    rw [List.length_drop]
    omega
  have hstatus : extract (hdr.length + (a.wire data).length) 4 rchn = [0, 0, 0, 0] := by
    rw [extract_eq hok, hbytes, ← List.length_append, List.drop_left' rfl]
    rfl
  -- the offsets of the parts of the response
  have hdstoff : (if a.protoVersion = .SRP_UDP_V1 then 4 else 0) +
      ((reset a tid dst off sbytes).hdrWords_ * 4 + (reset a tid dst off sbytes).headBytes_) =
        hdr.length + a.headBytes off := by
    rw [← Nat.add_assoc, hfront]
    rfl
  have hd : extract (hdr.length + a.headBytes off) sbytes rchn =
      ((a.wire data).drop (a.headBytes off)).take sbytes := hcut _ _ (by omega)
  have ht : extract (hdr.length + a.headBytes off + sbytes)
      (reset a tid dst off sbytes).tailBytes_ rchn =
        (a.wire data).drop (a.headBytes off + sbytes) := by
    rw [Nat.add_assoc, hcut _ _ (by omega), List.take_of_length_le]
    rw [List.length_drop]
    omega
  have hst : hdr.length + a.headBytes off + sbytes + (reset a tid dst off sbytes).tailBytes_ =
      hdr.length + (a.wire data).length := by omega
  have hdst' : (reset a tid dst off sbytes).dst_ = dst := rfl
  have hsb : (reset a tid dst off sbytes).sbytes_ = sbytes := rfl
  unfold complete
  dsimp only
  rw [hdst', hsb, if_neg fun h ↦ hdst h.1, hgot, if_neg (not_not.2 rfl), hdstoff, hd, ht, hst, hstatus,
    if_neg (not_not.2 (hdrSwap_zero a.protoVersion a.host))]
  split_ifs with hv
  · have hwire' : a.wire data = swapWords data := if_pos hv
    have hwords : (reset a tid dst off sbytes).hdrWords_ = 2 := by
      unfold reset
      dsimp only
      rw [hv]
      rfl
    have hrhdr : ((extract 4 ((reset a tid dst off sbytes).hdrWords_ * 4 +
        (reset a tid dst off sbytes).headBytes_) rchn).drop 8).take (a.headBytes off) =
          (swapWords data).take (a.headBytes off) := by
      have hlen : hdr.length = 4 + 8 := by
        rw [← hfront, if_pos hv, hwords]
      have h := hcut 0 (a.headBytes off) (by omega)
      rw [extract_eq hok, Nat.add_zero, hlen] at h
      have hn : 2 * 4 + (reset a tid dst off sbytes).headBytes_ - 8 = a.headBytes off :=
        Nat.add_sub_cancel_left 8 (a.headBytes off)
      rw [extract_eq hok, hwords, List.drop_take, List.drop_drop, hn, h, hwire', List.drop_zero,
        List.take_take, Nat.min_self]
    rw [hwire', reset_swapPayload hv hdata hrhdr]
  · have hwire' : a.wire data = data := if_neg hv
    have htouched : a.touched off sbytes = sbytes := if_neg fun h ↦ hv h.1
    rw [hwire', htouched]

end CSRPReadTransaction

end Cpsw.Srp
