import Cpsw.Srp.Complete

namespace Cpsw.Srp

open ByteMux Depack Lib

namespace Address

/-- What the constructor of `CSRPAddressImpl` sees to. -/
structure Valid (a : Address) : Prop where
  srp : a.protoVersion ≠ .SRP_UDP_NONE
  bytes : a.byteResolution = true → a.protoVersion = .SRP_UDP_V3

/-- The bytes from `off` on that can be named in a request: the address of a word has 30 bits before
version 3. -/
def Reaches (a : Address) (off : UInt64) (nbytes : ℕ) : Prop :=
  off.toNat + nbytes ≤ if a.protoVersion = .SRP_UDP_V3 then 2 ^ 64 else 2 ^ 32

/-- The word of a request that says what is to be done, before version 3 with an address. -/
def isRead (a : Address) (w : SRPWord) : Bool :=
  if a.protoVersion = .SRP_UDP_V3 then w &&& 0xff = 3 && (w >>> 8) &&& 3 = 0
  else w &&& 0xc0000000 = 0

/-- What a device makes of a request to read: an address and a number of bytes. -/
def readRequest (a : Address) (ws : List SRPWord) : Option (ℕ × ℕ) :=
  match a.protoVersion, ws with
  | .SRP_UDP_V1, [_, _, addr, n, _] =>
    if a.isRead addr then some (addr.toNat * 4, (n.toNat + 1) * 4) else none
  | .SRP_UDP_V2, [_, addr, n, _] =>
    if a.isRead addr then some (addr.toNat * 4, (n.toNat + 1) * 4) else none
  | .SRP_UDP_V3, [cmd, _, lo, hi, n] =>
    if a.isRead cmd then some (lo.toNat + 2 ^ 32 * hi.toNat, n.toNat + 1) else none
  | _, _ => none

/-- The response of a device with these contents: it repeats the header, and says that all is well. -/
def Answers (a : Address) (dev : Mem) (ws : List SRPWord) (rchn : BufChain) : Prop :=
  ∃ off nbytes hdr data, a.readRequest ws = some (off, nbytes) ∧
    rchn.bytes = hdr ++ a.wire data ++ [0, 0, 0, 0] ∧ hdr.length = 4 * a.hdrWords ∧
    data.length = 4 * ((nbytes + 3) / 4) ∧ data.take nbytes = dev.get off nbytes

/-- The response has the identifier of the request. -/
def Matches (a : Address) (ws : List SRPWord) (rchn : BufChain) : Prop :=
  (a.tidOf ws).map toTid = some (toTid ((order a.protoVersion).load (tidWord a.protoVersion rchn)))

/-- What may come as long as a request is under way: whatever has its identifier answers it. Other
responses may come as well, and none may come. -/
def Expects (a : Address) (dev : Mem) (ws : List SRPWord) (pops : List (Option BufChain)) : Prop :=
  ∀ rchn, some rchn ∈ pops → (∀ b ∈ rchn, b.Ok) ∧ (tidWord a.protoVersion rchn).length = 4 ∧
    (a.Matches ws rchn → a.Answers dev ws rchn)

/-- A request to read bytes between two addresses, no more than `room` at a time. -/
def Asks (a : Address) (lo hi room : ℕ) (ws : List SRPWord) : Prop :=
  ∃ o n, a.readRequest ws = some (o, n) ∧ lo ≤ o ∧ o + n ≤ hi ∧ n ≤ room ∧
    (a.byteResolution = false → o % 4 = 0 ∧ n % 4 = 0)

def Serves (a : Address) (dev : Mem) (lo hi room : ℕ) (peer : Peer) : Prop :=
  ∀ ws, a.Asks lo hi room ws → a.Expects dev ws (peer ws)

/-- The answer comes before the last attempt has timed out. -/
def InTime (a : Address) (ws : List SRPWord) (pops : List (Option BufChain)) : Prop :=
  ∃ early rchn late, pops = early ++ some rchn :: late ∧ a.Matches ws rchn ∧
    early.count none ≤ a.retryCnt

def Timely (a : Address) (lo hi room : ℕ) (peer : Peer) : Prop :=
  ∀ ws, a.Asks lo hi room ws → a.InTime ws (peer ws)

/-- Where the last word ends. -/
def wordEnd (a : Address) (e : ℕ) : ℕ := if a.byteResolution then e else (e + 3) / 4 * 4

variable {a : Address} {off : UInt64} {sbytes : ℕ} {tid : SRPWord}

theorem headBytes_eq (h : a.byteResolution = false) (off : UInt64) :
    a.headBytes off = off.toNat % 4 := by
  rw [headBytes, h, if_neg Bool.false_ne_true, UInt64.toNat_and]
  exact Nat.and_two_pow_sub_one_eq_mod _ 2

theorem headBytes_bytes (h : a.byteResolution = true) (off : UInt64) : a.headBytes off = 0 := by
  rw [headBytes, h, if_pos rfl]

/-- A number of words or bytes that is sent less one. -/
theorem toNat_less_one {n : ℕ} (hpos : 0 < n) (h : n ≤ 2 ^ 32) :
    ((.ofNat n - 1 : UInt32)).toNat + 1 = n := by
  rw [UInt32.toNat_sub, UInt32.toNat_ofNat']
  have hone : (1 : UInt32).toNat = 1 := rfl
  omega

/-- The address of a word, in 30 bits. -/
theorem wordAddr (h : off.toNat < 2 ^ 32) :
    ((off >>> 2).toUInt32 &&& 0x3fffffff).toNat * 4 = off.toNat - off.toNat % 4 := by
  have hmask : (0x3fffffff : UInt32).toNat = 2 ^ 30 - 1 := rfl
  have htwo : (2 : UInt64).toNat % 64 = 2 := rfl
  rw [UInt32.toNat_and, hmask, Nat.and_two_pow_sub_one_eq_mod, UInt64.toNat_toUInt32,
    UInt64.toNat_shiftRight, htwo, Nat.shiftRight_eq_div_pow]
  omega

theorem isRead_wordAddr (hv : a.protoVersion ≠ .SRP_UDP_V3) (w : SRPWord) :
    a.isRead (w &&& 0x3fffffff) = true := by
  have hnone : (0x3fffffff : SRPWord) &&& 0xc0000000 = 0 := rfl
  rw [isRead, if_neg hv, UInt32.and_assoc, hnone, UInt32.and_zero]
  rfl

/-- The two halves of an address. -/
theorem halves (off : UInt64) :
    off.toUInt32.toNat + 2 ^ 32 * (off >>> 32).toUInt32.toNat = off.toNat := by
  have h : (32 : UInt64).toNat % 64 = 32 := rfl
  have hlt := off.toNat_lt
  rw [UInt64.toNat_toUInt32, UInt64.toNat_toUInt32, UInt64.toNat_shiftRight, h,
    Nat.shiftRight_eq_div_pow]
  omega

theorem aligned (off : UInt64) : (off &&& ~~~3).toNat = off.toNat - off.toNat % 4 := by
  have hmask : (~~~3 : UInt64).toNat = (2 ^ 62 - 1) <<< 2 := rfl
  have hback : off.toNat - off.toNat % 4 = off.toNat >>> 2 <<< 2 := by
    rw [Nat.shiftRight_eq_div_pow, Nat.shiftLeft_eq]
    omega
  have hlt : off.toNat >>> 2 < 2 ^ 62 := by
    have := off.toNat_lt
    rw [Nat.shiftRight_eq_div_pow]
    omega
  have hlow : off.toNat >>> 2 <<< 2 = (off.toNat >>> 2 &&& (2 ^ 62 - 1)) <<< 2 := by
    rw [Nat.and_two_pow_sub_one_eq_mod, Nat.mod_eq_of_lt hlt]
  rw [UInt64.toNat_and, hmask, hback, hlow]
  refine Nat.eq_of_testBit_eq fun i ↦ ?_
  simp only [Nat.testBit_and, Nat.testBit_shiftLeft, Nat.testBit_shiftRight]
  by_cases hi : 2 ≤ i
  · simp [hi]
  · simp [hi]

/-- What is asked for starts at the word with the first byte, and goes to the end of the last word or
to the last byte. -/
theorem readRequest_eq (tid : SRPWord) (hvalid : a.Valid) (hreach : a.Reaches off sbytes)
    (hpos : 0 < sbytes) (hlen : a.headBytes off + sbytes ≤ 2 ^ 30) :
    ∃ nbytes, a.readRequest (a.readHeader tid off sbytes) =
        some (off.toNat - a.headBytes off, nbytes) ∧ a.headBytes off ≤ off.toNat ∧
      a.headBytes off + a.touched off sbytes ≤ nbytes ∧
      (nbytes + 3) / 4 = (a.headBytes off + sbytes + 3) / 4 ∧
      off.toNat - a.headBytes off + nbytes = a.wordEnd (off.toNat + sbytes) := by
  have hone (n : ℕ) (hn : 0 < n) (hn' : n ≤ 2 ^ 32) := toNat_less_one hn hn'
  have htouched : a.touched off sbytes ≤ 4 * ((a.headBytes off + sbytes + 3) / 4) - a.headBytes off := by
    unfold touched
    split_ifs <;> omega
  have hle : a.headBytes off ≤ off.toNat := by
    cases hb : a.byteResolution with
    | false =>
      rw [headBytes_eq hb]
      exact Nat.mod_le _ _
    | true =>
      rw [headBytes_bytes hb]
      exact Nat.zero_le _
  have hend (hb : a.byteResolution = false) : off.toNat - a.headBytes off +
      (a.headBytes off + sbytes + 3) / 4 * 4 = a.wordEnd (off.toNat + sbytes) := by
    rw [wordEnd, hb, if_neg Bool.false_ne_true]
    rw [headBytes_eq hb] at hle ⊢
    omega
  have hshort (hv : a.protoVersion ≠ .SRP_UDP_V3) : a.byteResolution = false ∧
      a.headBytes off = off.toNat % 4 ∧ off.toNat < 2 ^ 32 := by
    have hb : a.byteResolution = false := Bool.not_eq_true _ ▸ fun hb ↦ hv (hvalid.bytes hb)
    unfold Reaches at hreach
    rw [if_neg hv] at hreach
    exact ⟨hb, headBytes_eq hb off, by omega⟩
  cases hv : a.protoVersion with
  | SRP_UDP_NONE => exact absurd hv hvalid.srp
  | SRP_UDP_V1 =>
    have hne : a.protoVersion ≠ .SRP_UDP_V3 := by
      rw [hv]
      exact SRPProtoVersion.noConfusion
    obtain ⟨hb, hhead, hlt⟩ := hshort hne
    refine ⟨(a.headBytes off + sbytes + 3) / 4 * 4, ?_, hle, by omega, by omega, hend hb⟩
    unfold readRequest readHeader vcWords
    rw [hv]
    simp only [reduceCtorEq, if_false, if_true, List.cons_append, List.nil_append]
    rw [if_pos (isRead_wordAddr hne _), wordAddr hlt, hone _ (by omega) (by omega), hhead]
  | SRP_UDP_V2 =>
    have hne : a.protoVersion ≠ .SRP_UDP_V3 := by
      rw [hv]
      exact SRPProtoVersion.noConfusion
    obtain ⟨hb, hhead, hlt⟩ := hshort hne
    refine ⟨(a.headBytes off + sbytes + 3) / 4 * 4, ?_, hle, by omega, by omega, hend hb⟩
    unfold readRequest readHeader vcWords
    rw [hv]
    simp only [reduceCtorEq, if_false, List.nil_append]
    rw [if_pos (isRead_wordAddr hne _), wordAddr hlt, hone _ (by omega) (by omega), hhead]
  | SRP_UDP_V3 =>
    have hread : a.isRead (0 ||| 3) = true := by
      rw [isRead, if_pos hv]
      rfl
    unfold readRequest readHeader wordsV3
    rw [hv]
    simp only [if_true, hread]
    cases hb : a.byteResolution with
    | false =>
      refine ⟨(a.headBytes off + sbytes + 3) / 4 * 4, ?_, hle, by omega, by omega, hend hb⟩
      simp only [Bool.false_eq_true, if_false]
      have hhalves := halves off
      have hlow : (off &&& ~~~3).toUInt32.toNat = off.toUInt32.toNat - off.toNat % 4 := by
        rw [UInt64.toNat_toUInt32, UInt64.toNat_toUInt32, aligned]
        omega
      have hmod : off.toUInt32.toNat % 4 = off.toNat % 4 := by
        rw [UInt64.toNat_toUInt32]
        omega
      have hsum : (off &&& ~~~3).toUInt32.toNat + 2 ^ 32 * (off >>> 32).toUInt32.toNat =
          off.toNat - off.toNat % 4 := by
        rw [hlow]
        omega
      rw [Nat.shiftLeft_eq, hone _ (by omega) (by omega), headBytes_eq hb, hsum]
    | true =>
      refine ⟨a.headBytes off + sbytes, ?_, hle, ?_, rfl, ?_⟩
      · simp only [if_true]
        rw [hone _ (by omega) (by omega), halves, headBytes_bytes hb, Nat.sub_zero]
      · have ht : a.touched off sbytes = sbytes := if_neg fun h ↦ h.2.1 (headBytes_bytes hb off)
        rw [ht]
      · rw [wordEnd, hb, if_pos rfl, headBytes_bytes hb]
        omega

/-- A request asks for words as a whole, but where there is byte resolution. -/
theorem asks_readHeader {lo hi room : ℕ} (tid : SRPWord) (hvalid : a.Valid)
    (hreach : a.Reaches off sbytes) (hpos : 0 < sbytes) (hlen : a.headBytes off + sbytes ≤ 2 ^ 30)
    (hlo : lo ≤ off.toNat - a.headBytes off) (hhi : a.wordEnd (off.toNat + sbytes) ≤ hi)
    (hroom : (a.headBytes off + sbytes + 3) / 4 * 4 ≤ room) :
    a.Asks lo hi room (a.readHeader tid off sbytes) := by
  obtain ⟨n, hreq, -, -, hwords, hend⟩ := readRequest_eq tid hvalid hreach hpos hlen
  refine ⟨_, n, hreq, hlo, hend.trans_le hhi, by omega, fun hb ↦ ?_⟩
  rw [wordEnd, hb, if_neg Bool.false_ne_true] at hend
  rw [headBytes_eq hb] at hend ⊢
  omega

/-- What an answer delivers. -/
theorem Answers.deliver {dev m : Mem} {dst : ℕ} {rchn : BufChain} (hvalid : a.Valid)
    (hreach : a.Reaches off sbytes) (hpos : 0 < sbytes) (hlen : a.headBytes off + sbytes ≤ 2 ^ 30)
    (hdst : dst ≠ 0) (hok : ∀ b ∈ rchn, b.Ok)
    (h : a.Answers dev (a.readHeader tid off sbytes) rchn) :
    (CSRPReadTransaction.reset a tid dst off sbytes).complete a rchn m =
      (.ok (), m.put dst (dev.get off.toNat (a.touched off sbytes))) := by
  obtain ⟨nbytes, hreq, hle, htouched, hwords, -⟩ := readRequest_eq tid hvalid hreach hpos hlen
  obtain ⟨o, n, hdr, data, ho, hbytes, hhdr, hdata, hdev⟩ := h
  obtain ⟨rfl, rfl⟩ := Prod.mk.inj (Option.some.inj (ho.symm.trans hreq))
  have hsame : (data.drop (a.headBytes off)).take (a.touched off sbytes) =
      dev.get off.toNat (a.touched off sbytes) := by
    have hcut : ((data.take n).drop (a.headBytes off)).take (a.touched off sbytes) =
        (data.drop (a.headBytes off)).take (a.touched off sbytes) := by
      rw [List.drop_take, List.take_take, Nat.min_eq_left (by omega)]
    have hoff : off.toNat - a.headBytes off + a.headBytes off = off.toNat := Nat.sub_add_cancel hle
    rw [← hcut, hdev, Mem.get_drop (by omega), hoff, Mem.get_take (by omega)]
  rw [CSRPReadTransaction.complete_eq hdst hok hhdr (hdata.trans (by rw [hwords]; rfl)) hbytes, hsame]

end Address

end Cpsw.Srp
