import Cpsw.Srp.Obey
import Cpsw.Srp.Serve

namespace Cpsw.Srp

open ByteMux Depack Lib Address

variable {σ : Type} {sv : Server σ} {a : Address} {ws : List SRPWord} {rbuf : Mem} {w : SRPWord}
variable {body data : Bytes} {i n o : ℕ}

/-- The parts of a request to write. -/
structure Address.Splits (a : Address) (ws : List SRPWord) (body data : Bytes) : Prop where
  head : ws.length = a.hdrWords
  length : body.length = 4 * ((data.length + 3) / 4) + if a.protoVersion = .SRP_UDP_V3 then 0 else 4
  payload : (a.wire (body.take (4 * ((data.length + 3) / 4)))).take data.length = data
  words : a.protoVersion ≠ .SRP_UDP_V3 → data.length % 4 = 0

theorem splits_of_writeRequest (h : a.writeRequest ws body = some (o, data)) :
    a.Splits ws body data := by
  have hold (hv : a.protoVersion ≠ .SRP_UDP_V3) (h4 : 4 ≤ body.length) (hmod : body.length % 4 = 0)
      (hdata : a.wire (body.take (body.length - 4)) = data) (hlen : ws.length = a.hdrWords) :
      a.Splits ws body data := by
    have hn : data.length = body.length - 4 := by
      rw [← hdata, wire_length, List.length_take]
      omega
    have hwords : 4 * ((data.length + 3) / 4) = body.length - 4 := by omega
    refine ⟨hlen, ?_, ?_, fun _ ↦ by omega⟩
    · rw [hwords, if_neg hv]
      omega
    · rw [hwords, hdata, List.take_length]
  unfold writeRequest at h
  split at h
  case h_1 hv =>
    split_ifs at h with hp
    obtain ⟨-, hdata⟩ := Prod.mk.inj (Option.some.inj h)
    simp only [Bool.and_eq_true, decide_eq_true_eq] at hp
    exact hold (hv ▸ SRPProtoVersion.noConfusion) hp.1.2 hp.2 hdata (by rw [hdrWords, hv]; rfl)
  case h_2 hv =>
    split_ifs at h with hp
    obtain ⟨-, hdata⟩ := Prod.mk.inj (Option.some.inj h)
    simp only [Bool.and_eq_true, decide_eq_true_eq] at hp
    exact hold (hv ▸ SRPProtoVersion.noConfusion) hp.1.2 hp.2 hdata (by rw [hdrWords, hv]; rfl)
  case h_3 cmd tid lo hi k hv =>
    split_ifs at h with hp
    obtain ⟨-, hdata⟩ := Prod.mk.inj (Option.some.inj h)
    simp only [Bool.and_eq_true, decide_eq_true_eq] at hp
    have hn : data.length = k.toNat + 1 := by
      rw [← hdata, List.length_take]
      omega
    have hwords : 4 * ((data.length + 3) / 4) = body.length := by omega
    refine ⟨by rw [hdrWords, hv]; rfl, ?_, ?_, fun h ↦ absurd hv h⟩
    · rw [hwords, hv]
      rfl
    · rw [hwords, List.take_length, wire, hv, if_neg SRPProtoVersion.noConfusion, hn, hdata]
  case h_4 => cases h

/-- The bits above an address are shifted out. -/
theorem toNat_shl_addr (w : SRPWord) : (w <<< 2).toUInt64.toNat = (w &&& 0x3fffffff).toNat * 4 := by
  have htwo : (2 : UInt32).toNat % 32 = 2 := rfl
  have hmask : (0x3fffffff : UInt32).toNat = 2 ^ 30 - 1 := rfl
  rw [UInt32.toNat_toUInt64, UInt32.toNat_shiftLeft, htwo, Nat.shiftLeft_eq, UInt32.toNat_and, hmask,
    Nat.and_two_pow_sub_one_eq_mod]
  omega

theorem toNat_ofNat_sub {k : ℕ} (hn : n < 2 ^ 32) :
    (.ofNat (k + n) - .ofNat k : UInt32).toNat = n := by
  rw [UInt32.toNat_sub, UInt32.toNat_ofNat', UInt32.toNat_ofNat']
  omega

/-- A number of bytes up to a word. -/
theorem toNat_words_up {k : UInt32} (hk : k.toNat + 4 < 2 ^ 32) :
    (k + 1 + 3) &&& ~~~3 = .ofNat (4 * ((k.toNat + 1 + 3) / 4)) := by
  have hone : (1 : UInt32).toNat = 1 := rfl
  have hthree : (3 : UInt32).toNat = 3 := rfl
  have hmask : (~~~3 : UInt32).toNat = (2 ^ 30 - 1) <<< 2 := rfl
  have hsum : (k + 1 + 3).toNat = k.toNat + 4 := by
    rw [UInt32.toNat_add, UInt32.toNat_add, hone, hthree]
    omega
  have hlow : (k.toNat + 4) &&& (2 ^ 30 - 1) <<< 2 = (k.toNat + 4) / 4 * 4 := by
    have hlt : (k.toNat + 4) >>> 2 < 2 ^ 30 := by
      rw [Nat.shiftRight_eq_div_pow]
      omega
    have hback : (k.toNat + 4) / 4 * 4 = ((k.toNat + 4) >>> 2 &&& (2 ^ 30 - 1)) <<< 2 := by
      rw [Nat.and_two_pow_sub_one_eq_mod, Nat.mod_eq_of_lt hlt, Nat.shiftRight_eq_div_pow,
        Nat.shiftLeft_eq]
    rw [hback]
    refine Nat.eq_of_testBit_eq fun i ↦ ?_
    simp only [Nat.testBit_and, Nat.testBit_shiftLeft, Nat.testBit_shiftRight]
    by_cases hi : 2 ≤ i
    · simp [hi]
    · simp [hi]
  refine UInt32.toNat_inj.1 ?_
  rw [UInt32.toNat_and, hsum, hmask, hlow, UInt32.toNat_ofNat']
  omega

namespace Server

/-- What `handleSRP` has to find in a request to write. -/
structure Writes (sv : Server σ) (a : Address) (r : SRPRequest) (o n got : ℕ) : Prop where
  cmd : r.cmd = .WR ∨ r.cmd = .PWR
  off : r.off.toNat = o
  size : r.size.toNat = n
  ooff : r.ooff = a.hdrWords
  noexec : r.noexec = false
  status : r.status = 0
  drops : sv.drops r got = false
  payload : got - sv.expected = 4 * ((n + 3) / 4)

theorem parseV12_write {addr : SRPWord} {hoff : ℕ} (hv : sv.vers = a.protoVersion)
    (hv3 : a.protoVersion ≠ .SRP_UDP_V3)
    (hhoff : hoff = if a.protoVersion = .SRP_UDP_V1 then 1 else 0)
    (haddr : sv.word rbuf (hoff + 1) = addr) (hwrite : a.isWrite addr = true) (hn : n < 2 ^ 32)
    (hmod : n % 4 = 0) :
    Writes sv a (sv.parse rbuf (4 * (hoff + 3) + n)) ((addr &&& 0x3fffffff).toNat * 4) n
      (4 * (hoff + 3) + n) := by
  have hthree : sv.v3 = false := by
    rw [v3, hv]
    exact decide_eq_false hv3
  have hone : (if sv.v1 = true then 1 else 0) = hoff := by
    rw [hhoff, v1, hv]
    simp
  have hexpected : sv.expected = 4 * (hoff + 3) := by
    rw [expected, hthree, hhoff, v1, hv]
    cases a.protoVersion <;> rfl
  have hcmd : addr &&& 0xc0000000 ≠ 0 := by
    rw [isWrite, if_neg hv3, decide_eq_true_eq] at hwrite
    rw [hwrite]
    decide
  have hparse : sv.parse rbuf (4 * (hoff + 3) + n) =
      { cmd := .WR, off := (addr <<< 2).toUInt64
        size := .ofNat (4 * (hoff + 3) + n) - .ofNat (4 * (hoff + 3)), ooff := hoff + 2
        noexec := false, status := 0, rbuf := rbuf } := by
    rw [parse, hthree, if_neg Bool.false_ne_true, parseV12, hone, haddr, if_neg hcmd,
      if_neg (by decide), hexpected]
  rw [hparse]
  refine ⟨.inl rfl, ?_, ?_, ?_, rfl, rfl, ?_, ?_⟩
  · exact toNat_shl_addr addr
  · exact toNat_ofNat_sub hn
  · rw [hdrWords, if_neg hv3, hhoff]
    split_ifs <;> rfl
  · unfold drops
    rw [hexpected, hthree, Bool.false_and, Bool.or_false, Bool.or_eq_false_iff, decide_eq_false_iff_not,
      decide_eq_false_iff_not]
    omega
  · rw [hexpected]
    omega

theorem parseV3_write {cmd lo hi k : SRPWord} {pad : ℕ} (hv : sv.vers = a.protoVersion)
    (hv3 : a.protoVersion = .SRP_UDP_V3) (hcmd : sv.word rbuf 0 = cmd) (hlo : sv.word rbuf 2 = lo)
    (hhi : sv.word rbuf 3 = hi) (hk : sv.word rbuf 4 = k) (hwrite : a.isWrite cmd = true)
    (hn : k.toNat + 4 < 2 ^ 32) (hpad : pad = 4 * ((k.toNat + 1 + 3) / 4)) :
    Writes sv a (sv.parse rbuf (20 + pad)) (lo.toNat + 2 ^ 32 * hi.toNat) (k.toNat + 1)
      (20 + pad) := by
  have hthree : sv.v3 = true := by
    rw [v3, hv]
    exact decide_eq_true hv3
  rw [isWrite, if_pos hv3, Bool.and_eq_true, decide_eq_true_iff] at hwrite
  have hwr : cmdV3 cmd = .WR ∨ cmdV3 cmd = .PWR := by
    have h := hwrite.2
    rw [Bool.or_eq_true, decide_eq_true_iff, decide_eq_true_iff] at h
    unfold cmdV3
    rcases h with h | h <;> rw [h] <;> decide
  have hnop : cmdV3 cmd ≠ .NOP := fun h ↦ by
    rw [h] at hwr
    exact absurd hwr (by decide)
  have hsize : (k + 1).toNat = k.toNat + 1 := by
    have hone : (1 : UInt32).toNat = 1 := rfl
    rw [UInt32.toNat_add, hone]
    omega
  rw [parse, hthree, if_pos rfl, parseV3, hcmd, hlo, hhi, hk]
  refine ⟨hwr, toNat_halves lo hi, ?_, ?_, ?_, ?_, ?_, ?_⟩
  · rw [if_neg hnop]
    exact hsize
  · rw [hdrWords, if_pos hv3]
  · exact decide_eq_false (not_not.2 hwrite.1)
  · exact if_neg (not_not.2 hwrite.1)
  · have hup := toNat_words_up hn
    rw [← hpad] at hup
    have hexpected : sv.expected = 20 := by
      rw [expected, hthree, if_pos rfl]
    have hmod : (20 + pad) % 4 = 0 := by omega
    unfold drops
    rw [if_neg hnop, hexpected, Nat.add_sub_cancel_left, hmod, hup]
    rcases hwr with h | h <;> rw [h] <;> simp
  · rw [expected, hthree, if_pos rfl, hpad]
    omega

theorem parse_write (hv : sv.vers = a.protoVersion)
    (hreq : rbuf.get 0 (4 * ws.length + body.length) = a.message ws ++ body)
    (hwrite : a.writeRequest ws body = some (o, data)) (hn : data.length + 3 < 2 ^ 32) :
    Writes sv a (sv.parse rbuf (4 * ws.length + body.length)) o data.length
      (4 * ws.length + body.length) := by
  obtain ⟨hhead, hlength, hpayload, hwords⟩ := splits_of_writeRequest hwrite
  have hmessage : rbuf.get 0 (4 * ws.length) = a.message ws := by
    rw [← Mem.get_take (Nat.le_add_right _ body.length), hreq, List.take_left' (message_length ws)]
  have hword {i : ℕ} {w : SRPWord} (hw : ws[i]? = some w) : sv.word rbuf i = w := word_eq hv hmessage hw
  unfold writeRequest at hwrite
  split at hwrite
  case h_1 vc tid addr hv1 =>
    split_ifs at hwrite with hp
    simp only [Bool.and_eq_true, decide_eq_true_eq] at hp
    obtain ⟨ho, -⟩ := Prod.mk.inj (Option.some.inj hwrite)
    have hne : a.protoVersion ≠ .SRP_UDP_V3 := hv1 ▸ SRPProtoVersion.noConfusion
    have hmod := hwords hne
    rw [if_neg hne] at hlength
    have hgot : 4 * [vc, tid, addr].length + body.length = 4 * (1 + 3) + data.length := by
      rw [List.length_cons, List.length_cons, List.length_cons, List.length_nil]
      omega
    rw [← ho, hgot]
    exact parseV12_write hv hne (by rw [hv1]; rfl) (hword rfl) hp.1.1 (by omega) (by omega)
  case h_2 tid addr hv2 =>
    split_ifs at hwrite with hp
    simp only [Bool.and_eq_true, decide_eq_true_eq] at hp
    obtain ⟨ho, -⟩ := Prod.mk.inj (Option.some.inj hwrite)
    have hne : a.protoVersion ≠ .SRP_UDP_V3 := hv2 ▸ SRPProtoVersion.noConfusion
    have hmod := hwords hne
    rw [if_neg hne] at hlength
    have hgot : 4 * [tid, addr].length + body.length = 4 * (0 + 3) + data.length := by
      rw [List.length_cons, List.length_cons, List.length_nil]
      omega
    rw [← ho, hgot]
    exact parseV12_write hv hne (by rw [hv2]; rfl) (hword rfl) hp.1.1 (by omega) (by omega)
  case h_3 cmd tid lo hi k hv3 =>
    split_ifs at hwrite with hp
    simp only [Bool.and_eq_true, decide_eq_true_eq] at hp
    obtain ⟨ho, hdata⟩ := Prod.mk.inj (Option.some.inj hwrite)
    have hk : data.length = k.toNat + 1 := by
      rw [← hdata, List.length_take]
      omega
    have hgot : 4 * [cmd, tid, lo, hi, k].length + body.length = 20 + body.length := rfl
    rw [← ho, hgot, hk]
    exact parseV3_write hv hv3 (hword rfl) (hword rfl) (hword rfl) (hword rfl) hp.1 (by omega)
      (by omega)
  case h_4 => cases hwrite

/-- Nothing behind the command word is changed when a request is parsed. -/
theorem parse_rbuf (sv : Server σ) (rbuf : Mem) (got : ℕ) (hi : 4 ≤ i) (n : ℕ) :
    (sv.parse rbuf got).rbuf.get i n = rbuf.get i n := by
  have hle : 0 + (sv.host.store (bs32 sv.v1 sv.host (sv.replyV3 (sv.word rbuf 0)))).length ≤ i := by
    rwa [store_length]
  unfold parse
  split_ifs
  · exact Mem.get_put_of_disjoint (.inr hle)
  · rfl

variable {range : Range σ} {st : σ}

/-- A request to write memory is done, and it is replied to when it is not posted. -/
theorem handleSRP_write (hv : sv.vers = a.protoVersion)
    (hreq : rbuf.get 0 (4 * ws.length + body.length) = a.message ws ++ body)
    (hwrite : a.writeRequest ws body = some (o, data)) (hn : data.length + 3 < 2 ^ 32)
    (hcovers : Covers sv range (sv.parse rbuf (4 * ws.length + body.length)).off data.length)
    (hrange : (range.write st data
      ((sv.parse rbuf (4 * ws.length + body.length)).off - range.base)).2 = true) :
    ∃ nbytes rbuf', sv.handleSRP st rbuf (4 * ws.length + body.length) = (nbytes, rbuf',
        (range.write st data ((sv.parse rbuf (4 * ws.length + body.length)).off - range.base)).1) ∧
      (nbytes ≠ 0 → ∃ front, rbuf'.get 0 nbytes = front ++ [0, 0, 0, 0] ∧
        front.length = 4 * (a.hdrWords + (data.length + 3) / 4)) := by
  obtain ⟨hhead, hlength, hpayload, hwords⟩ := splits_of_writeRequest hwrite
  obtain ⟨hcmd, -, hsize, hooff, hnoexec, hstatus, hdrops, hgot⟩ := parse_write hv hreq hwrite hn
  have hbody := congrArg (List.drop (4 * ws.length)) hreq
  rw [Mem.get_drop (Nat.le_add_right _ _), List.drop_left' (message_length ws), Nat.zero_add,
    Nat.add_sub_cancel_left, hhead] at hbody
  have hpart : (sv.parse rbuf (4 * ws.length + body.length)).rbuf.get (4 * a.hdrWords)
      (4 * ((data.length + 3) / 4)) = body.take (4 * ((data.length + 3) / 4)) := by
    have h4 : 4 ≤ 4 * a.hdrWords := by
      unfold hdrWords
      split_ifs <;> omega
    rw [parse_rbuf sv rbuf _ h4]
    conv_rhs => rw [← hbody, Mem.get_take (by omega)]
  generalize hparse : sv.parse rbuf (4 * ws.length + body.length) = r at *
  have hnw : ((r.size + 3) / 4).toNat = (data.length + 3) / 4 := by
    have hthree : (3 : UInt32).toNat = 3 := rfl
    have hfour : (4 : UInt32).toNat = 4 := rfl
    rw [UInt32.toNat_div, UInt32.toNat_add, hthree, hfour, hsize]
    omega
  rw [← hooff] at hpart
  let m₁ := r.rbuf.put (4 * r.ooff) (a.wire (body.take (4 * ((data.length + 3) / 4))))
  have hswap : sv.payload_swap r.ooff ((4 * ws.length + body.length - sv.expected) / 4) r.rbuf = m₁ := by
    rw [hgot, Nat.mul_div_cancel_left _ (by norm_num), payload_swap_eq hv, hpart]
  have hlen : (a.wire (body.take (4 * ((data.length + 3) / 4)))).length =
      4 * ((data.length + 3) / 4) := by
    rw [wire_length, List.length_take]
    omega
  have hdata : m₁.get (4 * r.ooff) data.length = data := by
    have hget : m₁.get (4 * r.ooff) (4 * ((data.length + 3) / 4)) =
        a.wire (body.take (4 * ((data.length + 3) / 4))) := by
      conv_lhs => rw [← hlen]
      exact Mem.get_put
    rw [← Mem.get_take (show data.length ≤ 4 * ((data.length + 3) / 4) by omega), hget, hpayload]
  have hrd : r.cmd ≠ .RD ∧ r.cmd ≠ .NOP := by
    rcases hcmd with h | h <;> rw [h] <;> decide
  have hrefuses : sv.refuses r = false := Covers.refuses (hsize.symm ▸ hcovers)
  have hinside := Covers.inside (hsize.symm ▸ hcovers)
  have haccess : sv.access st r (4 * ws.length + body.length) =
      (false, m₁, (range.write st data (r.off - range.base)).1) := by
    unfold access
    rw [hcovers.find]
    dsimp only
    rw [if_neg hinside, if_neg hrd.1, hswap, hsize, hdata, hrange]
    rfl
  unfold handleSRP
  rw [hparse]
  dsimp only
  rw [hdrops, hnoexec, decide_eq_false hrd.2, hrefuses, haccess]
  simp only [Bool.or_self, Bool.false_eq_true, if_false]
  split_ifs
  · exact ⟨0, m₁, rfl, fun h ↦ absurd rfl h⟩
  · refine ⟨_, _, rfl, fun _ ↦ ⟨m₁.get 0 (4 * (a.hdrWords + (data.length + 3) / 4)), ?_,
      Mem.get_length⟩⟩
    have hstore : sv.host.store 0 = [0, 0, 0, 0] := by
      cases sv.host <;> rfl
    have hsum : (a.hdrWords + (data.length + 3) / 4 + 1) * 4 =
        4 * (a.hdrWords + (data.length + 3) / 4) + [(0 : UInt8), 0, 0, 0].length := by
      rw [List.length_cons, List.length_cons, List.length_cons, List.length_cons, List.length_nil]
      omega
    unfold reply
    simp only [Bool.false_eq_true, if_false]
    rw [hnw, hstatus, hstore, hooff, hsum, Mem.get_add, Nat.zero_add, Mem.get_put,
      Mem.get_put_of_disjoint (.inl (by omega))]

end Server

end Cpsw.Srp
