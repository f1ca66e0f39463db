import Cpsw.Srp.Deliver
import Cpsw.Srp.Server

namespace Cpsw.Srp

open ByteMux Depack Lib Address

variable {σ : Type} {sv : Server σ} {a : Address} {ws : List SRPWord} {rbuf m : Mem} {w : SRPWord}
variable {p : Bytes} {i n o : ℕ}

/-- The server takes a word from a message as the protocol has it. -/
theorem bs32_load (v : SRPProtoVersion) (host : ByteOrder) (hp : p.length = 4) :
    bs32 (v = .SRP_UDP_V1) host (host.load p) = (order v).load p := by
  have hle : ByteOrder.LE.load p.reverse = ByteOrder.BE.load p := rfl
  have hbe : ByteOrder.BE.load p.reverse = ByteOrder.LE.load p := by
    rw [ByteOrder.load, ByteOrder.load, List.reverse_reverse]
  unfold bs32
  cases v <;> cases host <;> simp [order, swp32_load _ hp, hle, hbe]

/-- A word of a message. -/
theorem message_word (a : Address) (hw : ws[i]? = some w) :
    ((a.message ws).drop (4 * i)).take 4 = (order a.protoVersion).store w := by
  obtain ⟨hi, hget⟩ := List.getElem?_eq_some_iff.1 hw
  have hsplit : ws = ws.take i ++ w :: ws.drop (i + 1) := by
    rw [← hget, List.getElem_cons_drop, List.take_append_drop]
  have hlen : (a.message (ws.take i)).length = 4 * i := by
    rw [message_length, List.length_take, Nat.min_eq_left hi.le]
  rw [hsplit, message_append, message_cons, List.drop_left' hlen, List.take_left' store_length]

theorem message_singleton (w : SRPWord) : a.message [w] = (order a.protoVersion).store w :=
  (message_cons w []).trans (List.append_nil _)

/-- A byte of a message belongs to one word. -/
theorem message_set {k : ℕ} (hk : k < 4) (hw : ws[i]? = some w) (b : UInt8) :
    (a.message ws).set (4 * i + k) b = a.message (ws.set i
      ((order a.protoVersion).load (((order a.protoVersion).store w).set k b))) := by
  obtain ⟨hi, hget⟩ := List.getElem?_eq_some_iff.1 hw
  have hsplit : ws = ws.take i ++ w :: ws.drop (i + 1) := by
    rw [← hget, List.getElem_cons_drop, List.take_append_drop]
  have hlen : (a.message (ws.take i)).length = 4 * i := by
    rw [message_length, List.length_take, Nat.min_eq_left hi.le]
  have hset : ws.set i ((order a.protoVersion).load (((order a.protoVersion).store w).set k b)) =
      ws.take i ++ (order a.protoVersion).load (((order a.protoVersion).store w).set k b) ::
        ws.drop (i + 1) := List.set_eq_take_append_cons_drop.trans (if_pos hi)
  have hword : k < ((order a.protoVersion).store w).length := by rwa [store_length]
  rw [hset, message_append, message_cons, store_load _ (by rw [List.length_set, store_length])]
  conv_lhs => rw [hsplit, message_append, message_cons]
  rw [← hlen, List.set_append_right _ _ (Nat.le_add_right _ k), Nat.add_sub_cancel_left,
    List.set_append_left _ _ hword]

/-- The bytes of a header behind the multiplexer, which has inserted the channel. -/
def sent (a : Address) (dest : UInt8) (ws : List SRPWord) : Bytes :=
  (a.message ws).set (tidOff a.protoVersion + vcPlace a.protoVersion) dest

theorem sent_eq {tid : SRPWord} (htid : a.tidOf ws = some tid) (dest : UInt8) :
    ∃ tid', sent a dest ws = a.message (ws.set (tidOff a.protoVersion / 4) tid') := by
  have hoff : tidOff a.protoVersion = 4 * (tidOff a.protoVersion / 4) := by
    unfold tidOff
    split_ifs <;> rfl
  have hset := message_set (a := a) (vcPlace_lt a.protoVersion) htid dest
  rw [← hoff] at hset
  exact ⟨_, hset⟩

/-- The identifier has no say in what is read. -/
theorem readRequest_set (tid : SRPWord) :
    a.readRequest (ws.set (tidOff a.protoVersion / 4) tid) = a.readRequest ws := by
  unfold readRequest tidOff
  cases a.protoVersion with
  | SRP_UDP_NONE => rfl
  | SRP_UDP_V1 => rcases ws with _ | ⟨_, _ | ⟨_, _ | ⟨_, _ | ⟨_, _ | ⟨_, _ | ⟨_, _⟩⟩⟩⟩⟩⟩ <;> rfl
  | SRP_UDP_V2 => rcases ws with _ | ⟨_, _ | ⟨_, _ | ⟨_, _ | ⟨_, _ | ⟨_, _⟩⟩⟩⟩⟩ <;> rfl
  | SRP_UDP_V3 => rcases ws with _ | ⟨_, _ | ⟨_, _ | ⟨_, _ | ⟨_, _ | ⟨_, _ | ⟨_, _⟩⟩⟩⟩⟩⟩ <;> rfl

theorem readRequest_pos (h : a.readRequest ws = some (o, n)) : 0 < n := by
  unfold readRequest at h
  split at h
  · split_ifs at h
    cases h
    omega
  · split_ifs at h
    cases h
    omega
  · split_ifs at h
    cases h
    omega
  · cases h

namespace Server

theorem word_eq (hv : sv.vers = a.protoVersion) (hreq : rbuf.get 0 (4 * ws.length) = a.message ws)
    (hw : ws[i]? = some w) : sv.word rbuf i = w := by
  obtain ⟨hi, -⟩ := List.getElem?_eq_some_iff.1 hw
  have hbytes : rbuf.get (4 * i) 4 = (order a.protoVersion).store w := by
    rw [← message_word a hw, ← hreq, Mem.get_drop (by omega), Nat.zero_add, Mem.get_take (by omega)]
  rw [word, hbytes, v1, hv, bs32_load _ _ store_length, load_store]

/-- What `handleSRP` has to find in a request to read `n` bytes from `o` on. -/
structure Reads (sv : Server σ) (a : Address) (r : SRPRequest) (o n got : ℕ) : Prop where
  cmd : r.cmd = .RD
  off : r.off.toNat = o
  size : r.size.toNat = n
  ooff : r.ooff = a.hdrWords
  noexec : r.noexec = false
  status : r.status = 0
  got : sv.drops r got = false

/-- An address of 30 bits. -/
theorem toNat_lt_of_isRead (h : w &&& 0xc0000000 = 0) : w.toNat < 2 ^ 30 := by
  have hmask : (0xc0000000 : SRPWord).toNat >>> 30 = 2 ^ 2 - 1 := rfl
  have hzero : (w.toNat &&& (0xc0000000 : SRPWord).toNat) >>> 30 = 0 := by
    rw [← UInt32.toNat_and, h]
    rfl
  rw [Nat.shiftRight_and_distrib, hmask, Nat.and_two_pow_sub_one_eq_mod, Nat.shiftRight_eq_div_pow]
    at hzero
  have := w.toNat_lt
  omega

theorem toNat_shl_two (h : w.toNat < 2 ^ 30) : (w <<< 2).toUInt64.toNat = w.toNat * 4 := by
  have htwo : (2 : UInt32).toNat % 32 = 2 := rfl
  rw [UInt32.toNat_toUInt64, UInt32.toNat_shiftLeft, htwo, Nat.shiftLeft_eq]
  omega

theorem toNat_words {k : UInt32} (h : (k.toNat + 1) * 4 < 2 ^ 32) :
    ((k + 1) * 4).toNat = (k.toNat + 1) * 4 := by
  have hone : (1 : UInt32).toNat = 1 := rfl
  have hfour : (4 : UInt32).toNat = 4 := rfl
  rw [UInt32.toNat_mul, UInt32.toNat_add, hone, hfour]
  omega

/-- A request before version 3, whose words start with `hoff` and the identifier. -/
theorem parseV12_read {addr k : SRPWord} {hoff : ℕ} (hv : sv.vers = a.protoVersion)
    (hv3 : a.protoVersion ≠ .SRP_UDP_V3)
    (hhoff : hoff = if a.protoVersion = .SRP_UDP_V1 then 1 else 0)
    (haddr : sv.word rbuf (hoff + 1) = addr) (hk : sv.word rbuf (hoff + 2) = k)
    (hread : a.isRead addr = true) (hn : (k.toNat + 1) * 4 < 2 ^ 32) :
    Reads sv a (sv.parse rbuf (4 * (hoff + 4))) (addr.toNat * 4) ((k.toNat + 1) * 4)
      (4 * (hoff + 4)) := by
  have hthree : sv.v3 = false := by
    rw [v3, hv]
    exact decide_eq_false hv3
  have hone : (if sv.v1 = true then 1 else 0) = hoff := by
    rw [hhoff, v1, hv]
    simp
  rw [isRead, if_neg hv3, decide_eq_true_iff] at hread
  have hparse : sv.parse rbuf (4 * (hoff + 4)) = { cmd := .RD, off := (addr <<< 2).toUInt64
                                                   size := (k + 1) * 4, ooff := hoff + 2
                                                   noexec := false, status := 0, rbuf := rbuf } := by
    rw [parse, hthree, if_neg Bool.false_ne_true, parseV12, hone, haddr, hk, if_pos hread, if_pos rfl]
  rw [hparse]
  refine ⟨rfl, toNat_shl_two (toNat_lt_of_isRead hread), toNat_words hn, ?_, rfl, rfl, ?_⟩
  · rw [hdrWords, if_neg hv3, hhoff]
    split_ifs <;> rfl
  · unfold drops expected v1
    rw [hthree, hv, hhoff]
    cases a.protoVersion <;> rfl

theorem toNat_halves (lo hi : UInt32) :
    ((hi.toUInt64 <<< 32) ||| lo.toUInt64).toNat = lo.toNat + 2 ^ 32 * hi.toNat := by
  have hshift : (32 : UInt64).toNat % 64 = 32 := rfl
  have hlo := lo.toNat_lt
  have hhi := hi.toNat_lt
  have hmod : hi.toNat <<< 32 % 2 ^ 64 = 2 ^ 32 * hi.toNat := by
    rw [Nat.shiftLeft_eq]
    omega
  rw [UInt64.toNat_or, UInt64.toNat_shiftLeft, hshift, UInt32.toNat_toUInt64, UInt32.toNat_toUInt64,
    hmod, ← Nat.two_pow_add_eq_or_of_lt hlo, Nat.add_comm]

theorem parseV3_read {cmd lo hi k : SRPWord} (hv : sv.vers = a.protoVersion)
    (hv3 : a.protoVersion = .SRP_UDP_V3) (hcmd : sv.word rbuf 0 = cmd) (hlo : sv.word rbuf 2 = lo)
    (hhi : sv.word rbuf 3 = hi) (hk : sv.word rbuf 4 = k) (hread : a.isRead cmd = true)
    (hn : k.toNat + 1 < 2 ^ 32) :
    Reads sv a (sv.parse rbuf 20) (lo.toNat + 2 ^ 32 * hi.toNat) (k.toNat + 1) 20 := by
  have hthree : sv.v3 = true := by
    rw [v3, hv]
    exact decide_eq_true hv3
  rw [isRead, if_pos hv3, Bool.and_eq_true, decide_eq_true_iff, decide_eq_true_iff] at hread
  have hrd : cmdV3 cmd = .RD := if_pos hread.2
  have hsize : (k + 1).toNat = k.toNat + 1 := by
    have hone : (1 : UInt32).toNat = 1 := rfl
    rw [UInt32.toNat_add, hone]
    omega
  rw [parse, hthree, if_pos rfl, parseV3, hcmd, hlo, hhi, hk, hrd]
  refine ⟨rfl, toNat_halves lo hi, ?_, ?_, ?_, ?_, ?_⟩
  · exact hsize
  · rw [hdrWords, if_pos hv3]
  · exact decide_eq_false (not_not.2 hread.1)
  · exact if_neg (not_not.2 hread.1)
  · unfold drops expected
    rw [hthree]
    rfl

theorem parse_read (hv : sv.vers = a.protoVersion)
    (hreq : rbuf.get 0 (4 * ws.length) = a.message ws) (hread : a.readRequest ws = some (o, n))
    (hn : n < 2 ^ 32) : Reads sv a (sv.parse rbuf (4 * ws.length)) o n (4 * ws.length) := by
  have hword {i : ℕ} {w : SRPWord} (hw : ws[i]? = some w) : sv.word rbuf i = w := word_eq hv hreq hw
  unfold readRequest at hread
  split at hread
  · rename_i vc tid addr k pad hv1
    split_ifs at hread with hr
    cases hread
    exact parseV12_read hv (by rw [hv1]; exact SRPProtoVersion.noConfusion) (by rw [hv1]; rfl)
      (hword rfl) (hword rfl) hr hn
  · rename_i tid addr k pad hv2
    split_ifs at hread with hr
    cases hread
    exact parseV12_read hv (by rw [hv2]; exact SRPProtoVersion.noConfusion) (by rw [hv2]; rfl)
      (hword rfl) (hword rfl) hr hn
  · rename_i cmd tid lo hi k hv3
    split_ifs at hread with hr
    cases hread
    exact parseV3_read hv hv3 (hword rfl) (hword rfl) (hword rfl) (hword rfl) hr hn
  · cases hread

/-- The range holds `n` bytes from the address on, and the server may read or write them. -/
structure Covers (sv : Server σ) (range : Range σ) (off : UInt64) (n : ℕ) : Prop where
  find : sv.find off = some range
  le : off.toNat + n ≤ range.base.toNat + range.size.toNat
  top : range.base.toNat + range.size.toNat < 2 ^ 64
  room : n ≤ sv.rbufsz
  aligned : sv.byteRes = false → off.toNat % 4 = 0 ∧ n % 4 = 0

variable {range : Range σ} {r : SRPRequest}

theorem toNat_and_three (x : UInt64) : (x &&& 3).toNat = x.toNat % 4 := by
  rw [UInt64.toNat_and]
  exact Nat.and_two_pow_sub_one_eq_mod _ 2

theorem Covers.refuses (h : Covers sv range r.off r.size.toNat) : sv.refuses r = false := by
  have hsize : ¬ sv.rbufsz < r.size.toNat := Nat.not_lt.2 h.room
  unfold Server.refuses
  cases hb : sv.byteRes with
  | true => simp [hsize]
  | false =>
    obtain ⟨hoff, hn⟩ := h.aligned hb
    have ho : r.off &&& 3 = 0 := UInt64.toNat_inj.1 ((toNat_and_three _).trans hoff)
    have hs : r.size &&& 3 = 0 := by
      refine UInt32.toNat_inj.1 (Eq.trans ?_ hn)
      rw [UInt32.toNat_and]
      exact Nat.and_two_pow_sub_one_eq_mod _ 2
    simp [ho, hs, hsize]

theorem Covers.inside (h : Covers sv range r.off r.size.toNat) :
    ¬ range.base + range.size < r.off + r.size.toUInt64 := by
  have hle := h.le
  have htop := h.top
  rw [UInt64.lt_iff_toNat_lt, UInt64.toNat_add, UInt64.toNat_add, UInt32.toNat_toUInt64]
  omega

theorem payload_swap_eq (hv : sv.vers = a.protoVersion) (ooff nw : ℕ) (m : Mem) :
    sv.payload_swap ooff nw m = m.put (4 * ooff) (a.wire (m.get (4 * ooff) (4 * nw))) := by
  unfold payload_swap v1 wire
  rw [hv]
  by_cases hone : a.protoVersion = .SRP_UDP_V1
  · have hself : m.put (4 * ooff) ([] ++ m.get (4 * ooff) (4 * nw) ++ []) = m := by
      rw [List.nil_append, List.append_nil, Mem.put_get]
    have h := @Mem.swap_part nw m (4 * ooff) [] (m.get (4 * ooff) (4 * nw)) [] _
      (fun w hw ↦ swpw_eq sv.host hw) Mem.get_length
    rw [hself] at h
    rw [if_pos hone, if_pos (decide_eq_true hone)]
    simpa using h
  · rw [if_neg hone, if_neg (by simpa using hone), Mem.put_get]

/-- A request to read memory is answered with it. -/
theorem handleSRP_read {st st' : σ} {data : Bytes} {got : ℕ} (hv : sv.vers = a.protoVersion)
    (hr : Reads sv a (sv.parse rbuf got) o n got)
    (hcovers : Covers sv range (sv.parse rbuf got).off n)
    (hread : range.read st (sv.parse rbuf got).size ((sv.parse rbuf got).off - range.base) =
      (st', some data)) (hdata : data.length = n) (hn : n + 3 < 2 ^ 32) :
    ∃ rbuf' hdr data', sv.handleSRP st rbuf got = ((a.hdrWords + (n + 3) / 4 + 1) * 4, rbuf', st') ∧
      rbuf'.get 0 ((a.hdrWords + (n + 3) / 4 + 1) * 4) = hdr ++ a.wire data' ++ [0, 0, 0, 0] ∧
      hdr.length = 4 * a.hdrWords ∧ data'.length = 4 * ((n + 3) / 4) ∧ data'.take n = data := by
  obtain ⟨hcmd, -, hsize, hooff, hnoexec, hstatus, hgot⟩ := hr
  generalize hparse : sv.parse rbuf got = r at *
  obtain rfl : r.size.toNat = n := hsize
  have hnw : ((r.size + 3) / 4).toNat = (r.size.toNat + 3) / 4 := by
    have hthree : (3 : UInt32).toNat = 3 := rfl
    have hfour : (4 : UInt32).toNat = 4 := rfl
    rw [UInt32.toNat_div, UInt32.toNat_add, hthree, hfour]
    omega
  have haccess : sv.access st r got = (false, sv.payload_swap r.ooff ((r.size + 3) / 4).toNat
      (r.rbuf.put (4 * r.ooff) data), st') := by
    unfold access
    rw [hcovers.find]
    dsimp only
    rw [if_neg hcovers.inside, if_pos hcmd, hread]
  have hsilent : sv.isSilent r = false := by
    unfold isSilent
    rw [hcmd]
    rfl
  let m₁ := r.rbuf.put (4 * r.ooff) data
  let data' := m₁.get (4 * r.ooff) (4 * ((r.size.toNat + 3) / 4))
  have hlen : (a.wire data').length = 4 * ((r.size.toNat + 3) / 4) := by
    rw [wire_length]
    exact Mem.get_length
  have hstore : sv.host.store 0 = [0, 0, 0, 0] := by
    cases sv.host <;> rfl
  have hput : (m₁.put (4 * r.ooff) (a.wire data')).put (4 * (r.ooff + (r.size.toNat + 3) / 4))
      (sv.host.store 0) = m₁.put (4 * r.ooff) (a.wire data' ++ [0, 0, 0, 0]) := by
    rw [hstore, Mem.put_append, hlen, Nat.mul_add]
  refine ⟨m₁.put (4 * r.ooff) (a.wire data' ++ [0, 0, 0, 0]), m₁.get 0 (4 * r.ooff), data', ?_, ?_, ?_,
    Mem.get_length, ?_⟩
  · unfold handleSRP
    rw [hparse]
    dsimp only
    rw [hgot, hnoexec, hcmd, hcovers.refuses, hsilent, haccess, payload_swap_eq hv, hnw]
    unfold reply
    simp only [reduceCtorEq, decide_false, Bool.or_self, Bool.false_eq_true, if_false]
    rw [hnw, hstatus, hput, hooff]
  · have hsum : (a.hdrWords + (r.size.toNat + 3) / 4 + 1) * 4 =
        4 * r.ooff + (a.wire data' ++ [0, 0, 0, 0]).length := by
      rw [List.length_append, hlen, hooff, List.length_cons, List.length_cons, List.length_cons,
        List.length_cons, List.length_nil]
      omega
    rw [hsum, Mem.get_add, Nat.zero_add, Mem.get_put, Mem.get_put_of_disjoint (.inl (by omega)),
      List.append_assoc]
  · rw [Mem.get_length, hooff]
  · rw [← hdata, Mem.get_take (by omega), Mem.get_put]

/-- What a range of plain memory holds is read from it. -/
def Holds (range : Range σ) (st : σ) (dev : Mem) : Prop :=
  ∀ n off, off.toNat + n.toNat ≤ range.size.toNat →
    ∃ st', range.read st n off = (st', some (dev.get (range.base.toNat + off.toNat) n.toNat))

/-- The addresses between `lo` and `hi` are in one range, and replies with `room` bytes of them fit into
the buffer of the server. -/
structure Region (sv : Server σ) (a : Address) (range : Range σ) (lo hi room : ℕ) : Prop where
  find : ∀ off : UInt64, lo ≤ off.toNat → off.toNat < hi → sv.find off = some range
  le : hi ≤ range.base.toNat + range.size.toNat
  top : range.base.toNat + range.size.toNat < 2 ^ 64
  fits : 4 * a.hdrWords + room + 4 ≤ sv.rbufsz
  small : room + 3 < 2 ^ 32
  bytes : a.byteResolution = true → sv.byteRes = true

theorem find_base {off : UInt64} (h : sv.find off = some range) : range.base.toNat ≤ off.toNat := by
  have hp := List.find?_some h
  rw [Bool.and_eq_true, decide_eq_true_iff] at hp
  exact UInt64.le_iff_toNat_le.1 hp.1

/-- A datagram that the server sends when it has received a request. -/
def Replies (sv : Server σ) (st : σ) (req : Bytes) (rchn : BufChain) : Prop :=
  ∃ rbuf nbytes rbuf' st', rbuf.get 0 req.length = req ∧
    sv.handleSRP st rbuf req.length = (nbytes, rbuf', st') ∧ nbytes ≠ 0 ∧
    rchn.bytes = rbuf'.get 0 nbytes

/-- The reply to a request for memory. -/
theorem Replies.answers {lo hi room : ℕ} {st : σ} {dev : Mem} {rchn : BufChain}
    (hv : sv.vers = a.protoVersion) (hregion : sv.Region a range lo hi room)
    (hholds : Holds range st dev) (hasks : a.Asks lo hi room ws)
    (h : sv.Replies st (a.message ws) rchn) : a.Answers dev ws rchn := by
  obtain ⟨o, n, hreq, hlo, hhi, hroom, halign⟩ := hasks
  obtain ⟨rbuf, nbytes, rbuf', st', hget, hhandle, -, hbytes⟩ := h
  have hpos := readRequest_pos hreq
  have hle := hregion.le
  have htop := hregion.top
  have hbuf := hregion.fits
  have hsmall := hregion.small
  rw [message_length] at hget hhandle
  have hr := parse_read hv hget hreq (by omega)
  have hoff := hr.off
  have hsize := hr.size
  have hfind := hregion.find (sv.parse rbuf (4 * ws.length)).off (by omega) (by omega)
  have hbase := find_base hfind
  have hcovers : Covers sv range (sv.parse rbuf (4 * ws.length)).off n :=
    ⟨hfind, by omega, htop, by omega, fun hb ↦ hoff ▸ halign (Bool.eq_false_iff.2 fun ha ↦
      Bool.false_ne_true (hb.symm.trans (hregion.bytes ha)))⟩
  have hsub : ((sv.parse rbuf (4 * ws.length)).off - range.base).toNat = o - range.base.toNat := by
    rw [UInt64.toNat_sub_of_le _ _ (UInt64.le_iff_toNat_le.2 hbase), hoff]
  obtain ⟨st₁, hread⟩ := hholds (sv.parse rbuf (4 * ws.length)).size
    ((sv.parse rbuf (4 * ws.length)).off - range.base) (by rw [hsub, hsize]; omega)
  rw [hsub, hsize, Nat.add_sub_cancel' (hoff ▸ hbase)] at hread
  obtain ⟨rbuf₁, hdr, data, hh, hget', hlen, hdata, htake⟩ :=
    handleSRP_read hv hr hcovers hread Mem.get_length (by omega)
  rw [hh] at hhandle
  cases hhandle
  exact ⟨o, n, hdr, data, hreq, hbytes.trans hget', hlen, hdata, htake⟩

/-- The identifier stays in its place, whatever the server does with the request. -/
theorem parse_tid (sv : Server σ) (rbuf : Mem) (got : ℕ) :
    tidOff sv.vers + 4 ≤ 4 * (sv.parse rbuf got).ooff ∧
      (sv.parse rbuf got).rbuf.get (tidOff sv.vers) 4 = rbuf.get (tidOff sv.vers) 4 := by
  by_cases h : sv.vers = .SRP_UDP_V3
  · have hparse : sv.parse rbuf got = sv.parseV3 rbuf := if_pos (decide_eq_true h)
    rw [hparse, tidOff, h, if_neg SRPProtoVersion.noConfusion]
    have hle : 0 + (sv.host.store (bs32 sv.v1 sv.host (sv.replyV3 (sv.word rbuf 0)))).length ≤ 4 := by
      rw [store_length]
    exact ⟨by norm_num [parseV3], Mem.get_put_of_disjoint (.inr hle)⟩
  · have hparse : sv.parse rbuf got = sv.parseV12 rbuf got := if_neg (by simpa [v3] using h)
    rw [hparse]
    refine ⟨?_, rfl⟩
    unfold parseV12 v1 tidOff
    cases sv.vers <;> simp

theorem access_tid {st : σ} {r : SRPRequest} {got i : ℕ} (hv : sv.vers = a.protoVersion)
    (hi : i + 4 ≤ 4 * r.ooff) : (sv.access st r got).2.1.get i 4 = r.rbuf.get i 4 := by
  unfold access
  split
  · rfl
  · split_ifs
    · rfl
    · split
      · rfl
      · rw [payload_swap_eq hv, Mem.get_put_of_disjoint (.inl hi), Mem.get_put_of_disjoint (.inl hi)]
    · rw [payload_swap_eq hv, Mem.get_put_of_disjoint (.inl hi)]

theorem reply_tid {r : SRPRequest} {failed : Bool} {i : ℕ} (hi : i + 4 ≤ 4 * r.ooff) :
    i + 4 ≤ (sv.reply r failed m).1 ∧ (sv.reply r failed m).2.get i 4 = m.get i 4 := by
  unfold reply
  exact ⟨by dsimp only; omega, Mem.get_put_of_disjoint (.inl (by omega))⟩

/-- A reply has the identifier of its request. -/
theorem handleSRP_tid {st st' : σ} {rbuf' : Mem} {got nbytes : ℕ} (hv : sv.vers = a.protoVersion)
    (h : sv.handleSRP st rbuf got = (nbytes, rbuf', st')) (hn : nbytes ≠ 0) :
    tidOff sv.vers + 4 ≤ nbytes ∧ rbuf'.get (tidOff sv.vers) 4 = rbuf.get (tidOff sv.vers) 4 := by
  obtain ⟨hooff, hparse⟩ := parse_tid sv rbuf got
  unfold handleSRP at h
  dsimp only at h
  split_ifs at h
  · cases h
    exact absurd rfl hn
  · cases h
    exact ⟨(reply_tid hooff).1, (reply_tid hooff).2.trans hparse⟩
  · cases h
    exact ⟨(reply_tid hooff).1, (reply_tid hooff).2.trans hparse⟩
  · cases h
    exact absurd rfl hn
  · cases h
    exact ⟨(reply_tid hooff).1, (reply_tid hooff).2.trans ((access_tid hv hooff).trans hparse)⟩

theorem Replies.tidWord {st : σ} {req : Bytes} {rchn : BufChain} (hv : sv.vers = a.protoVersion)
    (h : sv.Replies st req rchn) (hlen : tidOff sv.vers + 4 ≤ req.length) :
    tidWord sv.vers rchn = (req.drop (tidOff sv.vers)).take 4 := by
  obtain ⟨rbuf, nbytes, rbuf', st', hget, hhandle, hn, hbytes⟩ := h
  obtain ⟨hle, htid⟩ := handleSRP_tid hv hhandle hn
  rw [Srp.tidWord, hbytes, Mem.get_drop (by omega), Nat.zero_add, Mem.get_take (by omega), htid, ← hget,
    Mem.get_drop (by omega), Nat.zero_add, Mem.get_take (by omega)]

end Server

end Cpsw.Srp
