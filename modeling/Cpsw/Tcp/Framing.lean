import Cpsw.Depack.Chain
import Cpsw.Tcp.Xfer

namespace Cpsw.Tcp

open Cpsw.Depack

def NBUFS_MAX : ℕ := 8

def CAPA_ETH_JUM : ℕ := 9000

def htonl (len : ℕ) : Bytes :=
  [UInt8.ofNat (len / 2 ^ 24), UInt8.ofNat (len / 2 ^ 16), UInt8.ofNat (len / 2 ^ 8),
    UInt8.ofNat len]

def ntohl (bs : Bytes) : ℕ := bs.foldl (fun n b ↦ 256 * n + b.toNat) 0

/-- The sending side of a `CProtoModTcp`: its counters, and the bytes it has put on the stream. -/
structure Tx where
  nDgrams : ℕ := 0
  nOctets : ℕ := 0
  stream : Bytes := []
  deriving DecidableEq, Repr

/-- `CProtoModTcp::doPush`, where the calls of `writev` return `cuts`. -/
def doPush (cuts : List ℕ) (bc : Chain) (tx : Tx) : Except TcpError Tx :=
  let len := bc.getSize % 2 ^ 32
  match bc.bufs with
  | [] => .error .nullHead
  | h :: _ =>
    match h.adjPayload (-4) with
    | none => .error .headroom
    | some h =>
      let bc := bc.setHead (h.write 0 (htonl len))
      let iov := bc.bufs.map fun b ↦ { buf := b, base := 0, len := b.getSize }
      match xfer "writev()" writev cuts tx.stream iov ((len + 4) % 2 ^ 32) with
      | .error err => .error err
      | .ok (stream, _) =>
        .ok { nDgrams := tx.nDgrams + 1, nOctets := tx.nOctets + bc.getSize, stream := stream }

/-- An entry for a new receive buffer; `storage` is what such a buffer holds. -/
def rxEntry (storage : Bytes) : IoVec :=
  { buf := Buf.getBuf storage, base := 0, len := (Buf.getBuf storage).getAvail }

/-- The vector that the receiving thread begins with, from the capacity `cap` on. -/
def getIov (storage : Bytes) : ℕ → ℕ → List IoVec
  | 0, _ => []
  | niovs + 1, cap =>
    if cap < CAPA_ETH_JUM then
      rxEntry storage :: getIov storage niovs (cap + (rxEntry storage).len)
    else []

/-- The receiving thread: its vector and counters, the bytes that it can still read from the
stream, and the chains it has pushed downstream. -/
structure Rx where
  iov : List IoVec
  nDgrams : ℕ := 0
  nOctets : ℕ := 0
  stream : Bytes
  pushed : List Chain := []

def Rx.new (storage stream : Bytes) : Rx := { iov := getIov storage NBUFS_MAX 0, stream := stream }

/-- The loop that reads the length: the bytes behind `p`, and the rest of the stream. -/
def readLength : List ℕ → Bytes → Bytes → ℕ → Except TcpError (Bytes × Bytes)
  | [], p, stream, siz => if 0 < siz then .error .blocked else .ok (p, stream)
  | got :: cuts, p, stream, siz =>
    if 0 < siz then
      if got = 0 then .error .readLength
      else readLength cuts (p ++ stream.take got) (stream.drop got) (siz - got)
    else .ok (p, stream)

/-- The entries that a datagram of `siz` bytes takes; the last one is cut down to what it takes. -/
def limit (siz : ℕ) : List IoVec → Except TcpError (List IoVec)
  | [] => if 0 < siz then .error .tooManyFragments else .ok []
  | v :: iov =>
    if 0 < siz then
      if v.len ≤ siz then
        match limit (siz - v.len) iov with
        | .error err => .error err
        | .ok iov => .ok (v :: iov)
      else .ok [{ v with len := siz }]
    else .ok []

/-- A buffer that was filled, with the size that its entry says, joins the chain. -/
def addFilled (bufch : Chain) (v : IoVec) : Except TcpError Chain :=
  match v.buf.setSize v.len with
  | .error err => .error (.buf err)
  | .ok b => .ok (bufch.addAtTail b)

def collect (iov : List IoVec) : Except TcpError Chain := iov.foldlM addFilled Chain.create

/-- One round of `CRxHandlerThread::threadBody`; `cutsLen` is what the calls of `read` return,
`cuts` what those of `readv` do. -/
def receive (storage : Bytes) (cutsLen cuts : List ℕ) (rx : Rx) : Except TcpError Rx :=
  match readLength cutsLen [] rx.stream 4 with
  | .error err => .error err
  | .ok (p, stream) =>
    let len := ntohl p
    match limit len rx.iov with
    | .error err => .error err
    | .ok iov =>
      match xfer "readv()" readv cuts stream iov len with
      | .error err => .error err
      | .ok (stream, filled) =>
        match collect filled with
        | .error err => .error err
        | .ok bufch =>
          .ok {
            iov := List.replicate iov.length (rxEntry storage) ++ rx.iov.drop iov.length
            nDgrams := rx.nDgrams + 1
            nOctets := rx.nOctets + len
            stream := stream
            pushed := rx.pushed ++ [bufch] }

/-- A datagram, and how the stream is cut when it is written, and when its length and its payload
are read. -/
structure Dgram where
  bc : Chain
  cutsTx : List ℕ
  cutsLen : List ℕ
  cutsRx : List ℕ

def pushAll (ds : List Dgram) (tx : Tx) : Except TcpError Tx :=
  ds.foldlM (fun tx d ↦ doPush d.cutsTx d.bc tx) tx

def receiveAll (storage : Bytes) (ds : List Dgram) (rx : Rx) : Except TcpError Rx :=
  ds.foldlM (fun rx d ↦ receive storage d.cutsLen d.cutsRx rx) rx

/-- The room in a new receive buffer. -/
def room (storage : Bytes) : ℕ := (Buf.getBuf storage).getAvail

/-- A chain with headroom for the length, that the receiving thread's vector has room for. -/
structure Sendable (storage : Bytes) (bc : Chain) : Prop where
  sized : bc.Sized
  ok : ∀ b ∈ bc.bufs, b.Ok
  headroom : ∃ h bufs, bc.bufs = h :: bufs ∧ 4 ≤ h.getHeadroom
  fits : bc.getSize ≤ lens (getIov storage NBUFS_MAX 0)

structure Dgram.Valid (storage : Bytes) (d : Dgram) : Prop where
  sendable : Sendable storage d.bc
  tx : Cuts (d.bc.getSize + 4) d.cutsTx
  len : Cuts 4 d.cutsLen
  rx : Cuts d.bc.getSize d.cutsRx

/-- The chain `c` is the datagram that was sent, and the `i`-th buffer's size is that of the part
that is stored there. -/
structure Delivered (storage : Bytes) (d : Dgram) (c : Chain) : Prop where
  bytes : BufChain.bytes c.bufs = BufChain.bytes d.bc.bufs
  size : c.getSize = d.bc.getSize
  stored : ∀ (i : ℕ) (b : Buf), c.bufs[i]? = some b →
    b.getSize = min (room storage) (d.bc.getSize - i * room storage)

/-- Each `readv` but the one that ends the datagram ends where a buffer does. -/
def EndsOnBuffer (storage : Bytes) (d : Dgram) : Prop :=
  ∀ k, room storage ∣ (d.cutsRx.take k).sum ∨ (d.cutsRx.take k).sum = d.bc.getSize

variable {storage stream : Bytes} {d : Dgram} {ds : List Dgram} {bc c : Chain} {tx : Tx} {rx : Rx}
variable {iov ws : List IoVec} {v w : IoVec} {cuts : List ℕ} {s p : Bytes} {n siz niovs cap : ℕ}

theorem ntohl_htonl (h : n < 2 ^ 32) : ntohl (htonl n) = n := by
  simp [ntohl, htonl]
  omega

theorem readLength_eq (hc : Cuts siz cuts) (hs : siz ≤ stream.length) :
    readLength cuts p stream siz = .ok (p ++ stream.take siz, stream.drop siz) := by
  induction cuts generalizing p stream siz with
  | nil =>
    have hz := hc.nil
    simp [readLength, hz]
  | cons got cuts ih =>
    obtain ⟨hgot, hle⟩ := hc.le
    rw [readLength, if_pos (hgot.trans_le hle), if_neg hgot.ne',
      ih hc.tail (by rw [List.length_drop]; omega), List.drop_drop, Nat.add_sub_cancel' hle,
      List.append_assoc]
    have htake : stream.take siz = stream.take got ++ (stream.drop got).take (siz - got) := by
      rw [← List.take_add, Nat.add_sub_cancel' hle]
    rw [htake]

/-- An entry for a buffer's payload. -/
theorem txEntry_room {b : Buf} (h : b.Ok) : IoVec.Room { buf := b, base := 0, len := b.getSize } :=
  ⟨h.le.trans h.fits, (Nat.zero_add _).trans_le h.getPayload_length⟩

theorem lens_txEntries (bufs : BufChain) :
    lens (bufs.map fun b ↦ { buf := b, base := 0, len := b.getSize }) = total bufs := by
  simp [lens, total, Function.comp_def]

theorem bytes_txEntries (bufs : BufChain) :
    (bufs.map fun b ↦ { buf := b, base := 0, len := b.getSize }).flatMap IoVec.bytes =
      BufChain.bytes bufs := by
  simp only [List.flatMap_map, BufChain.bytes, IoVec.bytes, List.drop_zero]
  rfl

/-- What `doPush` puts on the stream: the length, and the datagram. -/
theorem doPush_eq (hs : Sendable storage bc) (hlt : bc.getSize + 4 < 2 ^ 32)
    (hc : Cuts (bc.getSize + 4) cuts) (tx : Tx) :
    ∃ tx', doPush cuts bc tx = .ok tx' ∧
      tx'.stream = tx.stream ++ (htonl bc.getSize ++ BufChain.bytes bc.bufs) := by
  obtain ⟨h, bufs, hbufs, hroom⟩ := hs.headroom
  have hoks : ∀ b ∈ h :: bufs, b.Ok := hbufs ▸ hs.ok
  have hh := hoks h List.mem_cons_self
  have hadj : h.adjPayload (-4) = some { h with beg := h.beg - 4 } := Buf.adjPayload_neg hroom
  obtain ⟨hok, hcont⟩ := hh.prepend (p := htonl bc.getSize) hroom
  change (Buf.write 0 (htonl bc.getSize) { h with beg := h.beg - 4 }).Ok at hok
  change (Buf.write 0 (htonl bc.getSize) { h with beg := h.beg - 4 }).content = _ at hcont
  have hsize : (Buf.write 0 (htonl bc.getSize) { h with beg := h.beg - 4 }).getSize =
      h.getSize + 4 := by
    have := hh.le
    unfold Buf.getHeadroom at hroom
    simp only [Buf.getSize, Buf.write_fin, Buf.write_beg]
    omega
  have htotal : bc.getSize = h.getSize + total bufs := by rw [hs.sized.getSize_eq, hbufs, total_cons]
  unfold doPush
  simp only [hbufs, hadj, Nat.mod_eq_of_lt (show bc.getSize < 2 ^ 32 by omega),
    Nat.mod_eq_of_lt hlt, Chain.setHead_bufs hbufs]
  generalize Buf.write 0 (htonl bc.getSize) { h with beg := h.beg - 4 } = h' at hok hcont hsize
  have hlens := lens_txEntries (h' :: bufs)
  have hbytes := bytes_txEntries (h' :: bufs)
  have hrooms : ∀ v ∈ (h' :: bufs).map fun b ↦ IoVec.mk b 0 b.getSize, v.Room := by
    intro v hv
    obtain ⟨b, hb, rfl⟩ := List.mem_map.1 hv
    apply txEntry_room
    rcases List.mem_cons.1 hb with rfl | hb
    · exact hok
    · exact hoks b (List.mem_cons_of_mem h hb)
  have hn : bc.getSize + 4 = total (h' :: bufs) := by
    rw [total_cons]
    omega
  rw [hn, ← hlens] at hc ⊢
  obtain ⟨iov', hx⟩ := @xfer_writev _ _ tx.stream hrooms hc "writev()"
  rw [hx]
  refine ⟨_, rfl, ?_⟩
  simp only
  rw [hbytes, BufChain.bytes, List.flatMap_cons, hcont, List.append_assoc]
  simp [BufChain.bytes]

theorem getIov_eq : ∃ m, getIov storage niovs cap = List.replicate m (rxEntry storage) ∧
    m ≤ niovs := by
  induction niovs generalizing cap with
  | zero => exact ⟨0, rfl, le_rfl⟩
  | succ niovs ih =>
    unfold getIov
    split_ifs with hcap
    · obtain ⟨m, hm, hle⟩ := @ih (cap + (rxEntry storage).len)
      exact ⟨m + 1, by rw [hm, List.replicate_succ], by omega⟩
    · exact ⟨0, rfl, Nat.zero_le _⟩

theorem lens_getIov : lens (getIov storage niovs cap) ≤ niovs * room storage := by
  obtain ⟨m, hm, hle⟩ := @getIov_eq storage niovs cap
  rw [hm]
  simpa [lens, rxEntry, room] using Nat.mul_le_mul_right (room storage) hle

/-- The entries that a datagram of `siz` bytes takes. -/
structure Limited (storage : Bytes) (siz : ℕ) (iov : List IoVec) : Prop where
  buf : ∀ v ∈ iov, v.buf = Buf.getBuf storage
  base : ∀ v ∈ iov, v.base = 0
  pos : ∀ v ∈ iov, 0 < v.len
  le : ∀ v ∈ iov, v.len ≤ room storage
  share : ∀ (i : ℕ) (v : IoVec), iov[i]? = some v →
    v.len = min (room storage) (siz - i * room storage)
  sums : ∀ j, ((iov.map IoVec.len).take j).sum = min (j * room storage) siz

theorem limited_nil : Limited storage 0 [] :=
  ⟨by simp, by simp, by simp, by simp, by simp, by simp⟩

theorem Limited.cons (h : Limited storage (siz - room storage) iov) (hroom : 0 < room storage)
    (hsiz : room storage ≤ siz) : Limited storage siz (rxEntry storage :: iov) := by
  have hlen : (rxEntry storage).len = room storage := rfl
  constructor
  · simpa using ⟨rfl, h.buf⟩
  · simpa using ⟨rfl, h.base⟩
  · simpa using ⟨hroom, h.pos⟩
  · simpa using ⟨le_rfl, h.le⟩
  · intro i v hv
    cases i with
    | zero =>
      cases hv
      simpa [hlen] using hsiz
    | succ i =>
      rw [h.share i v hv, Nat.succ_mul]
      congr 1
      omega
  · intro j
    cases j with
    | zero => simp
    | succ j =>
      rw [List.map_cons, List.take_succ_cons, List.sum_cons, h.sums, Nat.succ_mul, hlen]
      omega

theorem Limited.last (hpos : 0 < siz) (hsiz : siz < room storage) :
    Limited storage siz [{ rxEntry storage with len := siz }] := by
  constructor
  · simp [rxEntry]
  · simp [rxEntry]
  · simpa using hpos
  · simpa using hsiz.le
  · intro i v hv
    cases i with
    | zero =>
      cases hv
      simp
      omega
    | succ i => cases hv
  · intro j
    cases j with
    | zero => simp
    | succ j =>
      rw [Nat.succ_mul]
      simp
      omega

theorem limit_eq (hroom : 0 < room storage) {m : ℕ} (h : siz ≤ m * room storage) :
    ∃ iov, limit siz (List.replicate m (rxEntry storage)) = .ok iov ∧ iov.length ≤ m ∧
      Limited storage siz iov := by
  induction m generalizing siz with
  | zero =>
    obtain rfl : siz = 0 := by omega
    exact ⟨[], rfl, le_rfl, limited_nil⟩
  | succ m ih =>
    rw [Nat.succ_mul] at h
    have hlen : (rxEntry storage).len = room storage := rfl
    rw [List.replicate_succ, limit, hlen]
    split_ifs with hpos hle
    · obtain ⟨iov, he, hm, hl⟩ := @ih (siz - room storage) (by omega)
      exact ⟨rxEntry storage :: iov, by rw [he], by simpa using hm, hl.cons hroom hle⟩
    · exact ⟨_, rfl, by simp, Limited.last hpos (by omega)⟩
    · obtain rfl : siz = 0 := by omega
      exact ⟨[], rfl, Nat.zero_le _, limited_nil⟩

theorem Limited.lens (h : Limited storage siz iov) {m : ℕ} (hm : iov.length ≤ m)
    (hsiz : siz ≤ m * room storage) : lens iov = siz := by
  have hs := h.sums m
  rwa [List.take_of_length_le (by simpa using hm), Nat.min_eq_right hsiz] at hs

theorem Limited.room_of (h : Limited storage siz iov) (hcap : Buf.HEADROOM ≤ storage.length) :
    ∀ v ∈ iov, v.Room := by
  intro v hv
  have hle := h.le v hv
  unfold room Buf.getAvail at hle
  unfold IoVec.Room
  rw [h.buf v hv, h.base v hv]
  unfold Buf.getCapacity Buf.getPayload at *
  simp only [Buf.getBuf, List.length_drop] at *
  omega

/-- Where the partial transfers end, in terms of the room in a receive buffer. -/
theorem Limited.aligned_iff (h : Limited storage siz iov) (hroom : 0 < room storage)
    (hc : Cuts siz cuts) : Aligned (iov.map IoVec.len) cuts ↔
      ∀ k, room storage ∣ (cuts.take k).sum ∨ (cuts.take k).sum = siz := by
  have hle (k : ℕ) : (cuts.take k).sum ≤ siz := by
    have hs := hc.sum
    rw [← List.take_append_drop k cuts, List.sum_append] at hs
    omega
  constructor
  · intro ha k
    obtain ⟨j, hj⟩ := ha k
    rw [h.sums] at hj
    rcases Nat.le_total (j * room storage) siz with hm | hm
    · rw [Nat.min_eq_left hm] at hj
      exact .inl ⟨j, by rw [hj, Nat.mul_comm]⟩
    · rw [Nat.min_eq_right hm] at hj
      exact .inr hj
  · intro ha k
    rcases ha k with ⟨j, hj⟩ | hk
    · refine ⟨j, ?_⟩
      rw [h.sums, Nat.mul_comm j, ← hj, Nat.min_eq_left (hle k)]
    · refine ⟨siz, ?_⟩
      rw [h.sums, hk, Nat.min_eq_right (Nat.le_mul_of_pos_right siz hroom)]

/-- A receive buffer, with the size that its entry says. -/
def rxBuf (w : IoVec) : Buf := { w.buf with fin := w.buf.beg + w.len }

/-- An entry for a new receive buffer, after the transfer. -/
theorem IoVec.Fills.setSize (h : v.Fills p w) (hv : v.buf = Buf.getBuf storage)
    (hle : v.base + v.len ≤ room storage) (h₁ : Buf.HEADROOM ≤ storage.length)
    (h₂ : storage.length < 2 ^ 16) : w.buf.setSize w.len = .ok (rxBuf w) := by
  have hbeg := h.beg
  have hfin := h.fin
  have hcapa := h.capa
  have hlast := h.last
  rw [hv] at hbeg hfin hcapa
  simp only [Buf.getBuf, Buf.getCapacity, room, Buf.getAvail] at hbeg hfin hcapa hle
  have hok : w.buf.Ok := ⟨by omega, by unfold Buf.getCapacity; omega, by unfold Buf.getCapacity; omega⟩
  rw [hok.setSize_eq (by omega), if_neg]
  · rfl
  · unfold Buf.getCapacity
    omega

theorem collect_from (h : ∀ w ∈ ws, w.buf.setSize w.len = .ok (rxBuf w)) (hc : c.Sized) :
    ∃ c', ws.foldlM addFilled c = .ok c' ∧ c'.Sized ∧ c'.bufs = c.bufs ++ ws.map rxBuf := by
  induction ws generalizing c with
  | nil => exact ⟨c, rfl, hc, by simp⟩
  | cons w ws ih =>
    obtain ⟨c', he, hs, hb⟩ := ih (fun v hv ↦ h v (List.mem_cons_of_mem w hv))
      (hc.addAtTail (rxBuf w))
    refine ⟨c', ?_, hs, ?_⟩
    · have hw : addFilled c w = .ok (c.addAtTail (rxBuf w)) := by
        rw [addFilled, h w List.mem_cons_self]
      rw [List.foldlM_cons, hw]
      exact he
    · rw [hb, Chain.addAtTail_bufs, List.map_cons, List.append_assoc]
      rfl

theorem Filled.collect (h : Filled iov s ws) (hl : Limited storage siz iov)
    (h₁ : Buf.HEADROOM ≤ storage.length) (h₂ : storage.length < 2 ^ 16) :
    ∃ c, Tcp.collect ws = .ok c ∧ c.Sized ∧ c.bufs = ws.map rxBuf := by
  have hset : ∀ w ∈ ws, w.buf.setSize w.len = .ok (rxBuf w) := by
    have hv : ∀ v ∈ iov, v.buf = Buf.getBuf storage ∧ v.base + v.len ≤ room storage := by
      intro v hv
      have hle := hl.le v hv
      exact ⟨hl.buf v hv, by rw [hl.base v hv]; omega⟩
    clear hl
    induction h with
    | nil => simp
    | cons head _ ih =>
      intro w hw
      rcases List.mem_cons.1 hw with rfl | hw
      · obtain ⟨hb, hle⟩ := hv _ List.mem_cons_self
        exact head.setSize hb hle h₁ h₂
      · exact ih (fun v hm ↦ hv v (List.mem_cons_of_mem _ hm)) w hw
  exact collect_from hset Chain.sized_create

theorem total_rxBuf (ws : List IoVec) : total (ws.map rxBuf) = lens ws := by
  simp [total, lens, rxBuf, Buf.getSize, Function.comp_def]

/-- Entries that no call ended in: the buffers hold the bytes, and their sizes are right. -/
theorem Filled.whole (h : Filled iov s ws) (hv : ∀ v ∈ iov, v.base = 0) (hw : bases ws = 0) :
    (ws.map rxBuf).flatMap Buf.content = s ∧ ws.map IoVec.len = iov.map IoVec.len := by
  induction h with
  | nil => exact ⟨rfl, rfl⟩
  | cons head _ ih =>
    rename_i v w p s vs ws _
    have hv₀ := hv v List.mem_cons_self
    simp only [bases, List.map_cons, List.sum_cons, Nat.add_eq_zero_iff] at hw ih
    obtain ⟨hdata, hlen⟩ := ih (fun v hm ↦ hv v (List.mem_cons_of_mem _ hm)) hw.2
    have hl := head.last
    have hst := head.stored
    rw [hv₀, List.take_zero, List.nil_append, IoVec.stored, hw.1, Nat.zero_add] at hst
    have hcont : (rxBuf w).content = p := by
      simpa [rxBuf, Buf.content, Buf.getSize, Buf.getPayload] using hst
    constructor
    · rw [List.map_cons, List.flatMap_cons, hcont, hdata]
    · rw [List.map_cons, List.map_cons, hlen]
      congr 1
      omega

theorem lens_of_len (h : ws.map IoVec.len = iov.map IoVec.len) : lens ws = lens iov :=
  congrArg List.sum h

/-- What the thread pushes is the datagram exactly when no partial transfer ended in a buffer. -/
theorem delivered_iff (hl : Limited storage d.bc.getSize iov) (hlens : lens iov = d.bc.getSize)
    (hroom : 0 < room storage) (hc : Cuts d.bc.getSize d.cutsRx)
    (hf : Filled iov (BufChain.bytes d.bc.bufs) ws)
    (hb : bases ws = bases iov ↔ Aligned (iov.map IoVec.len) d.cutsRx) (hs : c.Sized)
    (hbufs : c.bufs = ws.map rxBuf) : Delivered storage d c ↔ EndsOnBuffer storage d := by
  have hzero : bases iov = 0 := by
    have hmap : iov.map IoVec.base = iov.map fun _ ↦ 0 := List.map_congr_left hl.base
    simp [bases, hmap]
  have hsize : c.getSize = lens ws := by rw [hs.getSize_eq, hbufs, total_rxBuf]
  rw [EndsOnBuffer, ← hl.aligned_iff hroom hc, ← hb, hzero]
  constructor
  · intro hd
    have hsum := hf.lens_bases.2
    have hsz := hd.size
    omega
  · intro hw
    obtain ⟨hdata, hlen⟩ := hf.whole hl.base hw
    refine ⟨?_, ?_, ?_⟩
    · rw [hbufs, BufChain.bytes, hdata]
    · rw [hsize, lens_of_len hlen, hlens]
    · intro i b hi
      rw [hbufs, List.getElem?_map] at hi
      obtain ⟨w, hw, rfl⟩ := Option.map_eq_some_iff.1 hi
      have hi' : (iov.map IoVec.len)[i]? = some w.len := by rw [← hlen, List.getElem?_map, hw]; rfl
      rw [List.getElem?_map] at hi'
      obtain ⟨v, hv, he⟩ := Option.map_eq_some_iff.1 hi'
      rw [← hl.share i v hv, he]
      simp [rxBuf, Buf.getSize]

/-- The vector's capacity is far below what the length can tell. -/
theorem Sendable.getSize_lt (h : Sendable storage bc) (h₂ : storage.length < 2 ^ 16) :
    bc.getSize + 4 < 2 ^ 32 := by
  have hfits := h.fits.trans lens_getIov
  have hroom : room storage ≤ storage.length := Nat.sub_le _ _
  unfold NBUFS_MAX at hfits
  omega

/-- One datagram is received. -/
theorem receive_eq (h₁ : Buf.HEADROOM < storage.length) (h₂ : storage.length < 2 ^ 16)
    (hd : d.Valid storage) (hiov : rx.iov = getIov storage NBUFS_MAX 0)
    (hst : rx.stream = htonl d.bc.getSize ++ BufChain.bytes d.bc.bufs ++ s) :
    ∃ rx' c, receive storage d.cutsLen d.cutsRx rx = .ok rx' ∧ rx'.iov = rx.iov ∧ rx'.stream = s ∧
      rx'.pushed = rx.pushed ++ [c] ∧ (Delivered storage d c ↔ EndsOnBuffer storage d) := by
  have hroom : 0 < room storage := by
    simp only [room, Buf.getAvail, Buf.getBuf, Buf.getCapacity]
    omega
  obtain ⟨m, hm, hm8⟩ := @getIov_eq storage NBUFS_MAX 0
  have hfits := hd.sendable.fits
  have hcap : lens (List.replicate m (rxEntry storage)) = m * room storage := by
    simp [lens, rxEntry, room]
  rw [hm, hcap] at hfits
  obtain ⟨iov, hlim, hlen, hl⟩ := limit_eq hroom hfits
  have hlens := hl.lens hlen hfits
  have hsize : (BufChain.bytes d.bc.bufs).length = d.bc.getSize := by
    rw [bytes_length hd.sendable.ok, hd.sendable.sized.getSize_eq]
  have hfour : 4 ≤ rx.stream.length := by
    rw [hst]
    simp [htonl]
  have hread : readLength d.cutsLen [] rx.stream 4 = .ok ([] ++ rx.stream.take 4, rx.stream.drop 4) :=
    readLength_eq hd.len hfour
  have hfirst : rx.stream.take 4 = htonl d.bc.getSize := by
    rw [hst]
    rfl
  have hrest : rx.stream.drop 4 = BufChain.bytes d.bc.bufs ++ s := by
    rw [hst]
    rfl
  rw [hfirst, hrest, List.nil_append] at hread
  have hcuts : Cuts (lens iov) d.cutsRx := hlens ▸ hd.rx
  have hlong : lens iov ≤ (BufChain.bytes d.bc.bufs ++ s).length := by
    rw [hlens, List.length_append, hsize]
    omega
  obtain ⟨ws, hx, hf⟩ := xfer_readv (hl.room_of h₁.le) hcuts hlong "readv()"
  rw [hlens, List.take_left' hsize] at hf
  rw [hlens, List.drop_left' hsize] at hx
  obtain ⟨c, hcol, hs, hbufs⟩ := hf.collect hl h₁.le h₂
  have hpos : ∀ v ∈ iov, 0 < v.len := hl.pos
  have hb := (bases_xfer hpos hcuts (hlens.symm ▸ hx)).2
  have hback : List.replicate iov.length (rxEntry storage) ++ rx.iov.drop iov.length = rx.iov := by
    rw [hiov, hm, List.drop_replicate, List.replicate_append_replicate,
      Nat.add_sub_cancel' hlen]
  have hn := ntohl_htonl (Nat.lt_of_add_right_lt (hd.sendable.getSize_lt h₂))
  have hrec : receive storage d.cutsLen d.cutsRx rx = .ok {
      iov := List.replicate iov.length (rxEntry storage) ++ rx.iov.drop iov.length
      nDgrams := rx.nDgrams + 1
      nOctets := rx.nOctets + d.bc.getSize
      stream := s
      pushed := rx.pushed ++ [c] } := by
    simp only [receive, hread, hn, hiov, hm, hlim, hx, hcol]
  exact ⟨_, c, hrec, hback, rfl, rfl, delivered_iff hl hlens hroom hd.rx hf hb hs hbufs⟩

/-- Every datagram arrives, one after the other. -/
theorem receiveAll_eq (h₁ : Buf.HEADROOM < storage.length) (h₂ : storage.length < 2 ^ 16)
    (hds : ∀ d ∈ ds, d.Valid storage) (hiov : rx.iov = getIov storage NBUFS_MAX 0)
    (hst : rx.stream = ds.flatMap fun d ↦ htonl d.bc.getSize ++ BufChain.bytes d.bc.bufs) :
    ∃ rx' cs, receiveAll storage ds rx = .ok rx' ∧ rx'.pushed = rx.pushed ++ cs ∧
      (List.Forall₂ (Delivered storage) ds cs ↔ ∀ d ∈ ds, EndsOnBuffer storage d) := by
  induction ds generalizing rx with
  | nil => exact ⟨rx, [], rfl, by simp, by simp⟩
  | cons d ds ih =>
    rw [List.flatMap_cons] at hst
    obtain ⟨rx₁, c, he, hiov₁, hst₁, hp₁, hc⟩ :=
      receive_eq h₁ h₂ (hds d List.mem_cons_self) hiov hst
    obtain ⟨rx₂, cs, he₂, hp₂, hcs⟩ :=
      ih (fun d' hd' ↦ hds d' (List.mem_cons_of_mem d hd')) (hiov₁.trans hiov) hst₁
    refine ⟨rx₂, c :: cs, ?_, ?_, ?_⟩
    · rw [receiveAll, List.foldlM_cons, he]
      exact he₂
    · rw [hp₂, hp₁, List.append_assoc]
      rfl
    · rw [List.forall₂_cons, hc, hcs, List.forall_mem_cons]

/-- What the datagrams are on the stream. -/
theorem pushAll_eq (h₂ : storage.length < 2 ^ 16) (hds : ∀ d ∈ ds, d.Valid storage) (tx : Tx) :
    ∃ tx', pushAll ds tx = .ok tx' ∧ tx'.stream = tx.stream ++
      ds.flatMap fun d ↦ htonl d.bc.getSize ++ BufChain.bytes d.bc.bufs := by
  induction ds generalizing tx with
  | nil => exact ⟨tx, rfl, by simp⟩
  | cons d ds ih =>
    have hd := hds d List.mem_cons_self
    obtain ⟨tx₁, he, hst⟩ := doPush_eq hd.sendable (hd.sendable.getSize_lt h₂) hd.tx tx
    obtain ⟨tx₂, he₂, hst₂⟩ := ih (fun d' hd' ↦ hds d' (List.mem_cons_of_mem d hd')) tx₁
    refine ⟨tx₂, ?_, ?_⟩
    · rw [pushAll, List.foldlM_cons, he]
      exact he₂
    · rw [hst₂, hst, List.flatMap_cons, List.append_assoc]

/-- What a new buffer may hold. -/
def newStorage : Bytes := List.replicate 1900 0

theorem length_newStorage : newStorage.length = 1900 := List.length_replicate

/-- Ten bytes, behind as much headroom as a new buffer has. -/
def tenBytes (cutsRx : List ℕ) : Dgram where
  bc := { bufs := [⟨List.replicate 32 0 ++ [0, 1, 2, 3, 4, 5, 6, 7, 8, 9], 32, 42⟩], size := 10 }
  cutsTx := [1, 13]
  cutsLen := [3, 1]
  cutsRx := cutsRx

theorem valid_tenBytes {cutsRx : List ℕ} (h : Cuts 10 cutsRx) :
    (tenBytes cutsRx).Valid newStorage := by
  have htx : Cuts 14 [1, 13] := ⟨by decide, rfl⟩
  have hlen : Cuts 4 [3, 1] := ⟨by decide, rfl⟩
  refine ⟨⟨rfl, ?_, ⟨_, _, rfl, by decide⟩, ?_⟩, htx, hlen, h⟩
  · intro b hb
    obtain rfl := List.mem_singleton.1 hb
    exact ⟨by decide, by decide, by decide⟩
  · simp [tenBytes, Chain.getSize, NBUFS_MAX, getIov, rxEntry, Buf.getBuf, Buf.getAvail,
      Buf.getCapacity, Buf.HEADROOM, CAPA_ETH_JUM, length_newStorage]

end Cpsw.Tcp
