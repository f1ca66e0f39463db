import Cpsw.Srp.Obey

namespace Cpsw.Srp

open ByteMux Depack Lib Address

variable {σ : Type} {a : Address} {raw : SRPWord} {line : Line σ} {mem : σ → Mem} {st : σ}
variable {ws : List SRPWord} {body data : Bytes} {tid : SRPWord} {rchn : BufChain}
variable {lo hi rx tx o n : ℕ}

namespace Address

/-- The response to a request to write `n` bytes: it repeats them, and says that all is well. -/
def Acknowledges (a : Address) (n : ℕ) (rchn : BufChain) : Prop :=
  ∃ front, rchn.bytes = front ++ [0, 0, 0, 0] ∧ front.length = 4 * (a.hdrWords + (n + 3) / 4)

/-- A request to write between two addresses, no more than `room` bytes at a time. -/
def Commands (a : Address) (lo hi room : ℕ) (ws : List SRPWord) (body : Bytes) (o : ℕ)
    (data : Bytes) : Prop :=
  a.writeRequest ws body = some (o, data) ∧ lo ≤ o ∧ o + data.length ≤ hi ∧
    0 < data.length ∧ data.length ≤ room ∧ (a.byteResolution = false → o % 4 = 0 ∧ data.length % 4 = 0)

end Address

namespace Line

/-- What a device and the way to it do: a request to write gets lost, or the device does what it says
when it is pushed. What comes with the identifier of the request comes when it has been done, now or in
an earlier attempt. Reading leaves the device alone. -/
structure Obeys (a : Address) (line : Line σ) (mem : σ → Mem) (lo hi rx tx : ℕ) : Prop where
  serves : ∀ st, a.Serves (mem st) lo hi rx (line.peer st)
  lostOrDone : ∀ st ws body o data, a.Commands lo hi tx ws body o data →
    mem (line.write st ws body).1 = mem st ∨ mem (line.write st ws body).1 = (mem st).put o data
  replies : ∀ st ws body o data, a.Commands lo hi tx ws body o data →
    ∀ rchn ∈ (line.write st ws body).2, (∀ b ∈ rchn, b.Ok) ∧
      (tidWord a.protoVersion rchn).length = 4 ∧ (a.Matches ws rchn →
        a.Acknowledges data.length rchn ∧ mem (line.write st ws body).1 = (mem st).put o data)

/-- One of the attempts is replied to. -/
def Heeds (a : Address) (line : Line σ) (ws : List SRPWord) (body : Bytes) : ℕ → σ → Prop
  | 0, st => ∃ rchn ∈ (line.write st ws body).2, a.Matches ws rchn
  | attempts + 1, st => (∃ rchn ∈ (line.write st ws body).2, a.Matches ws rchn) ∨
    Heeds a line ws body attempts (line.write st ws body).1

/-- Whatever is read or written is replied to in time. -/
structure Responsive (a : Address) (line : Line σ) (lo hi rx tx : ℕ) : Prop where
  timely : ∀ st, a.Timely lo hi rx (line.peer st)
  heeds : ∀ st ws body o data, a.Commands lo hi tx ws body o data → line.Heeds a ws body a.retryCnt st

end Line

theorem completeWrite_eq (hok : ∀ b ∈ rchn, b.Ok) (h : a.Acknowledges n rchn) :
    completeWrite a ((n + 3) / 4) rchn = .ok () := by
  obtain ⟨front, hbytes, hfront⟩ := h
  have hgot : total rchn = front.length + 4 := by
    rw [← bytes_length hok, hbytes, List.length_append]
    rfl
  have hlen : total rchn = 4 * ((n + 3) / 4 + if a.protoVersion = .SRP_UDP_V3 then 6
      else 3 + if a.protoVersion = .SRP_UDP_V1 then 1 else 0) := by
    rw [hgot, hfront, hdrWords]
    split_ifs <;> omega
  have hstatus : extract (total rchn - 4) 4 rchn = [0, 0, 0, 0] := by
    rw [extract_eq hok, hgot, Nat.add_sub_cancel, hbytes, List.drop_left' rfl]
    rfl
  unfold completeWrite
  dsimp only
  rw [if_neg (not_not.2 hlen), hstatus,
    if_neg (not_not.2 (CSRPReadTransaction.hdrSwap_zero _ _))]

/-- Responses to other requests are passed over. -/
theorem popWrite_eq (raw : SRPWord) {pops : List BufChain} (htid : a.tidOf ws = some tid)
    (hpops : ∀ rchn ∈ pops, (∀ b ∈ rchn, b.Ok) ∧ (tidWord a.protoVersion rchn).length = 4 ∧
      (a.Matches ws rchn → a.Acknowledges n rchn)) :
    popWrite a raw tid ((n + 3) / 4) pops = some (.ok ()) ∧ (∃ rchn ∈ pops, a.Matches ws rchn) ∨
      popWrite a raw tid ((n + 3) / 4) pops = none ∧ ¬∃ rchn ∈ pops, a.Matches ws rchn := by
  induction pops with
  | nil => exact .inr ⟨rfl, by simp⟩
  | cons rchn pops ih =>
    obtain ⟨hok, hlen, hack⟩ := hpops rchn List.mem_cons_self
    have hmatch : tidMatch (toTid ((order a.protoVersion).load (tidWord a.protoVersion rchn))) tid =
        true ↔ a.Matches ws rchn := by
      rw [tidMatch_iff, toTid_toTid, Matches, htid]
      exact ⟨fun h ↦ congrArg some h.symm, fun h ↦ (Option.some.inj h).symm⟩
    rw [popWrite, extractTid_eq hok hlen]
    dsimp only
    split_ifs with hm
    · have hmine := hmatch.1 hm
      exact .inl ⟨congrArg some (completeWrite_eq hok (hack hmine)), rchn, List.mem_cons_self, hmine⟩
    · simp only [List.exists_mem_cons_iff, mt hmatch.2 hm, false_or]
      exact ih fun r hr ↦ hpops r (List.mem_cons_of_mem rchn hr)

section Attempts

variable {hdr : List SRPWord} {nWords : ℕ} {r : Except WriteError Unit}

theorem writeAttempts_done (attempts : ℕ)
    (h : popWrite a raw tid nWords (line.write st hdr body).2 = some r) :
    writeAttempts a raw line tid hdr body nWords attempts st = (r, (line.write st hdr body).1) := by
  unfold writeAttempts
  dsimp only
  rw [h]

theorem writeAttempts_last (h : popWrite a raw tid nWords (line.write st hdr body).2 = none) :
    writeAttempts a raw line tid hdr body nWords 0 st =
      (.error .tooManyRetries, (line.write st hdr body).1) := by
  unfold writeAttempts
  dsimp only
  rw [h]

theorem writeAttempts_again (attempts : ℕ)
    (h : popWrite a raw tid nWords (line.write st hdr body).2 = none) :
    writeAttempts a raw line tid hdr body nWords (attempts + 1) st =
      writeAttempts a raw line tid hdr body nWords attempts (line.write st hdr body).1 := by
  rw [writeAttempts]
  dsimp only
  rw [h]

end Attempts

/-- How a transaction ends that makes `new` out of `old`. -/
def Settles (mem : σ → Mem) (old new : Mem) (heeded : Prop) (r : Except WriteError Unit × σ) : Prop :=
  r.1 = .ok () ∧ mem r.2 = new ∨
    r.1 = .error .tooManyRetries ∧ ¬heeded ∧ (mem r.2 = old ∨ mem r.2 = new)

namespace Line

/-- A request may be pushed several times, and may be done in several attempts: that is as good as
once. -/
theorem Obeys.writeAttempts_settles (h : line.Obeys a mem lo hi rx tx) (raw : SRPWord)
    (htid : a.tidOf ws = some tid) (hreq : a.Commands lo hi tx ws body o data) (attempts : ℕ) (st : σ) :
    Settles mem (mem st) ((mem st).put o data) (line.Heeds a ws body attempts st)
      (writeAttempts a raw line tid ws body ((data.length + 3) / 4) attempts st) := by
  induction attempts generalizing st with
  | zero =>
    have hreplies := h.replies st ws body o data hreq
    rcases popWrite_eq raw htid fun r hr ↦ ⟨(hreplies r hr).1, (hreplies r hr).2.1,
      fun hm ↦ ((hreplies r hr).2.2 hm).1⟩ with ⟨hpop, r, hr, hm⟩ | ⟨hpop, hnone⟩
    · rw [writeAttempts_done 0 hpop]
      exact .inl ⟨rfl, ((hreplies r hr).2.2 hm).2⟩
    · rw [writeAttempts_last hpop]
      exact .inr ⟨rfl, hnone, h.lostOrDone st ws body o data hreq⟩
  | succ attempts ih =>
    have hreplies := h.replies st ws body o data hreq
    rcases popWrite_eq raw htid fun r hr ↦ ⟨(hreplies r hr).1, (hreplies r hr).2.1,
      fun hm ↦ ((hreplies r hr).2.2 hm).1⟩ with ⟨hpop, r, hr, hm⟩ | ⟨hpop, hnone⟩
    · rw [writeAttempts_done _ hpop]
      exact .inl ⟨rfl, ((hreplies r hr).2.2 hm).2⟩
    · rw [writeAttempts_again _ hpop]
      have hdone := h.lostOrDone st ws body o data hreq
      have hagain : (mem (line.write st ws body).1).put o data = (mem st).put o data := by
        rcases hdone with hmem | hmem
        · rw [hmem]
        · rw [hmem, Mem.put_put le_rfl]
      have hstep := ih (line.write st ws body).1
      rw [hagain] at hstep
      rcases hstep with hok | ⟨herr, hheeds, hmem⟩
      · exact .inl hok
      · exact .inr ⟨herr, not_or.2 ⟨hnone, hheeds⟩,
          hmem.elim (fun hmem ↦ hdone.imp hmem.trans hmem.trans) .inr⟩

end Line

section ReadBack

variable {s : Client} {dev : Mem} {peer : Peer} {dst : ℕ} {r : UInt64 × ℕ} {b : Block} {z : Scratch}

/-- Words or bytes between two addresses that can be read back. -/
structure Within (a : Address) (lo hi : ℕ) (r : UInt64 × ℕ) : Prop where
  head : a.headBytes r.1 = 0
  pos : 0 < r.2
  reach : a.Reaches r.1 r.2
  lo : lo ≤ r.1.toNat
  hi : a.wordEnd (r.1.toNat + r.2) ≤ hi

theorem readBack_eq (raw : SRPWord) (s : Client) {merge : Bool} (hvalid : a.Valid)
    (hserves : a.Serves dev lo hi (rx * 4) peer) (hrx : 0 < rx) (hrx' : rx ≤ 2 ^ 28) (hdst : dst ≠ 0)
    (hr : merge = true → Within a lo hi r) :
    (∃ n x, readBack a raw peer rx s merge dst r = some (.ok n, x) ∧
        x.mem = if merge then s.mem.put dst (dev.get r.1.toNat r.2) else s.mem) ∨
      ∃ x, readBack a raw peer rx s merge dst r = some (.error .timeOut, x) ∧
        ¬a.Timely lo hi (rx * 4) peer := by
  unfold readBack
  cases merge with
  | false => exact .inl ⟨0, s, rfl, rfl⟩
  | true =>
    obtain ⟨hhead, hpos, hreach, hlo, hhi⟩ := hr rfl
    obtain ⟨x, hx, k, hmem, hk⟩ := readLoop_eq raw s 0 hvalid hserves hrx hrx' hreach hpos hdst
      (hlo.trans (by rw [hhead, Nat.sub_zero])) hhi rfl rfl (Nat.le_add_right _ rx)
    have hread : read a raw peer rx s dst r.1 r.2 = some x := by
      unfold read
      rw [if_neg hpos.ne']
      exact hx
    rw [if_pos rfl, if_pos rfl, hread]
    rcases hk with ⟨hok, rfl⟩ | ⟨herr, -, htime⟩
    · rw [touched_of_aligned hhead] at hmem
      exact .inl ⟨_, x.2, by rw [← hok], hmem⟩
    · exact .inr ⟨x.2, by rw [← herr], htime⟩

namespace Block

theorem reaches_within {off : UInt64} (hreach : a.Reaches b.off b.dbytes)
    (h : off.toNat + n ≤ b.base a + b.span a) : a.Reaches off n := by
  rw [base_add_span (head_le a b)] at h
  unfold Reaches wordEnd at *
  split_ifs at * <;> omega

theorem firstRead_within (hpos : 0 < b.dbytes) (hreach : a.Reaches b.off b.dbytes)
    (hlo : lo ≤ b.base a) (hhi : b.base a + b.span a ≤ hi) :
    Within a lo hi (b.firstRead a) ∧ (b.firstRead a).1.toNat = b.base a := by
  have hT : b.totbytes a = a.headBytes b.off + b.dbytes := rfl
  have hplace : (b.firstRead a).1.toNat = b.base a ∧ a.headBytes (b.firstRead a).1 = 0 := by
    unfold firstRead base
    cases hb : a.byteResolution with
    | false =>
      rw [if_neg Bool.false_ne_true, headBytes_eq hb, headBytes_eq hb, aligned]
      exact ⟨rfl, by omega⟩
    | true =>
      rw [if_pos rfl, headBytes_bytes hb]
      exact ⟨rfl, rfl⟩
  have hlen : 0 < (b.firstRead a).2 ∧ (b.firstRead a).2 ≤ b.span a ∧
      (a.byteResolution = false → (b.firstRead a).2 % 4 = 0) := by
    rw [firstRead_length]
    unfold span nWords
    cases hb : a.byteResolution <;> simp only [if_true, Bool.false_eq_true, if_false] <;>
      split_ifs <;> simp <;> omega
  obtain ⟨hbase, hhead⟩ := hplace
  refine ⟨⟨hhead, hlen.1, reaches_within hreach (by omega), by omega, ?_⟩, hbase⟩
  unfold wordEnd
  cases hb : a.byteResolution with
  | false =>
    have hmod := hlen.2.2 hb
    rw [headBytes_eq hb] at hhead
    rw [if_neg Bool.false_ne_true]
    omega
  | true =>
    rw [if_pos rfl]
    omega

theorem lastRead_within (hpos : 0 < b.dbytes) (hreach : a.Reaches b.off b.dbytes)
    (hmerge : b.merge_last a = true) (hlo : lo ≤ b.base a) (hhi : b.base a + b.span a ≤ hi) :
    Within a lo hi (b.lastRead a) ∧
      (b.lastRead a).1.toNat = b.base a + (b.totbytes a - 1 - b.last_byte a) := by
  have hT : b.totbytes a = a.headBytes b.off + b.dbytes := rfl
  have hle := head_le a b
  have hwithin : b.lastbyte_in_firstwords a = false := by
    simp [merge_last] at hmerge
    exact hmerge.2
  have hlast : (b.off + .ofNat b.dbytes - 1).toNat = b.off.toNat + b.dbytes - 1 := by
    have hone : (1 : UInt64).toNat = 1 := rfl
    have hlt := b.off.toNat_lt
    have hbound : b.off.toNat + b.dbytes ≤ 2 ^ 64 := by
      unfold Reaches at hreach
      split_ifs at hreach <;> omega
    rw [UInt64.toNat_sub, UInt64.toNat_add, UInt64.toNat_ofNat', hone]
    omega
  have hplace : (b.lastRead a).1.toNat = b.base a + (b.totbytes a - 1 - b.last_byte a) ∧
      a.headBytes (b.lastRead a).1 = 0 := by
    unfold lastRead base last_byte
    cases hb : a.byteResolution with
    | false =>
      have hhead := headBytes_eq hb b.off
      rw [if_neg Bool.false_ne_true, Bool.false_and, if_neg Bool.false_ne_true]
      dsimp only
      rw [headBytes_eq hb (_ &&& ~~~3), aligned, hlast]
      omega
    | true =>
      have hhead := headBytes_bytes hb b.off
      rw [if_pos rfl, hwithin, Bool.not_false, Bool.and_true, if_pos rfl]
      dsimp only
      rw [hlast, headBytes_bytes hb (_ - 1)]
      omega
  have hlen : 0 < (b.lastRead a).2 ∧
      b.totbytes a - 1 - b.last_byte a + (b.lastRead a).2 ≤ b.span a ∧
      (a.byteResolution = false → (b.lastRead a).2 % 4 = 0) := by
    unfold lastRead last_byte span nWords
    cases hb : a.byteResolution with
    | false =>
      simp only [Bool.false_and, Bool.false_eq_true, if_false]
      exact ⟨by norm_num, by omega, fun _ ↦ trivial⟩
    | true =>
      simp only [hwithin, Bool.not_false, Bool.and_true, if_true]
      exact ⟨Nat.one_pos, by omega, fun h ↦ absurd h Bool.true_eq_false.mp⟩
  obtain ⟨hbase, hhead⟩ := hplace
  refine ⟨⟨hhead, hlen.1, reaches_within hreach (by omega), by omega, ?_⟩, hbase⟩
  unfold wordEnd
  cases hb : a.byteResolution with
  | false =>
    have hmod := hlen.2.2 hb
    rw [headBytes_eq hb] at hhead
    rw [if_neg Bool.false_ne_true]
    omega
  | true =>
    rw [if_pos rfl]
    omega

end Block

end ReadBack

end Cpsw.Srp
