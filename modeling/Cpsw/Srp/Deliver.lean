import Cpsw.Srp.Device

namespace Cpsw.Srp

open ByteMux Depack Lib Address

variable {a : Address} {raw : SRPWord} {t : CSRPReadTransaction} {dev m m' : Mem} {peer : Peer}
variable {dst sbytes attempts lo hi room : ℕ} {off : UInt64} {pops : List (Option BufChain)}
variable {s : Client}

theorem Address.Expects.tail {ws : List SRPWord} {r : Option BufChain}
    (h : a.Expects dev ws (r :: pops)) : a.Expects dev ws pops :=
  fun rchn hr ↦ h rchn (List.mem_cons_of_mem r hr)

theorem tidMatch_iff_matches {ws : List SRPWord} {rchn : BufChain} (htid : a.tidOf ws = some t.tid_) :
    tidMatch (toTid ((order a.protoVersion).load (tidWord a.protoVersion rchn))) t.tid_ = true ↔
      a.Matches ws rchn := by
  rw [tidMatch_iff, toTid_toTid, Matches, htid]
  exact ⟨fun h ↦ congrArg some h.symm, fun h ↦ (Option.some.inj h).symm⟩

/-- Responses to other requests are passed over, and the first one that matches is taken. -/
theorem readAttempts_eq (raw : SRPWord) (attempts : ℕ) {ws : List SRPWord}
    (htid : a.tidOf ws = some t.tid_) (hpops : a.Expects dev ws pops)
    (hcomplete : ∀ rchn, (∀ b ∈ rchn, b.Ok) → a.Answers dev ws rchn →
      t.complete a rchn m = (.ok (), m')) :
    readAttempts a raw t m attempts pops = (.ok (), m') ∨
      readAttempts a raw t m attempts pops = (.error .timeOut, m) := by
  induction pops generalizing attempts with
  | nil => exact .inr (by rw [readAttempts])
  | cons r pops ih =>
    cases r with
    | none =>
      cases attempts with
      | zero => exact .inr (by rw [readAttempts])
      | succ attempts =>
        rw [readAttempts]
        exact ih _ hpops.tail
    | some rchn =>
      obtain ⟨hok, hlen, hmatch⟩ := hpops rchn List.mem_cons_self
      rw [readAttempts, extractTid_eq hok hlen]
      dsimp only
      split_ifs with htm
      · exact .inl (hcomplete rchn hok (hmatch ((tidMatch_iff_matches htid).1 htm)))
      · exact ih _ hpops.tail

theorem readAttempts_inTime {ws : List SRPWord} {early late : List (Option BufChain)}
    {rchn : BufChain} (htid : a.tidOf ws = some t.tid_)
    (hpops : a.Expects dev ws (early ++ some rchn :: late)) (hmatch : a.Matches ws rchn)
    (htime : early.count none ≤ attempts)
    (hcomplete : ∀ rchn, (∀ b ∈ rchn, b.Ok) → a.Answers dev ws rchn →
      t.complete a rchn m = (.ok (), m')) :
    readAttempts a raw t m attempts (early ++ some rchn :: late) = (.ok (), m') := by
  induction early generalizing attempts with
  | nil =>
    obtain ⟨hok, hlen, hanswer⟩ := hpops rchn List.mem_cons_self
    rw [List.nil_append, readAttempts, extractTid_eq hok hlen]
    dsimp only
    rw [if_pos ((tidMatch_iff_matches htid).2 hmatch)]
    exact hcomplete rchn hok (hanswer hmatch)
  | cons r early ih =>
    rw [List.cons_append] at hpops ⊢
    cases r with
    | none =>
      rw [List.count_cons_self] at htime
      cases attempts with
      | zero => exact absurd htime (Nat.not_succ_le_zero _)
      | succ attempts =>
        rw [readAttempts]
        exact ih hpops.tail (Nat.le_of_succ_le_succ htime)
    | some r =>
      obtain ⟨hok, hlen, hanswer⟩ := hpops r List.mem_cons_self
      rw [List.count_cons_of_ne (by simp)] at htime
      rw [readAttempts, extractTid_eq hok hlen]
      dsimp only
      split_ifs with htm
      · exact hcomplete r hok (hanswer ((tidMatch_iff_matches htid).1 htm))
      · exact ih hpops.tail htime

/-- One transaction delivers what it was asked for, or it times out and leaves the memory alone. -/
theorem readBlk_eq (raw : SRPWord) (s : Client) (hvalid : a.Valid) (hreach : a.Reaches off sbytes)
    (hpos : 0 < sbytes) (hlen : a.headBytes off + sbytes ≤ 2 ^ 30) (hdst : dst ≠ 0)
    (hserves : a.Serves dev lo hi room peer)
    (hlo : lo ≤ off.toNat - a.headBytes off) (hhi : a.wordEnd (off.toNat + sbytes) ≤ hi)
    (hroom : (a.headBytes off + sbytes + 3) / 4 * 4 ≤ room) :
    readBlk_unlocked a raw peer s dst off sbytes =
      (.ok sbytes, ⟨s.tid_ + tidLsb, s.mem.put dst (dev.get off.toNat (a.touched off sbytes))⟩) ∨
    readBlk_unlocked a raw peer s dst off sbytes = (.error .timeOut, ⟨s.tid_ + tidLsb, s.mem⟩) ∧
      ¬ a.Timely lo hi room peer := by
  have hasks := asks_readHeader (toTid (s.tid_ + tidLsb)) hvalid hreach hpos hlen hlo hhi hroom
  have htid := tidOf_readHeader hvalid.srp (toTid (s.tid_ + tidLsb)) off sbytes
  have hcomplete : ∀ rchn, (∀ b ∈ rchn, b.Ok) →
      a.Answers dev (a.readHeader (toTid (s.tid_ + tidLsb)) off sbytes) rchn →
      (CSRPReadTransaction.reset a (toTid (s.tid_ + tidLsb)) dst off sbytes).complete a rchn s.mem =
        (.ok (), s.mem.put dst (dev.get off.toNat (a.touched off sbytes))) :=
    fun rchn hok hanswer ↦ hanswer.deliver hvalid hreach hpos hlen hdst hok
  have hexpects := hserves _ hasks
  have hblk (r : Except ReadError Unit × Mem)
      (h : readAttempts a raw (CSRPReadTransaction.reset a (toTid (s.tid_ + tidLsb)) dst off sbytes)
        s.mem a.retryCnt (peer (a.readHeader (toTid (s.tid_ + tidLsb)) off sbytes)) = r) :
      readBlk_unlocked a raw peer s dst off sbytes =
        (r.1.map fun _ ↦ sbytes, ⟨s.tid_ + tidLsb, r.2⟩) := by
    subst h
    exact if_neg hpos.ne'
  rcases readAttempts_eq raw a.retryCnt htid hexpects hcomplete with h | h
  · exact .inl (hblk _ h)
  · refine .inr ⟨hblk _ h, fun htime ↦ ?_⟩
    obtain ⟨early, rchn, late, hpops, hmatch, hcount⟩ := htime _ hasks
    rw [hpops] at hexpects h
    rw [readAttempts_inTime htid hexpects hmatch hcount hcomplete] at h
    cases h

/-- A block that ends at a word is followed by one that starts there. -/
theorem headBytes_next {k : ℕ} (hpos : a.headBytes off < k * 4)
    (hlt : off.toNat + (k * 4 - a.headBytes off) < 2 ^ 64) :
    (off + .ofNat (k * 4 - a.headBytes off)).toNat = off.toNat + (k * 4 - a.headBytes off) ∧
      a.headBytes (off + .ofNat (k * 4 - a.headBytes off)) = 0 := by
  have hnext : (off + .ofNat (k * 4 - a.headBytes off)).toNat =
      off.toNat + (k * 4 - a.headBytes off) := by
    rw [UInt64.toNat_add, UInt64.toNat_ofNat']
    omega
  refine ⟨hnext, ?_⟩
  cases hb : a.byteResolution with
  | false =>
    have hhead := headBytes_eq hb off
    rw [headBytes_eq hb, hnext]
    omega
  | true => exact headBytes_bytes hb _

theorem wordEnd_mono {e e' : ℕ} (h : e ≤ e') : a.wordEnd e ≤ a.wordEnd e' := by
  unfold wordEnd
  split_ifs <;> omega

theorem touched_of_le (h : 4 ≤ a.headBytes off + sbytes) : a.touched off sbytes = sbytes :=
  if_neg fun hshort ↦ by omega

theorem touched_of_aligned (h : a.headBytes off = 0) : a.touched off sbytes = sbytes :=
  if_neg fun hshort ↦ hshort.2.1 h

theorem put_nothing (m : Mem) (dst : ℕ) : m = m.put dst (dev.get off.toNat 0) := by
  funext p
  rw [Mem.put_of_not_mem (by simp only [Mem.get_length]; omega)]

/-- What `read` delivers on its way, or at its end. -/
def Delivers (a : Address) (dev : Mem) (lo hi room : ℕ) (peer : Peer) (m : Mem) (dst : ℕ)
    (off : UInt64) (sbytes rval : ℕ) (r : Except ReadError ℕ × Client) : Prop :=
  ∃ k, r.2.mem = m.put dst (dev.get off.toNat k) ∧
    (r.1 = .ok (rval + sbytes) ∧ k = a.touched off sbytes ∨ r.1 = .error .timeOut ∧ k < sbytes ∧
      ¬ a.Timely lo hi room peer)

section Loop

variable {maxWordsRx rounds nWords headbytes rval : ℕ}

theorem readLoop_last (hvalid : a.Valid) (hserves : a.Serves dev lo hi (maxWordsRx * 4) peer)
    (hmax : maxWordsRx ≤ 2 ^ 28) (hreach : a.Reaches off sbytes) (hpos : 0 < sbytes) (hdst : dst ≠ 0)
    (hwords : (a.headBytes off + sbytes + 3) / 4 ≤ maxWordsRx)
    (hlo : lo ≤ off.toNat - a.headBytes off) (hhi : a.wordEnd (off.toNat + sbytes) ≤ hi) :
    Delivers a dev lo hi (maxWordsRx * 4) peer s.mem dst off sbytes rval
      ((readBlk_unlocked a raw peer s dst off sbytes).1.map (rval + ·),
        (readBlk_unlocked a raw peer s dst off sbytes).2) := by
  have hlen : a.headBytes off + sbytes ≤ 2 ^ 30 := by omega
  rcases readBlk_eq raw s hvalid hreach hpos hlen hdst hserves hlo hhi (by omega) with h | ⟨h, htime⟩
  · rw [h]
    exact ⟨_, rfl, .inl ⟨rfl, rfl⟩⟩
  · rw [h]
    exact ⟨0, put_nothing _ _, .inr ⟨rfl, hpos, htime⟩⟩

/-- The loop delivers one block after the other. -/
theorem readLoop_eq (raw : SRPWord) (s : Client) (rval : ℕ) (hvalid : a.Valid)
    (hserves : a.Serves dev lo hi (maxWordsRx * 4) peer) (hmax : 0 < maxWordsRx)
    (hmax' : maxWordsRx ≤ 2 ^ 28) (hreach : a.Reaches off sbytes) (hpos : 0 < sbytes) (hdst : dst ≠ 0)
    (hlo : lo ≤ off.toNat - a.headBytes off) (hhi : a.wordEnd (off.toNat + sbytes) ≤ hi)
    (hhead : headbytes = a.headBytes off) (hwords : nWords = (headbytes + sbytes + 3) / 4)
    (hrounds : nWords ≤ rounds + maxWordsRx) :
    ∃ r, readLoop a raw peer maxWordsRx rounds s dst off sbytes nWords headbytes rval = some r ∧
      Delivers a dev lo hi (maxWordsRx * 4) peer s.mem dst off sbytes rval r := by
  induction rounds generalizing s dst off sbytes nWords headbytes rval with
  | zero =>
    unfold readLoop
    rw [if_neg (by omega)]
    exact ⟨_, rfl, readLoop_last hvalid hserves hmax' hreach hpos hdst (by omega) hlo hhi⟩
  | succ rounds ih =>
    unfold readLoop
    subst hhead
    by_cases hmore : nWords > maxWordsRx
    · have hlt := a.headBytes_lt off
      have hbound : off.toNat + sbytes ≤ 2 ^ 64 := by
        unfold Reaches at hreach
        split_ifs at hreach <;> omega
      have hblk : maxWordsRx * 4 - a.headBytes off < sbytes := by omega
      have hreach₁ : a.Reaches off (maxWordsRx * 4 - a.headBytes off) :=
        (Nat.add_le_add_left hblk.le _).trans hreach
      obtain ⟨hnext, hhead⟩ := @headBytes_next a off maxWordsRx (by omega) (by omega)
      have htouched : a.touched off (maxWordsRx * 4 - a.headBytes off) =
          maxWordsRx * 4 - a.headBytes off := touched_of_le (by omega)
      have hhi₁ : a.wordEnd (off.toNat + (maxWordsRx * 4 - a.headBytes off)) ≤ hi :=
        (wordEnd_mono (Nat.add_le_add_left hblk.le _)).trans hhi
      rw [if_pos hmore]
      dsimp only
      rcases readBlk_eq raw s hvalid hreach₁ (by omega) (by omega) hdst hserves hlo hhi₁
        (by omega) with h | ⟨h, htime⟩
      · rw [h]
        dsimp only
        have hreach₂ : a.Reaches (off + .ofNat (maxWordsRx * 4 - a.headBytes off))
            (sbytes - (maxWordsRx * 4 - a.headBytes off)) := by
          unfold Reaches at hreach ⊢
          rw [hnext]
          omega
        have hlo₂ : lo ≤ (off + .ofNat (maxWordsRx * 4 - a.headBytes off)).toNat -
            a.headBytes (off + .ofNat (maxWordsRx * 4 - a.headBytes off)) := by
          rw [hhead, hnext]
          omega
        have hhi₂ : a.wordEnd ((off + .ofNat (maxWordsRx * 4 - a.headBytes off)).toNat +
            (sbytes - (maxWordsRx * 4 - a.headBytes off))) ≤ hi := by
          rw [hnext, Nat.add_assoc, Nat.add_sub_cancel' hblk.le]
          exact hhi
        obtain ⟨r, hr, k, hmem, hk⟩ : ∃ r, readLoop a raw peer maxWordsRx rounds
            ⟨s.tid_ + tidLsb, s.mem.put dst (dev.get off.toNat
              (a.touched off (maxWordsRx * 4 - a.headBytes off)))⟩
            (dst + (maxWordsRx * 4 - a.headBytes off)) (off + .ofNat (maxWordsRx * 4 - a.headBytes off))
            (sbytes - (maxWordsRx * 4 - a.headBytes off)) (nWords - maxWordsRx) 0
            (rval + (maxWordsRx * 4 - a.headBytes off)) = some r ∧
            Delivers a dev lo hi (maxWordsRx * 4) peer (s.mem.put dst (dev.get off.toNat
              (a.touched off (maxWordsRx * 4 - a.headBytes off))))
              (dst + (maxWordsRx * 4 - a.headBytes off)) (off + .ofNat (maxWordsRx * 4 - a.headBytes off))
              (sbytes - (maxWordsRx * 4 - a.headBytes off)) (rval + (maxWordsRx * 4 - a.headBytes off)) r :=
          ih _ _ hreach₂ (by omega) (by omega) hlo₂ hhi₂ hhead.symm (by omega) (by omega)
        have hput : s.mem.put dst (dev.get off.toNat (maxWordsRx * 4 - a.headBytes off + k)) =
            r.2.mem := by
          have hlen : (dev.get off.toNat (maxWordsRx * 4 - a.headBytes off)).length =
              maxWordsRx * 4 - a.headBytes off := Mem.get_length
          rw [hmem, htouched, hnext, Mem.get_add, Mem.put_append, hlen]
        refine ⟨r, hr, maxWordsRx * 4 - a.headBytes off + k, hput.symm, ?_⟩
        rw [touched_of_aligned hhead] at hk
        rcases hk with ⟨hr, rfl⟩ | ⟨hr, hk, htime⟩
        · refine .inl ⟨hr.trans ?_, ?_⟩
          · rw [Nat.add_assoc, Nat.add_sub_cancel' hblk.le]
          · rw [Nat.add_sub_cancel' hblk.le, touched_of_le (by omega)]
        · exact .inr ⟨hr, by omega, htime⟩
      · rw [h]
        exact ⟨_, rfl, 0, put_nothing _ _, .inr ⟨rfl, hpos, htime⟩⟩
    · rw [if_neg hmore]
      exact ⟨_, rfl, readLoop_last hvalid hserves hmax' hreach hpos hdst (by omega) hlo hhi⟩

end Loop

/-- A register of a device of version 1 whose bytes are their own addresses. -/
def register : Address := ⟨.SRP_UDP_V1, .LE, 5, false, false, 1⟩

/-- What the device sends when it is asked for the word with the fifth and the sixth byte. -/
def registerReply : BufChain :=
  [{ data := [5, 0, 0, 0, 0, 0, 0, 1, 0, 0, 0, 1, 7, 6, 5, 4, 0, 0, 0, 0], beg := 0, fin := 20 }]

/-- A response to a request that has been given up, and the answer after one time-out. -/
def registerPeer : Peer := fun ws ↦
  if ws = [0x5000000, 1, 1, 0, 0] then
    [some [{ data := [5, 0, 0, 0, 5, 0, 0, 9], beg := 0, fin := 8 }], none, some registerReply]
  else []

theorem registerPeer_serves : register.Serves UInt8.ofNat 4 8 4 registerPeer := by
  intro ws _ rchn hmem
  unfold registerPeer at hmem
  split_ifs at hmem with hws
  · subst hws
    simp only [List.mem_cons, Option.some.injEq, reduceCtorEq, List.not_mem_nil, or_false,
      false_or] at hmem
    rcases hmem with rfl | rfl
    · exact ⟨List.forall_mem_singleton.2 ⟨by decide, by decide, by decide⟩, rfl,
        fun h ↦ absurd h (by unfold Matches; decide)⟩
    · exact ⟨List.forall_mem_singleton.2 ⟨by decide, by decide, by decide⟩, rfl,
        fun _ ↦ ⟨4, 4, [5, 0, 0, 0, 0, 0, 0, 1, 0, 0, 0, 1], [4, 5, 6, 7], rfl, rfl, rfl, rfl, rfl⟩⟩
  · exact absurd hmem List.not_mem_nil

end Cpsw.Srp
