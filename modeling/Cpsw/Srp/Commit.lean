import Cpsw.Srp.Store

namespace Cpsw.Srp

open ByteMux Depack Lib Address
open Sval (mergeByte keepMask)

variable {σ : Type} {a : Address} {raw : SRPWord} {line : Line σ} {mem : σ → Mem} {st : σ}
variable {lo hi rx tx n : ℕ} {dev old new : Mem} {b : Block} {z : Scratch} {s s₁ s₂ : Client}
variable {cacheable : Cacheable}

namespace Block

/-- What is read back is in the buffers on the stack. -/
theorem readsBack (hfirst : (b.firstRead a).1.toNat = b.base a)
    (hlast : b.merge_last a = true →
      (b.lastRead a).1.toNat = b.base a + (b.totbytes a - 1 - b.last_byte a))
    (h₁ : s₁.mem = if b.merge_first a then
      s.mem.put z.first_words (dev.get (b.firstRead a).1.toNat (b.firstRead a).2) else s.mem)
    (h₂ : s₂.mem = if b.merge_last a then
      s₁.mem.put z.last_word (dev.get (b.lastRead a).1.toNat (b.lastRead a).2) else s₁.mem) :
    b.ReadsBack a dev (s₂.mem.get z.first_words FIRST_WORDS) (s₂.mem.get z.last_word 4) := by
  have hwords : FIRST_WORDS = 32 := rfl
  have hfits : (b.firstRead a).2 ≤ FIRST_WORDS := by
    have hw : b.lastbyte_in_firstwords a = true → b.totbytes a ≤ FIRST_WORDS := fun h ↦ by
      simp [lastbyte_in_firstwords] at h
      exact h.2
    rw [firstRead_length]
    split_ifs with h <;> first | have := hw h | skip
    all_goals omega
  have hshort : (b.lastRead a).2 ≤ 4 := by
    unfold lastRead
    split_ifs <;> norm_num
  have hapart := z.apart
  refine ⟨Mem.get_length, Mem.get_length, fun hm i hi ↦ ?_, fun hm i hi ↦ ?_⟩
  · have hkeep : s₂.mem (z.first_words + i) = s₁.mem (z.first_words + i) := by
      rw [h₂]
      split_ifs
      · exact Mem.put_of_not_mem (by rw [Mem.get_length]; omega)
      · rfl
    rw [MemDev.getD_get (by omega), hkeep, h₁, if_pos hm, MemDev.put_apply, Mem.get_length,
      if_pos (by omega), MemDev.getD_get (by omega), hfirst, Nat.add_sub_cancel_left]
  · rw [MemDev.getD_get (by omega), h₂, if_pos hm, MemDev.put_apply, Mem.get_length,
      if_pos (by omega), MemDev.getD_get (by omega), hlast hm, Nat.add_sub_cancel_left]

/-- Nothing has to be merged, or it is allowed to. -/
def Merges (a : Address) (b : Block) (cacheable : Cacheable) : Prop :=
  (b.merge_first a || b.merge_end a) = true → Cacheable.WB_CACHEABLE.val ≤ cacheable.val

end Block

/-- What a write ends with when it times out. -/
def WriteError.IsTimeOut (e : WriteError) : Prop :=
  e = .tooManyRetries ∨ e = .readBack .timeOut

/-- What a block leaves of a write: it makes `new` out of `old`, or it times out. -/
def Leaves (mem : σ → Mem) (old new : Mem) (n : ℕ) (responsive : Prop)
    (r : Except WriteError ℕ × Client × σ) : Prop :=
  r.1 = .ok n ∧ mem r.2.2 = new ∨
    (∃ e : WriteError, r.1 = .error e ∧ e.IsTimeOut) ∧ ¬responsive ∧
      (mem r.2.2 = old ∨ mem r.2.2 = new)

theorem sendBlk_leaves (h : line.Obeys a mem lo hi (rx * 4) (tx * 4)) (raw : SRPWord)
    (hvalid : a.Valid) (hposted : a.isPosted = false) (hpos : 0 < b.dbytes) (hcol : ¬b.Collapsed a)
    (hreach : a.Reaches b.off b.dbytes) (hwords : b.nWords a ≤ tx) (htx : tx ≤ 2 ^ 28)
    (hlo : lo ≤ b.base a) (hhi : b.base a + b.span a ≤ hi)
    (hback : b.ReadsBack a (mem st) (s.mem.get z.first_words FIRST_WORDS) (s.mem.get z.last_word 4)) :
    Leaves mem (mem st) (b.target (mem st)) b.dbytes (line.Responsive a lo hi (rx * 4) (tx * 4))
      (sendBlk a raw line z s st b) := by
  have hle := Block.head_le a b
  have hspan : (b.span a + 3) / 4 = b.nWords a ∧ b.span a ≤ tx * 4 ∧ b.totbytes a ≤ 2 ^ 30 ∧
      0 < b.span a := by
    have hsome : 0 < b.totbytes a := Nat.lt_of_lt_of_le hpos (Nat.le_add_left _ _)
    unfold Block.span Block.nWords at *
    split_ifs <;> omega
  have hlen : (b.payload a (s.mem.get z.first_words FIRST_WORDS) (s.mem.get z.last_word 4)).length =
      b.span a := by
    rw [Block.payload_eq hpos hcol hle hback, Mem.get_length]
  have hreq := Block.writeRequest_eq (toTid (s.tid_ + tidLsb)) hpos hcol hvalid hreach hspan.2.2.1 hle
    hback
  have hcmd : a.Commands lo hi (tx * 4)
      (a.writeHeader (toTid (s.tid_ + tidLsb)) b.off b.dbytes)
      (b.body a (s.mem.get z.first_words FIRST_WORDS) (s.mem.get z.last_word 4)) (b.base a)
      (b.payload a (s.mem.get z.first_words FIRST_WORDS) (s.mem.get z.last_word 4)) := by
    refine ⟨hreq, hlo, ?_, ?_, ?_, fun hb ↦ ⟨?_, ?_⟩⟩
    · rw [hlen]
      exact hhi
    · rw [hlen]
      exact hspan.2.2.2
    · rw [hlen]
      exact hspan.2.1
    · rw [Block.base, headBytes_eq hb]
      omega
    · rw [hlen, Block.span, hb, if_neg Bool.false_ne_true]
      exact Nat.mul_mod_left _ _
  have hsettles := h.writeAttempts_settles raw
    (tidOf_writeHeader hvalid.srp (toTid (s.tid_ + tidLsb)) b.off b.dbytes) hcmd a.retryCnt st
  rw [Block.put_payload hpos hcol hle hback, hlen, hspan.1] at hsettles
  unfold sendBlk
  dsimp only
  rw [hposted, if_neg Bool.false_ne_true]
  rcases hsettles with ⟨hok, hmem⟩ | ⟨herr, hheeds, hmem⟩
  · exact .inl ⟨by rw [hok]; rfl, hmem⟩
  · exact .inr ⟨⟨.tooManyRetries, by rw [herr]; rfl, .inl rfl⟩,
      fun hresp ↦ hheeds (hresp.heeds st _ _ _ _ hcmd), hmem⟩

namespace Block

/-- The first `n` bytes of a write. -/
def upto (b : Block) (n : ℕ) : Block :=
  { b with src := b.src.take n, mskn := if n < b.dbytes then 0 else b.mskn }

/-- What is left of a write when the first `n` bytes have been written. -/
def beyond (b : Block) (n : ℕ) : Block where
  src := b.src.drop n
  off := b.off + .ofNat n
  msk1 := 0
  mskn := b.mskn

theorem target_upto_zero (b : Block) (dev : Mem) : (b.upto 0).target dev = dev := by
  funext p
  exact MemDev.reference_out (by simp [upto]; omega)

theorem upto_dbytes (b : Block) : b.upto b.dbytes = b := by
  unfold upto dbytes
  rw [List.take_length, if_neg (lt_irrefl _)]

/-- As far as the write has come, it is as the whole write says. -/
theorem target_upto (hn : n ≤ b.dbytes) (p : ℕ) : (b.upto n).target dev p =
    if b.off.toNat ≤ p ∧ p < b.off.toNat + n then
      mergeByte (keepMask b.msk1 b.mskn b.dbytes (p - b.off.toNat)) (dev p)
        (b.src.getD (p - b.off.toNat) 0)
    else dev p := by
  have hlen : (b.src.take n).length = n := List.length_take_of_le hn
  unfold target MemDev.reference upto
  dsimp only
  rw [hlen]
  split_ifs with hp hlt hlt
  · have hmask : keepMask b.msk1 0 n (p - b.off.toNat) =
        keepMask b.msk1 b.mskn b.dbytes (p - b.off.toNat) := by
      unfold keepMask
      rw [ite_self, if_neg (show ¬p - b.off.toNat + 1 = b.dbytes by omega)]
    rw [hmask, getD_take (by omega)]
  · have hall : n = b.dbytes := le_antisymm hn (not_lt.1 hlt)
    rw [hall, getD_take (by omega)]
  · rfl

/-- The bytes behind the first ones may be written afterwards. -/
theorem target_beyond {m : ℕ} (hm : 0 < m) (hn : m + n ≤ b.dbytes)
    (hoff : (b.off + .ofNat m).toNat = b.off.toNat + m) (dev : Mem) :
    ((b.beyond m).upto n).target ((b.upto m).target dev) = (b.upto (m + n)).target dev := by
  have hlen : (b.beyond m).dbytes = b.dbytes - m := List.length_drop
  have hplace : (b.beyond m).off.toNat = b.off.toNat + m := hoff
  funext p
  rw [target_upto (by omega), target_upto (by omega), target_upto hn, hlen, hplace]
  by_cases hp : b.off.toNat + m ≤ p ∧ p < b.off.toNat + m + n
  · have hmask : keepMask (b.beyond m).msk1 (b.beyond m).mskn (b.dbytes - m) (p - (b.off.toNat + m)) =
        keepMask b.msk1 b.mskn b.dbytes (p - b.off.toNat) := by
      unfold keepMask beyond
      dsimp only
      rw [ite_self, if_neg (show ¬p - b.off.toNat = 0 by omega)]
      congr 2
      exact propext (by omega)
    have hsrc : (b.beyond m).src.getD (p - (b.off.toNat + m)) 0 = b.src.getD (p - b.off.toNat) 0 := by
      unfold beyond
      dsimp only
      rw [List.getD_eq_getElem?_getD, List.getD_eq_getElem?_getD, List.getElem?_drop]
      congr 2
      omega
    rw [if_pos hp, if_neg (by omega), if_pos (by omega), hmask, hsrc]
  · rw [if_neg hp]
    by_cases hp' : b.off.toNat ≤ p ∧ p < b.off.toNat + m
    · rw [if_pos hp', if_pos (by omega)]
    · rw [if_neg hp', if_neg (by omega)]

theorem chunk_lt (hmore : tx < b.nWords a) :
    tx * 4 < b.totbytes a := by
  unfold nWords at hmore
  omega

theorem upto_chunk (hhead : a.headBytes b.off < tx * 4) (hmore : tx < b.nWords a) :
    b.upto (tx * 4 - a.headBytes b.off) =
      { b with src := b.src.take (tx * 4 - a.headBytes b.off), mskn := 0 } := by
  have hlt := chunk_lt hmore
  unfold upto
  rw [if_pos]
  unfold totbytes at hlt
  omega

theorem chunk_dbytes (hhead : a.headBytes b.off < tx * 4) (hmore : tx < b.nWords a) :
    (b.upto (tx * 4 - a.headBytes b.off)).dbytes = tx * 4 - a.headBytes b.off := by
  have hlt := chunk_lt hmore
  unfold totbytes at hlt
  exact List.length_take_of_le (by unfold dbytes at hlt; omega)

/-- A block in front of others ends with a word. -/
theorem chunk_totbytes (hhead : a.headBytes b.off < tx * 4) (hmore : tx < b.nWords a) :
    (b.upto (tx * 4 - a.headBytes b.off)).totbytes a = tx * 4 := by
  unfold totbytes
  rw [chunk_dbytes hhead hmore]
  exact Nat.add_sub_cancel' hhead.le

theorem chunk_merge_end (hhead : a.headBytes b.off < tx * 4) (hmore : tx < b.nWords a) :
    (b.upto (tx * 4 - a.headBytes b.off)).merge_end a = false := by
  unfold merge_end
  rw [chunk_totbytes hhead hmore, upto_chunk hhead hmore]
  simp

theorem chunk_span (hhead : a.headBytes b.off < tx * 4) (hmore : tx < b.nWords a) :
    (b.upto (tx * 4 - a.headBytes b.off)).span a = tx * 4 ∧
      (b.upto (tx * 4 - a.headBytes b.off)).nWords a = tx := by
  unfold span nWords
  rw [chunk_totbytes hhead hmore]
  split_ifs <;> omega

theorem chunk_merges (hhead : a.headBytes b.off < tx * 4) (hmore : tx < b.nWords a)
    (h : b.Merges a cacheable) :
    (b.upto (tx * 4 - a.headBytes b.off)).Merges a cacheable := by
  unfold Merges
  rw [chunk_merge_end hhead hmore, Bool.or_false]
  exact fun hf ↦ h (by rw [Bool.or_eq_true]; exact .inl hf)

theorem beyond_totbytes (hhead : a.headBytes b.off < tx * 4) (hmore : tx < b.nWords a)
    (hnext : a.headBytes (b.beyond (tx * 4 - a.headBytes b.off)).off = 0) :
    (b.beyond (tx * 4 - a.headBytes b.off)).totbytes a = b.totbytes a - tx * 4 := by
  have hlt := chunk_lt hmore
  have hlen : (b.beyond (tx * 4 - a.headBytes b.off)).dbytes =
      b.dbytes - (tx * 4 - a.headBytes b.off) := List.length_drop
  unfold totbytes at *
  rw [hnext, hlen]
  omega

theorem beyond_merge_first (hnext : a.headBytes (b.beyond (tx * 4 - a.headBytes b.off)).off = 0) :
    (b.beyond (tx * 4 - a.headBytes b.off)).merge_first a = false := by
  unfold merge_first
  rw [hnext]
  rfl

theorem beyond_merges (hhead : a.headBytes b.off < tx * 4) (hmore : tx < b.nWords a)
    (hnext : a.headBytes (b.beyond (tx * 4 - a.headBytes b.off)).off = 0)
    (h : b.Merges a cacheable) :
    (b.beyond (tx * 4 - a.headBytes b.off)).Merges a cacheable := by
  have hmod : (b.totbytes a - tx * 4) % 4 = b.totbytes a % 4 := by
    have hlt := chunk_lt hmore
    omega
  have hend : (b.beyond (tx * 4 - a.headBytes b.off)).merge_end a = b.merge_end a := by
    unfold merge_end
    rw [beyond_totbytes hhead hmore hnext, hmod]
    rfl
  unfold Merges
  rw [beyond_merge_first hnext, Bool.false_or, hend]
  exact fun he ↦ h (by rw [Bool.or_eq_true]; exact .inr he)

theorem not_collapsed (h : b.merge_first a = false ∨ b.merge_end a = false) : ¬b.Collapsed a := by
  rintro ⟨hw, -⟩
  unfold lastbyte_in_firstwords at hw
  rcases h with h | h
  · rw [h] at hw
    cases hw
  · rw [h, Bool.and_false] at hw
    cases hw

/-- A write between two addresses, in blocks of as many words, from which nothing is left out. -/
structure Writable (a : Address) (lo hi tx : ℕ) (cacheable : Cacheable) (b : Block) : Prop where
  pos : 0 < b.dbytes
  whole : b.nWords a ≤ tx → ¬b.Collapsed a
  reach : a.Reaches b.off b.dbytes
  merges : b.Merges a cacheable
  lo : lo ≤ b.base a
  hi : b.base a + b.span a ≤ hi

/-- The first block, when there are others. -/
theorem Writable.chunk (h : Writable a lo hi tx cacheable b) (hhead : a.headBytes b.off < tx * 4)
    (hmore : tx < b.nWords a) :
    Writable a lo hi tx cacheable (b.upto (tx * 4 - a.headBytes b.off)) := by
  obtain ⟨-, -, hreach, hmerges, hlo, hhi⟩ := h
  have hlt := chunk_lt hmore
  have hlen := chunk_dbytes hhead hmore
  have hwhole : b.totbytes a ≤ b.span a := by
    unfold span nWords
    split_ifs <;> omega
  refine ⟨?_, fun _ ↦ not_collapsed (.inr (chunk_merge_end hhead hmore)), ?_,
    chunk_merges hhead hmore hmerges, hlo, ?_⟩
  · rw [hlen]
    exact Nat.sub_pos_of_lt hhead
  · rw [hlen]
    unfold Reaches totbytes at *
    exact le_trans (Nat.add_le_add_left (by omega) _) hreach
  · rw [(chunk_span hhead hmore).1]
    exact le_trans (Nat.add_le_add_left (by omega) _) hhi

/-- What is left behind it starts at a word. -/
theorem Writable.beyond (h : Writable a lo hi tx cacheable b) (hhead : a.headBytes b.off < tx * 4)
    (hmore : tx < b.nWords a) :
    Writable a lo hi tx cacheable (b.beyond (tx * 4 - a.headBytes b.off)) ∧
      (b.beyond (tx * 4 - a.headBytes b.off)).off.toNat =
        b.off.toNat + (tx * 4 - a.headBytes b.off) ∧
      a.headBytes (b.beyond (tx * 4 - a.headBytes b.off)).off = 0 ∧
      (b.beyond (tx * 4 - a.headBytes b.off)).dbytes = b.dbytes - (tx * 4 - a.headBytes b.off) ∧
      (b.beyond (tx * 4 - a.headBytes b.off)).nWords a = b.nWords a - tx := by
  obtain ⟨-, -, hreach, hmerges, hlo, hhi⟩ := h
  have hlt := chunk_lt hmore
  have hT : b.totbytes a = a.headBytes b.off + b.dbytes := rfl
  have hbound : b.off.toNat + b.dbytes ≤ 2 ^ 64 := by
    unfold Reaches at hreach
    split_ifs at hreach <;> omega
  obtain ⟨hnext, hzero⟩ := headBytes_next hhead (by omega)
  have hplace : (b.beyond (tx * 4 - a.headBytes b.off)).off.toNat =
    b.off.toNat + (tx * 4 - a.headBytes b.off) := hnext
  have hhead₂ : a.headBytes (b.beyond (tx * 4 - a.headBytes b.off)).off = 0 := hzero
  have hlen : (b.beyond (tx * 4 - a.headBytes b.off)).dbytes =
    b.dbytes - (tx * 4 - a.headBytes b.off) := List.length_drop
  have htot := beyond_totbytes hhead hmore hhead₂
  have hends : b.off.toNat + (tx * 4 - a.headBytes b.off) +
      (b.dbytes - (tx * 4 - a.headBytes b.off)) = b.off.toNat + b.dbytes := by omega
  have hspan : (b.beyond (tx * 4 - a.headBytes b.off)).base a +
      (b.beyond (tx * 4 - a.headBytes b.off)).span a = b.base a + b.span a := by
    rw [base_add_span (head_le a _), base_add_span (head_le a _), hplace, hlen, hends]
  refine ⟨⟨by omega, fun _ ↦ not_collapsed (.inl (beyond_merge_first hhead₂)), ?_,
    beyond_merges hhead hmore hhead₂ hmerges, ?_, hspan.trans_le hhi⟩, hplace, hhead₂, hlen, ?_⟩
  · unfold Reaches at *
    rw [hplace, hlen, hends]
    exact hreach
  · rw [base, hplace, hhead₂]
    unfold base at hlo
    omega
  · unfold nWords
    rw [htot]
    omega

end Block

/-- One block is written as a whole, or it is not written at all. -/
theorem writeBlk_leaves (h : line.Obeys a mem lo hi (rx * 4) (tx * 4)) (raw : SRPWord)
    (z : Scratch) (s : Client) (hvalid : a.Valid) (hposted : a.isPosted = false) (hrx : 0 < rx)
    (hrx' : rx ≤ 2 ^ 28) (htx : tx ≤ 2 ^ 28) (hw : b.Writable a lo hi tx cacheable)
    (hwords : b.nWords a ≤ tx) :
    ∃ r, writeBlk_unlocked a raw line rx cacheable z s st b = some r ∧
      Leaves mem (mem st) (b.target (mem st)) b.dbytes
        (line.Responsive a lo hi (rx * 4) (tx * 4)) r := by
  obtain ⟨hpos, hwhole, hreach, hmerges, hlo, hhi⟩ := hw
  have hcol := hwhole hwords
  obtain ⟨hfirst, hbase⟩ := Block.firstRead_within hpos hreach hlo hhi
  have hlast := fun hm ↦ Block.lastRead_within hpos hreach hm hlo hhi
  have hmerge : ((b.merge_first a || b.merge_end a) &&
      decide (cacheable.val < Cacheable.WB_CACHEABLE.val)) = false := by
    rw [Bool.and_eq_false_imp]
    exact fun hm ↦ decide_eq_false (not_lt.2 (hmerges hm))
  have hserves := h.serves st
  unfold writeBlk_unlocked
  rw [if_neg hpos.ne', hmerge, if_neg Bool.false_ne_true]
  rcases readBack_eq raw s hvalid hserves hrx hrx' z.first_ne fun _ ↦ hfirst with
    ⟨n₁, s₁, h₁, hmem₁⟩ | ⟨s₁, h₁, htime⟩
  · rw [h₁]
    dsimp only
    rcases readBack_eq raw s₁ hvalid hserves hrx hrx' z.last_ne fun hm ↦ (hlast hm).1 with
      ⟨n₂, s₂, h₂, hmem₂⟩ | ⟨s₂, h₂, htime⟩
    · rw [h₂]
      exact ⟨_, rfl, sendBlk_leaves h raw hvalid hposted hpos hcol hreach hwords htx hlo hhi
        (Block.readsBack hbase (fun hm ↦ (hlast hm).2) hmem₁ hmem₂)⟩
    · rw [h₂]
      exact ⟨_, rfl, .inr ⟨⟨_, rfl, .inr rfl⟩, fun hresp ↦ htime (hresp.timely st), .inl rfl⟩⟩
  · rw [h₁]
    exact ⟨_, rfl, .inr ⟨⟨_, rfl, .inr rfl⟩, fun hresp ↦ htime (hresp.timely st), .inl rfl⟩⟩

/-- What `write` leaves, when it comes to its end or times out: the first bytes have been written. -/
def Commits (mem : σ → Mem) (responsive : Prop) (dev : Mem) (b : Block) (rval : ℕ)
    (r : Except WriteError ℕ × Client × σ) : Prop :=
  ∃ n ≤ b.dbytes, mem r.2.2 = (b.upto n).target dev ∧
    (r.1 = .ok (rval + b.dbytes) ∧ n = b.dbytes ∨
      (∃ e : WriteError, r.1 = .error e ∧ e.IsTimeOut) ∧ ¬responsive)

theorem Leaves.commits {responsive : Prop} {rval : ℕ} {r : Except WriteError ℕ × Client × σ}
    (h : Leaves mem dev (b.target dev) b.dbytes responsive r) :
    Commits mem responsive dev b rval (r.1.map (rval + ·), r.2) := by
  rcases h with ⟨hok, hmem⟩ | ⟨⟨e, herr, htime⟩, hresp, hmem | hmem⟩
  · exact ⟨_, le_rfl, by rw [Block.upto_dbytes, hmem], .inl ⟨by rw [hok]; rfl, rfl⟩⟩
  · exact ⟨0, Nat.zero_le _, by rw [Block.target_upto_zero, hmem],
      .inr ⟨⟨e, by rw [herr]; rfl, htime⟩, hresp⟩⟩
  · exact ⟨_, le_rfl, by rw [Block.upto_dbytes, hmem], .inr ⟨⟨e, by rw [herr]; rfl, htime⟩, hresp⟩⟩

/-- The loop writes one block after the other. -/
theorem writeLoop_eq (h : line.Obeys a mem lo hi (rx * 4) (tx * 4)) (raw : SRPWord) (z : Scratch)
    (hvalid : a.Valid) (hposted : a.isPosted = false) (hrx : 0 < rx) (hrx' : rx ≤ 2 ^ 28)
    (htx : 0 < tx) (htx' : tx ≤ 2 ^ 28) {rounds nWords headbytes : ℕ} (s : Client) (st : σ) (rval : ℕ)
    (hw : b.Writable a lo hi tx cacheable) (hhead : headbytes = a.headBytes b.off)
    (hwords : nWords = b.nWords a) (hrounds : nWords ≤ rounds + tx) :
    ∃ r, writeLoop a raw line rx tx cacheable z rounds s st b nWords headbytes rval = some r ∧
      Commits mem (line.Responsive a lo hi (rx * 4) (tx * 4)) (mem st) b rval r := by
  induction rounds generalizing s st b nWords headbytes rval with
  | zero =>
    unfold writeLoop
    rw [if_neg (by omega)]
    obtain ⟨r, hr, hleaves⟩ := writeBlk_leaves h raw z s hvalid hposted hrx hrx' htx' hw (by omega)
    exact ⟨_, by rw [hr]; rfl, hleaves.commits⟩
  | succ rounds ih =>
    unfold writeLoop
    by_cases hmore : nWords > tx
    · subst hhead hwords
      have hhead := a.headBytes_lt b.off
      have hfit : a.headBytes b.off < tx * 4 := by omega
      have hlen := Block.chunk_dbytes hfit hmore
      obtain ⟨hw₂, hnext, hzero, hleft, hwords₂⟩ := hw.beyond hfit hmore
      obtain ⟨⟨r₁, s₁, st₁⟩, hr, hleaves⟩ := writeBlk_leaves h raw z s hvalid hposted hrx hrx' htx'
        (hw.chunk hfit hmore) (Block.chunk_span hfit hmore).2.le
      have hpos := hw₂.pos
      rw [Block.upto_chunk hfit hmore] at hr
      rw [if_pos hmore]
      dsimp only
      rw [hr]
      rcases hleaves with ⟨hok, hmem⟩ | ⟨⟨e, herr, htime⟩, hresp, hmem⟩
      · dsimp only at hok hmem
        subst hok
        obtain ⟨r, hr, n, hn, hmem₂, hend⟩ := ih s₁ st₁ (rval + (tx * 4 - a.headBytes b.off)) hw₂
          hzero.symm hwords₂.symm (by omega)
        refine ⟨r, ?_, tx * 4 - a.headBytes b.off + n, by omega, ?_, ?_⟩
        · rw [hlen]
          exact hr
        · rw [hmem₂, hmem, Block.target_beyond (by omega) (by omega) hnext]
        · exact hend.imp_left fun hok ↦ ⟨hok.1.trans (congrArg Except.ok (by omega)), by omega⟩
      · dsimp only at herr hmem
        subst herr
        rcases hmem with hmem | hmem
        · exact ⟨_, rfl, 0, Nat.zero_le _, by rw [Block.target_upto_zero]; exact hmem,
            .inr ⟨⟨e, rfl, htime⟩, hresp⟩⟩
        · exact ⟨_, rfl, tx * 4 - a.headBytes b.off, by omega, hmem, .inr ⟨⟨e, rfl, htime⟩, hresp⟩⟩
    · rw [if_neg hmore]
      obtain ⟨r, hr, hleaves⟩ := writeBlk_leaves h raw z s hvalid hposted hrx hrx' htx' hw (by omega)
      exact ⟨_, by rw [hr]; rfl, hleaves.commits⟩

theorem write_eq (h : line.Obeys a mem lo hi (rx * 4) (tx * 4)) (raw : SRPWord) (z : Scratch)
    (s : Client) (st : σ) (hvalid : a.Valid) (hposted : a.isPosted = false) (hrx : 0 < rx)
    (hrx' : rx ≤ 2 ^ 28) (htx : 0 < tx) (htx' : tx ≤ 2 ^ 28) (hw : b.Writable a lo hi tx cacheable) :
    ∃ r, write a raw line rx tx cacheable z s st b = some r ∧
      Commits mem (line.Responsive a lo hi (rx * 4) (tx * 4)) (mem st) b 0 r := by
  unfold write
  rw [if_neg hw.pos.ne']
  exact writeLoop_eq h raw z hvalid hposted hrx hrx' htx htx' s st 0 hw rfl rfl
    (Nat.le_add_right _ tx)

end Cpsw.Srp
