import Cpsw.Rssi.Window

namespace Cpsw.Rssi

open Cpsw.Lib.Run

/-- The payloads among some segments, in order. -/
def payloads (l : List Segment) : List Bytes :=
  (l.filter fun s ↦ !hasFlag s.flags FLG_NUL).map (·.payload)

/-- From the SYN with the number `n` on, the segments that were consumed, and those that wait for
a gap to close or for the user, are numbered without a break. -/
structure Receiver.Numbered (r : Receiver) (n : SeqNo) : Prop where
  ok : r.unOrderedSegs.Ok
  oldest : r.unOrderedSegs.oldest = n + 1 + UInt8.ofNat r.consumed.length
  consumed : ∀ i s, r.consumed[i]? = some s → s.seqNo = n + 1 + UInt8.ofNat i
  given : r.given = payloads r.consumed
  waiting : ∀ off < r.unOrderedSegs.capa, ∀ s, r.unOrderedSegs.slot off = some s →
    s.seqNo = r.unOrderedSegs.oldest + UInt8.ofNat off ∧ s.Storable

/-- The last segment consumed is the one to acknowledge. -/
structure Receiver.Acks (r : Receiver) (n : SeqNo) : Prop extends r.Numbered n where
  last : r.lastSeqRecv + 1 = r.unOrderedSegs.oldest

variable {k k' : Core} {q : List Bytes} {d : Option Segment} {r r' : Receiver} {n : SeqNo}

theorem payloads_concat (l : List Segment) (s : Segment) :
    payloads (l ++ [s]) =
      if hasFlag s.flags FLG_NUL then payloads l else payloads l ++ [s.payload] := by
  unfold payloads
  rw [List.filter_append, List.map_append]
  split_ifs with h
  · simp [h]
  · simp [h]

theorem Receiver.Numbered.take {s : Segment} (h : r.Numbered n)
    (hs : r.unOrderedSegs.peek = some s) : (r.take s).Numbered n := by
  have hs₀ : r.unOrderedSegs.slot 0 = some s := h.ok.wf.peek_eq.symm.trans hs
  have hpos := h.ok.wf.capa_pos
  obtain ⟨b, hb, hok, hcapa, hold, hslot⟩ := h.ok.pop_some hs₀
  have hpop : (r.take s).unOrderedSegs = b := by
    change r.unOrderedSegs.pop.2 = b
    rw [hb]
  have hnum := (h.waiting 0 hpos s hs₀).1
  constructor
  · rw [hpop]
    exact hok
  · rw [hpop, hold, h.oldest]
    change _ = n + 1 + UInt8.ofNat (r.consumed ++ [s]).length
    rw [List.length_append, List.length_singleton, UInt8.ofNat_add, ← UInt8.add_assoc]
    rfl
  · intro i x hx
    change (r.consumed ++ [s])[i]? = some x at hx
    rcases Nat.lt_trichotomy i r.consumed.length with hi | rfl | hi
    · rw [List.getElem?_append_left hi] at hx
      exact h.consumed i x hx
    · rw [List.getElem?_concat_length] at hx
      obtain rfl := Option.some.inj hx
      rw [hnum, h.oldest]
      exact UInt8.add_zero _
    · rw [List.getElem?_eq_none (by simp; omega)] at hx
      cases hx
  · change (if _ then _ else _) = payloads (r.consumed ++ [s])
    rw [payloads_concat, h.given]
  · rw [hpop, hcapa, hold]
    intro off ho x hx
    rw [hslot off ho] at hx
    split_ifs at hx with hl
    obtain ⟨hx, hst⟩ := h.waiting (off + 1) (by omega) x hx
    refine ⟨?_, hst⟩
    rw [hx, UInt8.ofNat_add]
    change _ + (_ + 1) = _
    grind

theorem Receiver.Numbered.drains (h : r.Numbered n) (hd : Drains r r') : r'.Acks n := by
  induction hd with
  | done r =>
    refine ⟨⟨h.ok, h.oldest, h.consumed, h.given, h.waiting⟩, ?_⟩
    change r.unOrderedSegs.oldest - 1 + 1 = r.unOrderedSegs.oldest
    grind
  | take hs _ ih => exact ih (h.take hs)

theorem Receiver.Acks.store {seg : Segment} {ro : ReassembleBuf Segment} (h : r.Acks n)
    (hst : seg.Storable) (ha : r.unOrderedSegs.canAccept seg.seqNo = true)
    (hs : r.unOrderedSegs.store seg.seqNo seg = .ok ro) :
    ({ r with unOrderedSegs := ro } : Receiver).Acks n := by
  obtain ⟨ro', hs', hok, hold, hcapa, -, hslot⟩ := h.ok.store ha seg
  obtain rfl : ro' = ro := Except.ok.inj (hs'.symm.trans hs)
  refine ⟨⟨hok, hold.trans h.oldest, h.consumed, h.given, fun off ho s hx ↦ ?_⟩,
    h.last.trans hold.symm⟩
  dsimp only at ho hx ⊢
  rw [hcapa] at ho
  rw [hslot off ho] at hx
  rw [hold]
  split_ifs at hx with he
  · obtain rfl := Option.some.inj hx
    refine ⟨?_, hst⟩
    rw [he, ReassembleBuf.off, UInt8.ofNat_toNat]
    grind
  · exact h.waiting off ho s hx

/-- What is emitted acknowledges the segments that have been consumed, and no other. -/
def Honest (e : Emission) : Prop :=
  ∀ n, e.rcv.irs = some n → e.rcv.Acks n ∧ (Segment.ofBytes e.bytes).ackNo = e.rcv.lastSeqRecv

structure Acking (k : Core) : Prop where
  ok : k.rcv.unOrderedSegs.Ok
  capa : k.rcv.unOrderedSegs.capa = k.cfg.maxUnackedSegs
  empty : k.state.early = true → ∀ off, k.rcv.unOrderedSegs.slot off = none
  acks : ∀ n, k.rcv.irs = some n → k.rcv.Acks n
  out : ∀ e ∈ k.out, Honest e

theorem drains_ok (hd : Drains r r') (h : r.unOrderedSegs.Ok) :
    r'.unOrderedSegs.Ok ∧ r'.unOrderedSegs.capa = r.unOrderedSegs.capa ∧ r'.irs = r.irs := by
  induction hd with
  | done r => exact ⟨h, rfl, rfl⟩
  | @take r r' s hs _ ih =>
    obtain ⟨b, hb, hok, hcapa, -⟩ := h.pop_some (h.wf.peek_eq.symm.trans hs)
    have ht : (r.take s).unOrderedSegs = b := by
      change r.unOrderedSegs.pop.2 = b
      rw [hb]
    rw [ht] at ih
    obtain ⟨hok', hcapa', hirs⟩ := ih hok
    exact ⟨hok', hcapa'.trans hcapa, hirs⟩

/-- A segment that goes out carries the number of the last one consumed. -/
theorem honest_stamp {busy : Bool} {b : Bytes} {m : ℕ} (hb : Whole b)
    (h : ∀ n, k.rcv.irs = some n → k.rcv.Acks n) :
    Honest { bytes := k.stamp busy b, nSent := m, rcv := k.rcv } := by
  intro n hn
  refine ⟨h n hn, ?_⟩
  rw [ofBytes_stamp hb]

theorem Acking.emit {busy : Bool} {b : Bytes} {m : ℕ} (h : Acking k) (hb : Whole b)
    (hr : k'.rcv = k.rcv) (hc : k'.cfg = k.cfg) (hs : k'.state.early = true → k.state.early = true)
    (ho : k'.out = k.out ++ [{ bytes := k.stamp busy b, nSent := m, rcv := k.rcv }]) :
    Acking k' := by
  refine ⟨by rw [hr]; exact h.ok, by rw [hr, hc]; exact h.capa, fun he ↦ ?_, ?_, fun e he ↦ ?_⟩
  · rw [hr]
    exact h.empty (hs he)
  · rw [hr]
    exact h.acks
  · rw [ho] at he
    rcases List.mem_append.1 he with he | he
    · exact h.out e he
    · obtain rfl := List.mem_singleton.1 he
      exact honest_stamp hb h.acks

theorem Acking.frame (h : Acking k) (hr : k'.rcv = k.rcv) (hc : k'.cfg = k.cfg)
    (ho : k'.out = k.out) (hs : k'.state.early = true → k.state.early = true) : Acking k' :=
  ⟨by rw [hr]; exact h.ok, by rw [hr, hc]; exact h.capa, fun he ↦ by rw [hr]; exact h.empty (hs he), by rw [hr]; exact h.acks,
    by rw [ho]; exact h.out⟩

theorem Acking.close (h : Acking k) : Acking { k.close with state := .LISTEN } :=
  ⟨h.ok.purge, h.capa, fun _ off ↦ ReassembleBuf.slot_purge off, nofun, nofun⟩

theorem Opens.acking (h : Opens k k') (ha : Acking k) : Acking k' := by
  cases h with
  | listen _ _ => exact ha.close
  | connect busy n b id ring _ _ hb _ =>
    subst hb
    have hw : Whole (k.close.synHeader false n id) := whole_synHeader _ _ _
    exact ha.close.emit hw rfl rfl (fun _ ↦ rfl) rfl

theorem Act.acking (h : Act d k k') (hw : Window k q) (ha : Acking k) : Acking k' := by
  cases h with
  | state s _ he _ =>
    refine ha.frame rfl rfl rfl fun hs ↦ ?_
    change s.early = true at hs
    rw [he] at hs
    contradiction
  | rst | acked => exact ha.frame rfl rfl rfl id
  | sendACK busy _ =>
    have hb := whole_set FLG_ACK (k.snd.lastSeqSent + 1) []
    rw [List.append_nil] at hb
    exact ha.emit hb rfl rfl id rfl
  | sendRST busy =>
    have hb := whole_set (FLG_ACK ||| FLG_RST) k.reset.snd.lastSeqSent []
    rw [List.append_nil] at hb
    exact ha.emit hb rfl rfl id rfl
  | sendDAT busy p ring _ _ _ _ => exact ha.emit (whole_set _ _ p) rfl rfl id rfl
  | sendNUL busy ring _ _ _ =>
    have hb := whole_set (FLG_ACK ||| FLG_NUL) (k.snd.lastSeqSent + 1) []
    rw [List.append_nil] at hb
    exact ha.emit hb rfl rfl id rfl
  | resend busy i b hi hb =>
    exact ha.emit (hw.whole b (List.mem_of_getElem? (hw.deref hi hb))) rfl rfl id rfl
  | store seg ro _ hact hst hacc hs =>
    obtain ⟨ro', hs', hok, -, hcapa, -⟩ := ha.ok.store hacc seg
    obtain rfl : ro' = ro := Except.ok.inj (hs'.symm.trans hs)
    refine ⟨hok, hcapa.trans ha.capa, fun he ↦ ?_, fun n hn ↦ (ha.acks n hn).store hst hacc hs, ha.out⟩
    exact absurd (he.symm.trans hact.1) nofun
  | drain r hact hd =>
    obtain ⟨hok, hcapa, hirs⟩ := drains_ok hd ha.ok
    refine ⟨hok, hcapa.trans ha.capa, fun he ↦ absurd (he.symm.trans hact.1) nofun, fun n hn ↦ ?_, ha.out⟩
    exact (ha.acks n (hirs.symm.trans hn)).toNumbered.drains hd
  | params y a he _ hp =>
    obtain ⟨ring, prm, -, -, rfl⟩ := params_ok hp
    exact ha.frame rfl rfl rfl id
  | acceptSyn n he =>
    refine ⟨ha.ok.seed _, ha.capa, fun _ ↦ ha.empty he, fun m hm ↦ ?_, ha.out⟩
    obtain rfl := Option.some.inj hm
    refine ⟨⟨ha.ok.seed _, ?_, nofun, rfl, fun off _ s hs ↦ ?_⟩, rfl⟩
    · exact (UInt8.add_zero (n + 1)).symm
    · exact absurd ((ha.empty he off).symm.trans hs) nofun
  | sendSynAck busy n b id ring _ hb _ =>
    subst hb
    have hb : Whole (k.synHeader true n id) := whole_synHeader _ _ _
    exact ha.emit hb rfl rfl nofun rfl

theorem acking_new (cfg : Config) (j : Junk) : Acking (CRssi.new cfg j).toCore :=
  ⟨ReassembleBuf.ok_new _ cfg.ld_lt _, rfl, nofun, nofun, nofun⟩

theorem Reachable.acking {c : CRssi} (h : Reachable c) : Acking c.toCore :=
  (h.core_invariant (I := fun k ↦ (∃ q, Window k q) ∧ Acking k)
    (fun cfg j ↦ ⟨⟨[], window_new cfg j⟩, acking_new cfg j⟩)
    (fun _ _ ⟨⟨_, hw⟩, ha⟩ ho ↦ ⟨ho.window hw, ho.acking ha⟩)
    (fun _ _ _ ⟨⟨_, hw⟩, ha⟩ hact ↦ ⟨hact.window hw, hact.acking hw ha⟩)).2

theorem ReassembleBuf.Ok.capa_le {ro : ReassembleBuf Segment} (h : ro.Ok) : ro.capa ≤ 128 := by
  obtain ⟨m, -, hm⟩ := h.wf.capa
  have hlt : 2 ^ m < 2 ^ 8 := by
    rw [← hm, ← h.lim]
    exact UInt8.toNat_lt ro.lim
  have hm8 : m < 8 := (Nat.pow_lt_pow_iff_right (by decide)).1 hlt
  rw [hm]
  exact Nat.pow_le_pow_right (by decide) (by omega : m ≤ 7)

theorem mem_payloads {l : List Segment} {s : Segment} (h : s ∈ l) :
    hasFlag s.flags FLG_NUL = true ∨ s.payload ∈ payloads l := by
  by_cases hf : hasFlag s.flags FLG_NUL = true
  · exact .inl hf
  · refine .inr (List.mem_map.2 ⟨s, List.mem_filter.2 ⟨h, ?_⟩, rfl⟩)
    simpa using hf

/-- After the SYN with the number `n`, the ACK number of a segment covers exactly the segments
consumed so far: NULs, and payloads that the user's queue has been given. Those that wait for a
gap to close, or for room in that queue, come after it. -/
structure Emission.AcksConsumed (e : Emission) (n : SeqNo) : Prop where
  ackNo : (Segment.ofBytes e.bytes).ackNo = n + UInt8.ofNat e.rcv.consumed.length
  consumed : ∀ i < e.rcv.consumed.length, ∃ s, e.rcv.consumed[i]? = some s ∧
    s.seqNo = n + 1 + UInt8.ofNat i ∧
      (hasFlag s.flags FLG_NUL = true ∨ s.payload ∈ e.rcv.given)
  given : e.rcv.given = payloads e.rcv.consumed
  waiting : ∀ off < e.rcv.unOrderedSegs.capa, ∀ s, e.rcv.unOrderedSegs.slot off = some s →
    s.seqNo = (Segment.ofBytes e.bytes).ackNo + 1 + UInt8.ofNat off
  capa : e.rcv.unOrderedSegs.capa ≤ 128

/-- Whatever a peer emits after it has accepted a SYN acknowledges no more than it consumed. -/
theorem never_acks_undelivered {c : CRssi} (h : Reachable c) {e : Emission} (he : e ∈ c.out)
    {n : SeqNo} (hn : e.rcv.irs = some n) : e.AcksConsumed n := by
  obtain ⟨ha, hack⟩ := h.acking.out e he n hn
  have hlast : e.rcv.lastSeqRecv = n + UInt8.ofNat e.rcv.consumed.length := by
    have hl := ha.last
    rw [ha.oldest] at hl
    grind
  constructor
  · rw [hack, hlast]
  · intro i hi
    refine ⟨e.rcv.consumed[i], List.getElem?_eq_getElem hi,
      ha.consumed i _ (List.getElem?_eq_getElem hi), ?_⟩
    rw [ha.given]
    exact mem_payloads (List.getElem_mem hi)
  · exact ha.given
  · intro off ho s hs
    rw [(ha.waiting off ho s hs).1, hack, ← ha.last]
  · exact ha.ok.capa_le

theorem never_acks_undelivered_server :
    ∃ c, Reachable c ∧ ∃ e ∈ c.out, e.rcv.given = [[42]] ∧ e.AcksConsumed 7 := by
  have hrun : ((CRssi.new (smallConfig true) zeroJunk).runs (serverOpens ++
      [.rx (datagram [64, 8, 8, 248, 0, 0, 0, 0, 42]) ⟨4, 7⟩, .expiry ⟨50004, 7⟩])).map
      (fun c ↦ c.out.getLast?.map fun e ↦ (e.rcv.irs, e.rcv.given)) =
        some (some (some 7, [[42]])) := by rfl
  obtain ⟨c, hc, hf⟩ := reachable_of_runs hrun
  obtain ⟨e, he, hg⟩ := Option.map_eq_some_iff.1 hf
  have hmem : e ∈ c.out := List.mem_of_getLast? he
  simp only [Prod.mk.injEq] at hg
  exact ⟨c, hc, e, hmem, hg.2, never_acks_undelivered hc hmem hg.1⟩

end Cpsw.Rssi
