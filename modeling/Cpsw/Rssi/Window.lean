import Cpsw.Rssi.Acts
import Cpsw.Rssi.Segment

namespace Cpsw.Rssi

open Cpsw.Lib.Run

def content (b : Bytes) : Segment := (Segment.ofBytes b).content

def seqNo (b : Bytes) : SeqNo := (Segment.ofBytes b).seqNo

/-- The number of the first segment of the connection, which is the SYN. -/
def Sender.isn (s : Sender) : SeqNo := seqNo (s.sent.headD [])

/-- The ring holds `q`: the segments that were sent and not yet acknowledged, in order, no more
than the peer allows, numbered on from the SYN. -/
structure Window (k : Core) (q : List Bytes) : Prop where
  holds : k.snd.unAckedSegs.Holds q
  room : k.snd.peerOssMX ≤ k.snd.unAckedSegs.capa
  own : k.cfg.maxUnackedSegs ≤ k.snd.unAckedSegs.capa
  bound : q.length ≤ max 1 k.snd.peerOssMX
  whole : ∀ b ∈ q, Whole b
  listen : k.state = .LISTEN → q = [] ∧ k.snd.sent = [] ∧ k.snd.acked = 0
  early : k.state.early = true → q.length ≤ 1
  closed : k.state = .CLOSED → k.rst = true ∨ k.snd.sent = []
  ackedLe : k.snd.acked ≤ k.snd.sent.length
  pending : q.map content = (k.snd.sent.drop k.snd.acked).map content
  begun : k.rst = false → k.state.begun = true → k.snd.sent ≠ []
  numbered : k.rst = false → ∀ i b, k.snd.sent[i]? = some b →
    seqNo b = k.snd.isn + UInt8.ofNat i
  last : k.rst = false → k.snd.sent ≠ [] →
    k.snd.lastSeqSent + 1 = k.snd.isn + UInt8.ofNat k.snd.sent.length
  oldest : k.rst = false → k.snd.sent ≠ [] →
    k.snd.unAckedSegs.oldest = k.snd.isn + UInt8.ofNat k.snd.acked

variable {k k' : Core} {q : List Bytes} {d : Option Segment}

theorem whole_set (flags : UInt8) (s : SeqNo) (p : Bytes) : Whole (RssiHeader.set flags s ++ p) := by
  refine ⟨(getHSize_set flags s p).ge, ?_⟩
  rw [getHSize_set, List.length_append, length_set]
  omega

theorem Window.length_eq (h : Window k q) : q.length = k.snd.sent.length - k.snd.acked := by
  have hp := congrArg List.length h.pending
  simpa only [List.length_map, List.length_drop] using hp

theorem isn_append {s : Sender} (h : s.sent ≠ []) (b : Bytes) :
    ({ s with sent := s.sent ++ [b] } : Sender).isn = s.isn := by
  unfold Sender.isn
  cases hs : s.sent with
  | nil => exact absurd hs h
  | cons a l => rfl

/-- A change of state, of the receiving side or of what has been emitted. -/
theorem Window.frame (h : Window k q) (hs : k'.snd = k.snd) (hc : k'.cfg = k.cfg)
    (hst : k'.state = k.state) (hr : k'.rst = k.rst) : Window k' q := by
  constructor
  · rw [hs]
    exact h.holds
  · rw [hs]
    exact h.room
  · rw [hs, hc]
    exact h.own
  · rw [hs]
    exact h.bound
  · exact h.whole
  · rw [hs, hst]
    exact h.listen
  · rw [hst]
    exact h.early
  · rw [hs, hst, hr]
    exact h.closed
  · rw [hs]
    exact h.ackedLe
  · rw [hs]
    exact h.pending
  · rw [hs, hst, hr]
    exact h.begun
  · rw [hs, hr]
    exact h.numbered
  · rw [hs, hr]
    exact h.last
  · rw [hs, hr]
    exact h.oldest

theorem Window.size (h : Window k q) : k.snd.unAckedSegs.getSize = q.length := h.holds.getSize_eq

theorem Window.sent_ne_nil (h : Window k q) (ha : k.Active) (hr : k.rst = false) :
    k.snd.sent ≠ [] := by
  rcases ha.2 with hr' | hb
  · rw [hr] at hr'
    contradiction
  · exact h.begun hr hb

/-- A segment with the next number joins a ring whose window is not full. -/
theorem Window.send {ring : RingBuf Bytes} {b₀ b : Bytes} (h : Window k q) (ha : k.Active)
    (hw : k.snd.unAckedSegs.getSize < k.snd.peerOssMX) (hb : Whole b)
    (hcont : content b = content b₀) (hn : seqNo b₀ = k.snd.lastSeqSent + 1) (hp : k.snd.unAckedSegs.push (some b) = .ok ring)
    (hs : k'.snd = { k.snd with
      lastSeqSent := k.snd.lastSeqSent + 1, unAckedSegs := ring
      sent := k.snd.sent ++ [b₀], popped := k'.snd.popped })
    (hc : k'.cfg = k.cfg) (hst : k'.state = k.state) (hr : k'.rst = k.rst) :
    Window k' (q ++ [b]) := by
  have hroom := h.room
  have hsz := h.size
  obtain ⟨ring', hp', hring, hcapa, hold⟩ := h.holds.push (by omega) b
  obtain rfl : ring' = ring := Except.ok.inj (hp'.symm.trans hp)
  have hisn : k.rst = false → k'.snd.isn = k.snd.isn := by
    intro hr'
    rw [hs]
    exact isn_append (h.sent_ne_nil ha hr') b₀
  have hle := h.ackedLe
  constructor
  · rw [hs]
    exact hring
  · rw [hs]
    exact h.room.trans hcapa.ge
  · rw [hs, hc]
    exact h.own.trans hcapa.ge
  · rw [hs, List.length_append, List.length_singleton]
    dsimp only
    omega
  · intro x hx
    rcases List.mem_append.1 hx with hx | hx
    · exact h.whole x hx
    · obtain rfl := List.mem_singleton.1 hx
      exact hb
  · rw [hst]
    intro hl
    have he := ha.1
    rw [hl] at he
    contradiction
  · rw [hst, ha.1]
    exact nofun
  · rw [hst, hr]
    intro hcl
    rcases ha.2 with hr' | hb
    · exact .inl hr'
    · rw [hcl] at hb
      contradiction
  · rw [hs, List.length_append]
    dsimp only
    omega
  · rw [hs]
    dsimp only
    rw [List.drop_append_of_le_length hle, List.map_append, List.map_append, h.pending,
      List.map_singleton, hcont]
    rfl
  · rw [hs]
    intro _ _
    exact List.append_ne_nil_of_right_ne_nil _ (List.cons_ne_nil _ [])
  · rw [hr]
    intro hr' i x hx
    rw [hisn hr']
    rw [hs] at hx
    dsimp only at hx
    rcases Nat.lt_trichotomy i k.snd.sent.length with hi | rfl | hi
    · rw [List.getElem?_append_left hi] at hx
      exact h.numbered hr' i x hx
    · rw [List.getElem?_concat_length] at hx
      obtain rfl := Option.some.inj hx
      rw [hn, h.last hr' (h.sent_ne_nil ha hr')]
    · rw [List.getElem?_eq_none (by simp; omega)] at hx
      cases hx
  · rw [hr]
    intro hr' _
    rw [hisn hr', hs]
    dsimp only
    rw [h.last hr' (h.sent_ne_nil ha hr'), List.length_append, List.length_singleton,
      UInt8.ofNat_add, UInt8.add_assoc]
    rfl
  · rw [hr]
    intro hr' _
    rw [hisn hr', hs]
    dsimp only
    rw [hold]
    exact h.oldest hr' (h.sent_ne_nil ha hr')

/-- An acknowledgement takes the segments up to its own number, or none. -/
theorem Window.acknowledge (h : Window k q) (a : SeqNo) :
    ∃ n ≤ q.length, Window (k.acknowledge a) (q.drop n) ∧
      (k.acknowledge a).snd.acked = k.snd.acked + n ∧
        (k.snd.unAckedSegs.cumAck a ≤ q.length → n = k.snd.unAckedSegs.cumAck a) := by
  obtain ⟨hout, hin⟩ := h.holds.ack a
  have hlen := h.length_eq
  rcases Nat.lt_or_ge q.length (k.snd.unAckedSegs.cumAck a) with hlt | hge
  · have hk : k.acknowledge a = k := by
      unfold Core.acknowledge
      rw [hout hlt]
      rfl
    rw [hk]
    exact ⟨0, Nat.zero_le _, h, rfl, fun hle ↦ by omega⟩
  · obtain ⟨hn, hring, hcapa, hold⟩ := hin hge
    have hacked : (k.acknowledge a).snd.acked = k.snd.acked + k.snd.unAckedSegs.cumAck a := by
      change k.snd.acked + (k.snd.unAckedSegs.ack a).1.toNat = _
      rw [hn]
      rfl
    refine ⟨k.snd.unAckedSegs.cumAck a, hge, ?_, hacked, fun _ ↦ rfl⟩
    constructor
    · exact hring
    · exact h.room.trans hcapa.ge
    · exact h.own.trans hcapa.ge
    · have hb := h.bound
      change _ ≤ max 1 k.snd.peerOssMX
      rw [List.length_drop]
      omega
    · exact fun b hb ↦ h.whole b (List.mem_of_mem_drop hb)
    · intro hl
      obtain ⟨rfl, hs, ha⟩ := h.listen hl
      rw [List.length_nil] at hge
      exact ⟨List.drop_nil, hs, by rw [hacked, ha]; omega⟩
    · intro he
      have := h.early he
      rw [List.length_drop]
      omega
    · exact h.closed
    · rw [hacked]
      change _ ≤ k.snd.sent.length
      have := h.ackedLe
      omega
    · rw [hacked]
      change _ = ((k.snd.sent.drop _).map content)
      rw [← List.drop_drop, List.map_drop, h.pending, ← List.map_drop]
    · exact h.begun
    · exact h.numbered
    · exact h.last
    · intro hr hs
      rw [hacked]
      change (k.snd.unAckedSegs.ack a).2.oldest = k.snd.isn + _
      have hcum : UInt8.ofNat (k.snd.unAckedSegs.cumAck a) = a - k.snd.unAckedSegs.oldest + 1 :=
        UInt8.ofNat_toNat
      rw [hold, UInt8.ofNat_add, ← UInt8.add_assoc, ← h.oldest hr hs, hcum]
      grind

theorem Window.deref {i : ℕ} {b : Bytes} (h : Window k q) (hi : i < k.snd.unAckedSegs.getSize)
    (hb : k.snd.unAckedSegs.deref (k.snd.unAckedSegs.iter i) = some b) : q[i]? = some b := by
  rw [h.size] at hi
  exact (h.holds.deref hi.le).symm.trans hb

/-- A retransmission changes the buffer in the ring, but not the segment that it holds. -/
theorem Window.resend {busy : Bool} {i : ℕ} {b : Bytes} (h : Window k q)
    (hi : i < k.snd.unAckedSegs.getSize)
    (hb : k.snd.unAckedSegs.deref (k.snd.unAckedSegs.iter i) = some b) :
    Window ((k.emit (k.stamp busy b)).restamp i (k.stamp busy b)) (q.set i (k.stamp busy b)) := by
  have hq := h.deref hi hb
  have hw : Whole b := h.whole b (List.mem_of_getElem? hq)
  rw [h.size] at hi
  constructor
  · exact h.holds.update hi _
  · exact h.room
  · exact h.own
  · rw [List.length_set]
    exact h.bound
  · intro x hx
    rcases List.mem_or_eq_of_mem_set hx with hx | rfl
    · exact h.whole x hx
    · exact (sameBut_stamp hw).whole hw
  · intro hl
    obtain ⟨rfl, -⟩ := h.listen hl
    simp at hi
  · rw [List.length_set]
    exact h.early
  · exact h.closed
  · exact h.ackedLe
  · have hset : (q.set i (k.stamp busy b)).map content = q.map content := by
      rw [List.map_set, show content (k.stamp busy b) = content b from content_stamp hw]
      refine List.ext_getElem? fun j ↦ ?_
      rw [List.getElem?_set, List.length_map, List.getElem?_map]
      split_ifs with hij
      · subst hij
        rw [hq]
        rfl
      · rfl
    exact hset.trans h.pending
  · exact h.begun
  · exact h.numbered
  · exact h.last
  · exact h.oldest

/-- An RST uses up a number that no segment in the ring has. -/
theorem Window.reset (h : Window k q) : Window k.reset q :=
  ⟨h.holds, h.room, h.own, h.bound, h.whole, h.listen, h.early, fun _ ↦ .inl rfl, h.ackedLe, h.pending,
    fun hr ↦ absurd hr nofun, fun hr ↦ absurd hr nofun, fun hr ↦ absurd hr nofun,
    fun hr ↦ absurd hr nofun⟩

theorem Window.state (h : Window k q) (s : STATE) (he : s.early = false) (hl : k.Live)
    (hs : s.begun = true ∨ k.rst = true) : Window { k with state := s } q :=
  { h with
    listen := fun hs ↦ by
      change s = _ at hs
      rw [hs] at he
      contradiction
    early := fun he' ↦ by
      change s.early = true at he'
      rw [he] at he'
      contradiction
    closed := fun hc ↦ by
      change s = _ at hc
      rcases hs with hb | hr
      · rw [hc] at hb
        contradiction
      · exact .inl hr
    begun := fun hr _ ↦ by
      rcases hl with hr' | hb
      · exact absurd (hr.symm.trans hr') nofun
      · exact h.begun hr hb }

theorem Window.params {y : RssiSynHeader} {a : Bool} (h : Window k q) (he : k.state.early = true)
    (hp : k.extractConnectionParams y a = .ok k') : Window k' q := by
  obtain ⟨ring, prm, hf, -, rfl⟩ := params_ok hp
  have hlt := UInt8.toNat_lt y.ossMX
  obtain ⟨ring', hf', hring, hroom, hcapa, hold⟩ := h.holds.fit y.ossMX.toNat (by omega)
  obtain rfl : ring' = ring := Except.ok.inj (hf'.symm.trans hf)
  exact
    { h with
      holds := hring
      room := hroom
      own := h.own.trans hcapa
      bound := (h.early he).trans (Nat.le_max_left _ _)
      oldest := fun hr hs ↦ hold.trans (h.oldest hr hs) }

theorem Window.close (h : Window k q) (hs : k.state = .CLOSED) : Window k.close [] := by
  obtain ⟨hp, hc⟩ := h.holds.purge
  have hroom : k.cfg.maxUnackedSegs ≤ k.snd.unAckedSegs.purge.capa := hc ▸ h.own
  exact
    { holds := hp
      room := hroom
      own := hroom
      bound := Nat.zero_le _
      whole := nofun
      listen := fun _ ↦ ⟨rfl, rfl, rfl⟩
      early := fun _ ↦ Nat.zero_le _
      closed := fun _ ↦ .inr rfl
      ackedLe := Nat.le_refl _
      pending := rfl
      begun := fun _ hb ↦ by
        change k.state.begun = true at hb
        rw [hs] at hb
        contradiction
      numbered := nofun
      last := fun _ hs ↦ absurd rfl hs
      oldest := fun _ hs ↦ absurd rfl hs }

/-- The SYN is the first segment of a connection, and has the ring to itself. -/
theorem Window.sendSyn {ring : RingBuf Bytes} {b : Bytes} {busy : Bool} {n : SeqNo} {s : STATE}
    (h : Window k []) (h₁ : k.snd.sent = []) (h₂ : k.snd.acked = 0) (hb : Whole b)
    (hn : seqNo b = n) (hs : s ≠ .LISTEN) (hc : s ≠ .CLOSED)
    (hp : (k.seedSeqSent n).snd.unAckedSegs.push
      (some ((k.seedSeqSent n).stamp busy b)) = .ok ring) :
    Window { (k.seedSeqSent n).send busy b ring with state := s }
      [(k.seedSeqSent n).stamp busy b] := by
  have hseed := h.holds.seed n
  obtain ⟨ring', hp', hring, hcapa, hold⟩ :=
    hseed.push (by
      have := h.holds.wf.capa_pos
      exact this) ((k.seedSeqSent n).stamp busy b)
  obtain rfl : ring' = ring := Except.ok.inj (hp'.symm.trans hp)
  have hsent : ({ (k.seedSeqSent n).send busy b ring' with state := s } : Core).snd.sent = [b] := by
    change k.snd.sent ++ _ = _
    rw [h₁]
    rfl
  have hisn : ({ (k.seedSeqSent n).send busy b ring' with state := s } : Core).snd.isn = n := by
    unfold Sender.isn
    rw [hsent]
    exact hn
  have hacked : ({ (k.seedSeqSent n).send busy b ring' with state := s } : Core).snd.acked = 0 := h₂
  exact
    { holds := hring
      room := h.room.trans hcapa.ge
      own := h.own.trans hcapa.ge
      bound := Nat.le_max_left _ _
      whole := fun x hx ↦ by
        obtain rfl := List.mem_singleton.1 hx
        exact (sameBut_stamp hb).whole hb
      listen := fun hl ↦ absurd hl hs
      early := fun _ ↦ Nat.le_refl _
      closed := fun hcl ↦ absurd hcl hc
      ackedLe := by rw [hacked]; exact Nat.zero_le _
      pending := by
        rw [hacked, hsent]
        exact congrArg (fun x ↦ [x]) (content_stamp hb)
      begun := fun _ _ ↦ by rw [hsent]; exact List.cons_ne_nil _ _
      numbered := fun _ i x hx ↦ by
        rw [hsent] at hx
        rw [hisn]
        cases i with
        | zero =>
          obtain rfl := Option.some.inj hx
          exact hn.trans (UInt8.add_zero n).symm
        | succ i => cases hx
      last := fun _ _ ↦ by
        rw [hsent, hisn]
        rfl
      oldest := fun _ _ ↦ by
        rw [hacked, hisn]
        exact hold.trans (UInt8.add_zero n).symm }

theorem whole_synHeader (doAck : Bool) (n : SeqNo) (id : UInt32) :
    Whole (k.synHeader doAck n id) := ⟨by change 8 ≤ 24; omega, Nat.le_refl 24⟩

theorem seqNo_synHeader (doAck : Bool) (n : SeqNo) (id : UInt32) :
    seqNo (k.synHeader doAck n id) = n := rfl

theorem window_new (cfg : Config) (j : Junk) : Window (CRssi.new cfg j).toCore [] where
  holds := RingBuf.holds_new _ (by have := cfg.ld_lt; omega) _
  room := Nat.le_refl _
  own := Nat.le_refl _
  bound := Nat.zero_le _
  whole := nofun
  listen := nofun
  early := nofun
  closed := fun _ ↦ .inr rfl
  ackedLe := Nat.le_refl _
  pending := rfl
  begun := nofun
  numbered := nofun
  last := fun _ hs ↦ absurd rfl hs
  oldest := fun _ hs ↦ absurd rfl hs

theorem Opens.window (h : Opens k k') (hw : Window k q) : ∃ q', Window k' q' := by
  cases h with
  | listen hs _ =>
    exact ⟨[], { hw.close hs with
      listen := fun _ ↦ ⟨rfl, rfl, rfl⟩, early := fun _ ↦ Nat.zero_le _, closed := nofun, begun := nofun }⟩
  | connect busy n b id ring hs _ hb hp =>
    subst hb
    exact ⟨_, (hw.close hs).sendSyn rfl rfl (whole_synHeader _ _ _) (seqNo_synHeader _ _ _) nofun nofun
      hp⟩

theorem Act.window (h : Act d k k') (hw : Window k q) : ∃ q', Window k' q' := by
  cases h with
  | state s hl he hs => exact ⟨q, hw.state s he hl hs⟩
  | rst =>
    exact ⟨q, { hw with
      closed := fun _ ↦ .inl rfl, begun := fun hr ↦ absurd hr nofun, numbered := fun hr ↦ absurd hr nofun
      last := fun hr ↦ absurd hr nofun, oldest := fun hr ↦ absurd hr nofun }⟩
  | acked seg _ _ =>
    obtain ⟨n, -, h', -⟩ := hw.acknowledge seg.ackNo
    exact ⟨_, h'⟩
  | sendACK busy => exact ⟨q, hw.frame rfl rfl rfl rfl⟩
  | sendRST busy => exact ⟨q, hw.reset.frame rfl rfl rfl rfl⟩
  | sendDAT busy p ring ha hsz _ hp =>
    have hb := whole_set FLG_ACK (k.snd.lastSeqSent + 1) p
    exact ⟨_, hw.send ha hsz ((sameBut_stamp hb).whole hb) (content_stamp hb) rfl hp
      rfl rfl rfl rfl⟩
  | sendNUL busy ring ha hsz hp =>
    have hb := whole_set (FLG_ACK ||| FLG_NUL) (k.snd.lastSeqSent + 1) []
    rw [List.append_nil] at hb
    exact ⟨_, hw.send ha hsz ((sameBut_stamp hb).whole hb) (content_stamp hb) rfl hp
      rfl rfl rfl rfl⟩
  | resend busy i b hi hb => exact ⟨_, hw.resend hi hb⟩
  | store seg ro _ _ _ _ _ => exact ⟨q, hw.frame rfl rfl rfl rfl⟩
  | drain r _ _ => exact ⟨q, hw.frame rfl rfl rfl rfl⟩
  | params y a he _ hp => exact ⟨q, hw.params he hp⟩
  | acceptSyn n _ => exact ⟨q, hw.frame rfl rfl rfl rfl⟩
  | sendSynAck busy n b id ring hs hb hp =>
    subst hb
    obtain ⟨rfl, h₁, h₂⟩ := hw.listen hs
    exact ⟨_, hw.sendSyn h₁ h₂ (whole_synHeader _ _ _) (seqNo_synHeader _ _ _) nofun nofun
      hp⟩

theorem Acts.window (h : Acts d k k') (hw : Window k q) : ∃ q', Window k' q' :=
  @invariant Core (Act d) (fun k ↦ ∃ q, Window k q) (fun _ _ ⟨_, hw⟩ ha ↦ ha.window hw) _ _ h ⟨q, hw⟩

theorem Reachable.window {c : CRssi} (h : Reachable c) : ∃ q, Window c.toCore q :=
  h.core_invariant (I := fun k ↦ ∃ q, Window k q) (fun cfg j ↦ ⟨[], window_new cfg j⟩)
    (fun _ _ ⟨_, hw⟩ ho ↦ ho.window hw) (fun _ _ _ ⟨_, hw⟩ ha ↦ ha.window hw)

/-- A segment joins the ring at a free slot only, and where the window has room for it; the SYN
needs an empty ring. -/
def RoomToPush (k k' : Core) : Prop :=
  k.snd.sent.length < k'.snd.sent.length →
    Lib.Circular.cell k.snd.unAckedSegs.buf (k.snd.unAckedSegs.wp &&& k.snd.unAckedSegs.msk) = none ∧
      (k.snd.unAckedSegs.getSize < k.snd.peerOssMX ∨ k.snd.unAckedSegs.getSize = 0)

theorem Window.free (h : Window k q) (hq : q.length < k.snd.unAckedSegs.capa) :
    Lib.Circular.cell k.snd.unAckedSegs.buf (k.snd.unAckedSegs.wp &&& k.snd.unAckedSegs.msk) =
      none := by
  have hs := h.holds.slots q.length hq
  rw [List.getElem?_eq_none le_rfl] at hs
  rw [h.holds.wf.index, h.holds.wp, Nat.mod_mod_of_dvd _ h.holds.wf.length_dvd]
  exact hs

theorem Act.room (h : Act d k k') (hw : Window k q) : RoomToPush k k' := by
  have hsz := hw.size
  have hroom := hw.room
  cases h with
  | sendDAT _ _ _ _ hlt | sendNUL _ _ _ hlt => exact fun _ ↦ ⟨hw.free (by omega), .inl hlt⟩
  | sendSynAck _ _ _ _ _ hs =>
    obtain ⟨rfl, -⟩ := hw.listen hs
    exact fun _ ↦ ⟨hw.free hw.holds.wf.capa_pos, .inr hsz⟩
  | params y a _ _ hp =>
    obtain ⟨ring, prm, -, -, rfl⟩ := params_ok hp
    exact fun hlt ↦ absurd hlt (Nat.lt_irrefl _)
  | state | rst | acked | sendACK | sendRST | resend | store | drain | acceptSyn =>
    exact fun hlt ↦ absurd hlt (Nat.lt_irrefl _)

/-- The ring holds exactly the segments with the numbers `oldest .. lastSeqSent`, sent and not yet
acknowledged, in order; there are no more than the window allows, which fits into the ring. -/
def Sender.InWindow (s : Sender) : Prop :=
  ∃ q, s.unAckedSegs.Holds q ∧ q.map content = (s.sent.drop s.acked).map content ∧
    (∀ i b, q[i]? = some b → seqNo b = s.unAckedSegs.oldest + UInt8.ofNat i) ∧
    s.lastSeqSent + 1 = s.unAckedSegs.oldest + UInt8.ofNat q.length ∧
    q.length ≤ max 1 s.peerOssMX ∧ s.peerOssMX ≤ s.unAckedSegs.capa

/-- The ring's entry `i` is a copy of the segment sent `i` places after the last acknowledged. -/
theorem Window.copy {i : ℕ} {b : Bytes} (h : Window k q) (hb : q[i]? = some b) :
    ∃ b', k.snd.sent[k.snd.acked + i]? = some b' ∧ content b' = content b := by
  have hi : (k.snd.sent[k.snd.acked + i]?).map content = some (content b) := by
    rw [← List.getElem?_drop, ← List.getElem?_map, ← h.pending, List.getElem?_map, hb]
    rfl
  exact Option.map_eq_some_iff.1 hi

/-- From the SYN on, and until an RST is sent or accepted, the ring holds what the window says,
and no event overwrites one of its segments or sends a new one without room for it. -/
theorem sender_window {c : CRssi} (h : Reachable c) (hr : c.rst = false) (hs : c.snd.sent ≠ []) :
    c.snd.InWindow ∧ ∀ ev c', c.handle ev = .ok c' →
      Relation.ReflTransGen (fun k k' ↦ Act (c.segment? ev) k k' ∧ RoomToPush k k')
        c.toCore c'.toCore := by
  obtain ⟨q, hw⟩ := h.window
  have hle := hw.ackedLe
  have hold := hw.oldest hr hs
  have hlen := hw.length_eq
  refine ⟨⟨q, hw.holds, hw.pending, fun i b hb ↦ ?_, ?_, hw.bound, hw.room⟩, fun ev c' he ↦ ?_⟩
  · obtain ⟨b', hb', hc⟩ := hw.copy hb
    have hn : (content b').seqNo = (content b).seqNo := congrArg Segment.seqNo hc
    change seqNo b' = seqNo b at hn
    rw [← hn, hw.numbered hr _ b' hb', hold, UInt8.ofNat_add, UInt8.add_assoc]
  · rw [hw.last hr hs, hold, hlen, UInt8.add_assoc, ← UInt8.ofNat_add]
    congr 2
    omega
  · have hcl : c.state ≠ .CLOSED := by
      intro hst
      rcases hw.closed hst with h' | h'
      · rw [hr] at h'
        contradiction
      · exact hs h'
    rcases CRssi.handle_acts he with ho | ha
    · exact absurd ho.closed hcl
    · have hrun := @strengthen _ _ (fun k ↦ ∃ q, Window k q) (fun _ _ ⟨_, hw⟩ ha ↦ ha.window hw)
        _ _ ha ⟨q, hw⟩
      exact Relation.ReflTransGen.mono (fun _ _ ⟨ha, _, hw⟩ ↦ ⟨ha, ha.room hw⟩) _ _ hrun

theorem sender_window_after_syn :
    ∃ c, Reachable c ∧ c.state = .CLNT_WAIT_SYN_ACK ∧ c.snd.sent.length = 1 ∧ c.snd.InWindow := by
  have hrun : ((CRssi.new (smallConfig false) zeroJunk).runs [.advance ⟨0, 7⟩]).map
      (fun c ↦ (c.state, c.rst, c.snd.sent.length)) = some (.CLNT_WAIT_SYN_ACK, false, 1) := by rfl
  obtain ⟨c, hc, hf⟩ := reachable_of_runs hrun
  simp only [Prod.mk.injEq] at hf
  obtain ⟨hs, hr, hn⟩ := hf
  exact ⟨c, hc, hs, hn, (sender_window hc hr (List.ne_nil_of_length_pos (by omega))).1⟩

end Cpsw.Rssi
