import Cpsw.Rssi.Ack

namespace Cpsw.Rssi

open Cpsw.Lib.Run

theorem hasFlag_or {f g h : UInt8} (hgh : g &&& h = 0) : hasFlag (f ||| g) h = hasFlag f h := by
  have h' : (f ||| g) &&& h = f &&& h := by
    rw [← UInt8.toBitVec_inj] at hgh ⊢
    simp only [UInt8.toBitVec_and, UInt8.toBitVec_or] at hgh ⊢
    rw [BitVec.and_or_distrib_right, hgh]
    exact BitVec.or_zero
  unfold hasFlag
  rw [h']

theorem storable_content {s : Segment} : s.content.Storable ↔ s.Storable := by
  unfold Segment.Storable
  rw [show hasFlag s.content.flags FLG_NUL = hasFlag s.flags FLG_NUL from hasFlag_or rfl]
  exact Iff.rfl

theorem storable_congr {s t : Segment} (h : s.content = t.content) : s.Storable ↔ t.Storable := by
  rw [← storable_content, h, storable_content]

/-- A datagram that brings a payload or a NUL is a copy of one of the segments that were sent, and
not one that has long left the window. -/
structure Emission.Copies (e : Emission) (s : Sender) : Prop where
  pos : 1 ≤ e.nSent
  le : e.nSent ≤ s.sent.length
  copy : (Segment.ofBytes e.bytes).Storable → ∃ i b, s.sent[i]? = some b ∧
    content e.bytes = content b ∧ i < e.nSent ∧ e.nSent ≤ i + max 1 s.peerOssMX

/-- Later emissions tell of at least as many segments sent and consumed. -/
def Emission.Before (e e' : Emission) : Prop :=
  e.nSent ≤ e'.nSent ∧ e.rcv.consumed.length ≤ e'.rcv.consumed.length

structure Sending (k : Core) : Prop where
  copies : ∀ e ∈ k.out, e.Copies k.snd
  ordered : k.out.Pairwise Emission.Before
  consumed : ∀ e ∈ k.out, e.rcv.consumed.length ≤ k.rcv.consumed.length
  popped : k.snd.popped = payloads (k.snd.sent.tail.map Segment.ofBytes)
  early : k.state.early = true →
    k.rcv.consumed = [] ∧ ∀ b ∈ k.snd.sent, ¬(Segment.ofBytes b).Storable

variable {k k' : Core} {q : List Bytes} {d : Option Segment} {e : Emission} {s s' : Sender}

theorem Emission.Copies.grow {l : List Bytes} (h : e.Copies s) (hs : s'.sent = s.sent ++ l) (hp : s'.peerOssMX = s.peerOssMX) :
    e.Copies s' := by
  refine ⟨h.pos, ?_, fun hst ↦ ?_⟩
  · have := h.le
    rw [hs, List.length_append]
    omega
  · obtain ⟨i, b, hb, hc, hi, hW⟩ := h.copy hst
    refine ⟨i, b, ?_, hc, hi, by rw [hp]; exact hW⟩
    rw [hs, List.getElem?_append_left (List.getElem?_eq_some_iff.1 hb).1]
    exact hb

/-- One more datagram goes out, with or without a new segment in it. -/
theorem Sending.emit {l : List Bytes} (h : Sending k) (hs : k'.snd.sent = k.snd.sent ++ l)
    (hp : k'.snd.peerOssMX = k.snd.peerOssMX) (hr : k'.rcv = k.rcv) (ho : k'.out = k.out ++ [e])
    (hn : e.nSent = k'.snd.sent.length) (her : e.rcv = k.rcv) (hc : e.Copies k'.snd)
    (hpop : k'.snd.popped = payloads (k'.snd.sent.tail.map Segment.ofBytes))
    (he : k'.state.early = true →
      k.rcv.consumed = [] ∧ ∀ b ∈ k'.snd.sent, ¬(Segment.ofBytes b).Storable) : Sending k' := by
  refine ⟨fun x hx ↦ ?_, ?_, fun x hx ↦ ?_, hpop, by rw [hr]; exact he⟩
  · rw [ho] at hx
    rcases List.mem_append.1 hx with hx | hx
    · exact (h.copies x hx).grow hs hp
    · obtain rfl := List.mem_singleton.1 hx
      exact hc
  · rw [ho, List.pairwise_append]
    refine ⟨h.ordered, List.pairwise_singleton _ _, fun x hx y hy ↦ ?_⟩
    obtain rfl := List.mem_singleton.1 hy
    have hle := (h.copies x hx).le
    refine ⟨?_, her ▸ h.consumed x hx⟩
    rw [hn, hs, List.length_append]
    omega
  · rw [hr]
    rw [ho] at hx
    rcases List.mem_append.1 hx with hx | hx
    · exact h.consumed x hx
    · obtain rfl := List.mem_singleton.1 hx
      rw [her]

theorem not_storable_stamp {busy : Bool} {b : Bytes} (hb : Whole b)
    (h : ¬(Segment.ofBytes b).Storable) : ¬(Segment.ofBytes (k.stamp busy b)).Storable := by
  rwa [storable_congr (content_stamp hb)]

/-- A header by itself, without the NUL flag, is an acknowledgement and nothing else. -/
theorem not_storable_header {flags : UInt8} {n : SeqNo} (h : hasFlag flags FLG_NUL = false) :
    ¬(Segment.ofBytes (RssiHeader.set flags n)).Storable := by
  rintro (hp | hf)
  · contradiction
  · exact Bool.false_ne_true (h.symm.trans hf)

theorem whole_header (flags : UInt8) (n : SeqNo) : Whole (RssiHeader.set flags n) := by
  have h := whole_set flags n []
  rwa [List.append_nil] at h

theorem copies_new {b : Bytes} {l : List Bytes} (hn : e.nSent = s.sent.length)
    (hb : content e.bytes = content b) (hs : s.sent = l ++ [b]) : e.Copies s := by
  have hlen : s.sent.length = l.length + 1 := by rw [hs, List.length_append, List.length_singleton]
  refine ⟨by omega, by omega, fun _ ↦ ⟨l.length, b, ?_, hb, by omega, by omega⟩⟩
  rw [hs, List.getElem?_concat_length]

theorem copies_none (hn : e.nSent = s.sent.length) (hx : ¬(Segment.ofBytes e.bytes).Storable)
    (hs : s.sent ≠ []) : e.Copies s :=
  ⟨by rw [hn]; exact List.length_pos_of_ne_nil hs, hn.le, fun h ↦ absurd h hx⟩

theorem copies_again {b : Bytes} {i : ℕ} (hw : Window k q) (hq : q[i]? = some b)
    (hn : e.nSent = s.sent.length) (hs : s.sent = k.snd.sent) (hp : s.peerOssMX = k.snd.peerOssMX)
    (hx : content e.bytes = content b) : e.Copies s := by
  obtain ⟨b', hb', hc⟩ := hw.copy hq
  have hlt := (List.getElem?_eq_some_iff.1 hb').1
  have hlen := hw.length_eq
  have hbound := hw.bound
  rw [hs] at hn
  refine ⟨by omega, by rw [hs]; omega, fun _ ↦ ⟨k.snd.acked + i, b', ?_, hx.trans hc.symm, by omega, ?_⟩⟩
  · rw [hs]
    exact hb'
  · rw [hp]
    omega

theorem payloads_tail_concat {l : List Bytes} (h : l ≠ []) (b : Bytes) :
    payloads ((l ++ [b]).tail.map Segment.ofBytes) =
      if hasFlag (getFlags b) FLG_NUL then payloads (l.tail.map Segment.ofBytes)
      else payloads (l.tail.map Segment.ofBytes) ++ [b.drop (getHSize b)] := by
  rw [List.tail_append_of_ne_nil h, List.map_append]
  exact payloads_concat _ _

theorem Sending.frame (h : Sending k) (hs : k'.snd.sent = k.snd.sent)
    (hp : k'.snd.popped = k.snd.popped) (ho : k'.out = k.out)
    (hr : k'.rcv.consumed = k.rcv.consumed)
    (hst : k'.state.early = true → k.state.early = true)
    (hoss : (∀ e ∈ k.out, ¬(Segment.ofBytes e.bytes).Storable) ∨
      k'.snd.peerOssMX = k.snd.peerOssMX) : Sending k' := by
  refine ⟨fun e he ↦ ?_, by rw [ho]; exact h.ordered, by rw [ho, hr]; exact h.consumed, ?_, ?_⟩
  · rw [ho] at he
    have hc := h.copies e he
    rcases hoss with hn | hoss
    · exact ⟨hc.pos, hs ▸ hc.le, fun hs ↦ absurd hs (hn e he)⟩
    · exact hc.grow (l := []) (by rw [hs, List.append_nil]) hoss
  · rw [hs, hp]
    exact h.popped
  · rw [hs, hr]
    exact fun he ↦ h.early (hst he)

/-- Before the handshake, nothing that is emitted carries a payload or a NUL. -/
theorem Sending.early_out (h : Sending k) (he : k.state.early = true) {e : Emission}
    (hm : e ∈ k.out) : ¬(Segment.ofBytes e.bytes).Storable := by
  intro hst
  obtain ⟨i, b, hb, hc, -⟩ := (h.copies e hm).copy hst
  exact (h.early he).2 b (List.mem_of_getElem? hb) ((storable_congr hc).1 hst)

theorem drains_consumed {r r' : Receiver} (h : Drains r r') :
    r.consumed.length ≤ r'.consumed.length := by
  induction h with
  | done r => exact le_rfl
  | @take r r' s _ _ ih =>
    have hl : (r.take s).consumed.length = r.consumed.length + 1 := by
      change (r.consumed ++ [s]).length = _
      rw [List.length_append, List.length_singleton]
    omega

theorem Act.rst_mono (h : Act d k k') (hr : k'.rst = false) : k.rst = false := by
  cases h with
  | rst => contradiction
  | sendRST => contradiction
  | params y a _ _ hp =>
    obtain ⟨ring, prm, -, -, rfl⟩ := params_ok hp
    exact hr
  | state | acked | sendACK | sendDAT | sendNUL | resend | store | drain | acceptSyn
  | sendSynAck => exact hr

theorem Act.sending (h : Act d k k') (hw : Window k q) (hs : Sending k) (hr : k'.rst = false) :
    Sending k' := by
  have hr₀ := h.rst_mono hr
  have live : k.Live → k.snd.sent ≠ [] := by
    rintro (hl | hb)
    · exact absurd (hr₀.symm.trans hl) nofun
    · exact hw.begun hr₀ hb
  cases h with
  | rst => contradiction
  | sendRST => contradiction
  | state s _ he _ =>
    exact hs.frame rfl rfl rfl rfl (fun h ↦ absurd (he.symm.trans h) nofun) (.inr rfl)
  | acked => exact hs.frame rfl rfl rfl rfl id (.inr rfl)
  | sendACK busy hl =>
    have hx := @not_storable_stamp k busy _ (whole_header FLG_ACK (k.snd.lastSeqSent + 1))
      (not_storable_header rfl)
    exact hs.emit (l := []) (List.append_nil _).symm rfl rfl rfl rfl rfl
      (copies_none rfl hx (live hl)) hs.popped hs.early
  | sendDAT busy p ring ha _ _ _ =>
    have hb := whole_set FLG_ACK (k.snd.lastSeqSent + 1) p
    refine hs.emit rfl rfl rfl rfl rfl rfl (copies_new rfl (content_stamp hb) rfl) ?_
      fun h ↦ absurd (ha.1.symm.trans h) nofun
    change k.snd.popped ++ [p] = payloads ((k.snd.sent ++ [_]).tail.map _)
    rw [payloads_tail_concat (live ha.2), hs.popped]
    exact (if_neg (show ¬hasFlag FLG_ACK FLG_NUL = true from Bool.false_ne_true)).symm
  | sendNUL busy ring ha _ _ =>
    have hb := whole_header (FLG_ACK ||| FLG_NUL) (k.snd.lastSeqSent + 1)
    refine hs.emit rfl rfl rfl rfl rfl rfl (copies_new rfl (content_stamp hb) rfl) ?_
      fun h ↦ absurd (ha.1.symm.trans h) nofun
    change k.snd.popped = payloads ((k.snd.sent ++ [_]).tail.map _)
    rw [payloads_tail_concat (live ha.2), hs.popped]
    exact (if_pos (show hasFlag (FLG_ACK ||| FLG_NUL) FLG_NUL = true from rfl)).symm
  | resend busy i b hi hb =>
    have hq := hw.deref hi hb
    have hwb := hw.whole b (List.mem_of_getElem? hq)
    exact hs.emit (l := []) (List.append_nil _).symm rfl rfl rfl rfl rfl
      (copies_again hw hq rfl rfl rfl (content_stamp hwb)) hs.popped hs.early
  | store seg ro _ _ _ _ _ => exact hs.frame rfl rfl rfl rfl id (.inr rfl)
  | drain r ha hd =>
    exact ⟨hs.copies, hs.ordered, fun e he ↦ (hs.consumed e he).trans (drains_consumed hd),
      hs.popped, fun h ↦ absurd (ha.1.symm.trans h) nofun⟩
  | params y a he _ hp =>
    obtain ⟨ring, prm, -, -, rfl⟩ := params_ok hp
    exact hs.frame rfl rfl rfl rfl id (.inl fun e hm ↦ hs.early_out he hm)
  | acceptSyn n he => exact hs.frame rfl rfl rfl (hs.early he).1.symm id (.inr rfl)
  | sendSynAck busy n b id ring hst hb _ =>
    subst hb
    have hwb : Whole (k.synHeader true n id) := whole_synHeader _ _ _
    obtain ⟨-, hnil, -⟩ := hw.listen hst
    refine hs.emit rfl rfl rfl rfl rfl rfl (copies_new rfl (content_stamp hwb) rfl) ?_ nofun
    change k.snd.popped = payloads ((k.snd.sent ++ [_]).tail.map _)
    rw [hs.popped, hnil]
    rfl

theorem sending_close (k : Core) : Sending { k.close with state := .LISTEN } :=
  ⟨nofun, .nil, nofun, rfl, fun _ ↦ ⟨rfl, nofun⟩⟩

theorem not_storable_synHeader {doAck : Bool} {n : SeqNo} {id : UInt32} :
    ¬(Segment.ofBytes (k.synHeader doAck n id)).Storable := by
  rintro (h | h)
  · contradiction
  · change hasFlag (if doAck then FLG_SYN ||| FLG_ACK else FLG_SYN) FLG_NUL = true at h
    cases doAck <;> contradiction

theorem Opens.sending (h : Opens k k') : Sending k' := by
  cases h with
  | listen _ _ => exact sending_close k
  | connect busy n b id ring _ _ hb _ =>
    subst hb
    have hwb : Whole (k.close.synHeader false n id) := whole_synHeader _ _ _
    have hs : Sending k.close := (sending_close k).frame rfl rfl rfl rfl (fun _ ↦ rfl) (.inr rfl)
    refine hs.emit (l := [k.close.synHeader false n id]) rfl rfl rfl rfl rfl rfl ?_ ?_
      fun _ ↦ ⟨rfl, fun b hb ↦ ?_⟩
    · have hc : content ((k.close.seedSeqSent n).stamp busy (k.close.synHeader false n id)) =
        content (k.close.synHeader false n id) := content_stamp hwb
      exact copies_new (l := []) rfl hc rfl
    · rfl
    · obtain rfl := List.mem_singleton.1 hb
      exact not_storable_synHeader

/-- What holds of the core of a peer at any time. -/
structure Sound (k : Core) : Prop where
  window : ∃ q, Window k q
  acking : Acking k
  sending : k.rst = false → Sending k

theorem Act.sound (h : Act d k k') (hk : Sound k) : Sound k' := by
  obtain ⟨q, hw⟩ := hk.window
  exact ⟨h.window hw, h.acking hw hk.acking,
    fun hr ↦ h.sending hw (hk.sending (h.rst_mono hr)) hr⟩

theorem Opens.sound (h : Opens k k') (hk : Sound k) : Sound k' := by
  obtain ⟨q, hw⟩ := hk.window
  exact ⟨h.window hw, h.acking hk.acking, fun _ ↦ h.sending⟩

theorem sound_new (cfg : Config) (j : Junk) : Sound (CRssi.new cfg j).toCore :=
  ⟨⟨[], window_new cfg j⟩, acking_new cfg j, fun _ ↦ ⟨nofun, .nil, nofun, rfl, nofun⟩⟩

theorem Reachable.sound {c : CRssi} (h : Reachable c) : Sound c.toCore :=
  h.core_invariant sound_new (fun _ _ hk ho ↦ ho.sound hk) (fun _ _ _ hk ha ↦ ha.sound hk)

end Cpsw.Rssi
