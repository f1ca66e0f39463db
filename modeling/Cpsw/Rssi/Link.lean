import Cpsw.Lib.SeqNum
import Cpsw.Rssi.Emit

namespace Cpsw.Rssi

open Cpsw.Lib.Run Cpsw.Lib.SeqNum

/-- One direction of a connection: what `x` has sent, what is on its way to `y` and what comes back
agree with what `y` has consumed and with what waits in its reassembly buffer. -/
structure Link (x : Sender) (y : Receiver) (fwd back : List Emission) : Prop where
  syn : y.irs = some x.isn
  window : x.peerOssMX = y.unOrderedSegs.capa
  acked : x.acked ≤ y.consumed.length + 1
  sent : y.consumed.length < x.sent.length
  consumed : ∀ i s, y.consumed[i]? = some s →
    ∃ b, x.sent[i + 1]? = some b ∧ s.content = content b
  waiting : ∀ off < y.unOrderedSegs.capa, ∀ s, y.unOrderedSegs.slot off = some s →
    ∃ b, x.sent[y.consumed.length + 1 + off]? = some b ∧ s.content = content b
  later : ∀ e ∈ fwd, y.consumed.length < e.nSent ∧
    ∀ off < y.unOrderedSegs.capa, ∀ s, y.unOrderedSegs.slot off = some s →
      y.consumed.length + 1 + off < e.nSent
  acks : ∀ e ∈ back, hasFlag (Segment.ofBytes e.bytes).flags FLG_ACK = true →
    e.rcv.irs = some x.isn ∧ x.acked ≤ e.rcv.consumed.length + 1

variable {x x' : Sender} {y y' : Receiver} {k k' : Core} {q : List Bytes} {d : Option Segment}
variable {fwd back l : List Emission} {e : Emission}

theorem toNat_ofNat_sub (a b : ℕ) : (UInt8.ofNat a - UInt8.ofNat b).toNat = ahead 256 a b := by
  rw [UInt8.toNat_sub, UInt8.toNat_ofNat', UInt8.toNat_ofNat']
  unfold ahead
  omega

theorem Link.sublist {fwd' back' : List Emission} (h : Link x y fwd back)
    (hf : fwd'.Sublist fwd) (hb : back'.Sublist back) : Link x y fwd' back' :=
  { h with
    later := fun e he ↦ h.later e (hf.subset he)
    acks := fun e he ↦ h.acks e (hb.subset he) }

/-- The receiver emits something, and stays as it is. -/
theorem Link.reply (h : Link x y fwd back) (hl : ∀ e ∈ l, e.rcv = y) :
    Link x y fwd (back ++ l) := by
  refine { h with acks := fun e he hf ↦ ?_ }
  rcases List.mem_append.1 he with he | he
  · exact h.acks e he hf
  · rw [hl e he]
    exact ⟨h.syn, h.acked⟩

/-- The sender emits something, with or without new segments in it. -/
theorem Link.grow {m : List Bytes} (h : Link x y fwd back) (hs : x'.sent = x.sent ++ m)
    (hp : x'.peerOssMX = x.peerOssMX) (ha : x'.acked = x.acked)
    (hl : ∀ e ∈ l, e.nSent = x'.sent.length) : Link x' y (fwd ++ l) back := by
  have hne : x.sent ≠ [] := List.ne_nil_of_length_pos (Nat.zero_lt_of_lt h.sent)
  have hisn : x'.isn = x.isn := by
    unfold Sender.isn
    rw [hs, List.headD_eq_head?_getD, List.headD_eq_head?_getD, List.head?_append_of_ne_nil _ hne]
  have hle : x.sent.length ≤ x'.sent.length := by
    rw [hs, List.length_append]
    omega
  have hget : ∀ {i : ℕ} {b : Bytes}, x.sent[i]? = some b → x'.sent[i]? = some b := by
    intro i b hb
    rw [hs, List.getElem?_append_left (List.getElem?_eq_some_iff.1 hb).1]
    exact hb
  refine ⟨hisn ▸ h.syn, hp.trans h.window, ha ▸ h.acked, h.sent.trans_le hle, fun i s hi ↦ ?_,
    fun off ho s hs ↦ ?_, fun e he ↦ ?_, fun e he hf ↦ ?_⟩
  · obtain ⟨b, hb, hc⟩ := h.consumed i s hi
    exact ⟨b, hget hb, hc⟩
  · obtain ⟨b, hb, hc⟩ := h.waiting off ho s hs
    exact ⟨b, hget hb, hc⟩
  · rcases List.mem_append.1 he with he | he
    · exact h.later e he
    · rw [hl e he]
      refine ⟨h.sent.trans_le hle, fun off ho s hs ↦ ?_⟩
      obtain ⟨b, hb, -⟩ := h.waiting off ho s hs
      exact (List.getElem?_eq_some_iff.1 hb).1.trans_le hle
  · rw [hisn, ha]
    exact h.acks e he hf

theorem Link.take {s : Segment} (h : Link x y fwd back) (hok : y.unOrderedSegs.Ok)
    (hs : y.unOrderedSegs.peek = some s) : Link x (y.take s) fwd back := by
  have hs₀ : y.unOrderedSegs.slot 0 = some s := hok.wf.peek_eq.symm.trans hs
  have hpos := hok.wf.capa_pos
  obtain ⟨u, hu, -, hcapa, -, hslot⟩ := hok.pop_some hs₀
  have hpop : (y.take s).unOrderedSegs = u := by
    change y.unOrderedSegs.pop.2 = u
    rw [hu]
  have hlen : (y.take s).consumed.length = y.consumed.length + 1 := by
    change (y.consumed ++ [s]).length = _
    rw [List.length_append, List.length_singleton]
  obtain ⟨b₀, hb₀, hc₀⟩ := h.waiting 0 hpos s hs₀
  -- the slots move one place down, and the count of what is consumed moves one up
  have hnext : ∀ off < (y.take s).unOrderedSegs.capa, ∀ t,
      (y.take s).unOrderedSegs.slot off = some t →
        off + 1 < y.unOrderedSegs.capa ∧ y.unOrderedSegs.slot (off + 1) = some t := by
    intro off ho t ht
    rw [hpop, hcapa] at ho
    rw [hpop, hslot off ho] at ht
    split_ifs at ht with hl
    exact ⟨by omega, ht⟩
  refine ⟨h.syn, ?_, ?_, ?_, fun i t hi ↦ ?_, fun off ho t ht ↦ ?_, fun e he ↦ ⟨?_, fun off ho t ht ↦ ?_⟩,
    h.acks⟩
  · rw [hpop, hcapa]
    exact h.window
  · have := h.acked
    omega
  · have := (List.getElem?_eq_some_iff.1 hb₀).1
    omega
  · change (y.consumed ++ [s])[i]? = some t at hi
    rcases Nat.lt_trichotomy i y.consumed.length with hlt | rfl | hgt
    · rw [List.getElem?_append_left hlt] at hi
      exact h.consumed i t hi
    · rw [List.getElem?_concat_length] at hi
      obtain rfl := Option.some.inj hi
      exact ⟨b₀, hb₀, hc₀⟩
    · rw [List.getElem?_eq_none (by simp; omega)] at hi
      cases hi
  · obtain ⟨ho', ht'⟩ := hnext off ho t ht
    obtain ⟨b, hb, hc⟩ := h.waiting (off + 1) ho' t ht'
    refine ⟨b, ?_, hc⟩
    rw [hlen, Nat.add_right_comm]
    exact hb
  · have := (h.later e he).2 0 hpos s hs₀
    omega
  · obtain ⟨ho', ht'⟩ := hnext off ho t ht
    have := (h.later e he).2 (off + 1) ho' t ht'
    omega

theorem Link.drains (h : Link x y fwd back) (hok : y.unOrderedSegs.Ok) (hd : Drains y y') :
    Link x y' fwd back := by
  induction hd with
  | done y => exact ⟨h.syn, h.window, h.acked, h.sent, h.consumed, h.waiting, h.later, h.acks⟩
  | @take y y' s hs _ ih =>
    obtain ⟨u, hu, hoku, -⟩ := hok.pop_some (hok.wf.peek_eq.symm.trans hs)
    refine ih (h.take hok hs) ?_
    change y.unOrderedSegs.pop.2.Ok
    rw [hu]
    exact hoku

/-- What the reassembly buffer accepts is one of the segments sent after the consumed ones: no copy
of an older one can be taken for it, although the numbers wrap. -/
theorem Link.offset (h : Link k.snd y fwd back) (hw : Window k q) (hr : k.rst = false)
    (hy : y.Acks k.snd.isn) (he : e ∈ fwd) (hc : e.Copies k.snd)
    (hst : (Segment.ofBytes e.bytes).Storable)
    (hacc : y.unOrderedSegs.canAccept (Segment.ofBytes e.bytes).seqNo = true) :
    ∃ b, k.snd.sent[y.consumed.length + 1 + y.unOrderedSegs.off (Segment.ofBytes e.bytes).seqNo]? =
        some b ∧ (Segment.ofBytes e.bytes).content = content b ∧
      y.consumed.length + 1 + y.unOrderedSegs.off (Segment.ofBytes e.bytes).seqNo < e.nSent := by
  obtain ⟨i, b, hb, hcont, hi, hW⟩ := hc.copy hst
  have hcapa := hy.ok.capa_le
  have hpos := hy.ok.wf.capa_pos
  have hwin := h.window
  have hlen := hw.length_eq
  have hbound := hw.bound
  have hacked := h.acked
  have hlt := (List.getElem?_eq_some_iff.1 hb).1
  have hlater := (h.later e he).1
  have hseq : (Segment.ofBytes e.bytes).seqNo = k.snd.isn + UInt8.ofNat i :=
    (congrArg Segment.seqNo hcont).trans (hw.numbered hr i b hb)
  have hoff : y.unOrderedSegs.off (Segment.ofBytes e.bytes).seqNo =
      ahead 256 i (y.consumed.length + 1) := by
    rw [← toNat_ofNat_sub, ReassembleBuf.off, hseq, hy.oldest, UInt8.ofNat_add]
    congr 1
    change _ = _ - (_ + 1)
    grind
  have hin : ahead 256 i (y.consumed.length + 1) < y.unOrderedSegs.capa := by
    rw [← hoff, ← hy.ok.lim]
    simpa [ReassembleBuf.canAccept] using hacc
  obtain ⟨h₁, h₂⟩ := (ahead_lt_iff (by omega) (by omega) (by omega) (by omega)).1 hin
  rw [hoff, ahead_of_le h₁ (by omega), Nat.add_sub_cancel' h₁]
  exact ⟨b, hb, hcont, hi⟩

theorem Link.store {ro : ReassembleBuf Segment} (h : Link k.snd y fwd back) (hw : Window k q)
    (hr : k.rst = false) (hy : y.Acks k.snd.isn) (he : e ∈ fwd) (hc : e.Copies k.snd)
    (hle : ∀ e' ∈ fwd, e.nSent ≤ e'.nSent) (hst : (Segment.ofBytes e.bytes).Storable)
    (hacc : y.unOrderedSegs.canAccept (Segment.ofBytes e.bytes).seqNo = true)
    (hs : y.unOrderedSegs.store (Segment.ofBytes e.bytes).seqNo (Segment.ofBytes e.bytes) = .ok ro) :
    Link k.snd { y with unOrderedSegs := ro } fwd back := by
  obtain ⟨b, hb, hcont, hlt⟩ := h.offset hw hr hy he hc hst hacc
  obtain ⟨ro', hs', -, -, hcapa, -, hslot⟩ := hy.ok.store hacc (Segment.ofBytes e.bytes)
  obtain rfl : ro' = ro := Except.ok.inj (hs'.symm.trans hs)
  refine ⟨h.syn, h.window.trans hcapa.symm, h.acked, h.sent, h.consumed, fun off ho s hs ↦ ?_,
    fun e' he' ↦ ⟨(h.later e' he').1, fun off ho s hs ↦ ?_⟩, h.acks⟩
  · dsimp only at ho hs ⊢
    rw [hcapa] at ho
    rw [hslot off ho] at hs
    split_ifs at hs with heq
    · obtain rfl := Option.some.inj hs
      subst heq
      exact ⟨b, hb, hcont⟩
    · exact h.waiting off ho s hs
  · dsimp only at ho hs ⊢
    rw [hcapa] at ho
    rw [hslot off ho] at hs
    split_ifs at hs with heq
    · subst heq
      exact hlt.trans_le (hle e' he')
    · exact (h.later e' he').2 off ho s hs

/-- An acknowledgement that comes back covers what had been consumed when it was sent. -/
theorem Link.acknowledge (h : Link k.snd y fwd back) (hw : Window k q) (hr : k.rst = false)
    (hok : y.unOrderedSegs.Ok) (he : e ∈ back) (hh : Honest e) (hcons : e.rcv.consumed.length ≤ y.consumed.length)
    (hle : ∀ e' ∈ back, e.rcv.consumed.length ≤ e'.rcv.consumed.length)
    (hf : hasFlag (Segment.ofBytes e.bytes).flags FLG_ACK = true) :
    Link (k.acknowledge (Segment.ofBytes e.bytes).ackNo).snd y fwd back := by
  obtain ⟨hirs, hacked⟩ := h.acks e he hf
  obtain ⟨hn, hack⟩ := hh _ hirs
  have hsent := h.sent
  have hlen := hw.length_eq
  have hbound := hw.bound
  have hwin := h.window
  have hold := hw.oldest hr (List.ne_nil_of_length_pos (Nat.zero_lt_of_lt hsent))
  have hcapa := hok.capa_le
  have hcum : k.snd.unAckedSegs.cumAck (Segment.ofBytes e.bytes).ackNo =
      ahead 256 (e.rcv.consumed.length + 1) k.snd.acked := by
    have hlast := hn.last
    rw [hn.oldest] at hlast
    rw [← toNat_ofNat_sub, RingBuf.cumAck, hack, hold, UInt8.ofNat_add]
    congr 1
    change _ = _ + 1 - _
    grind
  obtain ⟨n, hnq, -, hacked', hcum'⟩ := hw.acknowledge (Segment.ofBytes e.bytes).ackNo
  have hnew : (k.acknowledge (Segment.ofBytes e.bytes).ackNo).snd.acked ≤
      e.rcv.consumed.length + 1 := by
    have hcum := hcum.trans (ahead_of_le hacked (by omega))
    have hn := hcum' (by omega)
    omega
  refine ⟨h.syn, h.window, by omega, h.sent, h.consumed, h.waiting, h.later, fun e' he' hf' ↦ ?_⟩
  have := hle e' he'
  exact ⟨(h.acks e' he' hf').1, by omega⟩

end Cpsw.Rssi
