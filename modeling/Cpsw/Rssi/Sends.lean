import Cpsw.Rssi.Ack

namespace Cpsw.Rssi

open Cpsw.Lib.Run

/-- What waits to be acknowledged will be sent again, unless the peer is busy. -/
def CRssi.Pending (c : CRssi) : Prop :=
  0 < c.snd.unAckedSegs.getSize → c.peerBSY = false → c.timers.isArmed .REX

/-- What goes out are buffers in `O`, stamped with the state of the receiving side, which stays. -/
structure Transmits (O : Bytes → Prop) (c c' : CRssi) : Prop where
  prm : c'.prm = c.prm
  rcv : c'.rcv = c.rcv
  outQ : c'.outQ = c.outQ
  out : ∃ l, c'.out = c.out ++ l ∧
    ∀ e ∈ l, e.rcv = c.rcv ∧ ∃ b, O b ∧ e.bytes = c.toCore.stamp c.outQ.isFull b

/-- Such segments go out, and what comes with them happens to the counters and timers. -/
structure Emits (O : Bytes → Prop) (c c' : CRssi) : Prop extends Transmits O c c' where
  cfg : c'.cfg = c.cfg
  peerBSY : c'.peerBSY = c.peerBSY
  usrIEH : c'.usrIEH = c.usrIEH
  usrOEH : c'.usrOEH = c.usrOEH
  state : c'.state = c.state
  changes : c'.changes = c.changes
  quiet : c'.out = c.out → c'.numCak = c.numCak ∧ ∀ t, (.ACK, t) ∈ c'.timers ↔ (.ACK, t) ∈ c.timers
  loud : c'.out ≠ c.out → c'.numCak = 0 ∧ ¬c'.timers.isArmed .ACK
  nul : c.timers.isArmed .NUL → c'.timers.isArmed .NUL

/-- And what the ring still holds will be sent again. -/
structure Sends (O : Bytes → Prop) (c c' : CRssi) : Prop extends Emits O c c' where
  pending : c.Pending → c'.Pending

variable {O : Bytes → Prop} {c c' c'' : CRssi} {b : Bytes} {now : ℕ}

theorem Emits.refl (c : CRssi) : Emits O c c where
  cfg := rfl
  prm := rfl
  rcv := rfl
  outQ := rfl
  peerBSY := rfl
  usrIEH := rfl
  usrOEH := rfl
  state := rfl
  changes := rfl
  out := ⟨[], (List.append_nil _).symm, nofun⟩
  quiet _ := ⟨rfl, fun _ ↦ Iff.rfl⟩
  loud h := absurd rfl h
  nul := id

theorem Sends.refl (c : CRssi) : Sends O c c := ⟨.refl c, id⟩

theorem stamp_congr {k k' : Core} {busy : Bool} (hr : k'.rcv = k.rcv) (hp : k'.prm = k.prm) :
    k'.stamp busy b = k.stamp busy b := by
  unfold Core.stamp
  rw [hr, hp]

theorem Transmits.trans (h : Transmits O c c') (h' : Transmits O c' c'') : Transmits O c c'' := by
  obtain ⟨l, hl, hmem⟩ := h.out
  obtain ⟨l', hl', hmem'⟩ := h'.out
  refine ⟨h'.prm.trans h.prm, h'.rcv.trans h.rcv, h'.outQ.trans h.outQ, l ++ l',
    by rw [hl', hl, List.append_assoc], fun e he ↦ ?_⟩
  rcases List.mem_append.1 he with he | he
  · exact hmem e he
  · obtain ⟨hr, x, hx, hb⟩ := hmem' e he
    exact ⟨hr.trans h.rcv, x, hx, by rw [hb, h.outQ, stamp_congr h.rcv h.prm]⟩

/-- Nothing goes out. -/
theorem Transmits.none (hprm : c'.prm = c.prm) (hrcv : c'.rcv = c.rcv) (hq : c'.outQ = c.outQ)
    (hout : c'.out = c.out) : Transmits O c c' :=
  ⟨hprm, hrcv, hq, [], by rw [hout, List.append_nil], nofun⟩

theorem Emits.trans (h : Emits O c c') (h' : Emits O c' c'') : Emits O c c'' := by
  obtain ⟨l, hl, -⟩ := h.out
  obtain ⟨l', hl', -⟩ := h'.out
  constructor
  · exact h.toTransmits.trans h'.toTransmits
  · exact h'.cfg.trans h.cfg
  · exact h'.peerBSY.trans h.peerBSY
  · exact h'.usrIEH.trans h.usrIEH
  · exact h'.usrOEH.trans h.usrOEH
  · exact h'.state.trans h.state
  · exact h'.changes.trans h.changes
  · intro hq
    rw [hl', hl, List.append_assoc, List.append_right_eq_self, List.append_eq_nil_iff] at hq
    obtain ⟨hn', ht'⟩ := h'.quiet (by rw [hl', hq.2, List.append_nil])
    obtain ⟨hn, ht⟩ := h.quiet (by rw [hl, hq.1, List.append_nil])
    exact ⟨hn'.trans hn, fun t ↦ (ht' t).trans (ht t)⟩
  · intro hq
    by_cases hq' : c''.out = c'.out
    · obtain ⟨hn', ht'⟩ := h'.quiet hq'
      obtain ⟨hn, ht⟩ := h.loud fun he ↦ hq (hq'.trans he)
      exact ⟨hn'.trans hn, fun ⟨t, hm⟩ ↦ ht ⟨t, (ht' t).1 hm⟩⟩
    · exact h'.loud hq'
  · exact fun hn ↦ h'.nul (h.nul hn)

theorem Sends.trans (h : Sends O c c') (h' : Sends O c' c'') : Sends O c c'' :=
  ⟨h.toEmits.trans h'.toEmits, fun hp ↦ h'.pending (h.pending hp)⟩

/-- A step that touches neither the timers nor anything a segment is made of. -/
theorem Emits.of_core {c₁ : CRssi} (h : Transmits O c c₁) (hout : c₁.out = c.out)
    (hrest : c₁.cfg = c.cfg ∧ c₁.peerBSY = c.peerBSY ∧ c₁.usrIEH = c.usrIEH ∧ c₁.usrOEH = c.usrOEH ∧
      c₁.numCak = c.numCak ∧ c₁.timers = c.timers ∧ c₁.state = c.state ∧ c₁.changes = c.changes) :
    Emits O c c₁ := by
  obtain ⟨hcfg, hb, hi, ho, hn, ht, hs, hch⟩ := hrest
  constructor
  · exact h
  · exact hcfg
  · exact hb
  · exact hi
  · exact ho
  · exact hs
  · exact hch
  · exact fun _ ↦ ⟨hn, fun t ↦ by rw [ht]⟩
  · exact fun h ↦ absurd hout h
  · rw [ht]
    exact id

namespace CRssi

theorem out_ne_append {e : Emission} {l : List Emission} : l ++ [e] ≠ l := by
  intro h
  rw [List.append_right_eq_self] at h
  cases h

theorem sent_sends (hb : O b) : Sends O c (c.sent b) where
  cfg := rfl
  prm := rfl
  rcv := rfl
  outQ := rfl
  peerBSY := rfl
  usrIEH := rfl
  usrOEH := rfl
  state := rfl
  changes := rfl
  out := ⟨[_], rfl, fun e he ↦ by
    obtain rfl := List.mem_singleton.1 he
    exact ⟨rfl, b, hb, rfl⟩⟩
  quiet h := absurd h out_ne_append
  loud _ := ⟨rfl, fun h ↦ (RssiTimerList.isArmed_cancel.1 h).1 rfl⟩
  nul h := RssiTimerList.isArmed_cancel.2 ⟨nofun, h⟩
  pending h hs hp := RssiTimerList.isArmed_cancel.2 ⟨nofun, h hs hp⟩

theorem armTimer_mem_ack {t : RssiTimer} {e exp : ℕ} (ht : t ≠ .ACK) :
    (.ACK, exp) ∈ (c.armTimer t e).timers ↔ (.ACK, exp) ∈ c.timers := by
  unfold armTimer RssiTimerList.armAbs RssiTimerList.cancel
  rw [RssiTimerList.mem_addAfter, List.mem_filter]
  constructor
  · rintro (h | h)
    · exact absurd (Prod.mk.inj h).1.symm ht
    · exact h.1
  · intro h
    exact .inr ⟨h, by simpa using ht.symm⟩

/-- Arming another timer than the one for ACKs. -/
theorem armTimer_sends {t : RssiTimer} {e : ℕ} (ht : t ≠ .ACK) : Sends O c (c.armTimer t e) where
  cfg := rfl
  prm := rfl
  rcv := rfl
  outQ := rfl
  peerBSY := rfl
  usrIEH := rfl
  usrOEH := rfl
  state := rfl
  changes := rfl
  out := ⟨[], (List.append_nil _).symm, nofun⟩
  quiet _ := ⟨rfl, fun _ ↦ armTimer_mem_ack ht⟩
  loud h := absurd rfl h
  nul h := RssiTimerList.isArmed_armAbs.2 (.inr h)
  pending h hs hp := RssiTimerList.isArmed_armAbs.2 (.inr (h hs hp))

theorem armRexAndNulTimer_sends : Sends O c (c.armRexAndNulTimer now) := by
  unfold armRexAndNulTimer
  dsimp only
  have hrex : Sends O c (if c.peerBSY then c else c.armTimer .REX (now + c.prm.rexTO)) := by
    split_ifs
    · exact .refl c
    · exact armTimer_sends nofun
  split_ifs at hrex ⊢ <;> first
    | exact hrex
    | exact hrex.trans (armTimer_sends nofun)

theorem armRexAndNulTimer_rex (h : c.peerBSY = false) :
    (c.armRexAndNulTimer now).timers.isArmed .REX := by
  unfold armRexAndNulTimer
  dsimp only
  have hrex : (c.armTimer .REX (now + c.prm.rexTO)).timers.isArmed .REX :=
    RssiTimerList.isArmed_armAbs.2 (.inl rfl)
  rw [h, if_neg Bool.false_ne_true]
  split_ifs
  · exact hrex
  · exact RssiTimerList.isArmed_armAbs.2 (.inr hrex)

theorem armRexAndNulTimer_nul (h : c.cfg.isServer = false) :
    (c.armRexAndNulTimer now).timers.isArmed .NUL := by
  unfold armRexAndNulTimer
  dsimp only
  have hcfg : (if c.peerBSY then c else c.armTimer .REX (now + c.prm.rexTO)).cfg = c.cfg := by
    split_ifs <;> rfl
  rw [hcfg, h, if_neg Bool.false_ne_true]
  exact RssiTimerList.isArmed_armAbs.2 (.inl rfl)

theorem sendBufAndKeepForRetransmission_sends (hb : O b)
    (h : c.sendBufAndKeepForRetransmission b now = .ok c') : Sends O c c' := by
  obtain ⟨-, ring, -, rfl⟩ := sendBufAndKeepForRetransmission_ok h
  have hrec : Emits O c { c with toCore := c.toCore.record b } :=
    .of_core (.none rfl rfl rfl rfl) rfl ⟨rfl, rfl, rfl, rfl, rfl, rfl, rfl, rfl⟩
  have hsent := hrec.trans (sent_sends hb).toEmits
  have hkeep : Emits O c { c with
      toCore := c.toCore.send c.outQ.isFull b ring, numCak := 0, timers := c.timers.cancel .ACK } := by
    refine hsent.trans ?_
    exact .of_core (.none rfl rfl rfl rfl) rfl ⟨rfl, rfl, rfl, rfl, rfl, rfl, rfl, rfl⟩
  have harm := @armRexAndNulTimer_sends O { c with
    toCore := c.toCore.send c.outQ.isFull b ring, numCak := 0, timers := c.timers.cancel .ACK } now
  refine ⟨hkeep.trans harm.toEmits, fun _ _ hp ↦ ?_⟩
  exact armRexAndNulTimer_rex (harm.peerBSY.symm.trans hp)

theorem bumpSeqSent_sends : Sends O c c.bumpSeqSent :=
  ⟨.of_core (.none rfl rfl rfl rfl) rfl ⟨rfl, rfl, rfl, rfl, rfl, rfl, rfl, rfl⟩, id⟩

theorem sendDAT_sends {u : UsrBuf} (hO : ∀ s, O (RssiHeader.set FLG_ACK s ++ u.payload))
    (h : c.sendDAT u now = .ok c') : Sends O c c' := by
  unfold sendDAT at h
  split_ifs at h
  exact bumpSeqSent_sends.trans (sendBufAndKeepForRetransmission_sends (hO _) h)

theorem sendACK_sends (hO : ∀ s, O (RssiHeader.set FLG_ACK s)) (h : c.sendACK = .ok c') :
    Sends O c c' := by
  rw [sendACK_eq] at h
  obtain rfl := Except.ok.inj h
  exact sent_sends (hO _)

theorem resetting_sends : Sends O c c.resetting :=
  ⟨.of_core (.none rfl rfl rfl rfl) rfl ⟨rfl, rfl, rfl, rfl, rfl, rfl, rfl, rfl⟩, id⟩

theorem sendRST_sends (hO : ∀ s, O (RssiHeader.set (FLG_ACK ||| FLG_RST) s)) (h : c.sendRST = .ok c') :
    Sends O c c' := by
  rw [sendRST_eq] at h
  obtain rfl := Except.ok.inj h
  exact resetting_sends.trans (sent_sends (hO _))

theorem sendNUL_sends {k : Bool} (hO : ∀ s, O (RssiHeader.set FLG_ACK s))
    (hO' : ∀ s, O (RssiHeader.set (FLG_ACK ||| FLG_NUL) s)) (h : c.sendNUL now = .ok (k, c')) :
    Sends O c c' := by
  unfold sendNUL at h
  split_ifs at h
  · obtain ⟨c₁, h₁, h⟩ := bind_ok.1 h
    obtain ⟨-, rfl⟩ := Prod.mk.inj (Except.ok.inj h)
    exact (armTimer_sends (t := .NUL) nofun).trans (sendACK_sends hO h₁)
  · obtain ⟨c₁, h₁, h⟩ := bind_ok.1 h
    obtain ⟨-, rfl⟩ := Prod.mk.inj (Except.ok.inj h)
    exact bumpSeqSent_sends.trans (sendBufAndKeepForRetransmission_sends (hO' _) h₁)

theorem popUsr_sends {u : Option UsrBuf} (h : c.popUsr = (u, c')) : Sends O c c' := by
  cases u with
  | none =>
    obtain rfl := popUsr_none h
    exact .refl c'
  | some u =>
    obtain ⟨q, -, rfl⟩ := popUsr_some h
    exact ⟨.of_core (.none rfl rfl rfl rfl) rfl ⟨rfl, rfl, rfl, rfl, rfl, rfl, rfl, rfl⟩, id⟩

/-- What an entry of the ring is sent as takes its place there. -/
theorem resend_sends {i : ℕ} (hb : O b) : Sends O c { c.sent b with
    toCore := (c.sent b).toCore.restamp i (c.toCore.stamp c.outQ.isFull b) } :=
  (sent_sends hb).trans ⟨.of_core (.none rfl rfl rfl rfl) rfl ⟨rfl, rfl, rfl, rfl, rfl, rfl, rfl, rfl⟩, id⟩

theorem rexLoop_sends {q : List Bytes} {n i : ℕ} (hq : c.snd.unAckedSegs.Holds q)
    (hO : ∀ b ∈ q.drop i, O b) (hn : i + n = q.length) (h : rexLoop n i c = .ok c') : Sends O c c' := by
  induction n generalizing c i q with
  | zero =>
    obtain rfl := Except.ok.inj h
    exact .refl c
  | succ n ih =>
    unfold rexLoop at h
    rw [hq.deref (by omega)] at h
    have hi : i < q.length := by omega
    rw [List.getElem?_eq_getElem hi] at h
    obtain ⟨⟨b', c₁⟩, hs, h⟩ := bind_ok.1 h
    obtain ⟨-, rfl, rfl⟩ := sendBuf_ok hs
    have hdrop := List.drop_eq_getElem_cons hi
    refine (resend_sends (hO _ ?_)).trans (ih (hq.update hi _) (fun b hb ↦ hO b ?_) ?_ h)
    · rw [hdrop]
      exact List.mem_cons_self
    · rw [List.drop_set_of_lt (Nat.lt_succ_self i)] at hb
      rw [hdrop]
      exact List.mem_cons_of_mem _ hb
    · rw [List.length_set]
      omega

/-- Either everything unacknowledged is sent again, or the connection is given up. -/
theorem processRetransmissionTimeout_sends {q : List Bytes} (hq : c.snd.unAckedSegs.Holds q)
    (hO : ∀ b ∈ q, O b) (hO' : ∀ s, O (RssiHeader.set (FLG_ACK ||| FLG_RST) s))
    (h : c.processRetransmissionTimeout now = .ok c') :
    ∃ c₁, Sends O c c₁ ∧ if c.numRex + 1 > c.prm.rexMX then c' = c₁.changeState .CLOSED
      else c' = c₁ ∧ c'.Pending := by
  have hnum : Sends O c { c with numRex := c.numRex + 1 } :=
    ⟨.of_core (.none rfl rfl rfl rfl) rfl ⟨rfl, rfl, rfl, rfl, rfl, rfl, rfl, rfl⟩, id⟩
  unfold processRetransmissionTimeout at h
  dsimp only at h
  split_ifs at h with hmax
  · simp only [if_pos hmax]
    obtain ⟨c₁, h₁, h⟩ := bind_ok.1 h
    exact ⟨c₁, hnum.trans (sendRST_sends hO' h₁), (Except.ok.inj h).symm⟩
  · simp only [if_neg hmax]
    rw [hq.deref (Nat.zero_le _)] at h
    cases hq₀ : q[0]? with
    | none =>
      rw [hq₀] at h
      obtain rfl := Except.ok.inj h
      refine ⟨_, hnum, rfl, fun hs ↦ ?_⟩
      have hlen : q.length ≤ 0 := List.getElem?_eq_none_iff.1 hq₀
      change 0 < c.snd.unAckedSegs.getSize at hs
      rw [hq.getSize_eq] at hs
      omega
    | some b =>
      rw [hq₀] at h
      obtain ⟨c₁, h₁, h⟩ := bind_ok.1 h
      obtain rfl := Except.ok.inj h
      have hl := hnum.trans (rexLoop_sends hq (by rwa [List.drop_zero])
        (by rw [Nat.zero_add]; exact hq.getSize_eq) h₁)
      have ha := @armRexAndNulTimer_sends O c₁ now
      exact ⟨_, hl.trans ha, rfl, fun _ hp ↦ armRexAndNulTimer_rex (ha.peerBSY.symm.trans hp)⟩

theorem sendDatOrAck_sends {s : STATE} (hO : ∀ s p, O (RssiHeader.set FLG_ACK s ++ p))
    (h : c.sendDatOrAck s now = .ok c') : Sends O c c' := by
  unfold sendDatOrAck at h
  split at h
  · rename_i u c₁ hu
    obtain ⟨-, -, hp⟩ := hasBufToSend_some hu
    exact (popUsr_sends hp).trans (sendDAT_sends (fun s ↦ hO s _) h)
  · rename_i c₁ hu
    obtain rfl := hasBufToSend_none hu
    exact sendACK_sends (fun s ↦ hO s []) h

theorem usrInputLoop_sends {k : Bool} {n : ℕ} (hO : ∀ s p, O (RssiHeader.set FLG_ACK s ++ p))
    (h : usrInputLoop now n c = .ok (k, c')) : Sends O c c' := by
  induction n generalizing c with
  | zero =>
    obtain ⟨-, rfl⟩ := Prod.mk.inj (Except.ok.inj h)
    exact .refl c
  | succ n ih =>
    unfold usrInputLoop at h
    split_ifs at h
    · split at h
      · rename_i c₁ hp
        obtain ⟨-, rfl⟩ := Prod.mk.inj (Except.ok.inj h)
        exact popUsr_sends hp
      · rename_i u c₁ hp
        obtain ⟨c₂, h₂, h⟩ := bind_ok.1 h
        exact ((popUsr_sends hp).trans (sendDAT_sends (fun s ↦ hO s _) h₂)).trans (ih h)
    · obtain ⟨-, rfl⟩ := Prod.mk.inj (Except.ok.inj h)
      exact .refl c

theorem sendBufAndKeepForRetransmission_length (h : c.sendBufAndKeepForRetransmission b now = .ok c') :
    c'.out.length = c.out.length + 1 := by
  obtain ⟨-, ring, -, rfl⟩ := sendBufAndKeepForRetransmission_ok h
  rw [toCore_armRexAndNulTimer]
  exact List.length_append

theorem sendACK_length (h : c.sendACK = .ok c') : c'.out.length = c.out.length + 1 := by
  rw [sendACK_eq] at h
  obtain rfl := Except.ok.inj h
  exact List.length_append

theorem sendRST_length (h : c.sendRST = .ok c') : c'.out.length = c.out.length + 1 := by
  rw [sendRST_eq] at h
  obtain rfl := Except.ok.inj h
  exact List.length_append

theorem sendDatOrAck_length {s : STATE} (h : c.sendDatOrAck s now = .ok c') :
    c'.out.length = c.out.length + 1 := by
  unfold sendDatOrAck at h
  split at h
  · rename_i u c₁ hu
    obtain ⟨-, -, hp⟩ := hasBufToSend_some hu
    obtain ⟨q, -, rfl⟩ := popUsr_some hp
    unfold sendDAT at h
    split_ifs at h
    have hlen := sendBufAndKeepForRetransmission_length h
    exact hlen
  · rename_i c₁ hu
    obtain rfl := hasBufToSend_none hu
    exact sendACK_length h

theorem rexLoop_length {q : List Bytes} {n i : ℕ} (hq : c.snd.unAckedSegs.Holds q)
    (hn : i + n = q.length) (h : rexLoop n i c = .ok c') : c'.out.length = c.out.length + n := by
  induction n generalizing c i q with
  | zero =>
    obtain rfl := Except.ok.inj h
    rfl
  | succ n ih =>
    unfold rexLoop at h
    rw [hq.deref (by omega), List.getElem?_eq_getElem (by omega)] at h
    obtain ⟨⟨b', c₁⟩, hs, h⟩ := bind_ok.1 h
    obtain ⟨-, rfl, rfl⟩ := sendBuf_ok hs
    rw [ih (hq.update (by omega) _) (by rw [List.length_set]; omega) h]
    change (c.out ++ [_]).length + n = _
    rw [List.length_append, List.length_singleton]
    omega

/-- With something to send again, at least that or an RST goes out. -/
theorem processRetransmissionTimeout_length {q : List Bytes} (hq : c.snd.unAckedSegs.Holds q)
    (hpos : 0 < q.length) (h : c.processRetransmissionTimeout now = .ok c') :
    c.out.length < c'.out.length := by
  unfold processRetransmissionTimeout at h
  dsimp only at h
  split_ifs at h
  · obtain ⟨c₁, h₁, h⟩ := bind_ok.1 h
    obtain rfl := Except.ok.inj h
    have hlen := sendRST_length h₁
    exact hlen.symm ▸ Nat.lt_succ_self c.out.length
  · rw [hq.deref (Nat.zero_le _), List.getElem?_eq_getElem hpos] at h
    obtain ⟨c₁, h₁, h⟩ := bind_ok.1 h
    obtain rfl := Except.ok.inj h
    rw [hq.getSize_eq] at h₁
    have hlen := @rexLoop_length { c with numRex := c.numRex + 1 } c₁ q _ 0 hq (Nat.zero_add _) h₁
    rw [toCore_armRexAndNulTimer, hlen]
    exact Nat.lt_add_of_pos_right hpos

end CRssi

end Cpsw.Rssi
