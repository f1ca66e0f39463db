import Cpsw.Rssi.Checksum
import Cpsw.Rssi.Open

namespace Cpsw.Rssi

open Cpsw.Lib.Run

/-- A buffer whose header has just been built. -/
def Fresh (b : Bytes) : Prop :=
  ∃ flags s p, b = RssiHeader.set flags s ++ p ∧ hasFlag flags FLG_BSY = false

/-- The buffers that `sendBuf` is given: new ones, and those of the ring, to be sent again. -/
def Sender.Handed (s : Sender) (b : Bytes) : Prop :=
  Fresh b ∨ ∃ i < s.unAckedSegs.getSize, s.unAckedSegs.deref (s.unAckedSegs.iter i) = some b

theorem handed_of_mem {s : Sender} {q : List Bytes} {b : Bytes} (hq : s.unAckedSegs.Holds q)
    (hb : b ∈ q) : s.Handed b := by
  obtain ⟨i, hi⟩ := List.mem_iff_getElem?.1 hb
  have hlt := (List.getElem?_eq_some_iff.1 hi).1
  exact .inr ⟨i, hq.getSize_eq.symm ▸ hlt, (hq.deref hlt.le).trans hi⟩

theorem fresh_ack (s : SeqNo) (p : Bytes) : Fresh (RssiHeader.set FLG_ACK s ++ p) :=
  ⟨_, s, p, rfl, rfl⟩

theorem fresh_header {flags : UInt8} (s : SeqNo) (h : hasFlag flags FLG_BSY = false) :
    Fresh (RssiHeader.set flags s) := ⟨flags, s, [], (List.append_nil _).symm, h⟩

variable {O : Bytes → Prop} {c c' : CRssi} {now : ℕ} {s : STATE} {seg : Segment}

namespace CRssi

theorem rxReply_transmits (hO : ∀ b, Fresh b → O b) (h : c.rxReply s now = .ok c') :
    Transmits O c c' := by
  unfold rxReply at h
  obtain ⟨c₁, h₁, h⟩ := bind_ok.1 h
  obtain rfl := Except.ok.inj h
  have hack : Transmits O c c₁ := by
    unfold rxAck at h₁
    split_ifs at h₁
    · have hs := (sendDatOrAck_sends (fun s p ↦ hO _ (fresh_ack s p)) h₁).toTransmits
      exact ⟨hs.prm, hs.rcv, hs.outQ, hs.out⟩
    · obtain rfl := Except.ok.inj h₁
      exact .none rfl rfl rfl rfl
    · obtain rfl := Except.ok.inj h₁
      exact .none rfl rfl rfl rfl
  split_ifs
  · exact hack.trans (.none rfl rfl rfl rfl)
  · exact hack

theorem processRetransmissionTimeout_transmits {q : List Bytes} (hq : c.snd.unAckedSegs.Holds q)
    (hO : ∀ b, Fresh b → O b) (hO' : ∀ b ∈ q, O b) (h : c.processRetransmissionTimeout now = .ok c') :
    Transmits O c c' := by
  obtain ⟨c₁, hs, hc⟩ := processRetransmissionTimeout_sends hq hO' (fun s ↦ hO _ (fresh_header s rfl)) h
  split_ifs at hc
  · rw [hc]
    exact hs.toTransmits.trans (.none rfl rfl rfl rfl)
  · rw [hc.1]
    exact hs.toTransmits

theorem rxBusy_transmits {q : List Bytes} (hq : c.snd.unAckedSegs.Holds q)
    (hO : ∀ b, Fresh b → O b) (hO' : ∀ b ∈ q, O b) (h : c.rxBusy s seg now = .ok c') :
    Transmits O c c' := by
  have hnote : Transmits O c (c.noteBusy seg) := by
    unfold noteBusy
    split_ifs <;> exact .none rfl rfl rfl rfl
  rw [rxBusy_eq] at h
  rw [← @toCore_noteBusy c seg] at hq
  split_ifs at h
  · exact hnote.trans (processRetransmissionTimeout_transmits hq hO hO' h)
  · exact hnote.trans (rxReply_transmits hO h)

end CRssi

/-- First the receiving side and its queue may change, and then segments go out. -/
def Speaks (c c' : CRssi) : Prop := ∃ c₁, c₁.out = c.out ∧ c₁.prm = c.prm ∧ Transmits c.snd.Handed c₁ c'

theorem Transmits.speaks (h : Transmits c.snd.Handed c c') : Speaks c c' := ⟨c, rfl, rfl, h⟩

theorem Speaks.trans {c'' : CRssi} (h : Speaks c c') (h' : Transmits c.snd.Handed c' c'') :
    Speaks c c'' := by
  obtain ⟨c₁, ho, hp, h⟩ := h
  exact ⟨c₁, ho, hp, h.trans h'⟩

namespace CRssi

theorem handed_ack (k : Sender) (s : SeqNo) (p : Bytes) : k.Handed (RssiHeader.set FLG_ACK s ++ p) :=
  .inl (fresh_ack s p)

theorem rxBase_speaks {q : List Bytes} {bc : RxBuf} {clk : Clock} (hq : c.snd.unAckedSegs.Holds q)
    (ho : s.isOpen = true) (h : c.rxBase s bc clk = .ok c') : Speaks c c' := by
  rcases rxBase_late (STATE.early_of_isOpen ho) h with ⟨rfl, -⟩ | ⟨seg, c₁, -, hadm, ha⟩
  · exact (Transmits.none rfl rfl rfl rfl).speaks
  · have hcore : c₁.snd = c.snd ∧ c₁.out = c.out ∧ c₁.prm = c.prm := by
      cases hadm <;> exact ⟨rfl, rfl, rfl⟩
    obtain ⟨hsnd, hout, hprm⟩ := hcore
    rw [← hsnd] at hq
    obtain ⟨n, hn⟩ := processAckNumber_holds hq seg.flags seg.ackNo
    obtain ⟨c₃, h₃, hb⟩ := bind_ok.1 ha
    have hack : (c₁.processAckNumber seg.flags seg.ackNo).out = c₁.out ∧
        (c₁.processAckNumber seg.flags seg.ackNo).prm = c₁.prm := by
      rw [toCore_processAckNumber]
      split_ifs <;> exact ⟨rfl, rfl⟩
    obtain ⟨r, oq, e, hc₃⟩ := rxStore_eq h₃
    have hsnd₃ : c₃.snd = (c₁.processAckNumber seg.flags seg.ackNo).snd := by rw [hc₃]
    rw [← hsnd₃] at hn
    refine ⟨c₃, ?_, ?_, rxBusy_transmits hn (fun b ↦ .inl) (fun b hb ↦ ?_) hb⟩
    · rw [hc₃]
      exact hack.1.trans hout
    · rw [hc₃]
      exact hack.2.trans hprm
    rw [hsnd] at hq
    exact handed_of_mem hq (List.mem_of_mem_drop hb)

theorem handleRxEvent_speaks {q : List Bytes} {bc : RxBuf} {clk : Clock}
    (hq : c.snd.unAckedSegs.Holds q) (ho : c.state.isOpen = true)
    (h : c.handleRxEvent bc clk = .ok c') : Speaks c c' := by
  obtain ⟨-, c₁, h₁, hend⟩ := handleRxEvent_ok h
  have hb := rxBase_speaks hq ho h₁
  rcases hend with rfl | ⟨hs, -, -⟩ | ⟨-, -, rfl⟩
  · exact hb
  · rw [hs] at ho
    contradiction
  · exact hb.trans (.none rfl rfl rfl rfl)

theorem handleUsrInputEvent_speaks {clk : Clock} (h : c.handleUsrInputEvent clk = .ok c') :
    Speaks c c' := by
  obtain ⟨-, n, full, c₁, h₁, rfl⟩ := handleUsrInputEvent_ok h
  have hs := (usrInputLoop_sends (handed_ack c.snd) h₁).toTransmits.speaks
  split_ifs
  · exact hs.trans (.none rfl rfl rfl rfl)
  · exact hs

theorem handleUsrOutputEvent_speaks (h : c.handleUsrOutputEvent = .ok c') : Speaks c c' := by
  obtain ⟨-, c₁, h₁, h⟩ := handleUsrOutputEvent_ok h
  have hc₁ : c₁.out = c.out ∧ c₁.prm = c.prm := by
    rcases drainReassembleBuffer_ok h₁ with ⟨-, rfl⟩ | ⟨-, q, e, r, -, rfl⟩ <;> exact ⟨rfl, rfl⟩
  rcases h with rfl | h
  · exact ⟨c', hc₁.1, hc₁.2, .none rfl rfl rfl rfl⟩
  · exact ⟨c₁, hc₁.1, hc₁.2, (sendACK_sends (fun s ↦ handed_ack c.snd s []) h).toTransmits⟩

theorem processNulTimeout_speaks (h : c.processNulTimeout now = .ok c') : Speaks c c' := by
  obtain ⟨-, ⟨c₁, h₁, rfl⟩ | ⟨-, sent, c₁, h₁, rfl⟩⟩ := processNulTimeout_ok h
  · have hs := sendRST_sends (O := c.snd.Handed) (fun s ↦ .inl (fresh_header s rfl)) h₁
    exact hs.toTransmits.speaks.trans (.none rfl rfl rfl rfl)
  · have hs := sendNUL_sends (O := c.snd.Handed) (fun s ↦ handed_ack c.snd s [])
      (fun s ↦ .inl (fresh_header s rfl)) h₁
    split_ifs
    · exact hs.toTransmits.speaks
    · exact hs.toTransmits.speaks.trans (.none rfl rfl rfl rfl)

theorem processTimer_speaks {q : List Bytes} {t : RssiTimer} (hq : c.snd.unAckedSegs.Holds q)
    (h : c.processTimer now t = .ok c') : Speaks c c' := by
  cases t with
  | REX =>
    obtain ⟨-, h⟩ := processRexTimeout_ok h
    exact (processRetransmissionTimeout_transmits hq (fun b ↦ .inl) (fun b hb ↦ handed_of_mem hq hb)
      h).speaks
  | ACK =>
    obtain ⟨-, h⟩ := processAckTimeout_ok h
    exact (sendDatOrAck_sends (handed_ack c.snd) h).toTransmits.speaks
  | NUL => exact processNulTimeout_speaks h

/-- Whatever an open connection does sends new buffers and buffers of its ring, all of them with
the state that the receiving side and its queue have at the end. -/
theorem handle_speaks {q : List Bytes} {ev : Event} (hq : c.snd.unAckedSegs.Holds q)
    (ho : c.state.isOpen = true) (h : c.handle ev = .ok c') : Speaks c c' := by
  unfold handle dispatch at h
  cases ev with
  | advance clk =>
    change c.clearChanges.advance clk = .ok c' at h
    unfold advance at h
    split at h
    · rename_i hs
      rw [show c.state = .CLOSED from hs] at ho
      contradiction
    · rename_i hs
      rw [show c.state = .PREP_OPEN from hs] at ho
      contradiction
    · obtain rfl := Except.ok.inj h
      exact ⟨c, rfl, rfl, .none rfl rfl rfl rfl⟩
  | rx bc clk =>
    replace h := wait_bind_ok h
    exact @handleRxEvent_speaks c.clearChanges _ _ _ _ hq ho h
  | usrInput clk =>
    replace h := wait_bind_ok h
    exact @handleUsrInputEvent_speaks c.clearChanges _ _ h
  | usrOutput =>
    replace h := wait_bind_ok h
    exact @handleUsrOutputEvent_speaks c.clearChanges _ h
  | expiry clk =>
    replace h := wait_bind_ok h
    split at h
    · obtain rfl := Except.ok.inj h
      exact ⟨c, rfl, rfl, .none rfl rfl rfl rfl⟩
    · exact @processTimer_speaks (cancelTimer _ c.clearChanges) _ _ _ _ hq h
  | push b =>
    obtain rfl := Except.ok.inj h
    exact ⟨c, rfl, rfl, .none rfl rfl rfl rfl⟩
  | pop =>
    obtain rfl := Except.ok.inj h
    exact ⟨{ c with outQ := c.outQ.tryPop.2 }, rfl, rfl, .none rfl rfl rfl rfl⟩

end CRssi

/-- Headers of even length: the fixed one, and the one of a SYN. -/
def EvenHeaders (k : Core) : Prop := ∀ b ∈ k.snd.sent, getHSize b % 2 = 0

theorem getHSize_synHeader {k : Core} {doAck : Bool} {n : SeqNo} {id : UInt32} :
    getHSize (k.synHeader doAck n id) = 24 := rfl

theorem EvenHeaders.concat {k k' : Core} {b : Bytes} (h : EvenHeaders k)
    (hs : k'.snd.sent = k.snd.sent ++ [b]) (hb : getHSize b % 2 = 0) : EvenHeaders k' := by
  intro x hx
  rw [hs] at hx
  rcases List.mem_append.1 hx with hx | hx
  · exact h x hx
  · obtain rfl := List.mem_singleton.1 hx
    exact hb

theorem Act.evenHeaders {d : Option Segment} {k k' : Core} (h : Act d k k') (hk : EvenHeaders k) :
    EvenHeaders k' := by
  cases h with
  | sendDAT _ p => exact hk.concat rfl (by rw [getHSize_set])
  | sendNUL => exact hk.concat rfl (by rw [← List.append_nil (RssiHeader.set _ _), getHSize_set])
  | sendSynAck busy n b id ring _ hb =>
    subst hb
    exact hk.concat rfl (by rw [getHSize_synHeader])
  | params y a _ _ hp =>
    obtain ⟨ring, prm, -, -, rfl⟩ := params_ok hp
    exact hk
  | state | rst | acked | sendACK | sendRST | resend | store | drain | acceptSyn => exact hk

theorem Opens.evenHeaders {k k' : Core} (h : Opens k k') : EvenHeaders k' := by
  cases h with
  | listen => exact nofun
  | connect busy n b id ring _ _ hb =>
    subst hb
    have hnil : EvenHeaders k.close := nofun
    exact hnil.concat rfl (by rw [getHSize_synHeader])

theorem Reachable.evenHeaders (h : Reachable c) : EvenHeaders c.toCore :=
  h.core_invariant (fun _ _ ↦ nofun) (fun _ _ _ ho ↦ ho.evenHeaders) (fun _ _ _ hk ha ↦ ha.evenHeaders hk)

/-- Every buffer that `sendBuf` is given holds a header of even length. -/
theorem Sender.Handed.sendable {b : Bytes} (hr : Reachable c) (h : c.snd.Handed b) :
    Whole b ∧ getHSize b % 2 = 0 := by
  rcases h with ⟨flags, s, p, rfl, -⟩ | ⟨i, hi, hb⟩
  · exact ⟨whole_set flags s p, by rw [getHSize_set]⟩
  · obtain ⟨q, hw⟩ := hr.window
    have hq := hw.deref hi hb
    obtain ⟨b', hb', hc⟩ := hw.copy hq
    have hsize : getHSize b' = getHSize b := congrArg (fun s ↦ s.hSize.toNat) hc
    refine ⟨hw.whole b (List.mem_of_getElem? hq), ?_⟩
    rw [← hsize]
    exact hr.evenHeaders b' (List.mem_of_getElem? hb')

theorem hasFlag_stamp {k : Core} {busy : Bool} {b : Bytes} (hw : Whole b) :
    hasFlag (getFlags (k.stamp busy b)) FLG_BSY = (busy || hasFlag (getFlags b) FLG_BSY) := by
  have hf : getFlags (k.stamp busy b) = if busy then getFlags b ||| FLG_BSY else getFlags b :=
    congrArg Segment.flags (ofBytes_stamp hw)
  rw [hf]
  cases busy with
  | false => rfl
  | true =>
    have hor : (getFlags b ||| FLG_BSY) &&& FLG_BSY = FLG_BSY := by
      rw [← UInt8.toBitVec_inj, UInt8.toBitVec_and, UInt8.toBitVec_or]
      ext i
      rw [BitVec.getElem_and, BitVec.getElem_or]
      cases FLG_BSY.toBitVec[i] <;> simp
    change ((getFlags b ||| FLG_BSY) &&& FLG_BSY != 0) = true
    rw [hor]
    rfl

theorem chkOk_stamp {k : Core} {busy : Bool} {b : Bytes} (hw : Whole b) (he : getHSize b % 2 = 0)
    (hc : k.prm.addChecksum = true) (beyond : ℕ → UInt8) :
    (RssiHeader.read true).val ⟨k.stamp busy b, beyond⟩ = .ok true := by
  have hmin := hw.min
  unfold Core.stamp
  dsimp only
  rw [if_pos hc]
  have h₁ : SameBut b (if busy then setFlags b (getFlags b ||| FLG_BSY) else b) := by
    split_ifs
    · exact sameBut_set b _ (by omega) (by omega) (by omega)
    · exact .refl b
  generalize (if busy then setFlags b (getFlags b ||| FLG_BSY) else b) = b₁ at h₁ ⊢
  have h₂ : SameBut b (setAckNo b₁ k.rcv.lastSeqRecv) :=
    h₁.trans (sameBut_set b₁ _ (by omega) (by omega) (by rw [h₁.getHSize_eq]; omega))
  exact chkOk_writeChksum (h₂.whole hw) (by rw [h₂.getHSize_eq, he]) beyond

/-- The header of a segment says how things stand with the peer that sends it. -/
structure Emission.Truthful (e : Emission) (c : CRssi) : Prop where
  busy : hasFlag (getFlags e.bytes) FLG_BSY = c.outQ.isFull
  ackNo : (Segment.ofBytes e.bytes).ackNo = c.rcv.lastSeqRecv
  checksum : c.prm.addChecksum = true → ∀ beyond, (RssiHeader.read true).val ⟨e.bytes, beyond⟩ = .ok true

/-- A segment is truthful unless its buffer still carries the BSY of an earlier transmission and
the output queue is no longer full. -/
theorem busy_unless_stale {ev : Event} {e : Emission} (hr : Reachable c) (ho : c.state.isOpen = true)
    (h : c.handle ev = .ok c') (he : e ∈ c'.out.drop c.out.length) : e.rcv = c'.rcv ∧
      ∃ b, c.snd.Handed b ∧ e.bytes = c'.toCore.stamp c'.outQ.isFull b ∧
        (e.Truthful c' ↔ ¬(hasFlag (getFlags b) FLG_BSY = true ∧ c'.outQ.isFull = false)) := by
  obtain ⟨q, hw⟩ := hr.window
  obtain ⟨c₁, hout, -, ht⟩ := CRssi.handle_speaks hw.holds ho h
  obtain ⟨l, hl, hmem⟩ := ht.out
  rw [hl, hout, List.drop_left] at he
  obtain ⟨hrcv, b, hb, hbytes⟩ := hmem e he
  obtain ⟨hwhole, heven⟩ := hb.sendable hr
  have hstamp : e.bytes = c'.toCore.stamp c'.outQ.isFull b := by
    rw [hbytes, ← ht.outQ, stamp_congr ht.rcv ht.prm]
  refine ⟨hrcv.trans ht.rcv.symm, b, hb, hstamp, ?_⟩
  have hbusy := @hasFlag_stamp c'.toCore c'.outQ.isFull b hwhole
  rw [← hstamp] at hbusy
  constructor
  · rintro ⟨htrue, -, -⟩ ⟨hflag, hfull⟩
    rw [hbusy, hflag, hfull] at htrue
    contradiction
  · intro hn
    refine ⟨?_, ?_, fun hc beyond ↦ ?_⟩
    · rw [hbusy]
      cases hfull : c'.outQ.isFull with
      | true => rfl
      | false => exact Bool.eq_false_of_not_eq_true fun hf ↦ hn ⟨hf, hfull⟩
    · rw [hstamp, ofBytes_stamp hwhole]
    · rw [hstamp]
      exact chkOk_stamp hwhole heven hc beyond

/-- An output queue that one payload fills. -/
def shallowConfig : Config where
  isServer := true
  defaults := { ldMaxUnackedSegs := 1, outQueueDepth := 1 }
  getRxMTU := none
  valid := rfl

/-- A segment goes out while the queue is full, and is lost; the user then empties the queue. -/
def staleRun : List Event :=
  serverOpens ++ [.rx (datagram [64, 8, 8, 248, 0, 0, 0, 0, 42]) ⟨4, 7⟩, .push ⟨8, [1]⟩,
    .usrInput ⟨5, 7⟩, .pop]

theorem stale_busy : ∃ c c' e, Reachable c ∧ c.state.isOpen = true ∧
    (Event.expiry ⟨100005, 7⟩).enabled c = true ∧ c.handle (.expiry ⟨100005, 7⟩) = .ok c' ∧
    e ∈ c'.out.drop c.out.length ∧ c'.outQ.isFull = false ∧
    hasFlag (getFlags e.bytes) FLG_BSY = true := by
  have hrun : ((CRssi.new shallowConfig zeroJunk).runs staleRun).map (fun c ↦
      (c.state.isOpen, (Event.expiry ⟨100005, 7⟩).enabled c, (c.handle (.expiry ⟨100005, 7⟩)).toOption.map
        fun c' ↦ (c'.outQ.isFull, (c'.out.drop c.out.length).head?.map fun e ↦
          hasFlag (getFlags e.bytes) FLG_BSY))) = some (true, true, some (false, some true)) := by
    decide +kernel
  obtain ⟨c, hc, hf⟩ := reachable_of_runs hrun
  simp only [Prod.mk.injEq] at hf
  obtain ⟨ho, hen, hh⟩ := hf
  obtain ⟨c', hc', hf⟩ := Option.map_eq_some_iff.1 hh
  simp only [Prod.mk.injEq] at hf
  obtain ⟨e, he, hflag⟩ := Option.map_eq_some_iff.1 hf.2
  exact ⟨c, c', e, hc, ho, hen, toOption_eq_some.1 hc', List.mem_of_mem_head? he, hf.1, hflag⟩

theorem busy_unless_stale_once : ∃ c c' e, Reachable c ∧ c.handle (.expiry ⟨100005, 7⟩) = .ok c' ∧
    e ∈ c'.out.drop c.out.length ∧ ∃ b, c.snd.Handed b ∧
      (e.Truthful c' ↔ ¬(hasFlag (getFlags b) FLG_BSY = true ∧ c'.outQ.isFull = false)) := by
  obtain ⟨c, c', e, hc, ho, -, hh, he, -⟩ := stale_busy
  obtain ⟨-, b, hb, -, hiff⟩ := busy_unless_stale hc ho hh he
  exact ⟨c, c', e, hc, hh, he, b, hb, hiff⟩

theorem not_truthful : ¬∀ c c' ev e, Reachable c → c.state.isOpen = true → ev.enabled c = true →
    c.handle ev = .ok c' → e ∈ c'.out.drop c.out.length → e.Truthful c' := by
  intro h
  obtain ⟨c, c', e, hc, ho, hen, hh, he, hfull, hflag⟩ := stale_busy
  have hb := (h c c' _ e hc ho hen hh he).busy
  rw [hflag, hfull] at hb
  contradiction

end Cpsw.Rssi
