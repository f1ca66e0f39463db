import Cpsw.Rssi.Open

namespace Cpsw.Rssi

open Cpsw.Lib.Run

variable {O : Bytes → Prop} {c c' c'' : CRssi} {now : ℕ} {s : STATE} {seg : Segment}

/-- The ACK timer is armed in `c'` as it is in `c`. -/
def SameAckTimer (c c' : CRssi) : Prop := ∀ t, (.ACK, t) ∈ c'.timers ↔ (.ACK, t) ∈ c.timers

theorem SameAckTimer.trans (h : SameAckTimer c c') (h' : SameAckTimer c' c'') : SameAckTimer c c'' :=
  fun t ↦ (h' t).trans (h t)

theorem SameAckTimer.isArmed (h : SameAckTimer c c') : c'.timers.isArmed .ACK ↔ c.timers.isArmed .ACK :=
  exists_congr h

theorem SameAckTimer.of_eq (h : c'.timers = c.timers) : SameAckTimer c c' := fun t ↦ by rw [h]

namespace CRssi

theorem armTimer_sameAckTimer {t : RssiTimer} {e : ℕ} (ht : t ≠ .ACK) :
    SameAckTimer c (c.armTimer t e) := fun _ ↦ armTimer_mem_ack ht

theorem cancelTimer_sameAckTimer {t : RssiTimer} (ht : t ≠ .ACK) : SameAckTimer c (c.cancelTimer t) := by
  intro e
  unfold cancelTimer RssiTimerList.cancel
  rw [List.mem_filter]
  exact and_iff_left (by simpa using ht.symm)

theorem noteBusy_sameAckTimer : SameAckTimer c (c.noteBusy seg) := by
  unfold noteBusy
  split_ifs
  · exact @cancelTimer_sameAckTimer { c with peerBSY := hasFlag seg.flags FLG_BSY } .REX nofun
  · exact .of_eq rfl

theorem armTimer_ack {e : ℕ} (t : ℕ) : (.ACK, t) ∈ (c.armTimer .ACK e).timers ↔ t = e := by
  unfold armTimer RssiTimerList.armAbs RssiTimerList.cancel
  rw [RssiTimerList.mem_addAfter, List.mem_filter]
  constructor
  · rintro (h | h)
    · exact (Prod.mk.inj h).2
    · exact absurd h.2 (by simp)
  · rintro rfl
    exact .inl rfl

/-- What an accepted segment, counted in `numCak` or not, does to the counter and the ACK timer. -/
inductive Counts (now : ℕ) (c c' : CRssi) : Prop
  | sent : c'.out ≠ c.out → c'.numCak = 0 → ¬c'.timers.isArmed .ACK → Counts now c c'
  | set : c'.out = c.out → c.numCak + 1 ≤ c.prm.cakMX → c.numCak = 0 → c'.numCak = 1 →
      (∀ t, (.ACK, t) ∈ c'.timers ↔ t = now + c.prm.cakTO) → Counts now c c'
  | kept : c'.out = c.out → c.numCak + 1 ≤ c.prm.cakMX → c.numCak ≠ 0 →
      c'.numCak = c.numCak + 1 → SameAckTimer c c' → Counts now c c'

/-- And the rest of what may change. -/
structure Counted (now : ℕ) (c c' : CRssi) : Prop where
  prm : c'.prm = c.prm
  state : c'.state = c.state ∨ c'.state = .CLOSED
  counts : Counts now c c'

theorem Counted.before {c₁ : CRssi} (h : Counted now c₁ c') (hcore : c₁.out = c.out ∧ c₁.prm = c.prm ∧ c₁.state = c.state)
    (hnum : c₁.numCak = c.numCak) (ht : SameAckTimer c c₁) : Counted now c c' := by
  obtain ⟨hout, hprm, hst⟩ := hcore
  refine ⟨h.prm.trans hprm, hst ▸ h.state, ?_⟩
  cases h.counts with
  | sent ho hn ha => exact .sent (hout ▸ ho) hn ha
  | set ho hmx hz hn ha => exact .set (ho.trans hout) (by rw [← hnum, ← hprm]; exact hmx) (hnum ▸ hz) hn (hprm ▸ ha)
  | kept ho hmx hz hn ha =>
    exact .kept (ho.trans hout) (by rw [← hnum, ← hprm]; exact hmx) (hnum ▸ hz) (hnum ▸ hn) (ht.trans ha)

theorem Counted.after {c₁ : CRssi} (h : Counted now c c₁) (hout : c'.out = c₁.out) (hprm : c'.prm = c₁.prm)
    (hst : c'.state = c₁.state ∨ c'.state = .CLOSED) (hnum : c'.numCak = c₁.numCak) (ht : SameAckTimer c₁ c') :
    Counted now c c' := by
  refine ⟨hprm.trans h.prm, hst.elim (fun he ↦ he ▸ h.state) .inr, ?_⟩
  cases h.counts with
  | sent ho hn ha => exact .sent (hout ▸ ho) (hnum ▸ hn) (fun h ↦ ha (ht.isArmed.1 h))
  | set ho hmx hz hn ha => exact .set (hout.trans ho) hmx hz (hnum.trans hn) (fun t ↦ (ht t).trans (ha t))
  | kept ho hmx hz hn ha => exact .kept (hout.trans ho) hmx hz (hnum.trans hn) (ha.trans ht)

theorem out_ne_of_length (h : c.out.length < c'.out.length) : c'.out ≠ c.out := by
  intro he
  rw [he] at h
  exact absurd h (Nat.lt_irrefl _)

theorem counted_of_emits (h : Emits O c c') (hlt : c.out.length < c'.out.length) : Counted now c c' :=
  have hne := out_ne_of_length hlt
  ⟨h.prm, .inl h.state, .sent hne (h.loud hne).1 (h.loud hne).2⟩

theorem rxReply_counted (h : c.rxReply s now = .ok c') : Counted now c c' := by
  unfold rxReply at h
  obtain ⟨c₁, h₁, h⟩ := bind_ok.1 h
  obtain rfl := Except.ok.inj h
  have hack : Counted now c c₁ := by
    unfold rxAck at h₁
    split_ifs at h₁ with hmx hone
    · have hlen := sendDatOrAck_length h₁
      have hs := sendDatOrAck_sends (O := fun _ ↦ True) (fun _ _ ↦ trivial) h₁
      have hne : c₁.out ≠ c.out := out_ne_of_length (by rw [hlen]; exact Nat.lt_succ_self _)
      exact ⟨hs.prm, .inl hs.state, .sent hne (hs.loud hne).1 (hs.loud hne).2⟩
    · obtain rfl := Except.ok.inj h₁
      dsimp only at hmx hone
      exact ⟨rfl, .inl rfl, .set rfl (Int.not_lt.1 hmx) (by omega) hone armTimer_ack⟩
    · obtain rfl := Except.ok.inj h₁
      dsimp only at hmx hone
      exact ⟨rfl, .inl rfl, .kept rfl (Int.not_lt.1 hmx) (by omega) rfl (.of_eq rfl)⟩
  split_ifs
  · exact hack.after rfl rfl (.inl rfl) rfl (armTimer_sameAckTimer nofun)
  · exact hack

theorem processRetransmissionTimeout_counted {q : List Bytes} (hq : c.snd.unAckedSegs.Holds q)
    (hpos : 0 < q.length) (h : c.processRetransmissionTimeout now = .ok c') : Counted now c c' := by
  have hlen := processRetransmissionTimeout_length hq hpos h
  obtain ⟨c₁, hs, hc⟩ := processRetransmissionTimeout_sends (O := fun _ ↦ True) hq (fun _ _ ↦ trivial)
    (fun _ ↦ trivial) h
  split_ifs at hc
  · rw [hc] at hlen ⊢
    exact (counted_of_emits hs.toEmits hlen).after rfl rfl (.inr rfl) rfl (.of_eq rfl)
  · rw [hc.1] at hlen ⊢
    exact counted_of_emits hs.toEmits hlen

theorem rxBusy_counted {q : List Bytes} (hq : c.snd.unAckedSegs.Holds q)
    (h : c.rxBusy s seg now = .ok c') : Counted now c c' := by
  rw [rxBusy_eq] at h
  have hcore : (c.noteBusy seg).toCore = c.toCore := toCore_noteBusy
  have hnum : (c.noteBusy seg).numCak = c.numCak := by
    unfold noteBusy
    split_ifs <;> rfl
  have hbefore : Counted now (c.noteBusy seg) c' := by
    split_ifs at h with hcond
    · rw [Bool.and_eq_true, decide_eq_true_eq, hq.getSize_eq] at hcond
      rw [← hcore] at hq
      exact processRetransmissionTimeout_counted hq hcond.2 h
    · exact rxReply_counted h
  refine hbefore.before ?_ hnum noteBusy_sameAckTimer
  rw [hcore]
  exact ⟨rfl, rfl, rfl⟩

/-- An acknowledgement and what is stored leave the counter and the ACK timer alone. -/
theorem rxAccepted_counted {q : List Bytes} (hq : c.snd.unAckedSegs.Holds q)
    (h : c.rxAccepted s seg now = .ok c') : Counted now c c' := by
  obtain ⟨c₁, h₁, h⟩ := bind_ok.1 h
  obtain ⟨r, oq, e, hc₁⟩ := rxStore_eq h₁
  obtain ⟨n, hn⟩ := processAckNumber_holds hq seg.flags seg.ackNo
  have hsnd : c₁.snd = (c.processAckNumber seg.flags seg.ackNo).snd := by rw [hc₁]
  rw [← hsnd] at hn
  have hack : ((c.processAckNumber seg.flags seg.ackNo).out = c.out ∧
      (c.processAckNumber seg.flags seg.ackNo).prm = c.prm ∧
      (c.processAckNumber seg.flags seg.ackNo).state = c.state) ∧
      (c.processAckNumber seg.flags seg.ackNo).numCak = c.numCak ∧
      SameAckTimer c (c.processAckNumber seg.flags seg.ackNo) := by
    unfold processAckNumber
    dsimp only
    have hcancel : SameAckTimer c (c.cancelTimer .REX) := cancelTimer_sameAckTimer nofun
    split_ifs <;> first
      | exact ⟨⟨rfl, rfl, rfl⟩, rfl, .of_eq rfl⟩
      | exact ⟨⟨rfl, rfl, rfl⟩, rfl, hcancel⟩
  obtain ⟨hcore, hnum, hsame⟩ := hack
  have hb := rxBusy_counted hn h
  rw [hc₁] at hb
  exact hb.before hcore hnum hsame

end CRssi

/-- While segments wait for their ACK, and only then, the timer for it is armed; at the time `D` or
before, it was set to expire one time-out later. -/
structure AckTimed (D : ℕ) (c : CRssi) : Prop where
  nonneg : 0 ≤ c.numCak
  armed : c.timers.isArmed .ACK ↔ 1 ≤ c.numCak
  early : c.state.early = true → c.numCak = 0
  due : ∀ t, (.ACK, t) ∈ c.timers → t ≤ D + c.prm.cakTO

variable {D : ℕ}

theorem AckTimed.mono {D' : ℕ} (h : AckTimed D c) (hD : D ≤ D') : AckTimed D' c :=
  ⟨h.nonneg, h.armed, h.early, fun t ht ↦ (h.due t ht).trans (Nat.add_le_add_right hD _)⟩

theorem AckTimed.idle (hn : c.numCak = 0) (ha : ¬c.timers.isArmed .ACK) : AckTimed D c :=
  ⟨hn.ge, iff_of_false ha (by omega), fun _ ↦ hn, fun t ht ↦ absurd ⟨t, ht⟩ ha⟩

/-- Either nothing goes out and the ACK timer stays as it is, or something does, with the ACK. -/
structure Moves (c c' : CRssi) : Prop where
  out : c.out <+: c'.out
  prm : c'.prm = c.prm
  early : c'.state.early = true → c.state.early = true
  quiet : c'.out = c.out → c'.numCak = c.numCak ∧ SameAckTimer c c'
  loud : c'.out ≠ c.out → c'.numCak = 0 ∧ ¬c'.timers.isArmed .ACK

theorem Moves.none (ho : c'.out = c.out) (hp : c'.prm = c.prm)
    (he : c'.state.early = true → c.state.early = true) (hn : c'.numCak = c.numCak)
    (hs : SameAckTimer c c') : Moves c c' :=
  ⟨ho ▸ List.prefix_rfl, hp, he, fun _ ↦ ⟨hn, hs⟩, fun h ↦ absurd ho h⟩

theorem Emits.moves (h : Emits O c c') : Moves c c' := by
  obtain ⟨l, hl, -⟩ := h.out
  exact ⟨⟨l, hl.symm⟩, h.prm, by rw [h.state]; exact id, h.quiet, h.loud⟩

theorem Moves.trans (h : Moves c c') (h' : Moves c' c'') : Moves c c'' := by
  refine ⟨h.out.trans h'.out, h'.prm.trans h.prm, fun he ↦ h.early (h'.early he), fun ho ↦ ?_, fun ho ↦ ?_⟩
  · have hle := h.out.length_le
    have hle' := h'.out.length_le
    rw [ho] at hle'
    have ho₁ : c.out = c'.out := h.out.eq_of_length (by omega)
    obtain ⟨hn, hs⟩ := h.quiet ho₁.symm
    obtain ⟨hn', hs'⟩ := h'.quiet (ho.trans ho₁)
    exact ⟨hn'.trans hn, hs.trans hs'⟩
  · by_cases ho' : c''.out = c'.out
    · obtain ⟨hn, hs⟩ := h'.quiet ho'
      obtain ⟨hn', hs'⟩ := h.loud fun he ↦ ho (ho'.trans he)
      exact ⟨hn.trans hn', fun ha ↦ hs' (hs.isArmed.1 ha)⟩
    · exact h'.loud ho'

theorem AckTimed.moves (h : AckTimed D c) (hm : Moves c c') : AckTimed D c' := by
  by_cases ho : c'.out = c.out
  · obtain ⟨hn, hs⟩ := hm.quiet ho
    refine ⟨hn ▸ h.nonneg, ?_, fun he ↦ hn.trans (h.early (hm.early he)), fun t ht ↦ ?_⟩
    · rw [hs.isArmed, hn]
      exact h.armed
    · rw [hm.prm]
      exact h.due t ((hs t).1 ht)
  · obtain ⟨hn, ha⟩ := hm.loud ho
    exact .idle hn ha

/-- A segment is counted, in `c`, as one more or not. -/
theorem CRssi.Counted.timed (h : c.Counted now c') (hnow : now ≤ D) (hn : -1 ≤ c.numCak)
    (ha : c.numCak ≠ 0 → (c.timers.isArmed .ACK ↔ 1 ≤ c.numCak + 1))
    (hdue : ∀ t, (.ACK, t) ∈ c.timers → t ≤ D + c.prm.cakTO)
    (he : c.state.early = true → ¬c.numCak + 1 ≤ c.prm.cakMX) : AckTimed D c' := by
  have hearly : c'.state.early = true → c.state.early = true := by
    rcases h.state with hs | hs <;> rw [hs]
    · exact id
    · exact nofun
  cases h.counts with
  | sent _ hn' ha' => exact .idle hn' ha'
  | set _ hmx hz hn' ha' =>
    refine ⟨by omega, iff_of_true ⟨_, (ha' _).2 rfl⟩ hn'.ge, fun hs ↦ absurd hmx (he (hearly hs)), fun t ht ↦ ?_⟩
    rw [(ha' t).1 ht, h.prm]
    exact Nat.add_le_add_right hnow _
  | kept _ hmx hz hn' ht =>
    refine ⟨by omega, ?_, fun hs ↦ absurd hmx (he (hearly hs)), fun t hm ↦ ?_⟩
    · rw [ht.isArmed, hn']
      exact ha hz
    · rw [h.prm]
      exact hdue t ((ht t).1 hm)

/-- With the ACK forced, it goes out. -/
theorem CRssi.Counted.forced (h : c.forceACK.Counted now c') : AckTimed D c' := by
  cases h.counts with
  | sent _ hn ha => exact .idle hn ha
  | set _ hmx | kept _ hmx =>
    change c.prm.cakMX + 1 ≤ c.prm.cakMX at hmx
    omega

theorem AckTimed.counted (h : AckTimed D c) (hc : c.Counted now c') (hnow : now ≤ D)
    (he : c.state.early = false) : AckTimed D c' := by
  have hn := h.nonneg
  refine hc.timed hnow (by omega) (fun hz ↦ ?_) h.due fun he' ↦ absurd (he.symm.trans he') nofun
  rw [h.armed]
  omega

namespace CRssi

theorem rxBase_late_timed {q : List Bytes} {bc : RxBuf} {clk : Clock} (h : AckTimed D c)
    (hq : c.snd.unAckedSegs.Holds q) (hst : c.state.early = false) (hs : s.early = false)
    (hnow : clk.now ≤ D) (hb : c.rxBase s bc clk = .ok c') : AckTimed D c' := by
  rcases rxBase_late hs hb with ⟨rfl, -⟩ | ⟨seg, c₁, -, hadm, ha⟩
  · exact h
  · have hsnd : c₁.snd = c.snd := by cases hadm <;> rfl
    rw [← hsnd] at hq
    cases hadm with
    | syn | nul => exact (rxAccepted_counted hq ha).forced
    | ack =>
      have hn := h.nonneg
      refine (rxAccepted_counted hq ha).timed hnow ?_ (fun hz ↦ ?_) h.due fun he ↦ ?_
      · change -1 ≤ c.numCak - 1
        omega
      · change c.timers.isArmed .ACK ↔ 1 ≤ c.numCak - 1 + 1
        rw [h.armed]
        omega
      · exact absurd (hst.symm.trans he) nofun
    | rst =>
      have hc : AckTimed D ({ c with rst := true }.changeState .CLOSED) :=
        h.moves (.none rfl rfl nofun rfl (.of_eq rfl))
      exact hc.counted (rxAccepted_counted hq ha) hnow rfl
    | dat => exact h.counted (rxAccepted_counted hq ha) hnow hst

theorem sendSYN_idle {doAck : Bool} {clk : Clock} (h : c.sendSYN doAck clk = .ok c') :
    c'.numCak = 0 ∧ ¬c'.timers.isArmed .ACK := by
  unfold sendSYN at h
  have hlen := sendBufAndKeepForRetransmission_length h
  have hs := sendBufAndKeepForRetransmission_sends (O := fun _ ↦ True) trivial h
  exact hs.loud (out_ne_of_length (by rw [hlen]; exact Nat.lt_succ_self _))

theorem sendRST_idle (h : c.sendRST = .ok c') : c'.numCak = 0 ∧ ¬c'.timers.isArmed .ACK := by
  have hlen := sendRST_length h
  have hs := sendRST_sends (O := fun _ ↦ True) (fun _ ↦ trivial) h
  exact hs.loud (out_ne_of_length (by rw [hlen]; exact Nat.lt_succ_self _))

/-- The answer to a SYN counts as its ACK. -/
theorem handleSYN_timed {q : List Bytes} {y : RssiSynHeader} {clk : Clock} {b : Bool} {c₁ : CRssi}
    (hs : s.early = true) (h : c.handleSYN s seg y clk = .ok (b, c₁)) (hq : c₁.snd.unAckedSegs.Holds q)
    (hnow : clk.now ≤ D) :
    (b = false → AckTimed D c₁) ∧ (∀ c', c₁.rxAccepted s seg clk.now = .ok c' → AckTimed D c') := by
  unfold handleSYN at h
  split at h
  · obtain ⟨c₂, -, h⟩ := bind_ok.1 h
    obtain ⟨c₃, h₃, h⟩ := bind_ok.1 h
    obtain ⟨rfl, rfl⟩ := Prod.mk.inj (Except.ok.inj h)
    obtain ⟨hn, ha⟩ := sendSYN_idle h₃
    refine ⟨nofun, fun c' hacc ↦ ?_⟩
    refine (rxAccepted_counted hq hacc).timed hnow ?_ (fun _ ↦ iff_of_false ha ?_)
      (fun t ht ↦ absurd ⟨t, ht⟩ ha) nofun
    · change -1 ≤ c₃.numCak - 1
      omega
    · change ¬1 ≤ c₃.numCak - 1 + 1
      omega
  · obtain ⟨c₂, -, h⟩ := bind_ok.1 h
    split_ifs at h
    · obtain ⟨c₃, h₃, h⟩ := bind_ok.1 h
      obtain ⟨rfl, rfl⟩ := Prod.mk.inj (Except.ok.inj h)
      obtain ⟨hn, ha⟩ := sendRST_idle h₃
      have hc : AckTimed D (c₃.changeState .CLOSED) := .idle hn ha
      exact ⟨fun _ ↦ hc, fun c' hacc ↦ hc.counted (rxAccepted_counted hq hacc) hnow rfl⟩
    · obtain ⟨rfl, rfl⟩ := Prod.mk.inj (Except.ok.inj h)
      refine ⟨nofun, fun c' hacc ↦ ?_⟩
      split_ifs at hacc hq with hack
      · have hcount := rxAccepted_counted hq hacc
        exact (hcount.before (c := ((c₂.acceptSyn seg.seqNo).changeState .PREP_OPEN).forceACK)
          ⟨rfl, rfl, rfl⟩ rfl (.of_eq rfl)).forced
      · exact (rxAccepted_counted hq hacc).forced
  · rename_i hl hc
    cases s <;> contradiction

theorem rxBase_early_timed {q : List Bytes} {bc : RxBuf} {clk : Clock} (h : AckTimed D c)
    (hw : Window c.toCore q) (hst : c.state = s) (hs : s.early = true) (hnow : clk.now ≤ D)
    (hb : c.rxBase s bc clk = .ok c') : AckTimed D c' := by
  have hcl : s ≠ .CLOSED := by
    rintro rfl
    contradiction
  unfold rxBase at hb
  generalize (rxParse c.prm.verifyChecksum).val bc = rx at hb
  obtain ⟨⟨o, c₁⟩, hd, ha⟩ := bind_ok.1 hb
  obtain ⟨q₁, hw₁⟩ := Acts.window (rxDispatch_acts (d := rx.segment?) hst hcl hd).1 hw
  cases rx with
  | tooShort | badHeader | badChecksum | badSyn =>
    obtain ⟨rfl, rfl⟩ := Prod.mk.inj (Except.ok.inj hd)
    obtain rfl := Except.ok.inj ha
    exact h
  | syn seg y =>
    obtain ⟨⟨b, c₂⟩, hsyn, hd⟩ := bind_ok.1 hd
    obtain ⟨rfl, rfl⟩ := Prod.mk.inj (Except.ok.inj hd)
    obtain ⟨hfalse, htrue⟩ := handleSYN_timed hs hsyn hw₁.holds hnow
    cases b with
    | false =>
      obtain rfl := Except.ok.inj ha
      exact hfalse rfl
    | true => exact htrue c' ha
  | oth seg =>
    obtain ⟨⟨b, c₂⟩, hoth, hd⟩ := bind_ok.1 hd
    obtain ⟨rfl, rfl⟩ := Prod.mk.inj (Except.ok.inj hd)
    rcases handleOTH_early hs hoth with ⟨rfl, rfl⟩ | ⟨rfl, c₃, h₃, rfl⟩
    · obtain rfl := Except.ok.inj ha
      exact h
    · obtain ⟨hn, hack⟩ := sendRST_idle h₃
      have hc : AckTimed D (c₃.changeState .CLOSED) := .idle hn hack
      exact hc.counted (rxAccepted_counted hw₁.holds ha) hnow rfl

theorem handleRxEvent_timed {q : List Bytes} {bc : RxBuf} {clk : Clock} (h : AckTimed D c)
    (hw : Window c.toCore q) (hnow : clk.now ≤ D) (hb : c.handleRxEvent bc clk = .ok c') :
    AckTimed D c' := by
  obtain ⟨-, c₁, h₁, hend⟩ := handleRxEvent_ok hb
  have hc : AckTimed D c₁ := by
    cases he : c.state.early with
    | true => exact rxBase_early_timed h hw rfl he hnow h₁
    | false => exact rxBase_late_timed h hw.holds he he hnow h₁
  rcases hend with rfl | ⟨-, -, rfl⟩ | ⟨-, -, rfl⟩
  · exact hc
  · exact hc.moves (.none rfl rfl nofun rfl (armTimer_sameAckTimer (c := c₁) nofun))
  · exact hc.moves (.none rfl rfl nofun rfl (.of_eq rfl))

theorem handleUsrInputEvent_moves {clk : Clock} (hh : c.handleUsrInputEvent clk = .ok c') :
    Moves c c' := by
  obtain ⟨-, n, full, c₁, h₁, rfl⟩ := handleUsrInputEvent_ok hh
  have hm := (usrInputLoop_sends (O := fun _ ↦ True) (fun _ _ ↦ trivial) h₁).moves
  split_ifs
  · exact hm.trans (.none rfl rfl nofun rfl (.of_eq rfl))
  · exact hm

theorem handleUsrOutputEvent_moves (hh : c.handleUsrOutputEvent = .ok c') : Moves c c' := by
  obtain ⟨-, c₁, h₁, hh⟩ := handleUsrOutputEvent_ok hh
  have hm : Moves c c₁ := by
    rcases drainReassembleBuffer_ok h₁ with ⟨-, rfl⟩ | ⟨-, q, e, r, -, rfl⟩ <;>
      exact .none rfl rfl id rfl (.of_eq rfl)
  rcases hh with rfl | hh
  · exact hm
  · exact hm.trans (sendACK_sends (O := fun _ ↦ True) (fun _ ↦ trivial) hh).moves

theorem processNulTimeout_moves (hh : c.processNulTimeout now = .ok c') : Moves c c' := by
  obtain ⟨-, ⟨c₁, h₁, rfl⟩ | ⟨-, sent, c₁, h₁, rfl⟩⟩ := processNulTimeout_ok hh
  · have hm := (sendRST_sends (O := fun _ ↦ True) (fun _ ↦ trivial) h₁).moves
    exact hm.trans (.none rfl rfl nofun rfl (.of_eq rfl))
  · have hm := (sendNUL_sends (O := fun _ ↦ True) (fun _ ↦ trivial) (fun _ ↦ trivial) h₁).moves
    split_ifs
    · exact hm
    · exact hm.trans (.none rfl rfl nofun rfl (.of_eq rfl))

theorem processRexTimeout_moves {q : List Bytes} (hq : c.snd.unAckedSegs.Holds q)
    (hh : c.processRexTimeout now = .ok c') : Moves c c' := by
  obtain ⟨-, hh⟩ := processRexTimeout_ok hh
  obtain ⟨c₁, hs, hc⟩ := processRetransmissionTimeout_sends (O := fun _ ↦ True) hq (fun _ _ ↦ trivial)
    (fun _ ↦ trivial) hh
  split_ifs at hc
  · rw [hc]
    exact hs.moves.trans (.none rfl rfl nofun rfl (.of_eq rfl))
  · rw [hc.1]
    exact hs.moves

/-- A timer that has expired is gone; when it is the one for ACKs, an ACK goes out. -/
theorem processTimer_moves {q : List Bytes} {t : RssiTimer} (hq : c.snd.unAckedSegs.Holds q)
    (hh : (c.cancelTimer t).processTimer now t = .ok c') : Moves c c' := by
  cases t with
  | REX =>
    have hm : Moves c (c.cancelTimer .REX) := .none rfl rfl id rfl (cancelTimer_sameAckTimer nofun)
    exact hm.trans (processRexTimeout_moves hq hh)
  | NUL =>
    have hm : Moves c (c.cancelTimer .NUL) := .none rfl rfl id rfl (cancelTimer_sameAckTimer nofun)
    exact hm.trans (processNulTimeout_moves hh)
  | ACK =>
    obtain ⟨-, hh⟩ := processAckTimeout_ok hh
    have hlen := sendDatOrAck_length hh
    have hm := (sendDatOrAck_sends (O := fun _ ↦ True) (fun _ _ ↦ trivial) hh).moves
    have hne : c'.out ≠ c.out := out_ne_of_length (by rw [hlen]; exact Nat.lt_succ_self _)
    exact ⟨hm.out, hm.prm, hm.early, fun ho ↦ absurd ho hne, hm.loud⟩

end CRssi

/-- The clocks that a handler reads. -/
def Event.clock? : Event → Option Clock
  | .advance clk | .rx _ clk | .usrInput clk | .expiry clk => some clk
  | .usrOutput | .push _ | .pop => none

def Event.isRx : Event → Bool
  | .rx _ _ => true
  | _ => false

theorem CRssi.handle_moves {q : List Bytes} {ev : Event} (hw : Window c.toCore q)
    (hc : ∀ clk, ev = .advance clk → c.state ≠ .CLOSED) (hr : ev.isRx = false)
    (hh : c.handle ev = .ok c') : Moves c c' := by
  have hm : Moves c c.clearChanges := .none rfl rfl id rfl (.of_eq rfl)
  unfold handle dispatch at hh
  cases ev with
  | advance clk =>
    change c.clearChanges.advance clk = .ok c' at hh
    unfold advance at hh
    split at hh
    · exact absurd ‹_› (hc clk rfl)
    · obtain rfl := Except.ok.inj hh
      exact .none rfl rfl nofun rfl (.of_eq rfl)
    · obtain rfl := Except.ok.inj hh
      exact hm
  | rx bc clk => contradiction
  | usrInput clk =>
    replace hh := wait_bind_ok hh
    exact hm.trans (handleUsrInputEvent_moves hh)
  | usrOutput =>
    replace hh := wait_bind_ok hh
    exact hm.trans (handleUsrOutputEvent_moves hh)
  | expiry clk =>
    replace hh := wait_bind_ok hh
    split at hh
    · obtain rfl := Except.ok.inj hh
      exact hm
    · exact hm.trans (processTimer_moves hw.holds hh)
  | push b =>
    obtain rfl := Except.ok.inj hh
    exact .none rfl rfl id rfl (.of_eq rfl)
  | pop =>
    obtain rfl := Except.ok.inj hh
    exact .none rfl rfl id rfl (.of_eq rfl)

/-- A new connection starts with no ACK to send. -/
theorem CRssi.advance_timed {clk : Clock} (hc : c.state = .CLOSED) (hh : c.advance clk = .ok c') :
    AckTimed D c' := by
  unfold advance at hh
  rw [hc] at hh
  dsimp only at hh
  split_ifs at hh
  · obtain rfl := Except.ok.inj hh
    refine .idle rfl fun ha ↦ ?_
    obtain ⟨-, ha⟩ := RssiTimerList.isArmed_cancel.1 ha
    obtain ⟨-, ha⟩ := RssiTimerList.isArmed_cancel.1 ha
    exact (RssiTimerList.isArmed_cancel.1 ha).1 rfl
  · obtain ⟨c₁, h₁, hh⟩ := bind_ok.1 hh
    obtain rfl := Except.ok.inj hh
    obtain ⟨hn, ha⟩ := sendSYN_idle h₁
    exact .idle hn ha

theorem CRssi.handle_timed {q : List Bytes} {ev : Event} (h : AckTimed D c) (hw : Window c.toCore q)
    (hclk : ∀ clk, ev.clock? = some clk → clk.now ≤ D) (hh : c.handle ev = .ok c') : AckTimed D c' := by
  have hc₀ : AckTimed D c.clearChanges := h.moves (.none rfl rfl id rfl (.of_eq rfl))
  cases ev with
  | advance clk =>
    by_cases hc : c.state = .CLOSED
    · exact @advance_timed c.clearChanges _ _ _ hc hh
    · exact h.moves (handle_moves hw (fun _ _ ↦ hc) rfl hh)
  | rx bc clk =>
    replace hh := wait_bind_ok hh
    exact handleRxEvent_timed hc₀ hw (hclk clk rfl) hh
  | usrInput | usrOutput | expiry | push | pop => 
    exact h.moves (handle_moves hw (fun _ he ↦ by cases he) rfl hh)

end Cpsw.Rssi
