import Cpsw.Rssi.AckTimer
import Cpsw.Rssi.Busy

namespace Cpsw.Rssi

open Cpsw.Lib.Run

variable {c c' c₁ : CRssi} {now D T T' : ℕ} {s : STATE} {seg : Segment} {ev : Event}

/-- The ACK timer stays as it is, or is set to an earlier time. -/
def KeepsDeadline (c c' : CRssi) : Prop :=
  ∀ t, (.ACK, t) ∈ c.timers → ∃ t' ≤ t, (.ACK, t') ∈ c'.timers

namespace CRssi

/-- A pure ACK comes while exactly one segment waits for its ACK. -/
def Rearms (now : ℕ) (ev : Event) (c : CRssi) : Prop :=
  ∃ bc clk seg, ev = .rx bc clk ∧ clk.now = now ∧
    (rxParse c.prm.verifyChecksum).val bc = .oth seg ∧ seg.bareAck = true ∧ c.numCak = 1

/-- And it comes after the ACK timer was set. -/
def Postpones (ev : Event) (c : CRssi) : Prop :=
  ∃ now t, c.Rearms now ev ∧ (.ACK, t) ∈ c.timers ∧ t < now + c.prm.cakTO

/-- The datagram brings a data segment. -/
def Receives (bc : RxBuf) (c : CRssi) : Prop :=
  ∃ seg, (rxParse c.prm.verifyChecksum).val bc = .oth seg ∧ seg.hasPayload = true ∧
    hasFlag seg.flags FLG_NUL = false ∧ hasFlag seg.flags FLG_RST = false

/-- What becomes of the ACK timer as long as nothing goes out. -/
structure Paces (now : ℕ) (ev : Event) (c c' : CRssi) : Prop where
  rearms : c.Rearms now ev → ∀ t, (.ACK, t) ∈ c'.timers ↔ t = now + c.prm.cakTO
  keeps : ¬c.Rearms now ev → c.timers.isArmed .ACK → SameAckTimer c c'

theorem segment?_oth {b : RxBuf} {v : Bool} (h : ((rxParse v).val b).segment? = some seg)
    (hsyn : hasFlag seg.flags FLG_SYN = false) : (rxParse v).val b = .oth seg := by
  have hp := rxParse_parses v b
  cases hrx : (rxParse v).val b with
  | tooShort | badHeader | badChecksum | badSyn =>
    rw [hrx] at h
    cases h
  | syn s' y =>
    rw [hrx] at h hp
    obtain rfl := Option.some.inj h
    rw [Rx.flags_syn hp] at hsyn
    contradiction
  | oth s' =>
    rw [hrx] at h
    rw [Option.some.inj h]

theorem rxBase_paces {q : List Bytes} {bc : RxBuf} {clk : Clock} (ht : AckTimed D c)
    (hq : c.snd.unAckedSegs.Holds q) (hs : s.early = false) (h : c.rxBase s bc clk = .ok c')
    (ho : c'.out = c.out) : Paces clk.now (.rx bc clk) c c' := by
  rcases rxBase_late hs h with ⟨rfl, hno⟩ | ⟨seg, c₁, hseg, hadm, ha⟩
  · refine ⟨fun ⟨bc', clk', seg, he, _, hrx, hbare, _⟩ ↦ ?_, fun _ _ ↦ .of_eq rfl⟩
    obtain ⟨rfl, rfl⟩ := Event.rx.inj he
    have hp := rxParse_parses c'.prm.verifyChecksum bc
    rw [hrx] at hp
    exact absurd (.ack (Rx.flags_oth hp) hbare) (hno seg (by rw [hrx]; rfl) _)
  · have hsnd : c₁.snd = c.snd ∧ c₁.out = c.out := by cases hadm <;> exact ⟨rfl, rfl⟩
    rw [← hsnd.1] at hq
    have hcount := (rxAccepted_counted hq ha).counts
    have hout : c'.out = c₁.out := ho.trans hsnd.2.symm
    have hnot : (∀ hbare : seg.bareAck = true, c.numCak ≠ 1) → ¬c.Rearms clk.now (.rx bc clk) := by
      rintro hne ⟨bc', clk', seg', he, -, hrx, hbare, hone⟩
      obtain ⟨rfl, rfl⟩ := Event.rx.inj he
      rw [hrx] at hseg
      obtain rfl := Option.some.inj hseg
      exact hne hbare hone
    have hn := ht.nonneg
    cases hcount with
    | sent hne => exact absurd hout hne
    | set _ hmx hz _ hset =>
      cases hadm with
      | syn | nul =>
        change c.prm.cakMX + 1 ≤ c.prm.cakMX at hmx
        omega
      | ack =>
        change c.numCak - 1 = 0 at hz
        refine ⟨fun _ ↦ hset, fun hr ↦ absurd ⟨bc, clk, seg, rfl, rfl, segment?_oth hseg ‹_›, ‹_›, ?_⟩ hr⟩
        omega
      | rst | dat =>
        change c.numCak = 0 at hz
        refine ⟨fun hr ↦ absurd hr (hnot fun _ ↦ by omega), fun _ ha ↦ ?_⟩
        rw [ht.armed, hz] at ha
        omega
    | kept _ hmx hz _ hsame =>
      cases hadm with
      | syn | nul =>
        change c.prm.cakMX + 1 ≤ c.prm.cakMX at hmx
        omega
      | ack =>
        change c.numCak - 1 ≠ 0 at hz
        exact ⟨fun hr ↦ absurd hr (hnot fun _ ↦ by omega), fun _ _ ↦ hsame⟩
      | rst hb | dat hb =>
        exact ⟨fun hr ↦ absurd hr (hnot fun hb' ↦ absurd (hb.symm.trans hb') nofun), fun _ _ ↦ hsame⟩

theorem rxBase_receives {q : List Bytes} {bc : RxBuf} {clk : Clock} (ht : AckTimed D c)
    (hq : c.snd.unAckedSegs.Holds q) (hs : s.early = false) (hd : c.Receives bc)
    (h : c.rxBase s bc clk = .ok c') (ho : c'.out = c.out) : 1 ≤ c'.numCak ∧ c'.prm = c.prm := by
  obtain ⟨seg, hrx, hpay, hnul, hrst⟩ := hd
  have hbare : seg.bareAck = false := by
    unfold Segment.bareAck
    rw [hpay, Bool.not_true, Bool.and_false]
  rcases rxBase_late hs h with ⟨rfl, hno⟩ | ⟨seg', c₁, hseg, hadm, ha⟩
  · exact absurd (.dat hbare hnul hrst hpay) (hno seg (by rw [hrx]; rfl) _)
  · have hp := rxParse_parses c.prm.verifyChecksum bc
    rw [hrx] at hseg hp
    obtain rfl := Option.some.inj hseg
    have hn := ht.nonneg
    cases hadm with
    | syn hsyn => exact absurd ((Rx.flags_oth hp).symm.trans hsyn) nofun
    | ack _ hb => exact absurd (hbare.symm.trans hb) nofun
    | nul _ hn' => exact absurd (hnul.symm.trans hn') nofun
    | rst _ _ hr => exact absurd (hrst.symm.trans hr) nofun
    | dat =>
      have hcount := rxAccepted_counted hq ha
      refine ⟨?_, hcount.prm⟩
      cases hcount.counts with
      | sent hne => exact absurd ho hne
      | set _ _ _ hone => omega
      | kept _ _ hz hone => omega

theorem handle_paces {q : List Bytes} (ht : AckTimed D c) (hw : Window c.toCore q)
    (hopen : c.state.isOpen = true) (h : c.handle ev = .ok c') (ho : c'.out = c.out) :
    (∀ now, ¬c.Rearms now ev) ∧ SameAckTimer c c' ∨ ∃ clk, ev.clock? = some clk ∧ Paces clk.now ev c c' := by
  by_cases hr : ev.isRx = true
  · cases ev with
    | rx bc clk =>
      replace h := wait_bind_ok h
      obtain ⟨c₂, h₂, hc'⟩ := handleRxEvent_open (c := c.clearChanges) hopen h
      have htc : AckTimed D c.clearChanges := ht.moves (.none rfl rfl id rfl (.of_eq rfl))
      have hsame : c'.out = c₂.out ∧ c'.timers = c₂.timers := by
        rw [hc']
        split_ifs <;> exact ⟨rfl, rfl⟩
      have hp := rxBase_paces htc hw.holds (STATE.early_of_isOpen hopen) h₂ (hsame.1.symm.trans ho)
      refine .inr ⟨clk, rfl, ?_, ?_⟩
      · intro hrearm t
        rw [hsame.2]
        exact hp.rearms hrearm t
      · intro hrearm ha
        exact (hp.keeps hrearm ha).trans (.of_eq hsame.2)
    | advance | usrInput | usrOutput | expiry | push | pop => contradiction
  · rw [Bool.not_eq_true] at hr
    have hcl : c.state ≠ .CLOSED := by
      intro hc
      rw [hc] at hopen
      contradiction
    have hm := handle_moves hw (fun _ _ ↦ hcl) hr h
    refine .inl ⟨?_, (hm.quiet ho).2⟩
    rintro now ⟨bc, clk, seg, rfl, -⟩
    contradiction

end CRssi

theorem Reachable.ackTimed (h : Reachable c) : ∃ D, AckTimed D c := by
  obtain ⟨cfg, j, hr⟩ := h
  induction hr with
  | refl => exact ⟨0, .idle rfl RssiTimerList.not_isArmed_nil⟩
  | @tail c₁ c₂ hr hs ih =>
    obtain ⟨D, hD⟩ := ih
    obtain ⟨ev, -, hh⟩ := hs
    obtain ⟨q, hw⟩ := Reachable.window ⟨cfg, j, hr⟩
    refine ⟨max D ((ev.clock?.map Clock.now).getD 0), CRssi.handle_timed (hD.mono (Nat.le_max_left _ _)) hw
      (fun clk hclk ↦ ?_) hh⟩
    rw [hclk]
    exact Nat.le_max_right _ _

/-- Unless a pure ACK puts it off, the ACK timer is never moved to a later time. -/
theorem keeps_iff (hr : Reachable c) (hopen : c.state.isOpen = true) (h : c.handle ev = .ok c')
    (ho : c'.out = c.out) : KeepsDeadline c c' ↔ ¬c.Postpones ev := by
  obtain ⟨D, ht⟩ := hr.ackTimed
  obtain ⟨q, hw⟩ := hr.window
  rcases CRssi.handle_paces ht hw hopen h ho with ⟨hno, hs⟩ | ⟨clk, hclk, hp⟩
  · refine iff_of_true (fun t hm ↦ ⟨t, le_rfl, (hs t).2 hm⟩) ?_
    rintro ⟨now, t, hrearm, -⟩
    exact hno now hrearm
  · have hnow : ∀ now, c.Rearms now ev → now = clk.now := by
      rintro now ⟨bc, clk', seg, rfl, rfl, -⟩
      rw [Option.some.inj hclk]
    by_cases hrearm : c.Rearms clk.now ev
    · constructor
      · rintro hk ⟨now, t, hr', hm, hlt⟩
        obtain rfl := hnow now hr'
        obtain ⟨t', hle, hm'⟩ := hk t hm
        rw [hp.rearms hrearm] at hm'
        omega
      · intro hn t hm
        refine ⟨_, ?_, (hp.rearms hrearm _).2 rfl⟩
        exact Nat.le_of_not_lt fun hlt ↦ hn ⟨_, t, hrearm, hm, hlt⟩
    · refine iff_of_true (fun t hm ↦ ⟨t, le_rfl, (hp.keeps hrearm ⟨t, hm⟩ t).2 hm⟩) ?_
      rintro ⟨now, t, hr', -⟩
      obtain rfl := hnow now hr'
      exact hrearm hr'

/-- One step of a peer, at a time that is not before `p.1`. -/
def TimedStep (p p' : ℕ × CRssi) : Prop :=
  ∃ ev : Event, ev.enabled p.2 = true ∧ p.2.handle ev = .ok p'.2 ∧ p.1 ≤ p'.1 ∧
    ∀ clk, ev.clock? = some clk → clk.now = p'.1

/-- The state `c` can be reached at the time `T`. -/
def ReachableAt (T : ℕ) (c : CRssi) : Prop :=
  ∃ cfg j T₀, Relation.ReflTransGen TimedStep (T₀, CRssi.new cfg j) (T, c)

theorem ReachableAt.reachable (h : ReachableAt T c) : Reachable c := by
  obtain ⟨cfg, j, T₀, hr⟩ := h
  exact ⟨cfg, j, hr.lift Prod.snd fun _ _ ⟨ev, he, hh, _⟩ ↦ ⟨ev, he, hh⟩⟩

theorem ReachableAt.step (h : ReachableAt T c) (hs : TimedStep (T, c) (T', c')) : ReachableAt T' c' := by
  obtain ⟨cfg, j, T₀, hr⟩ := h
  exact ⟨cfg, j, T₀, hr.tail hs⟩

theorem ReachableAt.ackTimed (h : ReachableAt T c) : AckTimed T c := by
  obtain ⟨cfg, j, T₀, hr⟩ := h
  generalize hp : (T, c) = p at hr
  induction hr generalizing T c with
  | refl =>
    cases hp
    exact .idle rfl RssiTimerList.not_isArmed_nil
  | @tail p₁ p₂ hr hs ih =>
    subst hp
    have hreach : ReachableAt p₁.1 p₁.2 := ⟨cfg, j, T₀, hr⟩
    obtain ⟨q, hw⟩ := hreach.reachable.window
    obtain ⟨ev, -, hh, hle, hclk⟩ := hs
    exact CRssi.handle_timed ((ih rfl).mono hle) hw (fun clk hc ↦ (hclk clk hc).le) hh

/-- A step of an open connection in which nothing goes out, and no pure ACK puts the timer off. -/
def Waiting (p p' : ℕ × CRssi) : Prop :=
  p.2.state.isOpen = true ∧ p'.2.out = p.2.out ∧ ∃ ev : Event, ev.enabled p.2 = true ∧
    ¬p.2.Postpones ev ∧ p.2.handle ev = .ok p'.2 ∧ p.1 ≤ p'.1 ∧
    ∀ clk, ev.clock? = some clk → clk.now = p'.1

def Event.time (T : ℕ) (ev : Event) : ℕ := (ev.clock?.map Clock.now).getD T

/-- The state after a list of events, each of them enabled in its turn and later than the last. -/
def CRssi.runsAt : List Event → ℕ × CRssi → Option (ℕ × CRssi)
  | [], p => some p
  | ev :: evs, p =>
    if ev.enabled p.2 = true ∧ p.1 ≤ ev.time p.1 then
      match p.2.handle ev with
      | .ok c' => runsAt evs (ev.time p.1, c')
      | .error _ => none
    else none

theorem CRssi.timedSteps_of_runsAt {evs : List Event} {p p' : ℕ × CRssi}
    (h : CRssi.runsAt evs p = some p') : Relation.ReflTransGen TimedStep p p' := by
  induction evs generalizing p with
  | nil =>
    obtain rfl := Option.some.inj h
    exact .refl
  | cons ev evs ih =>
    unfold runsAt at h
    split_ifs at h with he
    split at h
    · rename_i c₁ h₁
      refine .head ⟨ev, he.1, h₁, he.2, fun clk hc ↦ ?_⟩ (ih h)
      change clk.now = (ev.clock?.map Clock.now).getD p.1
      rw [hc]
      rfl
    · cases h

theorem reachableAt_of_runsAt {α : Type} {cfg : Config} {j : Junk} {evs : List Event} {T₀ : ℕ}
    {f : CRssi → α} {a : α}
    (h : (CRssi.runsAt evs (T₀, CRssi.new cfg j)).map (fun p ↦ (p.1, f p.2)) = some (T, a)) :
    ∃ c, ReachableAt T c ∧ f c = a := by
  obtain ⟨p, hp, hf⟩ := Option.map_eq_some_iff.1 h
  obtain ⟨rfl, rfl⟩ := Prod.mk.inj hf
  exact ⟨p.2, ⟨cfg, j, T₀, CRssi.timedSteps_of_runsAt hp⟩, rfl⟩

theorem KeepsDeadline.trans {c'' : CRssi} (h : KeepsDeadline c c') (h' : KeepsDeadline c' c'') :
    KeepsDeadline c c'' := by
  intro t hm
  obtain ⟨t₁, h₁, hm₁⟩ := h t hm
  obtain ⟨t₂, h₂, hm₂⟩ := h' t₁ hm₁
  exact ⟨t₂, h₂.trans h₁, hm₂⟩

theorem waiting_keeps {p p' : ℕ × CRssi} (hr : ReachableAt p.1 p.2)
    (h : Relation.ReflTransGen Waiting p p') : ReachableAt p'.1 p'.2 ∧ KeepsDeadline p.2 p'.2 := by
  induction h with
  | refl => exact ⟨hr, fun t hm ↦ ⟨t, le_rfl, hm⟩⟩
  | tail _ hs ih =>
    obtain ⟨hreach, hk⟩ := ih
    obtain ⟨hopen, ho, ev, hen, hpost, hh, hle, hclk⟩ := hs
    exact ⟨hreach.step ⟨ev, hen, hh, hle, hclk⟩, hk.trans ((keeps_iff hreach.reachable hopen hh ho).2 hpost)⟩

/-- A data segment that is not acknowledged at once will be within the time-out. -/
theorem receives_due {bc : RxBuf} {clk : Clock} (hr : ReachableAt T c) (hopen : c.state.isOpen = true)
    (hd : c.Receives bc) (hT : T ≤ clk.now) (h : c.handle (.rx bc clk) = .ok c') (ho : c'.out = c.out) :
    ∃ t ≤ clk.now + c.prm.cakTO, (.ACK, t) ∈ c'.timers := by
  have ht := hr.ackTimed
  obtain ⟨q, hw⟩ := hr.reachable.window
  have ht' := CRssi.handle_timed (ht.mono hT) hw (fun _ hc ↦ by cases hc; exact le_rfl) h
  replace h := CRssi.wait_bind_ok h
  obtain ⟨c₂, h₂, hc'⟩ := CRssi.handleRxEvent_open (c := c.clearChanges) hopen h
  have htc : AckTimed T c.clearChanges := ht.moves (.none rfl rfl id rfl (.of_eq rfl))
  have hsame : c'.out = c₂.out ∧ c'.numCak = c₂.numCak ∧ c'.prm = c₂.prm := by
    rw [hc']
    split_ifs <;> exact ⟨rfl, rfl, rfl⟩
  obtain ⟨hone, hprm⟩ := CRssi.rxBase_receives htc hw.holds (STATE.early_of_isOpen hopen) hd h₂
    (hsame.1.symm.trans ho)
  obtain ⟨t, hm⟩ := ht'.armed.2 (hsame.2.1 ▸ hone)
  have hdue := ht'.due t hm
  rw [hsame.2.2, hprm] at hdue
  exact ⟨t, hdue, hm⟩

/-- The ACK timer moves to a later time exactly when a pure ACK comes while a single segment waits
for its ACK. Over a run of the open states without such a step nothing moves it to a later time
until something goes out, and a data segment is acknowledged within the time-out. -/
theorem ack_deadline (hr : ReachableAt T c) :
    (∀ ev c', c.state.isOpen = true → c.handle ev = .ok c' → c'.out = c.out →
      (KeepsDeadline c c' ↔ ¬c.Postpones ev)) ∧
    (∀ T' c', Relation.ReflTransGen Waiting (T, c) (T', c') → KeepsDeadline c c') ∧
    (∀ bc clk c₁ T' c', c.state.isOpen = true → (Event.rx bc clk).enabled c = true → c.Receives bc →
      T ≤ clk.now → c.handle (.rx bc clk) = .ok c₁ → c₁.out = c.out →
      Relation.ReflTransGen Waiting (clk.now, c₁) (T', c') →
      ∃ t ≤ clk.now + c.prm.cakTO, (.ACK, t) ∈ c'.timers) := by
  refine ⟨fun ev c' hopen h ho ↦ keeps_iff hr.reachable hopen h ho,
    fun T' c' hrun ↦ (waiting_keeps (p := (T, c)) hr hrun).2, ?_⟩
  intro bc clk c₁ T' c' hopen hen hd hT h ho hrun
  obtain ⟨t, hle, hm⟩ := receives_due hr hopen hd hT h ho
  have hr₁ : ReachableAt clk.now c₁ :=
    hr.step ⟨_, hen, h, hT, fun _ hc ↦ by cases hc; rfl⟩
  obtain ⟨t', hle', hm'⟩ := (waiting_keeps (p := (clk.now, c₁)) hr₁ hrun).2 t hm
  exact ⟨t', hle'.trans hle, hm'⟩

/-- Segments have been consumed that nothing sent so far acknowledges. -/
def CRssi.Unacked (c : CRssi) : Prop := ∀ e ∈ c.out, e.rcv.consumed.length < c.rcv.consumed.length

/-- A data segment comes at the time 4, and a pure ACK at the time 10. -/
def pureAckEvent : Event := .rx (datagram [64, 8, 9, 248, 0, 0, 0, 0]) ⟨10, 7⟩

theorem put_off : ∃ c c', ReachableAt 4 c ∧ c.state.isOpen = true ∧ c.Unacked ∧
    pureAckEvent.enabled c = true ∧ c.handle pureAckEvent = .ok c' ∧ c'.out = c.out ∧
    (.ACK, 50004) ∈ c.timers ∧ ∀ t, (.ACK, t) ∈ c'.timers → t = 50010 := by
  have hrun : (CRssi.runsAt (serverOpens ++ [.rx (datagram [64, 8, 8, 248, 0, 0, 0, 0, 42]) ⟨4, 7⟩])
      (0, CRssi.new (smallConfig true) zeroJunk)).map (fun p ↦ (p.1, p.2.state.isOpen,
        p.2.out.all (fun e ↦ e.rcv.consumed.length < p.2.rcv.consumed.length), pureAckEvent.enabled p.2,
        p.2.timers, (p.2.handle pureAckEvent).toOption.map fun c' ↦ (c'.out.length == p.2.out.length, c'.timers))) =
      some (4, true, true, true, [(.ACK, 50004), (.NUL, 3000004)],
        some (true, [(.ACK, 50010), (.NUL, 3000010)])) := by rfl
  obtain ⟨c, hc, hf⟩ := reachableAt_of_runsAt (f := fun c ↦ (c.state.isOpen,
    c.out.all (fun e ↦ e.rcv.consumed.length < c.rcv.consumed.length), pureAckEvent.enabled c, c.timers,
    (c.handle pureAckEvent).toOption.map fun c' ↦ (c'.out.length == c.out.length, c'.timers))) hrun
  simp only [Prod.mk.injEq] at hf
  obtain ⟨ho, hu, hen, htim, hh⟩ := hf
  obtain ⟨c', hc', hf⟩ := Option.map_eq_some_iff.1 hh
  obtain ⟨hlen, htim'⟩ := Prod.mk.inj hf
  have hh := toOption_eq_some.1 hc'
  obtain ⟨q, hw⟩ := hc.reachable.window
  obtain ⟨c₁, hout, -, ht⟩ := CRssi.handle_speaks hw.holds ho hh
  obtain ⟨l, hl, -⟩ := ht.out
  rw [hout] at hl
  have hpre : c.out <+: c'.out := ⟨l, hl.symm⟩
  refine ⟨c, c', hc, ho, fun e he ↦ ?_, hen, hh, (hpre.eq_of_length (beq_iff_eq.1 hlen).symm).symm, ?_, fun t ht ↦ ?_⟩
  · exact of_decide_eq_true (List.all_eq_true.1 hu e he)
  · rw [htim]
    exact List.mem_cons_self
  · rw [htim'] at ht
    simpa using ht

theorem ack_deadline_put_off : ∃ c c', ReachableAt 4 c ∧ c.handle pureAckEvent = .ok c' ∧
    (KeepsDeadline c c' ↔ ¬c.Postpones pureAckEvent) := by
  obtain ⟨c, c', hc, ho, -, -, hh, hout, -⟩ := put_off
  exact ⟨c, c', hc, hh, (ack_deadline hc).1 _ _ ho hh hout⟩

theorem not_keepsDeadline : ¬∀ T c ev c', ReachableAt T c → c.state.isOpen = true → c.Unacked →
    ev.enabled c = true → c.handle ev = .ok c' → T ≤ ev.time T → c'.out = c.out → KeepsDeadline c c' := by
  intro h
  obtain ⟨c, c', hc, ho, hu, hen, hh, hout, hm, hall⟩ := put_off
  obtain ⟨t', hle, hm'⟩ := h 4 c _ c' hc ho hu hen hh (by decide) hout 50004 hm
  have ht := hall t' hm'
  omega

end Cpsw.Rssi
