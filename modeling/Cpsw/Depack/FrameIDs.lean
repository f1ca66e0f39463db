import Cpsw.Depack.Accept

namespace Cpsw.Depack

open Cpsw.Lib.Circular Cpsw.Lib.Run

namespace CProtoModDepack

variable {s s' : CProtoModDepack} {P : ℕ → CFrame → Prop} {base : ℕ}

theorem releaseOldestFrame_cfg (o : Bool) (s : CProtoModDepack) :
    (s.releaseOldestFrame o).2.cfg = s.cfg := by
  unfold releaseOldestFrame
  split_ifs <;> rfl

theorem releaseLoop_cfg (o : Bool) (n : ℕ) (s : CProtoModDepack) :
    (releaseLoop o n s).cfg = s.cfg := by
  induction n generalizing s with
  | zero => rfl
  | succ n ih =>
    have hc := releaseOldestFrame_cfg o s
    unfold releaseLoop
    split
    · rename_i t ht
      rwa [ht] at hc
    · rename_i t ht
      rw [ht] at hc
      rw [ih, hc]

theorem releaseFrames_cfg (o : Bool) (s : CProtoModDepack) : (s.releaseFrames o).cfg = s.cfg :=
  releaseLoop_cfg o _ s

theorem Slots.releaseFrames (hP : FrameInv s.cfg.fragWinSize P) (h : Slots P base s) (o : Bool) :
    ∃ b, Slots P b (s.releaseFrames o) := by
  have step : ∀ b t, (Slots P b t ∧ t.cfg = s.cfg) → t.oldestFrame ≠ NO_FRAME →
      t.oldest.running = true → Slots P (b + 1) t.dropOldest ∧ t.dropOldest.cfg = s.cfg :=
    fun b t ht _ _ ↦ ⟨ht.1.dropOldest (ht.2 ▸ hP), ht.2⟩
  obtain ⟨b, hb, -⟩ := releaseLoop_inv o s.cfg.frameWinSize step ⟨h, rfl⟩
  exact ⟨b, hb⟩

theorem Slots.releaseFrames_idle (hP : FrameInv s.cfg.fragWinSize P) (h : Slots P base s) :
    Idle (s.releaseFrames false) := by
  obtain ⟨b, hb⟩ := h.releaseFrames hP false
  have hc := releaseFrames_cfg false s
  refine hb.idle (hc ▸ hP) (fun k hk ↦ ?_)
  rw [hc] at hk
  exact releaseLoop_idle hP _ h (fun j hj hWj ↦ absurd hj (Nat.not_lt_of_le hWj)) k hk

/-- A resynchronisation leaves the window empty; it may count on from any number. -/
theorem Slots.frameSync (hP : FrameInv s.cfg.fragWinSize P) (h : Slots P base s) {f b : ℕ}
    (hs : s.needsSync f = true) (hb : (f + 1) % 4096 = b % 4096) : Slots P b (s.frameSync f) := by
  unfold CProtoModDepack.frameSync
  rw [if_pos hs]
  have hc := releaseFrames_cfg false s
  exact (h.releaseFrames_idle hP).slots (hc ▸ hP) hb

theorem frameSync_cfg (f : ℕ) (s : CProtoModDepack) : (s.frameSync f).cfg = s.cfg := by
  unfold frameSync
  split_ifs
  · exact releaseFrames_cfg false s
  · rfl

theorem frameSync_self {f : ℕ} (h : s.needsSync f = false) : s.frameSync f = s := by
  unfold frameSync
  rw [h]
  rfl

/-- Where there is no oldest frame yet, there is nothing to release. -/
theorem releaseOldestFrame_noFrame (h : s.oldestFrame = NO_FRAME) (o : Bool) :
    s.releaseOldestFrame o = (false, s) := if_pos h

theorem releaseFrames_noFrame (h : s.oldestFrame = NO_FRAME) (o : Bool) : s.releaseFrames o = s := by
  have hr := releaseOldestFrame_noFrame h o
  unfold releaseFrames
  cases hn : s.cfg.frameWinSize with
  | zero => rfl
  | succ n =>
    unfold releaseLoop
    rw [hr]

/-- Either nothing has been received that counts, or there is an oldest frame. -/
def Inv (P : ℕ → CFrame → Prop) (s : CProtoModDepack) : Prop :=
  s.oldestFrame = NO_FRAME ∧ Idle s ∨ ∃ b, Slots P b s

theorem Inv.releaseFrames (hP : FrameInv s.cfg.fragWinSize P) (h : Inv P s) (o : Bool) :
    Inv P (s.releaseFrames o) := by
  rcases h with ⟨hn, hi⟩ | ⟨b, hb⟩
  · rw [releaseFrames_noFrame hn]
    exact .inl ⟨hn, hi⟩
  · exact .inr (hb.releaseFrames hP o)

theorem Inv.releaseOldestFrame (hP : FrameInv s.cfg.fragWinSize P) (h : Inv P s) :
    Inv P (s.releaseOldestFrame false).2 := by
  cases hr : s.releaseOldestFrame false with
  | mk released s' =>
    cases released with
    | false =>
      obtain ⟨rfl, -⟩ := release_false hr
      exact h
    | true =>
      obtain ⟨rfl, hn, -, -⟩ := release_true hr
      rcases h with ⟨hn', -⟩ | ⟨b, hb⟩
      · exact absurd hn' hn
      · exact .inr ⟨b + 1, hb.dropOldest hP⟩

/-- A fragment of the frame that is one window ahead of the oldest one, whose slot it would take
over while the timeout of the oldest frame does not run. -/
def Overtakes (i : Input) (s : CProtoModDepack) : Prop :=
  ∃ bh rest hdr, i = .datagram (bh :: rest) ∧
    CAxisFrameHeader.parse bh.getPayload bh.getSize = some hdr ∧
    s.oldestFrame ≤ hdr.frameNo ∧ s.relOff hdr.frameNo = s.cfg.frameWinSize ∧
    s.oldest.running = false ∧ hdr.fragNo < s.cfg.fragWinSize

/-- Each slot that is taken is taken by a frame within the window, and is the slot of this frame. -/
def InWindow (s : CProtoModDepack) : Prop :=
  ∀ i < s.cfg.frameWinSize, (s.frameAt i).frameID ≠ NO_FRAME →
    s.oldestFrame < 4096 ∧ s.ahead (s.frameAt i).frameID < s.cfg.frameWinSize ∧
      i = (s.frameAt i).frameID &&& (s.cfg.frameWinSize - 1)

theorem shape_frameInv (F : ℕ) : FrameInv F fun n f ↦ f.Shape F n := by
  have hopen : ∀ n : ℕ, n % 4096 ≠ NO_FRAME := by
    intro n
    unfold NO_FRAME
    omega
  refine ⟨fun _ _ h ↦ h, fun n f h ↦ ?_, fun n f h ↦ ?_, fun n f h ↦ ?_⟩
  · refine ⟨?_, fun _ ↦ h, fun _ ↦ h, fun hn ↦ absurd h.frameID hn⟩
    rw [h.fragWin, List.length_replicate]
  · refine ⟨h.length, nofun, fun he ↦ ?_, h.frameID⟩
    obtain ⟨h₁, h₂, h₃, h₄, h₅, h₆, h₇⟩ := h.empty he
    exact ⟨h₁, h₂, h₃, h₄, h₅, h₆, h₇⟩
  · refine ⟨?_, nofun, fun he ↦ absurd he (hopen n), fun _ ↦ rfl⟩
    change f.fragWin.length = F
    rw [h.fragWin, List.length_replicate]

theorem Inv.inWindow (h : Inv (fun n f ↦ f.Shape s.cfg.fragWinSize n) s) : InWindow s := by
  intro i hi hid
  rcases h with ⟨-, hidle⟩ | ⟨b, hb⟩
  · exact absurd (hidle.blank i hi).frameID hid
  · obtain ⟨k, hk, rfl⟩ := slotIdx_surj (s := s) hi
    have hf : (s.slot k).frameID = (b + k) % 4096 := (hb.holds k hk).frameID hid
    change s.oldestFrame < 4096 ∧ s.ahead (s.slot k).frameID < _ ∧ _ = (s.slot k).frameID &&& _
    have ho := hb.oldest
    have hW := s.cfg.frameWinSize_le
    rw [hf]
    refine ⟨by omega, ?_, (hb.slotIdx_eq k).symm⟩
    unfold ahead
    omega

/-- What a fragment does to a window that keeps to its frames. -/
theorem Slots.testedFrag {hdr : CAxisFrameHeader} (bc : BufChain)
    (h : Slots (fun n f ↦ f.Shape s.cfg.fragWinSize n) base s) (hf : hdr.frameNo < 4096)
    (ho : ¬(s.oldestFrame ≤ hdr.frameNo ∧ s.relOff hdr.frameNo = s.cfg.frameWinSize ∧
      s.oldest.running = false ∧ hdr.fragNo < s.cfg.fragWinSize)) :
    s.testedFrag hdr bc ≠ .error .frameIDWindow ∧ ∀ s', s.testedFrag hdr bc = .ok s' →
      s'.cfg = s.cfg ∧ ∃ b, Slots (fun n f ↦ f.Shape s.cfg.fragWinSize n) b s' := by
  have hP := shape_frameInv s.cfg.fragWinSize
  have hpos := s.cfg.frameWinSize_pos
  have ho4 : s.oldestFrame < 4096 := by
    rw [h.oldest]
    omega
  have accept : ∀ (t : CProtoModDepack) (b k : ℕ), t.cfg = s.cfg →
      Slots (fun n f ↦ f.Shape s.cfg.fragWinSize n) b t → k < s.cfg.frameWinSize →
      hdr.frameNo = (b + k) % 4096 →
      t.acceptFrag hdr bc ≠ .error .frameIDWindow ∧ ∀ s', t.acceptFrag hdr bc = .ok s' →
        s'.cfg = s.cfg ∧ ∃ b, Slots (fun n f ↦ f.Shape s.cfg.fragWinSize n) b s' := by
    intro t b k hc ht hk hfk
    have hPt : FrameInv t.cfg.fragWinSize fun n f ↦ f.Shape s.cfg.fragWinSize n := hc ▸ hP
    have hkt : k < t.cfg.frameWinSize := hc ▸ hk
    rcases ht.acceptFrag hPt hkt hfk with he | ⟨u, hu, he⟩
    · rw [he]
      refine ⟨nofun, fun s' hs ↦ ?_⟩
      obtain rfl := Except.ok.inj hs
      exact ⟨hc, b, ht⟩
    · rw [he]
      refine ⟨fun hs ↦ ?_, fun s' hs ↦ ?_⟩
      · obtain ⟨e', he', -⟩ := storeFrag_error hs
        contradiction
      · obtain ⟨bc', -, rfl⟩ := storeFrag_ok hs
        have hku : k < u.cfg.frameWinSize := hu.cfg ▸ hkt
        have hshape := hu.slots.holds k hku
        refine ⟨hu.cfg.trans hc, b, hu.stored hPt hkt ?_⟩
        exact hshape.stored hu.frameID (hshape.running hu.frameID) _ _ _
  unfold CProtoModDepack.testedFrag
  cases hv : s.frameTest hdr.frameNo with
  | pass =>
    have hk : hdr.frameNo ≥ s.oldestFrame ∧ s.relOff hdr.frameNo < s.cfg.frameWinSize := by
      unfold frameTest at hv
      split_ifs at hv
      omega
    refine accept s base (s.ahead hdr.frameNo) rfl h ?_ ?_
    · rw [← relOff_eq ho4]
      exact hk.2
    · have := h.oldest
      unfold ahead
      omega
  | drop resync =>
    refine ⟨nofun, fun s' hs ↦ ?_⟩
    obtain rfl := Except.ok.inj hs
    refine ⟨frameSync_cfg _ s, ?_⟩
    cases hn : s.needsSync hdr.frameNo with
    | false =>
      rw [frameSync_self hn]
      exact ⟨base, h⟩
    | true => exact ⟨_, h.frameSync hP hn rfl⟩
  | evict =>
    have hk : hdr.frameNo ≥ s.oldestFrame ∧ s.relOff hdr.frameNo = s.cfg.frameWinSize := by
      unfold frameTest at hv
      split_ifs at hv
      omega
    have hfW : hdr.frameNo = (base + s.cfg.frameWinSize) % 4096 := by
      have h₁ := h.oldest
      have h₂ := hk.2
      rw [relOff_eq ho4] at h₂
      unfold ahead at h₂
      omega
    cases hr : s.releaseOldestFrame false with
    | mk released s' =>
      cases released with
      | true =>
        obtain ⟨rfl, -, -, -⟩ := release_true hr
        refine accept s.dropOldest (base + 1) (s.cfg.frameWinSize - 1) rfl (h.dropOldest hP)
          (by omega) ?_
        rw [hfW]
        congr 1
        omega
      | false =>
        obtain ⟨rfl, hcase⟩ := release_false hr
        have hrun : s'.oldest.running = false := by
          rcases hcase with hc | hc | ⟨hc, -⟩
          · exact absurd hc h.ne_noFrame
          · exact hc
          · contradiction
        -- the fragment would have to lie in the window of a frame that has none yet
        have hfrag : s'.cfg.fragWinSize ≤ hdr.fragNo := by
          by_contra hlt
          exact ho ⟨hk.1, hk.2, hrun, Nat.lt_of_not_le hlt⟩
        have hidx : s'.toFrameIdx hdr.frameNo = s'.toFrameIdx s'.oldestFrame := by
          rw [hfW, h.slotIdx_eq, slotIdx, toFrameIdx_eq, toFrameIdx_eq, Nat.add_mod_right]
        have h0 : s'.oldest.oldestFrag = 0 := ((h.holds 0 hpos).idle hrun).oldestFrag
        have he : s'.acceptFrag hdr bc = .ok s' := by
          unfold CProtoModDepack.acceptFrag
          simp only [hidx]
          change (if hdr.fragNo < s'.oldest.oldestFrag then _
            else if hdr.fragNo ≥ s'.oldest.oldestFrag + s'.cfg.fragWinSize then _ else _) = _
          rw [h0, if_neg (by omega), if_pos (by omega)]
        change s'.acceptFrag hdr bc ≠ _ ∧ ∀ t, s'.acceptFrag hdr bc = .ok t → _
        rw [he]
        refine ⟨nofun, fun t ht ↦ ?_⟩
        obtain rfl := Except.ok.inj ht
        exact ⟨rfl, base, h⟩

theorem Inv.processBuffer {bc : BufChain} (h : Inv (fun n f ↦ f.Shape s.cfg.fragWinSize n) s)
    (ho : ¬Overtakes (.datagram bc) s) :
    s.processBuffer bc ≠ .error .frameIDWindow ∧ ∀ s', s.processBuffer bc = .ok s' →
      s'.cfg = s.cfg ∧ Inv (fun n f ↦ f.Shape s.cfg.fragWinSize n) s' := by
  have hP := shape_frameInv s.cfg.fragWinSize
  unfold CProtoModDepack.processBuffer
  match bc with
  | [] => exact ⟨nofun, nofun⟩
  | bh :: rest =>
    dsimp only
    cases hp : CAxisFrameHeader.parse bh.getPayload bh.getSize with
    | none =>
      refine ⟨nofun, fun s' hs ↦ ?_⟩
      obtain rfl := Except.ok.inj hs
      exact ⟨rfl, h⟩
    | some hdr =>
      have hf := (parse_frameNo_lt hp).1
      have hgood : ¬(s.oldestFrame ≤ hdr.frameNo ∧ s.relOff hdr.frameNo = s.cfg.frameWinSize ∧
          s.oldest.running = false ∧ hdr.fragNo < s.cfg.fragWinSize) :=
        fun hc ↦ ho ⟨bh, rest, hdr, rfl, hp, hc⟩
      dsimp only
      rcases h with ⟨hn, hidle⟩ | ⟨b, hb⟩
      · by_cases h0 : hdr.fragNo = 0
        · have ha : s.adopt hdr = { s with oldestFrame := hdr.frameNo } := if_pos ⟨hn, h0⟩
          have hs := hidle.slots hP (Nat.mod_eq_of_lt hf).symm
          have hr : ({ s with oldestFrame := hdr.frameNo } : CProtoModDepack).relOff hdr.frameNo = 0 := by
            unfold relOff CAxisFrameHeader.moduloFrameSz FRAME_NO_BIT_SIZE
            change (hdr.frameNo + (4294967296 - hdr.frameNo)) % 4096 = 0
            omega
          rw [ha]
          obtain ⟨h₁, h₂⟩ := hs.testedFrag (bh :: rest) hf
            (fun hc ↦ by
              have := s.cfg.frameWinSize_pos
              have := hc.2.1
              rw [hr] at this
              change 0 = s.cfg.frameWinSize at this
              omega)
          refine ⟨h₁, fun s' hs' ↦ ?_⟩
          obtain ⟨hc, hb⟩ := h₂ s' hs'
          exact ⟨hc, .inr hb⟩
        · have ha : s.adopt hdr = s := if_neg (fun hc ↦ h0 hc.2)
          have ht : ∃ r, s.frameTest hdr.frameNo = .drop r :=
            ⟨_, if_pos (by rw [hn]; unfold NO_FRAME; omega)⟩
          obtain ⟨r, ht⟩ := ht
          rw [ha]
          unfold CProtoModDepack.testedFrag
          rw [ht]
          refine ⟨nofun, fun s' hs ↦ ?_⟩
          obtain rfl := Except.ok.inj hs
          refine ⟨frameSync_cfg _ s, ?_⟩
          unfold CProtoModDepack.frameSync
          split_ifs
          · rw [releaseFrames_noFrame hn]
            exact .inr ⟨_, hidle.slots hP rfl⟩
          · exact .inl ⟨hn, hidle⟩
      · have ha : s.adopt hdr = s := if_neg (fun hc ↦ hb.ne_noFrame hc.1)
        rw [ha]
        obtain ⟨h₁, h₂⟩ := hb.testedFrag (bh :: rest) hf hgood
        refine ⟨h₁, fun s' hs' ↦ ?_⟩
        obtain ⟨hc, hb'⟩ := h₂ s' hs'
        exact ⟨hc, .inr hb'⟩

theorem Inv.receive {i : Input} (h : Inv (fun n f ↦ f.Shape s.cfg.fragWinSize n) s)
    (ho : ¬Overtakes i s) :
    s.receive i ≠ .error .frameIDWindow ∧ ∀ s', s.receive i = .ok s' →
      s'.cfg = s.cfg ∧ Inv (fun n f ↦ f.Shape s.cfg.fragWinSize n) s' := by
  have hP := shape_frameInv s.cfg.fragWinSize
  cases i with
  | timeout =>
    refine ⟨nofun, fun s' hs ↦ ?_⟩
    obtain rfl := Except.ok.inj hs
    have hc := releaseOldestFrame_cfg false s
    exact ⟨(releaseFrames_cfg true _).trans hc,
      (h.releaseOldestFrame hP).releaseFrames (hc ▸ hP) true⟩
  | datagram bc =>
    obtain ⟨h₁, h₂⟩ := h.processBuffer ho
    refine ⟨fun he ↦ ?_, fun s' hs ↦ ?_⟩
    · cases hb : s.processBuffer bc with
      | ok t =>
        rw [CProtoModDepack.receive, hb] at he
        cases he
      | error e =>
        rw [CProtoModDepack.receive, hb] at he
        exact h₁ (hb.trans he)
    · obtain ⟨t, ht, hs⟩ := bind_ok.1 hs
      obtain rfl := Except.ok.inj hs
      obtain ⟨hc, hi⟩ := h₂ t ht
      exact ⟨(releaseFrames_cfg true t).trans hc, hi.releaseFrames (hc ▸ hP) true⟩

/-- One input that does not let a frame overtake the oldest one. -/
def Step (s s' : CProtoModDepack) : Prop := ∃ i, ¬Overtakes i s ∧ s.receive i = .ok s'

/-- Whatever is received, in whatever order: as long as no frame overtakes the oldest one, the slots
hold frames of the window, each in its own place, and no frame is found in the slot of another. -/
theorem run_inWindow (cfg : Config) {s : CProtoModDepack}
    (h : Relation.ReflTransGen Step (new cfg) s) :
    InWindow s ∧ ∀ i, ¬Overtakes i s → s.receive i ≠ .error .frameIDWindow := by
  have hi : s.cfg = cfg ∧ Inv (fun n f ↦ f.Shape cfg.fragWinSize n) s := by
    refine invariant (I := fun s ↦ s.cfg = cfg ∧ Inv (fun n f ↦ f.Shape cfg.fragWinSize n) s)
      (fun a b ha hab ↦ ?_) h ⟨rfl, .inl ⟨rfl, idle_new cfg⟩⟩
    obtain ⟨rfl, hinv⟩ := ha
    obtain ⟨i, hgood, hr⟩ := hab
    exact (hinv.receive hgood).2 b hr
  obtain ⟨rfl, hinv⟩ := hi
  exact ⟨hinv.inWindow, fun i hgood ↦ (hinv.receive hgood).1⟩

theorem run_inWindow_once : ∃ s, Relation.ReflTransGen Step (new rssiConfig) s ∧ s.pushed ≠ [] ∧
    InWindow s ∧ ∀ i, ¬Overtakes i s → s.receive i ≠ .error .frameIDWindow := by
  let i := datagram [0x00, 0, 0, 0, 0, 0, 0, 2, 42, 0x80]
  have hrun : ((new rssiConfig).receive i).toOption.map (fun s ↦ s.pushed.length) = some 1 := by
    decide +kernel
  obtain ⟨s, hs, hl⟩ := Option.map_eq_some_iff.1 hrun
  have hok := toOption_eq_some.1 hs
  have hgood : ¬Overtakes i (new rssiConfig) := by
    rintro ⟨bh, rest, hdr, -, hp, hle, -⟩
    have hf := (parse_frameNo_lt hp).1
    change 16777216 ≤ hdr.frameNo at hle
    omega
  have h : Relation.ReflTransGen Step (new rssiConfig) s := .single ⟨i, hgood, hok⟩
  refine ⟨s, h, fun hn ↦ ?_, run_inWindow rssiConfig h⟩
  rw [hn] at hl
  contradiction

/-- After frame 0, in a single fragment, the first fragment of frame 3 takes the slot of frame 1,
and the second fragment of frame 1 then ends the thread. -/
theorem not_inWindow_overtaking : ∃ s₁ s₂,
    (new rssiConfig).receive (datagram [0x00, 0, 0, 0, 0, 0, 0, 2, 42, 0x80]) = .ok s₁ ∧
      s₁.receive (datagram [0x30, 0, 0, 0, 0, 0, 0, 2, 42, 0]) = .ok s₂ ∧ ¬InWindow s₂ ∧
        s₂.receive (datagram [0x10, 0, 1, 0, 0, 0, 0, 0, 42, 0]) = .error .frameIDWindow := by
  let i₁ := datagram [0x00, 0, 0, 0, 0, 0, 0, 2, 42, 0x80]
  let i₂ := datagram [0x30, 0, 0, 0, 0, 0, 0, 2, 42, 0]
  let i₃ := datagram [0x10, 0, 1, 0, 0, 0, 0, 0, 42, 0]
  have hrun : ((new rssiConfig).receive i₁ >>= fun s ↦ s.receive i₂).toOption.map
      (fun s ↦ (s.cfg.frameWinSize, (s.frameAt 1).frameID, s.ahead 3,
        match s.receive i₃ with | .ok _ => none | .error e => some e)) =
      some (2, 3, 2, some .frameIDWindow) := by decide +kernel
  obtain ⟨s₂, hs, hf⟩ := Option.map_eq_some_iff.1 hrun
  simp only [Prod.mk.injEq] at hf
  obtain ⟨hW, hid, hahead, herr⟩ := hf
  obtain ⟨s₁, h₁, h₂⟩ := bind_ok.1 (toOption_eq_some.1 hs)
  refine ⟨s₁, s₂, h₁, h₂, fun hin ↦ ?_, ?_⟩
  · have := (hin 1 (by omega) (by rw [hid]; decide)).2.1
    rw [hid] at this
    omega
  · split at herr
    · cases herr
    · rename_i e he
      rw [he, Option.some.inj herr]

end CProtoModDepack

end Cpsw.Depack
