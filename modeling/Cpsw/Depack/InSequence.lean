import Cpsw.Depack.Reassembly

namespace Cpsw.Depack

open Cpsw.Lib.Circular Cpsw.Lib.Run

variable {ps : List Bytes} {f m : ℕ} {p : Bytes} {bc : BufChain}

/-- The first `m` fragments of the frame `f` have come, each after the one before. -/
structure CFrame.Collected (ps : List Bytes) (f m F : ℕ) (fr : CFrame) : Prop where
  frameID : fr.frameID = f
  oldestFrag : fr.oldestFrag = m
  nFrags : fr.nFrags = m
  lastFrag : fr.lastFrag = NO_FRAG
  fragWin : fr.fragWin = List.replicate F none
  isComplete : fr.isComplete = false
  running : fr.running = true
  prod : ∃ c : BufChain, fr.prod = some c ∧ c.bytes = assembled ps m

theorem chainLoop_none {k : ℕ} {fr : CFrame}
    (h : fr.fragWin.getD (fr.oldestFrag &&& (fr.fragWin.length - 1)) none = none) :
    CFrame.chainLoop k fr = fr := by
  cases k with
  | zero => rfl
  | succ k =>
    unfold CFrame.chainLoop
    simp only [h]

/-- A fragment that comes in its order goes to the chain at once. -/
theorem CFrame.Collected.chainLoop {fr : CFrame} (c : Config)
    (h : fr.Collected ps f m c.fragWinSize) (lastFrag : ℕ)
    (hbc : bc.bytes = kept m (ps.length - 1) (ps.getD m [])) :
    ∃ g : CFrame, CFrame.chainLoop c.fragWinSize { fr with
        fragWin := fr.fragWin.set (m &&& (c.fragWinSize - 1)) (some bc), lastFrag := lastFrag } = g ∧
      g.frameID = f ∧ g.oldestFrag = m + 1 ∧ g.nFrags = m + 1 ∧ g.lastFrag = lastFrag ∧
      g.fragWin = List.replicate c.fragWinSize none ∧ g.isComplete = false ∧ g.running = true ∧
      ∃ d : BufChain, g.prod = some d ∧ d.bytes = assembled ps (m + 1) := by
  have hpos : 0 < c.fragWinSize := Nat.two_pow_pos _
  obtain ⟨k, hk⟩ : ∃ k, c.fragWinSize = k + 1 := ⟨c.fragWinSize - 1, by omega⟩
  obtain ⟨d, hd, hbytes⟩ := h.prod
  have hlt : m &&& (c.fragWinSize - 1) < c.fragWinSize := by
    have : m &&& (c.fragWinSize - 1) = m % c.fragWinSize := land_mask _ _
    rw [this]
    exact Nat.mod_lt _ hpos
  have hlen : fr.fragWin.length = c.fragWinSize := by
    rw [h.fragWin, List.length_replicate]
  have hset : (fr.fragWin.set (m &&& (c.fragWinSize - 1)) (some bc)).set
      (m &&& (c.fragWinSize - 1)) none = List.replicate c.fragWinSize none := by
    rw [List.set_set, h.fragWin, List.set_replicate_self]
  have hget : (fr.fragWin.set (m &&& (c.fragWinSize - 1)) (some bc)).getD
      (m &&& (c.fragWinSize - 1)) none = some bc := by
    simp [List.getD_eq_getElem?_getD, hlen, hlt]
  refine ⟨{ fr with
    prod := some (d ++ bc), nFrags := m + 1, oldestFrag := m + 1, lastFrag := lastFrag
    fragWin := List.replicate c.fragWinSize none }, ?_, h.frameID, rfl, rfl, rfl, rfl, h.isComplete,
    h.running, d ++ bc, rfl, ?_⟩
  · conv_lhs => rw [hk]
    unfold CFrame.chainLoop
    simp only [h.oldestFrag, h.nFrags, List.length_set, hlen, ← hk, hget, hset, hd, Option.getD_some]
    apply chainLoop_none
    simp only [List.length_replicate, List.getD_eq_getElem?_getD, List.getElem?_replicate]
    split_ifs <;> rfl
  · rw [BufChain.bytes_append, hbytes, hbc, assembled_succ]

namespace CProtoModDepack

variable {s : CProtoModDepack}

/-- A receiver to which the first `m` fragments of the frame `f` have come, and nothing else. -/
structure InSequence (ps : List Bytes) (f m : ℕ) (s : CProtoModDepack) : Prop where
  length : s.frameWin.length = s.cfg.frameWinSize
  oldestFrame : s.oldestFrame = f
  oldest : s.oldest.Collected ps f m s.cfg.fragWinSize
  others : ∀ i < s.cfg.frameWinSize, i ≠ s.toFrameIdx f → (s.frameAt i).running = false
  pushed : s.pushed = []

theorem releaseLoop_stop {o : Bool} (h : s.releaseOldestFrame o = (false, s)) (n : ℕ) :
    releaseLoop o n s = s := by
  cases n with
  | zero => rfl
  | succ n =>
    unfold releaseLoop
    rw [h]

theorem releaseOldestFrame_stop (h : s.oldest.running = false) (o : Bool) :
    s.releaseOldestFrame o = (false, s) := by
  unfold releaseOldestFrame
  rw [h]
  simp

theorem toFrameIdx_lt (n : ℕ) : s.toFrameIdx n < s.cfg.frameWinSize := by
  rw [toFrameIdx_eq]
  exact Nat.mod_lt _ s.cfg.frameWinSize_pos

/-- What the next fragment makes of the frame: it goes on, or it is complete and passed on. -/
theorem InSequence.store (hps : Fragments f ps) (hf : f < 4096) (h : InSequence ps f m s)
    (hp : ps[m]? = some p) (hc : Carries bc p) (hm : m + 1 < 2 ^ 24) :
    ∃ s', s.storeFrag m (s.toFrameIdx f) bc = .ok s' ∧
      if m + 1 = ps.length ∨ m + 1 = FRAG_MAX then
        ∃ c : BufChain, (s'.releaseFrames true).pushed = [c] ∧ c.bytes = assembled ps (m + 1)
      else InSequence ps f (m + 1) (s'.releaseFrames true) := by
  have hpl := hps.long p (List.mem_of_getElem? hp)
  have hidx : s.toFrameIdx f < s.frameWin.length := by
    rw [h.length]
    exact toFrameIdx_lt f
  have hat : s.frameAt (s.toFrameIdx f) = s.oldest := by
    unfold CProtoModDepack.oldest
    rw [h.oldestFrame]
  have hmlt : m < ps.length := (List.getElem?_eq_some_iff.1 hp).1
  have hmark : markLast (tailEOF bc) m s.oldest.lastFrag =
      if m + 1 = ps.length then m else NO_FRAG := by
    have hne : (m == FRAG_MAX) = false := by
      simp only [beq_eq_false_iff_ne]
      unfold FRAG_MAX
      omega
    have heof := hps.eof m p hp
    rw [← hc.tailEOF hpl] at heof
    unfold markLast
    rw [h.oldest.lastFrag, hne]
    by_cases he : m + 1 = ps.length
    · simp [heof.2 he, he]
    · simp [Bool.eq_false_iff.2 fun ht ↦ he (heof.1 ht), he]
  obtain ⟨bc', htrim, hbytes⟩ : ∃ bc', trim m (if m + 1 = ps.length then m else NO_FRAG) bc = .ok bc' ∧
      bc'.bytes = kept m (if m + 1 = ps.length then m else NO_FRAG) p := hc.trim hpl
  have hkept : kept m (if m + 1 = ps.length then m else NO_FRAG) p =
      kept m (ps.length - 1) (ps.getD m []) := by
    have hget : ps.getD m [] = p := by simp [hp]
    rw [hget]
    apply kept_congr
    split_ifs
    · omega
    · unfold NO_FRAG
      omega
  obtain ⟨g, hg, h₁, h₂, h₃, h₄, h₅, h₆, h₇, d, hd, hdb⟩ :=
    h.oldest.chainLoop s.cfg (if m + 1 = ps.length then m else NO_FRAG) (hbytes.trans hkept)
  have hlen : s.oldest.fragWin.length = s.cfg.fragWinSize := by
    rw [h.oldest.fragWin, List.length_replicate]
  have hstored : s.oldest.stored (s.toFragIdx m) (if m + 1 = ps.length then m else NO_FRAG) bc' =
      if m + 1 = ps.length ∨ m + 1 = FRAG_MAX then { g with isComplete := true } else g := by
    unfold CFrame.stored CFrame.updateChain toFragIdx
    simp only [List.length_set, hlen, hg, h₃, h₄]
    apply if_congr _ rfl rfl
    constructor
    · rintro (hn | hn)
      · left
        split_ifs at hn with he
        · exact he
        · unfold NO_FRAG at hn
          omega
      · exact .inr hn.symm
    · rintro (hn | hn)
      · left
        rw [if_pos hn]
      · exact .inr hn.symm
  refine ⟨s.setFrame (s.toFrameIdx f)
    (if m + 1 = ps.length ∨ m + 1 = FRAG_MAX then { g with isComplete := true } else g), ?_, ?_⟩
  · unfold storeFrag
    simp only [hat, hmark, htrim, liftBuf]
    change Except.ok (s.setFrame (s.toFrameIdx f) (s.oldest.stored (s.toFragIdx m)
      (if m + 1 = ps.length then m else NO_FRAG) bc')) = _
    rw [hstored]
  · generalize hs' : s.setFrame (s.toFrameIdx f) _ = s'
    have hat' : ∀ i, s'.frameAt i = if i = s.toFrameIdx f then
        (if m + 1 = ps.length ∨ m + 1 = FRAG_MAX then { g with isComplete := true } else g)
        else s.frameAt i := by
      intro i
      rw [← hs']
      exact frameAt_setFrame hidx _
    have hold : s'.oldestFrame = f := by
      rw [← hs']
      exact h.oldestFrame
    have hcfg : s'.cfg = s.cfg := by
      rw [← hs']
      rfl
    have hpushed : s'.pushed = [] := by
      rw [← hs']
      exact h.pushed
    have hlen' : s'.frameWin.length = s'.cfg.frameWinSize := by
      rw [← hs']
      exact List.length_set.trans h.length
    have hidx' : s'.toFrameIdx s'.oldestFrame = s.toFrameIdx f := by
      unfold toFrameIdx
      rw [hcfg, hold]
    have hoct : s'.oldest = if m + 1 = ps.length ∨ m + 1 = FRAG_MAX then
        { g with isComplete := true } else g := by
      unfold CProtoModDepack.oldest
      rw [hidx', hat', if_pos rfl]
    have hne : s'.oldestFrame ≠ NO_FRAME := by
      rw [hold]
      unfold NO_FRAME
      omega
    split_ifs at hat' hoct ⊢ with hdone
    · obtain ⟨n, hn⟩ : ∃ n, s'.cfg.frameWinSize = n + 1 :=
        ⟨s'.cfg.frameWinSize - 1, by have := s'.cfg.frameWinSize_pos; omega⟩
      have hrel : s'.releaseOldestFrame true = (true, s'.dropOldest) := by
        unfold releaseOldestFrame
        rw [if_neg hne, hoct]
        simp [h₇]
      have hidle : s'.dropOldest.oldest.running = false := by
        change ((s'.setFrame (s'.toFrameIdx s'.oldestFrame) s'.oldest.release).frameAt
          (s'.toFrameIdx (CAxisFrameHeader.moduloFrameSz (s'.oldestFrame + 1)))).running = false
        rw [frameAt_setFrame (by rw [hlen']; exact toFrameIdx_lt _)]
        split_ifs with hi
        · rfl
        · rw [hidx'] at hi
          rw [hat', if_neg hi]
          apply h.others _ _ hi
          rw [← hcfg]
          exact toFrameIdx_lt _
      refine ⟨d, ?_, hdb⟩
      unfold releaseFrames
      rw [hn]
      unfold releaseLoop
      rw [hrel]
      dsimp only
      rw [releaseLoop_stop (releaseOldestFrame_stop hidle true)]
      change (if s'.oldest.isComplete then s'.pushed ++ [s'.oldest.prod.getD []] else s'.pushed) = _
      rw [hoct, hpushed]
      simp [hd]
    · have hrel : s'.releaseOldestFrame true = (false, s') := by
        unfold releaseOldestFrame
        rw [if_neg hne, hoct]
        simp [h₆]
      have hself : s'.releaseFrames true = s' := releaseLoop_stop hrel _
      rw [hself]
      refine ⟨hlen', hold, ?_, fun i hi hif ↦ ?_, hpushed⟩
      · rw [hoct, hcfg]
        rw [if_neg (fun he ↦ hdone (.inl he))] at h₄
        exact ⟨h₁, h₂, h₃, h₄, h₅, h₆, h₇, d, hd, hdb⟩
      · have hif' : i ≠ s.toFrameIdx f := by
          rw [← hidx', hold]
          exact hif
        rw [hat', if_neg hif']
        exact h.others i (hcfg ▸ hi) hif'

theorem InSequence.receive (hps : Fragments f ps) (hf : f < 4096) (h : InSequence ps f m s)
    (hp : ps[m]? = some p) (hc : Carries bc p) (hm : m + 1 < 2 ^ 24) :
    ∃ s', s.receive (.datagram bc) = .ok s' ∧
      if m + 1 = ps.length ∨ m + 1 = FRAG_MAX then
        ∃ c : BufChain, s'.pushed = [c] ∧ c.bytes = assembled ps (m + 1)
      else InSequence ps f (m + 1) s' := by
  obtain ⟨s', hs, hcase⟩ := h.store hps hf hp hc hm
  obtain ⟨hdr, hparse, hfr, hj⟩ := hps.header m p hp
  obtain ⟨bh, rest, rfl, -⟩ := hc.cons (hps.long p (List.mem_of_getElem? hp))
  have hpos := s.cfg.frameWinSize_pos
  have hF : 0 < s.cfg.fragWinSize := Nat.two_pow_pos _
  have hadopt : s.adopt hdr = s := by
    apply if_neg
    rintro ⟨hn, -⟩
    rw [h.oldestFrame] at hn
    unfold NO_FRAME at hn
    omega
  have hpass : s.frameTest f = .pass := by
    have hrel : s.relOff f = 0 := by
      unfold relOff CAxisFrameHeader.moduloFrameSz FRAME_NO_BIT_SIZE
      rw [h.oldestFrame]
      omega
    unfold frameTest
    rw [hrel, h.oldestFrame, if_neg (by omega), if_neg (by omega)]
  have hat : s.frameAt (s.toFrameIdx f) = s.oldest := by
    unfold CProtoModDepack.oldest
    rw [h.oldestFrame]
  have haccept : s.acceptFrag hdr (bh :: rest) = s.storeFrag m (s.toFrameIdx f) (bh :: rest) := by
    have hfree : (s.oldest.fragWin.getD (s.toFragIdx m) none).isSome = false := by
      rw [h.oldest.fragWin]
      simp only [List.getD_eq_getElem?_getD, List.getElem?_replicate]
      split_ifs <;> rfl
    have hid : s.oldest.frameID ≠ NO_FRAME := by
      rw [h.oldest.frameID]
      unfold NO_FRAME
      omega
    unfold CProtoModDepack.acceptFrag
    simp only [hfr, hj, hat, h.oldest.oldestFrag, hfree, h.oldest.lastFrag, h.oldest.frameID]
    rw [if_neg (by omega), if_neg (by omega), if_neg (h.oldest.frameID ▸ hid)]
    simp
  refine ⟨s'.releaseFrames true, ?_, hcase⟩
  have hproc : s.processBuffer (bh :: rest) = .ok s' := by
    unfold CProtoModDepack.processBuffer
    simp only [hc.parse, hparse, hadopt]
    unfold CProtoModDepack.testedFrag
    rw [hfr, hpass]
    exact haccept.trans hs
  change (s.processBuffer (bh :: rest) >>= fun s ↦ pure (s.releaseFrames true)) = _
  rw [hproc]
  rfl

/-- The first fragment that a fresh module receives makes its frame the oldest one. -/
theorem inSequence_first (cfg : Config) (ps : List Bytes) (hf : f < 4096) :
    ∃ t : CProtoModDepack, t.cfg = cfg ∧ InSequence ps f 0 t ∧
      ∀ (hdr : CAxisFrameHeader) (bc : BufChain), hdr.frameNo = f → hdr.fragNo = 0 →
        ((new cfg).adopt hdr).testedFrag hdr bc = t.storeFrag 0 (t.toFrameIdx f) bc := by
  have hpos := cfg.frameWinSize_pos
  have hF : 0 < cfg.fragWinSize := Nat.two_pow_pos _
  have hP := shape_frameInv cfg.fragWinSize
  have hidle := idle_new cfg
  let s₀ : CProtoModDepack := { new cfg with oldestFrame := f }
  have hslots : Slots (fun n fr ↦ fr.Shape cfg.fragWinSize n) f s₀ :=
    hidle.slots hP (Nat.mod_eq_of_lt hf).symm
  have hidx : s₀.slotIdx 0 = s₀.toFrameIdx f := rfl
  have hblank : (s₀.slot 0).Blank cfg.fragWinSize := hidle.blank _ (slotIdx_lt (s := s₀) 0)
  obtain ⟨ht, ho⟩ := hslots.openFrame hP hpos hblank.frameID
  rw [Nat.add_zero, Nat.mod_eq_of_lt hf, hidx] at ht ho
  let t := s₀.openFrame f (s₀.toFrameIdx f)
  change Slots _ f t at ht
  change Opened 0 f s₀ t at ho
  have hcfg : t.cfg = cfg := ho.cfg
  have hold : t.oldestFrame = f := ho.oldest
  have htidx : t.toFrameIdx f = s₀.toFrameIdx f := by
    unfold toFrameIdx
    rw [ho.cfg]
  have hoct : t.oldest = (s₀.slot 0).opened f := by
    rw [← ho.slot]
    rfl
  refine ⟨t, hcfg, ⟨ht.length, hold, ?_, fun i hi hne ↦ ?_, ho.pushed⟩, fun hdr bc hfr hj ↦ ?_⟩
  · rw [hoct, hcfg]
    exact ⟨Nat.mod_eq_of_lt hf, hblank.oldestFrag, hblank.nFrags, hblank.lastFrag, hblank.fragWin,
      hblank.isComplete, rfl, [], rfl, rfl⟩
  · obtain ⟨k, hk, rfl⟩ := slotIdx_surj (s := t) hi
    have hk0 : k ≠ 0 := by
      rintro rfl
      apply hne
      rw [slotIdx, hold, Nat.add_zero]
    have hk₀ : k < cfg.frameWinSize := by
      rw [← hcfg]
      exact hk
    by_contra hr
    rcases ho.running k hk₀ (Bool.eq_true_of_not_eq_false hr) with hle | hrun
    · omega
    · have := hidle.idle _ (slotIdx_lt (s := s₀) k)
      change (s₀.slot k).running = false at this
      rw [this] at hrun
      contradiction
  · have hadopt : (new cfg).adopt hdr = s₀ := by
      unfold adopt
      rw [if_pos ⟨rfl, hj⟩, hfr]
    have hpass : s₀.frameTest f = .pass := by
      have hrel : s₀.relOff f = 0 := by
        unfold relOff CAxisFrameHeader.moduloFrameSz FRAME_NO_BIT_SIZE
        change (f + (4294967296 - f)) % 4096 = 0
        omega
      unfold frameTest
      rw [hrel, if_neg (by exact lt_irrefl f), if_neg (by exact Nat.not_le_of_lt hpos)]
    have h0 : (s₀.frameAt (s₀.toFrameIdx f)).oldestFrag = 0 := hblank.oldestFrag
    have hid : (s₀.frameAt (s₀.toFrameIdx f)).frameID = NO_FRAME := hblank.frameID
    have hF₀ : ¬0 ≥ 0 + s₀.cfg.fragWinSize := by
      change ¬0 ≥ 0 + cfg.fragWinSize
      omega
    rw [hadopt]
    unfold CProtoModDepack.testedFrag
    rw [hfr, hpass]
    unfold CProtoModDepack.acceptFrag
    simp only [hfr, hj, h0, hid]
    rw [if_neg (lt_irrefl 0), if_neg hF₀, if_pos trivial, htidx]

/-- The fragments of a frame, received one after the other by a fresh module. -/
theorem inSequence_run (cfg : Config) (hps : Fragments f ps) (hf : f < 4096) (bcs : List BufChain)
    (hlen : bcs.length ≤ ps.length) (hmax : bcs.length < 2 ^ 24) (hne : bcs ≠ [])
    (hbcs : ∀ (j : ℕ) (bc : BufChain) (p : Bytes), bcs[j]? = some bc → ps[j]? = some p →
      Carries bc p) :
    ∃ s, (bcs.map Input.datagram).foldlM (fun s i ↦ CProtoModDepack.receive i s) (new cfg) = .ok s ∧
      if bcs.length = ps.length ∨ bcs.length = FRAG_MAX then
        ∃ c : BufChain, s.pushed = [c] ∧ c.bytes = assembled ps bcs.length
      else InSequence ps f bcs.length s := by
  induction bcs using List.reverseRecOn with
  | nil => contradiction
  | append_singleton init bc ih =>
    rw [List.length_append, List.length_singleton] at hlen hmax ⊢
    have hlt : init.length < ps.length := hlen
    have hp : ps[init.length]? = some ps[init.length] := List.getElem?_eq_getElem hlt
    have hc : Carries bc ps[init.length] := hbcs init.length bc _ (by simp) hp
    rw [List.map_append, List.foldlM_append]
    cases hinit : init with
    | nil =>
      subst hinit
      obtain ⟨t, hcfg, hseq, hfirst⟩ := inSequence_first cfg ps hf
      obtain ⟨s', hs, hcase⟩ := hseq.store hps hf hp hc (by omega)
      obtain ⟨hdr, hparse, hfr, hj⟩ := hps.header 0 _ hp
      obtain ⟨bh, rest, rfl, -⟩ := hc.cons (hps.long _ (List.mem_of_getElem? hp))
      have hproc : (new cfg).processBuffer (bh :: rest) = .ok s' := by
        unfold CProtoModDepack.processBuffer
        simp only [hc.parse, hparse, hfirst hdr (bh :: rest) hfr hj]
        exact hs
      refine ⟨s'.releaseFrames true, ?_, hcase⟩
      change ((new cfg).processBuffer (bh :: rest) >>= fun s ↦ pure (s.releaseFrames true)) >>=
        pure = _
      rw [hproc]
      rfl
    | cons a l =>
      rw [← hinit]
      have hpos : 0 < init.length := by simp [hinit]
      have hinit' := ih (by omega) (by omega) (by simp [hinit]) fun j bc p hj hp ↦
        hbcs j bc p (by rw [List.getElem?_append_left (List.getElem?_eq_some_iff.1 hj).1]; exact hj) hp
      obtain ⟨s, hs, hcase⟩ := hinit'
      rw [if_neg (by unfold FRAG_MAX; omega)] at hcase
      obtain ⟨s', hs', hcase'⟩ := hcase.receive hps hf hp hc (by omega)
      refine ⟨s', ?_, hcase'⟩
      rw [hs]
      change (s.receive (.datagram bc) >>= pure) = _
      rw [hs']
      rfl

end CProtoModDepack

end Cpsw.Depack
