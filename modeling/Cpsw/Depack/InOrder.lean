import Cpsw.Depack.InSequence
import Cpsw.Depack.Packet

namespace Cpsw.Depack

open Cpsw.Lib.Circular Cpsw.Lib.Run

/-- The last fragment of the frame is known once it has come. -/
theorem markLast_spec {eof : Bool} {g lastFrag len : ℕ} (hmax : len < 2 ^ 24) (hg : g < len)
    (he : eof = true ↔ g + 1 = len) (hl : lastFrag = NO_FRAG ∨ lastFrag + 1 = len) :
    (CProtoModDepack.markLast eof g lastFrag = NO_FRAG ∨
      CProtoModDepack.markLast eof g lastFrag + 1 = len) ∧
      (g = CProtoModDepack.markLast eof g lastFrag ↔ g = len - 1) := by
  have hne : (g == FRAG_MAX) = false := by
    simp only [beq_eq_false_iff_ne]
    unfold FRAG_MAX
    omega
  unfold CProtoModDepack.markLast
  unfold NO_FRAG at *
  rw [hne, Bool.or_false]
  simp only [Bool.and_eq_true, beq_iff_eq]
  split_ifs with h
  · have := he.1 h.1
    omega
  · rcases hl with hl | hl
    · have : ¬g + 1 = len := fun hn ↦ h ⟨he.2 hn, hl⟩
      omega
    · omega

namespace CProtoModDepack

variable {fr : ℕ → List Bytes} {log log' : Log} {base n N : ℕ} {s s' : CProtoModDepack}

theorem Slots.mono {P Q : ℕ → CFrame → Prop} (h : Slots P base s) (hPQ : ∀ n f, P n f → Q n f) :
    Slots Q base s :=
  ⟨h.length, h.oldest, fun k hk ↦ hPQ _ _ (h.holds k hk), h.first⟩

/-- What has been passed on: whole frames only, in the order of their numbers. -/
def Delivered (fr : ℕ → List Bytes) (log : Log) (base : ℕ) (pushed : List BufChain) : Prop :=
  ∃ idx : List ℕ, idx.Pairwise (· < ·) ∧
    pushed.map BufChain.bytes = idx.map (fun n ↦ content (fr n)) ∧
    ∀ n ∈ idx, n < base ∧ fr n ≠ [] ∧ ∀ j < (fr n).length, (n, j) ∈ log

/-- The window starts at the frame `base`; what it holds belongs to one round of the numbers. -/
structure Receiving (fr : ℕ → List Bytes) (log : Log) (base : ℕ) (s : CProtoModDepack) : Prop where
  slots : Slots (Assembling fr log s.cfg.fragWinSize) base s
  round : ∀ k < s.cfg.frameWinSize, (s.slot k).running = true → (base + k) / 4096 = base / 4096
  delivered : Delivered fr log base s.pushed

theorem Delivered.mono {base' : ℕ} {pushed : List BufChain} (h : Delivered fr log base pushed)
    (hb : base ≤ base') (hl : log ⊆ log') : Delivered fr log' base' pushed := by
  obtain ⟨idx, hs, hm, hi⟩ := h
  refine ⟨idx, hs, hm, fun n hn ↦ ?_⟩
  obtain ⟨h₁, h₂, h₃⟩ := hi n hn
  exact ⟨by omega, h₂, fun j hj ↦ hl (h₃ j hj)⟩

theorem Delivered.snoc {pushed : List BufChain} (h : Delivered fr log base pushed) {bc : BufChain}
    (hbc : bc.bytes = content (fr base)) (hne : fr base ≠ [])
    (hlog : ∀ j < (fr base).length, (base, j) ∈ log) :
    Delivered fr log (base + 1) (pushed ++ [bc]) := by
  obtain ⟨idx, hs, hm, hi⟩ := h
  refine ⟨idx ++ [base], ?_, ?_, fun n hn ↦ ?_⟩
  · rw [List.pairwise_append]
    refine ⟨hs, List.pairwise_singleton _ _, fun n hn m hm ↦ ?_⟩
    rw [List.mem_singleton.1 hm]
    exact (hi n hn).1
  · simp [hm, hbc]
  · rcases List.mem_append.1 hn with hn | hn
    · obtain ⟨h₁, h₂⟩ := hi n hn
      exact ⟨by omega, h₂⟩
    · rw [List.mem_singleton.1 hn]
      exact ⟨by omega, hne, hlog⟩

theorem Receiving.mono (h : Receiving fr log base s) (hl : log ⊆ log') :
    Receiving fr log' base s :=
  ⟨h.slots.mono fun _ _ hf ↦ hf.mono hl, h.round, h.delivered.mono le_rfl hl⟩

/-- The frames whose timeouts run are all before `N`. -/
structure Before (fr : ℕ → List Bytes) (log : Log) (N base : ℕ) (s : CProtoModDepack) : Prop where
  receiving : Receiving fr log base s
  le : base ≤ N
  running : ∀ k < s.cfg.frameWinSize, (s.slot k).running = true → base + k < N

theorem Before.dropOldest (h : Before fr log N base s) (hr : s.oldest.running = true) :
    Before fr log N (base + 1) s.dropOldest := by
  have hP := assembling_frameInv fr log s.cfg.fragWinSize
  have hpos := s.cfg.frameWinSize_pos
  have hl := h.receiving.slots.length
  have h0 := h.receiving.slots.holds 0 hpos
  change Assembling fr log _ base s.oldest at h0
  have hlt : base < N := h.running 0 hpos hr
  refine ⟨⟨h.receiving.slots.dropOldest hP, fun k hk hkr ↦ ?_, ?_⟩, hlt, fun k hk hkr ↦ ?_⟩
  · change k < s.cfg.frameWinSize at hk
    rw [slot_dropOldest hl hk] at hkr
    split_ifs at hkr with he
    · contradiction
    · have := h.receiving.round (k + 1) (by omega) hkr
      omega
  · change Delivered fr log (base + 1)
      (if s.oldest.isComplete then s.pushed ++ [s.oldest.prod.getD []] else s.pushed)
    split_ifs with hc
    · have hid : s.oldest.frameID ≠ NO_FRAME := by
        intro hid
        have := (h0.shape.empty hid).isComplete
        rw [hc] at this
        contradiction
      have hp := h0.parts hid
      obtain ⟨hm0, hm⟩ := hp.complete hc
      obtain ⟨c, hprod, hbytes⟩ := hp.prod
      have hne : fr base ≠ [] := by
        intro he
        rw [he] at hm
        change _ = 0 at hm
        omega
      refine h.receiving.delivered.snoc ?_ hne (hm ▸ hp.got)
      rw [hprod]
      change c.bytes = _
      rw [hbytes, hm]
      exact assembled_length hne
    · exact h.receiving.delivered.mono (by omega) (List.Subset.refl _)
  · change k < s.cfg.frameWinSize at hk
    rw [slot_dropOldest hl hk] at hkr
    split_ifs at hkr with he
    · contradiction
    · have := h.running (k + 1) (by omega) hkr
      omega

theorem Before.releaseOldestFrame (h : Before fr log N base s) (o : Bool) :
    ∃ b, base ≤ b ∧ Before fr log N b (s.releaseOldestFrame o).2 := by
  cases hr : s.releaseOldestFrame o with
  | mk released s' =>
    cases released with
    | false =>
      obtain ⟨rfl, -⟩ := release_false hr
      exact ⟨base, le_rfl, h⟩
    | true =>
      obtain ⟨rfl, -, hrun, -⟩ := release_true hr
      exact ⟨base + 1, by omega, h.dropOldest hrun⟩

theorem Before.releaseFrames (h : Before fr log N base s) (o : Bool) :
    ∃ b, base ≤ b ∧ Before fr log N b (s.releaseFrames o) :=
  releaseLoop_inv (I := fun b t ↦ base ≤ b ∧ Before fr log N b t) o s.cfg.frameWinSize
    (fun b t ht _ hrun ↦ ⟨by omega, ht.2.dropOldest hrun⟩) ⟨le_rfl, h⟩

theorem Receiving.before (h : Receiving fr log base s) :
    Before fr log (base + s.cfg.frameWinSize) base s :=
  ⟨h, by omega, fun k hk _ ↦ by omega⟩

/-- Where the numbers wrap, the window is emptied and counts on from the next frame. -/
theorem Receiving.frameSync (h : Receiving fr log base s)
    (hle : base ≤ n) (hwrap : base / 4096 ≠ n / 4096) (hs : s.needsSync (n % 4096) = true) :
    Receiving fr log (n + 1) (s.frameSync (n % 4096)) := by
  have hP := assembling_frameInv fr log s.cfg.fragWinSize
  have hbefore : Before fr log n base s := by
    refine ⟨h, hle, fun k hk hkr ↦ ?_⟩
    have := h.round k hk hkr
    have hlt : base / 4096 < n / 4096 := lt_of_le_of_ne (Nat.div_le_div_right hle) hwrap
    by_contra hge
    have := Nat.div_le_div_right (c := 4096) (Nat.le_of_not_lt hge)
    omega
  obtain ⟨b, -, hb⟩ := hbefore.releaseFrames false
  have hidle := h.slots.releaseFrames_idle hP
  have hc := releaseFrames_cfg false s
  have hslots := h.slots.frameSync (b := n + 1) hP hs (by omega)
  have hsync : s.frameSync (n % 4096) = { s.releaseFrames false with
      oldestFrame := CAxisFrameHeader.moduloFrameSz (n % 4096 + 1) } := by
    unfold CProtoModDepack.frameSync
    rw [if_pos hs]
  have hpushed : (s.frameSync (n % 4096)).pushed = (s.releaseFrames false).pushed := by
    rw [hsync]
  have hcfg : (s.frameSync (n % 4096)).cfg = s.cfg := frameSync_cfg _ s
  refine ⟨hcfg ▸ hslots, fun k hk hkr ↦ ?_, ?_⟩
  · rw [hsync] at hkr
    have := hidle.idle _ (slotIdx_lt (s := { s.releaseFrames false with
      oldestFrame := CAxisFrameHeader.moduloFrameSz (n % 4096 + 1) }) k)
    change ((s.releaseFrames false).frameAt _).running = true at hkr
    rw [this] at hkr
    contradiction
  · rw [hpushed]
    exact hb.receiving.delivered.mono (hb.le.trans (Nat.le_succ n)) (List.Subset.refl _)

theorem storeFrag_eq {g idx : ℕ} {bc bc' : BufChain}
    (h : trim g (markLast (tailEOF bc) g (s.frameAt idx).lastFrag) bc = .ok bc') :
    s.storeFrag g idx bc = .ok (s.setFrame idx ((s.frameAt idx).stored (s.toFragIdx g)
      (markLast (tailEOF bc) g (s.frameAt idx).lastFrag) bc')) := by
  unfold storeFrag
  simp only [h, liftBuf]
  rfl

variable {hdr : CAxisFrameHeader} {bc : BufChain} {j : ℕ} {p : Bytes}

/-- A fragment of a frame within the window, in the round of the oldest one. -/
theorem Receiving.acceptFrag (hfr : Numbered fr) (hmax : ∀ n, (fr n).length < 2 ^ 24)
    (h : Receiving fr log base s) (hp : (fr n)[j]? = some p) (hc : Carries bc p)
    (hf : hdr.frameNo = n % 4096) (hj : hdr.fragNo = j) (hle : base ≤ n)
    (hlt : n < base + s.cfg.frameWinSize) (hround : n / 4096 = base / 4096) :
    ∃ s', s.acceptFrag hdr bc = .ok s' ∧ s'.cfg = s.cfg ∧ Receiving fr ((n, j) :: log) base s' := by
  have hP := assembling_frameInv fr ((n, j) :: log) s.cfg.fragWinSize
  have h' : Receiving fr ((n, j) :: log) base s := h.mono (List.subset_cons_self _ _)
  obtain ⟨k, rfl⟩ := Nat.exists_eq_add_of_le hle
  have hk : k < s.cfg.frameWinSize := by omega
  have hpl : HEADER_SIZE + axis.TAIL_SIZE ≤ p.length :=
    (hfr _).long p (List.mem_of_getElem? hp)
  have hjlt : j < (fr (base + k)).length := (List.getElem?_eq_some_iff.1 hp).1
  rcases h'.slots.acceptFrag hP hk hf with he | ⟨t, ht, he⟩
  · exact ⟨s, he, rfl, h'⟩
  · have hkt : k < t.cfg.frameWinSize := ht.cfg ▸ hk
    have hslot : Assembling fr ((base + k, j) :: log) s.cfg.fragWinSize (base + k) (t.slot k) :=
      ht.slots.holds k hkt
    have hparts := hslot.parts ht.frameID
    have heof : tailEOF bc = true ↔ j + 1 = (fr (base + k)).length := by
      rw [hc.tailEOF hpl]
      exact (hfr _).eof _ _ hp
    obtain ⟨hlast, hg⟩ := markLast_spec (hmax (base + k)) hjlt heof hparts.lastFrag
    have htrim : ∃ bc', trim j (markLast (tailEOF bc) j (t.slot k).lastFrag) bc = .ok bc' ∧
        bc'.bytes = kept j (markLast (tailEOF bc) j (t.slot k).lastFrag) p := hc.trim hpl
    obtain ⟨bc', htrim, hbytes⟩ := htrim
    have hstored : Assembling fr ((base + k, j) :: log) s.cfg.fragWinSize (base + k)
        ((t.slot k).stored (t.toFragIdx j) (markLast (tailEOF bc) j (t.slot k).lastFrag) bc') := by
      refine ⟨hslot.shape.stored ht.frameID (hslot.shape.running ht.frameID) _ _ _, fun _ ↦ ?_⟩
      unfold toFragIdx
      rw [ht.cfg]
      have htakes := ht.takes
      rw [hj] at htakes
      refine hparts.stored s.cfg hslot.shape.length (hmax _) htakes hjlt List.mem_cons_self hlast ?_
      rw [hbytes, kept_congr p hg]
      congr 1
      simp [hp]
    rw [hj] at he ht
    refine ⟨_, he.trans (storeFrag_eq htrim), ht.cfg, ?_⟩
    have hslots := ht.stored hP hk hstored
    refine ⟨?_, fun i hi hr ↦ ?_, ?_⟩
    · change Slots (Assembling fr _ t.cfg.fragWinSize) base _
      rw [ht.cfg]
      exact hslots
    · change i < t.cfg.frameWinSize at hi
      have hrun : (t.slot i).running = true := by
        rw [slot_setFrame ht.slots.length hi hkt] at hr
        split_ifs at hr with hik
        · rw [hik]
          exact hslot.shape.running ht.frameID
        · exact hr
      rcases ht.running i (ht.cfg ▸ hi) hrun with hik | hrs
      · omega
      · exact h.round i (ht.cfg ▸ hi) hrs
    · change Delivered fr _ base t.pushed
      rw [ht.pushed]
      exact h'.delivered

theorem Receiving.testedFrag (hfr : Numbered fr) (hmax : ∀ n, (fr n).length < 2 ^ 24)
    (h : Receiving fr log base s) (hp : (fr n)[j]? = some p) (hc : Carries bc p)
    (hf : hdr.frameNo = n % 4096) (hj : hdr.fragNo = j) (hle : base ≤ n + s.cfg.frameWinSize)
    (hlt : n < base + s.cfg.frameWinSize) :
    ∃ s' b, s.testedFrag hdr bc = .ok s' ∧ s'.cfg = s.cfg ∧
      Receiving fr ((n, j) :: log) b s' ∧ base ≤ b ∧ b ≤ base + s.cfg.frameWinSize := by
  have hW := s.cfg.frameWinSize_le
  have ho := h.slots.oldest
  have ho4 : s.oldestFrame < 4096 := by omega
  have hf4 : n % 4096 < 4096 := Nat.mod_lt _ (by decide)
  have h' : Receiving fr ((n, j) :: log) base s := h.mono (List.subset_cons_self _ _)
  rcases Nat.lt_or_ge n base with hold | hnew
  · have hahead : s.ahead (n % 4096) = 4096 - (base - n) := by
      unfold ahead
      omega
    have hdrop : s.frameTest (n % 4096) = .drop false := by
      rcases Nat.lt_or_ge (n % 4096) s.oldestFrame with hwrap | hwrap
      · rw [frameTest_of_lt ho4 hf4 hwrap, hahead]
        simp only [FrameTest.drop.injEq, decide_eq_false_iff_not]
        omega
      · rw [frameTest_of_le ho4 hf4 hwrap, hahead]
        unfold verdict
        rw [if_neg (by omega), if_neg (by omega)]
        simp only [FrameTest.drop.injEq, decide_eq_false_iff_not]
        omega
    refine ⟨s, base, ?_, rfl, h', le_rfl, by omega⟩
    rw [← hf] at hdrop
    exact testedFrag_drop hdrop (needsSync_of_drop hdrop)
  · have hahead : s.ahead (n % 4096) = n - base := by
      unfold ahead
      omega
    rcases Nat.lt_or_ge (n % 4096) s.oldestFrame with hwrap | hwrap
    · have hdrop := frameTest_of_lt ho4 hf4 hwrap
      rw [hahead, decide_eq_true (by omega)] at hdrop
      have hsync := h'.frameSync hnew (by omega) (needsSync_of_drop hdrop)
      refine ⟨s.frameSync (n % 4096), n + 1, ?_, frameSync_cfg _ s, hsync, by omega, by omega⟩
      unfold CProtoModDepack.testedFrag
      rw [hf, hdrop]
    · have hpass := frameTest_of_le ho4 hf4 hwrap
      rw [hahead] at hpass
      unfold verdict at hpass
      rw [if_pos (by omega)] at hpass
      obtain ⟨s', hs, hcfg, hr⟩ := h.acceptFrag hfr hmax hp hc hf hj hnew hlt (by omega)
      refine ⟨s', base, ?_, hcfg, hr, le_rfl, by omega⟩
      unfold CProtoModDepack.testedFrag
      rw [hf, hpass]
      exact hs

/-- The first frames' numbers decide where the window starts. -/
theorem Idle.testedFrag (log : Log) (hfr : Numbered fr) (hmax : ∀ n, (fr n).length < 2 ^ 24)
    (hn : s.oldestFrame = NO_FRAME) (h : Idle s) (hpushed : s.pushed = [])
    (hp : (fr n)[j]? = some p) (hc : Carries bc p) (hf : hdr.frameNo = n % 4096)
    (hj : hdr.fragNo = j) :
    ∃ s', (s.adopt hdr).testedFrag hdr bc = .ok s' ∧ s'.cfg = s.cfg ∧
      ((s'.oldestFrame = NO_FRAME ∧ Idle s' ∧ s'.pushed = []) ∨
        ∃ b, Receiving fr ((n, j) :: log) b s' ∧ n ≤ b ∧ b ≤ n + s.cfg.frameWinSize) := by
  have hpos := s.cfg.frameWinSize_pos
  have fresh : ∀ {l : Log} {o b : ℕ}, o = b % 4096 →
      Receiving fr l b { s with oldestFrame := o } := by
    intro l o b ho
    refine ⟨h.slots (assembling_frameInv _ _ _) ho, fun k _ hr ↦ ?_, ?_⟩
    · have := h.idle _ (slotIdx_lt (s := { s with oldestFrame := o }) k)
      change (s.frameAt _).running = true at hr
      rw [this] at hr
      contradiction
    · change Delivered fr _ b s.pushed
      rw [hpushed]
      exact ⟨[], List.Pairwise.nil, rfl, nofun⟩
  by_cases h0 : j = 0
  · have ha : s.adopt hdr = { s with oldestFrame := n % 4096 } := by
      unfold adopt
      rw [if_pos ⟨hn, hj.trans h0⟩, hf]
    rw [ha]
    obtain ⟨s', b, hs, hcfg, hr, h₁, h₂⟩ := (fresh (l := log) (b := n) rfl).testedFrag hfr hmax hp
      hc hf hj (by omega) (by change n < n + s.cfg.frameWinSize; omega)
    exact ⟨s', hs, hcfg, .inr ⟨b, hr, h₁, h₂⟩⟩
  · have ha : s.adopt hdr = s := if_neg (fun hc ↦ h0 (hj ▸ hc.2))
    have ht : s.frameTest hdr.frameNo = .drop (s.needsSync hdr.frameNo) := by
      refine if_pos ?_
      rw [hn, hf]
      unfold NO_FRAME
      omega
    refine ⟨s.frameSync hdr.frameNo, ?_, frameSync_cfg _ s, ?_⟩
    · rw [ha]
      unfold CProtoModDepack.testedFrag
      rw [ht]
    · unfold CProtoModDepack.frameSync
      split_ifs
      · rw [releaseFrames_noFrame hn, hf]
        refine .inr ⟨n + 1, fresh ?_, by omega, by omega⟩
        change (n % 4096 + 1) % 4096 = _
        omega
      · exact .inl ⟨hn, h, hpushed⟩

/-- The least number from `r` on that is `o` modulo 2^12. -/
def countFrom (r o : ℕ) : ℕ := r + (o + (4096 - r % 4096)) % 4096

theorem countFrom_eq {r b : ℕ} (h : r ≤ b) (hb : b < r + 4096) : countFrom r (b % 4096) = b := by
  unfold countFrom
  omega

/-- The module, the number of its oldest frame counted on without the wrap, and what has been
received. -/
structure Counted where
  module : CProtoModDepack
  base : ℕ
  log : Log

def Counted.new (cfg : Config) : Counted :=
  { module := CProtoModDepack.new cfg, base := 0, log := [] }

/-- The frame `n` is at most one window before the oldest frame, and less than one after it. -/
def Counted.Admits (n : ℕ) (c : Counted) : Prop :=
  c.module.oldestFrame ≠ NO_FRAME →
    c.base ≤ n + c.module.cfg.frameWinSize ∧ n < c.base + c.module.cfg.frameWinSize

/-- A fragment is received, in any buffers, or the time runs out. -/
inductive Counted.Step (fr : ℕ → List Bytes) : Counted → Counted → Prop
  | fragment {c : Counted} {n j : ℕ} {p : Bytes} {bc : BufChain} {s' : CProtoModDepack} :
    (fr n)[j]? = some p → Carries bc p → c.Admits n → c.module.receive (.datagram bc) = .ok s' →
      Step fr c { module := s'
                  base := countFrom (if c.module.oldestFrame = NO_FRAME then n else c.base)
                    s'.oldestFrame
                  log := (n, j) :: c.log }
  | timeout {c : Counted} {s' : CProtoModDepack} : c.module.receive .timeout = .ok s' →
      Step fr c { c with module := s', base := countFrom c.base s'.oldestFrame }

/-- Either nothing that counts has been received, or there is a window. -/
def Counted.Inv (fr : ℕ → List Bytes) (c : Counted) : Prop :=
  (c.module.oldestFrame = NO_FRAME ∧ Idle c.module ∧ c.module.pushed = []) ∨
    Receiving fr c.log c.base c.module

theorem Receiving.releaseFrames (h : Receiving fr log base s) (o : Bool) :
    ∃ b, Receiving fr log b (s.releaseFrames o) ∧ base ≤ b ∧ b ≤ base + s.cfg.frameWinSize := by
  obtain ⟨b, hb, h'⟩ := h.before.releaseFrames o
  exact ⟨b, h'.receiving, hb, h'.le⟩

theorem Counted.receive_fragment {c : Counted} (hfr : Numbered fr)
    (hmax : ∀ n, (fr n).length < 2 ^ 24) (h : c.Inv fr) (hp : (fr n)[j]? = some p)
    (hc : Carries bc p) (ha : c.Admits n) :
    ∃ s', c.module.receive (.datagram bc) = .ok s' ∧ s'.cfg = c.module.cfg ∧
      ((s'.oldestFrame = NO_FRAME ∧ Idle s' ∧ s'.pushed = []) ∨
        ∃ b, Receiving fr ((n, j) :: c.log) b s' ∧
          (if c.module.oldestFrame = NO_FRAME then n else c.base) ≤ b ∧
          b ≤ (if c.module.oldestFrame = NO_FRAME then n else c.base) +
            2 * c.module.cfg.frameWinSize) := by
  obtain ⟨hdr, hparse, hf, hj⟩ := (hfr n).header j p hp
  obtain ⟨bh, rest, rfl, -⟩ := hc.cons ((hfr n).long p (List.mem_of_getElem? hp))
  have hproc : c.module.processBuffer (bh :: rest) =
      (c.module.adopt hdr).testedFrag hdr (bh :: rest) := by
    unfold processBuffer
    simp only [hc.parse, hparse]
  have receive_of : ∀ s', c.module.processBuffer (bh :: rest) = .ok s' →
      c.module.receive (.datagram (bh :: rest)) = .ok (s'.releaseFrames true) := by
    intro s' hs
    change (c.module.processBuffer (bh :: rest) >>= fun s ↦ pure (s.releaseFrames true)) = _
    rw [hs]
    rfl
  rcases h with ⟨hn, hidle, hpushed⟩ | hr
  · obtain ⟨s', hs, hcfg, hcase⟩ := hidle.testedFrag c.log hfr hmax hn hpushed hp hc hf hj
    refine ⟨_, receive_of s' (hproc.trans hs), (releaseFrames_cfg true s').trans hcfg, ?_⟩
    rw [if_pos hn]
    rcases hcase with ⟨hn', hidle', hpushed'⟩ | ⟨b, hb, h₁, h₂⟩
    · rw [releaseFrames_noFrame hn']
      exact .inl ⟨hn', hidle', hpushed'⟩
    · obtain ⟨b', hb', h₃, h₄⟩ := hb.releaseFrames true
      rw [hcfg] at h₄
      exact .inr ⟨b', hb', by omega, by omega⟩
  · have hne := hr.slots.ne_noFrame
    obtain ⟨hle, hlt⟩ := ha hne
    have hadopt : c.module.adopt hdr = c.module := if_neg (fun hc ↦ hne hc.1)
    obtain ⟨s', b, hs, hcfg, hb, h₁, h₂⟩ := hr.testedFrag hfr hmax hp hc hf hj hle hlt
    rw [hadopt] at hproc
    refine ⟨_, receive_of s' (hproc.trans hs), (releaseFrames_cfg true s').trans hcfg, .inr ?_⟩
    rw [if_neg hne]
    obtain ⟨b', hb', h₃, h₄⟩ := hb.releaseFrames true
    rw [hcfg] at h₄
    exact ⟨b', hb', by omega, by omega⟩

theorem Counted.receive_timeout {c : Counted} (h : c.Inv fr) :
    ∃ s', c.module.receive .timeout = .ok s' ∧
      ((s'.oldestFrame = NO_FRAME ∧ Idle s' ∧ s'.pushed = []) ∨
        ∃ b, Receiving fr c.log b s' ∧ c.base ≤ b ∧ b ≤ c.base + c.module.cfg.frameWinSize) := by
  refine ⟨_, rfl, ?_⟩
  rcases h with ⟨hn, hidle, hpushed⟩ | hr
  · rw [releaseOldestFrame_noFrame hn, releaseFrames_noFrame hn]
    exact .inl ⟨hn, hidle, hpushed⟩
  · obtain ⟨b, hb, h₁⟩ := hr.before.releaseOldestFrame false
    obtain ⟨b', hb', h₂⟩ := h₁.releaseFrames true
    exact .inr ⟨b', h₂.receiving, by omega, h₂.le⟩

theorem Counted.Inv.step {c c' : Counted} (hfr : Numbered fr)
    (hmax : ∀ n, (fr n).length < 2 ^ 24) (h : c.Inv fr) (hs : Counted.Step fr c c') : c'.Inv fr := by
  have hW := c.module.cfg.frameWinSize_le
  cases hs with
  | fragment hp hc ha hr =>
    obtain ⟨s', hs, -, hcase⟩ := Counted.receive_fragment hfr hmax h hp hc ha
    obtain rfl := Except.ok.inj (hs.symm.trans hr)
    rcases hcase with hidle | ⟨b, hb, h₁, h₂⟩
    · exact .inl hidle
    · refine .inr ?_
      simp only [hb.slots.oldest, countFrom_eq h₁ (by omega)]
      exact hb
  | timeout hr =>
    obtain ⟨s', hs, hcase⟩ := Counted.receive_timeout h
    obtain rfl := Except.ok.inj (hs.symm.trans hr)
    rcases hcase with hidle | ⟨b, hb, h₁, h₂⟩
    · exact .inl hidle
    · refine .inr ?_
      simp only [hb.slots.oldest, countFrom_eq h₁ (by omega)]
      exact hb

/-- Two frames whose numbers are the same. -/
def twoFrames (n : ℕ) : List Bytes :=
  packets (n % 4096) (if n = 0 then [[42], [43]] else if n = 4096 then [[44], [45]] else [])

theorem numbered_twoFrames : Numbered twoFrames := by
  refine numbered_packets fun n ↦ ?_
  split_ifs <;> decide

theorem twoFrames_length (n : ℕ) : (twoFrames n).length ≤ 2 := by
  unfold twoFrames packets
  rw [List.length_mapIdx]
  split_ifs <;> decide

/-- The number `f` is at most one window before that of the oldest frame, and less than one after
it, modulo 2^12. -/
def AdmitsNumber (f : ℕ) (s : CProtoModDepack) : Prop :=
  s.oldestFrame ≠ NO_FRAME →
    (f + s.cfg.frameWinSize + (4096 - s.oldestFrame)) % 4096 < 2 * s.cfg.frameWinSize

/-- A frame is taken to be complete when 2^24 - 1 of its fragments have come in their order. -/
theorem passed_early (cfg : Config) {N : ℕ} (hN : N = 2 ^ 24) : ∃ ps : List Bytes,
    Fragments 0 ps ∧ ps.length = N ∧ ∃ s,
      ((ps.take (N - 1)).map datagram).foldlM (fun s i ↦ receive i s) (new cfg) = .ok s ∧
        s.pushed ≠ [] := by
  have hxs : (List.replicate N [(42 : UInt8)]).length = N := List.length_replicate
  have hps := fragments_of_packets (by decide : 0 < 4096) (hxs.trans hN).le
  have hlen : (packets 0 (List.replicate N [42])).length = N := List.length_mapIdx.trans hxs
  have hsmall : ∀ p ∈ packets 0 (List.replicate N [42]), p.length < 2 ^ 16 := by
    intro p hp
    obtain ⟨h, x, hx, eof, rfl⟩ := mem_packets hp
    rw [packet_length, List.eq_of_mem_replicate hx]
    decide
  generalize packets 0 (List.replicate N [42]) = ps at hps hlen hsmall
  let bcs : List BufChain :=
    (ps.take (N - 1)).map fun p ↦ [{ data := p, beg := 0, fin := p.length }]
  have hbl : bcs.length = N - 1 := by
    rw [List.length_map, List.length_take, hlen]
    omega
  have hbcs : ∀ (j : ℕ) (bc : BufChain) (p : Bytes), bcs[j]? = some bc → ps[j]? = some p →
      Carries bc p := by
    intro j bc p hj hp
    rw [List.getElem?_map] at hj
    obtain ⟨q, hq, rfl⟩ := Option.map_eq_some_iff.1 hj
    obtain rfl : q = p := by
      rw [List.getElem?_take] at hq
      split_ifs at hq
      exact Option.some.inj (hq.symm.trans hp)
    have hmem := List.mem_of_getElem? hp
    exact carries_single (hps.long q hmem) (hsmall q hmem)
  have hne : bcs ≠ [] := by
    intro hn
    rw [hn] at hbl
    change 0 = N - 1 at hbl
    omega
  obtain ⟨s, hs, hcase⟩ := inSequence_run cfg hps (by decide) bcs (by omega) (by omega) hne hbcs
  rw [if_pos (.inr (by unfold FRAG_MAX; omega))] at hcase
  obtain ⟨c, hc, -⟩ := hcase
  refine ⟨ps, hps, hlen, s, ?_, fun hn ↦ ?_⟩
  · rw [List.map_map] at hs
    exact hs
  · rw [hn] at hc
    contradiction

end CProtoModDepack

end Cpsw.Depack
