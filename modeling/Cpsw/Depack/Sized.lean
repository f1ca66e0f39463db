import Cpsw.Depack.Chain
import Cpsw.Depack.Receive

/-! The depacketizer with the size that each chain keeps beside its buffers, and with what it leaves
when it throws. -/

namespace Cpsw.Depack.Sized

open Depack.CProtoModDepack (markLast tailEOF)

/-- The loop of `updateChain` over the buffers of a fragment: unlinked at one head, they are added
at the other tail. -/
def drain : ℕ → Chain → Chain → Chain
  | 0, _, prod => prod
  | n + 1, bc, prod =>
    match bc.bufs with
    | [] => prod
    | b :: _ => drain n bc.unlinkHead (prod.addAtTail b)

structure CFrame where
  prod : Option Chain
  nFrags : ℕ
  frameID : ℕ
  oldestFrag : ℕ
  lastFrag : ℕ
  fragWin : List (Option Chain)
  isComplete : Bool
  running : Bool

namespace CFrame

def new (winSize : ℕ) : CFrame where
  prod := none
  nFrags := 0
  frameID := NO_FRAME
  oldestFrag := 0
  lastFrag := NO_FRAG
  fragWin := List.replicate winSize none
  isComplete := false
  running := false

def release (f : CFrame) : CFrame := { new 0 with fragWin := f.fragWin.map fun _ ↦ none }

def chainLoop : ℕ → CFrame → CFrame
  | 0, f => f
  | n + 1, f =>
    let idx := f.oldestFrag &&& (f.fragWin.length - 1)
    match f.fragWin.getD idx none with
    | none => f
    | some bc => chainLoop n { f with
        prod := some (drain bc.bufs.length bc (f.prod.getD .create))
        nFrags := f.nFrags + 1
        fragWin := f.fragWin.set idx none
        oldestFrag := f.oldestFrag + 1 }

def updateChain (f : CFrame) : CFrame :=
  let f := chainLoop f.fragWin.length f
  if f.nFrags = f.lastFrag + 1 ∨ FRAG_MAX = f.nFrags then { f with isComplete := true } else f

/-- The frame without the sizes. -/
def erase (f : CFrame) : Depack.CFrame where
  prod := f.prod.map Chain.bufs
  nFrags := f.nFrags
  frameID := f.frameID
  oldestFrag := f.oldestFrag
  lastFrag := f.lastFrag
  fragWin := f.fragWin.map (Option.map Chain.bufs)
  isComplete := f.isComplete
  running := f.running

end CFrame

structure CProtoModDepack where
  cfg : Config
  oldestFrame : ℕ
  frameWin : List CFrame
  pushed : List Chain

def skipHeader (fragNo : ℕ) (bc : Chain) : Chain × Option BufError :=
  match bc.bufs with
  | [] => (bc, none)
  | bh :: _ =>
    if fragNo ≠ 0 then
      match bh.setPayload HEADER_SIZE with
      | .ok bh => (bc.setHead bh, none)
      | .error e => (bc, some e)
    else (bc, none)

def skipTail (fragNo lastFrag : ℕ) (bc : Chain) : Chain × Option BufError :=
  if fragNo ≠ lastFrag then
    match bc.bufs.getLast? with
    | none => (bc, none)
    | some bt =>
      match bt.setSize ((bt.getSize : ℤ) - axis.TAIL_SIZE) with
      | .ok bt => (bc.setTail bt, none)
      | .error e => (bc, some e)
  else (bc, none)

def trim (fragNo lastFrag : ℕ) (bc : Chain) : Chain × Option BufError :=
  match skipHeader fragNo bc with
  | (bc, some e) => (bc, some e)
  | (bc, none) => skipTail fragNo lastFrag bc

namespace CProtoModDepack

def new (cfg : Config) : CProtoModDepack where
  cfg := cfg
  oldestFrame := NO_FRAME
  frameWin := List.replicate cfg.frameWinSize (CFrame.new cfg.fragWinSize)
  pushed := []

/-- The state without the sizes. -/
def erase (s : CProtoModDepack) : Depack.CProtoModDepack where
  cfg := s.cfg
  oldestFrame := s.oldestFrame
  frameWin := s.frameWin.map CFrame.erase
  pushed := s.pushed.map Chain.bufs

def toFrameIdx (frameNo : ℕ) (s : CProtoModDepack) : ℕ := s.erase.toFrameIdx frameNo

def toFragIdx (fragNo : ℕ) (s : CProtoModDepack) : ℕ := s.erase.toFragIdx fragNo

def frameAt (idx : ℕ) (s : CProtoModDepack) : CFrame :=
  s.frameWin.getD idx (CFrame.new s.cfg.fragWinSize)

def setFrame (idx : ℕ) (f : CFrame) (s : CProtoModDepack) : CProtoModDepack :=
  { s with frameWin := s.frameWin.set idx f }

def oldest (s : CProtoModDepack) : CFrame := s.frameAt (s.toFrameIdx s.oldestFrame)

def dropOldest (s : CProtoModDepack) : CProtoModDepack :=
  { s.setFrame (s.toFrameIdx s.oldestFrame) s.oldest.release with
    pushed := if s.oldest.isComplete then s.pushed ++ [s.oldest.prod.getD .create] else s.pushed
    oldestFrame := CAxisFrameHeader.moduloFrameSz (s.oldestFrame + 1) }

def releaseOldestFrame (onlyComplete : Bool) (s : CProtoModDepack) : Bool × CProtoModDepack :=
  if s.oldestFrame = NO_FRAME then (false, s)
  else if (onlyComplete && !s.oldest.isComplete) || !s.oldest.running then (false, s)
  else (true, s.dropOldest)

def releaseLoop (onlyComplete : Bool) : ℕ → CProtoModDepack → CProtoModDepack
  | 0, s => s
  | n + 1, s =>
    match s.releaseOldestFrame onlyComplete with
    | (false, s) => s
    | (true, s) => releaseLoop onlyComplete n s

def releaseFrames (onlyComplete : Bool) (s : CProtoModDepack) : CProtoModDepack :=
  releaseLoop onlyComplete s.cfg.frameWinSize s

def frameSync (frameNo : ℕ) (s : CProtoModDepack) : CProtoModDepack :=
  if s.erase.needsSync frameNo then
    { s.releaseFrames false with oldestFrame := CAxisFrameHeader.moduloFrameSz (frameNo + 1) }
  else s

def startLoop (frameIdx : ℕ) : ℕ → ℕ → CProtoModDepack → CProtoModDepack
  | 0, _, s => s
  | n + 1, idx, s =>
    if idx = frameIdx then s
    else startLoop frameIdx n (s.toFrameIdx (idx + 1))
      (s.setFrame idx { s.frameAt idx with running := true })

def openFrame (frameNo frameIdx : ℕ) (s : CProtoModDepack) : CProtoModDepack :=
  let s := s.setFrame frameIdx { s.frameAt frameIdx with prod := some .create, frameID := frameNo }
  let s := startLoop frameIdx s.cfg.frameWinSize (s.toFrameIdx s.oldestFrame) s
  s.setFrame frameIdx { s.frameAt frameIdx with running := true }

/-- When the trimming throws, the fragment stays in the window as far as it has been trimmed. -/
def storeFrag (fragNo frameIdx : ℕ) (bc : Chain) (s : CProtoModDepack) :
    CProtoModDepack × Option DepackError :=
  let frame := s.frameAt frameIdx
  let lastFrag := markLast (tailEOF bc.bufs) fragNo frame.lastFrag
  let (bc, thrown) := trim fragNo lastFrag bc
  let frame := { frame with
    fragWin := frame.fragWin.set (s.toFragIdx fragNo) (some bc), lastFrag := lastFrag }
  match thrown with
  | some e => (s.setFrame frameIdx frame, some (.buf e))
  | none => (s.setFrame frameIdx frame.updateChain, none)

def acceptFrag (hdr : CAxisFrameHeader) (bc : Chain) (s : CProtoModDepack) :
    CProtoModDepack × Option DepackError :=
  let frameIdx := s.toFrameIdx hdr.frameNo
  let frame := s.frameAt frameIdx
  if hdr.fragNo < frame.oldestFrag then (s, none)
  else if hdr.fragNo ≥ frame.oldestFrag + s.cfg.fragWinSize then (s, none)
  else if frame.frameID = NO_FRAME then
    (s.openFrame hdr.frameNo frameIdx).storeFrag hdr.fragNo frameIdx bc
  else if frame.frameID ≠ hdr.frameNo then (s, some .frameIDWindow)
  else if (frame.fragWin.getD (s.toFragIdx hdr.fragNo) none).isSome then (s, none)
  else if frame.lastFrag ≠ NO_FRAG ∧ hdr.fragNo > frame.lastFrag then (s, none)
  else s.storeFrag hdr.fragNo frameIdx bc

def testedFrag (hdr : CAxisFrameHeader) (bc : Chain) (s : CProtoModDepack) :
    CProtoModDepack × Option DepackError :=
  match s.erase.frameTest hdr.frameNo with
  | .drop _ => (s.frameSync hdr.frameNo, none)
  | .evict => acceptFrag hdr bc (s.releaseOldestFrame false).2
  | .pass => acceptFrag hdr bc s

def adopt (hdr : CAxisFrameHeader) (s : CProtoModDepack) : CProtoModDepack :=
  if s.oldestFrame = NO_FRAME ∧ hdr.fragNo = 0 then { s with oldestFrame := hdr.frameNo } else s

def processBuffer (bc : Chain) (s : CProtoModDepack) : CProtoModDepack × Option DepackError :=
  match bc.bufs with
  | [] => (s, some .emptyChain)
  | bh :: _ =>
    match CAxisFrameHeader.parse bh.getPayload bh.getSize with
    | none => (s, none)
    | some hdr => testedFrag hdr bc (s.adopt hdr)

inductive Input
  | datagram (bc : Chain)
  | timeout

def receive (i : Input) (s : CProtoModDepack) : CProtoModDepack × Option DepackError :=
  match i with
  | .datagram bc =>
    match s.processBuffer bc with
    | (s, some e) => (s, some e)
    | (s, none) => (s.releaseFrames true, none)
  | .timeout => ((s.releaseOldestFrame false).2.releaseFrames true, none)

end CProtoModDepack

section Erase

variable {c prod : Chain} {s : CProtoModDepack} {f : CFrame} {o : Bool} {n idx : ℕ}

theorem drain_bufs (hn : n = c.bufs.length) : (drain n c prod).bufs = prod.bufs ++ c.bufs := by
  induction n generalizing c prod with
  | zero => rw [drain, List.length_eq_zero_iff.1 hn.symm, List.append_nil]
  | succ n ih =>
    obtain ⟨b, bufs, hb⟩ := List.exists_cons_of_length_pos (l := c.bufs) (by omega)
    have hrest : c.unlinkHead.bufs = bufs := by rw [Chain.unlinkHead, hb]
    have hlen : n = c.unlinkHead.bufs.length := by
      rw [hb, List.length_cons] at hn
      rw [hrest]
      omega
    rw [drain, hb]
    dsimp only
    rw [ih hlen, hrest, Chain.addAtTail_bufs, List.append_assoc]
    rfl

namespace CFrame

@[simp] theorem erase_new : (new n).erase = Depack.CFrame.new n := by
  simp [erase, new, Depack.CFrame.new]

@[simp] theorem erase_release : f.release.erase = f.erase.release := by
  simp [erase, release, new, Depack.CFrame.release, Function.comp_def]

theorem erase_getD (i : ℕ) : f.erase.fragWin.getD i none = (f.fragWin.getD i none).map Chain.bufs := by
  rw [erase, List.getD_eq_getElem?_getD, List.getElem?_map, List.getD_eq_getElem?_getD]
  cases f.fragWin[i]? <;> rfl

theorem erase_set {i lastFrag : ℕ} (o : Option Chain) :
    ({ f with fragWin := f.fragWin.set i o, lastFrag := lastFrag } : CFrame).erase =
      { f.erase with fragWin := f.erase.fragWin.set i (o.map Chain.bufs), lastFrag := lastFrag } := by
  simp [erase, List.map_set]

theorem erase_chainLoop : (chainLoop n f).erase = Depack.CFrame.chainLoop n f.erase := by
  induction n generalizing f with
  | zero => rfl
  | succ n ih =>
    have hlen : f.erase.fragWin.length = f.fragWin.length := by simp [erase]
    have hidx : f.erase.oldestFrag &&& (f.erase.fragWin.length - 1) =
        f.oldestFrag &&& (f.fragWin.length - 1) := by rw [hlen]; rfl
    unfold chainLoop Depack.CFrame.chainLoop
    dsimp only
    rw [hidx, erase_getD]
    cases f.fragWin.getD (f.oldestFrag &&& (f.fragWin.length - 1)) none with
    | none => rfl
    | some bc =>
      dsimp only [Option.map_some]
      rw [ih]
      congr 1
      have hprod : (f.prod.getD .create).bufs = (f.prod.map Chain.bufs).getD [] := by
        cases f.prod <;> rfl
      simp [erase, drain_bufs, hprod, List.map_set]

theorem erase_updateChain : f.updateChain.erase = f.erase.updateChain := by
  have hlen : f.erase.fragWin.length = f.fragWin.length := by simp [erase]
  unfold updateChain Depack.CFrame.updateChain
  dsimp only
  rw [hlen, ← erase_chainLoop]
  split_ifs with h h' h'
  · rfl
  · exact absurd h h'
  · exact absurd h' h
  · rfl

end CFrame

namespace CProtoModDepack

@[simp] theorem erase_frameAt : s.erase.frameAt idx = (s.frameAt idx).erase := by
  rw [Depack.CProtoModDepack.frameAt, erase, frameAt, List.getD_eq_getElem?_getD, List.getElem?_map,
    List.getD_eq_getElem?_getD, ← CFrame.erase_new]
  cases s.frameWin[idx]? <;> rfl

@[simp] theorem erase_setFrame : (s.setFrame idx f).erase = s.erase.setFrame idx f.erase := by
  simp [erase, setFrame, Depack.CProtoModDepack.setFrame, List.map_set]

@[simp] theorem erase_new (cfg : Config) : (new cfg).erase = Depack.CProtoModDepack.new cfg := by
  simp [erase, new, Depack.CProtoModDepack.new]

theorem erase_oldest : s.erase.oldest = s.oldest.erase := erase_frameAt

theorem erase_dropOldest : s.dropOldest.erase = s.erase.dropOldest := by
  have hwin : (s.setFrame (s.toFrameIdx s.oldestFrame) s.oldest.release).erase.frameWin =
      (s.erase.setFrame (s.erase.toFrameIdx s.erase.oldestFrame) s.erase.oldest.release).frameWin := by
    rw [erase_setFrame, CFrame.erase_release, erase_oldest]
    rfl
  have hprod : (s.oldest.prod.getD .create).bufs = s.oldest.erase.prod.getD [] := by
    rw [CFrame.erase]
    cases s.oldest.prod <;> rfl
  rw [dropOldest, Depack.CProtoModDepack.dropOldest, ← hwin, erase_oldest, ← hprod]
  cases hc : s.oldest.isComplete <;> simp [erase, setFrame, hc, CFrame.erase,
    Depack.CProtoModDepack.setFrame]

theorem erase_releaseOldestFrame : s.erase.releaseOldestFrame o =
    ((s.releaseOldestFrame o).1, (s.releaseOldestFrame o).2.erase) := by
  rw [releaseOldestFrame, Depack.CProtoModDepack.releaseOldestFrame, erase_oldest, ← erase_dropOldest]
  by_cases hno : s.oldestFrame = NO_FRAME
  · rw [if_pos hno]
    exact if_pos hno
  · rw [if_neg hno]
    refine (if_neg hno).trans ?_
    by_cases hw : ((o && !s.oldest.isComplete) || !s.oldest.running) = true
    · rw [if_pos hw]
      exact if_pos hw
    · rw [if_neg hw]
      exact if_neg hw

theorem erase_releaseLoop : (releaseLoop o n s).erase = s.erase.releaseLoop o n := by
  induction n generalizing s with
  | zero => rfl
  | succ n ih =>
    rw [releaseLoop, Depack.CProtoModDepack.releaseLoop, erase_releaseOldestFrame]
    cases s.releaseOldestFrame o with
    | mk b t =>
      cases b with
      | false => rfl
      | true => exact ih

theorem erase_releaseFrames : (s.releaseFrames o).erase = s.erase.releaseFrames o := erase_releaseLoop

theorem erase_frameSync : (s.frameSync n).erase = s.erase.frameSync n := by
  rw [frameSync, Depack.CProtoModDepack.frameSync, ← erase_releaseFrames]
  by_cases h : s.erase.needsSync n = true
  · rw [if_pos h, if_pos h]
    rfl
  · rw [if_neg h, if_neg h]

theorem erase_startLoop {k : ℕ} :
    (startLoop idx n k s).erase = s.erase.startLoop idx n k := by
  induction n generalizing k s with
  | zero => rfl
  | succ n ih =>
    rw [startLoop, Depack.CProtoModDepack.startLoop]
    by_cases h : k = idx
    · rw [if_pos h, if_pos h]
    · rw [if_neg h, if_neg h, ih, erase_setFrame, erase_frameAt]
      rfl

theorem erase_openFrame : (s.openFrame n idx).erase = s.erase.openFrame n idx := by
  unfold openFrame Depack.CProtoModDepack.openFrame
  dsimp only
  have hfirst : (s.setFrame idx { s.frameAt idx with prod := some .create, frameID := n }).erase =
      s.erase.setFrame idx { s.erase.frameAt idx with prod := some [], frameID := n } := by
    rw [erase_setFrame, erase_frameAt]
    rfl
  rw [erase_setFrame, ← hfirst]
  generalize s.setFrame idx { s.frameAt idx with prod := some .create, frameID := n } = t
  have hloop : (startLoop idx t.cfg.frameWinSize (t.toFrameIdx t.oldestFrame) t).erase =
      t.erase.startLoop idx t.cfg.frameWinSize (t.toFrameIdx t.oldestFrame) := erase_startLoop
  have hrun : ∀ f : CFrame, ({ f with running := true } : CFrame).erase =
      { f.erase with running := true } := fun f ↦ rfl
  rw [hrun, ← erase_frameAt]
  exact congrArg (fun t ↦ Depack.CProtoModDepack.setFrame idx { t.frameAt idx with running := true } t)
    hloop

theorem erase_trim {g lastFrag : ℕ} : Depack.CProtoModDepack.trim g lastFrag c.bufs =
    match trim g lastFrag c with
    | (_, some e) => .error e
    | (c, none) => .ok c.bufs := by
  have htail : ∀ bc : Chain, (if g ≠ lastFrag then
      match bc.bufs.getLast? with
      | none => .ok bc.bufs
      | some bt => (bt.setSize ((bt.getSize : ℤ) - axis.TAIL_SIZE)).bind fun bt ↦
        .ok (bc.bufs.dropLast ++ [bt])
      else Except.ok bc.bufs) =
        match skipTail g lastFrag bc with
        | (_, some e) => .error e
        | (c, none) => .ok c.bufs := by
    intro bc
    rw [skipTail]
    by_cases hg : g ≠ lastFrag
    · rw [if_pos hg, if_pos hg]
      cases hlast : bc.bufs.getLast? with
      | none => rfl
      | some bt =>
        dsimp only
        cases bt.setSize ((bt.getSize : ℤ) - axis.TAIL_SIZE) with
        | error e => rfl
        | ok bt' => exact congrArg Except.ok (Chain.setTail_bufs hlast bt').symm
    · rw [if_neg hg, if_neg hg]
  unfold Depack.CProtoModDepack.trim trim skipHeader
  cases hb : c.bufs with
  | nil =>
    have h := htail c
    rw [hb] at h
    exact h
  | cons bh rest =>
    dsimp only
    by_cases hg : g ≠ 0
    · rw [if_pos hg, if_pos hg]
      cases hp : bh.setPayload HEADER_SIZE with
      | error e => rfl
      | ok bh' =>
        have h := htail (c.setHead bh')
        rw [Chain.setHead_bufs hb bh'] at h
        exact h
    · rw [if_neg hg, if_neg hg]
      have h := htail c
      rw [hb] at h
      exact h

/-- What a step leaves, without the sizes, where it does not throw. -/
def outcome (r : CProtoModDepack × Option DepackError) :
    Except DepackError Depack.CProtoModDepack :=
  match r.2 with
  | some e => .error e
  | none => .ok r.1.erase

theorem outcome_storeFrag {g : ℕ} :
    outcome (s.storeFrag g idx c) = s.erase.storeFrag g idx c.bufs := by
  unfold storeFrag Depack.CProtoModDepack.storeFrag
  dsimp only [bind, Except.bind, pure, Except.pure]
  rw [erase_frameAt, erase_trim]
  dsimp only [CFrame.erase]
  cases trim g (markLast (tailEOF c.bufs) g (s.frameAt idx).lastFrag) c with
  | mk c' thrown =>
    cases thrown with
    | some e => rfl
    | none =>
      dsimp only [outcome, liftBuf]
      rw [erase_setFrame, CFrame.erase_updateChain, CFrame.erase_set]
      rfl

theorem outcome_acceptFrag {hdr : CAxisFrameHeader} :
    outcome (s.acceptFrag hdr c) = s.erase.acceptFrag hdr c.bufs := by
  unfold acceptFrag Depack.CProtoModDepack.acceptFrag
  dsimp only
  rw [erase_frameAt, CFrame.erase_getD, Option.isSome_map, ← erase_openFrame, apply_ite outcome]
  refine ite_congr rfl (fun _ ↦ rfl) fun _ ↦ ?_
  rw [apply_ite outcome]
  refine ite_congr rfl (fun _ ↦ rfl) fun _ ↦ ?_
  rw [apply_ite outcome]
  refine ite_congr rfl (fun _ ↦ outcome_storeFrag) fun _ ↦ ?_
  rw [apply_ite outcome]
  refine ite_congr rfl (fun _ ↦ rfl) fun _ ↦ ?_
  rw [apply_ite outcome]
  refine ite_congr rfl (fun _ ↦ rfl) fun _ ↦ ?_
  rw [apply_ite outcome]
  exact ite_congr rfl (fun _ ↦ rfl) fun _ ↦ outcome_storeFrag

theorem outcome_testedFrag {hdr : CAxisFrameHeader} :
    outcome (s.testedFrag hdr c) = s.erase.testedFrag hdr c.bufs := by
  unfold testedFrag Depack.CProtoModDepack.testedFrag
  cases s.erase.frameTest hdr.frameNo with
  | drop resync => rw [← erase_frameSync]; rfl
  | evict =>
    rw [erase_releaseOldestFrame]
    exact outcome_acceptFrag
  | pass => exact outcome_acceptFrag

theorem erase_adopt {hdr : CAxisFrameHeader} : (s.adopt hdr).erase = s.erase.adopt hdr := by
  unfold adopt Depack.CProtoModDepack.adopt
  exact apply_ite erase _ _ _

/-- The model without the sizes takes the same datagrams and throws the same exceptions. -/
theorem outcome_processBuffer : outcome (s.processBuffer c) = s.erase.processBuffer c.bufs := by
  unfold processBuffer Depack.CProtoModDepack.processBuffer
  cases hb : c.bufs with
  | nil => rfl
  | cons bh rest =>
    dsimp only
    cases CAxisFrameHeader.parse bh.getPayload bh.getSize with
    | none => rfl
    | some hdr =>
      dsimp only
      rw [outcome_testedFrag, erase_adopt, hb]

def Input.erase : Input → Depack.CProtoModDepack.Input
  | .datagram bc => .datagram bc.bufs
  | .timeout => .timeout

theorem outcome_receive {i : Input} : outcome (s.receive i) = s.erase.receive i.erase := by
  cases i with
  | datagram bc =>
    rw [receive, Input.erase, Depack.CProtoModDepack.receive, ← outcome_processBuffer]
    cases s.processBuffer bc with
    | mk t thrown =>
      cases thrown with
      | some e => rfl
      | none => exact congrArg Except.ok erase_releaseFrames
  | timeout =>
    rw [receive, Input.erase, Depack.CProtoModDepack.receive, erase_releaseOldestFrame,
      ← erase_releaseFrames]
    rfl

end CProtoModDepack

end Erase

end Cpsw.Depack.Sized
