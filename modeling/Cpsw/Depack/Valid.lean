import Cpsw.Depack.Fragment
import Cpsw.Depack.Sized

namespace Cpsw.Depack

/-- The payloads lie within their buffers, and their sizes add up to the one that is recorded. -/
structure Chain.Valid (c : Chain) : Prop where
  ok : ∀ b ∈ c.bufs, b.Ok
  sized : c.Sized

namespace Chain.Valid

variable {c prod : Chain} {b b' : Buf} {bufs : BufChain} {n : ℕ}

theorem create : Chain.create.Valid := ⟨fun _ hb ↦ absurd hb List.not_mem_nil, sized_create⟩

theorem setHead (h : c.Valid) (hc : c.bufs = b :: bufs) (hb : b'.Ok) : (c.setHead b').Valid := by
  refine ⟨?_, h.sized.setHead b'⟩
  rw [setHead_bufs hc]
  intro x hx
  rcases List.mem_cons.1 hx with rfl | hx
  · exact hb
  · exact h.ok x (hc ▸ List.mem_cons_of_mem b hx)

theorem setTail (h : c.Valid) (hc : c.bufs.getLast? = some b) (hb : b'.Ok) :
    (c.setTail b').Valid := by
  refine ⟨?_, h.sized.setTail b'⟩
  rw [setTail_bufs hc]
  intro x hx
  rcases List.mem_append.1 hx with hx | hx
  · exact h.ok x (List.mem_of_mem_dropLast hx)
  · rw [List.mem_singleton.1 hx]
    exact hb

theorem addAtTail (h : c.Valid) (hb : b.Ok) : (c.addAtTail b).Valid := by
  refine ⟨?_, h.sized.addAtTail b⟩
  rw [addAtTail_bufs]
  intro x hx
  rcases List.mem_append.1 hx with hx | hx
  · exact h.ok x hx
  · rw [List.mem_singleton.1 hx]
    exact hb

theorem drain (h : c.Valid) (hprod : prod.Valid) : (Sized.drain n c prod).Valid := by
  induction n generalizing c prod with
  | zero => exact hprod
  | succ n ih =>
    rw [Sized.drain]
    cases hc : c.bufs with
    | nil => exact hprod
    | cons b bufs =>
      have hrest : c.unlinkHead.bufs = bufs := by rw [unlinkHead, hc]
      apply ih
      · refine ⟨fun x hx ↦ h.ok x ?_, h.sized.unlinkHead⟩
        rw [hrest] at hx
        exact hc ▸ List.mem_cons_of_mem b hx
      · exact hprod.addAtTail (h.ok b (hc ▸ List.mem_cons_self))

end Chain.Valid

/-- The header is read from the bytes of the first buffer, and from no others. -/
theorem parse_content (b : Buf) :
    CAxisFrameHeader.parse b.getPayload b.getSize = CAxisFrameHeader.parse b.content b.getSize := by
  rcases Nat.lt_or_ge b.getSize 8 with hlt | hge
  · rcases Nat.eq_zero_or_pos b.getSize with h0 | hpos
    · unfold CAxisFrameHeader.parse PackHeader.parse
      rw [h0]
      rfl
    · have hshort : ∀ p, CAxisFrameHeader.parse p b.getSize = none := by
        intro p
        unfold CAxisFrameHeader.parse PackHeader.parse
        split_ifs with h₁ h₂ h₃
        · rfl
        · rfl
        · rfl
        · exact absurd hlt h₃
      rw [hshort, hshort]
  · have htake : b.content.take 8 = b.getPayload.take 8 := by
      rw [Buf.content, List.take_take, Nat.min_eq_left hge]
    rw [parse_take _ hge, parse_take _ hge, htake]

namespace CProtoModDepack

/-- What `processBuffer` asks of the number of a fragment before it goes into the window. -/
def fits (hdr : CAxisFrameHeader) (s : CProtoModDepack) : Bool :=
  let frame := s.frameAt (s.toFrameIdx hdr.frameNo)
  decide (frame.oldestFrag ≤ hdr.fragNo ∧ hdr.fragNo < frame.oldestFrag + s.cfg.fragWinSize) &&
    (decide (frame.frameID = NO_FRAME) || (decide (frame.frameID = hdr.frameNo) &&
      (frame.fragWin.getD (s.toFragIdx hdr.fragNo) none).isNone &&
        decide (frame.lastFrag = NO_FRAG ∨ hdr.fragNo ≤ frame.lastFrag)))

/-- Whether a datagram goes into the window. -/
def takes (bc : BufChain) (s : CProtoModDepack) : Bool :=
  match bc with
  | [] => false
  | bh :: _ =>
    match CAxisFrameHeader.parse bh.getPayload bh.getSize with
    | none => false
    | some hdr =>
      match (s.adopt hdr).frameTest hdr.frameNo with
      | .drop _ => false
      | .evict => fits hdr ((s.adopt hdr).releaseOldestFrame false).2
      | .pass => fits hdr (s.adopt hdr)

end CProtoModDepack

namespace Sized

open Depack.CProtoModDepack (takes fits)

/-- The chains of a frame are valid. -/
structure CFrame.Valid (f : CFrame) : Prop where
  prod : ∀ c, f.prod = some c → c.Valid
  fragWin : ∀ c, some c ∈ f.fragWin → c.Valid

/-- All chains are: those that have been passed on, and those that are left. -/
structure CProtoModDepack.Valid (s : CProtoModDepack) : Prop where
  frames : ∀ f ∈ s.frameWin, f.Valid
  pushed : ∀ c ∈ s.pushed, c.Valid

namespace CFrame.Valid

variable {f : CFrame} {n i : ℕ} {c : Chain}

theorem new : (CFrame.new n).Valid := by
  refine ⟨fun c hc ↦ (nomatch hc), fun c hc ↦ ?_⟩
  cases List.eq_of_mem_replicate hc

theorem release (f : CFrame) : f.release.Valid := by
  refine ⟨fun c hc ↦ (nomatch hc), fun c hc ↦ ?_⟩
  obtain ⟨o, -, ho⟩ := List.mem_map.1 hc
  cases ho

theorem prod_getD (h : f.Valid) : (f.prod.getD .create).Valid := by
  cases hp : f.prod with
  | none => exact .create
  | some c => exact h.prod c hp

theorem set (h : f.Valid) (hc : c.Valid) : ∀ d, some d ∈ f.fragWin.set i (some c) → d.Valid := by
  intro d hd
  rcases List.mem_or_eq_of_mem_set hd with hd | hd
  · exact h.fragWin d hd
  · cases hd
    exact hc

theorem chainLoop (h : f.Valid) : (CFrame.chainLoop n f).Valid := by
  induction n generalizing f with
  | zero => exact h
  | succ n ih =>
    rw [CFrame.chainLoop]
    cases hw : f.fragWin.getD (f.oldestFrag &&& (f.fragWin.length - 1)) none with
    | none => exact h
    | some bc =>
      have hmem : some bc ∈ f.fragWin := by
        rw [List.getD_eq_getElem?_getD] at hw
        cases hget : f.fragWin[f.oldestFrag &&& (f.fragWin.length - 1)]? with
        | none =>
          rw [hget] at hw
          cases hw
        | some o =>
          rw [hget] at hw
          exact hw ▸ List.mem_of_getElem? hget
      apply ih
      refine ⟨fun c hc ↦ ?_, fun c hc ↦ ?_⟩
      · cases hc
        exact (h.fragWin bc hmem).drain h.prod_getD
      · rcases List.mem_or_eq_of_mem_set hc with hc | hc
        · exact h.fragWin c hc
        · cases hc

theorem updateChain (h : f.Valid) : f.updateChain.Valid := by
  have hloop := h.chainLoop (n := f.fragWin.length)
  unfold CFrame.updateChain
  dsimp only
  split_ifs
  · exact ⟨hloop.prod, hloop.fragWin⟩
  · exact hloop

end CFrame.Valid

namespace CProtoModDepack.Valid

variable {s : CProtoModDepack} {f : CFrame} {o : Bool} {n i k : ℕ}

theorem new (cfg : Config) : (CProtoModDepack.new cfg).Valid := by
  refine ⟨fun f hf ↦ ?_, fun c hc ↦ absurd hc List.not_mem_nil⟩
  rw [List.eq_of_mem_replicate hf]
  exact .new

theorem frameAt (h : s.Valid) (i : ℕ) : (s.frameAt i).Valid := by
  rw [CProtoModDepack.frameAt, List.getD_eq_getElem?_getD]
  cases hf : s.frameWin[i]? with
  | none => exact .new
  | some f => exact h.frames f (List.mem_of_getElem? hf)

theorem setFrame (h : s.Valid) (hf : f.Valid) : (s.setFrame i f).Valid := by
  refine ⟨fun g hg ↦ ?_, h.pushed⟩
  rcases List.mem_or_eq_of_mem_set hg with hg | rfl
  · exact h.frames g hg
  · exact hf

theorem dropOldest (h : s.Valid) : s.dropOldest.Valid := by
  refine ⟨(h.setFrame (.release _)).frames, fun c hc ↦ ?_⟩
  change c ∈ (if s.oldest.isComplete then s.pushed ++ [s.oldest.prod.getD .create] else s.pushed) at hc
  split_ifs at hc
  · rcases List.mem_append.1 hc with hc | hc
    · exact h.pushed c hc
    · rw [List.mem_singleton.1 hc]
      exact (h.frameAt _).prod_getD
  · exact h.pushed c hc

theorem releaseOldestFrame (h : s.Valid) : (s.releaseOldestFrame o).2.Valid := by
  unfold CProtoModDepack.releaseOldestFrame
  split_ifs
  · exact h
  · exact h
  · exact h.dropOldest

theorem releaseLoop (h : s.Valid) : (CProtoModDepack.releaseLoop o n s).Valid := by
  induction n generalizing s with
  | zero => exact h
  | succ n ih =>
    have hstep := h.releaseOldestFrame (o := o)
    rw [CProtoModDepack.releaseLoop]
    cases hr : s.releaseOldestFrame o with
    | mk b t =>
      rw [hr] at hstep
      cases b with
      | false => exact hstep
      | true => exact ih hstep

theorem releaseFrames (h : s.Valid) : (s.releaseFrames o).Valid := h.releaseLoop

theorem frameSync (h : s.Valid) : (s.frameSync n).Valid := by
  have hrel := h.releaseFrames (o := false)
  unfold CProtoModDepack.frameSync
  split_ifs
  · exact ⟨hrel.frames, hrel.pushed⟩
  · exact h

theorem startLoop (h : s.Valid) : (CProtoModDepack.startLoop i n k s).Valid := by
  induction n generalizing k s with
  | zero => exact h
  | succ n ih =>
    rw [CProtoModDepack.startLoop]
    split_ifs
    · exact h
    · exact ih (h.setFrame ⟨(h.frameAt k).prod, (h.frameAt k).fragWin⟩)

theorem openFrame (h : s.Valid) : (s.openFrame n i).Valid := by
  have hopened := (h.setFrame (i := i) (f := { s.frameAt i with prod := some .create, frameID := n })
    ⟨fun c hc ↦ Option.some.inj hc ▸ .create, (h.frameAt i).fragWin⟩)
  have hstarted := hopened.startLoop (i := i)
    (n := s.cfg.frameWinSize) (k := s.toFrameIdx s.oldestFrame)
  exact hstarted.setFrame ⟨(hstarted.frameAt i).prod, (hstarted.frameAt i).fragWin⟩

theorem adopt {hdr : CAxisFrameHeader} (h : s.Valid) : (s.adopt hdr).Valid := by
  unfold CProtoModDepack.adopt
  split_ifs
  · exact ⟨h.frames, h.pushed⟩
  · exact h

/-- A fragment that is trimmed to a valid chain may go into the window, thrown or not. -/
theorem storeFrag {c : Chain} {g : ℕ} (h : s.Valid) (hc : ∀ lastFrag, (trim g lastFrag c).1.Valid) :
    (s.storeFrag g i c).1.Valid := by
  unfold CProtoModDepack.storeFrag
  dsimp only
  generalize hlast : Depack.CProtoModDepack.markLast (Depack.CProtoModDepack.tailEOF c.bufs) g
    (s.frameAt i).lastFrag = lastFrag
  have htrim := hc lastFrag
  generalize trim g lastFrag c = r at htrim ⊢
  obtain ⟨bc, thrown⟩ := r
  have hframe : ({ s.frameAt i with
      fragWin := (s.frameAt i).fragWin.set (s.toFragIdx g) (some bc), lastFrag := lastFrag } :
        CFrame).Valid :=
    ⟨(h.frameAt i).prod, (h.frameAt i).set htrim⟩
  cases thrown with
  | some e => exact h.setFrame hframe
  | none => exact h.setFrame hframe.updateChain

end CProtoModDepack.Valid

section Trim

variable {c : Chain} {g lastFrag : ℕ}

theorem skipTail_valid (hc : c.Valid) (hlast : ∀ bt, c.bufs.getLast? = some bt → 0 < bt.getSize) :
    ∃ c', skipTail g lastFrag c = (c', none) ∧ c'.Valid := by
  unfold skipTail
  split_ifs
  · cases hl : c.bufs.getLast? with
    | none => exact ⟨c, rfl, hc⟩
    | some bt =>
      have hok := hc.ok bt (List.mem_of_getLast? hl)
      have hpos := hlast bt hl
      have hset : bt.setSize ((bt.getSize : ℤ) - axis.TAIL_SIZE) = .ok { bt with fin := bt.fin - 1 } :=
        hok.setSize_pred hpos
      dsimp only
      rw [hset]
      exact ⟨_, rfl, hc.setTail hl (hok.shrink hpos)⟩
  · exact ⟨c, rfl, hc⟩

/-- There is enough to cut off at either end. -/
theorem trim_valid (hc : c.Valid) (hhead : ∀ bh, c.bufs.head? = some bh → HEADER_SIZE ≤ bh.getSize)
    (hsize : HEADER_SIZE + axis.TAIL_SIZE ≤ total c.bufs)
    (hlast : ∀ bt, c.bufs.getLast? = some bt → 0 < bt.getSize) :
    ∃ c', trim g lastFrag c = (c', none) ∧ c'.Valid := by
  unfold trim skipHeader
  cases hb : c.bufs with
  | nil => exact skipTail_valid hc hlast
  | cons bh rest =>
    dsimp only
    by_cases hg : g ≠ 0
    · have hle := hhead bh (by rw [hb]; rfl)
      have hok := hc.ok bh (hb ▸ List.mem_cons_self)
      have hfin := hok.le
      rw [if_pos hg, hok.setPayload_eq hle]
      dsimp only
      refine skipTail_valid (hc.setHead hb ⟨?_, hok.fits, hok.capa⟩) fun bt hbt ↦ ?_
      · simp only [Buf.getSize, HEADER_SIZE] at hle ⊢
        omega
      · rw [Chain.setHead_bufs hb] at hbt
        cases rest with
        | nil =>
          rw [List.getLast?_singleton] at hbt
          obtain rfl := Option.some.inj hbt
          simp only [hb, total_cons, total_nil, Buf.getSize, axis, HEADER_SIZE] at hsize ⊢
          omega
        | cons b rest =>
          apply hlast bt
          rw [hb]
          exact hbt
    · rw [if_neg hg]
      exact skipTail_valid hc hlast

end Trim

section Process

variable {s : CProtoModDepack} {bc bc' : Chain} {hdr : CAxisFrameHeader}

theorem fits_iff {f : CFrame} (hf : s.frameAt (s.toFrameIdx hdr.frameNo) = f) :
    fits hdr s.erase = true ↔ (f.oldestFrag ≤ hdr.fragNo ∧
      hdr.fragNo < f.oldestFrag + s.cfg.fragWinSize) ∧ (f.frameID = NO_FRAME ∨ f.frameID = hdr.frameNo ∧
        (f.fragWin.getD (s.toFragIdx hdr.fragNo) none).isSome = false ∧
          (f.lastFrag = NO_FRAG ∨ hdr.fragNo ≤ f.lastFrag)) := by
  have hframe : s.erase.frameAt (s.erase.toFrameIdx hdr.frameNo) = f.erase := by
    rw [CProtoModDepack.erase_frameAt, ← hf]
    rfl
  simp only [fits, hframe, CFrame.erase_getD, Option.isSome_map, Bool.and_eq_true, Bool.or_eq_true,
    decide_eq_true_eq, and_assoc, ← Option.not_isSome, Bool.not_eq_true']
  rfl

theorem acceptFrag_fits (h : fits hdr s.erase = true) (hs : s.Valid) :
    ∃ t : CProtoModDepack, ∃ i, t.Valid ∧ s.acceptFrag hdr bc = t.storeFrag hdr.fragNo i bc := by
  obtain ⟨⟨hold, hnew⟩, hslot⟩ := (fits_iff rfl).1 h
  unfold CProtoModDepack.acceptFrag
  dsimp only
  rw [if_neg (Nat.not_lt_of_le hold), if_neg (Nat.not_le_of_lt hnew)]
  by_cases hid : (s.frameAt (s.toFrameIdx hdr.frameNo)).frameID = NO_FRAME
  · rw [if_pos hid]
    exact ⟨_, _, hs.openFrame, rfl⟩
  · obtain ⟨heq, hfree, hlast⟩ := hslot.resolve_left hid
    rw [if_neg hid, if_neg (not_not.2 heq), if_neg (Bool.eq_false_iff.1 hfree), if_neg (by omega)]
    exact ⟨s, _, hs, rfl⟩

theorem acceptFrag_not_fits (h : fits hdr s.erase = false) :
    ∃ thrown, ∀ bc, s.acceptFrag hdr bc = (s, thrown) := by
  have hnot := mt (fits_iff rfl).2 (Bool.eq_false_iff.1 h)
  unfold CProtoModDepack.acceptFrag
  dsimp only
  split_ifs with hold hnew hid heq hfree hlast
  · exact ⟨none, fun _ ↦ rfl⟩
  · exact ⟨none, fun _ ↦ rfl⟩
  · exact absurd ⟨⟨Nat.le_of_not_lt hold, Nat.lt_of_not_le hnew⟩, .inl hid⟩ hnot
  · exact ⟨some .frameIDWindow, fun _ ↦ rfl⟩
  · exact ⟨none, fun _ ↦ rfl⟩
  · exact ⟨none, fun _ ↦ rfl⟩
  · refine absurd ⟨⟨Nat.le_of_not_lt hold, Nat.lt_of_not_le hnew⟩, .inr ⟨not_not.1 heq, ?_, ?_⟩⟩ hnot
    · simpa using hfree
    · omega

/-- A datagram that is not taken leaves nothing behind, whatever its buffers are like after the
first one. -/
theorem processBuffer_dropped (h : takes bc.bufs s.erase = false) (hs : s.Valid) :
    (s.processBuffer bc).1.Valid ∧ ∀ bc' : Chain, bc'.bufs.head? = bc.bufs.head? →
      s.processBuffer bc' = s.processBuffer bc := by
  have hcase : ∃ r : CProtoModDepack × Option DepackError, r.1.Valid ∧
      ∀ bc' : Chain, bc'.bufs.head? = bc.bufs.head? → s.processBuffer bc' = r := by
    unfold CProtoModDepack.processBuffer
    cases hb : bc.bufs with
    | nil =>
      refine ⟨(s, some .emptyChain), hs, fun bc' hbc ↦ ?_⟩
      rw [List.head?_eq_none_iff.1 hbc]
    | cons bh rest =>
      rw [hb, takes] at h
      have hsame : ∀ bc' : Chain, bc'.bufs.head? = some bh → ∃ rest', bc'.bufs = bh :: rest' :=
        fun bc' hbc ↦ List.head?_eq_some_iff.1 hbc
      cases hp : CAxisFrameHeader.parse bh.getPayload bh.getSize with
      | none =>
        refine ⟨(s, none), hs, fun bc' hbc ↦ ?_⟩
        obtain ⟨rest', hb'⟩ := hsame bc' hbc
        rw [hb']
        dsimp only
        rw [hp]
      | some hdr =>
        have hadopt := @CProtoModDepack.Valid.adopt s hdr hs
        rw [hp] at h
        dsimp only at h
        rw [← CProtoModDepack.erase_adopt] at h
        have htested : ∃ r : CProtoModDepack × Option DepackError, r.1.Valid ∧
            ∀ bc' : Chain, (s.adopt hdr).testedFrag hdr bc' = r := by
          unfold CProtoModDepack.testedFrag
          cases htest : (s.adopt hdr).erase.frameTest hdr.frameNo with
          | drop resync => exact ⟨_, hadopt.frameSync, fun _ ↦ rfl⟩
          | evict =>
            rw [htest, CProtoModDepack.erase_releaseOldestFrame] at h
            obtain ⟨thrown, heq⟩ := acceptFrag_not_fits h
            exact ⟨_, hadopt.releaseOldestFrame, heq⟩
          | pass =>
            rw [htest] at h
            obtain ⟨thrown, heq⟩ := acceptFrag_not_fits h
            exact ⟨_, hadopt, heq⟩
        obtain ⟨r, hr, heq⟩ := htested
        refine ⟨r, hr, fun bc' hbc ↦ ?_⟩
        obtain ⟨rest', hb'⟩ := hsame bc' hbc
        rw [hb']
        dsimp only
        rw [hp]
        exact heq bc'
  obtain ⟨r, hr, heq⟩ := hcase
  rw [heq bc rfl]
  exact ⟨hr, heq⟩

theorem processBuffer_taken (h : takes bc.bufs s.erase = true) (hs : s.Valid) :
    ∃ bh t g i, bc.bufs.head? = some bh ∧ HEADER_SIZE ≤ bh.getSize ∧ t.Valid ∧
      s.processBuffer bc = CProtoModDepack.storeFrag g i bc t := by
  cases hb : bc.bufs with
  | nil =>
    rw [hb] at h
    cases h
  | cons bh rest =>
    rw [hb, takes] at h
    unfold CProtoModDepack.processBuffer
    rw [hb]
    dsimp only
    cases hp : CAxisFrameHeader.parse bh.getPayload bh.getSize with
    | none =>
      rw [hp] at h
      cases h
    | some hdr =>
      have hadopt := @CProtoModDepack.Valid.adopt s hdr hs
      rw [hp] at h
      dsimp only at h ⊢
      rw [← CProtoModDepack.erase_adopt] at h
      unfold CProtoModDepack.testedFrag
      cases htest : (s.adopt hdr).erase.frameTest hdr.frameNo with
      | drop resync =>
        rw [htest] at h
        cases h
      | evict =>
        rw [htest, CProtoModDepack.erase_releaseOldestFrame] at h
        obtain ⟨t, i, ht, heq⟩ := @acceptFrag_fits _ bc _ h hadopt.releaseOldestFrame
        exact ⟨bh, t, _, i, rfl, parse_size hp, ht, heq⟩
      | pass =>
        rw [htest] at h
        obtain ⟨t, i, ht, heq⟩ := @acceptFrag_fits _ bc _ h hadopt
        exact ⟨bh, t, _, i, rfl, parse_size hp, ht, heq⟩

/-- What holds when a datagram has been processed: header and tail were looked for among the bytes
received, all chains are as they should be, and what is too short for both has been dropped. -/
structure Safe (s : CProtoModDepack) (bc : Chain) : Prop where
  header : ∀ bh, bc.bufs.head? = some bh → CAxisFrameHeader.parse bh.getPayload bh.getSize =
    CAxisFrameHeader.parse bh.content bh.getSize
  tail : takes bc.bufs s.erase = true → ∀ bt, bc.bufs.getLast? = some bt →
    bt.beg + axis.TAIL_SIZE ≤ bt.fin
  valid : (s.processBuffer bc).1.Valid
  short : total bc.bufs < HEADER_SIZE + axis.TAIL_SIZE → takes bc.bufs s.erase = false

/-- Room for a header and a tail, which is in the last buffer. -/
structure HasTail (bc : BufChain) : Prop where
  size : HEADER_SIZE + axis.TAIL_SIZE ≤ total bc
  last : ∀ bt, bc.getLast? = some bt → 0 < bt.getSize

theorem safe_iff (hs : s.Valid) (hbc : bc.Valid) :
    Safe s bc ↔ (takes bc.bufs s.erase = true → HasTail bc.bufs) := by
  constructor
  · intro h htakes
    refine ⟨?_, fun bt hbt ↦ ?_⟩
    · by_contra hlt
      rw [h.short (Nat.lt_of_not_le hlt)] at htakes
      cases htakes
    · have hle := h.tail htakes bt hbt
      simp only [Buf.getSize, axis] at hle ⊢
      omega
  · intro h
    refine ⟨fun bh _ ↦ parse_content bh, fun htakes bt hbt ↦ ?_, ?_, fun hlt ↦ ?_⟩
    · have hpos := (h htakes).last bt hbt
      simp only [Buf.getSize, axis] at hpos ⊢
      omega
    · cases htakes : takes bc.bufs s.erase with
      | false => exact (processBuffer_dropped htakes hs).1
      | true =>
        obtain ⟨hsize, hlast⟩ := h htakes
        obtain ⟨bh, t, g, i, hhead, hle, ht, heq⟩ := processBuffer_taken htakes hs
        have hheader : ∀ b, bc.bufs.head? = some b → HEADER_SIZE ≤ b.getSize := by
          intro b hb
          rw [hhead] at hb
          exact Option.some.inj hb ▸ hle
        rw [heq]
        apply ht.storeFrag
        intro lastFrag
        obtain ⟨c', hc', hvalid⟩ := @trim_valid bc g lastFrag hbc hheader hsize hlast
        exact hc' ▸ hvalid
    · by_contra htakes
      exact absurd (h (by simpa using htakes)).size (Nat.not_le_of_lt hlt)

/-- The states that datagrams and timeouts lead to, as long as what is taken has a tail. -/
inductive Reaches (cfg : Config) : CProtoModDepack → Prop
  | new : Reaches cfg (.new cfg)
  | receive {s : CProtoModDepack} {i : CProtoModDepack.Input} : Reaches cfg s →
      (∀ bc, i = .datagram bc → bc.Valid ∧ (takes bc.bufs s.erase = true → HasTail bc.bufs)) →
      Reaches cfg (s.receive i).1

theorem Reaches.valid {cfg : Config} (h : Reaches cfg s) : s.Valid := by
  induction h with
  | new => exact .new cfg
  | @receive s i h hi ih =>
    cases i with
    | datagram bc =>
      obtain ⟨hbc, htail⟩ := hi bc rfl
      have hprocessed := ((safe_iff ih hbc).2 htail).valid
      rw [CProtoModDepack.receive]
      generalize s.processBuffer bc = r at hprocessed ⊢
      obtain ⟨t, thrown⟩ := r
      cases thrown with
      | some e => exact hprocessed
      | none => exact hprocessed.releaseFrames
    | timeout => exact ih.releaseOldestFrame.releaseFrames

end Process

/-- A datagram in one buffer. -/
def received (p : Bytes) : Chain := { bufs := [⟨p, 0, p.length⟩], size := p.length }

theorem received_valid {p : Bytes} (h : p.length < 2 ^ 16) : (received p).Valid := by
  refine ⟨fun b hb ↦ ?_, ?_⟩
  · rw [List.mem_singleton.1 hb]
    exact ⟨Nat.zero_le _, le_rfl, h⟩
  · simp [received, Chain.Sized, Buf.getSize]

/-- The first fragment of a frame, without any payload. -/
def afterFirst : CProtoModDepack :=
  ((CProtoModDepack.new ⟨1, 1, by decide, by decide⟩).receive
    (.datagram (received [0, 0, 0, 0, 0, 0, 0, 2, 0]))).1

theorem afterFirst_reaches : Reaches ⟨1, 1, by decide, by decide⟩ afterFirst := by
  refine .receive .new fun bc hbc ↦ ?_
  cases hbc
  exact ⟨received_valid (by decide), fun _ ↦ ⟨by decide, by decide⟩⟩

end Sized

end Cpsw.Depack
