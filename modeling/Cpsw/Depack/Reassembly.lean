import Cpsw.Depack.FrameIDs
import Cpsw.Depack.Fragment

namespace Cpsw.Depack

open Cpsw.Lib.Circular Cpsw.Lib.Run

/-- The fragments of a frame with the number `f`, in their order. -/
structure Fragments (f : ℕ) (ps : List Bytes) : Prop where
  header : ∀ j p, ps[j]? = some p → ∃ hdr,
    CAxisFrameHeader.parse p p.length = some hdr ∧ hdr.frameNo = f ∧ hdr.fragNo = j
  long : ∀ p ∈ ps, HEADER_SIZE + axis.TAIL_SIZE ≤ p.length
  eof : ∀ j p, ps[j]? = some p → (parseTailEOF axis (tail p) = true ↔ j + 1 = ps.length)

/-- The fragments of each of the frames that are sent; the frame `n` bears the number `n % 2^12`. -/
def Numbered (fr : ℕ → List Bytes) : Prop := ∀ n, Fragments (n % 4096) (fr n)

/-- The header of the first fragment, the payloads of all of them, and the tail of the last one. -/
def content (ps : List Bytes) : Bytes :=
  (ps.headD []).take HEADER_SIZE ++ ps.flatMap payload ++ tail (ps.getLastD [])

/-- What the first `m` fragments leave in the chain of their frame. -/
def assembled (ps : List Bytes) (m : ℕ) : Bytes :=
  (List.range m).flatMap fun j ↦ kept j (ps.length - 1) (ps.getD j [])

variable {ps : List Bytes} {m : ℕ}

theorem assembled_succ (ps : List Bytes) (m : ℕ) :
    assembled ps (m + 1) = assembled ps m ++ kept m (ps.length - 1) (ps.getD m []) := by
  simp [assembled, List.range_succ]

theorem assembled_eq (hm : m + 1 ≤ ps.length) : assembled ps (m + 1) =
    (ps.headD []).take HEADER_SIZE ++ (ps.take (m + 1)).flatMap payload ++
      if m + 1 = ps.length then tail (ps.getLastD []) else [] := by
  induction m with
  | zero =>
    obtain ⟨p, rest, rfl⟩ := List.exists_cons_of_length_pos hm
    rw [assembled_succ]
    cases rest with
    | nil => simp [assembled, kept]
    | cons q rest => simp [assembled, kept]
  | succ m ih =>
    have hlt : m + 1 < ps.length := hm
    have htake : ps.take (m + 1 + 1) = ps.take (m + 1) ++ [ps.getD (m + 1) []] := by
      simp [List.take_add_one, hlt]
    rw [assembled_succ, ih hlt.le, if_neg (by omega), htake]
    simp only [kept, Nat.add_one_ne_zero, if_false, List.flatMap_append, List.flatMap_cons,
      List.flatMap_nil, List.append_nil, List.append_assoc, List.nil_append]
    congr 3
    by_cases he : m + 1 + 1 = ps.length
    · have hl : ps.getLastD [] = ps.getD (m + 1) [] := by
        rw [List.getLastD_eq_getLast?, List.getLast?_eq_getElem?, List.getD_eq_getElem?_getD]
        congr 2
        omega
      rw [if_pos he, if_pos (by omega), hl]
    · rw [if_neg he, if_neg (by omega)]

theorem assembled_length (h : ps ≠ []) : assembled ps ps.length = content ps := by
  have hpos := List.length_pos_of_ne_nil h
  obtain ⟨m, hm⟩ : ∃ m, ps.length = m + 1 := ⟨ps.length - 1, by omega⟩
  rw [hm, assembled_eq hm.ge, if_pos hm.symm, ← hm, List.take_length]
  rfl

theorem kept_congr {g last last' : ℕ} (p : Bytes) (h : g = last ↔ g = last') :
    kept g last p = kept g last' p := by
  unfold kept
  rw [if_congr h rfl rfl]

/-- What has been received so far, each fragment by its frame and its number. -/
abbrev Log := List (ℕ × ℕ)

/-- The chain of the frame `n` holds its first fragments; others wait in the window. -/
structure Parts (fr : ℕ → List Bytes) (log : Log) (F n : ℕ) (f : CFrame) : Prop where
  nFrags : f.nFrags = f.oldestFrag
  le : f.oldestFrag ≤ (fr n).length
  got : ∀ j < f.oldestFrag, (n, j) ∈ log
  prod : ∃ c : BufChain, f.prod = some c ∧ c.bytes = assembled (fr n) f.oldestFrag
  lastFrag : f.lastFrag = NO_FRAG ∨ f.lastFrag + 1 = (fr n).length
  waits : ∀ i < F, ∀ bc, view f.fragWin f.oldestFrag i = some bc →
    f.oldestFrag + i < (fr n).length ∧ (n, f.oldestFrag + i) ∈ log ∧
      BufChain.bytes bc =
        kept (f.oldestFrag + i) ((fr n).length - 1) ((fr n).getD (f.oldestFrag + i) [])
  complete : f.isComplete = true → 0 < f.oldestFrag ∧ f.oldestFrag = (fr n).length

structure Assembling (fr : ℕ → List Bytes) (log : Log) (F n : ℕ) (f : CFrame) : Prop where
  shape : f.Shape F n
  parts : f.frameID ≠ NO_FRAME → Parts fr log F n f

variable {fr : ℕ → List Bytes} {log log' : Log} {F n g : ℕ} {f : CFrame}

theorem Parts.mono (h : Parts fr log F n f) (hl : log ⊆ log') : Parts fr log' F n f := by
  refine ⟨h.nFrags, h.le, fun j hj ↦ hl (h.got j hj), h.prod, h.lastFrag, fun i hi bc hv ↦ ?_,
    h.complete⟩
  obtain ⟨h₁, h₂, h₃⟩ := h.waits i hi bc hv
  exact ⟨h₁, hl h₂, h₃⟩

theorem Assembling.mono (h : Assembling fr log F n f) (hl : log ⊆ log') : Assembling fr log' F n f :=
  ⟨h.shape, fun hid ↦ (h.parts hid).mono hl⟩

theorem assembling_frameInv (fr : ℕ → List Bytes) (log : Log) (F : ℕ) :
    FrameInv F (Assembling fr log F) := by
  have hs := CProtoModDepack.shape_frameInv F
  refine ⟨fun _ _ h ↦ h.shape, fun n f h ↦ ?_, fun n f h ↦ ?_, fun n f h ↦ ?_⟩
  · exact ⟨hs.blank n f h, fun hid ↦ absurd h.frameID hid⟩
  · refine ⟨hs.start n f h.shape, fun hid ↦ ?_⟩
    obtain ⟨h₁, h₂, h₃, h₄, h₅, h₆, h₇⟩ := h.parts hid
    exact ⟨h₁, h₂, h₃, h₄, h₅, h₆, h₇⟩
  · refine ⟨hs.opened n f h, fun _ ↦ ?_⟩
    have h0 : (f.opened n).oldestFrag = 0 := h.oldestFrag
    have hw : (f.opened n).fragWin = List.replicate F none := h.fragWin
    refine ⟨?_, ?_, ?_, ⟨[], rfl, ?_⟩, .inl h.lastFrag, ?_, ?_⟩
    · exact h.nFrags.trans h.oldestFrag.symm
    · omega
    · intro j hj
      omega
    · rw [h0]
      rfl
    · intro i _ bc hv
      rw [hw, view_replicate] at hv
      contradiction
    · intro hc
      have : f.isComplete = true := hc
      rw [h.isComplete] at this
      contradiction

theorem getD_eq_cell {α : Type} (buf : List (Option α)) (i : ℕ) : buf.getD i none = cell buf i := by
  unfold cell
  rw [List.getD_eq_getElem?_getD]
  cases buf[i]? <;> rfl

/-- One round of the loop moves the fragment that is next into the chain. -/
theorem Parts.chainLoop (c : Config) (k : ℕ) (h : Parts fr log c.fragWinSize n f)
    (hl : f.fragWin.length = c.fragWinSize) : Parts fr log c.fragWinSize n (CFrame.chainLoop k f) := by
  have hpos : 0 < c.fragWinSize := Nat.two_pow_pos _
  induction k generalizing f with
  | zero => exact h
  | succ k ih =>
    have hidx : f.oldestFrag &&& (f.fragWin.length - 1) = (f.oldestFrag + 0) % f.fragWin.length := by
      rw [hl, Nat.add_zero]
      exact land_mask _ _
    unfold CFrame.chainLoop
    dsimp only
    have hcell : cell f.fragWin ((f.oldestFrag + 0) % f.fragWin.length) =
        view f.fragWin f.oldestFrag 0 := rfl
    rw [hidx, getD_eq_cell, hcell]
    cases hv : view f.fragWin f.oldestFrag 0 with
    | none => exact h
    | some bc =>
      obtain ⟨hlt, hgot, hbytes⟩ := h.waits 0 hpos bc hv
      obtain ⟨c₀, hc₀, hb₀⟩ := h.prod
      rw [Nat.add_zero] at hlt hgot hbytes
      apply ih
      · refine ⟨congrArg (· + 1) h.nFrags, hlt, ?_, ⟨c₀ ++ bc, ?_, ?_⟩, h.lastFrag, ?_, ?_⟩
        · intro j hj
          rcases Nat.lt_succ_iff_lt_or_eq.1 hj with hj | rfl
          · exact h.got j hj
          · exact hgot
        · simp [hc₀]
        · rw [BufChain.bytes_append, hb₀, hbytes, assembled_succ]
        · intro i hi bc' hv'
          simp only at hv' ⊢
          rw [view_succ] at hv'
          rw [Nat.add_right_comm, Nat.add_assoc]
          by_cases hiF : i + 1 = c.fragWinSize
          · have hround : i + 1 =
                0 + (f.fragWin.set ((f.oldestFrag + 0) % f.fragWin.length) none).length := by
              rw [List.length_set]
              omega
            rw [hround, view_period, view_set _ _ (by omega) (by omega), if_pos rfl] at hv'
            contradiction
          · rw [view_set _ _ (by omega) (by omega), if_neg (by omega)] at hv'
            exact h.waits (i + 1) (by omega) bc' hv'
        · intro hc
          have := (h.complete hc).2
          omega
      · simp only [List.length_set]
        exact hl

theorem Parts.updateChain (c : Config) (h : Parts fr log c.fragWinSize n f)
    (hl : f.fragWin.length = c.fragWinSize) (hmax : (fr n).length < 2 ^ 24) :
    Parts fr log c.fragWinSize n f.updateChain := by
  have h' := h.chainLoop c f.fragWin.length hl
  unfold CFrame.updateChain
  dsimp only
  split_ifs with hc
  · refine ⟨h'.nFrags, h'.le, h'.got, h'.prod, h'.lastFrag, h'.waits, fun _ ↦ ?_⟩
    have hn := h'.nFrags
    have hle := h'.le
    change 0 < (CFrame.chainLoop f.fragWin.length f).oldestFrag ∧
      (CFrame.chainLoop f.fragWin.length f).oldestFrag = (fr n).length
    unfold FRAG_MAX at hc
    rcases hc with hc | hc
    · rcases h'.lastFrag with hf | hf
      · unfold NO_FRAG at hf
        omega
      · omega
    · omega
  · exact h'

/-- The fragment `g` of the frame goes to its place in the window. -/
theorem Parts.stored (c : Config) (h : Parts fr log c.fragWinSize n f)
    (hl : f.fragWin.length = c.fragWinSize) (hmax : (fr n).length < 2 ^ 24)
    (ht : f.Takes c.fragWinSize g) (hg : g < (fr n).length) (hlog : (n, g) ∈ log) {bc : BufChain}
    {lastFrag : ℕ} (hlast : lastFrag = NO_FRAG ∨ lastFrag + 1 = (fr n).length)
    (hbc : bc.bytes = kept g ((fr n).length - 1) ((fr n).getD g [])) :
    Parts fr log c.fragWinSize n (f.stored (g &&& (c.fragWinSize - 1)) lastFrag bc) := by
  obtain ⟨i, hi⟩ := Nat.exists_eq_add_of_le ht.ge
  have hlt := ht.lt
  have hidx : g &&& (c.fragWinSize - 1) = (f.oldestFrag + i) % f.fragWin.length := by
    rw [hl, ← hi]
    exact land_mask _ _
  apply Parts.updateChain c _ (List.length_set.trans hl) hmax
  refine ⟨h.nFrags, h.le, h.got, h.prod, hlast, fun j hj bc' hv ↦ ?_, h.complete⟩
  simp only at hv ⊢
  rw [hidx, view_set _ _ (by omega) (by omega)] at hv
  split_ifs at hv with hij
  · obtain rfl := hij
    obtain rfl := Option.some.inj hv
    rw [← hi]
    exact ⟨hg, hlog, hbc⟩
  · exact h.waits j hj bc' hv

end Cpsw.Depack
