import Cpsw.Depack.FrameWindow

namespace Cpsw.Depack

open Cpsw.Lib.Circular Cpsw.Lib.Run

/-- Nothing of a frame has arrived; its timeout may be running. -/
structure CFrame.Blank (F : ℕ) (f : CFrame) : Prop where
  prod : f.prod = none
  nFrags : f.nFrags = 0
  frameID : f.frameID = NO_FRAME
  oldestFrag : f.oldestFrag = 0
  lastFrag : f.lastFrag = NO_FRAG
  fragWin : f.fragWin = List.replicate F none
  isComplete : f.isComplete = false

theorem CFrame.blank_new (F : ℕ) : (CFrame.new F).Blank F := ⟨rfl, rfl, rfl, rfl, rfl, rfl, rfl⟩

theorem CFrame.blank_release {F : ℕ} {f : CFrame} (h : f.fragWin.length = F) : f.release.Blank F :=
  ⟨rfl, rfl, rfl, rfl, rfl, by rw [← h]; exact List.map_const', rfl⟩

/-- The first fragment of the frame `n` has come. -/
def CFrame.opened (n : ℕ) (f : CFrame) : CFrame :=
  { f with prod := some [], frameID := n % 4096, running := true }

/-- A slot without a frame is blank; a frame has the number that its place in the window says. -/
structure CFrame.Shape (F n : ℕ) (f : CFrame) : Prop where
  length : f.fragWin.length = F
  idle : f.running = false → f.Blank F
  empty : f.frameID = NO_FRAME → f.Blank F
  frameID : f.frameID ≠ NO_FRAME → f.frameID = n % 4096

/-- What can be said of the slot of the frame `n`, whichever fragments have come. -/
structure FrameInv (F : ℕ) (P : ℕ → CFrame → Prop) : Prop where
  shape : ∀ n f, P n f → f.Shape F n
  blank : ∀ (n : ℕ) (f : CFrame), f.Blank F → P n f
  start : ∀ n f, P n f → P n { f with running := true }
  opened : ∀ (n : ℕ) (f : CFrame), f.Blank F → P n (f.opened n)

namespace CProtoModDepack

variable {s s' : CProtoModDepack} {P : ℕ → CFrame → Prop} {base : ℕ}

def slotIdx (k : ℕ) (s : CProtoModDepack) : ℕ := s.toFrameIdx (s.oldestFrame + k)

/-- The slot of the frame that is `k` after the oldest one. -/
def slot (k : ℕ) (s : CProtoModDepack) : CFrame := s.frameAt (s.slotIdx k)

/-- The slots hold the frames from `base` on; those whose timeout runs come first. -/
structure Slots (P : ℕ → CFrame → Prop) (base : ℕ) (s : CProtoModDepack) : Prop where
  length : s.frameWin.length = s.cfg.frameWinSize
  oldest : s.oldestFrame = base % 4096
  holds : ∀ k < s.cfg.frameWinSize, P (base + k) (s.slot k)
  first : ∀ k < s.cfg.frameWinSize, (s.slot k).running = true → ∀ j < k, (s.slot j).running = true

theorem toFrameIdx_eq (n : ℕ) : s.toFrameIdx n = n % s.cfg.frameWinSize := land_mask _ _

theorem slotIdx_lt (k : ℕ) : s.slotIdx k < s.cfg.frameWinSize := by
  rw [slotIdx, toFrameIdx_eq]
  exact Nat.mod_lt _ s.cfg.frameWinSize_pos

theorem slotIdx_inj {j k : ℕ} (hj : j < s.cfg.frameWinSize) (hk : k < s.cfg.frameWinSize)
    (h : s.slotIdx j = s.slotIdx k) : j = k := by
  rw [slotIdx, slotIdx, toFrameIdx_eq, toFrameIdx_eq] at h
  exact offset_inj hj hk h

theorem slotIdx_surj {i : ℕ} (hi : i < s.cfg.frameWinSize) :
    ∃ k < s.cfg.frameWinSize, s.slotIdx k = i := by
  obtain ⟨k, hk, he⟩ := @offset_surj _ s.oldestFrame _ hi
  exact ⟨k, hk, by rw [slotIdx, toFrameIdx_eq, he]⟩

theorem frameAt_setFrame {i j : ℕ} (hi : i < s.frameWin.length) (f : CFrame) :
    (s.setFrame i f).frameAt j = if j = i then f else s.frameAt j := by
  unfold frameAt setFrame
  simp only [List.getD_eq_getElem?_getD, List.getElem?_set]
  by_cases h : i = j
  · subst h
    simp [hi]
  · rw [if_neg h, if_neg (fun he ↦ h he.symm)]

theorem slot_setFrame {j k : ℕ} (hl : s.frameWin.length = s.cfg.frameWinSize)
    (hj : j < s.cfg.frameWinSize) (hk : k < s.cfg.frameWinSize) (f : CFrame) :
    (s.setFrame (s.slotIdx k) f).slot j = if j = k then f else s.slot j := by
  have hi : s.slotIdx k < s.frameWin.length := hl ▸ slotIdx_lt k
  change (s.setFrame (s.slotIdx k) f).frameAt (s.slotIdx j) = _
  rw [frameAt_setFrame hi]
  by_cases h : j = k
  · rw [if_pos (congrArg (s.slotIdx ·) h), if_pos h]
  · rw [if_neg (fun he ↦ h (slotIdx_inj hj hk he)), if_neg h]
    rfl

/-- A slot whose timeout runs may be written, and one that follows only such slots. -/
theorem Slots.setFrame {k : ℕ} {f : CFrame} (h : Slots P base s) (hk : k < s.cfg.frameWinSize)
    (hf : P (base + k) f) (hr : (s.slot k).running = true → f.running = true)
    (hfirst : ∀ j < k, (s.slot j).running = true) :
    Slots P base (s.setFrame (s.slotIdx k) f) := by
  refine ⟨(List.length_set).trans h.length, h.oldest, fun j hj ↦ ?_, fun j hj hjr i hi ↦ ?_⟩
  · rw [slot_setFrame h.length hj hk]
    split_ifs with he
    · rw [he]
      exact hf
    · exact h.holds j hj
  · change j < s.cfg.frameWinSize at hj
    rw [slot_setFrame h.length hj hk] at hjr
    rw [slot_setFrame h.length (by omega) hk]
    rcases Nat.lt_or_ge i k with hik | hik
    · rw [if_neg (by omega)]
      exact hfirst i hik
    · rw [if_neg (by omega)] at hjr
      have hir := h.first j hj hjr i hi
      split_ifs with he
      · exact hr (he ▸ hir)
      · exact hir

theorem slot_dropOldest {k : ℕ} (hl : s.frameWin.length = s.cfg.frameWinSize)
    (hk : k < s.cfg.frameWinSize) :
    s.dropOldest.slot k = if k + 1 = s.cfg.frameWinSize then (s.slot 0).release else s.slot (k + 1) := by
  have hpos := s.cfg.frameWinSize_pos
  have hmod : (CAxisFrameHeader.moduloFrameSz (s.oldestFrame + 1) + k) % s.cfg.frameWinSize =
      (s.oldestFrame + (k + 1)) % s.cfg.frameWinSize := by
    change ((s.oldestFrame + 1) % 4096 + k) % s.cfg.frameWinSize = _
    rw [Nat.add_mod, Nat.mod_mod_of_dvd _ s.cfg.frameWinSize_dvd, ← Nat.add_mod,
      Nat.add_right_comm, Nat.add_assoc]
  change (s.setFrame (s.slotIdx 0) (s.slot 0).release).frameAt
    (s.toFrameIdx (CAxisFrameHeader.moduloFrameSz (s.oldestFrame + 1) + k)) = _
  rw [toFrameIdx_eq, hmod, ← toFrameIdx_eq]
  change (s.setFrame (s.slotIdx 0) (s.slot 0).release).slot (k + 1) = _
  by_cases hkl : k + 1 = s.cfg.frameWinSize
  · have h0 : s.slotIdx (k + 1) = s.slotIdx 0 := by
      rw [slotIdx, slotIdx, toFrameIdx_eq, toFrameIdx_eq, hkl, Nat.add_mod_right, Nat.add_zero]
    change (s.setFrame (s.slotIdx 0) (s.slot 0).release).frameAt (s.slotIdx (k + 1)) = _
    rw [h0, if_pos hkl]
    exact (slot_setFrame hl hpos hpos _).trans (if_pos rfl)
  · rw [slot_setFrame hl (by omega) hpos, if_neg (by omega), if_neg hkl]

theorem Slots.dropOldest (hP : FrameInv s.cfg.fragWinSize P) (h : Slots P base s) :
    Slots P (base + 1) s.dropOldest := by
  have hpos := s.cfg.frameWinSize_pos
  refine ⟨(List.length_set).trans h.length, ?_, fun k hk ↦ ?_, fun k hk hkr j hj ↦ ?_⟩
  · change (s.oldestFrame + 1) % 4096 = _
    rw [h.oldest]
    omega
  · change k < s.cfg.frameWinSize at hk
    rw [slot_dropOldest h.length hk]
    split_ifs with hl
    · exact hP.blank _ _ (CFrame.blank_release (hP.shape _ _ (h.holds 0 hpos)).length)
    · have := h.holds (k + 1) (by omega)
      rwa [← Nat.add_assoc, Nat.add_right_comm] at this
  · change k < s.cfg.frameWinSize at hk
    rw [slot_dropOldest h.length hk] at hkr
    rw [slot_dropOldest h.length (by omega), if_neg (by omega)]
    split_ifs at hkr with hl
    · contradiction
    · exact h.first (k + 1) (by omega) hkr (j + 1) (by omega)

theorem release_false {onlyComplete : Bool} (hr : s.releaseOldestFrame onlyComplete = (false, s')) :
    s' = s ∧ (s.oldestFrame = NO_FRAME ∨ s.oldest.running = false ∨
      onlyComplete = true ∧ s.oldest.isComplete = false) := by
  unfold releaseOldestFrame at hr
  split_ifs at hr with h₁ h₂
  · exact ⟨(Prod.mk.inj hr).2.symm, .inl h₁⟩
  · simp only [Bool.or_eq_true, Bool.and_eq_true, Bool.not_eq_true'] at h₂
    exact ⟨(Prod.mk.inj hr).2.symm, .inr h₂.symm⟩
  · cases hr

theorem release_true {onlyComplete : Bool} (hr : s.releaseOldestFrame onlyComplete = (true, s')) :
    s' = s.dropOldest ∧ s.oldestFrame ≠ NO_FRAME ∧ s.oldest.running = true ∧
      (onlyComplete = true → s.oldest.isComplete = true) := by
  unfold releaseOldestFrame at hr
  split_ifs at hr with h₁ h₂
  · cases hr
  · cases hr
  · simp only [Bool.or_eq_true, Bool.and_eq_true, Bool.not_eq_true', not_or, not_and,
      Bool.not_eq_false] at h₂
    exact ⟨(Prod.mk.inj hr).2.symm, h₁, h₂.2, h₂.1⟩

/-- What each release of the oldest frame keeps, a loop of them keeps. -/
theorem releaseLoop_inv {I : ℕ → CProtoModDepack → Prop} (onlyComplete : Bool) (n : ℕ)
    (step : ∀ b t, I b t → t.oldestFrame ≠ NO_FRAME → t.oldest.running = true → I (b + 1) t.dropOldest)
    (h : I base s) : ∃ b, I b (releaseLoop onlyComplete n s) := by
  induction n generalizing s base with
  | zero => exact ⟨base, h⟩
  | succ n ih =>
    unfold releaseLoop
    split
    · rename_i s' hr
      rw [(release_false hr).1]
      exact ⟨base, h⟩
    · rename_i s' hr
      obtain ⟨rfl, hn, hrun, -⟩ := release_true hr
      exact ih (step base s h hn hrun)

/-- Where incomplete frames are released, too, no timeout is left running. -/
theorem releaseLoop_idle (hP : FrameInv s.cfg.fragWinSize P) (n : ℕ) (h : Slots P base s)
    (hn : ∀ k < s.cfg.frameWinSize, n ≤ k → (s.slot k).running = false) :
    ∀ k < s.cfg.frameWinSize, ((releaseLoop false n s).slot k).running = false := by
  have hpos := s.cfg.frameWinSize_pos
  induction n generalizing s base with
  | zero => exact fun k hk ↦ hn k hk (Nat.zero_le _)
  | succ n ih =>
    unfold releaseLoop
    split
    · rename_i s' hr
      obtain ⟨rfl, hc⟩ := release_false hr
      have hne : s'.oldestFrame ≠ NO_FRAME := by
        rw [h.oldest]
        unfold NO_FRAME
        omega
      have h0 : (s'.slot 0).running = false := by
        rcases hc with hc | hc | ⟨hc, -⟩
        · exact absurd hc hne
        · exact hc
        · contradiction
      intro k hk
      rcases Nat.eq_zero_or_pos k with rfl | hk0
      · exact h0
      · by_contra hr
        have := h.first k hk (by simpa using hr) 0 hk0
        rw [h0] at this
        contradiction
    · rename_i s' hr
      obtain ⟨rfl, -, hrun, -⟩ := release_true hr
      refine ih (s := s.dropOldest) hP (h.dropOldest hP) (fun k hk hnk ↦ ?_) hpos
      change k < s.cfg.frameWinSize at hk
      rw [slot_dropOldest h.length hk]
      split_ifs with hl
      · rfl
      · exact hn (k + 1) (by omega) (by omega)

/-- No slot holds anything, and no timeout runs. -/
structure Idle (s : CProtoModDepack) : Prop where
  length : s.frameWin.length = s.cfg.frameWinSize
  blank : ∀ i < s.cfg.frameWinSize, (s.frameAt i).Blank s.cfg.fragWinSize
  idle : ∀ i < s.cfg.frameWinSize, (s.frameAt i).running = false

theorem idle_new (cfg : Config) : (new cfg).Idle := by
  have hat : ∀ i, (new cfg).frameAt i = CFrame.new cfg.fragWinSize := by
    intro i
    simp only [frameAt, new, List.getD_eq_getElem?_getD, List.getElem?_replicate]
    split_ifs <;> rfl
  refine ⟨List.length_replicate, fun i _ ↦ ?_, fun i _ ↦ ?_⟩
  · rw [hat i]
    exact CFrame.blank_new _
  · rw [hat i]
    rfl

/-- An idle window may start anywhere. -/
theorem Idle.slots (hP : FrameInv s.cfg.fragWinSize P) (h : Idle s) {o : ℕ} (ho : o = base % 4096) :
    Slots P base { s with oldestFrame := o } := by
  have hat : ∀ k, ({ s with oldestFrame := o } : CProtoModDepack).slotIdx k < s.cfg.frameWinSize :=
    fun k ↦ slotIdx_lt k
  refine ⟨h.length, ho, fun k _ ↦ hP.blank _ _ (h.blank _ (hat k)), fun k _ hr j _ ↦ ?_⟩
  have := h.idle _ (hat k)
  change (s.frameAt _).running = true at hr
  rw [this] at hr
  contradiction

theorem Slots.idle (hP : FrameInv s.cfg.fragWinSize P) (h : Slots P base s)
    (hr : ∀ k < s.cfg.frameWinSize, (s.slot k).running = false) : Idle s := by
  have hat : ∀ i < s.cfg.frameWinSize, ∃ k < s.cfg.frameWinSize, s.frameAt i = s.slot k := by
    intro i hi
    obtain ⟨k, hk, rfl⟩ := slotIdx_surj hi
    exact ⟨k, hk, rfl⟩
  refine ⟨h.length, fun i hi ↦ ?_, fun i hi ↦ ?_⟩
  · obtain ⟨k, hk, he⟩ := hat i hi
    rw [he]
    exact (hP.shape _ _ (h.holds k hk)).idle (hr k hk)
  · obtain ⟨k, hk, he⟩ := hat i hi
    rw [he]
    exact hr k hk

theorem Slots.ne_noFrame (h : Slots P base s) : s.oldestFrame ≠ NO_FRAME := by
  have := h.oldest
  unfold NO_FRAME
  omega

theorem slotIdx_succ (k : ℕ) : s.toFrameIdx (s.slotIdx k + 1) = s.slotIdx (k + 1) := by
  rw [slotIdx, slotIdx, toFrameIdx_eq, toFrameIdx_eq, toFrameIdx_eq, Nat.mod_add_mod, Nat.add_assoc]

/-- `t` is `s` where the timeouts of the slots before `k` have been started. -/
structure Started (k : ℕ) (s t : CProtoModDepack) : Prop where
  cfg : t.cfg = s.cfg
  oldest : t.oldestFrame = s.oldestFrame
  pushed : t.pushed = s.pushed
  before : ∀ i < k, (t.slot i).running = true
  after : ∀ i < s.cfg.frameWinSize, k ≤ i → t.slot i = s.slot i

theorem Slots.startLoop {k : ℕ} (hstart : ∀ n f, P n f → P n { f with running := true })
    (hk : k < s.cfg.frameWinSize) (n j : ℕ) (hj : j ≤ k) (hn : k ≤ j + n) (h : Slots P base s)
    (hb : ∀ i < j, (s.slot i).running = true) :
    Slots P base (startLoop (s.slotIdx k) n (s.slotIdx j) s) ∧
      Started k s (startLoop (s.slotIdx k) n (s.slotIdx j) s) := by
  induction n generalizing j s with
  | zero =>
    obtain rfl : j = k := by omega
    exact ⟨h, rfl, rfl, rfl, hb, fun _ _ _ ↦ rfl⟩
  | succ n ih =>
    unfold CProtoModDepack.startLoop
    split_ifs with he
    · obtain rfl := slotIdx_inj (by omega) hk he
      exact ⟨h, rfl, rfl, rfl, hb, fun _ _ _ ↦ rfl⟩
    · have hjk : j < k := by
        refine lt_of_le_of_ne hj (fun hjk ↦ he ?_)
        rw [hjk]
      rw [slotIdx_succ]
      have hs := h.setFrame (by omega) (hstart _ _ (h.holds j (by omega))) (fun _ ↦ rfl) hb
      have hb' : ∀ i < j + 1,
          ((s.setFrame (s.slotIdx j) { s.slot j with running := true }).slot i).running = true := by
        intro i hi
        rw [slot_setFrame h.length (by omega) (by omega)]
        split_ifs with hij
        · rfl
        · exact hb i (by omega)
      obtain ⟨hs', hst⟩ := ih (s := s.setFrame (s.slotIdx j) { s.slot j with running := true })
        hk (j + 1) hjk (by omega) hs hb'
      refine ⟨hs', hst.cfg, hst.oldest, hst.pushed, hst.before, fun i hi hki ↦ ?_⟩
      exact (hst.after i hi hki).trans
        ((slot_setFrame h.length hi (by omega) _).trans (if_neg (by omega)))

theorem Started.slotIdx {k j : ℕ} {t : CProtoModDepack} (h : Started k s t) :
    t.slotIdx j = s.slotIdx j := by
  unfold CProtoModDepack.slotIdx toFrameIdx
  rw [h.cfg, h.oldest]

/-- The slot `k` has taken the frame that belongs there. -/
structure Opened (k n : ℕ) (s t : CProtoModDepack) : Prop where
  cfg : t.cfg = s.cfg
  oldest : t.oldestFrame = s.oldestFrame
  pushed : t.pushed = s.pushed
  slot : t.slot k = (s.slot k).opened n
  running : ∀ i < s.cfg.frameWinSize, (t.slot i).running = true → i ≤ k ∨ (s.slot i).running = true

theorem Slots.openFrame {k : ℕ} (hP : FrameInv s.cfg.fragWinSize P) (h : Slots P base s)
    (hk : k < s.cfg.frameWinSize) (he : (s.slot k).frameID = NO_FRAME) :
    Slots P base (s.openFrame ((base + k) % 4096) (s.slotIdx k)) ∧
      Opened k (base + k) s (s.openFrame ((base + k) % 4096) (s.slotIdx k)) := by
  have hblank := (hP.shape _ _ (h.holds k hk)).empty he
  -- nothing is known of the slot `k` itself until its timeout runs, too
  let Q : ℕ → CFrame → Prop := fun n f ↦ n ≠ base + k → P n f
  let f₀ : CFrame := { s.slot k with prod := some [], frameID := (base + k) % 4096 }
  let s₀ := s.setFrame (s.slotIdx k) f₀
  have hslot₀ : ∀ i < s.cfg.frameWinSize, s₀.slot i = if i = k then f₀ else s.slot i :=
    fun i hi ↦ slot_setFrame h.length hi hk f₀
  have hrun₀ : ∀ i < s.cfg.frameWinSize, (s₀.slot i).running = (s.slot i).running := by
    intro i hi
    rw [hslot₀ i hi]
    split_ifs with hik
    · rw [hik]
    · rfl
  have h₀ : Slots Q base s₀ := by
    refine ⟨(List.length_set).trans h.length, h.oldest, fun i hi hne ↦ ?_, fun i hi hr j hj ↦ ?_⟩
    · rw [hslot₀ i hi, if_neg (fun hik ↦ hne (by rw [hik]))]
      exact h.holds i hi
    · change i < s.cfg.frameWinSize at hi
      rw [hrun₀ i hi] at hr
      rw [hrun₀ j (by omega)]
      exact h.first i hi hr j hj
  obtain ⟨h₁, hst⟩ := h₀.startLoop (s := s₀) (P := Q) (fun n f hf hne ↦ hP.start n f (hf hne)) hk s.cfg.frameWinSize 0
    (Nat.zero_le _) (by omega) (fun i hi ↦ absurd hi (Nat.not_lt_zero i))
  let s₁ := CProtoModDepack.startLoop (s.slotIdx k) s.cfg.frameWinSize (s.toFrameIdx s.oldestFrame) s₀
  change Slots Q base s₁ at h₁
  change Started k s₀ s₁ at hst
  have hk₁ : k < s₁.cfg.frameWinSize := by
    rw [hst.cfg]
    exact hk
  have hf₁ : ({ s₁.slot k with running := true } : CFrame) = (s.slot k).opened (base + k) := by
    rw [hst.after k hk le_rfl, hslot₀ k hk, if_pos rfl]
    rfl
  have hopen : s.openFrame ((base + k) % 4096) (s.slotIdx k) =
      s₁.setFrame (s₁.slotIdx k) ((s.slot k).opened (base + k)) := by
    have hidx : s₁.slotIdx k = s.slotIdx k := hst.slotIdx
    rw [← hf₁]
    unfold CProtoModDepack.slot
    rw [hidx]
    rfl
  have hslot : ∀ i < s.cfg.frameWinSize, (s.openFrame ((base + k) % 4096) (s.slotIdx k)).slot i =
      if i = k then (s.slot k).opened (base + k) else s₁.slot i := by
    intro i hi
    rw [hopen]
    refine slot_setFrame h₁.length ?_ hk₁ _
    rw [hst.cfg]
    exact hi
  have h₂ := h₁.setFrame (f := (s.slot k).opened (base + k)) hk₁
    (fun hne ↦ absurd rfl hne) (fun _ ↦ rfl) hst.before
  rw [← hopen] at h₂
  refine ⟨⟨h₂.length, h₂.oldest, fun i hi ↦ ?_, h₂.first⟩, ?_, ?_, ?_, ?_, fun i hi hr ↦ ?_⟩
  · by_cases hik : i = k
    · subst hik
      rw [hslot i hk, if_pos rfl]
      exact hP.opened _ _ hblank
    · exact h₂.holds i hi (by omega)
  · rw [hopen]
    exact hst.cfg
  · rw [hopen]
    exact hst.oldest
  · rw [hopen]
    exact hst.pushed
  · rw [hslot k hk, if_pos rfl]
  · rw [hslot i hi] at hr
    rcases Nat.lt_or_ge k i with hki | hki
    · rw [if_neg (by omega), hst.after i hi hki.le, hslot₀ i hi, if_neg (by omega)] at hr
      exact .inr hr
    · exact .inl hki

end CProtoModDepack

end Cpsw.Depack
