import Cpsw.Depack.Slots

namespace Cpsw.Depack

open Cpsw.Lib.Circular Cpsw.Lib.Run

namespace CFrame

variable {f : CFrame} {F n g : ℕ}

/-- The fragment `g` lies within the window of the frame, is none of those that wait there, and
does not follow the last one. -/
structure Takes (F g : ℕ) (f : CFrame) : Prop where
  ge : f.oldestFrag ≤ g
  lt : g < f.oldestFrag + F
  free : f.fragWin.getD (g &&& (F - 1)) none = none
  last : f.lastFrag = NO_FRAG ∨ g ≤ f.lastFrag

def stored (idx lastFrag : ℕ) (bc : BufChain) (f : CFrame) : CFrame :=
  { f with fragWin := f.fragWin.set idx (some bc), lastFrag := lastFrag }.updateChain

theorem Blank.takes (h : f.Blank F) (hg : g < F) : (f.opened n).Takes F g := by
  refine ⟨?_, ?_, ?_, .inl h.lastFrag⟩
  · change f.oldestFrag ≤ g
    rw [h.oldestFrag]
    exact Nat.zero_le g
  · change g < f.oldestFrag + F
    rw [h.oldestFrag]
    omega
  · change f.fragWin.getD _ none = none
    rw [h.fragWin, List.getD_eq_getElem?_getD, List.getElem?_replicate]
    split_ifs <;> rfl

/-- What a fragment does not change, a loop over the window does not either. -/
theorem chainLoop_keeps (n : ℕ) (f : CFrame) : (chainLoop n f).fragWin.length = f.fragWin.length ∧
    (chainLoop n f).frameID = f.frameID ∧ (chainLoop n f).running = f.running ∧
      (chainLoop n f).lastFrag = f.lastFrag := by
  induction n generalizing f with
  | zero => exact ⟨rfl, rfl, rfl, rfl⟩
  | succ n ih =>
    unfold chainLoop
    dsimp only
    split
    · exact ⟨rfl, rfl, rfl, rfl⟩
    · obtain ⟨h₁, h₂, h₃, h₄⟩ := ih { f with
          prod := some (f.prod.getD [] ++ _)
          nFrags := f.nFrags + 1
          fragWin := f.fragWin.set (f.oldestFrag &&& (f.fragWin.length - 1)) none
          oldestFrag := f.oldestFrag + 1 }
      refine ⟨h₁.trans List.length_set, h₂, h₃, h₄⟩

theorem updateChain_keeps (f : CFrame) : f.updateChain.fragWin.length = f.fragWin.length ∧
    f.updateChain.frameID = f.frameID ∧ f.updateChain.running = f.running := by
  obtain ⟨h₁, h₂, h₃, -⟩ := chainLoop_keeps f.fragWin.length f
  unfold updateChain
  dsimp only
  split_ifs
  · exact ⟨h₁, h₂, h₃⟩
  · exact ⟨h₁, h₂, h₃⟩

theorem stored_keeps (idx lastFrag : ℕ) (bc : BufChain) (f : CFrame) :
    (f.stored idx lastFrag bc).fragWin.length = f.fragWin.length ∧
      (f.stored idx lastFrag bc).frameID = f.frameID ∧
        (f.stored idx lastFrag bc).running = f.running := by
  obtain ⟨h₁, h₂, h₃⟩ := updateChain_keeps
    { f with fragWin := f.fragWin.set idx (some bc), lastFrag := lastFrag }
  exact ⟨h₁.trans List.length_set, h₂, h₃⟩

/-- A frame that has taken a fragment still has its slot. -/
theorem Shape.stored (h : f.Shape F n) (hid : f.frameID ≠ NO_FRAME) (hr : f.running = true)
    (idx lastFrag : ℕ) (bc : BufChain) : (f.stored idx lastFrag bc).Shape F n := by
  obtain ⟨h₁, h₂, h₃⟩ := stored_keeps idx lastFrag bc f
  refine ⟨h₁.trans h.length, fun hn ↦ ?_, fun hn ↦ ?_, fun hn ↦ ?_⟩
  · rw [h₃, hr] at hn
    contradiction
  · exact absurd (h₂ ▸ hn) hid
  · rw [h₂]
    exact h.frameID hid

theorem Shape.running (h : f.Shape F n) (hid : f.frameID ≠ NO_FRAME) : f.running = true := by
  by_contra hr
  exact hid ((h.idle (by simpa using hr)).frameID)

end CFrame

namespace CProtoModDepack

variable {s s' : CProtoModDepack} {P : ℕ → CFrame → Prop} {base k : ℕ} {hdr : CAxisFrameHeader}
  {bc : BufChain}

theorem storeFrag_ok {g idx : ℕ} (h : s.storeFrag g idx bc = .ok s') :
    ∃ bc', trim g (markLast (tailEOF bc) g (s.frameAt idx).lastFrag) bc = .ok bc' ∧
      s' = s.setFrame idx ((s.frameAt idx).stored (s.toFragIdx g)
        (markLast (tailEOF bc) g (s.frameAt idx).lastFrag) bc') := by
  unfold storeFrag at h
  obtain ⟨bc', hb, hs⟩ := bind_ok.1 h
  refine ⟨bc', ?_, (Except.ok.inj hs).symm⟩
  unfold liftBuf at hb
  split at hb
  · rename_i a ha
    rw [ha, Except.ok.inj hb]
  · cases hb

theorem storeFrag_error {g idx : ℕ} {e : DepackError} (h : s.storeFrag g idx bc = .error e) :
    ∃ e', e = .buf e' ∧
      trim g (markLast (tailEOF bc) g (s.frameAt idx).lastFrag) bc = .error e' := by
  unfold storeFrag at h
  cases ht : trim g (markLast (tailEOF bc) g (s.frameAt idx).lastFrag) bc with
  | ok bc' =>
    simp only [ht, liftBuf] at h
    cases h
  | error e' =>
    simp only [ht, liftBuf] at h
    exact ⟨e', (Except.error.inj h).symm, rfl⟩

theorem Slots.slotIdx_eq (h : Slots P base s) (k : ℕ) :
    s.toFrameIdx ((base + k) % 4096) = s.slotIdx k := by
  rw [slotIdx, toFrameIdx_eq, toFrameIdx_eq, h.oldest,
    Nat.mod_mod_of_dvd _ s.cfg.frameWinSize_dvd, Nat.add_mod (base % 4096) k,
    Nat.mod_mod_of_dvd _ s.cfg.frameWinSize_dvd, ← Nat.add_mod]

theorem Opened.slotIdx {n : ℕ} {t : CProtoModDepack} (h : Opened k n s t) :
    t.slotIdx k = s.slotIdx k := by
  unfold CProtoModDepack.slotIdx toFrameIdx
  rw [h.cfg, h.oldest]

/-- `t` is `s` up to the first fragment of a frame, and what can be told of the slot `k` of `t`. -/
structure Ready (P : ℕ → CFrame → Prop) (base k g : ℕ) (s t : CProtoModDepack) : Prop where
  slots : Slots P base t
  cfg : t.cfg = s.cfg
  oldest : t.oldestFrame = s.oldestFrame
  pushed : t.pushed = s.pushed
  running : ∀ i < s.cfg.frameWinSize, (t.slot i).running = true → i ≤ k ∨ (s.slot i).running = true
  frameID : (t.slot k).frameID ≠ NO_FRAME
  takes : (t.slot k).Takes s.cfg.fragWinSize g

/-- A fragment of a frame within the window is dropped, or goes to the slot of its frame. -/
theorem Slots.acceptFrag (hP : FrameInv s.cfg.fragWinSize P) (h : Slots P base s)
    (hk : k < s.cfg.frameWinSize) (hf : hdr.frameNo = (base + k) % 4096) :
    s.acceptFrag hdr bc = .ok s ∨ ∃ t, Ready P base k hdr.fragNo s t ∧
      s.acceptFrag hdr bc = t.storeFrag hdr.fragNo (t.slotIdx k) bc := by
  have hidx := h.slotIdx_eq k
  have hshape := hP.shape _ _ (h.holds k hk)
  unfold CProtoModDepack.acceptFrag
  simp only [hf, hidx]
  split_ifs with h₁ h₂ h₃ h₄ h₅ h₆
  · exact .inl rfl
  · exact .inl rfl
  · obtain ⟨hs, ho⟩ := h.openFrame hP hk h₃
    have hblank := hshape.empty h₃
    refine .inr ⟨_, ⟨hs, ho.cfg, ho.oldest, ho.pushed, ho.running, ?_, ?_⟩, ?_⟩
    · rw [ho.slot]
      change (base + k) % 4096 ≠ NO_FRAME
      unfold NO_FRAME
      omega
    · rw [ho.slot]
      have h0 : (s.slot k).oldestFrag = 0 := hblank.oldestFrag
      change ¬hdr.fragNo ≥ (s.slot k).oldestFrag + _ at h₂
      exact hblank.takes (by omega)
    · rw [ho.slotIdx]
  · exact absurd (hshape.frameID h₃).symm (fun he ↦ h₄ he.symm)
  · exact .inl rfl
  · exact .inl rfl
  · refine .inr ⟨s, ⟨h, rfl, rfl, rfl, fun _ _ hr ↦ .inr hr, h₃, ?_⟩, rfl⟩
    refine ⟨Nat.le_of_not_lt h₁, Nat.lt_of_not_le h₂, ?_, ?_⟩
    · exact Option.not_isSome_iff_eq_none.1 h₅
    · by_contra hl
      obtain ⟨hl₁, hl₂⟩ := not_or.1 hl
      exact h₆ ⟨hl₁, Nat.lt_of_not_le hl₂⟩

/-- The slot of the frame after it has taken the fragment. -/
theorem Ready.stored {t : CProtoModDepack} {g lastFrag : ℕ} {bc' : BufChain}
    (h : Ready P base k g s t) (hP : FrameInv s.cfg.fragWinSize P) (hk : k < s.cfg.frameWinSize)
    (hf : P (base + k) ((t.slot k).stored (t.toFragIdx g) lastFrag bc')) :
    Slots P base (t.setFrame (t.slotIdx k) ((t.slot k).stored (t.toFragIdx g) lastFrag bc')) := by
  have hkt : k < t.cfg.frameWinSize := h.cfg ▸ hk
  have hrun := (hP.shape _ _ (h.slots.holds k hkt)).running h.frameID
  refine h.slots.setFrame hkt hf (fun _ ↦ ?_) (h.slots.first k hkt hrun)
  rw [(CFrame.stored_keeps _ _ _ _).2.2]
  exact hrun

end CProtoModDepack

end Cpsw.Depack
