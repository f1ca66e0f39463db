import Cpsw.BufHeap.Insert

namespace Cpsw.BufHeap

open Cpsw.Lib

variable {maxcap capa c me b s : ℕ} {h h' : Heap} {xs u v : List ℕ}

/-- The end of the payload, as `setSize` computes it, is not in front of the payload. -/
def Heap.EndsBehind (h : Heap) (me s : ℕ) : Prop :=
  (h.buf me).beg ≤ ((h.buf me).beg + s) % 2 ^ 32

instance : Decidable (h.EndsBehind me s) := inferInstanceAs (Decidable (_ ≤ _))

namespace Inv

theorem setSize (hi : Inv maxcap h) (hs : h.EndsBehind me s) : Inv maxcap (h.setSize me s).1 := by
  obtain ⟨hok, hcap⟩ := hi.ok me
  unfold Heap.EndsBehind at hs
  have hmod : (((h.buf me).beg : ℤ) + (s : ℕ)) % 2 ^ 32 = (((h.buf me).beg + s) % 2 ^ 32 : ℕ) := by
    push_cast
    rfl
  unfold Heap.setSize Buf.setSize
  by_cases hfit : ((((h.buf me).beg : ℤ) + (s : ℕ)) % 2 ^ 32).toNat > (h.buf me).getCapacity
  · simp only [if_pos hfit]
    exact hi
  · simp only [if_neg hfit]
    rw [hi.oldSize_eq]
    rw [hmod, Int.toNat_natCast] at hfit ⊢
    exact hi.resize ⟨hs, not_lt.1 hfit, hok.capa⟩ hcap

theorem setPayload (hi : Inv maxcap h) (p : Option ℤ) : Inv maxcap (h.setPayload me p).1 := by
  obtain ⟨hok, hcap⟩ := hi.ok me
  have hle := hok.le
  have hfits := hok.fits
  unfold Heap.setPayload
  cases p with
  | none =>
    dsimp only
    rw [hi.oldSize_eq]
    exact hi.resize ⟨Nat.zero_le _, hfits, hok.capa⟩ hcap
  | some p =>
    dsimp only
    split_ifs with hp
    · exact hi
    · rw [not_or, not_lt, not_lt] at hp
      have hpc : p.toNat ≤ (h.buf me).getCapacity := by omega
      rw [hi.oldSize_eq]
      exact hi.resize ⟨le_max_right _ _, max_le hfits hpc, hok.capa⟩ hcap

theorem adjPayload (hi : Inv maxcap h) (delta : ℤ) : Inv maxcap (h.adjPayload me delta).1 := by
  obtain ⟨hok, hcap⟩ := hi.ok me
  have hle := hok.le
  unfold Heap.adjPayload Buf.adjPayload
  split_ifs with hd
  · exact hi
  · apply hi.resize
    · refine ⟨?_, hok.fits, hok.capa⟩
      change ((h.buf me).beg + delta).toNat ≤ (h.buf me).fin
      rw [not_or, not_lt, not_lt, Buf.getSize] at hd
      omega
    · exact hcap

theorem reinit_eq (hi : Inv maxcap h) (me : ℕ) : h.reinit me = h.resize me
    { h.buf me with beg := Buf.HEADROOM, fin := Buf.HEADROOM } (h.getSize me) := by
  rw [Heap.reinit, hi.oldSize_eq]

theorem reinit (hi : Inv maxcap h) (hcap : Buf.HEADROOM ≤ maxcap) : Inv maxcap (h.reinit me) := by
  obtain ⟨hok, hcap'⟩ := hi.ok me
  rw [hi.reinit_eq]
  exact hi.resize ⟨le_rfl, hcap.trans hcap'.ge, hok.capa⟩ hcap'

/-- A size that fits in the storage is set. -/
theorem setSize_eq (hi : Inv maxcap h) (hs : (h.buf me).beg + s ≤ maxcap) : h.setSize me s =
    (h.resize me { h.buf me with fin := (h.buf me).beg + s } (h.getSize me), none) := by
  obtain ⟨hok, hcap⟩ := hi.ok me
  have hcapa := hok.capa
  have hbuf := hok.setSize_eq (s := s) (by omega)
  rw [if_neg (by omega)] at hbuf
  simp only [Heap.setSize, hbuf, hi.oldSize_eq]

theorem toSize_getSize (hi : Inv maxcap h) (i : ℕ) : toSize (h.getSize i) = (h.buf i).getSize := by
  obtain ⟨hok, -⟩ := hi.ok i
  have hfits := hok.fits
  have hcapa := hok.capa
  rw [hi.getSize_eq, toSize]
  unfold Buf.getSize
  omega

theorem getAvail_eq (hi : Inv maxcap h) (i : ℕ) : h.getAvail i = (maxcap : ℤ) - (h.buf i).fin := by
  rw [Heap.getAvail, (hi.ok i).2]

end Inv

/-- The buffer behind whose payload `p` has been written. -/
def appended (b : Buf) (p : Bytes) : Buf where
  data := b.data.take b.fin ++ p ++ b.data.drop (b.fin + p.length)
  beg := b.beg
  fin := b.fin + p.length

section Appended

variable {b : Buf} {p : Bytes}

theorem appended_capacity (hp : b.fin + p.length ≤ b.getCapacity) :
    (appended b p).getCapacity = b.getCapacity := by
  unfold Buf.getCapacity at *
  simp only [appended, List.length_append, List.length_take, List.length_drop]
  omega

theorem appended_ok (hb : b.Ok) (hp : b.fin + p.length ≤ b.getCapacity) : (appended b p).Ok := by
  have hcap := appended_capacity hp
  refine ⟨?_, hp.trans hcap.ge, hcap.trans_lt hb.capa⟩
  exact hb.le.trans (Nat.le_add_right _ _)

theorem appended_content (hb : b.Ok) :
    (appended b p).content = b.content ++ p := by
  have hle := hb.le
  have hlen : (b.data.take b.fin).length = b.fin := by
    rw [List.length_take]
    exact min_eq_left hb.fits
  have hold : (b.data.take b.fin).drop b.beg = b.content := by
    rw [Buf.content, Buf.getPayload, Buf.getSize, List.drop_take]
  have hsize : b.fin + p.length - b.beg = (b.content ++ p).length := by
    rw [List.length_append, hb.content_length, Buf.getSize]
    omega
  simp only [Buf.content, Buf.getPayload, Buf.getSize, appended]
  rw [List.append_assoc, List.drop_append_of_le_length (by omega), hold, ← List.append_assoc, hsize,
    List.take_left]
  rfl

end Appended

/-- What `insert` copies comes behind the payload. -/
theorem Inv.appendTo_eq (hi : Inv maxcap h) {p : Bytes} (hp : (h.buf b).fin + p.length ≤ maxcap) :
    h.appendTo b p = .ok (h.resize b (appended (h.buf b) p) (h.getSize b)) := by
  obtain ⟨hok, hcap⟩ := hi.ok b
  have hcapa := hok.capa
  have hle := hok.le
  have hfits := hok.fits
  have hcap' := appended_capacity (hp.trans hcap.ge)
  have hend : ((((h.buf b).beg : ℤ) + ((h.buf b).getSize + p.length : ℕ)) % 2 ^ 32).toNat =
      (h.buf b).fin + p.length := by
    unfold Buf.getSize
    omega
  have hlen : ¬(h.buf b).fin + p.length > (appended (h.buf b) p).data.length :=
    not_lt.2 (hp.trans (hcap.ge.trans hcap'.ge))
  -- the bytes are written before the size changes
  let h₁ := h.setBuf b { h.buf b with data := (appended (h.buf b) p).data }
  have hbuf : h₁.buf b = { h.buf b with data := (appended (h.buf b) p).data } :=
    Function.update_self ..
  have hold : h₁.oldSize b = h.getSize b := by
    rw [← hi.oldSize_eq, Heap.oldSize, Heap.oldSize, Heap.getSize, hbuf, Heap.getSize]
  have hset : h₁.setSize b (toSize (h.getSize b) + p.length) =
      (h₁.resize b (appended (h.buf b) p) (h.getSize b), none) := by
    simp only [Heap.setSize, Buf.setSize, hold, hbuf, hi.toSize_getSize, hend, Buf.getCapacity,
      if_neg hlen]
    rfl
  have hresize : h₁.resize b (appended (h.buf b) p) (h.getSize b) =
      h.resize b (appended (h.buf b) p) (h.getSize b) := by
    have hidem : h₁.setBuf b (appended (h.buf b) p) = h.setBuf b (appended (h.buf b) p) := by
      simp only [h₁, Heap.setBuf, Function.update_idem]
    have hon : h₁.chainOf b = h.chainOf b := rfl
    simp only [Heap.resize, hon, hidem]
  have happend : h.appendTo b p =
      orThrow (h₁.setSize b (toSize (h.getSize b) + p.length)) := if_neg (by omega)
  rw [happend, hset, hresize]
  rfl

end Cpsw.BufHeap
