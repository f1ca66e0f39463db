import Cpsw.Srp.Write
import Cpsw.Srp.Device

namespace Cpsw.Srp.Block

open ByteMux Depack Lib MemDev
open Sval (mergeByte slice splice keepMask)

variable {a : Address} {b : Block} {dev : Mem} {fw lw : Bytes} {i j : ℕ}

/-- More than two words are read back together, and only the first and the last one are sent. -/
def Collapsed (a : Address) (b : Block) : Prop :=
  b.lastbyte_in_firstwords a = true ∧ 8 < b.totbytes a

/-- Where the first word is. -/
def base (a : Address) (b : Block) : ℕ := b.off.toNat - a.headBytes b.off

/-- The bytes of the words that are written. -/
def span (a : Address) (b : Block) : ℕ := if a.byteResolution then b.totbytes a else b.nWords a * 4

theorem merge_first_false (h : b.merge_first a = false) : a.headBytes b.off = 0 ∧ b.msk1 = 0 := by
  simpa [merge_first] using h

theorem merge_end_false (h : b.merge_end a = false) :
    b.mskn = 0 ∧ (a.byteResolution = false → b.totbytes a % 4 = 0) := by
  obtain ⟨hl, hm⟩ : (a.byteResolution = false → b.totbytes a % 4 = 0) ∧ b.mskn = 0 := by
    simpa [merge_end, or_iff_not_imp_left] using h
  exact ⟨hm, hl⟩

/-- How the ends are merged, when nothing is left out. -/
inductive Shape (a : Address) (b : Block) : Prop
  | plain (first : b.merge_first a = false) (both : b.overlap a = false)
      (within : b.lastbyte_in_firstwords a = false) (short : b.short a = false)
      (last : b.lastWord a = false) (whole : b.merge_end a = false)
  | last (first : b.merge_first a = false) (both : b.overlap a = false)
      (within : b.lastbyte_in_firstwords a = false) (short : b.short a = false)
      (last : b.lastWord a = true)
  | first (first : b.merge_first a = true) (both : b.overlap a = false)
      (within : b.lastbyte_in_firstwords a = false) (short : b.short a = false)
      (last : b.lastWord a = false) (whole : b.merge_end a = false)
  | overlap (first : b.merge_first a = true) (both : b.overlap a = true)
      (within : b.lastbyte_in_firstwords a = false) (short : b.short a = false)
      (last : b.lastWord a = false) (one : b.dbytes = 1)
  | short (first : b.merge_first a = true) (both : b.overlap a = false)
      (within : b.lastbyte_in_firstwords a = true) (short : b.short a = true)
      (last : b.lastWord a = false) (many : b.dbytes ≠ 1) (le : b.totbytes a ≤ 4)
  | two (first : b.merge_first a = true) (both : b.overlap a = false)
      (within : b.lastbyte_in_firstwords a = true) (short : b.short a = false)
      (last : b.lastWord a = true) (many : b.dbytes ≠ 1) (gt : 4 < b.totbytes a)
      (le : b.totbytes a ≤ 8)
  | apart (first : b.merge_first a = true) (both : b.overlap a = false)
      (within : b.lastbyte_in_firstwords a = false) (short : b.short a = false)
      (last : b.lastWord a = true) (many : b.dbytes ≠ 1) (gt : 32 < b.totbytes a)

theorem shape (hcol : ¬b.Collapsed a) : b.Shape a := by
  unfold Collapsed at hcol
  cases hf : b.merge_first a with
  | false =>
    have ho : b.overlap a = false := by simp [overlap, hf]
    have hw : b.lastbyte_in_firstwords a = false := by simp [lastbyte_in_firstwords, hf]
    have hs : b.short a = false := by simp [Block.short, hw]
    cases he : b.merge_end a with
    | false => exact .plain hf ho hw hs (by simp [lastWord, merge_last, he, hw]) he
    | true => exact .last hf ho hw hs (by simp [lastWord, merge_last, he, ho, hw])
  | true =>
    cases he : b.merge_end a with
    | false =>
      have ho : b.overlap a = false := by simp [overlap, he]
      have hw : b.lastbyte_in_firstwords a = false := by simp [lastbyte_in_firstwords, he]
      exact .first hf ho hw (by simp [Block.short, hw]) (by simp [lastWord, merge_last, he, hw]) he
    | true =>
      by_cases hone : b.dbytes = 1
      · have ho : b.overlap a = true := by simp [overlap, hf, he, hone]
        have hw : b.lastbyte_in_firstwords a = false := by simp [lastbyte_in_firstwords, hone]
        exact .overlap hf ho hw (by simp [Block.short, hw]) (by simp [lastWord, merge_last, ho, hw])
          hone
      · have ho : b.overlap a = false := by simp [overlap, hone]
        by_cases hle : b.totbytes a ≤ FIRST_WORDS
        · have hw : b.lastbyte_in_firstwords a = true := by
            simp [lastbyte_in_firstwords, hf, he, hone, hle]
          by_cases h4 : b.totbytes a ≤ 4
          · have hs : b.short a = true := by simp [Block.short, hw, h4]
            exact .short hf ho hw hs (by simp [lastWord, merge_last, hw, hs]) hone h4
          · have hs : b.short a = false := by simp [Block.short, h4]
            exact .two hf ho hw hs (by simp [lastWord, hw, hs]) hone (by omega)
              (not_lt.1 fun h ↦ hcol ⟨hw, h⟩)
        · have hw : b.lastbyte_in_firstwords a = false := by simp [lastbyte_in_firstwords, hle]
          exact .apart hf ho hw (by simp [Block.short, hw])
            (by simp [lastWord, merge_last, he, ho, hw]) hone (not_le.1 hle)

/-- The bytes in front of those which are sent as they are in the source, and those behind them. -/
def frontlen (a : Address) (b : Block) : ℕ := if b.merge_first a then b.firstlen a else 0

def backlen (a : Address) (b : Block) : ℕ := if b.lastWord a then b.lastlen a else 0

theorem firstRead_length : (b.firstRead a).2 =
    if b.lastbyte_in_firstwords a then
      if a.byteResolution then b.totbytes a else (b.totbytes a + 3) / 4 * 4
    else if a.byteResolution then 1 else 4 := by
  unfold firstRead
  split_ifs <;> rfl

/-- The lengths and places of the pieces. -/
structure Layout (a : Address) (b : Block) : Prop where
  sum : b.frontlen a + b.toput a + b.backlen a = b.span a
  first : b.merge_first a = true → a.headBytes b.off < b.firstlen a ∧ b.firstlen a ≤ 4 ∧
    b.firstlen a ≤ (b.firstRead a).2
  room : b.merge_first a = true → a.headBytes b.off + 1 + b.remaining a ≤ FIRST_WORDS ∧
    b.remaining a < b.dbytes
  rest : b.merge_first a = true → ∀ j, a.headBytes b.off + b.remaining a < j → j < b.firstlen a →
    j < b.totbytes a → b.short a = true ∧ j + 1 = b.totbytes a
  inner : b.merge_first a = true → ∀ j, a.headBytes b.off < j → j < b.firstlen a →
    j ≤ a.headBytes b.off + b.remaining a → j + 1 ≠ b.totbytes a ∨ b.mskn = 0
  mid : 0 < b.toput a → b.frontlen a + b.toput a ≤ b.totbytes a ∧
    (b.lastWord a = false → b.mskn = 0)
  last : b.lastWord a = true → b.last_byte a < b.lastlen a ∧ b.lastlen a ≤ 4 ∧
    b.frontlen a + b.toput a + b.last_byte a + 1 = b.totbytes a

/-- Nothing is merged at the front. -/
theorem layout_whole (hpos : 0 < b.dbytes) (hf : b.merge_first a = false)
    (hw : b.lastbyte_in_firstwords a = false) (hs : b.short a = false)
    (hl : b.lastWord a = true ∨ b.lastWord a = false ∧ b.merge_end a = false) : b.Layout a := by
  have hh := a.headBytes_lt b.off
  have hres : a.byteResolution = true → a.headBytes b.off = 0 :=
    fun h ↦ Address.headBytes_bytes h _
  have hT : b.totbytes a = a.headBytes b.off + b.dbytes := rfl
  have hzero := merge_first_false hf
  have hwhole := @merge_end_false a b
  rcases hl with hl | ⟨hl, he⟩
  all_goals
    cases hr : a.byteResolution <;> constructor <;>
      simp only [frontlen, backlen, toput, span, nWords, firstlen, firstRead_length, remaining,
        last_byte, lastlen, FIRST_WORDS, RMW_COLLAPSE_EXTRA_WORDS, hf, hw, hs, hl, hr] <;> grind

/-- Only the first word is merged. -/
theorem layout_first (hpos : 0 < b.dbytes) (hf : b.merge_first a = true)
    (hw : b.lastbyte_in_firstwords a = false) (hs : b.short a = false) (hl : b.lastWord a = false)
    (hone : b.merge_end a = false ∨ b.dbytes = 1) : b.Layout a := by
  have hh := a.headBytes_lt b.off
  have hres : a.byteResolution = true → a.headBytes b.off = 0 :=
    fun h ↦ Address.headBytes_bytes h _
  have hT : b.totbytes a = a.headBytes b.off + b.dbytes := rfl
  have hwhole := @merge_end_false a b
  rcases hone with he | hone
  all_goals
    cases hr : a.byteResolution <;> constructor <;>
      simp only [frontlen, backlen, toput, span, nWords, firstlen, firstRead_length, remaining,
        last_byte, lastlen, FIRST_WORDS, RMW_COLLAPSE_EXTRA_WORDS, hf, hw, hs, hl, hr] <;> grind

/-- The last byte is merged in the words with the first one. -/
theorem layout_within (hf : b.merge_first a = true) (hw : b.lastbyte_in_firstwords a = true)
    (hone : b.dbytes ≠ 1) (hpos : 0 < b.dbytes)
    (hs : b.short a = true ∧ b.lastWord a = false ∧ b.totbytes a ≤ 4 ∨
      b.short a = false ∧ b.lastWord a = true ∧ 4 < b.totbytes a ∧ b.totbytes a ≤ 8) :
    b.Layout a := by
  have hh := a.headBytes_lt b.off
  have hres : a.byteResolution = true → a.headBytes b.off = 0 :=
    fun h ↦ Address.headBytes_bytes h _
  have hT : b.totbytes a = a.headBytes b.off + b.dbytes := rfl
  rcases hs with ⟨hs, hl, h4⟩ | ⟨hs, hl, h4, h8⟩
  all_goals
    cases hr : a.byteResolution <;> constructor <;>
      simp only [frontlen, backlen, toput, span, nWords, firstlen, firstRead_length, remaining,
        last_byte, lastlen, FIRST_WORDS, RMW_COLLAPSE_EXTRA_WORDS, hf, hw, hs, hl, hr] <;> grind

theorem layout_apart (hf : b.merge_first a = true) (hw : b.lastbyte_in_firstwords a = false)
    (hs : b.short a = false) (hl : b.lastWord a = true) (hone : b.dbytes ≠ 1)
    (h32 : 32 < b.totbytes a) : b.Layout a := by
  have hh := a.headBytes_lt b.off
  have hres : a.byteResolution = true → a.headBytes b.off = 0 :=
    fun h ↦ Address.headBytes_bytes h _
  have hT : b.totbytes a = a.headBytes b.off + b.dbytes := rfl
  all_goals
    cases hr : a.byteResolution <;> constructor <;>
      simp only [frontlen, backlen, toput, span, nWords, firstlen, firstRead_length, remaining,
        last_byte, lastlen, FIRST_WORDS, RMW_COLLAPSE_EXTRA_WORDS, hf, hw, hs, hl, hr] <;> grind

theorem layout (hpos : 0 < b.dbytes) (hcol : ¬b.Collapsed a) : b.Layout a := by
  cases shape hcol with
  | plain hf _ hw hs hl he => exact layout_whole hpos hf hw hs (.inr ⟨hl, he⟩)
  | last hf _ hw hs hl => exact layout_whole hpos hf hw hs (.inl hl)
  | first hf _ hw hs hl he => exact layout_first hpos hf hw hs hl (.inl he)
  | overlap hf _ hw hs hl hone => exact layout_first hpos hf hw hs hl (.inr hone)
  | short hf _ hw hs hl hone h4 => exact layout_within hf hw hone hpos (.inl ⟨hs, hl, h4⟩)
  | two hf _ hw hs hl hone h4 h8 => exact layout_within hf hw hone hpos (.inr ⟨hs, hl, h4, h8⟩)
  | apart hf _ hw hs hl hone h32 => exact layout_apart hf hw hs hl hone h32

theorem eq_get {xs : Bytes} {m : Mem} {p n : ℕ} (hl : xs.length = n)
    (h : ∀ i < n, xs.getD i 0 = m (p + i)) : xs = m.get p n := by
  refine List.ext_getElem (by rw [hl, Mem.get_length]) fun i hi hi' ↦ ?_
  rw [← List.getD_eq_getElem _ 0 hi, ← List.getD_eq_getElem _ 0 hi', h i (hl ▸ hi),
    getD_get (hl ▸ hi)]

theorem getD_take {xs : Bytes} {n : ℕ} (h : i < n) : (xs.take n).getD i 0 = xs.getD i 0 := by
  simp only [List.getD_eq_getElem?_getD, List.getElem?_take_of_lt h]

theorem getD_mergeAt {xs : Bytes} {msk s : UInt8} (h : i < xs.length) :
    (mergeAt xs i msk s).getD j 0 =
      if i = j then mergeByte msk (xs.getD i 0) s else xs.getD j 0 := getD_set h

@[simp] theorem mergeAt_length {xs : Bytes} {msk s : UInt8} :
    (mergeAt xs i msk s).length = xs.length := List.length_set

/-- The bytes of the buffer with the first word. -/
theorem firstWords_getD (hl : fw.length = FIRST_WORDS)
    (hT : b.short a = true → b.totbytes a - 1 < FIRST_WORDS)
    (hroom : a.headBytes b.off + 1 + b.remaining a ≤ FIRST_WORDS)
    (hsrc : b.remaining a < b.dbytes) (j : ℕ) :
    (b.firstWords a fw).getD j 0 =
      if a.headBytes b.off < j ∧ j ≤ a.headBytes b.off + b.remaining a then
        b.src.getD (j - a.headBytes b.off) 0
      else if b.short a = true ∧ b.totbytes a - 1 = j then
        mergeByte b.mskn ((b.firstMerged a fw).getD j 0) (b.src.getD (b.dbytes - 1) 0)
      else (b.firstMerged a fw).getD j 0 := by
  have hslice : (slice b.src 1 (b.remaining a)).length = b.remaining a :=
    Sval.slice_length (by unfold dbytes at hsrc; omega)
  have hf : (b.firstMerged a fw).length = FIRST_WORDS := mergeAt_length.trans hl
  unfold firstWords
  rw [getD_splice (by split_ifs <;> rw [hslice] <;> simp [hf, hroom]), hslice]
  by_cases hj : a.headBytes b.off < j ∧ j ≤ a.headBytes b.off + b.remaining a
  · rw [if_pos (by omega), if_pos hj, getD_slice (by omega)]
    congr 1
    omega
  · rw [if_neg (by omega), if_neg hj]
    by_cases hs : b.short a = true
    · rw [if_pos hs, getD_mergeAt (by rw [hf]; exact hT hs)]
      split_ifs <;> simp_all
    · rw [if_neg hs, if_neg (by simp [hs])]


theorem mask_eq (hcol : ¬b.Collapsed a) (hf : b.merge_first a = true) :
    b.mask a = keepMask b.msk1 b.mskn b.dbytes 0 := by
  have hlast (hs : b.overlap a = false) (hm : 1 = b.dbytes → b.mskn = 0) :
      b.mask a = keepMask b.msk1 b.mskn b.dbytes 0 := by
    rw [mask, hs, if_neg Bool.false_ne_true, keepMask, if_pos rfl, Nat.zero_add]
    split_ifs with h1
    · rw [hm h1, UInt8.or_zero]
    · rw [UInt8.or_zero]
  cases shape hcol with
  | plain hf' => exact absurd (hf.symm.trans hf') Bool.true_eq_false.mp
  | last hf' => exact absurd (hf.symm.trans hf') Bool.true_eq_false.mp
  | first _ ho _ _ _ he => exact hlast ho fun _ ↦ (merge_end_false he).1
  | overlap _ ho _ _ _ hone =>
    rw [mask, ho, if_pos rfl, keepMask, if_pos rfl, hone, if_pos rfl]
  | short _ ho _ _ _ hone => exact hlast ho fun h ↦ absurd h.symm hone
  | two _ ho _ _ _ hone => exact hlast ho fun h ↦ absurd h.symm hone
  | apart _ ho _ _ _ hone => exact hlast ho fun h ↦ absurd h.symm hone

/-- What a device should have after a write. -/
def target (b : Block) (dev : Mem) : Mem := reference dev b.off.toNat b.src b.msk1 b.mskn

/-- The bytes of the first word in front of the source, those of the source, and those behind it. -/
theorem target_at (hle : a.headBytes b.off ≤ b.off.toNat) (j : ℕ) : b.target dev (b.base a + j) =
    if a.headBytes b.off ≤ j ∧ j < b.totbytes a then
      mergeByte (keepMask b.msk1 b.mskn b.dbytes (j - a.headBytes b.off)) (dev (b.base a + j))
        (b.src.getD (j - a.headBytes b.off) 0)
    else dev (b.base a + j) := by
  have hoff : b.base a + j - b.off.toNat = j - a.headBytes b.off := by
    unfold base
    omega
  have hiff : (b.off.toNat ≤ b.base a + j ∧ b.base a + j < b.off.toNat + b.src.length) ↔
      a.headBytes b.off ≤ j ∧ j < b.totbytes a := by
    unfold base totbytes dbytes
    omega
  unfold target reference
  rw [if_congr hiff rfl rfl, hoff]
  rfl

theorem keepMask_mid {n : ℕ} {msk1 mskn : UInt8} (hi : i ≠ 0 ∨ msk1 = 0)
    (hn : i + 1 ≠ n ∨ mskn = 0) : keepMask msk1 mskn n i = 0 := by
  unfold keepMask
  rcases hi with hi | rfl <;> rcases hn with hn | rfl <;> simp [*]

/-- A byte that is sent as it is in the source. -/
theorem target_mid (hle : a.headBytes b.off ≤ b.off.toNat)
    (hj : a.headBytes b.off ≤ j ∧ j < b.totbytes a) (hi : a.headBytes b.off < j ∨ b.msk1 = 0)
    (hn : j + 1 ≠ b.totbytes a ∨ b.mskn = 0) :
    b.target dev (b.base a + j) = b.src.getD (j - a.headBytes b.off) 0 := by
  rw [target_at hle, if_pos hj, keepMask_mid, Sval.mergeByte_zero]
  · exact hi.imp_left fun h ↦ by omega
  · refine hn.imp_left fun h ↦ ?_
    unfold totbytes at h
    omega

theorem short_iff : b.short a = true ↔ b.lastbyte_in_firstwords a = true ∧ b.totbytes a ≤ 4 := by
  simp [short]

theorem within_many (h : b.lastbyte_in_firstwords a = true) : b.dbytes ≠ 1 := by
  intro hone
  simp [lastbyte_in_firstwords, hone] at h

theorem firstWords_length (hl : fw.length = FIRST_WORDS)
    (hroom : a.headBytes b.off + 1 + b.remaining a ≤ FIRST_WORDS)
    (hsrc : b.remaining a < b.dbytes) : (b.firstWords a fw).length = FIRST_WORDS := by
  have hslice : (slice b.src 1 (b.remaining a)).length = b.remaining a :=
    Sval.slice_length (by unfold dbytes at hsrc; omega)
  unfold firstWords firstMerged
  rw [Sval.splice_length]
  · split_ifs <;> simp [hl]
  · rw [hslice]
    split_ifs <;> simp [hl, hroom]

theorem firstWords_eq (hpos : 0 < b.dbytes) (hcol : ¬b.Collapsed a)
    (hle : a.headBytes b.off ≤ b.off.toNat) (hf : b.merge_first a = true)
    (hl : fw.length = FIRST_WORDS)
    (hback : ∀ i < (b.firstRead a).2, fw.getD i 0 = dev (b.base a + i)) :
    (b.firstWords a fw).take (b.firstlen a) = (b.target dev).get (b.base a) (b.firstlen a) := by
  obtain ⟨-, hfirst, hroom, hrest, hinner, -⟩ := layout hpos hcol
  obtain ⟨hlt, h4, hread⟩ := hfirst hf
  obtain ⟨hroom, hsrc⟩ := hroom hf
  have hT : b.totbytes a = a.headBytes b.off + b.dbytes := rfl
  have hbuf : FIRST_WORDS = 32 := rfl
  have hshort : b.short a = true → b.totbytes a - 1 < FIRST_WORDS := fun hs ↦ by
    have := (short_iff.1 hs).2
    omega
  have hlen := firstWords_length hl hroom hsrc
  refine eq_get (by rw [List.length_take, hlen]; omega) fun j hj ↦ ?_
  have hmerged : (b.firstMerged a fw).getD j 0 = if a.headBytes b.off = j then
      mergeByte (b.mask a) (fw.getD (a.headBytes b.off) 0) (b.src.getD 0 0) else fw.getD j 0 :=
    getD_mergeAt (by omega)
  rw [getD_take hj, firstWords_getD hl hshort hroom hsrc, hmerged, hback j (by omega)]
  split_ifs with hmid hend hfirst hfirst
  · exact (target_mid hle (by omega) (.inl hmid.1) (hinner hf j hmid.1 hj hmid.2)).symm
  · have := within_many (short_iff.1 hend.1).1
    omega
  · -- the last byte is in the first word
    have := within_many (short_iff.1 hend.1).1
    have hmask : keepMask b.msk1 b.mskn b.dbytes (j - a.headBytes b.off) = b.mskn := by
      unfold keepMask
      rw [if_neg (by omega), if_pos (by omega), UInt8.zero_or]
    have hidx : j - a.headBytes b.off = b.dbytes - 1 := by omega
    rw [target_at hle, if_pos (by omega), hmask, hidx]
  · subst hfirst
    rw [target_at hle, if_pos (by omega), Nat.sub_self, mask_eq hcol hf, hback _ (by omega)]
  · rw [target_at hle, if_neg]
    rintro ⟨h1, h2⟩
    obtain ⟨hs, h3⟩ := hrest hf j (by omega) hj h2
    exact hend ⟨hs, by omega⟩

/-- The first byte is in the first word, or it has no mask. -/
theorem first_behind (hpos : 0 < b.dbytes) (hcol : ¬b.Collapsed a) :
    a.headBytes b.off ≤ b.frontlen a ∧ (a.headBytes b.off < b.frontlen a ∨ b.msk1 = 0) := by
  unfold frontlen
  cases hf : b.merge_first a with
  | false =>
    obtain ⟨h0, hm⟩ := merge_first_false hf
    exact ⟨h0.le, .inr hm⟩
  | true =>
    have hlt := ((layout hpos hcol).first hf).1
    exact ⟨hlt.le, .inl hlt⟩

theorem middle_eq (hpos : 0 < b.dbytes) (hcol : ¬b.Collapsed a)
    (hle : a.headBytes b.off ≤ b.off.toNat) : slice b.src (b.skipped a) (b.toput a) =
      (b.target dev).get (b.base a + b.frontlen a) (b.toput a) := by
  obtain ⟨-, -, -, -, -, hmid, hlast⟩ := layout hpos hcol
  obtain ⟨hbehind, hfirst⟩ := first_behind hpos hcol
  have hT : b.totbytes a = a.headBytes b.off + b.src.length := rfl
  have hskip : b.skipped a = b.frontlen a - a.headBytes b.off := by
    unfold skipped frontlen
    split_ifs
    · rfl
    · exact (Nat.zero_sub _).symm
  rcases Nat.eq_zero_or_pos (b.toput a) with h0 | h0
  · rw [h0, slice, List.take_zero]
    rfl
  · obtain ⟨hfit, hend⟩ := hmid h0
    refine eq_get (Sval.slice_length (by omega)) fun i hi ↦ ?_
    rw [getD_slice hi, Nat.add_assoc, target_mid hle (by omega)]
    · congr 1
      omega
    · exact hfirst.imp_left fun h ↦ by omega
    · cases hw : b.lastWord a with
      | false => exact .inr (hend hw)
      | true =>
        have hsum := (hlast hw).2.2
        exact .inl (by omega)

/-- What the two read-backs have to deliver. -/
structure ReadsBack (a : Address) (b : Block) (dev : Mem) (fw lw : Bytes) : Prop where
  first_length : fw.length = FIRST_WORDS
  last_length : lw.length = 4
  first : b.merge_first a = true → ∀ i < (b.firstRead a).2, fw.getD i 0 = dev (b.base a + i)
  last : b.merge_last a = true → ∀ i < (b.lastRead a).2,
    lw.getD i 0 = dev (b.base a + (b.totbytes a - 1 - b.last_byte a) + i)

/-- The last word, before it is merged. -/
theorem lastBack (hcol : ¬b.Collapsed a) (hlast : b.lastWord a = true)
    (hback : b.ReadsBack a dev fw lw) {word : Bytes}
    (hword : word = if b.lastbyte_in_firstwords a then
      slice (b.firstMerged a fw) ((b.totbytes a - 1) / 4 * 4) 4 else lw) :
    word.length = 4 ∧ ∀ j < b.lastlen a, b.last_byte a ≤ j →
      word.getD j 0 = dev (b.base a + (b.totbytes a - 1 - b.last_byte a) + j) := by
  have hh := a.headBytes_lt b.off
  cases hw : b.lastbyte_in_firstwords a with
  | false =>
    have hmerge : b.merge_last a = true := by
      simpa [lastWord, hw] using hlast
    rw [hw, if_neg Bool.false_ne_true] at hword
    subst hword
    refine ⟨hback.last_length, fun j hj _ ↦ hback.last hmerge j ?_⟩
    unfold lastlen last_byte at hj
    unfold lastRead
    cases hr : a.byteResolution <;> simp_all
  | true =>
    have hf : b.merge_first a = true := by
      simp only [lastbyte_in_firstwords, Bool.and_eq_true] at hw
      exact hw.1.1.1
    have h4 : 4 < b.totbytes a := by
      by_contra hle
      simp [lastWord, merge_last, hw, short_iff.2 ⟨hw, not_lt.1 hle⟩] at hlast
    have h8 : b.totbytes a ≤ 8 := not_lt.1 fun h ↦ hcol ⟨hw, h⟩
    have hbuf : fw.length = 32 := hback.first_length
    have hmerged : (b.firstMerged a fw).length = 32 := mergeAt_length.trans hbuf
    have hone : (b.totbytes a - 1) / 4 = 1 := by omega
    have hlb : b.last_byte a = b.totbytes a - 5 := by
      simp only [last_byte, hw, Bool.not_true, Bool.and_false, Bool.false_eq_true, if_false]
      omega
    rw [hw, if_pos rfl, hone] at hword
    subst hword
    refine ⟨Sval.slice_length (by omega), fun j hj _ ↦ ?_⟩
    have hread : 4 + j < (b.firstRead a).2 ∧ j < 4 := by
      rw [firstRead_length, hw, if_pos rfl]
      unfold lastlen at hj
      split_ifs at hj ⊢ <;> omega
    rw [getD_slice hread.2, firstMerged, getD_mergeAt (by omega), if_neg (by omega),
      hback.first hf _ hread.1]
    congr 1
    omega

theorem lastWords_eq (hpos : 0 < b.dbytes) (hcol : ¬b.Collapsed a)
    (hle : a.headBytes b.off ≤ b.off.toNat) (hlast : b.lastWord a = true)
    (hback : b.ReadsBack a dev fw lw) : (b.lastWords a fw lw).take (b.lastlen a) =
      (b.target dev).get (b.base a + (b.frontlen a + b.toput a)) (b.lastlen a) := by
  obtain ⟨hlt, h4, hsum⟩ := (layout hpos hcol).last hlast
  obtain ⟨hbehind, hfirst⟩ := first_behind hpos hcol
  have hT : b.totbytes a = a.headBytes b.off + b.src.length := rfl
  have hn : b.dbytes = b.src.length := rfl
  generalize hword : (if b.lastbyte_in_firstwords a then
    slice (b.firstMerged a fw) ((b.totbytes a - 1) / 4 * 4) 4 else lw) = word
  obtain ⟨hlen, hdev⟩ := lastBack hcol hlast hback hword.symm
  have hplace : b.totbytes a - 1 - b.last_byte a = b.frontlen a + b.toput a := by omega
  have hslice :
      (slice b.src (b.dbytes - 1 - b.last_byte a) (b.last_byte a)).length = b.last_byte a :=
    Sval.slice_length (by omega)
  have hsplice : (splice word 0
      (slice b.src (b.dbytes - 1 - b.last_byte a) (b.last_byte a))).length = 4 := by
    rw [Sval.splice_length (by omega), hlen]
  have hwords : b.lastWords a fw lw = mergeAt (splice word 0
      (slice b.src (b.dbytes - 1 - b.last_byte a) (b.last_byte a))) (b.last_byte a) b.mskn
        (b.src.getD (b.dbytes - 1) 0) := by
    rw [← hword]
    rfl
  rw [hplace] at hdev
  rw [hwords]
  refine eq_get (by rw [List.length_take, mergeAt_length, hsplice]; omega) fun j hj ↦ ?_
  rw [getD_take hj, getD_mergeAt (by omega), getD_splice (by omega), getD_splice (by omega), hslice]
  split_ifs with h1 h2 h2
  · omega
  · -- the last byte
    subst h1
    have hmask : keepMask b.msk1 b.mskn b.dbytes (b.dbytes - 1) = b.mskn := by
      unfold keepMask
      rw [if_pos (Nat.sub_add_cancel hpos)]
      rcases hfirst with h | h
      · rw [if_neg (by omega), UInt8.zero_or]
      · rw [h, ite_self, UInt8.zero_or]
    have hidx : b.frontlen a + b.toput a + b.last_byte a - a.headBytes b.off = b.dbytes - 1 := by
      omega
    rw [hdev _ hj le_rfl, Nat.add_assoc (b.base a), target_at hle, if_pos (by omega), hidx, hmask]
  · rw [getD_slice (by omega), Nat.add_assoc (b.base a), target_mid hle (by omega)]
    · congr 1
      omega
    · exact hfirst.imp_left fun h ↦ by omega
    · exact .inl (by omega)
  · rw [hdev j hj (by omega), Nat.add_assoc (b.base a), target_at hle, if_neg (by omega)]

theorem front_eq (hpos : 0 < b.dbytes) (hcol : ¬b.Collapsed a)
    (hle : a.headBytes b.off ≤ b.off.toNat) (hback : b.ReadsBack a dev fw lw) :
    (if b.merge_first a then (b.firstWords a fw).take (b.firstlen a) else []) =
      (b.target dev).get (b.base a) (b.frontlen a) := by
  unfold frontlen
  cases hf : b.merge_first a with
  | false => rfl
  | true => exact firstWords_eq hpos hcol hle hf hback.first_length (hback.first hf)

theorem back_eq (hpos : 0 < b.dbytes) (hcol : ¬b.Collapsed a)
    (hle : a.headBytes b.off ≤ b.off.toNat) (hback : b.ReadsBack a dev fw lw) :
    (if b.lastWord a then (b.lastWords a fw lw).take (b.lastlen a) else []) =
      (b.target dev).get (b.base a + (b.frontlen a + b.toput a)) (b.backlen a) := by
  unfold backlen
  cases hw : b.lastWord a with
  | false => rfl
  | true => exact lastWords_eq hpos hcol hle hw hback

/-- The payload, as the device has to see it. -/
def payload (a : Address) (b : Block) (fw lw : Bytes) : Bytes :=
  (if b.merge_first a then (b.firstWords a fw).take (b.firstlen a) else []) ++
    slice b.src (b.skipped a) (b.toput a) ++
    if b.lastWord a then (b.lastWords a fw lw).take (b.lastlen a) else []

/-- The payload has what the device should have in the words that are written. -/
theorem payload_eq (hpos : 0 < b.dbytes) (hcol : ¬b.Collapsed a)
    (hle : a.headBytes b.off ≤ b.off.toNat) (hback : b.ReadsBack a dev fw lw) :
    b.payload a fw lw = (b.target dev).get (b.base a) (b.span a) := by
  rw [payload, front_eq hpos hcol hle hback, back_eq hpos hcol hle hback, middle_eq hpos hcol hle,
    ← Mem.get_add, ← Mem.get_add, (layout hpos hcol).sum]

/-- The words that are written are all that changes. -/
theorem put_payload (hpos : 0 < b.dbytes) (hcol : ¬b.Collapsed a)
    (hle : a.headBytes b.off ≤ b.off.toNat) (hback : b.ReadsBack a dev fw lw) :
    dev.put (b.base a) (b.payload a fw lw) = b.target dev := by
  rw [payload_eq hpos hcol hle hback]
  refine put_word Mem.get_length (fun i hi ↦ getD_get hi) fun p hp ↦ reference_out ?_
  have hspan : b.totbytes a ≤ b.span a := by
    unfold span nWords
    split_ifs <;> omega
  unfold base totbytes dbytes at *
  omega

end Cpsw.Srp.Block
