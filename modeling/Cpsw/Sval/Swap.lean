import Cpsw.Sval.Passes
import Mathlib.Data.List.Induction

namespace Cpsw.Sval

open Cpsw.Lib.Digits

variable {nbytes wlen n : ℕ} {xs : Bytes} {words : List Bytes}

/-- Two words change places. -/
theorem splice_splice {pre mid post v w : Bytes} (hv : v.length = wlen) (hw : w.length = wlen) :
    splice (splice (pre ++ (v ++ mid ++ w) ++ post) pre.length
      (slice (pre ++ (v ++ mid ++ w) ++ post) (pre.length + (wlen + mid.length)) wlen))
      (pre.length + (wlen + mid.length)) (slice (pre ++ (v ++ mid ++ w) ++ post) pre.length wlen) =
      pre ++ (w ++ mid ++ v) ++ post := by
  have hfirst : slice (pre ++ (v ++ mid ++ w) ++ post) pre.length wlen = v := by
    simp [slice, ← hv]
  have hlast : slice (pre ++ (v ++ mid ++ w) ++ post) (pre.length + (wlen + mid.length)) wlen = w := by
    have hsplit : pre ++ (v ++ mid ++ w) ++ post = (pre ++ (v ++ mid)) ++ (w ++ post) := by simp
    have hlen : (pre ++ (v ++ mid)).length = pre.length + (wlen + mid.length) := by simp [hv]
    rw [slice, hsplit, List.drop_left' hlen, List.take_left' hw]
  have hstep : splice (pre ++ (v ++ mid ++ w) ++ post) pre.length w =
      (pre ++ (w ++ mid)) ++ (w ++ post) := by
    have hsplit : pre ++ (v ++ mid ++ w) ++ post = (pre ++ v) ++ (mid ++ w ++ post) := by simp
    have hlen : (pre ++ v).length = pre.length + w.length := by simp [hv, hw]
    have htake : (pre ++ (v ++ mid ++ w) ++ post).take pre.length = pre := by simp
    rw [splice, htake, hsplit, List.drop_left' hlen]
    simp
  have hlen : (pre ++ (w ++ mid)).length = pre.length + (wlen + mid.length) := by simp [hw]
  have hlen' : ((pre ++ (w ++ mid)) ++ w).length = pre.length + (wlen + mid.length) + v.length := by
    simp [hw, hv]
    omega
  rw [hfirst, hlast, hstep, splice, List.take_left' hlen, ← List.append_assoc (pre ++ (w ++ mid)),
    List.drop_left' hlen']
  simp

theorem swapLoop_words (hw : ∀ w ∈ words, w.length = wlen) (pre post : Bytes) :
    swapLoop wlen (words.length / 2) pre.length (pre.length + wlen * (words.length - 1))
      (pre ++ words.flatten ++ post) = pre ++ words.reverse.flatten ++ post := by
  induction words using List.bidirectionalRec generalizing pre post with
  | nil => rfl
  | singleton w => simp [swapLoop]
  | cons_append v words w ih =>
    have hv : v.length = wlen := hw v (by simp)
    have hw' : w.length = wlen := hw w (by simp)
    have hwords : ∀ x ∈ words, x.length = wlen := fun x hx ↦ hw x (by simp [hx])
    have hmid : words.flatten.length = wlen * words.length := by
      rw [List.length_flatten, List.map_congr_left hwords, List.map_const', List.sum_replicate_nat,
        Nat.mul_comm]
    have hcount : (v :: (words ++ [w])).length / 2 = words.length / 2 + 1 := by
      simp only [List.length_cons, List.length_append, List.length_nil]
      omega
    have hend : wlen * ((v :: (words ++ [w])).length - 1) = wlen + words.flatten.length := by
      simp only [List.length_cons, List.length_append, List.length_nil, hmid]
      rw [Nat.add_sub_cancel, Nat.mul_add]
      omega
    have hflat : (v :: (words ++ [w])).flatten = v ++ words.flatten ++ w := by simp
    rw [hcount, hend, hflat, swapLoop, splice_splice hv hw']
    have hpre : (pre ++ w).length = pre.length + wlen := by simp [hw']
    have hgoal := ih hwords (pre ++ w) (v ++ post)
    cases words with
    | nil => simp [swapLoop]
    | cons x words =>
      have hq : pre.length + (wlen + (x :: words).flatten.length) - wlen =
          (pre ++ w).length + wlen * ((x :: words).length - 1) := by
        rw [hmid, hpre, List.length_cons, Nat.add_sub_cancel, Nat.mul_add]
        omega
      have hsplit : pre ++ (w ++ (x :: words).flatten ++ v) ++ post =
          pre ++ w ++ (x :: words).flatten ++ (v ++ post) := by simp
      rw [hq, hsplit, ← hpre, hgoal]
      simp

theorem exists_words (h : xs.length = wlen * n) :
    ∃ words : List Bytes, xs = words.flatten ∧ words.length = n ∧ ∀ w ∈ words, w.length = wlen := by
  induction n generalizing xs with
  | zero => exact ⟨[], by simpa using h, rfl, by simp⟩
  | succ n ih =>
    rw [Nat.mul_add, Nat.mul_one] at h
    obtain ⟨words, hx, hn, hw⟩ := @ih (xs.drop wlen) (by simp; omega)
    refine ⟨xs.take wlen :: words, ?_, by simp [hn], ?_⟩
    · rw [List.flatten_cons, ← hx, List.take_append_drop]
    · intro w hw'
      rcases List.mem_cons.1 hw' with rfl | hw'
      · simp
        omega
      · exact hw w hw'

/-- The words come in the other order. -/
theorem swap_words (hpos : 0 < wlen) (hw : ∀ w ∈ words, w.length = wlen) :
    swap (wlen * words.length) wlen words.flatten = words.reverse.flatten := by
  have h := swapLoop_words hw [] []
  have hlast : wlen * words.length - wlen = wlen * (words.length - 1) := (Nat.mul_sub_one ..).symm
  rw [swap, if_pos hpos, Nat.mul_div_cancel_left _ hpos, hlast]
  simpa using h

theorem swap_zero : swap nbytes 0 xs = xs := rfl

theorem swap_one : swap xs.length 1 xs = xs.reverse := by
  have h := @swap_words 1 (xs.map fun x ↦ [x]) (by decide) (by simp)
  have hflat : ∀ ys : Bytes, (ys.map fun x ↦ [x]).flatten = ys := by
    intro ys
    induction ys with
    | nil => rfl
    | cons y ys ih => simp [ih]
  rwa [List.length_map, Nat.one_mul, hflat, ← List.map_reverse, hflat] at h

theorem flatten_getD (hw : ∀ w ∈ words, w.length = wlen) (hpos : 0 < wlen) (j : ℕ) :
    words.flatten.getD j 0 = (words.getD (j / wlen) []).getD (j % wlen) 0 := by
  induction words generalizing j with
  | nil => simp
  | cons w words ih =>
    have hlen : w.length = wlen := hw w List.mem_cons_self
    rw [List.flatten_cons]
    rcases Nat.lt_or_ge j wlen with hj | hj
    · rw [List.getD_append _ _ _ _ (by omega), Nat.div_eq_of_lt hj, Nat.mod_eq_of_lt hj,
        List.getD_cons_zero]
    · obtain ⟨r, rfl⟩ := Nat.exists_eq_add_of_le hj
      rw [List.getD_append_right _ _ _ _ (by omega), hlen, Nat.add_sub_cancel_left,
        ih (fun x hx ↦ hw x (List.mem_cons_of_mem w hx)), Nat.add_mod_left, Nat.add_div_left _ hpos,
        List.getD_cons_succ]

/-- The bytes of a number with its words in the other order. -/
def wordsReversed (wlen : ℕ) (xs : Bytes) : Bytes :=
  (List.range xs.length).map fun j ↦ xs.getD (xs.length - wlen * (j / wlen + 1) + j % wlen) 0

theorem wordsReversed_flatten (hw : ∀ w ∈ words, w.length = wlen) (hpos : 0 < wlen) :
    wordsReversed wlen words.flatten = words.reverse.flatten := by
  have hlen : ∀ ys : List Bytes, (∀ w ∈ ys, w.length = wlen) → ys.flatten.length = wlen * ys.length := by
    intro ys hys
    rw [List.length_flatten, List.map_congr_left hys, List.map_const', List.sum_replicate_nat,
      Nat.mul_comm]
  have hrev : ∀ w ∈ words.reverse, w.length = wlen := fun w hx ↦ hw w (List.mem_reverse.1 hx)
  apply List.ext_getElem
  · simp [wordsReversed, hlen _ hw, hlen _ hrev]
  · intro j h₁ h₂
    have hj : j < wlen * words.length := by simpa [wordsReversed, hlen _ hw] using h₁
    have hq : j / wlen < words.length := Nat.div_lt_of_lt_mul hj
    have hmul : wlen * (j / wlen + 1) ≤ wlen * words.length := Nat.mul_le_mul_left _ hq
    have hidx : wlen * words.length - wlen * (j / wlen + 1) + j % wlen =
        wlen * (words.length - 1 - j / wlen) + j % wlen := by
      rw [← Nat.mul_sub, Nat.sub_sub, Nat.add_comm 1]
    have hlast : words.length - 1 - j / wlen < words.length := by
      generalize j / wlen = q at hq ⊢
      omega
    have hwords : words.reverse.getD (j / wlen) [] = words.getD (words.length - 1 - j / wlen) [] := by
      rw [List.getD_eq_getElem _ _ (by simpa using hq), List.getD_eq_getElem _ _ hlast,
        List.getElem_reverse]
    rw [← List.getD_eq_getElem _ 0 h₂, flatten_getD hrev hpos, hwords]
    simp only [wordsReversed, List.getElem_map, List.getElem_range, hlen _ hw, hidx,
      flatten_getD hw hpos, Nat.mul_add_mod, Nat.mod_mod, Nat.mul_add_div hpos,
      Nat.div_eq_of_lt (Nat.mod_lt j hpos), Nat.add_zero]

section Divisor

variable (hxs : xs.length = nbytes) (hd : wlen ∣ nbytes)

include hxs hd

/-- The field as words, where it has some. -/
theorem words_of_dvd : ∃ words : List Bytes, xs = words.flatten ∧
    nbytes = wlen * words.length ∧ ∀ w ∈ words, w.length = wlen := by
  obtain ⟨n, rfl⟩ := hd
  obtain ⟨words, hx, rfl, hw⟩ := exists_words hxs
  exact ⟨words, hx, rfl, hw⟩

theorem swap_length : (swap nbytes wlen xs).length = nbytes := by
  rcases Nat.eq_zero_or_pos wlen with rfl | hpos
  · rw [swap_zero, hxs]
  · obtain ⟨words, rfl, rfl, hw⟩ := words_of_dvd hxs hd
    rw [swap_words hpos hw, ← hxs, (List.reverse_perm words).flatten.length_eq]

theorem swap_swap : swap nbytes wlen (swap nbytes wlen xs) = xs := by
  rcases Nat.eq_zero_or_pos wlen with rfl | hpos
  · rfl
  · obtain ⟨words, rfl, rfl, hw⟩ := words_of_dvd hxs hd
    have h := @swap_words wlen words.reverse hpos fun w hx ↦ hw w (List.mem_reverse.1 hx)
    rw [List.length_reverse, List.reverse_reverse] at h
    rw [swap_words hpos hw, h]

theorem swap_reverse : swap nbytes wlen xs.reverse = (swap nbytes wlen xs).reverse := by
  rcases Nat.eq_zero_or_pos wlen with rfl | hpos
  · rfl
  · obtain ⟨words, rfl, rfl, hw⟩ := words_of_dvd hxs hd
    have h := @swap_words wlen (words.map List.reverse).reverse hpos fun w hx ↦ by
      obtain ⟨v, hv, rfl⟩ := List.mem_map.1 (List.mem_reverse.1 hx)
      rw [List.length_reverse, hw v hv]
    rw [List.length_reverse, List.length_map, List.reverse_reverse] at h
    rw [swap_words hpos hw, List.reverse_flatten, List.reverse_flatten, List.map_reverse,
      List.reverse_reverse, ← h]

theorem swap_lowFirst {host : ByteOrder} :
    lowFirst host (swap nbytes wlen xs) = swap nbytes wlen (lowFirst host xs) := by
  unfold lowFirst
  split_ifs
  · rfl
  · rw [swap_reverse hxs hd]

theorem swap_eq_wordsReversed (hpos : 0 < wlen) : swap nbytes wlen xs = wordsReversed wlen xs := by
  obtain ⟨words, rfl, rfl, hw⟩ := words_of_dvd hxs hd
  rw [swap_words hpos hw, wordsReversed_flatten hw hpos]

end Divisor

end Cpsw.Sval
