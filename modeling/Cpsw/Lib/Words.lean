import Cpsw.Lib.ByteMem

namespace Cpsw.Lib

/-- Each word of four bytes is turned round. -/
def swapWords : List UInt8 → List UInt8
  | a :: b :: c :: d :: xs => d :: c :: b :: a :: swapWords xs
  | xs => xs

variable {xs ys : List UInt8} {n : ℕ}

@[simp] theorem swapWords_nil : swapWords [] = [] := rfl

theorem swapWords_word (h : xs.length = 4) : swapWords xs = xs.reverse := by
  obtain ⟨a, b, c, d, rfl⟩ := List.length_eq_four.1 h
  rfl

@[simp] theorem swapWords_length (xs : List UInt8) : (swapWords xs).length = xs.length := by
  induction xs using swapWords.induct with
  | case1 a b c d xs ih => simp [swapWords, ih]
  | case2 xs h => rw [swapWords.eq_2 xs h]

/-- The words before a word boundary are turned by themselves. -/
theorem swapWords_append (h : xs.length = 4 * n) :
    swapWords (xs ++ ys) = swapWords xs ++ swapWords ys := by
  induction n generalizing xs with
  | zero => simp [List.eq_nil_iff_length_eq_zero.2 h]
  | succ n ih =>
    have htake : (xs.take 4).length = 4 := by
      rw [List.length_take]
      omega
    obtain ⟨a, b, c, d, hw⟩ := List.length_eq_four.1 htake
    have hxs : xs = a :: b :: c :: d :: xs.drop 4 := by
      rw [← List.take_append_drop 4 xs, hw]
      rfl
    have hdrop : (xs.drop 4).length = 4 * n := by
      rw [List.length_drop]
      omega
    rw [hxs]
    simp only [List.cons_append, swapWords, ih hdrop]

theorem swapWords_swapWords (xs : List UInt8) : swapWords (swapWords xs) = xs := by
  induction xs using swapWords.induct with
  | case1 a b c d xs ih => simp [swapWords, ih]
  | case2 xs h => rw [swapWords.eq_2 xs h, swapWords.eq_2 xs h]

/-- A word that is there or not. -/
theorem swapWords_ite {p : Prop} [Decidable p] (h : xs.length = if p then 4 else 0) :
    swapWords xs = xs.reverse := by
  split_ifs at h
  · exact swapWords_word h
  · rw [List.eq_nil_iff_length_eq_zero.2 h]
    rfl

theorem exists_middle {k l : ℕ} (h : k + l ≤ xs.length) :
    ∃ u v w, xs = u ++ v ++ w ∧ u.length = k ∧ w.length = l := by
  refine ⟨xs.take k, (xs.drop k).take (xs.length - k - l), xs.drop (xs.length - l), ?_, ?_, ?_⟩
  · have hdrop : xs.drop (xs.length - l) = (xs.drop k).drop (xs.length - k - l) := by
      rw [List.drop_drop]
      congr 1
      omega
    rw [hdrop, List.append_assoc, List.take_append_drop, List.take_append_drop]
  · rw [List.length_take]
    omega
  · rw [List.length_drop]
    omega

namespace Mem

variable {m : Mem} {a : ℕ} {u x y v : List UInt8} {f : List UInt8 → List UInt8}

theorem put_apply (m : Mem) (a : ℕ) (xs : List UInt8) (p : ℕ) :
    m.put a xs p = if a ≤ p then xs[p - a]?.getD (m p) else m p := by
  unfold put
  rw [List.getD_eq_getElem?_getD]

theorem put_get (m : Mem) (a n : ℕ) : m.put a (m.get a n) = m := by
  funext p
  rw [put_apply]
  split_ifs with ha
  · rcases Nat.lt_or_ge (p - a) n with h | h
    · have hp : a + (p - a) = p := by omega
      simp [get, h, hp]
    · rw [List.getElem?_eq_none (by rwa [get_length]), Option.getD_none]
  · rfl

/-- A part of what was written is written anew. -/
theorem put_part (h : y.length = x.length) :
    (m.put a (u ++ x ++ v)).put (a + u.length) y = m.put a (u ++ y ++ v) := by
  funext p
  rw [put_apply, put_apply, put_apply]
  grind

/-- What was written is read in parts. -/
theorem get_part : (m.put a (u ++ x ++ v)).get (a + u.length) x.length = x := by
  rw [put_append, put_append, get_put_of_disjoint (.inl (by rw [List.length_append]; omega)), get_put]

/-- What is longer covers it. -/
theorem put_put (h : x.length ≤ y.length) : (m.put a x).put a y = m.put a y := by
  funext p
  rw [put_apply, put_apply, put_apply]
  grind

/-- The words of a part are turned, one after the other. -/
theorem swap_part (hf : ∀ w, w.length = 4 → f w = w.reverse) (hx : x.length = 4 * n) :
    (List.range n).foldl (fun m j ↦ m.modify (a + u.length + 4 * j) 4 f) (m.put a (u ++ x ++ v)) =
      m.put a (u ++ swapWords x ++ v) := by
  induction n generalizing x v with
  | zero =>
    rw [List.eq_nil_iff_length_eq_zero.2 hx]
    rfl
  | succ n ih =>
    obtain ⟨y, w, rfl, hy, hw⟩ : ∃ y w, x = y ++ w ∧ y.length = 4 * n ∧ w.length = 4 :=
      ⟨x.take (4 * n), x.drop (4 * n), (List.take_append_drop _ _).symm, by
        rw [List.length_take]; omega, by rw [List.length_drop]; omega⟩
    have hlen : a + u.length + 4 * n = a + (u ++ swapWords y).length := by
      rw [List.length_append, swapWords_length, hy, Nat.add_assoc]
    have hstart : u ++ (y ++ w) ++ v = u ++ y ++ (w ++ v) := by simp
    have hback : u ++ swapWords y ++ (w ++ v) = u ++ swapWords y ++ w ++ v := by simp
    have hget : (m.put a (u ++ swapWords y ++ w ++ v)).get (a + (u ++ swapWords y).length) 4 = w := by
      have h := get_part (m := m) (a := a) (u := u ++ swapWords y) (x := w) (v := v)
      rwa [hw] at h
    rw [List.range_succ, List.foldl_append, hstart, ih hy, hback, List.foldl_cons, List.foldl_nil, hlen,
      modify, hget, hf w hw, put_part (List.length_reverse), swapWords_append hy, swapWords_word hw]
    simp

end Mem

end Cpsw.Lib
