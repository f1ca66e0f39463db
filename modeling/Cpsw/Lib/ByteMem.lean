import Mathlib.Data.List.Basic
import Mathlib.Data.List.GetD
import Mathlib.Logic.Function.Basic

namespace Cpsw.Lib

/-- Memory, by its addresses. -/
abbrev Mem := ℕ → UInt8

namespace Mem

variable (m : Mem) (a n : ℕ) (xs : List UInt8)

/-- The `n` bytes at the address `a`. -/
def get : List UInt8 := (List.range n).map fun i ↦ m (a + i)

/-- The bytes `xs` are written to the address `a`. -/
def put : Mem := fun p ↦ if a ≤ p then xs.getD (p - a) (m p) else m p

def modify (f : List UInt8 → List UInt8) : Mem := m.put a (f (m.get a n))

variable {m m' : Mem} {a b k n p : ℕ} {xs : List UInt8} {f : List UInt8 → List UInt8}

@[simp] theorem get_length : (m.get a n).length = n := by simp [get]

theorem put_of_not_mem (hp : p < a ∨ a + xs.length ≤ p) : m.put a xs p = m p := by
  unfold put
  split_ifs with ha
  · exact List.getD_eq_default _ _ (by omega)
  · rfl

theorem get_congr (h : ∀ i < n, m' (a + i) = m (b + i)) : m'.get a n = m.get b n :=
  List.map_congr_left fun i hi ↦ h i (List.mem_range.1 hi)

@[simp] theorem get_put : (m.put a xs).get a xs.length = xs := by
  apply List.ext_getElem
  · simp
  · intro i h₁ h₂
    simp [get, put, h₂]

/-- What is written elsewhere does not matter. -/
theorem get_put_of_disjoint (h : b + n ≤ a ∨ a + xs.length ≤ b) : (m.put a xs).get b n = m.get b n :=
  get_congr fun i hi ↦ put_of_not_mem (by omega)

theorem get_add : m.get a (k + n) = m.get a k ++ m.get (a + k) n := by
  simp only [get, List.range_add, List.map_append, List.map_map]
  congr 1
  exact List.map_congr_left fun i _ ↦ congrArg m (by simp [Nat.add_assoc])

theorem get_take (h : k ≤ n) : (m.get a n).take k = m.get a k := by
  obtain ⟨j, rfl⟩ := Nat.exists_eq_add_of_le h
  rw [get_add, List.take_left' get_length]

theorem get_drop (h : k ≤ n) : (m.get a n).drop k = m.get (a + k) (n - k) := by
  obtain ⟨j, rfl⟩ := Nat.exists_eq_add_of_le h
  rw [get_add, List.drop_left' get_length, Nat.add_sub_cancel_left]

section Modify

variable (hf : (f (m.get a n)).length = n)

include hf

theorem get_modify : (m.modify a n f).get a n = f (m.get a n) := by
  have h : (m.put a (f (m.get a n))).get a (f (m.get a n)).length = f (m.get a n) := get_put
  rwa [hf] at h

theorem modify_of_not_mem (hp : p < a ∨ a + n ≤ p) : m.modify a n f p = m p :=
  put_of_not_mem (by rwa [hf])

end Modify

theorem put_append {ys : List UInt8} : m.put a (xs ++ ys) = (m.put a xs).put (a + xs.length) ys := by
  funext p
  rcases Nat.lt_or_ge p (a + xs.length) with h | h
  · rw [put_of_not_mem (.inl h)]
    unfold put
    split_ifs with ha
    · rw [List.getD_append _ _ _ _ (by omega)]
    · rfl
  · have hp : a ≤ p := by omega
    have hsub : p - a - xs.length = p - (a + xs.length) := by omega
    rw [put, if_pos hp, List.getD_append_right _ _ _ _ (by omega), hsub, put, if_pos h,
      put_of_not_mem (.inr h)]

/-- Pieces of one size, one after the other. -/
theorem get_put_flatMap {f : ℕ → List UInt8} (hf : ∀ i, (f i).length = k) {i : ℕ} (hi : i < n) :
    (m.put a ((List.range n).flatMap f)).get (a + i * k) k = f i := by
  induction n generalizing m with
  | zero => exact absurd hi (Nat.not_lt_zero i)
  | succ n ih =>
    have hlen : ((List.range n).flatMap f).length = n * k := by simp [List.length_flatMap, hf]
    rw [List.range_succ, List.flatMap_append, put_append, List.flatMap_singleton, hlen]
    rcases Nat.lt_succ_iff_lt_or_eq.1 hi with hi | rfl
    · have hle : (i + 1) * k ≤ n * k := Nat.mul_le_mul_right k hi
      rw [Nat.add_mul, Nat.one_mul] at hle
      rw [get_put_of_disjoint (.inl (by omega)), ih hi]
    · conv_lhs => rw [← hf i]
      exact get_put

/-- The address is not among the `n` addresses from `a` on. -/
def Outside (p a n : ℕ) : Prop := p < a ∨ a + n ≤ p

def Apart (a n b k : ℕ) : Prop := a + n ≤ b ∨ b + k ≤ a

theorem Apart.outside {i : ℕ} (h : Apart a n b k) (hi : i < n) : Outside (a + i) b k := by
  unfold Apart at h
  unfold Outside
  omega

/-- A loop that takes one piece after the other from a place of its own to another. -/
theorem foldlM_pieces {step : Mem → ℕ → Option Mem} {src dst : ℕ → ℕ} {s d : ℕ}
    {S : ℕ → List UInt8} {Q : ℕ → List UInt8 → Prop} {l : List ℕ}
    (hstep : ∀ m, ∀ i ∈ l, m.get (src i) s = S i → ∃ m', step m i = some m' ∧ Q i (m'.get (dst i) d) ∧
      ∀ p, Outside p (src i) s → Outside p (dst i) d → m' p = m p)
    (hl : l.Pairwise fun i j ↦ Apart (src j) s (src i) s ∧ Apart (src j) s (dst i) d ∧
      Apart (dst i) d (dst j) d)
    (hS : ∀ i ∈ l, m.get (src i) s = S i) :
    ∃ m', l.foldlM step m = some m' ∧ (∀ i ∈ l, Q i (m'.get (dst i) d)) ∧
      ∀ p, (∀ i ∈ l, Outside p (src i) s ∧ Outside p (dst i) d) → m' p = m p := by
  induction l generalizing m with
  | nil => exact ⟨m, rfl, by simp, fun _ _ ↦ rfl⟩
  | cons i l ih =>
    obtain ⟨hi, hl⟩ := List.pairwise_cons.1 hl
    obtain ⟨m₁, hm₁, hQ, hframe⟩ := hstep m i List.mem_cons_self (hS i List.mem_cons_self)
    -- what is still to be read has been left alone
    have hS₁ : ∀ j ∈ l, m₁.get (src j) s = S j := by
      intro j hj
      obtain ⟨hsrc, hdst, -⟩ := hi j hj
      rw [← hS j (List.mem_cons_of_mem i hj)]
      exact get_congr fun q hq ↦ hframe _ (hsrc.outside hq) (hdst.outside hq)
    obtain ⟨m₂, hm₂, hQ₂, hframe₂⟩ := ih (fun m j hj ↦ hstep m j (List.mem_cons_of_mem i hj)) hl hS₁
    refine ⟨m₂, ?_, ?_, ?_⟩
    · rw [List.foldlM_cons, hm₁]
      exact hm₂
    · intro j hj
      rcases List.mem_cons.1 hj with rfl | hj
      · have hkept : m₂.get (dst j) d = m₁.get (dst j) d := by
          apply get_congr
          intro q hq
          apply hframe₂
          intro k hk
          obtain ⟨-, hsrc, hdst⟩ := hi k hk
          exact ⟨Apart.outside (Or.symm hsrc) hq, hdst.outside hq⟩
        rwa [hkept]
      · exact hQ₂ j hj
    · intro p hp
      obtain ⟨hsrc, hdst⟩ := hp i List.mem_cons_self
      rw [hframe₂ p fun j hj ↦ hp j (List.mem_cons_of_mem i hj), hframe p hsrc hdst]

/-- The same for a loop that never stops early. -/
theorem foldl_pieces {step : Mem → ℕ → Mem} {src dst : ℕ → ℕ} {s d : ℕ}
    {S : ℕ → List UInt8} {Q : ℕ → List UInt8 → Prop} {l : List ℕ}
    (hstep : ∀ m, ∀ i ∈ l, m.get (src i) s = S i → Q i ((step m i).get (dst i) d) ∧
      ∀ p, Outside p (src i) s → Outside p (dst i) d → step m i p = m p)
    (hl : l.Pairwise fun i j ↦ Apart (src j) s (src i) s ∧ Apart (src j) s (dst i) d ∧
      Apart (dst i) d (dst j) d)
    (hS : ∀ i ∈ l, m.get (src i) s = S i) :
    (∀ i ∈ l, Q i ((l.foldl step m).get (dst i) d)) ∧
      ∀ p, (∀ i ∈ l, Outside p (src i) s ∧ Outside p (dst i) d) → l.foldl step m p = m p := by
  obtain ⟨m', hm', hQ, hframe⟩ := @foldlM_pieces m (fun m i ↦ pure (step m i)) _ _ _ _ _ _ _
    (fun m i hi hS ↦ ⟨step m i, rfl, hstep m i hi hS⟩) hl hS
  rw [List.foldlM_pure] at hm'
  obtain rfl := Option.some.inj hm'
  exact ⟨hQ, hframe⟩

/-- What is still to be read has been left alone. -/
theorem foldlM_rest {step : Mem → ℕ → Option Mem} {src dst : ℕ → ℕ} {s d : ℕ}
    {S : ℕ → List UInt8} {l l' : List ℕ}
    (hstep : ∀ m, ∀ i ∈ l, m.get (src i) s = S i → ∃ m', step m i = some m' ∧
      ∀ p, Outside p (src i) s → Outside p (dst i) d → m' p = m p)
    (hl : (l ++ l').Pairwise fun i j ↦ Apart (src j) s (src i) s ∧ Apart (src j) s (dst i) d ∧
      Apart (dst i) d (dst j) d)
    (hS : ∀ i ∈ l ++ l', m.get (src i) s = S i) :
    ∃ m', l.foldlM step m = some m' ∧ ∀ j ∈ l', m'.get (src j) s = S j := by
  obtain ⟨hfirst, -, hrest⟩ := List.pairwise_append.1 hl
  obtain ⟨m', hm', -, hframe⟩ := foldlM_pieces (Q := fun _ _ ↦ True)
    (fun m i hi hS ↦ (hstep m i hi hS).imp fun _ h ↦ ⟨h.1, trivial, h.2⟩) hfirst
    fun i hi ↦ hS i (List.mem_append_left l' hi)
  refine ⟨m', hm', fun j hj ↦ ?_⟩
  rw [← hS j (List.mem_append_right l hj)]
  apply get_congr
  intro q hq
  apply hframe
  intro i hi
  obtain ⟨hsrc, hdst, -⟩ := hrest i hi j hj
  exact ⟨hsrc.outside hq, hdst.outside hq⟩

end Mem

end Cpsw.Lib
