import Mathlib.Data.List.Basic
import Mathlib.Data.Nat.ModEq
import Mathlib.Tactic.Ring

namespace Cpsw.Lib.Circular

variable {α : Type}

/-- The content of a slot; slots outside the store are empty. -/
def cell (buf : List (Option α)) (i : ℕ) : Option α := (buf[i]?).join

/-- The slot `off` places after `rp`, wrapping at the size of the store. -/
def view (buf : List (Option α)) (rp off : ℕ) : Option α := cell buf ((rp + off) % buf.length)

theorem cell_set (buf : List (Option α)) {i : ℕ} (hi : i < buf.length) (v : Option α) (j : ℕ) :
    cell (buf.set i v) j = if i = j then v else cell buf j := by
  unfold cell
  rw [List.getElem?_set]
  split_ifs with hij
  · rfl
  · rfl

theorem cell_replicate (n i : ℕ) : cell (List.replicate n (none : Option α)) i = none := by
  unfold cell
  rw [List.getElem?_replicate]
  split_ifs <;> rfl

theorem view_replicate (n rp off : ℕ) : view (List.replicate n (none : Option α)) rp off = none :=
  cell_replicate _ _

theorem offset_inj {n rp a b : ℕ} (ha : a < n) (hb : b < n)
    (h : (rp + a) % n = (rp + b) % n) : a = b := by
  have hab : a ≡ b [MOD n] := Nat.ModEq.add_left_cancel' rp h
  rwa [Nat.ModEq, Nat.mod_eq_of_lt ha, Nat.mod_eq_of_lt hb] at hab

theorem view_set (buf : List (Option α)) {rp off off' : ℕ} (v : Option α)
    (ho : off < buf.length) (ho' : off' < buf.length) :
    view (buf.set ((rp + off) % buf.length) v) rp off' =
      if off = off' then v else view buf rp off' := by
  have hi : (rp + off) % buf.length < buf.length := Nat.mod_lt _ (by omega)
  unfold view
  rw [List.length_set, cell_set buf hi]
  by_cases h : off = off'
  · simp only [h, if_true]
  · rw [if_neg h, if_neg (fun he ↦ h (offset_inj ho ho' he))]

theorem view_succ (buf : List (Option α)) (rp off : ℕ) :
    view buf (rp + 1) off = view buf rp (off + 1) := by
  unfold view
  rw [Nat.add_right_comm, Nat.add_assoc]

theorem view_period (buf : List (Option α)) (rp off : ℕ) :
    view buf rp (off + buf.length) = view buf rp off := by
  unfold view
  rw [← Nat.add_assoc, Nat.add_mod_right]

/-- A counter that wraps at a multiple of the size selects the same slots. -/
theorem view_mod (buf : List (Option α)) {m : ℕ} (h : buf.length ∣ m) (rp off : ℕ) :
    view buf (rp % m) off = view buf rp off := by
  unfold view
  rw [Nat.add_mod, Nat.mod_mod_of_dvd rp h, ← Nat.add_mod]

/-- The offsets of one round reach every slot. -/
theorem offset_surj {n rp i : ℕ} (hi : i < n) : ∃ off < n, (rp + off) % n = i := by
  have hm : rp % n < n := Nat.mod_lt _ (by omega)
  rcases Nat.lt_or_ge i (rp % n) with hlt | hge
  · refine ⟨i + n - rp % n, by omega, ?_⟩
    rw [← Nat.mod_add_mod, show rp % n + (i + n - rp % n) = i + n by omega, Nat.add_mod_right,
      Nat.mod_eq_of_lt hi]
  · refine ⟨i - rp % n, by omega, ?_⟩
    rw [← Nat.mod_add_mod, show rp % n + (i - rp % n) = i by omega, Nat.mod_eq_of_lt hi]

theorem cell_none_of_view {buf : List (Option α)} {rp : ℕ}
    (h : ∀ off < buf.length, view buf rp off = none) (i : ℕ) : cell buf i = none := by
  by_cases hi : i < buf.length
  · obtain ⟨off, ho, rfl⟩ := @offset_surj _ rp _ hi
    exact h off ho
  · unfold cell
    rw [List.getElem?_eq_none (by omega)]
    rfl

/-- Cutting an empty store, or filling it up, leaves it empty. -/
theorem cell_take_fill {buf : List (Option α)} (h : ∀ i, cell buf i = none) (m n i : ℕ) :
    cell (buf.take m ++ List.replicate n none) i = none := by
  unfold cell
  rw [List.getElem?_append]
  split_ifs
  · rw [List.getElem?_take]
    split_ifs
    · exact h i
    · rfl
  · exact cell_replicate _ _

theorem land_mask (n k : ℕ) : n &&& (2 ^ k - 1) = n % 2 ^ k := Nat.and_two_pow_sub_one_eq_mod n k

end Cpsw.Lib.Circular
