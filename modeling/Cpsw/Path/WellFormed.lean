import Cpsw.Path.Reachable
import Mathlib

namespace Cpsw.Path

open Cpsw.Lib.Run PathImpl

variable {Ent Addr : Type} (H : Hierarchy Ent Addr)

structure WellFormed (p : PathImpl Ent Addr) : Prop where
  inRange : ∀ e ∈ p.entries, 0 ≤ e.idxf ∧ e.idxf ≤ e.idxt ∧ e.idxt < (H.nelms e.c_p).toNat
  linked : Linked H p.originDev p.entries
  nelmsLeft : ∀ (k : ℕ) (e : PathEntry Addr), p.entries[k]? = some e →
    (e.nelmsLeft.toNat : ℤ) = ((p.entries.take (k + 1)).map PathEntry.width).prod

/-- The arrays on the path have elements, the last of which an `int` can count, and together they
have no more elements than 32 bits can count. -/
structure Fits (p : PathImpl Ent Addr) : Prop where
  nelms : ∀ e ∈ p.entries, 0 < (H.nelms e.c_p).toNat ∧ (H.nelms e.c_p).toNat ≤ 2 ^ 31
  prod : (p.entries.map PathEntry.width).prod < 2 ^ 32

variable {H} {p : PathImpl Ent Addr} {e : PathEntry Addr} {xs : List (PathEntry Addr)} {n : UInt32}

/-- The number of elements is the product of the widths, in 32 bits. -/
theorem Scaled.nelmsLeft_eq {k : ℕ} (h : Scaled n xs) (he : xs[k]? = some e) :
    e.nelmsLeft = n * UInt32.ofInt ((xs.take (k + 1)).map PathEntry.width).prod := by
  induction xs generalizing n k with
  | nil => cases he
  | cons x xs ih =>
    cases k with
    | zero =>
      cases he
      simpa using h.1
    | succ k =>
      rw [ih h.2 he, h.1, List.take_succ_cons, List.map_cons, List.prod_cons, UInt32.ofInt_mul,
        UInt32.mul_assoc]

theorem toNat_ofInt (z : ℤ) : ((UInt32.ofInt z).toNat : ℤ) = z % 2 ^ 32 := by
  have h : (UInt32.ofInt z).toNat = (z % 2 ^ 32).toNat % 2 ^ 32 := UInt32.toNat_ofNat'
  rw [h]
  omega

theorem width_prod_pos (h : ∀ e ∈ xs, 1 ≤ e.width) : 1 ≤ (xs.map PathEntry.width).prod := by
  induction xs with
  | nil => exact le_refl 1
  | cons e xs ih =>
    rw [List.map_cons, List.prod_cons]
    exact one_le_mul_of_one_le_of_one_le (h e List.mem_cons_self)
      (ih fun x hx ↦ h x (List.mem_cons_of_mem e hx))

theorem Sound.nelmsLeft_eq {k : ℕ} (h : Sound H p) (he : p.entries[k]? = some e) :
    (e.nelmsLeft.toNat : ℤ) = ((p.entries.take (k + 1)).map PathEntry.width).prod % 2 ^ 32 := by
  rw [h.scaled.nelmsLeft_eq he, UInt32.one_mul, toNat_ofInt]

/-- An entry is in range exactly if an `int` can count the elements of its array and there are
some. -/
theorem Clipped.inRange_iff (h : Clipped H e) :
    (0 ≤ e.idxf ∧ e.idxf ≤ e.idxt ∧ e.idxt < (H.nelms e.c_p).toNat) ↔
      0 < (H.nelms e.c_p).toNat ∧ (H.nelms e.c_p).toNat ≤ 2 ^ 31 := by
  have hlt := (H.nelms e.c_p).toNat_lt
  have hpred := toInt_pred (H.nelms e.c_p)
  simp only [Clipped] at h
  split_ifs at hpred <;> omega

theorem Sound.wellFormed_of_fits (h : Sound H p) (hf : Fits H p) : WellFormed H p := by
  have hrange : ∀ e ∈ p.entries, _ := fun e he ↦ (h.clipped e he).inRange_iff.2 (hf.nelms e he)
  refine ⟨hrange, h.linked, fun k e he ↦ ?_⟩
  have hwidth : ∀ e ∈ p.entries, 1 ≤ e.width := by
    intro e he
    have := hrange e he
    simp only [PathEntry.width]
    omega
  have htake := width_prod_pos fun e he ↦ hwidth e (List.mem_of_mem_take (i := k + 1) he)
  have hdrop := width_prod_pos fun e he ↦ hwidth e (List.mem_of_mem_drop (i := k + 1) he)
  have hprod : ((p.entries.take (k + 1)).map PathEntry.width).prod ≤
      (p.entries.map PathEntry.width).prod := by
    rw [← List.take_append_drop (k + 1) p.entries, List.map_append, List.prod_append]
    simp only [List.take_append_drop]
    exact le_mul_of_one_le_right (by omega) hdrop
  have hlt := hf.prod
  rw [h.nelmsLeft_eq he, Int.emod_eq_of_lt (by omega) (by omega)]

theorem Sound.fits_of_wellFormed (h : Sound H p) (hw : WellFormed H p) : Fits H p := by
  refine ⟨fun e he ↦ (h.clipped e he).inRange_iff.1 (hw.inRange e he), ?_⟩
  cases hp : p.entries using List.reverseRecOn with
  | nil => simp
  | append_singleton xs e =>
    have he : p.entries[xs.length]? = some e := by simp [hp]
    have hlast := hw.nelmsLeft _ e he
    have hlt := e.nelmsLeft.toNat_lt
    rw [hp, List.take_of_length_le (by simp)] at hlast
    omega

/-- A path that the operations make is well formed exactly if its arrays fit. -/
theorem wellFormed_iff_fits [DecidableEq Ent] [DecidableEq Addr] (h : Reachable H p) :
    WellFormed H p ↔ Fits H p :=
  ⟨h.sound.fits_of_wellFormed, h.sound.wellFormed_of_fits⟩

namespace Nested

scoped instance neZero_two : NeZero 2 := ⟨by decide⟩

scoped instance neZero_three : NeZero 3 := ⟨by decide⟩

theorem succ_inj : ∀ a b : Fin 2, a.succ = b.succ → a = b := by decide

end Nested

open scoped Nested in
/-- A root with an array of hubs, each with an array of leaves. -/
def nested (hubs leaves : UInt32) : Hierarchy (Fin 3) (Fin 2) where
  name e := if e = 0 then ['r'] else if e = 1 then ['a'] else ['b']
  isDev e := e ≠ 2
  children e := if e = 0 then [0] else if e = 1 then [1] else []
  owner a := a.castSucc
  entry a := a.succ
  nelms a := if a = 0 then hubs else leaves
  depth e := e
  mem_children := by decide
  isDev_owner := by decide
  names_nodup := by decide
  entry_inj := Nested.succ_inj
  depth_lt := by decide

theorem nested_wellFormed : WellFormed (nested 4 4) ⟨0, [⟨0, 0, 3, 4⟩, ⟨1, 0, 3, 16⟩]⟩ := by
  have hfind : (create 0).findByName (nested 4 4) ['a', '/', 'b'] =
      .ok ⟨0, [⟨0, 0, 3, 4⟩, ⟨1, 0, 3, 16⟩]⟩ := toOption_eq_some.1 (by decide +kernel)
  apply (wellFormed_iff_fits (.findByName (.create rfl) hfind)).2
  exact ⟨by decide, by decide⟩

/-- A visitor is shown leaves without elements. -/
theorem nested_explore : (⟨0, [⟨0, 0, 0, 1⟩, ⟨1, -1, -1, 1⟩]⟩ : PathImpl (Fin 3) (Fin 2)) ∈
    (create 0).explore (nested 1 0) (fun _ ↦ true) 2 := by
  decide +kernel

/-- An array of hubs with arrays of leaves, more than 32 bits can count. -/
theorem large_reachable :
    Reachable (nested 65536 65536) ⟨0, [⟨0, 0, 65535, 65536⟩, ⟨1, 0, 65535, 0⟩]⟩ := by
  have hfind : (create 0).findByName (nested 65536 65536) ['a', '/', 'b'] =
      .ok ⟨0, [⟨0, 0, 65535, 65536⟩, ⟨1, 0, 65535, 0⟩]⟩ := toOption_eq_some.1 (by decide +kernel)
  exact .findByName (.create rfl) hfind

/-- The number of elements of the leaves wraps around, and an array without elements is visited at
the index `-1`. -/
theorem not_wellFormed :
    (Reachable (nested 65536 65536) ⟨0, [⟨0, 0, 65535, 65536⟩, ⟨1, 0, 65535, 0⟩]⟩ ∧
      ¬WellFormed (nested 65536 65536) ⟨0, [⟨0, 0, 65535, 65536⟩, ⟨1, 0, 65535, 0⟩]⟩) ∧
    (Reachable (nested 1 0) ⟨0, [⟨0, 0, 0, 1⟩, ⟨1, -1, -1, 1⟩]⟩ ∧
      ¬WellFormed (nested 1 0) ⟨0, [⟨0, 0, 0, 1⟩, ⟨1, -1, -1, 1⟩]⟩) := by
  refine ⟨⟨large_reachable, ?_⟩, .explore (.create rfl) nested_explore, ?_⟩
  · intro h
    have hn := h.nelmsLeft 1 _ rfl
    exact absurd hn (by decide)
  · intro h
    have hr := h.inRange ⟨1, -1, -1, 1⟩ (by simp)
    exact absurd hr.1 (by decide)

end Cpsw.Path
