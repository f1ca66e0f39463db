import Mathlib.Data.Set.Basic
import Cpsw.Path.Elements

namespace Cpsw.Path

open Cpsw.Lib.Run PathImpl

variable {Ent Addr : Type} {H : Hierarchy Ent Addr} {p q : PathImpl Ent Addr}
variable {xs ys : List (PathEntry Addr)} {c : List (Addr × ℤ)} {d : Ent}

/-- The elements that a path ranges over, of which the null path has none. -/
def elements : Option (PathImpl Ent Addr) → Set (List (Addr × ℤ))
  | none => ∅
  | some r => {c | Matches r.entries c}

/-- The constructor takes what two entries for one address have in common as it is. -/
theorem make_common {a b : PathEntry Addr} {n : UInt32} (ha : Clipped H a) (hb : Clipped H b)
    (hab : a.c_p = b.c_p) (hft : commonFrom a b ≤ commonTo a b) :
    (PathEntry.make H a.c_p (commonFrom a b) (commonTo a b) n).idxf = commonFrom a b ∧
      (PathEntry.make H a.c_p (commonFrom a b) (commonTo a b) n).idxt = commonTo a b := by
  simp only [Clipped, ← hab] at ha hb
  simp only [PathEntry.make]
  have hf : commonFrom a b = a.idxf ∨ commonFrom a b = b.idxf := by
    simp only [commonFrom]
    split_ifs <;> simp
  have ht : commonTo a b = a.idxt ∨ commonTo a b = b.idxt := by
    simp only [commonTo]
    split_ifs <;> simp
  constructor <;> split_ifs <;> omega

theorem commonFrom_le {a b : PathEntry Addr} {i : ℤ} :
    commonFrom a b ≤ i ↔ a.idxf ≤ i ∧ b.idxf ≤ i := by
  simp only [commonFrom]
  split_ifs <;> omega

theorem le_commonTo {a b : PathEntry Addr} {i : ℤ} :
    i ≤ commonTo a b ↔ i ≤ a.idxt ∧ i ≤ b.idxt := by
  simp only [commonTo]
  split_ifs <;> omega

theorem matches_cons {e : PathEntry Addr} : Matches (e :: xs) c ↔
    ∃ i c', c = (e.c_p, i) :: c' ∧ e.idxf ≤ i ∧ i ≤ e.idxt ∧ Matches xs c' := by
  constructor
  · intro h
    cases h with
    | @cons _ x _ c' hx hrest => exact ⟨x.2, c', by rw [hx.1], hx.2.1, hx.2.2, hrest⟩
  · rintro ⟨i, c', rfl, hf, ht, hrest⟩
    exact .cons ⟨rfl, hf, ht⟩ hrest

/-- An entry with what two entries have in common, before the elements that are in both tails. -/
theorem matches_common {x y e : PathEntry Addr} {zs : List (PathEntry Addr)} (hc : e.c_p = x.c_p)
    (hf : e.idxf = commonFrom x y) (ht : e.idxt = commonTo x y) (hxy : x.c_p = y.c_p)
    (hzs : ∀ c, Matches zs c ↔ Matches xs c ∧ Matches ys c) (c : List (Addr × ℤ)) :
    Matches (e :: zs) c ↔ Matches (x :: xs) c ∧ Matches (y :: ys) c := by
  rw [matches_cons, matches_cons, matches_cons, hc, hf, ht]
  constructor
  · intro h
    obtain ⟨i, c', rfl, hf, ht, hrest⟩ := h
    obtain ⟨hf, hf'⟩ := commonFrom_le.1 hf
    obtain ⟨ht, ht'⟩ := le_commonTo.1 ht
    obtain ⟨hrest, hrest'⟩ := (hzs c').1 hrest
    exact ⟨⟨i, c', rfl, hf, ht, hrest⟩, i, c', by rw [hxy], hf', ht', hrest'⟩
  · intro h
    obtain ⟨⟨i, c', rfl, hf, ht, hrest⟩, j, c'', heq, hf', ht', hrest'⟩ := h
    cases hxy ▸ heq
    exact ⟨i, c', rfl, commonFrom_le.2 ⟨hf, hf'⟩, le_commonTo.2 ⟨ht, ht'⟩, (hzs c').2 ⟨hrest, hrest'⟩⟩

/-- The address at the tail of a path is a child of what was there. -/
theorem appendAddress_ok [DecidableEq Ent] {a : Addr} {f t : ℤ}
    (ha : a ∈ H.children (p.tailEntry H)) : p.appendAddress H a f t =
      .ok (p.pushBack (.make H a f t p.getNelms)) := by
  have howner : H.owner a = p.tailEntry H := (H.mem_children _ _).1 ha
  rw [appendAddress, howner, Sound.verifyAtTail_tailEntry]

variable [DecidableEq Ent] [DecidableEq Addr]

/-- One entry of the intersection after the other: the loop gets to the end exactly if the other
loop does, with the elements that are in both. -/
theorem intersectLoop_ok (rval : PathImpl Ent Addr) (hx : Linked H (rval.tailEntry H) xs)
    (hcx : ∀ e ∈ xs, Clipped H e) (hcy : ∀ e ∈ ys, Clipped H e) :
    (isIntersectingLoop xs ys = false ∧ intersectLoop H rval xs ys = .ok none) ∨
      (isIntersectingLoop xs ys = true ∧ ∃ zs,
        intersectLoop H rval xs ys = .ok (some { rval with entries := rval.entries ++ zs }) ∧
        ∀ c, Matches zs c ↔ Matches xs c ∧ Matches ys c) := by
  induction xs generalizing rval ys with
  | nil =>
    cases ys with
    | nil => exact .inr ⟨rfl, [], by simp [intersectLoop], fun c ↦ (and_self_iff).symm⟩
    | cons y ys => exact .inl ⟨rfl, rfl⟩
  | cons x xs ih =>
    cases ys with
    | nil => exact .inl ⟨rfl, rfl⟩
    | cons y ys =>
      rw [isIntersectingLoop, intersectLoop]
      by_cases hxy : x.c_p = y.c_p
      · by_cases hft : commonFrom x y ≤ commonTo x y
        · have hmake := make_common (n := rval.getNelms) (hcx x List.mem_cons_self)
            (hcy y List.mem_cons_self) hxy hft
          rw [if_neg (not_not.2 hxy), if_neg (not_not.2 hxy), if_neg (not_lt.2 hft),
            if_neg (not_lt.2 hft), appendAddress_ok hx.1]
          have htail : (rval.pushBack (.make H x.c_p (commonFrom x y) (commonTo x y)
              rval.getNelms)).tailEntry H = H.entry x.c_p := by simp [tailEntry, pushBack, make_c_p]
          rcases ih _ (htail ▸ hx.2) (fun e he ↦ hcx e (List.mem_cons_of_mem x he))
            (fun e he ↦ hcy e (List.mem_cons_of_mem y he)) with ⟨hfalse, hnone⟩ | ⟨htrue, zs, hsome, hzs⟩
          · exact .inl ⟨hfalse, hnone⟩
          · refine .inr ⟨htrue, .make H x.c_p (commonFrom x y) (commonTo x y) rval.getNelms :: zs,
              ?_, matches_common make_c_p hmake.1 hmake.2 hxy hzs⟩
            refine hsome.trans ?_
            simp only [pushBack, List.append_assoc, List.singleton_append]
        · have hlt := not_le.1 hft
          rw [if_neg (not_not.2 hxy), if_neg (not_not.2 hxy), if_pos hlt, if_pos hlt]
          exact .inl ⟨rfl, rfl⟩
      · rw [if_pos hxy, if_pos hxy]
        exact .inl ⟨rfl, rfl⟩

/-- `intersect` makes the path to the elements that are in both, where there are any. -/
theorem intersect_ok (hp : Sound H p) (hq : Sound H q) (hne : q.entries ≠ [])
    (ho : p.originDev = q.originDev) : ∃ r, p.intersect H q = .ok r ∧
      (p.isIntersecting q = true ↔ r ≠ none) ∧
      elements r = elements (some p) ∩ elements (some q) := by
  have hguard : ¬(q.entries = [] ∨ p.originDev ≠ q.originDev) := by simp [hne, ho]
  rw [intersect, isIntersecting, if_neg hguard, if_neg hguard]
  rcases intersectLoop_ok (create p.originDev) hp.linked hp.clipped hq.clipped with
    ⟨hfalse, hnone⟩ | ⟨htrue, zs, hsome, hzs⟩
  · refine ⟨none, hnone, by simp [hfalse], ?_⟩
    ext c
    refine ⟨fun h ↦ absurd h (Set.notMem_empty c), fun h ↦ ?_⟩
    have htrue := isIntersectingLoop_of_matches h.1 h.2
    rw [hfalse] at htrue
    cases htrue
  · refine ⟨_, hsome, by simp [htrue], ?_⟩
    ext c
    exact hzs c

/-- Where the children on the way differ, the loop stops with no path. -/
theorem intersectLoop_none {rval : PathImpl Ent Addr} (hx : Linked H (rval.tailEntry H) xs)
    (hcx : ∀ e ∈ xs, Clipped H e) (hcy : ∀ e ∈ ys, Clipped H e)
    (hne : xs.map PathEntry.c_p ≠ ys.map PathEntry.c_p) :
    intersectLoop H rval xs ys = .ok none := by
  rcases intersectLoop_ok rval hx hcx hcy with ⟨-, hnone⟩ | ⟨htrue, -⟩
  · exact hnone
  · refine absurd ?_ hne
    clear hx hcx hcy hne
    induction xs generalizing ys with
    | nil =>
      cases ys with
      | nil => rfl
      | cons y ys => cases htrue
    | cons x xs ih =>
      cases ys with
      | nil => cases htrue
      | cons y ys =>
        rw [isIntersectingLoop] at htrue
        split_ifs at htrue with hxy
        rw [List.map_cons, List.map_cons, not_not.1 hxy, ih htrue]

/-- The intersection of two paths from one hub is exact: it has the elements of both, in either
order, it is null where the two have none in common, which `isIntersecting` tells, and paths through
different children have none. -/
theorem intersect_exact (hp : Reachable H p) (hq : Reachable H q) (hpne : p.entries ≠ [])
    (hqne : q.entries ≠ []) (ho : p.originDev = q.originDev) :
    (∃ r, p.intersect H q = .ok r ∧ elements r = elements (some p) ∩ elements (some q) ∧
      (p.isIntersecting q = true ↔ r ≠ none) ∧
      (p.entries.map PathEntry.c_p ≠ q.entries.map PathEntry.c_p →
        r = none ∧ elements (some p) ∩ elements (some q) = ∅) ∧
      ∃ r', q.intersect H p = .ok r' ∧ elements r' = elements r) ∧
    ∃ r, p.intersect H p = .ok r ∧ elements r = elements (some p) := by
  obtain ⟨r, hr, hiff, helem⟩ := intersect_ok hp.sound hq.sound hqne ho
  obtain ⟨r', hr', -, helem'⟩ := intersect_ok hq.sound hp.sound hpne ho.symm
  obtain ⟨r₁, hr₁, -, helem₁⟩ := intersect_ok hp.sound hp.sound hpne rfl
  refine ⟨⟨r, hr, helem, hiff, fun hne ↦ ?_, r', hr', ?_⟩, r₁, hr₁, ?_⟩
  · have hnone : p.intersect H q = .ok none := by
      rw [intersect, if_neg (by simp [hqne, ho])]
      exact intersectLoop_none hp.sound.linked hp.sound.clipped hq.sound.clipped hne
    obtain rfl : r = none := Except.ok.inj (hr.symm.trans hnone)
    exact ⟨rfl, helem.symm⟩
  · rw [helem, helem', Set.inter_comm]
  · rw [helem₁, Set.inter_self]

theorem intersect_exact_nested :
    (∃ r, (⟨0, [⟨0, 0, 2, 3⟩]⟩ : PathImpl (Fin 3) (Fin 2)).intersect (nested 4 4)
        ⟨0, [⟨0, 1, 3, 3⟩]⟩ = .ok r ∧
      elements r = elements (some ⟨0, [⟨0, 0, 2, 3⟩]⟩) ∩ elements (some ⟨0, [⟨0, 1, 3, 3⟩]⟩) ∧
      ((⟨0, [⟨0, 0, 2, 3⟩]⟩ : PathImpl (Fin 3) (Fin 2)).isIntersecting
        ⟨0, [⟨0, 1, 3, 3⟩]⟩ = true ↔ r ≠ none)) := by
  have hp : (create 0).findByName (nested 4 4) ['a', '[', '0', '-', '2', ']'] =
      .ok ⟨0, [⟨0, 0, 2, 3⟩]⟩ := toOption_eq_some.1 (by decide +kernel)
  have hq : (create 0).findByName (nested 4 4) ['a', '[', '1', '-', '3', ']'] =
      .ok ⟨0, [⟨0, 1, 3, 3⟩]⟩ := toOption_eq_some.1 (by decide +kernel)
  obtain ⟨⟨r, hr, helem, hiff, -⟩, -⟩ := intersect_exact (.findByName (.create rfl) hp)
    (.findByName (.create rfl) hq) (by simp) (by simp) rfl
  exact ⟨r, hr, helem, hiff⟩

end Cpsw.Path
