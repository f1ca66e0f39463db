import Cpsw.Path.WellFormed

namespace Cpsw.Path

open PathImpl

variable {Ent Addr : Type} (H : Hierarchy Ent Addr)

/-- The elements that a path ranges over, by the addresses and indices on the way. -/
def Matches (es : List (PathEntry Addr)) (c : List (Addr × ℤ)) : Prop :=
  List.Forall₂ (fun e x ↦ e.c_p = x.1 ∧ e.idxf ≤ x.2 ∧ x.2 ≤ e.idxt) es c

/-- The way from the hub `d` along `c`. -/
def Leads : Ent → List (Addr × ℤ) → Prop
  | _, [] => True
  | d, x :: c => x.1 ∈ H.children d ∧ 0 ≤ x.2 ∧ x.2 < (H.nelms x.1).toNat ∧ Leads (H.entry x.1) c

def endOf (d : Ent) (c : List (Addr × ℤ)) : Ent := (c.getLast?.map fun x ↦ H.entry x.1).getD d

/-- The path ranges over the element to which `c` leads, from a hub that is no one's child. -/
def Addresses (p : PathImpl Ent Addr) (c : List (Addr × ℤ)) : Prop :=
  ∃ top before rel, c = before ++ rel ∧ (∀ a, H.entry a ≠ top) ∧ Leads H top c ∧
    endOf H top before = p.originDev ∧ Matches p.entries rel

variable {H} {p q : PathImpl Ent Addr} {c : List (Addr × ℤ)}

theorem leads_append {d : Ent} {x y : List (Addr × ℤ)} (h : Leads H d (x ++ y)) :
    Leads H (endOf H d x) y := by
  induction x generalizing d with
  | nil => exact h
  | cons z x ih =>
    have hz := ih h.2.2.2
    cases x with
    | nil => exact hz
    | cons w x =>
      simp only [endOf, List.getLast?_cons_cons] at hz ⊢
      simpa [List.getLast?_cons] using hz

theorem leads_left {d : Ent} {x y : List (Addr × ℤ)} (h : Leads H d (x ++ y)) : Leads H d x := by
  induction x generalizing d with
  | nil => trivial
  | cons z x ih => exact ⟨h.1, h.2.1, h.2.2.1, ih h.2.2.2⟩

/-- A way leads down. -/
theorem depth_endOf {d : Ent} (h : Leads H d c) (hc : c ≠ []) : H.depth d < H.depth (endOf H d c) := by
  induction c generalizing d with
  | nil => exact absurd rfl hc
  | cons x c ih =>
    have hx : H.depth d < H.depth (H.entry x.1) := (H.mem_children _ _).1 h.1 ▸ H.depth_lt x.1
    cases c with
    | nil => exact hx
    | cons y c =>
      refine hx.trans ?_
      simpa [endOf, List.getLast?_cons] using ih h.2.2.2 (by simp)

theorem endOf_append {d : Ent} {x y : List (Addr × ℤ)} :
    endOf H d (x ++ y) = endOf H (endOf H d x) y := by
  cases y using List.reverseRecOn with
  | nil => simp [endOf]
  | append_singleton y z => simp [endOf, ← List.append_assoc]

/-- Two ways from the top to an element pass the same hub at the same place. -/
theorem eq_of_endOf_eq {top : Ent} {x x' y y' : List (Addr × ℤ)} (h : Leads H top (x ++ y))
    (heq : x ++ y = x' ++ y') (hend : endOf H top x = endOf H top x') : x = x' := by
  have hgo : ∀ {x w y : List (Addr × ℤ)}, Leads H top (x ++ (w ++ y)) →
      endOf H top x = endOf H top (x ++ w) → w = [] := by
    intro x w y h hend
    by_contra hw
    have hdepth := depth_endOf (leads_left (leads_append h)) hw
    rw [← endOf_append, ← hend] at hdepth
    exact lt_irrefl _ hdepth
  rcases List.append_eq_append_iff.1 heq with ⟨w, hx, hy⟩ | ⟨w, hx, hy⟩
  · subst hx hy
    rw [hgo h hend, List.append_nil]
  · subst hx hy
    rw [List.append_assoc] at h
    rw [hgo h hend.symm, List.append_nil]

theorem isIntersectingLoop_of_matches [DecidableEq Addr] {es es' : List (PathEntry Addr)} (h : Matches es c)
    (h' : Matches es' c) : isIntersectingLoop es es' = true := by
  induction h generalizing es' with
  | nil =>
    cases h'
    rfl
  | cons hx _ ih =>
    cases h' with
    | cons hx' hrest =>
      obtain ⟨ha, hf, ht⟩ := hx
      obtain ⟨ha', hf', ht'⟩ := hx'
      rw [isIntersectingLoop, if_neg (by simp [ha, ha']), if_neg, ih hrest]
      simp only [commonFrom, commonTo]
      split_ifs <;> omega

/-- Paths from one hub that have an element in common are found to intersect. -/
theorem isIntersecting_of_addresses [DecidableEq Ent] [DecidableEq Addr] (ho : p.originDev = q.originDev) (hq : q.entries ≠ [])
    (hc : Addresses H p c) (hc' : Addresses H q c) : p.isIntersecting q = true := by
  obtain ⟨top, before, rel, rfl, htop, hlead, hend, hmatch⟩ := hc
  obtain ⟨top', before', rel', heq, htop', hlead', hend', hmatch'⟩ := hc'
  have hrel' : rel' ≠ [] := by
    rintro rfl
    exact hq (List.forall₂_nil_right_iff.1 hmatch')
  obtain ⟨x, c, hx⟩ := List.exists_cons_of_ne_nil (List.append_ne_nil_of_right_ne_nil before' hrel')
  have htops : top' = top := by
    rw [heq, hx] at hlead
    rw [heq, hx] at hlead'
    exact ((H.mem_children _ _).1 hlead'.1).symm.trans ((H.mem_children _ _).1 hlead.1)
  subst htops
  have hbefore := eq_of_endOf_eq hlead heq (by rw [hend, hend', ho])
  subst hbefore
  have hrel : rel = rel' := List.append_cancel_left heq
  subst hrel
  rw [isIntersecting, if_neg (by simp [hq, ho])]
  exact isIntersectingLoop_of_matches hmatch hmatch'

end Cpsw.Path
