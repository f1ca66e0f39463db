import Cpsw.Hub.Add
import Cpsw.Lib.Wp
import Mathlib.Data.Set.Basic

namespace Cpsw.Hub

open Lib.Throw

variable {h h' h₀ t : Heap} {S : Set ℕ} {i parent child : ℕ} {E : Stop → Heap → Prop}

/-- The set holds the children of the hubs in it. -/
def Closed (S : Set ℕ) (h : Heap) : Prop :=
  ∀ i ∈ S, ∀ dev, (h.entry i).dev = some dev → ∀ p ∈ dev.children.entries,
    ∀ e, (h.address p.2).child = some e → e ∈ S

/-- Nothing has changed but what is cacheable in `S`. -/
structure Painted (S : Set ℕ) (h h' : Heap) : Prop where
  entries : h'.entries = h.entries
  addresses : h'.addresses = h.addresses
  address : h'.address = h.address
  entry : ∀ i, h'.entry i = { h.entry i with cacheable := (h'.entry i).cacheable }
  other : ∀ i ∉ S, h'.entry i = h.entry i

namespace Painted

theorem refl (S : Set ℕ) (h : Heap) : Painted S h h := ⟨rfl, rfl, rfl, fun _ ↦ rfl, fun _ _ ↦ rfl⟩

theorem dev (hp : Painted S h h') (i : ℕ) : (h'.entry i).dev = (h.entry i).dev := by
  rw [hp.entry]

theorem locked (hp : Painted S h h') (i : ℕ) : (h'.entry i).locked = (h.entry i).locked := by
  rw [hp.entry]

theorem name (hp : Painted S h h') (i : ℕ) : (h'.entry i).name = (h.entry i).name := by
  rw [hp.entry]

theorem size (hp : Painted S h h') (i : ℕ) : (h'.entry i).size = (h.entry i).size := by
  rw [hp.entry]

theorem updateEntry (hp : Painted S h h') (hi : i ∈ S) (cacheable : Cacheable) :
    Painted S h (h'.updateEntry i fun e ↦ { e with cacheable }) where
  entries := hp.entries
  addresses := hp.addresses
  address := hp.address
  entry j := by
    by_cases hj : j = i
    · subst hj
      rw [Heap.updateEntry_self, hp.entry]
    · rw [Heap.updateEntry_of_ne hj]
      exact hp.entry j
  other j hj := by
    have hne : j ≠ i := fun he ↦ hj (he ▸ hi)
    rw [Heap.updateEntry_of_ne hne]
    exact hp.other j hj

end Painted

theorem wp_visitField (hi : child ∈ S) (hp : Painted S h₀ h) :
    wp (visitField parent child) h (fun _ t ↦ Painted S h₀ t) E := by
  apply wp_get_bind.2
  split
  case isFalse => exact hp
  case isTrue hc =>
    apply wp_get_bind.2
    rw [if_neg fun hl ↦ hl.1 hc.2]
    exact hp.updateEntry hi _

theorem wp_visitDev (hi : child ∈ S) (hp : Painted S h₀ h) :
    wp (visitDev parent child) h (fun _ t ↦ Painted S h₀ t) E := by
  apply wp_get_bind.2
  split
  · exact wp_bind.2 (wp_visitField hi hp)
  · exact hp

theorem wp_getEntryImpl {a : ℕ} {Q : ℕ → Heap → Prop} (hE : E .stuck h)
    (hQ : ∀ e, (h.address a).child = some e → Q e h) : wp (getEntryImpl a) h Q E := by
  apply wp_get_bind.2
  split
  case h_1 e he => exact hQ e he
  case h_2 => exact hE

/-- The visitor stays in what can be reached from where it starts, and it does not throw. -/
theorem wp_accept (fuel : ℕ) (hS : Closed S h₀) (hi : i ∈ S) (hp : Painted S h₀ h) :
    wp (accept fuel parent i) h (fun _ t ↦ Painted S h₀ t) (fun e _ ↦ e = .stuck) := by
  induction fuel generalizing parent i h with
  | zero => exact rfl
  | succ fuel ih =>
    apply wp_get_bind.2
    split
    case h_1 => exact wp_bind.2 (wp_visitField hi hp)
    case h_2 dev hdev =>
      rw [hp.dev] at hdev
      apply wp_bind.2
      apply (wp_visitDev hi hp).mono _ fun _ _ ↦ id
      intro parent t ht
      apply wp_foldlM _ ht
      intro p hmem parent s hs
      apply wp_bind.2
      apply wp_getEntryImpl rfl
      intro e he
      rw [hs.address] at he
      exact ih (hS i hi dev hdev p hmem e he) hs

end Cpsw.Hub
