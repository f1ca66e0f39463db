import Cpsw.Hub.Visit

namespace Cpsw.Hub

open Lib.Throw

variable {h h' h'' t : Heap} {S : Set ℕ} {d a c i : ℕ} {E : Stop → Heap → Prop}

/-- What adding `c` at the address `a` of the hub `d` leaves as it was, `S` being what is below
`c`. -/
structure Touched (S : Set ℕ) (d a c : ℕ) (h h' : Heap) : Prop where
  entries : h'.entries = h.entries
  addresses : h'.addresses = h.addresses
  name : ∀ i, (h'.entry i).name = (h.entry i).name
  size : ∀ i, (h'.entry i).size = (h.entry i).size
  other : ∀ i ∉ S, i ≠ d → h'.entry i = h.entry i
  locked : ∀ i ≠ c, (h'.entry i).locked = (h.entry i).locked
  locked_mono : (h.entry c).locked = true → (h'.entry c).locked = true
  dev : ∀ i ≠ d, (h'.entry i).dev = (h.entry i).dev
  address : ∀ b ≠ a, h'.address b = h.address b
  child : (h.address a).child ≠ none → (h'.address a).child = (h.address a).child

theorem Touched.trans (h₁ : Touched S d a c h h') (h₂ : Touched S d a c h' h'') :
    Touched S d a c h h'' where
  entries := h₂.entries.trans h₁.entries
  addresses := h₂.addresses.trans h₁.addresses
  name i := (h₂.name i).trans (h₁.name i)
  size i := (h₂.size i).trans (h₁.size i)
  other i hi hd := (h₂.other i hi hd).trans (h₁.other i hi hd)
  locked i hi := (h₂.locked i hi).trans (h₁.locked i hi)
  locked_mono hl := h₂.locked_mono (h₁.locked_mono hl)
  dev i hi := (h₂.dev i hi).trans (h₁.dev i hi)
  address b hb := (h₂.address b hb).trans (h₁.address b hb)
  child hne := by
    have he := h₁.child hne
    rw [← he] at hne ⊢
    exact h₂.child hne

theorem Painted.touched (hp : Painted S h h') (d a c : ℕ) : Touched S d a c h h' where
  entries := hp.entries
  addresses := hp.addresses
  name := hp.name
  size := hp.size
  other i hi _ := hp.other i hi
  locked i _ := hp.locked i
  locked_mono hl := (hp.locked c).trans hl
  dev i _ := hp.dev i
  address b _ := congrFun hp.address b
  child _ := by rw [hp.address]

/-- `setLocked` of the child. -/
theorem touched_setLocked (h : Heap) (d a : ℕ) (hc : c ∈ S) :
    Touched S d a c h (h.updateEntry c fun e ↦ { e with locked := true }) := by
  have hsame : ∀ i, ((h.updateEntry c fun e ↦ { e with locked := true }).entry i) =
      { h.entry i with locked := decide (i = c) || (h.entry i).locked } := by
    intro i
    by_cases hi : i = c
    · rw [hi, Heap.updateEntry_self, decide_eq_true rfl, Bool.true_or]
    · rw [Heap.updateEntry_of_ne hi, decide_eq_false hi, Bool.false_or]
  refine ⟨rfl, rfl, ?_, ?_, ?_, ?_, ?_, ?_, fun _ _ ↦ rfl, fun _ ↦ rfl⟩
  · exact fun i ↦ by rw [hsame]
  · exact fun i ↦ by rw [hsame]
  · exact fun i hi _ ↦ Heap.updateEntry_of_ne (ne_of_mem_of_not_mem hc hi).symm
  · exact fun i hi ↦ by rw [Heap.updateEntry_of_ne hi]
  · exact fun _ ↦ by rw [Heap.updateEntry_self]
  · exact fun i _ ↦ by rw [hsame]

/-- A change of the hub's own map or list. -/
theorem touched_setDev (S : Set ℕ) (h : Heap) (d a c : ℕ) (dev : Option Dev) :
    Touched S d a c h (h.updateEntry d fun e ↦ { e with dev }) := by
  have hsame : ∀ i, (h.updateEntry d fun e ↦ { e with dev }).entry i =
      { h.entry i with dev := ((h.updateEntry d fun e ↦ { e with dev }).entry i).dev } := by
    intro i
    by_cases hi : i = d
    · rw [hi, Heap.updateEntry_self]
    · rw [Heap.updateEntry_of_ne hi]
  refine ⟨rfl, rfl, ?_, ?_, ?_, ?_, ?_, ?_, fun _ _ ↦ rfl, fun _ ↦ rfl⟩
  · exact fun i ↦ by rw [hsame]
  · exact fun i ↦ by rw [hsame]
  · exact fun i _ hi ↦ Heap.updateEntry_of_ne hi
  · exact fun i _ ↦ by rw [hsame]
  · exact fun hl ↦ by rwa [hsame]
  · exact fun i hi ↦ by rw [Heap.updateEntry_of_ne hi]

/-- A change of the address. -/
structure Readdressed (a : ℕ) (h h' : Heap) : Prop where
  entries : h'.entries = h.entries
  addresses : h'.addresses = h.addresses
  entry : h'.entry = h.entry
  address : ∀ b ≠ a, h'.address b = h.address b

theorem readdressed_update (h : Heap) (a : ℕ) (f : Address → Address) :
    Readdressed a h (h.updateAddress a f) :=
  ⟨rfl, rfl, rfl, fun _ ↦ Heap.updateAddress_of_ne⟩

theorem Readdressed.trans (h₁ : Readdressed a h h') (h₂ : Readdressed a h' h'') :
    Readdressed a h h'' :=
  ⟨h₂.entries.trans h₁.entries, h₂.addresses.trans h₁.addresses, h₂.entry.trans h₁.entry,
    fun b hb ↦ (h₂.address b hb).trans (h₁.address b hb)⟩

theorem Readdressed.touched (hr : Readdressed a h h') (S : Set ℕ) (d c : ℕ)
    (hc : (h.address a).child ≠ none → (h'.address a).child = (h.address a).child) :
    Touched S d a c h h' where
  entries := hr.entries
  addresses := hr.addresses
  name i := by rw [hr.entry]
  size i := by rw [hr.entry]
  other i _ _ := by rw [hr.entry]
  locked i _ := by rw [hr.entry]
  locked_mono hl := by rwa [hr.entry]
  dev i _ := by rw [hr.entry]
  address := hr.address
  child := hc

/-- The child fits behind the address, as far as the address' class checks it. -/
def InRange (h : Heap) (a c : ℕ) : Prop :=
  match (h.address a).kind with
  | .mmio offset stride =>
    ¬CMMIOAddressImpl.endOf offset (h.address a).nelms
      (CMMIOAddressImpl.strideFor stride (h.entry c).size) (h.entry c).size >
        (h.entry (h.address a).owner).size
  | _ => True

instance : Decidable (InRange h a c) := by
  unfold InRange
  split <;> infer_instance

theorem InRange.congr (hs : ∀ i, (h'.entry i).size = (h.entry i).size)
    (ha : h'.address a = h.address a) : InRange h' a c ↔ InRange h a c := by
  rw [InRange, InRange, ha]
  split
  · rw [hs, hs]
  · rfl

theorem CAddressImpl.wp_attach :
    wp (CAddressImpl.attach a c) h
      (fun _ t ↦ (h.address a).child = none ∧ Readdressed a h t ∧ (t.address a).child = some c)
      (fun e t ↦ (∃ err, e = .thrown err) ∧ (h.address a).child ≠ none ∧ t = h) := by
  apply wp_get_bind.2
  split
  case h_1 x hx => exact ⟨⟨_, rfl⟩, by rw [hx]; exact Option.some_ne_none x, rfl⟩
  case h_2 hx =>
    refine ⟨hx, readdressed_update _ _ _, ?_⟩
    rw [Heap.updateAddress_self]

/-- `attach` succeeds where the address is free and the child is in its range. -/
theorem wp_attach :
    wp (attach a c) h
      (fun _ t ↦ ((h.address a).child = none ∧ InRange h a c) ∧ Readdressed a h t ∧
        (t.address a).child = some c)
      (fun e t ↦ (∃ err, e = .thrown err) ∧ ¬((h.address a).child = none ∧ InRange h a c) ∧
        Readdressed a h t ∧ (t.address a).child = (h.address a).child) := by
  apply wp_get_bind.2
  have hbase : InRange h a c → wp (CAddressImpl.attach a c) h
      (fun _ t ↦ ((h.address a).child = none ∧ InRange h a c) ∧ Readdressed a h t ∧
        (t.address a).child = some c)
      (fun e t ↦ (∃ err, e = .thrown err) ∧ ¬((h.address a).child = none ∧ InRange h a c) ∧
        Readdressed a h t ∧ (t.address a).child = (h.address a).child) := by
    intro hin
    apply CAddressImpl.wp_attach.mono
    · exact fun _ t ⟨hfree, hr, hchild⟩ ↦ ⟨⟨hfree, hin⟩, hr, hchild⟩
    · rintro e _ ⟨he, hne, rfl⟩
      exact ⟨he, fun hf ↦ hne hf.1, ⟨rfl, rfl, rfl, fun _ _ ↦ rfl⟩, rfl⟩
  split
  case h_1 offset stride hk =>
    apply wp_get_bind.2
    apply wp_bind.2
    apply wp_modify.2
    have hr := readdressed_update h a fun x ↦ { x with
      kind := .mmio offset (CMMIOAddressImpl.strideFor stride (h.entry c).size) }
    have hchild : ((h.updateAddress a fun x ↦ { x with
        kind := .mmio offset (CMMIOAddressImpl.strideFor stride (h.entry c).size) }).address
          a).child = (h.address a).child := by rw [Heap.updateAddress_self]
    split
    case isTrue hgt =>
      refine ⟨⟨_, rfl⟩, fun hf ↦ ?_, hr, hchild⟩
      have hin := hf.2
      rw [InRange, hk] at hin
      exact hin hgt
    case isFalse hgt =>
      have hin : InRange h a c := by
        rw [InRange, hk]
        exact hgt
      apply CAddressImpl.wp_attach.mono
      · rintro _ t ⟨hfree, ht, hc⟩
        exact ⟨⟨hchild.symm.trans hfree, hin⟩, hr.trans ht, hc⟩
      · rintro e _ ⟨he, hne, rfl⟩
        exact ⟨he, fun hf ↦ hne (hchild.trans hf.1), hr, hchild⟩
  case h_2 hk =>
    apply hbase
    rw [InRange]
    split
    case h_1 offset stride hk' => exact absurd hk' (hk offset stride)
    case h_2 => trivial

end Cpsw.Hub
