import Cpsw.Hub.Consistent

namespace Cpsw.Hub

open Lib.Throw

variable {h h' h₀ t : Heap} {S : Set ℕ} {d a c i fuel : ℕ} {p : Ident × ℕ}

theorem wp_cloneAddress {d : ℕ} :
    wp (cloneAddress a d) h
      (fun a' t ↦ a' = h.addresses ∧ ∃ x : Address, x.child = none ∧ t = h.newAddress x)
      (fun e t ↦ (∃ err, e = .thrown err) ∧ t = h) := by
  apply wp_get_bind.2
  split
  · exact ⟨⟨_, rfl⟩, rfl⟩
  · exact ⟨⟨_, rfl⟩, rfl⟩
  · exact ⟨rfl, _, rfl, rfl⟩

theorem touched_configPrio (h : Heap) (i a c : ℕ) (prio : ℤ) :
    Touched {i} i a c h
      (h.updateEntry i fun e ↦ { e with configPrio := prio, configPrioSet := true }) := by
  have hsame : ∀ j, (h.updateEntry i fun e ↦
      { e with configPrio := prio, configPrioSet := true }).entry j = h.entry j ∨
      (h.updateEntry i fun e ↦ { e with configPrio := prio, configPrioSet := true }).entry j =
        { h.entry j with configPrio := prio, configPrioSet := true } := by
    intro j
    by_cases hj : j = i
    · exact Or.inr (by rw [hj, Heap.updateEntry_self])
    · exact Or.inl (Heap.updateEntry_of_ne hj)
  refine ⟨rfl, rfl, ?_, ?_, ?_, ?_, ?_, ?_, fun _ _ ↦ rfl, fun _ ↦ rfl⟩
  · exact fun j ↦ by rcases hsame j with hj | hj <;> rw [hj]
  · exact fun j ↦ by rcases hsame j with hj | hj <;> rw [hj]
  · exact fun j _ hj ↦ Heap.updateEntry_of_ne hj
  · exact fun j _ ↦ by rcases hsame j with hj | hj <;> rw [hj]
  · exact fun hl ↦ by rcases hsame c with hj | hj <;> rw [hj, hl]
  · exact fun j hj ↦ by rw [Heap.updateEntry_of_ne hj]

/-- `postHook` changes the priority at most. -/
theorem wp_postHook (hl : (h.entry i).locked = false) {E : Stop → Heap → Prop} :
    wp (postHook i) h
      (fun _ t ↦ t = h ∨ ∃ prio, t = h.updateEntry i fun e ↦
        { e with configPrio := prio, configPrioSet := true }) E := by
  apply wp_get_bind.2
  split
  · exact Or.inl rfl
  · apply wp_get_bind.2
    rw [if_neg]
    · exact Or.inr ⟨_, rfl⟩
    · intro hno
      rw [hl] at hno
      exact Bool.false_ne_true hno.2

/-- A clone whose children are being added. -/
structure Cloning (h : Heap) (name : Ident) (t : Heap) : Prop where
  grown : Grown h t
  consistent : Consistent t
  lt : h.entries < t.entries
  locked : (t.entry h.entries).locked = false
  name : (t.entry h.entries).name = name

/-- What is left behind by what throws. -/
def Abandoned (h : Heap) (e : Stop) (t : Heap) : Prop :=
  e = .stuck ∨ (∃ err, e = .thrown err) ∧ Grown h t ∧ Consistent t

theorem Cloning.start (hc : Consistent h) (o : Entry) :
    Cloning h o.name (h.newEntry o.copy) := by
  have hempty : ∀ dev, o.copy.dev = some dev → dev = .empty := by
    intro dev hdev
    obtain ⟨_, -, he⟩ := Option.map_eq_some_iff.1 hdev
    exact he.symm
  exact ⟨.newEntry h hempty, hc.newEntry hempty, Nat.lt_succ_self _, by rw [Heap.newEntry_self]; rfl,
    by rw [Heap.newEntry_self]; rfl⟩

theorem Cloning.configPrio {name : Ident} (hcl : Cloning h name t) (hc : Consistent t) (prio : ℤ) :
    Cloning h name (t.updateEntry h.entries fun e ↦
      { e with configPrio := prio, configPrioSet := true }) := by
  have hdev : ((t.updateEntry h.entries fun e ↦
      { e with configPrio := prio, configPrioSet := true }).entry h.entries).dev =
        (t.entry h.entries).dev := by rw [Heap.updateEntry_self]
  -- no address is touched: any will do
  have ht := touched_configPrio t h.entries h.addresses h.entries prio
  exact ⟨hcl.grown.touched hc ht (fun i hi ↦ hi.ge) le_rfl le_rfl le_rfl (Or.inl hdev),
    hc.touched ht hdev, hcl.lt, by rw [Heap.updateEntry_self]; exact hcl.locked,
    by rw [Heap.updateEntry_self]; exact hcl.name⟩

theorem Cloning.newAddress {name : Ident} (hcl : Cloning h name t) (x : Address) :
    Cloning h name (t.newAddress x) :=
  ⟨hcl.grown.trans (.newAddress t x) hcl.consistent, hcl.consistent.newAddress x, hcl.lt,
    hcl.locked, hcl.name⟩

/-- Adding a clone `c` at a new address of the clone of the hub. -/
theorem Cloning.wp_add {name : Ident} {clone : ℕ → HeapM ℕ} {u : Heap} (hcl : Cloning h name u)
    (hg : Grown u t) (hc : Consistent t) (hct : u.entries < t.entries)
    (hl : (t.entry u.entries).locked = false) (ha : h.addresses ≤ a) (hau : a < t.addresses) :
    wp (addWith clone fuel h.entries a u.entries) t (fun _ s ↦ Cloning h name s) (Abandoned h) := by
  apply wp_get_bind.2
  rw [if_neg (by rw [hl]; exact Bool.false_ne_true)]
  have hle := hcl.grown.entries_le
  have hgt := hcl.grown.trans hg hcl.consistent
  have hS : ∀ i ∈ {i | u.entries ≤ i ∧ i < t.entries}, h.entries ≤ i := fun i hi ↦ hle.trans hi.1
  apply (wp_addUnlocked (hg.closed_new hc) ⟨le_rfl, hct⟩).mono
  · intro _ s ⟨ht, _, hent⟩
    have hself := hg.entry _ hcl.lt
    refine ⟨hgt.touched hc ht hS le_rfl ha hle (Or.inr hent), hc.entered ht hent hau hct, ?_, ?_, ?_⟩
    · exact ht.entries.symm ▸ hcl.lt.trans hct
    · rw [ht.locked _ hcl.lt.ne, hself, hcl.locked]
    · rw [ht.name, hself, hcl.name]
  · rintro e s (he | ⟨he, ht, -, -, hdev, -⟩)
    · exact Or.inl he
    · exact Or.inr ⟨he, hgt.touched hc ht hS le_rfl ha hle (Or.inl hdev), hc.touched ht hdev⟩

/-- A clone: everything in it is new, and it is not locked. -/
theorem wp_clone (fuel : ℕ) (hc : Consistent h) (hi : i < h.entries) :
    wp (clone fuel i) h (fun j t ↦ j = h.entries ∧ Cloning h (h.entry i).name t)
      (Abandoned h) := by
  induction fuel generalizing h i with
  | zero => exact Or.inl rfl
  | succ fuel ih =>
    apply wp_get_bind.2
    apply wp_bind.2
    apply wp_modify.2
    have hnew := Cloning.start hc (h.entry i)
    apply wp_bind.2
    apply (wp_postHook hnew.locked).mono _ fun _ _ ↦ id
    intro _ t₁ ht₁
    have hcl : Cloning h (h.entry i).name t₁ := by
      rcases ht₁ with rfl | ⟨prio, rfl⟩
      · exact hnew
      · exact hnew.configPrio hnew.consistent prio
    clear ht₁ hnew
    split
    case h_1 => exact ⟨rfl, hcl⟩
    case h_2 dev hdev =>
      apply wp_bind.2
      apply (wp_forM (I := Cloning h (h.entry i).name) _ hcl).mono
      · exact fun _ t ht ↦ ⟨rfl, ht⟩
      · exact fun _ _ ↦ id
      intro p hp s hs
      have hatt := (hc.attached hi hdev hp).grow hs.grown.entries_le hs.grown.addresses_le
        hs.grown.entry hs.grown.address
      obtain ⟨o, hlt, ho, -, -⟩ := hatt.child
      apply wp_bind.2
      apply wp_cloneAddress.mono
      case hE =>
        rintro e _ ⟨he, rfl⟩
        exact Or.inr ⟨he, hs.grown, hs.consistent⟩
      rintro _ _ ⟨rfl, x, -, rfl⟩
      have hs' := hs.newAddress x
      apply wp_bind.2
      apply wp_getEntryImpl (Or.inl rfl)
      intro o' ho'
      rw [Heap.newAddress_of_lt hatt.address_lt, ho] at ho'
      cases ho'
      apply wp_bind.2
      apply (ih hs'.consistent hlt).mono
      case hE =>
        rintro e v (he | ⟨he, hg, hcv⟩)
        · exact Or.inl he
        · exact Or.inr ⟨he, hs'.grown.trans hg hs'.consistent, hcv⟩
      rintro _ v ⟨rfl, hv⟩
      have hau : s.addresses < v.addresses :=
        (Nat.lt_succ_self s.addresses).trans_le hv.grown.addresses_le
      exact hs'.wp_add hv.grown hv.consistent hv.lt hv.locked hs.grown.addresses_le hau

end Cpsw.Hub
