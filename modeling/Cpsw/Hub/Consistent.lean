import Cpsw.Hub.Adds

namespace Cpsw.Hub

open Lib.Throw

variable {h h' h'' h₀ t : Heap} {S : Set ℕ} {d a c i fuel : ℕ} {p : Ident × ℕ}

/-- What is attached to a hub is locked and is known by its own name. -/
structure Attached (h : Heap) (p : Ident × ℕ) : Prop where
  address_lt : p.2 < h.addresses
  child : ∃ e < h.entries, (h.address p.2).child = some e ∧ (h.entry e).locked = true ∧
    (h.entry e).name = p.1

/-- Everything that a hub points to is attached. -/
def Consistent (h : Heap) : Prop :=
  ∀ i < h.entries, ∀ dev, (h.entry i).dev = some dev →
    (∀ p ∈ dev.children.entries, Attached h p) ∧
    ∀ b ∈ dev.configPrioList, ∃ p ∈ dev.children.entries, p.2 = b

namespace Attached

theorem child_ne_none (hp : Attached h p) : (h.address p.2).child ≠ none := by
  obtain ⟨e, -, he, -⟩ := hp.child
  rw [he]
  exact Option.some_ne_none e

theorem touched (hp : Attached h p) (ht : Touched S d a c h h') : Attached h' p where
  address_lt := ht.addresses.symm ▸ hp.address_lt
  child := by
    have hpa : (h'.address p.2).child = (h.address p.2).child := by
      by_cases hb : p.2 = a
      · have hne := hp.child_ne_none
        rw [hb] at hne ⊢
        exact ht.child hne
      · rw [ht.address _ hb]
    obtain ⟨e, hlt, he, hlock, hname⟩ := hp.child
    have hl : (h'.entry e).locked = true := by
      by_cases hc : e = c
      · subst hc
        exact ht.locked_mono hlock
      · rw [ht.locked e hc, hlock]
    exact ⟨e, ht.entries.symm ▸ hlt, hpa.trans he, hl, (ht.name e).trans hname⟩

/-- What is there stays as it is while the heap grows. -/
theorem grow (hp : Attached h p) (hent : h.entries ≤ h'.entries) (hadd : h.addresses ≤ h'.addresses)
    (he : ∀ i < h.entries, h'.entry i = h.entry i)
    (ha : ∀ a < h.addresses, h'.address a = h.address a) : Attached h' p where
  address_lt := hp.address_lt.trans_le hadd
  child := by
    obtain ⟨e, hlt, hc, hlock, hname⟩ := hp.child
    refine ⟨e, hlt.trans_le hent, ?_, ?_, ?_⟩
    · rw [ha _ hp.address_lt, hc]
    · rw [he e hlt, hlock]
    · rw [he e hlt, hname]

end Attached

namespace Consistent

theorem attached (hc : Consistent h) (hi : i < h.entries) {dev : Dev}
    (hdev : (h.entry i).dev = some dev) (hp : p ∈ dev.children.entries) : Attached h p :=
  (hc i hi dev hdev).1 p hp

theorem touched (hc : Consistent h) (ht : Touched S d a c h h')
    (hd : (h'.entry d).dev = (h.entry d).dev) : Consistent h' := by
  intro i hi dev hdev
  have hdev' : (h.entry i).dev = some dev := by
    by_cases hid : i = d
    · rw [← hdev, hid, hd]
    · rw [← hdev, ht.dev i hid]
  obtain ⟨hp, hb⟩ := hc i (ht.entries ▸ hi) dev hdev'
  exact ⟨fun p hmem ↦ (hp p hmem).touched ht, hb⟩

theorem entered (hc : Consistent h) (ht : Touched S d a c h h') (he : Entered d a c h h')
    (ha : a < h.addresses) (hlt : c < h.entries) : Consistent h' := by
  intro i hi dev' hdev'
  rw [ht.entries] at hi
  by_cases hid : i = d
  · subst hid
    obtain ⟨dev, dev'', hdev, hdev'', hmem, hprio⟩ := he.maps
    cases hdev''.symm.trans hdev'
    obtain ⟨hp, hb⟩ := hc i hi dev hdev
    constructor
    · intro p hpm
      rcases (hmem p).1 hpm with rfl | hpm
      · exact ⟨ht.addresses.symm ▸ ha, c, ht.entries.symm ▸ hlt, he.child, he.locked, ht.name c⟩
      · exact (hp p hpm).touched ht
    · intro b hbm
      rcases hprio b hbm with rfl | hbm
      · exact ⟨_, (hmem _).2 (Or.inl rfl), rfl⟩
      · obtain ⟨p, hpm, hpb⟩ := hb b hbm
        exact ⟨p, (hmem p).2 (Or.inr hpm), hpb⟩
  · rw [ht.dev i hid] at hdev'
    obtain ⟨hp, hb⟩ := hc i hi dev' hdev'
    exact ⟨fun p hmem ↦ (hp p hmem).touched ht, hb⟩

theorem newEntry (hc : Consistent h) {e : Entry} (he : ∀ dev, e.dev = some dev → dev = .empty) :
    Consistent (h.newEntry e) := by
  intro i hi dev hdev
  by_cases hlt : i < h.entries
  · rw [Heap.newEntry_of_lt hlt] at hdev
    obtain ⟨hp, hb⟩ := hc i hlt dev hdev
    exact ⟨fun p hmem ↦ (hp p hmem).grow (Nat.le_succ _) le_rfl (fun _ ↦ Heap.newEntry_of_lt)
      fun _ _ ↦ rfl, hb⟩
  · have hie : i = h.entries := le_antisymm (Nat.lt_succ_iff.1 hi) (not_lt.1 hlt)
    rw [hie, Heap.newEntry_self] at hdev
    rw [he dev hdev]
    exact ⟨nofun, nofun⟩

theorem newAddress (hc : Consistent h) (x : Address) : Consistent (h.newAddress x) := by
  intro i hi dev hdev
  obtain ⟨hp, hb⟩ := hc i hi dev hdev
  exact ⟨fun p hmem ↦ (hp p hmem).grow le_rfl (Nat.le_succ _) (fun _ _ ↦ rfl)
    fun _ ↦ Heap.newAddress_of_lt, hb⟩

end Consistent

/-- What was there is as it was, and what is new points to what is new. -/
structure Grown (h h' : Heap) : Prop where
  entries_le : h.entries ≤ h'.entries
  addresses_le : h.addresses ≤ h'.addresses
  entry : ∀ i < h.entries, h'.entry i = h.entry i
  address : ∀ a < h.addresses, h'.address a = h.address a
  closed : ∀ i, h.entries ≤ i → i < h'.entries → ∀ dev, (h'.entry i).dev = some dev →
    ∀ p ∈ dev.children.entries, h.addresses ≤ p.2 ∧
      ∀ e, (h'.address p.2).child = some e → h.entries ≤ e

namespace Grown

theorem trans (h₁ : Grown h h') (h₂ : Grown h' h'') (hc : Consistent h') : Grown h h'' where
  entries_le := h₁.entries_le.trans h₂.entries_le
  addresses_le := h₁.addresses_le.trans h₂.addresses_le
  entry i hi := (h₂.entry i (hi.trans_le h₁.entries_le)).trans (h₁.entry i hi)
  address a ha := (h₂.address a (ha.trans_le h₁.addresses_le)).trans (h₁.address a ha)
  closed i hle hi dev hdev p hp := by
    by_cases hlt : i < h'.entries
    · rw [h₂.entry i hlt] at hdev
      rw [h₂.address _ (hc.attached hlt hdev hp).address_lt]
      exact h₁.closed i hle hlt dev hdev p hp
    · obtain ⟨ha, he⟩ := h₂.closed i (not_lt.1 hlt) hi dev hdev p hp
      exact ⟨h₁.addresses_le.trans ha, fun e h ↦ h₁.entries_le.trans (he e h)⟩

theorem newEntry (h : Heap) {e : Entry} (he : ∀ dev, e.dev = some dev → dev = .empty) :
    Grown h (h.newEntry e) where
  entries_le := Nat.le_succ _
  addresses_le := le_rfl
  entry _ := Heap.newEntry_of_lt
  address _ _ := rfl
  closed i hle hi dev hdev := by
    have hie : i = h.entries := le_antisymm (Nat.lt_succ_iff.1 hi) hle
    rw [hie, Heap.newEntry_self] at hdev
    rw [he dev hdev]
    exact nofun

theorem newAddress (h : Heap) (x : Address) : Grown h (h.newAddress x) where
  entries_le := le_rfl
  addresses_le := Nat.le_succ _
  entry _ _ := rfl
  address _ := Heap.newAddress_of_lt
  closed _ hle hi := absurd hi hle.not_gt

/-- The new entries are a set that holds the children of its hubs. -/
theorem closed_new (hg : Grown h h') (hc : Consistent h') :
    Closed {i | h.entries ≤ i ∧ i < h'.entries} h' := by
  intro i ⟨hle, hlt⟩ dev hdev p hp e he
  obtain ⟨e', hlt', he', -⟩ := (hc.attached hlt hdev hp).child
  cases he'.symm.trans he
  exact ⟨(hg.closed i hle hlt dev hdev p hp).2 e he, hlt'⟩

/-- Adding a new entry to a new hub changes nothing that was there. -/
theorem touched (hg : Grown h h') (hc : Consistent h') (ht : Touched S d a c h' h'')
    (hS : ∀ i ∈ S, h.entries ≤ i) (hd : h.entries ≤ d) (ha : h.addresses ≤ a) (hcl : h.entries ≤ c)
    (hdev : (h''.entry d).dev = (h'.entry d).dev ∨ Entered d a c h' h'') : Grown h h'' where
  entries_le := ht.entries.symm ▸ hg.entries_le
  addresses_le := ht.addresses.symm ▸ hg.addresses_le
  entry i hi := by
    have hS' : i ∉ S := fun hmem ↦ (hS i hmem).not_gt hi
    rw [ht.other i hS' (hi.trans_le hd).ne, hg.entry i hi]
  address b hb := by rw [ht.address b (hb.trans_le ha).ne, hg.address b hb]
  closed i hle hi dev' hdev' p hp := by
    rw [ht.entries] at hi
    -- what the hub had before is attached, and stays so
    have hold : ∀ dev, (h'.entry i).dev = some dev → p ∈ dev.children.entries →
        h.addresses ≤ p.2 ∧ ∀ e, (h''.address p.2).child = some e → h.entries ≤ e := by
      intro dev hdev hp
      obtain ⟨hle', hch⟩ := hg.closed i hle hi dev hdev p hp
      have hne := (hc.attached hi hdev hp).child_ne_none
      refine ⟨hle', fun e he ↦ hch e ?_⟩
      by_cases hb : p.2 = a
      · rw [hb] at hne he ⊢
        exact (ht.child hne).symm.trans he
      · rwa [ht.address _ hb] at he
    by_cases hid : i = d
    · subst hid
      rcases hdev with hsame | hent
      · exact hold dev' (hsame.symm.trans hdev') hp
      · obtain ⟨dev, dev'', hd', hd'', hmem, -⟩ := hent.maps
        cases hd''.symm.trans hdev'
        rcases (hmem p).1 hp with rfl | hp
        · refine ⟨ha, fun e he ↦ ?_⟩
          cases hent.child.symm.trans he
          exact hcl
        · exact hold dev hd' hp
    · exact hold dev' ((ht.dev i hid).symm.trans hdev') hp

end Grown

end Cpsw.Hub
