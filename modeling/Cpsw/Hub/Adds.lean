import Cpsw.Hub.Touch

namespace Cpsw.Hub

open Lib.Throw

variable {h h' h₀ t : Heap} {S : Set ℕ} {d a c i fuel : ℕ} {E : Stop → Heap → Prop}

theorem mem_searchPrio {prioOf : ℕ → Option ℤ} {prio : ℤ} {l l' : List ℕ}
    (h : searchPrio prioOf a prio l = some l') : ∀ b ∈ l', b = a ∨ b ∈ l := by
  induction l generalizing l' with
  | nil => cases h
  | cons b bs ih =>
    obtain ⟨p, -, h⟩ := Option.bind_eq_some_iff.1 h
    split at h
    · obtain ⟨l'', hl, rfl⟩ := Option.map_eq_some_iff.1 h
      intro x hx
      rcases List.mem_cons.1 hx with rfl | hx
      · exact Or.inr List.mem_cons_self
      · exact (ih hl x hx).imp_right (List.mem_cons_of_mem b)
    · cases h
      exact fun x hx ↦ List.mem_cons.1 hx

theorem mem_insertPrio {prioOf : ℕ → Option ℤ} {prio : ℤ} {l l' : List ℕ}
    (h : insertPrio prioOf a prio l = some l') : ∀ b ∈ l', b = a ∨ b ∈ l := by
  cases l with
  | nil =>
    cases h
    exact fun x hx ↦ List.mem_cons.1 hx
  | cons front l =>
    obtain ⟨p, -, h⟩ := Option.bind_eq_some_iff.1 h
    split at h
    · cases h
      exact fun x hx ↦ List.mem_cons.1 hx
    obtain ⟨q, -, h⟩ := Option.bind_eq_some_iff.1 h
    split at h
    · cases h
      intro x hx
      rcases List.mem_append.1 hx with hx | hx
      · exact Or.inr hx
      · exact Or.inl (List.mem_singleton.1 hx)
    · exact mem_searchPrio h

/-- What `add` checks: the address is free, the child fits and its name is not taken. -/
structure Accepted (h : Heap) (d a c : ℕ) : Prop where
  free : (h.address a).child = none
  inRange : InRange h a c
  name : ∀ dev, (h.entry d).dev = some dev → ∀ p ∈ dev.children.entries,
    p.1 ≠ (h.entry c).name

/-- The hub has got the child, under the child's name. -/
structure Entered (d a c : ℕ) (h h' : Heap) : Prop where
  locked : (h'.entry c).locked = true
  child : (h'.address a).child = some c
  maps : ∃ dev dev', (h.entry d).dev = some dev ∧ (h'.entry d).dev = some dev' ∧
    (∀ p, p ∈ dev'.children.entries ↔ p = ((h.entry c).name, a) ∨ p ∈ dev.children.entries) ∧
    ∀ b ∈ dev'.configPrioList, b = a ∨ b ∈ dev.configPrioList

theorem wp_insertChild :
    wp (insertChild d a c) h
      (fun _ t ↦ ∃ dev children, (h.entry d).dev = some dev ∧
        dev.children.insert (h.entry c).name a = some children ∧
        t = h.updateEntry d fun e ↦ { e with dev := some { dev with children } })
      (fun e t ↦ e = .stuck ∨ (∃ err, e = .thrown err) ∧ t = h ∧ ∃ dev, (h.entry d).dev = some dev ∧
        ∃ p ∈ dev.children.entries, p.1 = (h.entry c).name) := by
  apply wp_get_bind.2
  split
  case h_1 => exact Or.inl rfl
  case h_2 dev hdev =>
    dsimp only
    split
    case h_1 hins => exact Or.inr ⟨⟨_, rfl⟩, rfl, dev, hdev, MyChildren.insert_eq_none.1 hins⟩
    case h_2 children hins => exact ⟨dev, children, hdev, hins, rfl⟩

theorem wp_addConfigPrio {dev : Dev} (hdev : (h.entry d).dev = some dev) :
    wp (addConfigPrio d a c) h
      (fun _ t ↦ Touched S d a c h t ∧ t.address = h.address ∧
        (t.entry c).locked = (h.entry c).locked ∧
        ∃ configPrioList, (t.entry d).dev = some { dev with configPrioList } ∧
          ∀ b ∈ configPrioList, b = a ∨ b ∈ dev.configPrioList)
      (fun e _ ↦ e = .stuck) := by
  apply wp_get_bind.2
  dsimp only
  split
  case isTrue =>
    have hr := (Painted.refl S h).touched d a c
    exact ⟨hr, rfl, rfl, dev.configPrioList, hdev, fun b ↦ Or.inr⟩
  case isFalse =>
    rw [hdev]
    dsimp only
    split
    case h_1 => exact rfl
    case h_2 configPrioList hins =>
      refine ⟨touched_setDev S h d a c _, rfl, ?_, configPrioList, ?_, mem_insertPrio hins⟩
      · by_cases hc : c = d
        · rw [hc, Heap.updateEntry_self]
        · rw [Heap.updateEntry_of_ne hc]
      · rw [Heap.updateEntry_self]

/-- The outcomes of adding an entry that is not locked. -/
theorem wp_addUnlocked (hS : Closed S h) (hc : c ∈ S) :
    wp (addUnlocked fuel d a c) h
      (fun _ t ↦ Touched S d a c h t ∧ Accepted h d a c ∧ Entered d a c h t)
      (fun e t ↦ e = .stuck ∨ (∃ err, e = .thrown err) ∧ Touched S d a c h t ∧
        ¬Accepted h d a c ∧ (t.entry c).locked = true ∧ (t.entry d).dev = (h.entry d).dev ∧
        ∀ i ∉ S, t.entry i = h.entry i) := by
  apply wp_bind.2
  apply (wp_accept fuel hS hc (.refl S h)).mono _ fun _ _ ↦ Or.inl
  intro _ h₁ hp
  -- the lock is set before anything is checked
  apply wp_bind.2
  apply wp_modify.2
  have ht₂ := (hp.touched d a c).trans (touched_setLocked h₁ d a hc)
  have hl₂ : ((h₁.updateEntry c fun e ↦ { e with locked := true }).entry c).locked = true := by
    rw [Heap.updateEntry_self]
  have hd₂ : ((h₁.updateEntry c fun e ↦ { e with locked := true }).entry d).dev =
      (h.entry d).dev := by
    by_cases he : d = c
    · rw [he, Heap.updateEntry_self, hp.dev]
    · rw [Heap.updateEntry_of_ne he, hp.dev]
  have hS₂ : ∀ i ∉ S, (h₁.updateEntry c fun e ↦ { e with locked := true }).entry i = h.entry i :=
    fun i hi ↦ (Heap.updateEntry_of_ne (ne_of_mem_of_not_mem hc hi).symm).trans (hp.other i hi)
  have ha₂ : (h₁.updateEntry c fun e ↦ { e with locked := true }).address = h.address := hp.address
  generalize h₁.updateEntry c _ = h₂ at ht₂ hl₂ hd₂ hS₂ ha₂ ⊢
  have hin : InRange h₂ a c ↔ InRange h a c := InRange.congr ht₂.size (congrFun ha₂ a)
  apply wp_bind.2
  apply wp_attach.mono
  case hE =>
    intro e t ⟨he, hno, hr, hchild⟩
    have htr := ht₂.trans (hr.touched S d c fun _ ↦ hchild)
    rw [ha₂, hin] at hno
    refine Or.inr ⟨he, htr, fun hacc ↦ hno ⟨hacc.free, hacc.inRange⟩, ?_⟩
    rw [hr.entry]
    exact ⟨hl₂, hd₂, hS₂⟩
  case hQ =>
    intro _ h₃ ⟨hok, hr, hchild⟩
    have htr := ht₂.trans (hr.touched S d c fun hne ↦ absurd hok.1 hne)
    rw [ha₂, hin] at hok
    rw [← hr.entry] at hl₂ hd₂ hS₂
    apply wp_bind.2
    apply wp_insertChild.mono
    case hE =>
      intro e t ht
      apply ht.imp_right
      rintro ⟨he, rfl, dev, hdev, p, hmem, hname⟩
      refine ⟨he, htr, fun hacc ↦ ?_, hl₂, hd₂, hS₂⟩
      rw [htr.name] at hname
      exact hacc.name dev (hd₂.symm.trans hdev) p hmem hname
    case hQ =>
      rintro _ _ ⟨dev, children, hdev, hins, rfl⟩
      have hmem := MyChildren.mem_insert hins
      rw [htr.name] at hins hmem
      have ht₄ := htr.trans (touched_setDev S h₃ d a c (some { dev with children }))
      have hl₄ := (touched_setDev S h₃ d a c (some { dev with children })).locked_mono hl₂
      apply (wp_addConfigPrio (S := S) (congrArg Entry.dev Heap.updateEntry_self)).mono _ fun _ _ ↦ Or.inl
      intro _ t ⟨ht, haddr, hlock, l, hdev', hl⟩
      refine ⟨ht₄.trans ht, ⟨hok.1, hok.2, ?_⟩, hlock.trans hl₄, ?_, dev, _, ?_, hdev', hmem, hl⟩
      · intro dev' hd p hp he
        cases hd₂.symm.trans hdev |>.symm.trans hd
        have hnone := (MyChildren.insert_eq_none (a := a)).2 ⟨p, hp, he⟩
        rw [hins] at hnone
        cases hnone
      · rw [haddr]
        exact hchild
      · exact hd₂.symm.trans hdev

end Cpsw.Hub
