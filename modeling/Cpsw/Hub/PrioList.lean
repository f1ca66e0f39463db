import Cpsw.Hub.Atomic

namespace Cpsw.Hub

open Lib.Throw

variable {h h' h'' h₀ t : Heap} {S : Set ℕ} {d a c i fuel : ℕ} {p : Ident × ℕ} {dev : Dev}
variable {prioOf : ℕ → Option ℤ} {f : ℕ → ℤ} {prio : ℤ} {l : List ℕ}

/-- The search finds the place, where there is one. -/
theorem searchPrio_spec (hf : ∀ b ∈ l, prioOf b = some (f b))
    (hs : l.Pairwise fun b c ↦ f b ≤ f c) (hb : ∃ b ∈ l, f a ≤ f b) :
    ∃ l', searchPrio prioOf a (f a) l = some l' ∧ l'.Pairwise (fun b c ↦ f b ≤ f c) ∧
      l'.Perm (a :: l) := by
  induction l with
  | nil =>
    obtain ⟨b, hb, -⟩ := hb
    cases hb
  | cons b l ih =>
    obtain ⟨hle, hs'⟩ := List.pairwise_cons.1 hs
    rw [searchPrio, hf b List.mem_cons_self]
    change ∃ l', (if f b < f a then _ else _) = some l' ∧ _
    by_cases hlt : f b < f a
    · have hrest : ∃ c ∈ l, f a ≤ f c := by
        obtain ⟨c, hc, hac⟩ := hb
        rcases List.mem_cons.1 hc with rfl | hc
        · omega
        · exact ⟨c, hc, hac⟩
      obtain ⟨l', he, hl', hp⟩ := ih (fun c hc ↦ hf c (List.mem_cons_of_mem b hc)) hs' hrest
      refine ⟨b :: l', by rw [if_pos hlt, he]; rfl, ?_, ?_⟩
      · apply List.pairwise_cons.2 ⟨_, hl'⟩
        intro c hc
        rcases List.mem_cons.1 (hp.mem_iff.1 hc) with rfl | hc
        · exact hlt.le
        · exact hle c hc
      · exact (hp.cons b).trans (List.Perm.swap a b l)
    · refine ⟨a :: b :: l, if_neg hlt, ?_, .refl _⟩
      apply List.pairwise_cons.2 ⟨_, hs⟩
      intro c hc
      rcases List.mem_cons.1 hc with rfl | hc
      · exact not_lt.1 hlt
      · exact (not_lt.1 hlt).trans (hle c hc)

/-- The list gets the address and stays sorted, whichever branch is taken. -/
theorem insertPrio_spec (hf : ∀ b ∈ l, prioOf b = some (f b))
    (hs : l.Pairwise fun b c ↦ f b ≤ f c) :
    ∃ l', insertPrio prioOf a (f a) l = some l' ∧ l'.Pairwise (fun b c ↦ f b ≤ f c) ∧
      l'.Perm (a :: l) := by
  cases l with
  | nil => exact ⟨[a], rfl, List.pairwise_singleton _ _, .refl _⟩
  | cons front l =>
    have hlast := List.getLast_mem (List.cons_ne_nil front l)
    rw [insertPrio, hf front List.mem_cons_self]
    change ∃ l', (if f a ≤ f front then _ else _) = some l' ∧ _
    by_cases hle : f a ≤ f front
    · refine ⟨a :: front :: l, if_pos hle, ?_, .refl _⟩
      apply List.pairwise_cons.2 ⟨_, hs⟩
      intro c hc
      rcases List.mem_cons.1 hc with rfl | hc
      · exact hle
      · exact hle.trans (List.rel_of_pairwise_cons hs hc)
    · rw [if_neg hle, hf _ hlast]
      change ∃ l', (if f a ≥ f _ then _ else _) = some l' ∧ _
      by_cases hge : f a ≥ f ((front :: l).getLast (List.cons_ne_nil front l))
      · refine ⟨front :: l ++ [a], if_pos hge, ?_, List.perm_append_singleton _ _⟩
        apply List.pairwise_append.2 ⟨hs, List.pairwise_singleton _ _, _⟩
        intro b hb c hc
        obtain rfl := List.mem_singleton.1 hc
        exact (hs.rel_getLast_of_rel_getLast_getLast hb le_rfl).trans hge
      · rw [if_neg hge]
        exact searchPrio_spec hf hs ⟨_, hlast, (not_le.1 hge).le⟩

/-- The priority of the child at an address, if there is a child. -/
def Heap.prioAt (h : Heap) (a : ℕ) : ℤ := (h.prioOf a).getD 0

/-- The list of a hub has the children whose priority is not zero, in ascending order. -/
structure Prioritised (h : Heap) (dev : Dev) : Prop where
  sorted : dev.configPrioList.Pairwise fun a b ↦ h.prioAt a ≤ h.prioAt b
  nodup : dev.configPrioList.Nodup
  mem : ∀ a, a ∈ dev.configPrioList ↔
    (∃ name, (name, a) ∈ dev.children.entries) ∧ ∃ prio ≠ 0, h.prioOf a = some prio

def Ordered (h : Heap) : Prop :=
  ∀ i < h.entries, ∀ dev, (h.entry i).dev = some dev → Prioritised h dev

/-- Locked entries keep their priorities, and children stay where they are attached. -/
structure Keeps (h h' : Heap) : Prop where
  entries_le : h.entries ≤ h'.entries
  addresses_le : h.addresses ≤ h'.addresses
  locked : ∀ i < h.entries, (h.entry i).locked = true →
    (h'.entry i).locked = true ∧ (h'.entry i).configPrio = (h.entry i).configPrio
  child : ∀ b < h.addresses, (h.address b).child ≠ none →
    (h'.address b).child = (h.address b).child

namespace Keeps

theorem trans (h₁ : Keeps h h') (h₂ : Keeps h' h'') : Keeps h h'' where
  entries_le := h₁.entries_le.trans h₂.entries_le
  addresses_le := h₁.addresses_le.trans h₂.addresses_le
  locked i hi hl := by
    obtain ⟨hl', hp⟩ := h₁.locked i hi hl
    obtain ⟨hl'', hp'⟩ := h₂.locked i (hi.trans_le h₁.entries_le) hl'
    exact ⟨hl'', hp'.trans hp⟩
  child b hb hne := by
    have hc := h₁.child b hb hne
    rw [← hc] at hne ⊢
    exact h₂.child b (hb.trans_le h₁.addresses_le) hne

/-- A change of one entry, which does not change a priority that is locked. -/
theorem updateEntry {g : Entry → Entry} (hl : (h.entry i).locked = true →
    (g (h.entry i)).locked = true ∧ (g (h.entry i)).configPrio = (h.entry i).configPrio) :
    Keeps h (h.updateEntry i g) where
  entries_le := le_rfl
  addresses_le := le_rfl
  locked j _ hj := by
    by_cases he : j = i
    · subst he
      rw [Heap.updateEntry_self]
      exact hl hj
    · rw [Heap.updateEntry_of_ne he]
      exact ⟨hj, rfl⟩
  child _ _ _ := rfl

theorem newEntry (e : Entry) : Keeps h (h.newEntry e) where
  entries_le := Nat.le_succ _
  addresses_le := le_rfl
  locked i hi hl := by
    rw [Heap.newEntry_of_lt hi]
    exact ⟨hl, rfl⟩
  child _ _ _ := rfl

theorem newAddress (x : Address) : Keeps h (h.newAddress x) where
  entries_le := le_rfl
  addresses_le := Nat.le_succ _
  locked _ _ hl := ⟨hl, rfl⟩
  child b hb _ := by rw [Heap.newAddress_of_lt hb]

end Keeps

theorem Painted.keeps (hp : Painted S h h') : Keeps h h' where
  entries_le := hp.entries.ge
  addresses_le := hp.addresses.ge
  locked i _ hl := ⟨(hp.locked i).trans hl, by rw [hp.entry]⟩
  child b _ _ := by rw [hp.address]

theorem Readdressed.keeps (hr : Readdressed a h h')
    (hc : (h.address a).child ≠ none → (h'.address a).child = (h.address a).child) :
    Keeps h h' where
  entries_le := hr.entries.ge
  addresses_le := hr.addresses.ge
  locked i _ hl := by
    rw [hr.entry]
    exact ⟨hl, rfl⟩
  child b _ hne := by
    by_cases hb : b = a
    · rw [hb] at hne ⊢
      exact hc hne
    · rw [hr.address b hb]

theorem Attached.prioOf_keeps (hp : Attached h p) (hk : Keeps h h') : h'.prioOf p.2 = h.prioOf p.2 := by
  obtain ⟨e, hlt, he, hl, -⟩ := hp.child
  have he' := hk.child _ hp.address_lt hp.child_ne_none
  rw [he] at he'
  rw [Heap.prioOf, Heap.prioOf, he, he', Option.map_some, Option.map_some, (hk.locked e hlt hl).2]

theorem prioOf_of_child (ha : (h.address a).child ≠ none) : h.prioOf a = some (h.prioAt a) := by
  obtain ⟨e, he⟩ := Option.ne_none_iff_exists'.1 ha
  rw [Heap.prioAt, Heap.prioOf, he]
  rfl

theorem prioritised_empty (h : Heap) : Prioritised h .empty := by
  refine ⟨.nil, .nil, fun a ↦ iff_of_false (nomatch ·) ?_⟩
  rintro ⟨⟨_, hmem⟩, -⟩
  cases hmem

namespace Prioritised

theorem name_of_mem (hp : Prioritised h dev) (ha : a ∈ dev.configPrioList) :
    ∃ name, (name, a) ∈ dev.children.entries := ((hp.mem a).1 ha).1

theorem congr (hp : Prioritised h dev)
    (hk : ∀ p ∈ dev.children.entries, h'.prioOf p.2 = h.prioOf p.2) : Prioritised h' dev := by
  have hat : ∀ b ∈ dev.configPrioList, h'.prioAt b = h.prioAt b := by
    intro b hb
    obtain ⟨name, hmem⟩ := hp.name_of_mem hb
    exact congrArg (Option.getD · 0) (hk _ hmem)
  refine ⟨?_, hp.nodup, ?_⟩
  · apply List.Pairwise.imp_of_mem _ hp.sorted
    intro b c hb hc hle
    rwa [hat b hb, hat c hc]
  · intro b
    rw [hp.mem]
    apply and_congr_right
    rintro ⟨name, hmem⟩
    rw [hk _ hmem]

/-- A child without a priority. -/
theorem enter_zero {children : MyChildren} {name : Ident} (hp : Prioritised h dev)
    (hmem : ∀ p, p ∈ children.entries ↔ p = (name, a) ∨ p ∈ dev.children.entries)
    (hprio : h.prioOf a = some 0) : Prioritised h { dev with children } := by
  refine ⟨hp.sorted, hp.nodup, fun b ↦ ?_⟩
  rw [hp.mem]
  constructor
  · rintro ⟨⟨name', hb⟩, hpr⟩
    exact ⟨⟨name', (hmem _).2 (.inr hb)⟩, hpr⟩
  · rintro ⟨⟨name', hb⟩, hpr⟩
    refine ⟨?_, hpr⟩
    rcases (hmem _).1 hb with he | hb
    · obtain ⟨-, rfl⟩ := Prod.mk.inj he
      obtain ⟨prio, hne, hb⟩ := hpr
      cases hprio.symm.trans hb
      exact absurd rfl hne
    · exact ⟨name', hb⟩

/-- A child with a priority gets into the list. -/
theorem enter {children : MyChildren} {name : Ident} (hp : Prioritised h dev)
    (hch : ∀ p ∈ dev.children.entries, (h.address p.2).child ≠ none ∧ p.2 ≠ a)
    (hmem : ∀ p, p ∈ children.entries ↔ p = (name, a) ∨ p ∈ dev.children.entries)
    (hprio : h.prioOf a = some prio) (hne : prio ≠ 0) :
    ∃ l, insertPrio h.prioOf a prio dev.configPrioList = some l ∧ Prioritised h ⟨children, l⟩ := by
  have hf : ∀ b ∈ dev.configPrioList, h.prioOf b = some (h.prioAt b) := by
    intro b hb
    obtain ⟨name', hm⟩ := hp.name_of_mem hb
    exact prioOf_of_child (hch _ hm).1
  have ha : h.prioAt a = prio := by rw [Heap.prioAt, hprio, Option.getD_some]
  have hnot : a ∉ dev.configPrioList := by
    intro hm
    obtain ⟨name', hm⟩ := hp.name_of_mem hm
    exact (hch _ hm).2 rfl
  obtain ⟨l, he, hs, hperm⟩ := insertPrio_spec (a := a) hf hp.sorted
  rw [ha] at he
  refine ⟨l, he, hs, hperm.nodup_iff.2 (List.nodup_cons.2 ⟨hnot, hp.nodup⟩), fun b ↦ ?_⟩
  rw [hperm.mem_iff, List.mem_cons, hp.mem]
  constructor
  · rintro (rfl | ⟨⟨name', hb⟩, hpr⟩)
    · exact ⟨⟨name, (hmem _).2 (.inl rfl)⟩, prio, hne, hprio⟩
    · exact ⟨⟨name', (hmem _).2 (.inr hb)⟩, hpr⟩
  · rintro ⟨⟨name', hb⟩, hpr⟩
    rcases (hmem _).1 hb with hb | hb
    · exact .inl (Prod.mk.inj hb).2
    · exact .inr ⟨⟨name', hb⟩, hpr⟩

end Prioritised

/-- What is kept, and hubs that are as they were or new. -/
theorem Ordered.keep (ho : Ordered h) (hc : Consistent h) (hk : Keeps h h')
    (hd : ∀ i < h'.entries, ∀ dev, (h'.entry i).dev = some dev →
      dev = .empty ∨ i < h.entries ∧ (h.entry i).dev = some dev) : Ordered h' := by
  intro i hi dev hdev
  rcases hd i hi dev hdev with rfl | ⟨hi, hdev⟩
  · exact prioritised_empty h'
  · exact (ho i hi dev hdev).congr fun p hp ↦ (hc.attached hi hdev hp).prioOf_keeps hk

theorem configPrio_setDev (d : ℕ) (dev : Option Dev) (i : ℕ) :
    ((h.updateEntry d fun e ↦ { e with dev }).entry i).configPrio = (h.entry i).configPrio := by
  by_cases hi : i = d
  · rw [hi, Heap.updateEntry_self]
  · rw [Heap.updateEntry_of_ne hi]

theorem prioOf_setDev (d : ℕ) (dev : Option Dev) :
    (h.updateEntry d fun e ↦ { e with dev }).prioOf = h.prioOf := by
  funext b
  exact congrArg (Option.map · _) (funext (configPrio_setDev d dev))

theorem Ordered.changePrio (ho : Ordered h) (hc : Consistent h)
    (hl : (h.entry i).locked = true → prio = (h.entry i).configPrio) :
    Ordered (h.updateEntry i fun e ↦ { e with configPrio := prio, configPrioSet := true }) := by
  refine ho.keep hc (.updateEntry fun h ↦ ⟨h, hl h⟩) fun j hj dev hdev ↦ .inr ⟨hj, ?_⟩
  by_cases he : j = i
  · rwa [he, Heap.updateEntry_self, ← he] at hdev
  · rwa [Heap.updateEntry_of_ne he] at hdev

theorem Ordered.newEntry (ho : Ordered h) (hc : Consistent h) {e : Entry}
    (he : ∀ dev, e.dev = some dev → dev = .empty) : Ordered (h.newEntry e) := by
  refine ho.keep hc (.newEntry e) fun i hi dev hdev ↦ ?_
  by_cases hlt : i < h.entries
  · rw [Heap.newEntry_of_lt hlt] at hdev
    exact .inr ⟨hlt, hdev⟩
  · have hie : i = h.entries := le_antisymm (Nat.lt_succ_iff.1 hi) (not_lt.1 hlt)
    rw [hie, Heap.newEntry_self] at hdev
    exact .inl (he dev hdev)

theorem Ordered.newAddress (ho : Ordered h) (hc : Consistent h) (x : Address) :
    Ordered (h.newAddress x) :=
  ho.keep hc (.newAddress x) fun _ hi _ hdev ↦ .inr ⟨hi, hdev⟩

/-- The hub's map and list are changed together. -/
theorem wp_enter (hd : ∀ dev, (h.entry d).dev = some dev →
      Prioritised h dev ∧ ∀ p ∈ dev.children.entries, (h.address p.2).child ≠ none ∧ p.2 ≠ a)
    (hc : (h.address a).child = some c) :
    wp (do insertChild d a c; addConfigPrio d a c) h
      (fun _ t ↦ t.entries = h.entries ∧ t.prioOf = h.prioOf ∧
        (∀ i ≠ d, (t.entry i).dev = (h.entry i).dev) ∧
        ∀ dev, (t.entry d).dev = some dev → Prioritised h dev)
      (fun e t ↦ e = .stuck ∨ t = h) := by
  apply wp_bind.2
  apply wp_insertChild.mono
  case hE => exact fun e t ht ↦ ht.imp_right fun ht ↦ ht.2.1
  rintro _ _ ⟨dev, children, hdev, hins, rfl⟩
  obtain ⟨hp, hch⟩ := hd dev hdev
  have hmem := MyChildren.mem_insert hins
  have hprio : h.prioOf a = some (h.entry c).configPrio := by rw [Heap.prioOf, hc]; rfl
  have hother : ∀ i ≠ d, ((h.updateEntry d fun e ↦
      { e with dev := some { dev with children } }).entry i).dev = (h.entry i).dev :=
    fun i hi ↦ by rw [Heap.updateEntry_of_ne hi]
  apply wp_get_bind.2
  rw [configPrio_setDev, Heap.updateEntry_self, prioOf_setDev]
  dsimp only
  split
  case isTrue hzero =>
    rw [hzero] at hprio
    refine ⟨rfl, prioOf_setDev _ _, hother, fun dev' hdev' ↦ ?_⟩
    rw [Heap.updateEntry_self] at hdev'
    cases hdev'
    exact hp.enter_zero hmem hprio
  case isFalse hne =>
    obtain ⟨l, he, hp'⟩ := hp.enter hch hmem hprio hne
    rw [he]
    refine ⟨rfl, (prioOf_setDev _ _).trans (prioOf_setDev _ _), fun i hi ↦ ?_, fun dev' hdev' ↦ ?_⟩
    · rw [Heap.updateEntry_of_ne hi]
      exact hother i hi
    · rw [Heap.updateEntry_self] at hdev'
      cases hdev'
      exact hp'

/-- Adding an entry that is not locked keeps the lists in order. -/
theorem Ordered.wp_addUnlocked (ho : Ordered h) (hcons : Consistent h) (hd : d < h.entries) :
    wp (addUnlocked fuel d a c) h (fun _ t ↦ Ordered t) (fun e t ↦ e = .stuck ∨ Ordered t) := by
  apply wp_bind.2
  have huniv : Closed Set.univ h := fun _ _ _ _ _ _ _ _ ↦ Set.mem_univ _
  apply (wp_accept fuel huniv (Set.mem_univ c) (.refl _ h)).mono _ fun _ _ ↦ Or.inl
  intro _ h₁ hp
  apply wp_bind.2
  apply wp_modify.2
  have hk₂ := hp.keeps.trans (.updateEntry (i := c) (g := fun e ↦ { e with locked := true })
    fun _ ↦ ⟨rfl, rfl⟩)
  have hd₂ : ∀ i, ((h₁.updateEntry c fun e ↦ { e with locked := true }).entry i).dev =
      (h.entry i).dev := by
    intro i
    rw [← hp.dev]
    by_cases hi : i = c
    · rw [hi, Heap.updateEntry_self]
    · rw [Heap.updateEntry_of_ne hi]
  have he₂ : (h₁.updateEntry c fun e ↦ { e with locked := true }).entries = h.entries := hp.entries
  generalize h₁.updateEntry c _ = h₂ at hk₂ hd₂ he₂ ⊢
  -- until the map is changed the hubs are as they were
  have hsame : ∀ {t}, Keeps h t → Readdressed a h₂ t → Ordered t := by
    intro t hk hr
    refine ho.keep hcons hk fun i hi dev hdev ↦ .inr ?_
    rw [hr.entries, he₂] at hi
    rw [hr.entry, hd₂] at hdev
    exact ⟨hi, hdev⟩
  apply wp_bind.2
  apply wp_attach.mono
  case hE =>
    intro e t ⟨_, _, hr, hchild⟩
    exact .inr (hsame (hk₂.trans (hr.keeps fun _ ↦ hchild)) hr)
  intro _ h₃ ⟨⟨hfree, _⟩, hr, hchild⟩
  have hk₃ := hk₂.trans (hr.keeps fun hne ↦ absurd hfree hne)
  have ho₃ := hsame hk₃ hr
  have hd₃ : (h₃.entry d).dev = (h.entry d).dev := by rw [hr.entry, hd₂]
  have he₃ : h₃.entries = h.entries := hr.entries.trans he₂
  apply (wp_enter _ hchild).mono
  · intro _ t ⟨he, hprio, hother, hlast⟩ i hi dev hdev
    have hp : Prioritised h₃ dev := by
      by_cases hid : i = d
      · subst hid
        exact hlast dev hdev
      · rw [hother i hid] at hdev
        exact ho₃ i (he ▸ hi) dev hdev
    exact hp.congr fun p _ ↦ congrFun hprio p.2
  · rintro e t (he | rfl)
    · exact .inl he
    · exact .inr ho₃
  · intro dev hdev
    refine ⟨ho₃ d (he₃ ▸ hd) dev hdev, fun p hp ↦ ?_⟩
    have hatt := hcons.attached hd (hd₃.symm.trans hdev) hp
    have hne := hatt.child_ne_none
    have hc₂ := hk₂.child _ hatt.address_lt hne
    have hc₃ := hk₃.child _ hatt.address_lt hne
    refine ⟨hc₃ ▸ hne, ?_⟩
    rintro rfl
    exact hne (hc₂.symm.trans hfree)

theorem Ordered.wp_addWith {clone : ℕ → HeapM ℕ} (ho : Ordered h) (hcons : Consistent h)
    (hd : d < h.entries) (hl : (h.entry c).locked = false) :
    wp (addWith clone fuel d a c) h (fun _ t ↦ Ordered t) (fun e t ↦ e = .stuck ∨ Ordered t) := by
  apply wp_get_bind.2
  rw [if_neg (by rw [hl]; exact Bool.false_ne_true)]
  exact ho.wp_addUnlocked hcons hd

/-- Cloning keeps the lists in order, and the new ones are. -/
theorem Ordered.wp_clone (fuel : ℕ) (ho : Ordered h) (hc : Consistent h) (hi : i < h.entries) :
    wp (clone fuel i) h (fun _ t ↦ Ordered t) (fun e t ↦ e = .stuck ∨ Ordered t) := by
  induction fuel generalizing h i with
  | zero => exact .inl rfl
  | succ fuel ih =>
    apply wp_get_bind.2
    apply wp_bind.2
    apply wp_modify.2
    have hnew := Cloning.start hc (h.entry i)
    have ho₀ : Ordered (h.newEntry (h.entry i).copy) := by
      apply ho.newEntry hc
      intro dev hdev
      obtain ⟨_, -, he⟩ := Option.map_eq_some_iff.1 hdev
      exact he.symm
    apply wp_bind.2
    apply (wp_postHook hnew.locked).mono _ fun _ _ ↦ id
    intro _ t₁ ht₁
    have hcl : Cloning h (h.entry i).name t₁ ∧ Ordered t₁ := by
      rcases ht₁ with rfl | ⟨prio, rfl⟩
      · exact ⟨hnew, ho₀⟩
      · exact ⟨hnew.configPrio hnew.consistent prio, ho₀.changePrio hnew.consistent
          fun hl ↦ absurd (hnew.locked.symm.trans hl) Bool.false_ne_true⟩
    clear ht₁ hnew ho₀
    split
    case h_1 => exact hcl.2
    case h_2 dev hdev =>
      apply wp_bind.2
      apply (wp_forM (I := fun t ↦ Cloning h (h.entry i).name t ∧ Ordered t) _ hcl).mono
      · exact fun _ t ht ↦ ht.2
      · exact fun _ _ ↦ id
      intro p hp s ⟨hs, hos⟩
      have hatt := (hc.attached hi hdev hp).grow hs.grown.entries_le hs.grown.addresses_le
        hs.grown.entry hs.grown.address
      obtain ⟨o, hlt, hch, -, -⟩ := hatt.child
      apply wp_bind.2
      apply wp_cloneAddress.mono
      case hE =>
        rintro e _ ⟨-, rfl⟩
        exact .inr hos
      rintro _ _ ⟨rfl, x, -, rfl⟩
      have hs' := hs.newAddress x
      have hos' := hos.newAddress hs.consistent x
      apply wp_bind.2
      apply wp_getEntryImpl (.inl rfl)
      intro o' ho'
      rw [Heap.newAddress_of_lt hatt.address_lt, hch] at ho'
      cases ho'
      apply wp_bind.2
      apply ((Hub.wp_clone fuel hs'.consistent hlt).and (ih hos' hs'.consistent hlt)).mono
      case hE => exact fun _ _ he ↦ he.2
      rintro _ v ⟨⟨rfl, hv⟩, hov⟩
      have hau : s.addresses < v.addresses :=
        (Nat.lt_succ_self s.addresses).trans_le hv.grown.addresses_le
      have hadd := @Cloning.wp_add _ _ _ fuel _ (clone fuel) _ hs' hv.grown hv.consistent hv.lt
        hv.locked hs.grown.addresses_le hau
      have hd := hs'.lt.trans_le hv.grown.entries_le
      exact (hadd.and (hov.wp_addWith hv.consistent hd hv.locked)).mono (fun _ _ ↦ id)
        fun _ _ he ↦ he.2

/-- Whatever `add` comes to, the lists are in order. -/
theorem Ordered.wp_add (ho : Ordered h) (hcons : Consistent h) (hd : d < h.entries)
    (hc : c < h.entries) :
    wp (add fuel d a c) h (fun _ t ↦ Ordered t) (fun e t ↦ e = .stuck ∨ Ordered t) := by
  apply wp_get_bind.2
  split
  · apply wp_bind.2
    apply ((Hub.wp_clone fuel hcons hc).and (ho.wp_clone fuel hcons hc)).mono
    · rintro _ t ⟨⟨rfl, hcl⟩, hot⟩
      exact hot.wp_addUnlocked hcl.consistent (hd.trans_le hcl.grown.entries_le)
    · exact fun _ _ he ↦ he.2
  · exact ho.wp_addUnlocked hcons hd

theorem Ordered.step (ho : Ordered h) (hcons : Consistent h) (hs : Step h h') : Ordered h' := by
  cases hs with
  | newEntry e hl hd => exact ho.newEntry hcons hd
  | newAddress x hown hx => exact ho.newAddress hcons x
  | @setCacheable i cacheable _ hx =>
    have hwp : wp (setCacheable i cacheable) h (fun _ t ↦ Painted {i} h t) (fun _ _ ↦ True) := by
      apply wp_get_bind.2
      split
      · trivial
      · exact (Painted.refl {i} h).updateEntry rfl cacheable
    have hp := hwp.ok hx
    refine ho.keep hcons hp.keeps fun i hi dev hdev ↦ .inr ⟨hp.entries ▸ hi, ?_⟩
    rwa [hp.dev] at hdev
  | @setConfigPrio i prio _ hx =>
    have hwp : wp (setConfigPrio i prio) h (fun _ t ↦ Ordered t) (fun _ _ ↦ True) := by
      apply wp_get_bind.2
      split
      case isTrue => trivial
      case isFalse hno =>
        refine ho.changePrio hcons fun hl ↦ ?_
        by_contra hne
        exact hno ⟨Ne.symm hne, hl⟩
    exact hwp.ok hx
  | dup a b hk =>
    have hr := readdressed_update h a fun x ↦ { x with kind := .fs b }
    exact ho.keep hcons (hr.keeps fun _ ↦ by rw [Heap.updateAddress_self])
      fun _ hi _ hdev ↦ .inr ⟨hi, hdev⟩
  | @add fuel d a c r _ hd ha hc hx hr =>
    have hwp := @Ordered.wp_add _ _ a _ fuel ho hcons hd hc
    cases r with
    | ok => exact hwp.ok hx
    | error e => exact (hwp.error hx).resolve_left fun he ↦ hr (congrArg _ he)

theorem Reachable.ordered (hr : Reachable h) : Ordered h := by
  have hboth : Consistent h ∧ Ordered h :=
    Lib.Run.invariant (I := fun h ↦ Consistent h ∧ Ordered h)
      (fun _ _ hb hs ↦ ⟨hb.1.step hs, hb.2.step hb.1 hs⟩) hr
      ⟨fun i hi ↦ absurd hi (Nat.not_lt_zero i), fun i hi ↦ absurd hi (Nat.not_lt_zero i)⟩
  exact hboth.2

end Cpsw.Hub
