import Cpsw.Hub.Clone
import Cpsw.Lib.Run

namespace Cpsw.Hub

open Lib.Throw Relation

variable {h h' h₀ t : Heap} {S : Set ℕ} {d a c i fuel : ℕ} {p : Ident × ℕ} {r : Except Stop Unit}

def Heap.empty : Heap where
  entries := 0
  entry _ := ⟨⟨[], rfl⟩, 0, .UNKNOWN_CACHEABLE, 0, false, false, 0, none⟩
  addresses := 0
  address _ := ⟨0, none, 1, .plain⟩

/-- What can be done to hubs, fields and addresses while they are being put together. -/
inductive Step (h : Heap) : Heap → Prop
  /-- A constructor: what it builds is not locked, and a hub has no children yet. -/
  | newEntry (e : Entry) (hl : e.locked = false) (hd : ∀ dev, e.dev = some dev → dev = .empty) :
    Step h (h.newEntry e)
  | newAddress (x : Address) (ho : x.owner < h.entries) (hx : x.child = none) :
    Step h (h.newAddress x)
  | setCacheable {i : ℕ} {cacheable : Cacheable} {h' : Heap}
    (hx : exec (setCacheable i cacheable) h = (.ok (), h')) : Step h h'
  | setConfigPrio {i : ℕ} {prio : ℤ} {h' : Heap}
    (hx : exec (setConfigPrio i prio) h = (.ok (), h')) : Step h h'
  /-- The answer that `dup` will give changes. -/
  | dup (a : ℕ) (b : Bool) (hk : ∃ b, (h.address a).kind = .fs b) :
    Step h (h.updateAddress a fun x ↦ { x with kind := .fs b })
  | add {fuel d a c : ℕ} {r : Except Stop Unit} {h' : Heap} (hd : d < h.entries)
    (ha : a < h.addresses) (hc : c < h.entries) (hx : exec (add fuel d a c) h = (r, h'))
    (hr : r ≠ .error .stuck) : Step h h'

def Reachable (h : Heap) : Prop := ReflTransGen Step .empty h

/-- The entry and all that is below it. -/
inductive Under (h : Heap) (c : ℕ) : ℕ → Prop
  | self : Under h c c
  | child {i e : ℕ} {dev : Dev} {p : Ident × ℕ} : Under h c i → (h.entry i).dev = some dev →
    p ∈ dev.children.entries → (h.address p.2).child = some e → Under h c e

/-- The hub's map and list, and the child with all that is below it, are as they were. -/
structure AsBefore (h : Heap) (d c : ℕ) (h' : Heap) : Prop where
  hub : (h'.entry d).dev = (h.entry d).dev
  field : ∀ i, Under h c i → h'.entry i = h.entry i

/-- The child, or a clone of a child that was locked, is in the hub's map under the child's name
and nowhere else; the map has nothing else that it did not have before. -/
def Appears (h : Heap) (d a c : ℕ) (h' : Heap) : Prop :=
  ∃ dev dev' e, (h.entry d).dev = some dev ∧ (h'.entry d).dev = some dev' ∧
    (if (h.entry c).locked = true then h.entries ≤ e else e = c) ∧
    (h'.entry e).name = (h.entry c).name ∧ (h'.address a).child = some e ∧
    (∀ p, p ∈ dev'.children.entries ↔ p = ((h.entry c).name, a) ∨ p ∈ dev.children.entries) ∧
    ∀ p ∈ dev'.children.entries, (h'.address p.2).child = some e → p = ((h.entry c).name, a)

/-- `add` does all of it or, where it throws, nothing. -/
structure Atomic (h : Heap) (d a c : ℕ) (r : Except Stop Unit) (h' : Heap) : Prop where
  thrown : ∀ e, r = .error (.thrown e) → AsBefore h d c h'
  returned : r = .ok () → Appears h d a c h'

/-- Whatever `add` comes to, what the hubs point to is attached. -/
theorem Consistent.wp_add (fuel d : ℕ) (hcons : Consistent h) (ha : a < h.addresses) (hc : c < h.entries) :
    wp (add fuel d a c) h (fun _ t ↦ Consistent t) (fun e t ↦ e = .stuck ∨ Consistent t) := by
  have hunlocked : ∀ {S t e}, Closed S t → e ∈ S → Consistent t → a < t.addresses →
      e < t.entries → wp (addUnlocked fuel d a e) t (fun _ s ↦ Consistent s)
        (fun e s ↦ e = .stuck ∨ Consistent s) := by
    intro S t e hS he ht hat het
    apply (wp_addUnlocked hS he).mono
    · exact fun _ s ⟨hs, _, hent⟩ ↦ ht.entered hs hent hat het
    · exact fun _ s hs ↦ hs.imp_right fun ⟨_, hs, _, _, hdev, _⟩ ↦ ht.touched hs hdev
  apply wp_get_bind.2
  split
  · apply wp_bind.2
    apply (wp_clone fuel hcons hc).mono
    · rintro _ t ⟨rfl, hcl⟩
      exact hunlocked (hcl.grown.closed_new hcl.consistent) ⟨le_rfl, hcl.lt⟩ hcl.consistent
        (ha.trans_le hcl.grown.addresses_le) hcl.lt
    · exact fun _ t ht ↦ ht.imp_right fun ⟨_, _, ht⟩ ↦ ht
  · exact hunlocked (S := Set.univ) (fun _ _ _ _ _ _ _ _ ↦ Set.mem_univ _) (Set.mem_univ c) hcons
      ha hc

theorem Consistent.step (hcons : Consistent h) (hs : Step h h') : Consistent h' := by
  cases hs with
  | newEntry e hl hd => exact hcons.newEntry hd
  | newAddress x ho hx => exact hcons.newAddress x
  | @setCacheable i cacheable _ hx =>
    have hwp : wp (setCacheable i cacheable) h (fun _ t ↦ Consistent t) (fun _ _ ↦ True) := by
      apply wp_get_bind.2
      split
      · trivial
      · exact hcons.touched (((Painted.refl {i} h).updateEntry rfl cacheable).touched i 0 i)
          (by rw [Heap.updateEntry_self])
    exact hwp.ok hx
  | @setConfigPrio i prio _ hx =>
    have hwp : wp (setConfigPrio i prio) h (fun _ t ↦ Consistent t) (fun _ _ ↦ True) := by
      apply wp_get_bind.2
      split
      · trivial
      · exact hcons.touched (touched_configPrio h i 0 i prio) (by rw [Heap.updateEntry_self])
    exact hwp.ok hx
  | dup a b hk =>
    have hr := readdressed_update h a fun x ↦ { x with kind := .fs b }
    exact hcons.touched (hr.touched ∅ 0 0 fun _ ↦ by rw [Heap.updateAddress_self]) rfl
  | @add fuel d a c r _ hd ha hc hx hr =>
    have hwp := hcons.wp_add fuel d ha hc
    cases r with
    | ok => exact hwp.ok hx
    | error e => exact (hwp.error hx).resolve_left fun he ↦ hr (congrArg _ he)

theorem Reachable.consistent (hr : Reachable h) : Consistent h :=
  Lib.Run.invariant (fun _ _ hc hs ↦ hc.step hs) hr fun i hi ↦ absurd hi (Nat.not_lt_zero i)

theorem Consistent.under_lt (hcons : Consistent h) (hc : c < h.entries) (hi : Under h c i) :
    i < h.entries := by
  induction hi with
  | self => exact hc
  | child _ hdev hp he ih =>
    obtain ⟨e, hlt, he', -⟩ := (hcons.attached ih hdev hp).child
    cases he'.symm.trans he
    exact hlt

/-- An entry that nothing in the hub's map was attached to is there once. -/
theorem Entered.once {dev dev' : Dev} (he : Entered d a c h h') (ht : Touched S d a c h h')
    (hfree : (h.address a).child = none) (hdev : (h.entry d).dev = some dev)
    (hdev' : (h'.entry d).dev = some dev') (hatt : ∀ p ∈ dev.children.entries,
      (h.address p.2).child ≠ none ∧ (h.address p.2).child ≠ some c) :
    (∀ p, p ∈ dev'.children.entries ↔ p = ((h.entry c).name, a) ∨ p ∈ dev.children.entries) ∧
    ∀ p ∈ dev'.children.entries, (h'.address p.2).child = some c → p = ((h.entry c).name, a) := by
  obtain ⟨dev₁, dev₂, h₁, h₂, hmem, -⟩ := he.maps
  cases h₁.symm.trans hdev
  cases h₂.symm.trans hdev'
  refine ⟨hmem, fun p hp hch ↦ ?_⟩
  rcases (hmem p).1 hp with hp | hp
  · exact hp
  · obtain ⟨hne, hnc⟩ := hatt p hp
    have hpa : p.2 ≠ a := fun hb ↦ hne (hb ▸ hfree)
    rw [ht.address _ hpa] at hch
    exact absurd hch hnc

/-- A child that is not locked. -/
theorem wp_add_unlocked (fuel a : ℕ) (hcons : Consistent h) (hd : d < h.entries)
    (hl : (h.entry c).locked = false) :
    wp (add fuel d a c) h (fun _ t ↦ Accepted h d a c ∧ Appears h d a c t)
      (fun e t ↦ e = .stuck ∨ ¬Accepted h d a c ∧ (t.entry c).locked = true) := by
  apply wp_get_bind.2
  rw [if_neg (by rw [hl]; exact Bool.false_ne_true)]
  apply (wp_addUnlocked (S := Set.univ) (fun _ _ _ _ _ _ _ _ ↦ Set.mem_univ _)
    (Set.mem_univ c)).mono
  · intro _ t ⟨ht, hacc, hent⟩
    obtain ⟨dev, dev', hdev, hdev', -⟩ := hent.maps
    have hatt : ∀ p ∈ dev.children.entries,
        (h.address p.2).child ≠ none ∧ (h.address p.2).child ≠ some c := by
      intro p hp
      have hat := hcons.attached hd hdev hp
      refine ⟨hat.child_ne_none, fun hpc ↦ ?_⟩
      obtain ⟨e, -, he, hlock, -⟩ := hat.child
      cases he.symm.trans hpc
      exact Bool.false_ne_true (hl.symm.trans hlock)
    have honce := hent.once ht hacc.free hdev hdev' hatt
    refine ⟨hacc, dev, dev', c, hdev, hdev', ?_, ht.name c, hent.child, honce⟩
    rw [if_neg (by rw [hl]; exact Bool.false_ne_true)]
  · rintro e t (he | ⟨-, -, hacc, hlock, -⟩)
    · exact Or.inl he
    · exact Or.inr ⟨hacc, hlock⟩

/-- A locked child is left alone. -/
theorem wp_add_locked (fuel a : ℕ) (hcons : Consistent h) (hd : d < h.entries)
    (hc : c < h.entries) (hl : (h.entry c).locked = true) :
    wp (add fuel d a c) h (fun _ t ↦ Appears h d a c t)
      (fun e t ↦ e = .stuck ∨ AsBefore h d c t) := by
  apply wp_get_bind.2
  rw [if_pos hl]
  apply wp_bind.2
  apply (wp_clone fuel hcons hc).mono
  case hE =>
    rintro e t (he | ⟨-, hg, -⟩)
    · exact Or.inl he
    · exact Or.inr ⟨by rw [hg.entry d hd], fun i hi ↦ hg.entry i (hcons.under_lt hc hi)⟩
  rintro _ t ⟨rfl, hcl⟩
  have hg := hcl.grown
  have hdt : (t.entry d).dev = (h.entry d).dev := by rw [hg.entry d hd]
  apply (wp_addUnlocked (hg.closed_new hcl.consistent) ⟨le_rfl, hcl.lt⟩).mono
  · intro _ s ⟨ht, hacc, hent⟩
    obtain ⟨dev, dev', hdev, hdev', -⟩ := hent.maps
    have hatt : ∀ p ∈ dev.children.entries,
        (t.address p.2).child ≠ none ∧ (t.address p.2).child ≠ some h.entries := by
      intro p hp
      have hat := hcons.attached hd (hdt.symm.trans hdev) hp
      rw [hg.address _ hat.address_lt]
      refine ⟨hat.child_ne_none, fun hpc ↦ ?_⟩
      obtain ⟨e, hlt, he, -⟩ := hat.child
      cases he.symm.trans hpc
      exact lt_irrefl _ hlt
    have honce := hent.once ht hacc.free hdev hdev' hatt
    rw [hcl.name] at honce
    refine ⟨dev, dev', h.entries, hdt.symm.trans hdev, hdev', ?_, ?_, hent.child, honce⟩
    · rw [if_pos hl]
    · rw [ht.name, hcl.name]
  · rintro e s (he | ⟨-, -, -, -, hdev, hother⟩)
    · exact Or.inl he
    · refine Or.inr ⟨hdev.trans hdt, fun i hi ↦ ?_⟩
      have hlt := hcons.under_lt hc hi
      rw [hother i fun hmem ↦ hmem.1.not_gt hlt, hg.entry i hlt]

/-- When adding a child is atomic: the child was locked already, or nothing is wrong. -/
theorem add_atomic_iff (hr : Reachable h) (hd : d < h.entries) (hc : c < h.entries)
    (hx : exec (add fuel d a c) h = (r, h')) (hs : r ≠ .error .stuck) :
    Atomic h d a c r h' ↔ (h.entry c).locked = true ∨ Accepted h d a c := by
  have hcons := hr.consistent
  cases hl : (h.entry c).locked with
  | true =>
    refine iff_of_true ?_ (Or.inl rfl)
    have hwp := wp_add_locked fuel a hcons hd hc hl
    constructor
    · rintro e rfl
      exact (hwp.error hx).resolve_left (nomatch ·)
    · rintro rfl
      exact hwp.ok hx
  | false =>
    rw [or_iff_right Bool.false_ne_true]
    have hwp := wp_add_unlocked fuel a hcons hd hl
    cases r with
    | ok =>
      obtain ⟨hacc, happ⟩ := hwp.ok hx
      exact iff_of_true ⟨fun e he ↦ (nomatch he), fun _ ↦ happ⟩ hacc
    | error e =>
      obtain ⟨hacc, hlock⟩ := (hwp.error hx).resolve_left fun he ↦ hs (congrArg _ he)
      refine iff_of_false (fun hat ↦ ?_) hacc
      cases e with
      | stuck => exact hs rfl
      | thrown err =>
        have hsame := (hat.thrown err rfl).field c .self
        rw [hsame, hl] at hlock
        exact Bool.false_ne_true hlock

/-- A hub of 16 bytes and a field of 8 bytes, to be added at an offset. -/
def hubAndField (offset : UInt64) : Heap :=
  ((Heap.empty.newEntry ⟨⟨['d'], by decide⟩, 16, .WB_CACHEABLE, 1, true, false, 1,
      some .empty⟩).newEntry
    ⟨⟨['f'], by decide⟩, 8, .UNKNOWN_CACHEABLE, 0, true, false, 0, none⟩).newAddress
      ⟨0, none, 1, .mmio offset CMMIOAddressImpl.STRIDE_AUTO⟩

theorem hubAndField_reachable (offset : UInt64) : Reachable (hubAndField offset) := by
  have hdev : Reachable (Heap.empty.newEntry _) :=
    .single (.newEntry ⟨⟨['d'], by decide⟩, 16, .WB_CACHEABLE, 1, true, false, 1, some .empty⟩ rfl
      fun dev hdev ↦ (Option.some.inj hdev).symm)
  have hfield := hdev.tail (.newEntry ⟨⟨['f'], by decide⟩, 8, .UNKNOWN_CACHEABLE, 0, true, false, 0,
    none⟩ rfl nofun)
  exact hfield.tail (.newAddress ⟨0, none, 1, .mmio offset CMMIOAddressImpl.STRIDE_AUTO⟩
    (Nat.zero_lt_succ 1) rfl)

theorem add_atomic_sample :
    Atomic (hubAndField 8) 0 0 1 (.ok ()) (exec (add 2 0 0 1) (hubAndField 8)).2 ↔
      ((hubAndField 8).entry 1).locked = true ∨ Accepted (hubAndField 8) 0 0 1 :=
  add_atomic_iff (hubAndField_reachable 8) (by decide) (by decide)
    (Prod.ext (by decide +kernel) rfl : exec (add 2 0 0 1) (hubAndField 8) = (.ok (), _)) nofun

/-- The field does not fit, and it is locked all the same. -/
theorem not_add_atomic : ∃ h fuel d a c r h', Reachable h ∧ d < h.entries ∧ a < h.addresses ∧
    c < h.entries ∧ exec (add fuel d a c) h = (r, h') ∧ r ≠ .error .stuck ∧
    ¬Atomic h d a c r h' := by
  have hx : (exec (add 2 0 0 1) (hubAndField 12)).1 =
      .error (.thrown (.addrOutOfRange ⟨['f'], by decide⟩)) := by decide +kernel
  refine ⟨hubAndField 12, 2, 0, 0, 1, _, (exec (add 2 0 0 1) (hubAndField 12)).2,
    hubAndField_reachable 12, by decide, by decide, by decide, Prod.ext hx rfl, nofun, ?_⟩
  intro hat
  have hsame := (hat.thrown _ rfl).field 1 .self
  have hlock : ((exec (add 2 0 0 1) (hubAndField 12)).2.entry 1).locked = true := by decide +kernel
  rw [hsame] at hlock
  exact absurd hlock (by decide)

end Cpsw.Hub
