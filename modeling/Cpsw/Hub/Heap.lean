import Cpsw.Cacheable
import Cpsw.Lib.Throw
import Cpsw.Path.Hierarchy
import Mathlib.Data.Char
import Mathlib.Data.List.Lex

namespace Cpsw.Hub

/-- The names that the constructors of entries let pass. -/
abbrev Ident := {name : List Char // Path.checkArgs name = true}

/-- The place of a key in the order of `strcmp`. -/
def place (name : Ident) (a : ℕ) : List (Ident × ℕ) → List (Ident × ℕ)
  | [] => [(name, a)]
  | p :: ps => if name.1 < p.1.1 then (name, a) :: p :: ps else p :: place name a ps

theorem mem_place {name : Ident} {a : ℕ} {ps : List (Ident × ℕ)} {q : Ident × ℕ} :
    q ∈ place name a ps ↔ q = (name, a) ∨ q ∈ ps := by
  induction ps with
  | nil => simp [place]
  | cons p ps ih =>
    rw [place]
    split
    · rw [List.mem_cons]
    · rw [List.mem_cons, ih, List.mem_cons, or_left_comm]

theorem place_sorted {name : Ident} {a : ℕ} {ps : List (Ident × ℕ)}
    (hs : ps.Pairwise fun p q ↦ p.1.1 < q.1.1) (hn : ∀ p ∈ ps, p.1 ≠ name) :
    (place name a ps).Pairwise fun p q ↦ p.1.1 < q.1.1 := by
  induction ps with
  | nil => exact List.pairwise_singleton _ _
  | cons p ps ih =>
    have hp : ∀ q ∈ ps, p.1.1 < q.1.1 := fun q ↦ List.rel_of_pairwise_cons hs
    rw [place]
    split
    case isTrue hlt =>
      apply List.Pairwise.cons _ hs
      intro q hq
      rcases List.mem_cons.1 hq with rfl | hq
      · exact hlt
      · exact lt_trans hlt (hp q hq)
    case isFalse hlt =>
      have hne : p.1.1 ≠ name.1 := fun he ↦ hn p List.mem_cons_self (Subtype.ext he)
      apply List.Pairwise.cons _ (ih hs.of_cons fun q hq ↦ hn q (List.mem_cons_of_mem _ hq))
      intro q hq
      rcases mem_place.1 hq with rfl | hq
      · exact lt_of_le_of_ne (not_lt.1 hlt) hne
      · exact hp q hq

/-- `CDevImpl::MyChildren`: the addresses of the children under their names. -/
structure MyChildren where
  entries : List (Ident × ℕ)
  sorted : entries.Pairwise fun p q ↦ p.1.1 < q.1.1
  deriving DecidableEq

namespace MyChildren

variable {m m' : MyChildren} {name : Ident} {a : ℕ}

def empty : MyChildren := ⟨[], .nil⟩

/-- `insert` of the map; it does nothing where the key is there already. -/
def insert (m : MyChildren) (name : Ident) (a : ℕ) : Option MyChildren :=
  if h : ∀ p ∈ m.entries, p.1 ≠ name then some ⟨place name a m.entries, place_sorted m.sorted h⟩
  else none

theorem insert_eq_none : m.insert name a = none ↔ ∃ p ∈ m.entries, p.1 = name := by
  rw [insert]
  split
  case isTrue h =>
    exact iff_of_false (nomatch ·) fun ⟨p, hp, he⟩ ↦ h p hp he
  case isFalse h =>
    push Not at h
    exact iff_of_true rfl h

theorem mem_insert (h : m.insert name a = some m') (p : Ident × ℕ) :
    p ∈ m'.entries ↔ p = (name, a) ∨ p ∈ m.entries := by
  rw [insert] at h
  split at h
  · cases h
    exact mem_place
  · cases h

/-- There is one entry for a name. -/
theorem eq_of_name (m : MyChildren) {p q : Ident × ℕ} (hp : p ∈ m.entries) (hq : q ∈ m.entries)
    (h : p.1 = q.1) : p = q := by
  have hkeys : m.entries.Pairwise fun p q ↦ p.1 = q.1 → p = q :=
    m.sorted.imp fun hlt he ↦ absurd (congrArg Subtype.val he) hlt.ne
  have : Std.Symm fun p q : Ident × ℕ ↦ p.1 = q.1 → p = q := ⟨fun _ _ hpq he ↦ (hpq he.symm).symm⟩
  exact hkeys.forall_of_forall (fun _ _ _ ↦ rfl) hp hq h

end MyChildren

/-- What a `CDevImpl` has besides an entry's members. -/
structure Dev where
  children : MyChildren
  configPrioList : List ℕ
  deriving DecidableEq

def Dev.empty : Dev := ⟨.empty, []⟩

/-- `CEntryImpl`; `dev` is there in a `CDevImpl`. -/
structure Entry where
  name : Ident
  size : UInt64
  cacheable : Cacheable
  configPrio : ℤ
  configPrioSet : Bool
  locked : Bool
  /-- `getDefaultConfigPrio` -/
  defaultConfigPrio : ℤ
  dev : Option Dev
  deriving DecidableEq

inductive AddressKind
  /-- `CAddressImpl` and the classes that are attached and copied as it is. -/
  | plain
  /-- `CFSAddressImpl`, and whether `dup` gives another descriptor of its file. -/
  | fs (dup : Bool)
  | comm
  | mmio (offset stride : UInt64)
  deriving DecidableEq, Repr

/-- `CAddressImpl` -/
structure Address where
  owner : ℕ
  child : Option ℕ
  nelms : UInt32
  kind : AddressKind
  deriving DecidableEq, Repr

/-- The objects by their numbers; a shared pointer is a number. -/
structure Heap where
  entries : ℕ
  entry : ℕ → Entry
  addresses : ℕ
  address : ℕ → Address

namespace Heap

variable (h : Heap)

def newEntry (e : Entry) : Heap :=
  { h with entries := h.entries + 1, entry := Function.update h.entry h.entries e }

def newAddress (x : Address) : Heap :=
  { h with addresses := h.addresses + 1, address := Function.update h.address h.addresses x }

def updateEntry (i : ℕ) (f : Entry → Entry) : Heap :=
  { h with entry := Function.update h.entry i (f (h.entry i)) }

def updateAddress (a : ℕ) (f : Address → Address) : Heap :=
  { h with address := Function.update h.address a (f (h.address a)) }

variable {h} {i j a b : ℕ} {f : Entry → Entry} {g : Address → Address}

@[simp] theorem updateEntry_self : (h.updateEntry i f).entry i = f (h.entry i) :=
  Function.update_self ..

theorem updateEntry_of_ne (hj : j ≠ i) : (h.updateEntry i f).entry j = h.entry j :=
  Function.update_of_ne hj _ _

@[simp] theorem updateAddress_self : (h.updateAddress a g).address a = g (h.address a) :=
  Function.update_self ..

theorem updateAddress_of_ne (hb : b ≠ a) : (h.updateAddress a g).address b = h.address b :=
  Function.update_of_ne hb _ _

@[simp] theorem newEntry_self {e : Entry} : (h.newEntry e).entry h.entries = e :=
  Function.update_self ..

theorem newEntry_of_lt {e : Entry} (hi : i < h.entries) : (h.newEntry e).entry i = h.entry i :=
  Function.update_of_ne hi.ne _ _

@[simp] theorem newAddress_self {x : Address} : (h.newAddress x).address h.addresses = x :=
  Function.update_self ..

theorem newAddress_of_lt {x : Address} (ha : a < h.addresses) :
    (h.newAddress x).address a = h.address a := Function.update_of_ne ha.ne _ _

end Heap

inductive AddError
  | configuration (text : String)
  | internal (text : String)
  | errno (text : String)
  | duplicateName (name : Ident)
  | addressAlreadyAttached (name : Ident)
  | addrOutOfRange (name : Ident)
  deriving DecidableEq

/-- Why a function does not return. -/
inductive Stop
  | thrown (e : AddError)
  /-- It neither returns nor throws: a recursion without an end, or a null pointer. -/
  | stuck
  deriving DecidableEq

abbrev HeapM := Lib.Throw Stop Heap

end Cpsw.Hub
