import Mathlib.Data.List.Basic
import Mathlib.Tactic.SplitIfs

namespace Cpsw.Yaml

mutual

/-- A `YAML::Node` without anchors and aliases; the keys of a map are strings. -/
inductive Node
  | null
  | scalar (text : String)
  | seq (items : Items)
  | map (entries : Entries)

inductive Items
  | nil
  | cons (item : Node) (rest : Items)

inductive Entries
  | nil
  | cons (key : String) (value : Node) (rest : Entries)

end

deriving instance DecidableEq, Repr for Node, Items, Entries

def Node.isMap : Node → Bool
  | .map _ => true
  | _ => false

/-- What a lookup brings: a node, an undefined one, or the exception `BadSubscript`. -/
inductive Found
  | node (n : Node)
  | undefined
  | badSubscript
  deriving DecidableEq, Repr

namespace Entries

def find (key : String) : Entries → Option Node
  | nil => none
  | cons k v m => if k = key then some v else m.find key

/-- A new entry comes last. -/
def push (key : String) (value : Node) : Entries → Entries
  | nil => cons key value nil
  | cons k v m => cons k v (m.push key value)

def set (key : String) (value : Node) : Entries → Entries
  | nil => nil
  | cons k v m => if k = key then cons k value m else cons k v (m.set key value)

def remove (key : String) : Entries → Entries
  | nil => nil
  | cons k v m => if k = key then m else cons k v (m.remove key)

/-- No two entries have the same key. -/
def Unique : Entries → Prop
  | nil => True
  | cons k _ m => m.find k = none ∧ m.Unique

/-- Induction on the entries, without their values. -/
@[elab_as_elim]
theorem ind {P : Entries → Prop} (nil : P nil) (cons : ∀ k v m, P m → P (cons k v m)) :
    ∀ m, P m
  | .nil => nil
  | .cons k v m => cons k v m (ind nil cons m)

variable {m : Entries} {k key : String} {v value : Node}

@[simp] theorem find_nil : nil.find key = none := rfl

theorem find_cons : (cons k v m).find key = if k = key then some v else m.find key := rfl

theorem find_push (h : m.find key = none) :
    (m.push key value).find k = if key = k then some value else m.find k := by
  induction m using ind with
  | nil => rfl
  | cons k' v m ih =>
    simp only [find_cons] at h
    split_ifs at h with hk
    simp only [push, find_cons, ih h]
    by_cases hkk : key = k
    · subst hkk
      simp [hk]
    · simp [hkk]

theorem find_set : (m.set key value).find k =
    if key = k then (m.find key).map fun _ ↦ value else m.find k := by
  induction m using ind with
  | nil => simp [set]
  | cons k' v m ih =>
    by_cases hk : k' = key
    · subst hk
      by_cases hkk : k' = k <;> simp [set, find_cons, hkk]
    · by_cases hkk : key = k
      · subst hkk
        simpa [set, find_cons, hk] using ih
      · simp [set, find_cons, hk, hkk, ih]

theorem find_remove (h : m.Unique) :
    (m.remove key).find k = if key = k then none else m.find k := by
  induction m using ind with
  | nil => simp [remove]
  | cons k' v m ih =>
    by_cases hk : k' = key
    · subst hk
      by_cases hkk : k' = k
      · subst hkk
        simpa [remove] using h.1
      · simp [remove, find_cons, hkk]
    · by_cases hkk : key = k
      · subst hkk
        simpa [remove, find_cons, hk] using ih h.2
      · simp [remove, find_cons, hk, hkk, ih h.2]

theorem Unique.push (hm : m.Unique) (h : m.find key = none) : (m.push key value).Unique := by
  induction m using ind with
  | nil => exact ⟨rfl, trivial⟩
  | cons k' v m ih =>
    rw [find_cons] at h
    split_ifs at h with hk
    refine ⟨?_, ih hm.2 h⟩
    rw [find_push h, if_neg (Ne.symm hk)]
    exact hm.1

theorem Unique.set (hm : m.Unique) : (m.set key value).Unique := by
  induction m using ind with
  | nil => exact hm
  | cons k' v m ih =>
    by_cases hk : k' = key
    · simpa [Entries.set, hk] using hk ▸ hm
    · have hnone : (m.set key value).find k' = none := by
        rw [find_set, if_neg (Ne.symm hk)]
        exact hm.1
      simpa [Entries.set, hk] using ⟨hnone, ih hm.2⟩

theorem Unique.remove (hm : m.Unique) : (m.remove key).Unique := by
  induction m using ind with
  | nil => exact hm
  | cons k' v m ih =>
    by_cases hk : k' = key
    · simpa [Entries.remove, hk] using hm.2
    · have hnone : (m.remove key).find k' = none := by
        rw [find_remove hm.2, if_neg (Ne.symm hk)]
        exact hm.1
      simpa [Entries.remove, hk] using ⟨hnone, ih hm.2⟩

theorem sizeOf_find (h : m.find k = some v) : sizeOf v < sizeOf m := by
  induction m using ind with
  | nil => cases h
  | cons k' v' m ih =>
    simp only [find_cons] at h
    simp only [cons.sizeOf_spec]
    split_ifs at h with hk
    · cases h
      omega
    · have := ih h
      omega

end Entries

mutual

/-- The keys of every map that is reached through maps are unique. -/
def Node.WellFormed : Node → Prop
  | .map m => m.Unique ∧ m.WellFormed
  | _ => True

def Entries.WellFormed : Entries → Prop
  | .nil => True
  | .cons _ v m => v.WellFormed ∧ m.WellFormed

end

theorem Entries.WellFormed.find {m : Entries} {k : String} {v : Node} (hm : m.WellFormed)
    (h : m.find k = some v) : v.WellFormed := by
  induction m using Entries.ind with
  | nil => cases h
  | cons k' v' m ih =>
    simp only [Entries.find_cons] at h
    split_ifs at h with hk
    · cases h
      exact hm.1
    · exact ih hm.2 h

/-- `NodeFind` for a string key, of a node that is defined. Whether `operator[]` of a scalar `throws` is
up to the YAML library. -/
def nodeFind (throws : Bool) (key : String) : Node → Found
  | .map m => (m.find key).elim .undefined .node
  | .scalar _ => if throws then .badSubscript else .undefined
  | .null => .undefined
  | .seq _ => .undefined

/-- One lookup after the other. -/
def lookup (throws : Bool) : List String → Node → Found
  | [], n => .node n
  | key :: path, n =>
    match nodeFind throws key n with
    | .node n => lookup throws path n
    | r => r

/-- The node at a path of map keys. -/
def get : List String → Node → Option Node
  | [], n => some n
  | key :: path, .map m => (m.find key).bind (get path)
  | _ :: _, _ => none

/-- The same but for what a map has in it. -/
def SameKind (x : Node) : Node → Prop
  | .map _ => x.isMap
  | y => x = y

/-- No map that is reached through maps has the entry `key`. -/
def Node.Without (key : String) (n : Node) : Prop :=
  ∀ path m, get path n = some (.map m) → m.find key = none

variable {throws : Bool} {n x y z : Node} {path : List String} {m : Entries} {key : String}

theorem SameKind.refl (x : Node) : SameKind x x := by cases x <;> rfl

theorem SameKind.trans (h : SameKind x y) (h' : SameKind y z) : SameKind x z := by
  cases z with
  | map m => cases y <;> first | exact h | cases h'
  | _ =>
    cases (show y = _ from h')
    exact h

theorem SameKind.scalar_iff (h : SameKind x y) {text : String} :
    y = .scalar text ↔ x = .scalar text := by
  cases y with
  | map m =>
    cases x with
    | map m' => simp
    | _ => cases h
  | _ =>
    cases (show x = _ from h)
    rfl

theorem get_cons_map : get (key :: path) (.map m) = (m.find key).bind (get path) := rfl

theorem get_cons_not_map (h : n.isMap = false) : get (key :: path) n = none := by
  cases n with
  | map m => cases h
  | _ => rfl

theorem without_of_not_map (h : n.isMap = false) : n.Without key := by
  intro path m hm
  cases path with
  | nil =>
    cases hm
    cases h
  | cons k path =>
    rw [get_cons_not_map h] at hm
    cases hm

theorem without_map_iff : (Node.map m).Without key ↔
    m.find key = none ∧ ∀ k v, m.find k = some v → v.Without key := by
  constructor
  · intro h
    refine ⟨h [] m rfl, ?_⟩
    intro k v hv path m' hm'
    apply h (k :: path)
    rw [get_cons_map, hv]
    exact hm'
  · rintro ⟨hkey, h⟩ path m' hm'
    cases path with
    | nil =>
      cases hm'
      exact hkey
    | cons k path =>
      rw [get_cons_map] at hm'
      obtain ⟨v, hv, hm'⟩ := Option.bind_eq_some_iff.1 hm'
      exact h k v hv path m' hm'

theorem wellFormed_of_find (h : ∀ k v, m.find k = some v → v.WellFormed) (hu : m.Unique) :
    m.WellFormed := by
  induction m using Entries.ind with
  | nil => trivial
  | cons k v m ih =>
    refine ⟨h k v (by simp [Entries.find_cons]), ih ?_ hu.2⟩
    intro k' v' hv'
    apply h k' v'
    rw [Entries.find_cons, if_neg]
    · exact hv'
    · rintro rfl
      rw [hu.1] at hv'
      cases hv'

/-- A lookup finds what is at the path. -/
theorem lookup_eq_node : lookup throws path n = .node x ↔ get path n = some x := by
  induction path generalizing n with
  | nil => simp [lookup, get]
  | cons key path ih =>
    cases n with
    | map m =>
      cases hf : m.find key with
      | none => simp [lookup, nodeFind, get, hf]
      | some v => simp [lookup, nodeFind, get, hf, ih]
    | scalar t => cases throws <;> simp [lookup, nodeFind, get]
    | null => simp [lookup, nodeFind, get]
    | seq items => simp [lookup, nodeFind, get]

end Cpsw.Yaml
