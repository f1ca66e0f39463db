import Cpsw.Yaml.Merge

namespace Cpsw.Yaml

mutual

/-- `findAcrossMerges`; the tokens end with an empty one. -/
def findAcrossMerges (throws : Bool) : Node → List String → Found
  | src, [] => .node src
  | src, token :: tokens =>
    if token = "" then .node src
    else
      match src with
      | .map m =>
        match findChild throws m token tokens with
        | .undefined => findChild throws m YAML_MERGE_KEY_PATTERN (token :: tokens)
        | r => r
      | src => nodeFind throws token src

/-- The lookup of `key`, and from what it brings the search for the tokens. -/
def findChild (throws : Bool) : Entries → String → List String → Found
  | .nil, _, _ => .undefined
  | .cons k v m, key, tokens =>
    if k = key then findAcrossMerges throws v tokens else findChild throws m key tokens

end

mutual

/-- Where the search for a path can end, in the order in which the search gets there, with the keys
that are left: own entries before merged ones. -/
def stops : Node → List String → List (Node × List String)
  | n, [] => [(n, [])]
  | .map m, key :: path =>
    stopsIn m key path ++ stopsIn m YAML_MERGE_KEY_PATTERN (key :: path)
  | .scalar text, key :: path => [(.scalar text, key :: path)]
  | _, _ :: _ => []

def stopsIn : Entries → String → List String → List (Node × List String)
  | .nil, _, _ => []
  | .cons k v m, key, path => if k = key then stops v path else stopsIn m key path

end

/-- The first node that has the whole path. -/
def first (n : Node) (path : List String) : Option Node :=
  ((stops n path).find? fun stop ↦ stop.2.isEmpty).map Prod.fst

/-- The tokens of `text`, the last ones after the last separator: it may be empty, and an empty one
follows. -/
def tokenize (sep : Char) : List Char → List Char → List String
  | [], token => [String.ofList token, ""]
  | c :: text, token =>
    if c = sep then
      if token = [] then tokenize sep text [] else String.ofList token :: tokenize sep text []
    else tokenize sep text (token ++ [c])

def findByName (throws : Bool) (src : Node) (text : String) (sep : Char) : Found :=
  findAcrossMerges throws src (tokenize sep text.toList [])

/-- The keys that `text` spells. -/
def keyPath (text : String) (sep : Char) : List String :=
  (tokenize sep text.toList []).takeWhile fun token ↦ token ≠ ""

variable {throws : Bool} {n x y : Node} {m : Entries} {key : String} {path tokens : List String}

theorem findChild_eq : findChild throws m key tokens =
    (m.find key).elim .undefined fun v ↦ findAcrossMerges throws v tokens := by
  induction m using Entries.ind with
  | nil => rfl
  | cons k v m ih =>
    rw [findChild, Entries.find_cons, ih]
    split_ifs <;> rfl

theorem stopsIn_eq : stopsIn m key path = (m.find key).elim [] fun v ↦ stops v path := by
  induction m using Entries.ind with
  | nil => rfl
  | cons k v m ih =>
    rw [stopsIn, Entries.find_cons, ih]
    split_ifs <;> rfl

/-- The search ends at its first stop. -/
def endOf (throws : Bool) : List (Node × List String) → Found
  | [] => .undefined
  | (n, []) :: _ => .node n
  | (_, _ :: _) :: rest => if throws then .badSubscript else endOf throws rest

theorem endOf_append (a b : List (Node × List String)) : endOf throws (a ++ b) =
    match endOf throws a with
    | .undefined => endOf throws b
    | r => r := by
  induction a with
  | nil => rfl
  | cons stop a ih =>
    obtain ⟨n, left⟩ := stop
    cases left with
    | nil => rfl
    | cons k left =>
      rw [List.cons_append, endOf, endOf]
      split_ifs
      · rfl
      · exact ih

theorem stops_nil : stops n [] = [(n, [])] := by cases n <;> rfl

/-- The search goes from stop to stop. -/
theorem findAcrossMerges_eq : findAcrossMerges throws n tokens =
    endOf throws (stops n (tokens.takeWhile fun token ↦ token ≠ "")) := by
  induction hs : sizeOf n using Nat.strongRecOn generalizing n tokens with
  | ind s ih =>
    cases tokens with
    | nil =>
      rw [List.takeWhile_nil, stops_nil]
      cases n <;> rfl
    | cons token tokens =>
      by_cases ht : token = ""
      · subst ht
        rw [List.takeWhile_cons_of_neg (by simp), stops_nil]
        cases n <;> rfl
      · have htake : (token :: tokens).takeWhile (fun token ↦ token ≠ "") =
            token :: tokens.takeWhile fun token ↦ token ≠ "" :=
          List.takeWhile_cons_of_pos (by simpa using ht)
        cases n with
        | map m =>
          have hchild (key : String) (toks : List String) : findChild throws m key toks =
              endOf throws (stopsIn m key (toks.takeWhile fun token ↦ token ≠ "")) := by
            rw [findChild_eq, stopsIn_eq]
            cases hf : m.find key with
            | none => rfl
            | some v =>
              have hlt := Entries.sizeOf_find hf
              simp only [Node.map.sizeOf_spec] at hs
              exact ih (sizeOf v) (by omega) rfl
          rw [htake, stops, endOf_append, ← hchild, ← htake, ← hchild]
          simp only [findAcrossMerges, if_neg ht]
        | scalar text =>
          rw [htake]
          cases throws <;> simp [findAcrossMerges, ht, nodeFind, stops, endOf]
        | null =>
          rw [htake]
          simp [findAcrossMerges, ht, nodeFind, stops, endOf]
        | seq items =>
          rw [htake]
          simp [findAcrossMerges, ht, nodeFind, stops, endOf]

/-- A search that nothing stops finds the first node with the whole path. -/
theorem endOf_not_throws : endOf false (stops n path) = (first n path).elim .undefined .node := by
  have h (a : List (Node × List String)) : endOf false a =
      ((a.find? fun stop ↦ stop.2.isEmpty).map Prod.fst).elim .undefined .node := by
    induction a with
    | nil => rfl
    | cons stop a ih =>
      obtain ⟨x, left⟩ := stop
      cases left with
      | nil => rfl
      | cons k left =>
        rw [List.find?_cons]
        exact ih
  exact h _

theorem first_nil : first n [] = some n := by simp [first, stops_nil]

theorem first_map : first (.map m) (key :: path) =
    ((m.find key).bind (first · path)).or
      ((m.find YAML_MERGE_KEY_PATTERN).bind (first · (key :: path))) := by
  unfold first
  rw [stops, List.find?_append, stopsIn_eq, stopsIn_eq]
  cases m.find key <;> cases m.find YAML_MERGE_KEY_PATTERN <;> simp [Option.map_or]

theorem first_of_not_map (h : n.isMap = false) : first n (key :: path) = none := by
  cases n with
  | map m => cases h
  | _ => simp [first, stops]

/-- An own entry comes first. -/
theorem first_of_get (h : get path n = some x) : first n path = some x := by
  induction path generalizing n with
  | nil => exact first_nil.trans h
  | cons key path ih =>
    cases n with
    | map m =>
      obtain ⟨v, hv, hx⟩ := Option.bind_eq_some_iff.1 (get_cons_map ▸ h)
      rw [first_map, hv, Option.bind_some, ih hx]
      rfl
    | _ => cases h

/-- What is at a path of the resolved tree is what comes first in the unresolved one. -/
structure Agrees (n r : Node) (path : List String) : Prop where
  some : ∀ x, first n path = some x → ∃ y, get path r = some y ∧ SameKind x y
  none : first n path = none → get path r = none

theorem agrees_nil (h : SameKind n x) : Agrees n x [] := by
  constructor
  · intro y hy
    cases first_nil.symm.trans hy
    exact ⟨x, rfl, h⟩
  · intro hy
    cases first_nil.symm.trans hy

theorem agrees_leaf (h : n.isMap = false) : Agrees n n path := by
  cases path with
  | nil => exact agrees_nil (.refl n)
  | cons key path =>
    constructor
    · intro y hy
      rw [first_of_not_map h] at hy
      cases hy
    · intro _
      exact get_cons_not_map h

/-- The merges are resolved to what the search comes to first. -/
theorem resolvedAs_agrees (h : ResolvedAs n x) (hw : n.WellFormed)
    (hp : YAML_MERGE_KEY_PATTERN ∉ path) : Agrees n x path := by
  induction hs : sizeOf n using Nat.strongRecOn generalizing n x path with
  | ind s ih =>
    cases h with
    | leaf _ hleaf => exact agrees_leaf hleaf
    | @map here m r h =>
      cases path with
      | nil => exact agrees_nil rfl
      | cons key path =>
        obtain ⟨n', hr⟩ := resolve_spec h hw.1
        simp only [Node.map.sizeOf_spec] at hs
        have hkey : YAML_MERGE_KEY_PATTERN ≠ key := fun he ↦ hp (he ▸ List.mem_cons_self)
        have hpath : YAML_MERGE_KEY_PATTERN ∉ path := fun hm ↦ hp (List.mem_cons_of_mem _ hm)
        -- the child, and what is merged, each with its own merges resolved
        have hchild (k : String) (p : List String) (hpp : YAML_MERGE_KEY_PATTERN ∉ p) :
            (∀ y, (m.find k).bind (first · p) = some y →
              ∃ z, (n'.find k).bind (get p) = some z ∧ SameKind y z) ∧
            ((m.find k).bind (first · p) = none → (n'.find k).bind (get p) = none) := by
          rcases hr.find k with ⟨hx, hy⟩ | ⟨v, w, hx, hy, hvw⟩
          · rw [hx, hy]
            exact ⟨nofun, fun _ ↦ rfl⟩
          · have hlt := Entries.sizeOf_find hx
            have ha := ih (sizeOf v) (by omega) hvw (hw.2.find hx) hpp rfl
            rw [hx, hy]
            exact ⟨ha.some, ha.none⟩
        have hown := hchild key path hpath
        have hmerged := hchild YAML_MERGE_KEY_PATTERN (key :: path) hp
        rcases hr.merge with ⟨hnone, rfl⟩ | ⟨here', m', r', hm', hmi, rfl⟩
        · have hmn : m.find YAML_MERGE_KEY_PATTERN = none := by
            rcases hr.find YAML_MERGE_KEY_PATTERN with ⟨hx, -⟩ | ⟨v, w, -, hy, -⟩
            · exact hx
            · rw [hnone] at hy
              cases hy
          have hfirst : first (.map m) (key :: path) = (m.find key).bind (first · path) := by
            rw [first_map, hmn, Option.bind_none, Option.or_none]
          exact ⟨fun y hy ↦ hown.1 y (hfirst ▸ hy), fun hy ↦ hown.2 (hfirst ▸ hy)⟩
        · have hu' := mergeInto_unique hmi hr.unique
          have hmw : (Node.map m').WellFormed := by
            rcases hr.find YAML_MERGE_KEY_PATTERN with ⟨-, hy⟩ | ⟨v, w, hx, hy, hvw⟩
            · rw [hm'] at hy
              cases hy
            · rw [hm'] at hy
              cases hy
              cases hvw with
              | map hv => exact (resolve_clean hv (hw.2.find hx)).1
              | leaf _ hleaf => cases hleaf
          have hget := mergeInto_get hmi hmw key path
          have hremove : get (key :: path) (.map (r'.remove YAML_MERGE_KEY_PATTERN)) =
              get (key :: path) (.map r') := by
            rw [get_cons_map, get_cons_map, Entries.find_remove hu', if_neg hkey]
          rw [hm', Option.bind_some] at hmerged
          constructor
          · intro y hy
            rw [first_map] at hy
            rw [hremove]
            cases ho : (m.find key).bind (first · path) with
            | some v =>
              rw [ho] at hy
              cases hy
              obtain ⟨z, hz, hyz⟩ := hown.1 y ho
              obtain ⟨z', hz', hzz⟩ := hget.1 z hz
              exact ⟨z', hz', hyz.trans hzz⟩
            | none =>
              rw [ho, Option.none_or] at hy
              rw [hget.2 (hown.2 ho)]
              exact hmerged.1 y hy
          · intro hy
            rw [first_map, Option.or_eq_none_iff] at hy
            rw [hremove, hget.2 (hown.2 hy.1)]
            exact hmerged.2 hy.2

/-- The path leads to a scalar, but the search comes to a scalar with some keys left before. -/
def Hidden (throws : Bool) (n : Node) (path : List String) : Prop :=
  throws = true ∧ (∃ x key left rest, stops n path = (x, key :: left) :: rest) ∧
    ∃ text, first n path = some (.scalar text)

/-- The search finds the scalar at the path unless it is hidden. -/
theorem endOf_scalar_iff : (∀ text, first n path = some (.scalar text) ↔
    endOf throws (stops n path) = .node (.scalar text)) ↔ ¬Hidden throws n path := by
  cases throws with
  | false =>
    have hiff (text : String) : first n path = some (.scalar text) ↔
        endOf false (stops n path) = .node (.scalar text) := by
      rw [endOf_not_throws]
      cases first n path <;> simp
    exact ⟨fun _ h ↦ absurd h.1 (by decide), fun _ ↦ hiff⟩
  | true =>
    unfold Hidden first
    cases stops n path with
    | nil => simp [endOf]
    | cons stop rest =>
      obtain ⟨x, left⟩ := stop
      cases left with
      | nil => simp [endOf]
      | cons k left => simp [endOf]

/-- One entry. -/
def entry (key : String) (value : Node) : Entries := .cons key value .nil

/-- `x` has own entries, is a scalar where it is merged the first time, and a map the second. -/
def overridden : Entries :=
  .cons "a" (.map (.cons "x" (.map (entry "p" (.scalar "1")))
    (entry "<<" (.map (entry "x" (.scalar "5"))))))
    (entry "<<" (.map (entry "a" (.map (entry "x" (.map (entry "q" (.scalar "7"))))))))

def overriddenResolved : Entries :=
  entry "a" (.map (entry "x" (.map (.cons "p" (.scalar "1") (entry "q" (.scalar "7"))))))

theorem overridden_wellFormed : (Node.map overridden).WellFormed := by
  simp [overridden, entry, Node.WellFormed, Entries.WellFormed, Entries.Unique, Entries.find]

theorem overridden_resolved :
    resolveMergeKeys (.map overridden) = .ok (.map overriddenResolved) := by decide +kernel

end Cpsw.Yaml
