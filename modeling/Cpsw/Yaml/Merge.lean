import Cpsw.Yaml.Node

namespace Cpsw.Yaml

def YAML_MERGE_KEY_PATTERN : String := "<<"

/-- The exceptions of the merge, with the keys that lead to where they were thrown. -/
inductive MergeError
  | targetNotMap (here : List String)
  | multiple (here : List String)
  | mergedNotMap (here : List String)
  | calledOnNonMap
  deriving DecidableEq, Repr

def pps (here : List String) : String := String.join (here.map fun key ↦ "/" ++ key)

def MergeError.text : MergeError → String
  | .targetNotMap here => "Internal Error -- merge target no a map: " ++ pps here
  | .multiple here => "yaml_merge: multiple " ++ YAML_MERGE_KEY_PATTERN ++ " found here: " ++ pps here
  | .mergedNotMap here => "yaml_merge: merged node is not a map: " ++ pps here
  | .calledOnNonMap => "resolveMergeKeys() called on non-Map Node!"

/-- `mergeInto`, with the entries of the node that is being merged. Both are maps: what is merged, as
its callers check, and the target, as is checked before the call here. -/
def mergeInto (here : List String) (n : Entries) : Entries → Except MergeError Entries
  | .nil => .ok n
  | .cons key value rest =>
    match n.find key with
    | none => mergeInto here (n.push key value) rest
    | some found =>
      match value with
      | .map m =>
        match found with
        | .map f =>
          match mergeInto (here ++ [key]) f m with
          | .error err => .error err
          | .ok f => mergeInto here (n.set key (.map f)) rest
        | _ => .error (.targetNotMap (here ++ [key]))
      | _ => mergeInto here n rest
termination_by structural m => m

/-- The end of `resolveMergeKeys`: what `<<` has is merged, and `<<` goes. -/
def mergeMerged (here : List String) (n : Entries) : Option Entries → Except MergeError Entries
  | none => .ok n
  | some m =>
    match mergeInto here n m with
    | .error err => .error err
    | .ok n => .ok (n.remove YAML_MERGE_KEY_PATTERN)

/-- The loop of `resolveMergeKeys`: the children with their merges resolved, and `merged_node`. -/
def resolveChildren (here : List String) (merged : Option Entries) :
    Entries → Except MergeError (Entries × Option Entries)
  | .nil => .ok (.nil, merged)
  | .cons key (.map v) rest =>
    match resolveChildren (here ++ [key]) none v with
    | .error err => .error err
    | .ok (v, m) =>
      match mergeMerged (here ++ [key]) v m with
      | .error err => .error err
      | .ok v =>
        if key = YAML_MERGE_KEY_PATTERN then
          if merged.isSome then .error (.multiple (here ++ [key]))
          else
            match resolveChildren here (some v) rest with
            | .error err => .error err
            | .ok (rest, merged) => .ok (.cons key (.map v) rest, merged)
        else
          match resolveChildren here merged rest with
          | .error err => .error err
          | .ok (rest, merged) => .ok (.cons key (.map v) rest, merged)
  | .cons key value rest =>
    if key = YAML_MERGE_KEY_PATTERN then .error (.mergedNotMap (here ++ [key]))
    else
      match resolveChildren here merged rest with
      | .error err => .error err
      | .ok (rest, merged) => .ok (.cons key value rest, merged)
termination_by structural n => n

def resolve (here : List String) (n : Entries) : Except MergeError Entries :=
  match resolveChildren here none n with
  | .error err => .error err
  | .ok (n, merged) => mergeMerged here n merged

def resolveMergeKeys : Node → Except MergeError Node
  | .map n =>
    match resolve [] n with
    | .error err => .error err
    | .ok n => .ok (.map n)
  | _ => .error .calledOnNonMap

/-- What an entry becomes when the entry with the same key of another node is merged into it. -/
inductive MergedAt : Option Node → Option Node → Option Node → Prop
  | own (x : Option Node) : MergedAt x none x
  | new (v : Node) : MergedAt none (some v) (some v)
  | keep (x v : Node) (hv : v.isMap = false) : MergedAt (some x) (some v) (some x)
  | maps {here : List String} {f m r : Entries} (h : mergeInto here f m = .ok r) :
    MergedAt (some (.map f)) (some (.map m)) (some (.map r))

variable {here : List String} {n m r rest : Entries} {merged mg : Option Entries} {key k : String}
variable {v x : Node} {path : List String}

theorem MergedAt.eq_of_none {x r : Option Node} (h : MergedAt x none r) : r = x := by
  cases h
  rfl

/-- One more entry is merged, and then the rest. -/
theorem mergeInto_cons (h : mergeInto here n (.cons key v rest) = .ok r) :
    ∃ n' x, mergeInto here n' rest = .ok r ∧ MergedAt (n.find key) (some v) (some x) ∧
      (n.Unique → n'.Unique) ∧ ∀ k, n'.find k = if key = k then some x else n.find k := by
  simp only [mergeInto] at h
  cases hf : n.find key with
  | none =>
    rw [hf] at h
    exact ⟨_, v, h, .new v, fun hu ↦ hu.push hf, fun k ↦ Entries.find_push hf⟩
  | some found =>
    rw [hf] at h
    cases v with
    | map m =>
      cases found with
      | map f =>
        cases hm : mergeInto (here ++ [key]) f m with
        | error err => simp [hm] at h
        | ok f' =>
          simp only [hm] at h
          refine ⟨_, _, h, .maps hm, fun hu ↦ hu.set, ?_⟩
          intro k
          rw [Entries.find_set, hf]
          rfl
      | _ => cases h
    | _ =>
      refine ⟨n, found, h, .keep _ _ rfl, id, ?_⟩
      intro k
      split_ifs with hk
      · rw [← hk, hf]
      · rfl

/-- What the result of a merge has for a key. -/
theorem mergeInto_at (h : mergeInto here n m = .ok r) (hm : m.Unique) (k : String) :
    MergedAt (n.find k) (m.find k) (r.find k) := by
  induction m using Entries.ind generalizing n with
  | nil =>
    cases h
    exact .own _
  | cons key v rest ih =>
    obtain ⟨n', x, hr, hx, -, hn'⟩ := mergeInto_cons h
    have hk := ih hr hm.2
    rw [hn'] at hk
    rw [Entries.find_cons]
    split_ifs at hk ⊢ with hkey
    · subst hkey
      rw [hm.1] at hk
      rw [hk.eq_of_none]
      exact hx
    · exact hk

theorem mergeInto_unique (h : mergeInto here n m = .ok r) (hn : n.Unique) : r.Unique := by
  induction m using Entries.ind generalizing n with
  | nil =>
    cases h
    exact hn
  | cons key v rest ih =>
    obtain ⟨n', x, hr, -, hu, -⟩ := mergeInto_cons h
    exact ih hr (hu hn)

/-- A property of nodes that merged maps have, if what is merged and the target have it. -/
theorem mergeInto_forall {P : Node → Prop}
    (hP : ∀ here f m r, mergeInto here f m = .ok r → P (.map f) → P (.map m) →
      (∀ k v, r.find k = some v → P v) → P (.map r))
    (hchild : ∀ m, P (.map m) → m.Unique ∧ ∀ k v, m.find k = some v → P v)
    (h : mergeInto here n m = .ok r) (hm : P (.map m)) (hn : ∀ k v, n.find k = some v → P v) :
    ∀ k v, r.find k = some v → P v := by
  induction hs : sizeOf m using Nat.strongRecOn generalizing here n m r with
  | ind s ih =>
    intro k v hv
    obtain ⟨hu, hmv⟩ := hchild m hm
    have hat := mergeInto_at h hu k
    rw [hv] at hat
    generalize hnk : n.find k = a at hat
    generalize hmk : m.find k = b at hat
    cases hat with
    | own => exact hn k v hnk
    | new => exact hmv k v hmk
    | keep => exact hn k v hnk
    | @maps here' f m' r' hmerge =>
      have hf := hn k _ hnk
      have hm' := hmv k _ hmk
      have hlt := Entries.sizeOf_find hmk
      simp only [Node.map.sizeOf_spec] at hlt
      exact hP here' f m' r' hmerge hf hm'
        (ih (sizeOf m') (by omega) hmerge hm' (hchild f hf).2 rfl)

/-- Keys are unique, and no merge key is left. -/
def Clean (n : Node) : Prop := n.WellFormed ∧ n.Without YAML_MERGE_KEY_PATTERN

theorem clean_map_iff : Clean (.map m) ↔
    m.Unique ∧ m.find YAML_MERGE_KEY_PATTERN = none ∧ ∀ k v, m.find k = some v → Clean v := by
  unfold Clean
  rw [without_map_iff]
  constructor
  · rintro ⟨hw, hnone, hv⟩
    exact ⟨hw.1, hnone, fun k v h ↦ ⟨hw.2.find h, hv k v h⟩⟩
  · rintro ⟨hu, hnone, hv⟩
    exact ⟨⟨hu, wellFormed_of_find (fun k v h ↦ (hv k v h).1) hu⟩, hnone, fun k v h ↦ (hv k v h).2⟩

/-- A merge of what is resolved into what is resolved, but for the merge key, is so, too. -/
theorem mergeInto_clean (h : mergeInto here n m = .ok r) (hm : Clean (.map m))
    (hn : ∀ k v, n.find k = some v → Clean v) : ∀ k v, r.find k = some v → Clean v := by
  apply mergeInto_forall ?_ ?_ h hm hn
  · intro here f m r h hf hm hr
    rw [clean_map_iff] at hf hm ⊢
    refine ⟨mergeInto_unique h hf.1, ?_, hr⟩
    have hat := mergeInto_at h hm.1 YAML_MERGE_KEY_PATTERN
    rw [hf.2.1, hm.2.1] at hat
    exact hat.eq_of_none
  · intro m hm
    rw [clean_map_iff] at hm
    exact ⟨hm.1, hm.2.2⟩

/-- What is at a path of the target stays, with more entries perhaps; else what is merged is there. -/
theorem mergeInto_get (h : mergeInto here n m = .ok r) (hm : (Node.map m).WellFormed)
    (key : String) (path : List String) :
    (∀ x, get (key :: path) (.map n) = some x →
      ∃ y, get (key :: path) (.map r) = some y ∧ SameKind x y) ∧
    (get (key :: path) (.map n) = none → get (key :: path) (.map r) = get (key :: path) (.map m)) := by
  induction path generalizing here n m r key with
  | nil =>
    have hat := mergeInto_at h hm.1 key
    simp only [get_cons_map]
    generalize n.find key = a at hat
    generalize m.find key = b at hat
    generalize r.find key = c at hat
    cases hat with
    | own => exact ⟨fun x hx ↦ ⟨x, hx, .refl x⟩, fun hx ↦ by rw [hx]; rfl⟩
    | new => exact ⟨nofun, fun _ ↦ rfl⟩
    | keep x v hv => exact ⟨fun y hy ↦ ⟨y, hy, .refl y⟩, nofun⟩
    | maps _ =>
      refine ⟨?_, nofun⟩
      intro x hx
      cases hx
      exact ⟨_, rfl, rfl⟩
  | cons k path ih =>
    have hat := mergeInto_at h hm.1 key
    have hcons : ∀ m, get (key :: k :: path) (.map m) = (m.find key).bind (get (k :: path)) :=
      fun _ ↦ get_cons_map
    simp only [hcons]
    generalize n.find key = a at hat
    generalize hb : m.find key = b at hat
    generalize r.find key = c at hat
    cases hat with
    | own => exact ⟨fun x hx ↦ ⟨x, hx, .refl x⟩, fun hx ↦ by rw [hx]; rfl⟩
    | new => exact ⟨nofun, fun _ ↦ rfl⟩
    | keep x v hv =>
      refine ⟨fun y hy ↦ ⟨y, hy, .refl y⟩, fun hy ↦ ?_⟩
      rw [hy, Option.bind_some, get_cons_not_map hv]
    | maps hmerge => exact ih hmerge (hm.2.find hb) k

/-- What a child becomes when the merges in it are resolved. -/
inductive ResolvedAs : Node → Node → Prop
  | map {here : List String} {v r : Entries} (h : resolve here v = .ok r) :
    ResolvedAs (.map v) (.map r)
  | leaf (x : Node) (h : x.isMap = false) : ResolvedAs x x

/-- What the loop of `resolveMergeKeys` leaves of the children, and what it finds to merge. -/
structure ResolvedChildren (n n' : Entries) (merged mg : Option Entries) : Prop where
  find : ∀ k, n.find k = none ∧ n'.find k = none ∨
    ∃ x y, n.find k = some x ∧ n'.find k = some y ∧ ResolvedAs x y
  mergeKey : (n'.find YAML_MERGE_KEY_PATTERN = none ∧ mg = merged) ∨
    ∃ m, n'.find YAML_MERGE_KEY_PATTERN = some (.map m) ∧ mg = some m

theorem resolveChildren_map :
    resolveChildren here merged (.cons key (.map m) rest) =
      match resolve (here ++ [key]) m with
      | .error err => .error err
      | .ok v =>
        if key = YAML_MERGE_KEY_PATTERN then
          if merged.isSome then .error (.multiple (here ++ [key]))
          else
            match resolveChildren here (some v) rest with
            | .error err => .error err
            | .ok (rest, merged) => .ok (.cons key (.map v) rest, merged)
        else
          match resolveChildren here merged rest with
          | .error err => .error err
          | .ok (rest, merged) => .ok (.cons key (.map v) rest, merged) := by
  simp only [resolveChildren, resolve]
  cases resolveChildren (here ++ [key]) none m <;> rfl

/-- One entry of the loop: the child, and the rest with what there is to merge by then. -/
theorem resolveChildren_cons (h : resolveChildren here merged (.cons key x rest) = .ok (r, mg)) :
    ∃ y rest' merged', r = .cons key y rest' ∧ ResolvedAs x y ∧
      resolveChildren here merged' rest = .ok (rest', mg) ∧
      (key ≠ YAML_MERGE_KEY_PATTERN ∧ merged' = merged ∨
        key = YAML_MERGE_KEY_PATTERN ∧ ∃ m, y = .map m ∧ merged' = some m) := by
  cases x with
  | map m =>
    rw [resolveChildren_map] at h
    cases hm : resolve (here ++ [key]) m with
    | error err => simp [hm] at h
    | ok v =>
      simp only [hm] at h
      split_ifs at h with hk hsome
      · cases hr : resolveChildren here (some v) rest with
        | error err => simp [hr] at h
        | ok res =>
          rw [hr] at h
          cases h
          exact ⟨_, _, _, rfl, .map hm, hr, .inr ⟨hk, _, rfl, rfl⟩⟩
      · cases hr : resolveChildren here merged rest with
        | error err => simp [hr] at h
        | ok res =>
          rw [hr] at h
          cases h
          exact ⟨_, _, _, rfl, .map hm, hr, .inl ⟨hk, rfl⟩⟩
  | _ =>
    simp only [resolveChildren] at h
    split_ifs at h with hk
    cases hr : resolveChildren here merged rest with
    | error err => simp [hr] at h
    | ok res =>
      rw [hr] at h
      cases h
      exact ⟨_, _, _, rfl, .leaf _ rfl, hr, .inl ⟨hk, rfl⟩⟩

theorem resolveChildren_spec (h : resolveChildren here merged n = .ok (r, mg)) (hu : n.Unique) :
    ResolvedChildren n r merged mg ∧ r.Unique := by
  induction n using Entries.ind generalizing merged r with
  | nil =>
    simp only [resolveChildren] at h
    cases h
    exact ⟨⟨fun k ↦ .inl ⟨rfl, rfl⟩, .inl ⟨rfl, rfl⟩⟩, hu⟩
  | cons key x rest ih =>
    obtain ⟨y, rest', merged', rfl, hy, hr, hk⟩ := resolveChildren_cons h
    obtain ⟨hrest, hu'⟩ := ih hr hu.2
    have hnone : rest'.find key = none := by
      rcases hrest.find key with ⟨-, hn⟩ | ⟨x', y', hx, -, -⟩
      · exact hn
      · rw [hu.1] at hx
        cases hx
    refine ⟨⟨?_, ?_⟩, hnone, hu'⟩
    · intro k
      rw [Entries.find_cons, Entries.find_cons]
      split_ifs with hkey
      · exact .inr ⟨x, y, rfl, rfl, hy⟩
      · exact hrest.find k
    · rw [Entries.find_cons]
      rcases hk with ⟨hk, rfl⟩ | ⟨hk, m, rfl, rfl⟩
      · rw [if_neg hk]
        exact hrest.mergeKey
      · rw [if_pos hk]
        subst hk
        rcases hrest.mergeKey with ⟨-, hmg⟩ | ⟨m', hm', -⟩
        · exact .inr ⟨m, rfl, hmg⟩
        · rw [hnone] at hm'
          cases hm'

/-- What `resolveMergeKeys` makes of a map: its children are resolved, and `<<` is merged. -/
structure ResolvedMap (n r : Entries) (n' : Entries) : Prop where
  find : ∀ k, n.find k = none ∧ n'.find k = none ∨
    ∃ x y, n.find k = some x ∧ n'.find k = some y ∧ ResolvedAs x y
  unique : n'.Unique
  merge : n'.find YAML_MERGE_KEY_PATTERN = none ∧ r = n' ∨
    ∃ here m r', n'.find YAML_MERGE_KEY_PATTERN = some (.map m) ∧ mergeInto here n' m = .ok r' ∧
      r = r'.remove YAML_MERGE_KEY_PATTERN

theorem resolve_spec (h : resolve here n = .ok r) (hu : n.Unique) : ∃ n', ResolvedMap n r n' := by
  unfold resolve at h
  cases hc : resolveChildren here none n with
  | error err => simp [hc] at h
  | ok res =>
    obtain ⟨n', mg⟩ := res
    rw [hc] at h
    obtain ⟨hrc, hu'⟩ := resolveChildren_spec hc hu
    refine ⟨n', hrc.find, hu', ?_⟩
    rcases hrc.mergeKey with ⟨hnone, rfl⟩ | ⟨m, hm, rfl⟩
    · cases h
      exact .inl ⟨hnone, rfl⟩
    · simp only [mergeMerged] at h
      cases hmi : mergeInto here n' m with
      | error err => simp [hmi] at h
      | ok r' =>
        rw [hmi] at h
        cases h
        exact .inr ⟨here, m, r', hm, hmi, rfl⟩

/-- Nothing is left to merge. -/
theorem resolve_clean (h : resolve here n = .ok r) (hn : (Node.map n).WellFormed) :
    Clean (.map r) := by
  induction hs : sizeOf n using Nat.strongRecOn generalizing here n r with
  | ind s ih =>
    obtain ⟨n', hr⟩ := resolve_spec h hn.1
    have hchild : ∀ k v, n'.find k = some v → Clean v := by
      intro k v hv
      rcases hr.find k with ⟨-, hnone⟩ | ⟨x, y, hx, hy, hxy⟩
      · rw [hnone] at hv
        cases hv
      · rw [hy] at hv
        cases hv
        have hxw := hn.2.find hx
        cases hxy with
        | map hv =>
          have hlt := Entries.sizeOf_find hx
          simp only [Node.map.sizeOf_spec] at hlt
          exact ih _ (by omega) hv hxw rfl
        | leaf _ hleaf => exact ⟨hxw, without_of_not_map hleaf⟩
    rcases hr.merge with ⟨hnone, rfl⟩ | ⟨here', m, r', hm, hmi, rfl⟩
    · exact clean_map_iff.2 ⟨hr.unique, hnone, hchild⟩
    · have hu' := mergeInto_unique hmi hr.unique
      have hclean := mergeInto_clean hmi (hchild _ _ hm) hchild
      refine clean_map_iff.2 ⟨hu'.remove, ?_, ?_⟩
      · rw [Entries.find_remove hu', if_pos rfl]
      · intro k v hv
        rw [Entries.find_remove hu'] at hv
        split_ifs at hv
        exact hclean k v hv

/-- What has no merge keys is left as it is. -/
theorem resolve_of_clean (h : Clean (.map n)) : resolve here n = .ok n := by
  induction hs : sizeOf n using Nat.strongRecOn generalizing here n with
  | ind s ih =>
    have hchildren : ∀ m : Entries, sizeOf m ≤ sizeOf n → Clean (.map m) →
        resolveChildren here none m = .ok (m, none) := by
      intro m hle hm
      induction m using Entries.ind with
      | nil => simp [resolveChildren]
      | cons key v rest ihr =>
        simp only [Entries.cons.sizeOf_spec] at hle
        obtain ⟨hu, hnone, hv⟩ := clean_map_iff.1 hm
        have hkey : key ≠ YAML_MERGE_KEY_PATTERN := by
          rintro rfl
          simp [Entries.find_cons] at hnone
        rw [Entries.find_cons, if_neg hkey] at hnone
        have hrest : Clean (.map rest) := by
          refine clean_map_iff.2 ⟨hu.2, hnone, ?_⟩
          intro k x hx
          apply hv k x
          rw [Entries.find_cons, if_neg]
          · exact hx
          · rintro rfl
            rw [hu.1] at hx
            cases hx
        have hr := ihr (by omega) hrest
        cases v with
        | map m =>
          have hm := hv key (.map m) (by simp [Entries.find_cons])
          simp only [Node.map.sizeOf_spec] at hle
          have hres : resolve (here ++ [key]) m = .ok m := ih _ (by omega) hm rfl
          rw [resolveChildren_map, hres]
          simp only [if_neg hkey, hr]
        | _ => simp only [resolveChildren, if_neg hkey, hr]
    rw [resolve, hchildren n (Nat.le_refl _) h]
    rfl

end Cpsw.Yaml
