import Cpsw.Config.Command
import Cpsw.Path.Reachable

namespace Cpsw.Config

open Path PathImpl Lib Throw

variable {Ent Addr σ : Type} [DecidableEq Ent]
variable (T : Devices Ent Addr σ) (doDump : Bool)

/-- The loop over `items`, which begins with the path `p` in the state `s`, comes to `item` with
the path `q` in the state `s'`. -/
def Reaches (d : Ent) (p : PathImpl Ent Addr) (s : σ) (items : List Node) (q : PathImpl Ent Addr)
    (s' : σ) (item : Node) : Prop :=
  ∃ done rest rval ns, items = done ++ item :: rest ∧
    (processItems T doDump d p done).exec s = (.ok (q, rval, ns), s')

/-- Every item is entered and left with the path of the whole sequence. -/
def KeepsPath (p : PathImpl Ent Addr) (s : σ) (items : List Node) : Prop :=
  let d := p.tailEntry T.toHierarchy
  ∀ p₁ s₁ item p₂ rval n s₂, Reaches T doDump d p s items p₁ s₁ item →
    (processItem T doDump d p₁ item).exec s₁ = (.ok (p₂, rval, n), s₂) → p₁ = p ∧ p₂ = p

/-- The loop over the children `as` comes to `a`. -/
def ReachesChild (d : Ent) (p : PathImpl Ent Addr) (s : σ) (as : List Addr)
    (q : PathImpl Ent Addr) (s' : σ) (a : Addr) : Prop :=
  ∃ done rest h rval items, as = done ++ a :: rest ∧
    (dumpChildren T d p done h).exec s = (.ok (q, rval, items), s')

/-- A dump of a new node calls what the class of `e` does, for a node `m` at `q` in the state
`s'`. -/
inductive NewCalls : Ent → PathImpl Ent Addr → σ → Ent → PathImpl Ent Addr → Node → σ → Prop
  | self {d p s} : NewCalls d p s d p .null s
  | leaf {d p s own s₀ q s' a r} : (entryProcess T true d p .null).exec s = (.ok own, s₀) →
      ReachesChild T d p s₀ (T.configPrioList d) q s' a →
      q.appendAddress T.toHierarchy a 0 (toInt (T.nelms a - 1)) = .ok r →
      T.isDev (T.entry a) = false → NewCalls d p s (T.entry a) r .null s'
  | hub {d p s own s₀ q s' a r e r' m s''} :
      (entryProcess T true d p .null).exec s = (.ok own, s₀) →
      ReachesChild T d p s₀ (T.configPrioList d) q s' a →
      q.appendAddress T.toHierarchy a 0 (toInt (T.nelms a - 1)) = .ok r →
      T.isDev (T.entry a) = true → NewCalls (T.entry a) r s' e r' m s'' →
      NewCalls d p s e r' m s''

/-- The processing of `n` at `p` calls what the class of `e` does, and catches nothing that this
throws. -/
inductive Calls : PathImpl Ent Addr → Node → σ → Ent → PathImpl Ent Addr → Node → σ → Prop
  | entry {p n s} : T.isDev (p.tailEntry T.toHierarchy) = false →
      Calls p n s (p.tailEntry T.toHierarchy) p n s
  | item {p tag items s q s' m} : T.isDev (p.tailEntry T.toHierarchy) = true →
      Reaches T doDump (p.tailEntry T.toHierarchy) p s items q s' m → m.tag = YAML_KEY_value →
      Calls p (.seq tag items) s (p.tailEntry T.toHierarchy) q m s'
  | new {p n s e q m s'} : T.isDev (p.tailEntry T.toHierarchy) = true → doDump = true →
      n.isUnset = true → NewCalls T (p.tailEntry T.toHierarchy) p s e q m s' → Calls p n s e q m s'

omit [DecidableEq Ent] in
/-- What the class of `e` does ends in a `NotFoundError`. -/
def Throws (e : Ent) (p : PathImpl Ent Addr) (n : Node) (s : σ) : Prop :=
  ∃ err s', (entryProcess T doDump e p n).exec s = (.error err, s') ∧ err.type = .notFound

/-- The item names a descendant that is found, and what this or a hub below it does with a node of
its own ends in a `NotFoundError`. -/
def CutShort (d : Ent) (p : PathImpl Ent Addr) (s : σ) (item : Node) : Prop :=
  ∃ tag key value descendant q e r m s', item = .map tag [(key, value)] ∧ tag ≠ YAML_KEY_value ∧
    (create d).findByName T.toHierarchy key.toList = .ok descendant ∧ descendant.entries ≠ [] ∧
    p.append T.toHierarchy descendant = .ok q ∧
    Calls T doDump q value s e r m s' ∧ Throws T doDump e r m s'

variable {T doDump} {d : Ent} {p q r : PathImpl Ent Addr} {s s' : σ} {item n : Node}
variable {items : List Node} {err : CPSWError} {e : Ent}

theorem exec_liftPath_ok {α : Type} {x : Except PathError α} {a : α} :
    (liftPath x : ConfigM σ α).exec s = (.ok a, s') ↔ x = .ok a ∧ s = s' := by
  cases x <;> simp [liftPath]

theorem exec_liftPath_error {α : Type} {x : Except PathError α} :
    (liftPath x : ConfigM σ α).exec s = (.error err, s') ↔
      ∃ e, x = .error e ∧ .ofPath e = err ∧ s = s' := by
  cases x <;> simp [liftPath]

omit [DecidableEq Ent] in
theorem strip_eq (n : ℕ) (p : PathImpl Ent Addr) :
    strip n p = { p with entries := p.entries.take (p.entries.length - n) } := by
  induction n generalizing p with
  | zero => simp [strip]
  | succ n ih =>
    rw [strip, ih]
    simp only [up, List.dropLast_eq_take, List.length_take, List.take_take]
    congr 2
    omega

theorem append_ok (h : p.append T.toHierarchy q = .ok r) :
    ∃ xs, xs.length = q.entries.length ∧ r.entries = p.entries ++ xs := by
  unfold append append2 at h
  split_ifs at h with hq
  · cases h
    exact ⟨[], by simp [hq], by simp⟩
  · cases hv : p.verifyAtTail T.toHierarchy q.originDev with
    | none => simp [hv] at h
    | some p' =>
      have hp' : p'.entries = p.entries := by
        unfold verifyAtTail at hv
        split_ifs at hv with h₁ h₂
        · cases hv
          exact h₁.symm
        · cases hv
          rfl
      simp only [hv] at h
      cases h
      exact ⟨_, List.length_map _, by rw [hp']⟩

omit [DecidableEq Ent] in
theorem valueItem_ok {rval : ℕ}
    (h : (valueItem T doDump d p item).exec s = (.ok (r, rval, n), s')) : r = p := by
  obtain ⟨⟨own, m⟩, s₁, -, h⟩ := exec_bind_ok.1 h
  cases h
  rfl

omit [DecidableEq Ent] in
theorem valueItem_error : (valueItem T doDump d p item).exec s = (.error err, s') ↔
    (entryProcess T doDump d p item).exec s = (.error err, s') := by
  rw [valueItem, exec_bind_error]
  constructor
  · rintro (h | ⟨own, s₁, -, h⟩)
    · exact h
    · cases h
  · exact .inl

/-- What the processing of an item comes to that names a descendant. -/
theorem processItem_pair {tag key : String} {value : Node} {descendant : PathImpl Ent Addr}
    (ht : tag ≠ YAML_KEY_value)
    (hf : (create d).findByName T.toHierarchy key.toList = .ok descendant)
    (ha : p.append T.toHierarchy descendant = .ok q) :
    (processItem T doDump d p (.map tag [(key, value)])).exec s =
      match (pathProcess T doDump q value).exec s with
      | (.ok (rval, value), s) => (.ok (strip descendant.entries.length q, rval,
          (Node.map tag [(key, value)]).cleared), s)
      | (.error err, s) =>
        if err.type = .notFound then (.ok (q, 0, .undefined), s) else (.error err, s) := by
  rw [processItem, if_neg ht]
  simp only [hf, ha, exec_bind, liftPath, exec_pure, exec_tryCatch, pathProcess]
  rcases (viaPath T doDump _ q value).exec s with ⟨err | ⟨rval, m⟩, s₁⟩
  · by_cases he : err.type = .notFound
    · simp [he]
    · simp [he]
  · rfl

/-- An item that does not come to a descendant leaves the path as it is. -/
theorem processItem_ok {rval : ℕ}
    (h : (processItem T doDump d p item).exec s = (.ok (r, rval, n), s')) :
    r = p ∨ ∃ tag key value descendant q, item = .map tag [(key, value)] ∧ tag ≠ YAML_KEY_value ∧
      (create d).findByName T.toHierarchy key.toList = .ok descendant ∧
      p.append T.toHierarchy descendant = .ok q := by
  unfold processItem at h
  split at h
  case h_1 tag key value =>
    split_ifs at h with ht
    · exact .inl (valueItem_ok h)
    · cases hf : (create d).findByName T.toHierarchy key.toList with
      | error e =>
        simp only [hf] at h
        split_ifs at h
        · cases h
          exact .inl rfl
        · cases h
      | ok descendant =>
        simp only [hf] at h
        obtain ⟨q, s₁, hq, -⟩ := exec_bind_ok.1 h
        have ha := (exec_liftPath_ok.1 hq).1
        exact .inr ⟨tag, key, value, descendant, q, rfl, ht, hf, ha⟩
  case h_2 =>
    split_ifs at h
    · exact .inl (valueItem_ok h)
    · cases h
      exact .inl rfl

/-- A path that does not fit is no `NotFoundError`. -/
theorem append_not_notFound {e : PathError} (h : p.append T.toHierarchy q = .error e) :
    (CPSWError.ofPath e).type ≠ .notFound := by
  unfold append append2 at h
  split_ifs at h
  split at h
  · cases h
  · cases h
    nofun

/-- No item ends in a `NotFoundError` but one with settings of the hub itself. -/
theorem processItem_notFound (h : (processItem T doDump d p item).exec s = (.error err, s'))
    (hn : err.type = .notFound) : item.tag = YAML_KEY_value ∧ Throws T doDump d p item s := by
  unfold processItem at h
  split at h
  case h_1 tag key value =>
    split_ifs at h with ht
    · exact ⟨ht, err, s', valueItem_error.1 h, hn⟩
    · exfalso
      cases hf : (create d).findByName T.toHierarchy key.toList with
      | error e =>
        simp only [hf] at h
        split_ifs at h with he
        · cases h
        · cases h
          exact he hn
      | ok descendant =>
        simp only [hf] at h
        rcases exec_bind_error.1 h with h | ⟨q, s₁, -, h⟩
        · obtain ⟨e, ha, rfl, -⟩ := exec_liftPath_error.1 h
          exact append_not_notFound ha hn
        · rw [exec_tryCatch] at h
          split at h
          · cases h
          · split_ifs at h with he
            · cases h
            · cases h
              exact he hn
  case h_2 =>
    split_ifs at h with ht
    · exact ⟨ht, err, s', valueItem_error.1 h, hn⟩
    · cases h

theorem processItem_throws (ht : item.tag = YAML_KEY_value) (h : Throws T doDump d p item s) :
    ∃ err s', (processItem T doDump d p item).exec s = (.error err, s') ∧ err.type = .notFound := by
  obtain ⟨err, s', h, hn⟩ := h
  refine ⟨err, s', ?_, hn⟩
  unfold processItem
  split
  case h_1 tag key value => rw [if_pos (show tag = _ from ht), valueItem_error.2 h]
  case h_2 => rw [if_pos ht, valueItem_error.2 h]

theorem reaches_cons : Reaches T doDump d p s (n :: items) q s' item ↔
    (q = p ∧ s' = s ∧ item = n) ∨ ∃ r rval m s₁,
      (processItem T doDump d p n).exec s = (.ok (r, rval, m), s₁) ∧
        Reaches T doDump d r s₁ items q s' item := by
  constructor
  · rintro ⟨done, rest, rval, ns, hitems, hrun⟩
    cases done with
    | nil =>
      cases hitems
      rw [processItems] at hrun
      cases hrun
      exact .inl ⟨rfl, rfl, rfl⟩
    | cons n' done =>
      cases hitems
      rw [processItems] at hrun
      obtain ⟨⟨r, rv, m⟩, s₁, hitem, hrun⟩ := exec_bind_ok.1 hrun
      obtain ⟨⟨q', rvs, ms⟩, s₂, hitems, hrun⟩ := exec_bind_ok.1 hrun
      cases hrun
      exact .inr ⟨r, rv, m, s₁, hitem, done, rest, rvs, ms, rfl, hitems⟩
  · rintro (⟨rfl, rfl, rfl⟩ | ⟨r, rval, m, s₁, hitem, done, rest, rvs, ms, rfl, hrun⟩)
    · refine ⟨[], items, 0, [], rfl, ?_⟩
      rw [processItems]
      rfl
    · refine ⟨n :: done, rest, rval + rvs, m :: ms, rfl, ?_⟩
      rw [processItems]
      exact exec_bind_ok.2 ⟨_, _, hitem, exec_bind_ok.2 ⟨_, _, hrun, rfl⟩⟩

/-- The loop ends in an error where it comes to an item that does. -/
theorem processItems_error : (processItems T doDump d p items).exec s = (.error err, s') ↔
    ∃ q s₁ item, Reaches T doDump d p s items q s₁ item ∧
      (processItem T doDump d q item).exec s₁ = (.error err, s') := by
  induction items generalizing p s with
  | nil =>
    rw [processItems]
    constructor
    · intro h
      cases h
    · rintro ⟨q, s₁, item, ⟨done, rest, -, -, h, -⟩, -⟩
      exact absurd h (by simp)
  | cons n items ih =>
    simp only [reaches_cons]
    rw [processItems, exec_bind_error]
    constructor
    · rintro (h | ⟨⟨r, rval, m⟩, s₁, hitem, h⟩)
      · exact ⟨p, s, n, .inl ⟨rfl, rfl, rfl⟩, h⟩
      · rcases exec_bind_error.1 h with h | ⟨_, _, -, h⟩
        · obtain ⟨q, s₂, item, hr, h⟩ := ih.1 h
          exact ⟨q, s₂, item, .inr ⟨r, rval, m, s₁, hitem, hr⟩, h⟩
        · cases h
    · rintro ⟨q, s₁, item, ⟨rfl, rfl, rfl⟩ | ⟨r, rval, m, s₂, hitem, hr⟩, h⟩
      · exact .inl h
      · exact .inr ⟨_, _, hitem, exec_bind_error.2 (.inl (ih.2 ⟨q, s₁, item, hr, h⟩))⟩

theorem dumpChildren_cons {a : Addr} {as : List Addr} (h : ∀ b ∈ a :: as, T.owner b = d) :
    dumpChildren T d p (a :: as) h = (do
      let (p, rval, child) ← dumpChild T a p
      let (p, rvals, items) ←
        dumpChildren T d p.up as fun b hb ↦ h b (List.mem_cons_of_mem a hb)
      return (p, rval + rvals,
        if child.isUnset then items
        else .map "" [(String.ofList (T.name (T.entry a)), child)] :: items)) := by
  rw [dumpChildren]

theorem reachesChild_cons {a b : Addr} {as : List Addr} (h : ∀ b ∈ a :: as, T.owner b = d) :
    ReachesChild T d p s (a :: as) q s' b ↔ (q = p ∧ s' = s ∧ b = a) ∨ ∃ r rval m s₁,
      (dumpChild T a p).exec s = (.ok (r, rval, m), s₁) ∧
        ReachesChild T d r.up s₁ as q s' b := by
  constructor
  · rintro ⟨done, rest, h', rval, items, has, hrun⟩
    cases done with
    | nil =>
      cases has
      rw [dumpChildren] at hrun
      cases hrun
      exact .inl ⟨rfl, rfl, rfl⟩
    | cons a' done =>
      cases has
      rw [dumpChildren_cons] at hrun
      obtain ⟨⟨r, rv, m⟩, s₁, hchild, hrun⟩ := exec_bind_ok.1 hrun
      obtain ⟨⟨q', rvs, ms⟩, s₂, hchildren, hrun⟩ := exec_bind_ok.1 hrun
      cases hrun
      exact .inr ⟨r, rv, m, s₁, hchild, done, rest, _, rvs, ms, rfl, hchildren⟩
  · rintro (⟨rfl, rfl, rfl⟩ | ⟨r, rval, m, s₁, hchild, done, rest, h', rvs, ms, rfl, hrun⟩)
    · refine ⟨[], as, List.forall_mem_nil _, 0, [], rfl, ?_⟩
      rw [dumpChildren]
      rfl
    · have hdone : ∀ b ∈ a :: done, T.owner b = d := by
        intro b hb
        rcases List.mem_cons.1 hb with rfl | hb
        · exact h b List.mem_cons_self
        · exact h' b hb
      refine ⟨a :: done, rest, hdone, rval + rvs, if m.isUnset then ms
        else .map "" [(String.ofList (T.name (T.entry a)), m)] :: ms, rfl, ?_⟩
      rw [dumpChildren_cons]
      exact exec_bind_ok.2 ⟨_, _, hchild, exec_bind_ok.2 ⟨_, _, hrun, rfl⟩⟩

/-- The loop over the children ends in an error where the dump of a child does. -/
theorem dumpChildren_error {as : List Addr} (h : ∀ a ∈ as, T.owner a = d) :
    (dumpChildren T d p as h).exec s = (.error err, s') ↔
      ∃ q s₁ a, ReachesChild T d p s as q s₁ a ∧
        (dumpChild T a q).exec s₁ = (.error err, s') := by
  induction as generalizing p s with
  | nil =>
    rw [dumpChildren]
    constructor
    · intro h
      cases h
    · rintro ⟨q, s₁, a, ⟨done, rest, -, -, -, h, -⟩, -⟩
      exact absurd h (by simp)
  | cons a as ih =>
    simp only [reachesChild_cons h]
    rw [dumpChildren_cons, exec_bind_error]
    constructor
    · rintro (he | ⟨⟨r, rval, m⟩, s₁, hchild, he⟩)
      · exact ⟨p, s, a, .inl ⟨rfl, rfl, rfl⟩, he⟩
      · rcases exec_bind_error.1 he with he | ⟨_, _, -, he⟩
        · obtain ⟨q, s₂, b, hr, he⟩ := (ih _).1 he
          exact ⟨q, s₂, b, .inr ⟨r, rval, m, s₁, hchild, hr⟩, he⟩
        · cases he
    · rintro ⟨q, s₁, b, ⟨rfl, rfl, rfl⟩ | ⟨r, rval, m, s₂, hchild, hr⟩, he⟩
      · exact .inl he
      · exact .inr ⟨_, _, hchild, exec_bind_error.2 (.inl ((ih _).2 ⟨q, s₁, b, hr, he⟩))⟩

theorem appendAddress_not_notFound {a : Addr} {f t : ℤ} {e : PathError}
    (h : p.appendAddress T.toHierarchy a f t = .error e) :
    (CPSWError.ofPath e).type ≠ .notFound := by
  unfold appendAddress at h
  split at h
  · cases h
  · cases h
    nofun

/-- A dump of a new node ends in a `NotFoundError` exactly if a class that it calls does. -/
theorem dumpNew_notFound :
    (∃ err s', (dumpNew T d p).exec s = (.error err, s') ∧ err.type = .notFound) ↔
      ∃ e q m s₁, NewCalls T d p s e q m s₁ ∧ Throws T true e q m s₁ := by
  constructor
  · rintro ⟨err, s', h, hn⟩
    induction hh : T.height d using Nat.strongRecOn generalizing d p s with
    | ind n ih =>
      subst hh
      rw [dumpNew] at h
      rcases exec_bind_error.1 h with h | ⟨own, s₀, hown, h⟩
      · exact ⟨d, p, .null, s, .self, err, s', h, hn⟩
      · rcases exec_bind_error.1 h with h | ⟨_, _, -, h⟩
        · obtain ⟨q, s₁, a, hr, h⟩ := (dumpChildren_error _).1 h
          have howner : T.owner a = d := by
            obtain ⟨done, rest, -, -, -, has, -⟩ := hr
            exact T.owner_of_mem a d (by simp [has])
          rw [dumpChild] at h
          rcases exec_bind_error.1 h with h | ⟨r, s₂, happ, h⟩
          · obtain ⟨e, ha, rfl, -⟩ := exec_liftPath_error.1 h
            exact absurd hn (appendAddress_not_notFound ha)
          · obtain ⟨ha, rfl⟩ := exec_liftPath_ok.1 happ
            split_ifs at h with hd
            · have hlt := T.height_lt a
              rw [howner] at hlt
              obtain ⟨e, r', m, s₃, hcalls, ht⟩ := ih _ hlt h rfl
              exact ⟨e, r', m, s₃, .hub hown hr ha hd hcalls, ht⟩
            · rcases exec_bind_error.1 h with h | ⟨_, _, -, h⟩
              · exact ⟨_, r, .null, s₁, .leaf hown hr ha (by simpa using hd), err, s', h, hn⟩
              · cases h
        · cases h
  · rintro ⟨e, q, m, s₁, hcalls, ht⟩
    induction hcalls with
    | @self d p s =>
      obtain ⟨err, s', h, hn⟩ := ht
      refine ⟨err, s', ?_, hn⟩
      rw [dumpNew]
      exact exec_bind_error.2 (.inl h)
    | @leaf d p s own s₀ q s₁ a r hown hr ha hd =>
      obtain ⟨err, s', h, hn⟩ := ht
      refine ⟨err, s', ?_, hn⟩
      rw [dumpNew]
      refine exec_bind_error.2 (.inr ⟨_, _, hown, exec_bind_error.2 (.inl ?_)⟩)
      refine (dumpChildren_error _).2 ⟨q, s₁, a, hr, ?_⟩
      rw [dumpChild, ha, hd]
      exact exec_bind_error.2 (.inr ⟨r, s₁, rfl, exec_bind_error.2 (.inl h)⟩)
    | @hub d p s own s₀ q s₁ a r e r' m s₂ hown hr ha hd hcalls ih =>
      obtain ⟨err, s', h, hn⟩ := ih ht
      refine ⟨err, s', ?_, hn⟩
      rw [dumpNew]
      refine exec_bind_error.2 (.inr ⟨_, _, hown, exec_bind_error.2 (.inl ?_)⟩)
      refine (dumpChildren_error _).2 ⟨q, s₁, a, hr, ?_⟩
      rw [dumpChild, ha, hd]
      exact exec_bind_error.2 (.inr ⟨r, s₁, rfl, h⟩)

theorem devProcess_seq_notFound {tag : String} :
    (∃ err s', (devProcess T doDump d p (.seq tag items)).exec s = (.error err, s') ∧
      err.type = .notFound) ↔
      ∃ q s₁ m, Reaches T doDump d p s items q s₁ m ∧ m.tag = YAML_KEY_value ∧
        Throws T doDump d q m s₁ := by
  rw [devProcess]
  constructor
  · rintro ⟨err, s', h, hn⟩
    rcases exec_bind_error.1 h with h | ⟨_, _, -, h⟩
    · obtain ⟨q, s₁, m, hr, h⟩ := processItems_error.1 h
      exact ⟨q, s₁, m, hr, processItem_notFound h hn⟩
    · cases h
  · rintro ⟨q, s₁, m, hr, hm, ht⟩
    obtain ⟨err, s', h, hn⟩ := processItem_throws hm ht
    exact ⟨err, s', exec_bind_error.2 (.inl (processItems_error.2 ⟨q, s₁, m, hr, h⟩)), hn⟩

theorem devProcess_unset (hn : n.isUnset = true) : devProcess T doDump d p n =
    if doDump then dumpNew T d p
    else throw ⟨.configuration, "No YAML node to process (loadConfig)".toList⟩ := by
  cases n with
  | undefined => rw [devProcess]
  | null => rw [devProcess]
  | _ => cases hn

omit [DecidableEq Ent] in
/-- The outcome of the dispatch is that of the entry at the tail. -/
theorem viaPath_error {dev : Ent → PathImpl Ent Addr → ConfigM σ (PathImpl Ent Addr × ℕ × Node)} :
    (viaPath T doDump dev p n).exec s = (.error err, s') ↔
      if T.isDev (p.tailEntry T.toHierarchy) then
        (dev (p.tailEntry T.toHierarchy) p).exec s = (.error err, s')
      else (entryProcess T doDump (p.tailEntry T.toHierarchy) p n).exec s = (.error err, s') := by
  unfold viaPath
  dsimp only
  split_ifs
  · rw [exec_bind_error]
    constructor
    · rintro (h | ⟨_, _, -, h⟩)
      · exact h
      · cases h
    · exact .inl
  · rfl

/-- The processing of a node ends in a `NotFoundError` exactly if a class that it calls does. -/
theorem pathProcess_notFound :
    (∃ err s', (pathProcess T doDump p n).exec s = (.error err, s') ∧ err.type = .notFound) ↔
      ∃ e q m s₁, Calls T doDump p n s e q m s₁ ∧ Throws T doDump e q m s₁ := by
  simp only [pathProcess, viaPath_error]
  constructor
  · intro h
    cases hd : T.isDev (p.tailEntry T.toHierarchy) with
    | false =>
      simp only [hd, Bool.false_eq_true, if_false] at h
      exact ⟨_, p, n, s, .entry hd, h⟩
    | true =>
      simp only [hd, if_true] at h
      cases hu : n.isUnset with
      | true =>
        rw [devProcess_unset hu] at h
        cases doDump with
        | true =>
          obtain ⟨e, q, m, s₁, hcalls, ht⟩ := dumpNew_notFound.1 h
          exact ⟨e, q, m, s₁, .new hd rfl hu hcalls, ht⟩
        | false =>
          obtain ⟨err, s', h, hn⟩ := h
          cases h
          cases hn
      | false =>
        cases n with
        | seq tag items =>
          obtain ⟨q, s₁, m, hr, hm, ht⟩ := devProcess_seq_notFound.1 h
          exact ⟨_, q, m, s₁, .item hd hr hm, ht⟩
        | undefined => cases hu
        | null => cases hu
        | _ =>
          rw [devProcess] at h
          obtain ⟨err, s', h, hn⟩ := h
          cases h
          cases hn
  · rintro ⟨e, q, m, s₁, hcalls, ht⟩
    cases hcalls with
    | entry hd =>
      simp only [hd, Bool.false_eq_true, if_false]
      exact ht
    | item hd hr hm =>
      simp only [hd, if_true]
      exact devProcess_seq_notFound.2 ⟨q, s₁, m, hr, hm, ht⟩
    | new hd hdump hu hcalls =>
      simp only [hd, if_true]
      subst hdump
      rw [devProcess_unset hu, if_pos rfl]
      exact dumpNew_notFound.2 ⟨e, q, m, s₁, hcalls, ht⟩

/-- Where the path ends at the hub, an item that is not cut short keeps it. -/
theorem strip_append (hd : p.tailEntry T.toHierarchy = d) (ho : r.originDev = d)
    (ha : p.append T.toHierarchy r = .ok q) : strip r.entries.length q = p := by
  unfold append append2 at ha
  rw [strip_eq]
  split_ifs at ha with hr
  · cases ha
    simp [hr]
  · have hv : p.verifyAtTail T.toHierarchy r.originDev = some p := by
      unfold verifyAtTail
      split_ifs with h₁ h₂
      · have : p.originDev = d := by simpa [tailEntry, h₁] using hd
        obtain ⟨o, xs⟩ := p
        simp_all
      · rfl
      · exact absurd (ho.trans hd.symm) h₂
    rw [hv] at ha
    cases ha
    simp

omit [DecidableEq Ent] in
theorem findByName_originDev {text : List Char} (h : p.findByName T.toHierarchy text = .ok q) :
    q.originDev = p.originDev := by
  apply findByName_keeps (I := fun q ↦ q.originDev = p.originDev) _ rfl h
  intro p' q' s comp hp hq
  rcases findComponent_ok hq with ⟨-, -, rfl⟩ | ⟨a, f, t, -, -, rfl⟩
  · exact hp
  · exact hp

/-- An item that is not cut short keeps the path. -/
theorem processItem_keeps {rval : ℕ} (hd : p.tailEntry T.toHierarchy = d)
    (h : (processItem T doDump d p item).exec s = (.ok (r, rval, n), s'))
    (hc : ¬CutShort T doDump d p s item) : r = p := by
  rcases processItem_ok h with hr | ⟨tag, key, value, descendant, q, rfl, ht, hf, ha⟩
  · exact hr
  · have ho : descendant.originDev = d := findByName_originDev hf
    rw [processItem_pair ht hf ha] at h
    split at h
    · cases h
      exact strip_append hd ho ha
    case h_2 err s₁ herr =>
      split_ifs at h with hn
      · cases h
        by_cases hempty : descendant.entries = []
        · rw [append, if_pos hempty] at ha
          cases ha
          rfl
        · obtain ⟨e, q, m, s₁, hcalls, hthrows⟩ := pathProcess_notFound.1 ⟨err, s', herr, hn⟩
          exact absurd ⟨tag, key, value, descendant, _, e, q, m, s₁, rfl, ht, hf, hempty, ha,
            hcalls, hthrows⟩ hc
      · cases h

/-- An item that is cut short leaves the descendant on the path. -/
theorem CutShort.extends (h : CutShort T doDump d p s item) : ∃ q rval n s',
    (processItem T doDump d p item).exec s = (.ok (q, rval, n), s') ∧
      p.entries.length < q.entries.length := by
  obtain ⟨tag, key, value, descendant, q, e, r, m, s₁, rfl, ht, hf, hempty, ha, hcalls, hthrows⟩ := h
  obtain ⟨err, s', herr, hn⟩ := pathProcess_notFound.2 ⟨e, r, m, s₁, hcalls, hthrows⟩
  refine ⟨q, 0, .undefined, s', ?_, ?_⟩
  · rw [processItem_pair ht hf ha, herr]
    exact if_pos hn
  · obtain ⟨xs, hlen, hxs⟩ := append_ok ha
    have hpos := List.length_pos_of_ne_nil hempty
    rw [hxs, List.length_append]
    omega

theorem Reaches.path_eq (hd : p.tailEntry T.toHierarchy = d)
    (hr : Reaches T doDump d p s items q s' item)
    (hc : ∀ p₁ s₁ item, Reaches T doDump d p s items p₁ s₁ item →
      ¬CutShort T doDump d p₁ s₁ item) : q = p := by
  induction items generalizing s with
  | nil =>
    obtain ⟨done, rest, -, -, h, -⟩ := hr
    exact absurd h (by simp)
  | cons n items ih =>
    rcases reaches_cons.1 hr with ⟨rfl, -, -⟩ | ⟨r, rval, m, s₁, hrun, hnext⟩
    · rfl
    · have hrp : r = p :=
        processItem_keeps hd hrun (hc p s n (reaches_cons.2 (.inl ⟨rfl, rfl, rfl⟩)))
      subst hrp
      apply ih hnext
      intro p₂ s₂ item₂ hr₂
      exact hc p₂ s₂ item₂ (reaches_cons.2 (.inr ⟨r, rval, m, s₁, hrun, hr₂⟩))

/-- The path is kept exactly if no item is cut short. -/
theorem keepsPath_iff : KeepsPath T doDump p s items ↔ ∀ p₁ s₁ item,
    Reaches T doDump (p.tailEntry T.toHierarchy) p s items p₁ s₁ item →
      ¬CutShort T doDump (p.tailEntry T.toHierarchy) p₁ s₁ item := by
  constructor
  · intro h p₁ s₁ item hr hc
    obtain ⟨q, rval, n, s', hrun, hlt⟩ := hc.extends
    obtain ⟨rfl, rfl⟩ := h p₁ s₁ item q rval n s' hr hrun
    exact absurd hlt (lt_irrefl _)
  · intro h p₁ s₁ item p₂ rval n s₂ hr hrun
    have hp : p₁ = p := hr.path_eq rfl h
    subst hp
    exact ⟨rfl, processItem_keeps rfl hrun (h _ s₁ item hr)⟩

/-- A hub with a command and a register. -/
def withCommand : Hierarchy (Fin 3) (Fin 2) where
  name e := if e = 0 then ['r'] else if e = 1 then ['c', 'm', 'd'] else ['r', 'e', 'g']
  isDev e := e = 0
  children e := if e = 0 then [0, 1] else []
  owner _ := 0
  entry a := a.succ
  nelms _ := 1
  depth e := if e = 0 then 0 else 1
  mem_children := by decide
  isDev_owner := by decide
  names_nodup := by decide
  entry_inj := by decide
  depth_lt := by decide

/-- The command addresses an entry that the hub does not have; the state is what has been
loaded. -/
def staleCommand : Devices (Fin 3) (Fin 2) (List (Fin 3)) where
  toHierarchy := withCommand
  configPrioList e := if e = 0 then [0, 1] else []
  owner_of_mem := by decide
  height e := if e = 0 then 1 else 0
  height_lt := by decide
  dumpMyConfigToYaml e _ _ :=
    if e = 0 then return (0, .undefined) else return (1, .scalar "" (if e = 1 then "exec" else "0"))
  loadMyConfigFromYaml e p _ :=
    if e = 0 then
      throw ⟨.configuration, "This class doesn't implement loadMyConfigFromYaml".toList⟩
    else if e = 1 then
      loadCommand withCommand
        ⟨fun _ _ ↦ throw ⟨.interfaceNotImplemented, []⟩,
          fun _ ↦ throw ⟨.interfaceNotImplemented, []⟩, fun _ ↦ return 0⟩
        ⟨['c', 'm', 'd'], [(['g', 'o', 'n', 'e'], 1)], [0, 1]⟩ p
    else do
      modify (· ++ [e])
      return 1

def commandItem : Node := .map "" [("cmd", .scalar "" "exec")]

def registerItem : Node := .map "" [("reg", .scalar "" "5")]

/-- The command stays on the path, and the register is looked for in it; without the command the
register is loaded. -/
theorem not_keepsPath :
    ¬KeepsPath staleCommand false (create 0) [] [commandItem, registerItem] ∧
      ((pathProcess staleCommand false (create 0) (.seq "" [commandItem, registerItem])).exec []).1.map
        Prod.fst = .error ⟨.invalidPath, "/reg".toList⟩ ∧
      ((pathProcess staleCommand false (create 0) (.seq "" [registerItem])).exec []).1.map Prod.fst =
        .ok 1 := by
  refine ⟨?_, ?_, ?_⟩
  · intro h
    have hcut : ((processItem staleCommand false 0 (create 0) commandItem).exec []).1.map Prod.fst =
        .ok ⟨0, [⟨0, 0, 0, 1⟩]⟩ := by decide +kernel
    rcases hrun : (processItem staleCommand false 0 (create 0) commandItem).exec [] with
      ⟨err | ⟨q, rval, n⟩, s⟩
    · rw [hrun] at hcut
      cases hcut
    · rw [hrun] at hcut
      cases hcut
      have hr : Reaches staleCommand false 0 (create 0) [] [commandItem, registerItem] (create 0) []
          commandItem := reaches_cons.2 (.inl ⟨rfl, rfl, rfl⟩)
      obtain ⟨-, hq⟩ := h _ _ _ _ _ _ _ hr hrun
      cases hq
  · decide +kernel
  · decide +kernel

end Cpsw.Config
