import Cpsw.Lib.Throw
import Cpsw.Path.FindByName

namespace Cpsw.Config

open Path Lib

inductive ErrorType
  | notFound
  | invalidPath
  | notDev
  | configuration
  | invalidArg
  | interfaceNotImplemented
  /-- Any other class of exceptions. -/
  | other (typeName : String)
  deriving DecidableEq, Repr

structure CPSWError where
  type : ErrorType
  name : List Char
  deriving DecidableEq, Repr

def CPSWError.prepend (s : List Char) (e : CPSWError) : CPSWError := { e with name := s ++ e.name }

def CPSWError.ofPath : PathError → CPSWError
  | .invalidPath text => ⟨.invalidPath, text⟩
  | .notDev name => ⟨.notDev, name⟩
  | .notFound key => ⟨.notFound, key⟩

/-- A `YAML::Node` with its tag; the keys of a map are strings. -/
inductive Node
  | undefined
  | null
  | scalar (tag text : String)
  | seq (tag : String) (items : List Node)
  | map (tag : String) (entries : List (String × Node))

namespace Node

def tag : Node → String
  | undefined => ""
  | null => ""
  | scalar tag _ => tag
  | seq tag _ => tag
  | map tag _ => tag

def setTag (tag : String) : Node → Node
  | undefined => undefined
  | null => null
  | scalar _ text => scalar tag text
  | seq _ items => seq tag items
  | map _ entries => map tag entries

def isDefined : Node → Bool
  | undefined => false
  | _ => true

/-- `!n || n.IsNull()` -/
def isUnset : Node → Bool
  | undefined => true
  | null => true
  | _ => false

/-- `begin() == end()`; entries whose values are undefined are passed over. -/
def isEmpty : Node → Bool
  | seq _ items => items.isEmpty
  | map _ entries => entries.all fun e ↦ !e.2.isDefined
  | _ => true

/-- What remains of an item of a sequence. -/
def cleared (n : Node) : Node := if n.isEmpty then undefined else n

end Node

/-- A state of the devices and of the world is passed on, also by what throws. -/
abbrev ConfigM (σ : Type) := Throw CPSWError σ

/-- Hubs with the order in which they dump their children, and what each class of entries does with
its own node. -/
structure Devices (Ent Addr σ : Type) extends Hierarchy Ent Addr where
  configPrioList : Ent → List Addr
  owner_of_mem : ∀ a d, a ∈ configPrioList d → owner a = d
  height : Ent → ℕ
  height_lt : ∀ a, height (entry a) < height (owner a)
  dumpMyConfigToYaml : Ent → PathImpl Ent Addr → Node → ConfigM σ (ℕ × Node)
  loadMyConfigFromYaml : Ent → PathImpl Ent Addr → Node → ConfigM σ ℕ

variable {Ent Addr σ : Type}

def liftPath {α : Type} : Except PathError α → ConfigM σ α
  | .ok a => pure a
  | .error e => throw (.ofPath e)

def YAML_KEY_value : String := "value"

variable [DecidableEq Ent] (T : Devices Ent Addr σ) (doDump : Bool)

omit [DecidableEq Ent] in
/-- `CEntryImpl::processYamlConfig`. None of the classes changes the path. -/
def entryProcess (e : Ent) (p : PathImpl Ent Addr) (n : Node) : ConfigM σ (ℕ × Node) :=
  if doDump then do
    let (rval, n) ← T.dumpMyConfigToYaml e p n
    return (rval, if n.isDefined then n.setTag YAML_KEY_value else n)
  else do
    let rval ← T.loadMyConfigFromYaml e p n
    return (rval, n)

mutual

/-- `CDevImpl::processYamlConfig` of a new node, for a dump. -/
def dumpNew (d : Ent) (p : PathImpl Ent Addr) : ConfigM σ (PathImpl Ent Addr × ℕ × Node) := do
  let (rval, self) ← entryProcess T true d p .null
  let (p, rvals, items) ← dumpChildren d p (T.configPrioList d) (T.owner_of_mem · d)
  let items := if self.isUnset then items else self :: items
  return (p, rval + rvals, if items.isEmpty then .undefined else .seq "" items)
termination_by (T.height d, 1, 0)

/-- The loop over the children. -/
def dumpChildren (d : Ent) (p : PathImpl Ent Addr) (as : List Addr)
    (h : ∀ a ∈ as, T.owner a = d) : ConfigM σ (PathImpl Ent Addr × ℕ × List Node) :=
  match as with
  | [] => return (p, 0, [])
  | a :: as => do
    let (p, rval, child) ← dumpChild a p
    let (p, rvals, items) ← dumpChildren d p.up as fun b hb ↦ h b (List.mem_cons_of_mem a hb)
    return (p, rval + rvals,
      if child.isUnset then items
      else .map "" [(String.ofList (T.name (T.entry a)), child)] :: items)
termination_by (T.height d, 0, as.length)
decreasing_by
  · rw [h a List.mem_cons_self]
    exact Prod.Lex.right _ (Prod.Lex.right _ (Nat.succ_pos _))
  · exact Prod.Lex.right _ (Prod.Lex.right _ (Nat.lt_succ_self _))

/-- The path is the one that the child got: `up` comes after it. -/
def dumpChild (a : Addr) (p : PathImpl Ent Addr) : ConfigM σ (PathImpl Ent Addr × ℕ × Node) := do
  let p ← liftPath (p.appendAddress T.toHierarchy a 0 (toInt (T.nelms a - 1)))
  if T.isDev (T.entry a) then dumpNew (T.entry a) p
  else do
    let (rval, child) ← entryProcess T true (T.entry a) p .null
    return (p, rval, child)
termination_by (T.height (T.owner a), 0, 0)
decreasing_by exact Prod.Lex.left _ _ (T.height_lt a)

end

/-- `CPathImpl::processYamlConfig` dispatches to the entry at the tail, which gets a copy of the
path. -/
def viaPath (dev : Ent → PathImpl Ent Addr → ConfigM σ (PathImpl Ent Addr × ℕ × Node))
    (p : PathImpl Ent Addr) (n : Node) : ConfigM σ (ℕ × Node) :=
  let e := p.tailEntry T.toHierarchy
  if T.isDev e then do
    let (_, rval, n) ← dev e p
    return (rval, n)
  else entryProcess T doDump e p n

omit [DecidableEq Ent] in
/-- `up`, `n` times. -/
def strip : ℕ → PathImpl Ent Addr → PathImpl Ent Addr
  | 0, p => p
  | n + 1, p => strip n p.up

omit [DecidableEq Ent] in
/-- An item with settings of the hub itself. -/
def valueItem (d : Ent) (p : PathImpl Ent Addr) (item : Node) :
    ConfigM σ (PathImpl Ent Addr × ℕ × Node) := do
  let (rval, item) ← entryProcess T doDump d p item
  return (p, rval, item.cleared)

mutual

/-- `CDevImpl::processYamlConfig` -/
def devProcess (d : Ent) (p : PathImpl Ent Addr) : Node → ConfigM σ (PathImpl Ent Addr × ℕ × Node)
  | .undefined =>
    if doDump then dumpNew T d p
    else throw ⟨.configuration, "No YAML node to process (loadConfig)".toList⟩
  | .null =>
    if doDump then dumpNew T d p
    else throw ⟨.configuration, "No YAML node to process (loadConfig)".toList⟩
  | .scalar _ _ => throw ⟨.configuration, "Unexpected YAML format -- sequence expected".toList⟩
  | .map _ _ => throw ⟨.configuration, "Unexpected YAML format -- sequence expected".toList⟩
  | .seq tag items => do
    let (p, rval, items) ← processItems d p items
    return (p, rval, .seq tag items)

/-- Its loop over the items of a sequence. -/
def processItems (d : Ent) (p : PathImpl Ent Addr) :
    List Node → ConfigM σ (PathImpl Ent Addr × ℕ × List Node)
  | [] => return (p, 0, [])
  | item :: items => do
    let (p, rval, item) ← processItem d p item
    let (p, rvals, items) ← processItems d p items
    return (p, rval + rvals, item :: items)

/-- One round of the loop. What is not found is removed from the item, wherever the exception comes
from; the path stays as it is when it is caught. -/
def processItem (d : Ent) (p : PathImpl Ent Addr) :
    Node → ConfigM σ (PathImpl Ent Addr × ℕ × Node)
  | .map tag [(key, value)] =>
    if tag = YAML_KEY_value then valueItem T doDump d p (.map tag [(key, value)])
    else
      match (PathImpl.create d).findByName T.toHierarchy key.toList with
      | .error e =>
        if (CPSWError.ofPath e).type = .notFound then return (p, 0, .undefined)
        else throw (.ofPath e)
      | .ok descendant => do
        let p ← liftPath (p.append T.toHierarchy descendant)
        tryCatch
          (do
            let (rval, value) ← viaPath T doDump (fun e p ↦ devProcess e p value) p value
            return (strip descendant.entries.length p, rval,
              (Node.map tag [(key, value)]).cleared))
          fun e ↦ if e.type = .notFound then return (p, 0, .undefined) else throw e
  | item =>
    if item.tag = YAML_KEY_value then valueItem T doDump d p item else return (p, 0, item)

end

/-- `CPathImpl::processYamlConfig` -/
def pathProcess (p : PathImpl Ent Addr) (n : Node) : ConfigM σ (ℕ × Node) :=
  viaPath T doDump (fun e p ↦ devProcess T doDump e p n) p n

end Cpsw.Config
