import Cpsw.Hub.Heap

namespace Cpsw.Hub

open Lib

def setCacheable (i : ℕ) (cacheable : Cacheable) : HeapM Unit := do
  let h ← get
  if (h.entry i).cacheable ≠ .UNKNOWN_CACHEABLE ∧ (h.entry i).locked = true then
    throw (.thrown (.configuration "Configuration Error - cannot modify attached device"))
  else modify fun h ↦ h.updateEntry i fun e ↦ { e with cacheable }

def setConfigPrio (i : ℕ) (configPrio : ℤ) : HeapM Unit := do
  let h ← get
  if (h.entry i).configPrio ≠ configPrio ∧ (h.entry i).locked = true then
    throw (.thrown (.configuration "Configuration Error - cannot modify attached device"))
  else modify fun h ↦ h.updateEntry i fun e ↦ { e with configPrio, configPrioSet := true }

def setLocked (i : ℕ) : HeapM Unit :=
  modify fun h ↦ h.updateEntry i fun e ↦ { e with locked := true }

/-- `getEntryImpl` of an address, to be followed. -/
def getEntryImpl (a : ℕ) : HeapM ℕ := do
  let h ← get
  match (h.address a).child with
  | some e => pure e
  | none => throw .stuck

/-- `AddChildVisitor::visit(Field)` -/
def visitField (parent child : ℕ) : HeapM Unit := do
  let h ← get
  if (h.entry parent).cacheable ≠ .UNKNOWN_CACHEABLE ∧
      (h.entry child).cacheable = .UNKNOWN_CACHEABLE then
    setCacheable child (h.entry parent).cacheable
  else pure ()

/-- `AddChildVisitor::visit(Dev)`; the hub becomes the parent. -/
def visitDev (parent child : ℕ) : HeapM ℕ := do
  let h ← get
  if (h.entry child).cacheable = .UNKNOWN_CACHEABLE then do
    visitField parent child
    pure child
  else pure child

/-- `accept` for an `AddChildVisitor`, whose parent is passed on from one entry to the next. -/
def accept : ℕ → ℕ → ℕ → HeapM ℕ
  | 0, _, _ => throw .stuck
  | fuel + 1, parent, i => do
    let h ← get
    match (h.entry i).dev with
    | none => do
      visitField parent i
      pure parent
    | some dev => do
      let parent ← visitDev parent i
      dev.children.entries.foldlM (fun parent p ↦ do
        let e ← getEntryImpl p.2
        accept fuel parent e) parent

namespace CAddressImpl

def attach (a child : ℕ) : HeapM Unit := do
  let h ← get
  match (h.address a).child with
  | some _ => throw (.thrown (.addressAlreadyAttached (h.entry child).name))
  | none => modify fun h ↦ h.updateAddress a fun x ↦ { x with child := some child }

end CAddressImpl

namespace CMMIOAddressImpl

def STRIDE_AUTO : UInt64 := -1

/-- The stride once the child is known. -/
def strideFor (stride size : UInt64) : UInt64 := if stride = STRIDE_AUTO then size else stride

/-- Where the last element would end, in 64 bits. -/
def endOf (offset : UInt64) (nelms : UInt32) (stride size : UInt64) : UInt64 :=
  offset + (nelms - 1).toUInt64 * stride + size

def attach (a child : ℕ) (offset stride : UInt64) : HeapM Unit := do
  let h ← get
  let size := (h.entry child).size
  let stride := strideFor stride size
  modify fun h ↦ h.updateAddress a fun x ↦ { x with kind := .mmio offset stride }
  if endOf offset (h.address a).nelms stride size > (h.entry (h.address a).owner).size then
    throw (.thrown (.addrOutOfRange (h.entry child).name))
  else CAddressImpl.attach a child

end CMMIOAddressImpl

/-- `attach` of the address' class. -/
def attach (a child : ℕ) : HeapM Unit := do
  let h ← get
  match (h.address a).kind with
  | .mmio offset stride => CMMIOAddressImpl.attach a child offset stride
  | _ => CAddressImpl.attach a child

/-- `clone(AKey)` of the address' class. -/
def cloneAddress (a newOwner : ℕ) : HeapM ℕ := do
  let h ← get
  match (h.address a).kind with
  | .comm => throw (.thrown (.internal "Clone not implemented"))
  | .fs false => throw (.thrown (.errno "Unable to dup file descriptor"))
  | _ => do
    modify fun h ↦ h.newAddress { h.address a with owner := newOwner, child := none }
    pure h.addresses

/-- The search for the first address whose priority is not less. -/
def searchPrio (prioOf : ℕ → Option ℤ) (a : ℕ) (prio : ℤ) : List ℕ → Option (List ℕ)
  | [] => none
  | b :: bs => do
    let p ← prioOf b
    if p < prio then (searchPrio prioOf a prio bs).map (b :: ·) else some (a :: b :: bs)

/-- Where `add` puts the address in `configPrioList_`. -/
def insertPrio (prioOf : ℕ → Option ℤ) (a : ℕ) (prio : ℤ) : List ℕ → Option (List ℕ)
  | [] => some [a]
  | front :: l => do
    let p ← prioOf front
    if prio ≤ p then some (a :: front :: l)
    else do
      let q ← prioOf ((front :: l).getLast (List.cons_ne_nil _ _))
      if prio ≥ q then some (front :: l ++ [a]) else searchPrio prioOf a prio (front :: l)

def Heap.prioOf (h : Heap) (a : ℕ) : Option ℤ :=
  (h.address a).child.map fun e ↦ (h.entry e).configPrio

/-- `children_.insert`, and what `add` does when it fails. -/
def insertChild (d a child : ℕ) : HeapM Unit := do
  let h ← get
  let name := (h.entry child).name
  match (h.entry d).dev with
  | none => throw .stuck
  | some dev =>
    match dev.children.insert name a with
    | none => throw (.thrown (.duplicateName name))
    | some children =>
      modify fun h ↦ h.updateEntry d fun e ↦ { e with dev := some { dev with children } }

/-- The part of `add` about the list of priorities; priority 0 means no dumping. -/
def addConfigPrio (d a child : ℕ) : HeapM Unit := do
  let h ← get
  let prio := (h.entry child).configPrio
  if prio = 0 then pure ()
  else
    match (h.entry d).dev with
    | none => throw .stuck
    | some dev =>
      match insertPrio h.prioOf a prio dev.configPrioList with
      | none => throw .stuck
      | some configPrioList =>
        modify fun h ↦ h.updateEntry d fun e ↦ { e with dev := some { dev with configPrioList } }

/-- What `add` does with a child that is not locked. -/
def addUnlocked (fuel d a child : ℕ) : HeapM Unit := do
  let _ ← accept fuel d child
  setLocked child
  attach a child
  insertChild d a child
  addConfigPrio d a child

/-- `CDevImpl::add`, given how entries are cloned. -/
def addWith (clone : ℕ → HeapM ℕ) (fuel d a child : ℕ) : HeapM Unit := do
  let h ← get
  if (h.entry child).locked = true then do
    let e ← clone child
    addUnlocked fuel d a e
  else addUnlocked fuel d a child

/-- The copy constructors of the entries; children are added later. -/
def Entry.copy (o : Entry) : Entry :=
  { o with
    cacheable := if o.dev.isSome then .WB_CACHEABLE else .UNKNOWN_CACHEABLE
    configPrio := 0
    configPrioSet := false
    locked := false
    dev := o.dev.map fun _ ↦ .empty }

/-- `CEntryImpl::postHook` -/
def postHook (i : ℕ) : HeapM Unit := do
  let h ← get
  if (h.entry i).configPrioSet = true then pure ()
  else setConfigPrio i (h.entry i).defaultConfigPrio

/-- `CShObj::clone` of an entry; `postHook` of a hub adds clones of the children. -/
def clone : ℕ → ℕ → HeapM ℕ
  | 0, _ => throw .stuck
  | fuel + 1, i => do
    let h ← get
    modify fun h ↦ h.newEntry (h.entry i).copy
    postHook h.entries
    match (h.entry i).dev with
    | none => pure h.entries
    | some dev => do
      dev.children.entries.forM fun p ↦ do
        let a ← cloneAddress p.2 h.entries
        let o ← getEntryImpl p.2
        let e ← clone fuel o
        addWith (clone fuel) fuel h.entries a e
      pure h.entries

/-- `CDevImpl::add` -/
def add (fuel d a child : ℕ) : HeapM Unit := addWith (clone fuel) fuel d a child

end Cpsw.Hub
