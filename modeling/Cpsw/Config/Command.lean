import Cpsw.Config.Process

namespace Cpsw.Config

open Path

variable {Ent Addr σ : Type} (H : Hierarchy Ent Addr)

/-- The interfaces of the entries that a sequence addresses, and the shell. -/
structure Interfaces (Ent Addr σ : Type) where
  /-- `IScalVal_WO::create(p)->setVal(value)` -/
  setVal : PathImpl Ent Addr → ℕ → ConfigM σ Unit
  /-- `ICommand::create(p)->execute()` -/
  execute : PathImpl Ent Addr → ConfigM σ Unit
  system : List Char → ConfigM σ ℤ

/-- The items of all sequences, and where in `items` each sequence begins, with a marker at the
end. -/
structure SequenceCommandImpl where
  name : List Char
  items : List (List Char × ℕ)
  index : List ℕ

def SINGLE_SEQ : ℕ := 2

variable (I : Interfaces Ent Addr σ) (c : SequenceCommandImpl) (parent p : PathImpl Ent Addr)

/-- One round of the loop of `executeCommand`. -/
def executeItem (item : List Char × ℕ) : ConfigM σ Unit :=
  if "usleep".toList <+: item.1 then return ()
  else if "system(".toList <+: item.1 ∧ item.1.getLast? = some ')' then do
    let cmd := (item.1.drop 7).take (item.1.length - 8)
    let status ← I.system cmd
    if status ≠ 0 then
      throw ⟨.invalidArg, "CSequenceCommandImpl: 'system' execution of '".toList ++ cmd ++
        "' failed -- status = ".toList ++ PathImpl.appendNum status⟩
  else
    tryCatch
      (do
        let p ← liftPath (parent.findByName H item.1)
        tryCatch (I.setVal p item.2) fun e ↦
          if e.type = .interfaceNotImplemented then I.execute p else throw e)
      fun e ↦ throw (e.prepend ("(SequenceCommand: ".toList ++ parent.toString H ++ ['/'] ++
        item.1 ++ ") ".toList))

def executeCommand (arg : ℤ) : ConfigM σ Unit :=
  let arg := if c.index.length - 1 = 1 then 0 else arg
  if arg < 0 ∨ (c.index.length : ℤ) - 1 ≤ arg then
    throw ⟨.invalidArg, "CSequenceCommandImpl: ".toList ++ parent.toString H ++ ['/'] ++ c.name ++
      " - integer arg out of range".toList⟩
  else
    let it := c.index.getD arg.toNat 0
    let ite := c.index.getD (arg.toNat + 1) 0
    ((c.items.drop it).take (ite - it)).forM (executeItem H I parent)

/-- `CCommandImpl::loadMyConfigFromYaml`. The command runs in the hub above it. -/
def loadCommand : ConfigM σ ℕ :=
  if SINGLE_SEQ < c.index.length then
    throw ⟨.interfaceNotImplemented,
      "SequenceCommand with multiple sequences supports only ScalVal_WO interface".toList⟩
  else do
    executeCommand H I c p.up 0
    return 1

end Cpsw.Config
