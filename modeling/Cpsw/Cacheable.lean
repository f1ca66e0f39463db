import Mathlib.Data.Fintype.Basic

namespace Cpsw

/-- `IField::Cacheable` -/
inductive Cacheable
  | UNKNOWN_CACHEABLE
  | NOT_CACHEABLE
  | WT_CACHEABLE
  | WB_CACHEABLE
  deriving DecidableEq, Repr

/-- The order of the enumeration. -/
def Cacheable.val : Cacheable → ℕ
  | .UNKNOWN_CACHEABLE => 0
  | .NOT_CACHEABLE => 1
  | .WT_CACHEABLE => 2
  | .WB_CACHEABLE => 3

end Cpsw
