/-! The binary operators of expressions, their spelling and how tightly they bind. -/
namespace ViewUpkeep

inductive Operator where
  | eq | ne | lt | le | gt | ge
  | and | or
  | add | sub | mul
deriving DecidableEq, Repr

namespace Operator

def symbol : Operator → String
  | .eq => "=="
  | .ne => "!="
  | .lt => "<"
  | .le => "<="
  | .gt => ">"
  | .ge => ">="
  | .and => "and"
  | .or => "or"
  | .add => "+"
  | .sub => "-"
  | .mul => "*"

def precedence : Operator → Nat
  | .or => 1
  | .and => 2
  | .eq | .ne | .lt | .le | .gt | .ge => 4
  | .add | .sub => 5
  | .mul => 6

end Operator

end ViewUpkeep
