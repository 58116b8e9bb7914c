import ViewUpkeep.Operator
import ViewUpkeep.Value

/-! Expressions as they are written, before names are resolved. -/
namespace ViewUpkeep

inductive Term where
  | var (name : String)
  | wildcard
  | int (n : Int64)
  | str (s : String)
  | bool (b : Bool)
  | tuple (items : List Term)
  | not (t : Term)
  | neg (t : Term)
  | binary (op : Operator) (left right : Term)
deriving Inhabited

namespace Term

mutual

def print : Term → String
  | .var name => name
  | .wildcard => "_"
  | .int n => Value.printInt n
  | .str s => Text.quote s
  | .bool b => Value.printBool b
  | .tuple items => printItems items
  | .not t => "not (" ++ t.print ++ ")"
  | .neg t => "-(" ++ t.print ++ ")"
  | .binary op l r => "(" ++ l.print ++ " " ++ op.symbol ++ " " ++ r.print ++ ")"

def printItems : List Term → String
  | [] => "()"
  | [t] => "(" ++ t.print ++ ",)"
  | t :: ts => "(" ++ t.print ++ printTail ts ++ ")"

def printTail : List Term → String
  | [] => ""
  | t :: ts => ", " ++ t.print ++ printTail ts

end

end Term

end ViewUpkeep
