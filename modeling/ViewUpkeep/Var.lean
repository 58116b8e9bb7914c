/-!
Query variables. Source text names them by identifiers; two further kinds cannot be written there:
the anonymous variables that stand for wildcards, and the variable that holds the changed row while
a view is brought up to date.
-/
namespace ViewUpkeep

structure Var where
  name : String
deriving DecidableEq, Repr, Inhabited

namespace Var

def anonymousMark : String := "_#"

/-- The anonymous variable of a comprehension's wildcard number `n`. -/
def anonymous (n : Nat) : Var := ⟨anonymousMark ++ toString n⟩

/-- The variable that holds the changed row. -/
def delta : Var := ⟨"#e"⟩

def isAnonymous (v : Var) : Bool := anonymousMark.toList.isPrefixOf v.name.toList

def print (v : Var) : String := if v.isAnonymous then "_" else v.name

def le (v w : Var) : Bool := decide (v.name ≤ w.name)

def sortUnique (vs : List Var) : List Var := vs.eraseDups.mergeSort le

end Var

/-- Names with commas between them, in parentheses unless there is exactly one. -/
def printPattern : List Var → String
  | [v] => v.print
  | vs => "(" ++ ", ".intercalate (vs.map Var.print) ++ ")"

end ViewUpkeep
