import ViewUpkeep.Expr
import ViewUpkeep.Mask
import ViewUpkeep.Settings

/-!
Update code. Each node binds or tests variables and runs its body for every way to do so; the leaves
record changes of rows. Code only reads relations: what it records is applied later.
-/
namespace ViewUpkeep

inductive Code where
  /-- Runs each item in turn. -/
  | block (items : List Code)
  /-- Every row of a relation. -/
  | scan (rel : String) (pattern : List Var) (body : Code)
  /-- The rows with the bound values at the known positions. -/
  | lookup (rel : String) (mask : Mask) (pattern : List Var) (body : Code)
  /-- Runs the body if the row of the bound values is present. -/
  | member (rel : String) (pattern : List Var) (body : Code)
  /-- Takes the tuple of an expression apart. -/
  | bind (pattern : List Var) (expr : Expr) (body : Code)
  | test (cond : Expr) (body : Code)
  /-- Records a change of the row of an expression. -/
  | update (rel : String) (change : Change) (expr : Expr)
  /-- Runs the branches, then the body for each different binding of the variables that they
  collect; if asked to verify, two branches may not collect the same one. -/
  | union (vars : List Var) (verify : Bool) (branches : List Code) (body : Code)
  /-- Hands the present binding to the union around it. -/
  | collect
deriving Inhabited

namespace Code

/-- Code in turn, without a block around a single item. -/
def ofList : List Code → Code
  | [c] => c
  | items => .block items

mutual

/-- All lookups, a node before its body, a body before its branches, later items first. -/
def lookupNodes : Code → List (String × Mask)
  | .block items => lookupNodesRev items
  | .lookup rel mask _ body => (rel, mask) :: body.lookupNodes
  | .scan _ _ body | .member _ _ body | .bind _ _ body | .test _ body => body.lookupNodes
  | .union _ _ branches body => body.lookupNodes ++ lookupNodesRev branches
  | .update .. | .collect => []

def lookupNodesRev : List Code → List (String × Mask)
  | [] => []
  | c :: cs => lookupNodesRev cs ++ c.lookupNodes

end

def lookups (c : Code) : List (String × Mask) := c.lookupNodes.eraseDups

mutual

def readNodes : Code → List String
  | .block items => readNodesRev items
  | .scan rel _ body | .lookup rel _ _ body | .member rel _ body => rel :: body.readNodes
  | .bind _ _ body | .test _ body => body.readNodes
  | .union _ _ branches body => body.readNodes ++ readNodesRev branches
  | .update .. | .collect => []

def readNodesRev : List Code → List String
  | [] => []
  | c :: cs => readNodesRev cs ++ c.readNodes

end

def reads (c : Code) : List String := c.readNodes.eraseDups

def indent (lines : List String) : List String := lines.map ("    " ++ ·)

mutual

def lines : Code → List String
  | .block [] => ["pass"]
  | .block items => linesAll items
  | .scan rel pattern body => ("for " ++ printPattern pattern ++ " in " ++ rel ++ ":") :: indent body.lines
  | .lookup rel mask pattern body =>
    ("for " ++ printPattern pattern ++ " in " ++ rel ++ ".lookup(" ++ mask.print ++ ", " ++
      printPattern (mask.select pattern) ++ "):") :: indent body.lines
  | .member rel pattern body =>
    ("if " ++ printPattern pattern ++ " in " ++ rel ++ ":") :: indent body.lines
  | .bind pattern expr body => (printPattern pattern ++ " = " ++ expr.print) :: body.lines
  | .test cond body => ("if " ++ cond.print ++ ":") :: indent body.lines
  | .update rel change expr => [rel ++ "." ++ change.print ++ "(" ++ expr.print ++ ")"]
  | .union vars verify branches body =>
    ((if verify then "disjoint union of " else "union of ") ++ printPattern vars ++ ":") ::
      (indent (linesBranches 0 branches) ++
        ("for each " ++ printPattern vars ++ ":") :: indent body.lines)
  | .collect => ["collect"]

def linesAll : List Code → List String
  | [] => []
  | c :: cs => c.lines ++ linesAll cs

def linesBranches (i : Nat) : List Code → List String
  | [] => []
  | c :: cs => ("branch " ++ toString i ++ ":") :: (indent c.lines ++ linesBranches (i + 1) cs)

end

def print (c : Code) : String := String.join (c.lines.map (· ++ "\n"))

end Code

end ViewUpkeep
