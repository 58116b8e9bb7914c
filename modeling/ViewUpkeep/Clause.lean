import ViewUpkeep.Code

/-!
Clauses, the conditions of a comprehension. A clause binds the variables of its pattern or tests
variables bound before; given which are bound, it has a rating for the planner and code that runs a
body once for each way to satisfy it.
-/
namespace ViewUpkeep

/-- How good a clause is as the next one to run, best first. -/
inductive Rate where
  | first
  | constantMembership
  | constant
  | normal
  | notPreferred
  | unrunnable
deriving DecidableEq, Repr

def Rate.rank : Rate → Nat
  | .first => 0
  | .constantMembership => 1
  | .constant => 2
  | .normal => 3
  | .notPreferred => 4
  | .unrunnable => 5

inductive Clause where
  /-- A row of a set. -/
  | member (lhs : List Var) (rel : String)
  /-- A row of a map, whose first variables are the key. -/
  | mapMember (lhs : List Var) (rel : String) (keyArity : Nat)
  /-- The tuple of an expression. -/
  | singleton (lhs : List Var) (expr : Expr)
  /-- One given row of a relation. -/
  | delta (lhs : List Var) (rel : String) (value : Expr)
  /-- All but one given row. -/
  | without (inner : Clause) (value : Expr)
  /-- One given row besides. -/
  | withExtra (inner : Clause) (value : Expr)
  /-- A row of a demanded query, whose first variables are the arguments. -/
  | demand (inner : Clause) (query : String) (params : List Var)
  | cond (expr : Expr)
deriving DecidableEq, Inhabited

namespace Clause

def lhs : Clause → List Var
  | .member lhs _ | .mapMember lhs _ _ | .singleton lhs _ | .delta lhs _ _ => lhs
  | .without inner _ | .withExtra inner _ | .demand inner _ _ => inner.lhs
  | .cond _ => []

def enumVars (c : Clause) : List Var := c.lhs.eraseDups

def readVars : Clause → List Var
  | .singleton _ expr | .cond expr => expr.vars
  | _ => []

def vars (c : Clause) : List Var :=
  ((c.enumVars ++ c.readVars).filter fun v => v ≠ Var.delta).eraseDups

/-- The variables that the clause binds without help from others. -/
def constrainedVars : Clause → List Var
  | .demand inner _ params => inner.enumVars.filter fun v => !params.contains v
  | .cond _ => []
  | c => c.enumVars

def rel? : Clause → Option String
  | .member _ rel | .mapMember _ rel _ => some rel
  | .without inner _ | .withExtra inner _ | .demand inner _ _ => inner.rel?
  | .singleton .. | .delta .. | .cond _ => none

def isMembership : Clause → Bool
  | .cond _ => false
  | _ => true

def areBound (bound vs : List Var) : Bool := vs.all fun v => bound.contains v

def memberRate (lhs bound : List Var) : Rate :=
  if areBound bound lhs then .constantMembership
  else if lhs.any fun v => bound.contains v then .normal
  else .notPreferred

def rate (bound : List Var) : Clause → Rate
  | .member lhs _ => memberRate lhs bound
  | .mapMember lhs _ keyArity =>
    if areBound bound (lhs.take keyArity) then
      if areBound bound lhs then .constantMembership else .constant
    else memberRate lhs bound
  | .singleton _ expr | .cond expr =>
    if areBound bound expr.vars then .constant else .unrunnable
  | .delta .. => .first
  | .without inner _ | .withExtra inner _ => inner.rate bound
  | .demand inner _ params => if areBound bound params then inner.rate bound else .unrunnable

def print : Clause → String
  | .member lhs rel | .mapMember lhs rel _ => printPattern lhs ++ " in " ++ rel
  | .singleton [v] (.tuple [e]) => v.print ++ " in \x7b" ++ e.print ++ "\x7d"
  | .singleton lhs expr => printPattern lhs ++ " in \x7b" ++ expr.print ++ "\x7d"
  | .delta lhs rel value => printPattern lhs ++ " in \x7b" ++ value.print ++ "\x7d from " ++ rel
  | .without inner value => inner.print ++ " - \x7b" ++ value.print ++ "\x7d"
  | .withExtra inner value => inner.print ++ " + \x7b" ++ value.print ++ "\x7d"
  | .demand inner query params =>
    printPattern (inner.lhs.drop params.length) ++ " in " ++ query ++ "(" ++
      ", ".intercalate (params.map Var.print) ++ ")"
  | .cond expr => expr.print

structure Unready where
  clause : Clause
  var : Var
deriving DecidableEq

/-- Checks that variables are bound; the changed row always is. -/
def require (c : Clause) (bound vs : List Var) : Except Unready Unit :=
  match vs.find? fun v => !bound.contains v && v ≠ Var.delta with
  | some v => .error ⟨c, v⟩
  | none => .ok ()

def memberCode (bound lhs : List Var) (rel : String) (body : Code) : Code :=
  let mask := Mask.ofPattern lhs bound
  if mask.allBound then .member rel lhs body
  else if mask.allUnbound then .scan rel lhs body
  else .lookup rel mask lhs body

/-- Code that runs a body for each way to satisfy the clause. -/
def code (bound : List Var) : Clause → Code → Except Unready Code
  | .member lhs rel, body | .mapMember lhs rel _, body => .ok (memberCode bound lhs rel body)
  | .singleton lhs expr, body => do
    require (.singleton lhs expr) bound expr.vars
    return .bind lhs expr body
  | .delta lhs _ value, body => .ok (.bind lhs value body)
  | .without inner value, body =>
    inner.code bound (.test (.binary .ne (.tupleOf inner.lhs) value) body)
  | .withExtra inner value, body => do
    let present ← inner.code bound body
    return .block [present, .bind inner.lhs value body]
  | .demand inner query params, body => do
    require (.demand inner query params) bound params
    inner.code bound body
  | .cond expr, body => do
    require (.cond expr) bound expr.vars
    return .test expr body

def singletonize (c : Clause) (value : Expr) : Clause := .delta c.lhs (c.rel?.getD "") value

def onRelation (c : Clause) (rel : String) : Clause := .member c.lhs rel

/-- The variables by which rows of the clause can be filtered. -/
def tagsIn : Clause → List Var
  | .member lhs _ | .mapMember lhs _ _ => lhs.eraseDups
  | .without inner _ | .withExtra inner _ => inner.tagsIn
  | .demand _ _ params => params.eraseDups
  | .singleton .. | .delta .. | .cond _ => []

/-- The variables whose values the clause can provide to later ones. -/
def tagsOut : Clause → List Var
  | .member lhs _ | .mapMember lhs _ _ => lhs.eraseDups
  | .without inner _ | .withExtra inner _ => inner.tagsOut
  | .demand inner _ params => (inner.lhs.drop params.length).eraseDups
  | .singleton .. | .delta .. | .cond _ => []

/-- Whether the clause would range over rows that nobody asked for. -/
def needsFiltering (bound : List Var) : Clause → Bool
  | .member lhs _ => !areBound bound lhs
  | .mapMember lhs _ keyArity => !areBound bound (lhs.take keyArity) && !areBound bound lhs
  | .without inner _ | .withExtra inner _ => inner.needsFiltering bound
  | .demand .. | .singleton .. | .delta .. | .cond _ => false

end Clause

end ViewUpkeep
