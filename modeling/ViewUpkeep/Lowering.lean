import ViewUpkeep.CompileError
import ViewUpkeep.Comprehension
import ViewUpkeep.Expr.Eval
import ViewUpkeep.Relation
import ViewUpkeep.Statement

/-! From a query as written to a comprehension over the relations and queries that it names. -/
namespace ViewUpkeep

structure Signature where
  name : String
  params : Nat
  arity : Nat
  mode : Mode
  /-- Whether all rows can be listed without arguments. -/
  enumerable : Bool

/-- The relations and queries that a query may read. -/
structure Scope where
  relations : List RelationInfo
  queries : List Signature

namespace Scope

def relation? (s : Scope) (name : String) : Option RelationInfo := s.relations.find? (·.name = name)

def query? (s : Scope) (name : String) : Option Signature := s.queries.find? (·.name = name)

end Scope

namespace Term

/-- Minus before an expression, computed at once for a constant that has a negative. -/
def minus (e : Expr) : Expr :=
  match e with
  | .const (.int n) =>
    match fitInt (-n.toInt) with
    | some m => .const (.int m)
    | none => .neg e
  | _ => .neg e

mutual

def toExpr : Term → Except Malformed Expr
  | .var name => .ok (.var ⟨name⟩)
  | .wildcard => .error .wildcardOutsidePattern
  | .int n => .ok (.const (.int n))
  | .str s => .ok (.const (.str s))
  | .bool b => .ok (.const (.bool b))
  | .tuple items => do return .tuple (← toExprs items)
  | .not t => do return .not (← t.toExpr)
  | .neg t => do return minus (← t.toExpr)
  | .binary op l r => do
    let a ← l.toExpr
    let b ← r.toExpr
    return .binary op a b

def toExprs : List Term → Except Malformed (List Expr)
  | [] => .ok []
  | t :: ts => do
    let e ← t.toExpr
    let es ← toExprs ts
    return e :: es

end

/-- A variable of a pattern, given how many wildcards came before, and how many there are then. -/
def patternVar (n : Nat) : Term → Except Malformed (Var × Nat)
  | .var name => .ok (⟨name⟩, n)
  | .wildcard => .ok (.anonymous n, n + 1)
  | t => .error (.patternElement t.print)

def patternVars (n : Nat) : List Term → Except Malformed (List Var × Nat)
  | [] => .ok ([], n)
  | t :: ts => do
    let (v, n) ← t.patternVar n
    let (vs, n) ← patternVars n ts
    return (v :: vs, n)

def pattern (n : Nat) : Term → Except Malformed (List Var × Nat)
  | .tuple items => patternVars n items
  | t => do
    let (v, n) ← t.patternVar n
    return ([v], n)

def isTuple : Term → Bool
  | .tuple _ => true
  | _ => false

def argument (query : String) : Term → Except Malformed Var
  | .var name => .ok ⟨name⟩
  | t => .error (.argumentNotVariable t.print query)

def arguments (query : String) : List Term → Except Malformed (List Var)
  | [] => .ok []
  | t :: ts => do
    let v ← t.argument query
    let vs ← arguments query ts
    return v :: vs

end Term

namespace Lowering

structure Context where
  query : String
  mode : Mode
  scope : Scope

def Context.check (c : Context) (r : Except Malformed α) : Except CompileError α :=
  match r with
  | .ok a => .ok a
  | .error e => .error (.malformedQuery c.query e)

def Context.checkArity (c : Context) (name : String) (expected found : Nat) :
    Except CompileError Unit :=
  if found = expected then .ok () else .error (.arityMismatch c.query name expected found)

def named (c : Context) (name : String) (lhs : List Var) : Except CompileError Clause :=
  match c.scope.relation? name with
  | some info => do
    c.checkArity name info.arity lhs.length
    match info.kind with
    | .set => return .member lhs name
    | .map keyArity => return .mapMember lhs name keyArity
  | none =>
    match c.scope.query? name with
    | none => .error (.unknownRelation c.query name)
    | some sig =>
      if sig.mode = .dem then .error (.malformedQuery c.query (.mustBeApplied name sig.params))
      else if sig.mode = .batch && c.mode ≠ .batch then
        .error (.unmaintainedDependency c.query name)
      else if sig.mode = .batch && !sig.enumerable then
        .error (.malformedQuery c.query (.notEnumerable name))
      else do
        c.checkArity name sig.arity lhs.length
        return .member lhs name

def applied (c : Context) (name : String) (args : List Term) (lhs : List Var) :
    Except CompileError Clause :=
  if (c.scope.relation? name).isSome then
    .error (.malformedQuery c.query (.relationApplied name))
  else
    match c.scope.query? name with
    | none => .error (.unknownRelation c.query name)
    | some sig => do
      let params ← c.check (Term.arguments name args)
      c.checkArity name sig.params params.length
      c.checkArity name (sig.arity - sig.params) lhs.length
      let inner := Clause.member (params ++ lhs) name
      match sig.mode with
      | .dem => return .demand inner name params
      | .inc => return inner
      | .batch =>
        if c.mode = .batch then return .demand inner name params
        else .error (.unmaintainedDependency c.query name)

/-- A clause, given how many wildcards came before, and how many there are then. -/
def clause (c : Context) (n : Nat) : ClauseTerm → Except CompileError (Clause × Nat)
  | .cond t => do
    let e ← c.check t.toExpr
    return (.cond e, n)
  | .member p range => do
    let (lhs, n) ← c.check (p.pattern n)
    match range with
    | .singleton t =>
      let e ← c.check t.toExpr
      return (.singleton lhs (if p.isTuple then e else .tuple [e]), n)
    | .named name none =>
      let cl ← named c name lhs
      return (cl, n)
    | .named name (some args) =>
      let cl ← applied c name args lhs
      return (cl, n)

def clauses (c : Context) (n : Nat) : List (Spanned ClauseTerm) → Except CompileError (List Clause)
  | [] => .ok []
  | s :: rest => do
    let (cl, n) ← clause c n s.node
    let cls ← clauses c n rest
    return cl :: cls

def firstRepeated (seen : List String) : List String → Option String
  | [] => none
  | p :: ps => if seen.contains p then some p else firstRepeated (p :: seen) ps

def query (decl : QueryDecl) (mode : Mode) (scope : Scope) : Except CompileError Comprehension := do
  let c : Context := ⟨decl.name, mode, scope⟩
  match firstRepeated [] decl.params with
  | some p => .error (.malformedQuery decl.name (.repeatedParameter p))
  | none =>
    let result ← c.check decl.result.node.toExpr
    let join ← clauses c 0 decl.clauses
    return ⟨join, result, decl.params.map (⟨·⟩)⟩

end Lowering

end ViewUpkeep
