import ViewUpkeep.Demand

/-!
Overruns. A map clause says how many variables of its pattern are the key, and a clause over a
demanded query has the arguments at the start of its pattern. A clause made by hand may promise more
variables than its pattern has: to rate such a map clause, or to print such a demanded clause, is a
breach. The functions here give the first breach that is met, clause by clause in the order in which
they are looked at.
-/
namespace ViewUpkeep

namespace Clause

/-- The key, and the arguments, are within the pattern. -/
def Fits : Clause → Prop
  | .mapMember lhs _ keyArity => keyArity ≤ lhs.length
  | .without inner _ | .withExtra inner _ => inner.Fits
  | .demand inner _ params => params.length ≤ inner.lhs.length ∧ inner.Fits
  | .member .. | .singleton .. | .delta .. | .cond _ => True

/-- The breach of printing a clause; what is inside a demanded clause is not printed. -/
def printBreach? : Clause → Option Breach
  | .demand inner _ params =>
    if params.length ≤ inner.lhs.length then none
    else some (.shortPattern params.length inner.lhs.length)
  | .without inner _ | .withExtra inner _ => inner.printBreach?
  | .member .. | .mapMember .. | .singleton .. | .delta .. | .cond _ => none

def keyBreach? (lhs : List Var) (keyArity : Nat) : Option Breach :=
  if keyArity ≤ lhs.length then none else some (.shortKey keyArity lhs.length)

/-- The breach of rating a clause; a demanded clause without its arguments is not looked into. -/
def rateBreach? (bound : List Var) : Clause → Option Breach
  | .mapMember lhs _ keyArity => keyBreach? lhs keyArity
  | .without inner _ | .withExtra inner _ => inner.rateBreach? bound
  | .demand inner _ params => if areBound bound params then inner.rateBreach? bound else none
  | .member .. | .singleton .. | .delta .. | .cond _ => none

def filterBreach? : Clause → Option Breach
  | .mapMember lhs _ keyArity => keyBreach? lhs keyArity
  | .without inner _ | .withExtra inner _ => inner.filterBreach?
  | .member .. | .singleton .. | .delta .. | .demand .. | .cond _ => none

/-- The breach of making code: a demanded clause without its arguments is printed as the cause. -/
def codeBreach? (bound : List Var) : Clause → Option Breach
  | .demand inner query params =>
    match require (.demand inner query params) bound params with
    | .ok () => inner.codeBreach? bound
    | .error e => e.clause.printBreach?
  | .without inner _ | .withExtra inner _ => inner.codeBreach? bound
  | .member .. | .mapMember .. | .singleton .. | .delta .. | .cond _ => none

def breach? (bound : List Var) (c : Clause) : Option Breach :=
  c.printBreach? <|> c.rateBreach? bound <|> c.filterBreach? <|> c.codeBreach? bound

end Clause

namespace Join

def printBreach? (j : Join) : Option Breach := j.findSome? Clause.printBreach?

def rateBreach? (bound : List Var) (remaining : List (Clause × Nat)) : Option Breach :=
  remaining.findSome? fun p => p.1.rateBreach? bound

end Join

namespace Plan

/-- What the steps of a plan were chosen from: before each of them, and after the last, what was
bound and which clauses were left. -/
def looks (bound : List Var) (remaining : List (Clause × Nat)) :
    List Step → List (List Var × List (Clause × Nat))
  | [] => [(bound, remaining)]
  | s :: rest =>
    (bound, remaining) :: looks s.boundAfter (remaining.eraseP fun p => p.2 = s.index) rest

def breach? (j : Join) (bound : List Var) (estimate : Estimator) : Option Breach :=
  (looks bound j.zipIdx (ofJoin j bound estimate).steps).findSome? fun l => Join.rateBreach? l.1 l.2

end Plan

namespace Handler

/-- The breach of planning changed joins one after the other, up to the first that cannot be
ordered; the clauses that it is stuck on are printed. -/
def planBreach? (estimate : Estimator) : List (Nat × Join) → Option Breach
  | [] => none
  | (_, j) :: rest =>
    Plan.breach? j [Var.delta] estimate <|>
      match (Plan.ofJoin j [Var.delta] estimate).complete with
      | .ok _ => planBreach? estimate rest
      | .error stuck => Join.printBreach? stuck

def breach? (spec : Comprehension) (strategy : SelfJoin) (estimate : Estimator) : Option Breach :=
  planBreach? estimate
    (spec.join.rels.flatMap fun rel => spec.join.deltas rel (.var Var.delta) strategy)

end Handler

namespace Comprehension

def breach? (c : Comprehension) (strategy : SelfJoin) (estimate : Estimator) : Option Breach :=
  Join.printBreach? c.join <|> Handler.breach? c strategy estimate

end Comprehension

namespace Demand

def candidateBreach? (supports : List Support) : Option Breach :=
  supports.findSome? fun s => Join.printBreach? s.spec.join

def breach? (query : String) (j : Join) (filters : Bool) (estimate : Estimator) : Option Breach :=
  match candidates query j filters with
  | .error _ => none
  | .ok supports =>
    candidateBreach? supports <|>
      Handler.planBreach? estimate
        (j.rels.flatMap fun rel => j.deltas rel (.var Var.delta) .das) <|>
      match DemandPlan.ofJoin query j filters estimate with
      | .error _ => none
      | .ok p => Join.printBreach? p.join

end Demand

end ViewUpkeep
