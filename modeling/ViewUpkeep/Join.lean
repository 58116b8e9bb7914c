import ViewUpkeep.Clause

/-! Joins: clauses that hold together, in no particular order. -/
namespace ViewUpkeep

abbrev Join := List Clause

namespace Join

def vars (j : Join) : List Var := (j.flatMap Clause.vars).eraseDups

def enumVars (j : Join) : List Var := (j.flatMap Clause.enumVars).eraseDups

def constrainedVars (j : Join) : List Var := (j.flatMap Clause.constrainedVars).eraseDups

def rels (j : Join) : List String := (j.filterMap Clause.rel?).eraseDups

def occurrences (j : Join) (rel : String) : List Nat :=
  (j.zipIdx.filter fun p => p.1.rel? = some rel).map Prod.snd

def print (j : Join) : String := ", ".intercalate (j.map Clause.print)

/-- A later occurrence of the changed relation, as a strategy treats it. -/
def adjust (strategy : SelfJoin) (value : Expr) (c : Clause) : Clause :=
  match strategy with
  | .sub => .without c value
  | .aug => .withExtra c value
  | .das | .assumeDisjoint | .assumeDisjointVerify => c

/-- The bindings in which the changed row stands at one occurrence of its relation. Occurrences
before it are left as they are and those after it adjusted. -/
def deltaAt (j : Join) (rel : String) (value : Expr) (strategy : SelfJoin) (place : Nat) : Join :=
  j.zipIdx.map fun p =>
    if p.2 = place then p.1.singletonize value
    else if place < p.2 && p.1.rel? = some rel then adjust strategy value p.1
    else p.1

def deltas (j : Join) (rel : String) (value : Expr) (strategy : SelfJoin) : List (Nat × Join) :=
  (j.occurrences rel).map fun i => (i, j.deltaAt rel value strategy i)

end Join

end ViewUpkeep
