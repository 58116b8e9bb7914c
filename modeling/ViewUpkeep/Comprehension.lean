import ViewUpkeep.Join

/-! Comprehensions: the result of every binding that satisfies a join, under given parameters. -/
namespace ViewUpkeep

structure Comprehension where
  join : Join
  result : Expr
  params : List Var

namespace Comprehension

def localVars (c : Comprehension) : List Var := c.join.enumVars.filter fun v => !c.params.contains v

/-- Whether different bindings always give different rows. -/
def isDuplicateSafe (c : Comprehension) : Bool :=
  c.result.isInjective && c.localVars.all fun v => c.result.vars.contains v

/-- Parameters that no clause enumerates. -/
def unconstrainedParams (c : Comprehension) : List Var :=
  c.params.filter fun p => !c.join.constrainedVars.contains p

def unboundResultVars (c : Comprehension) : List Var :=
  c.result.vars.filter fun v => !c.join.enumVars.contains v && !c.params.contains v

def restrictTo (c : Comprehension) (demandSet : String) : Comprehension :=
  { c with join := .member c.params demandSet :: c.join }

/-- The row of a binding: the parameters, then the components of the result. -/
def output (c : Comprehension) : Expr := .tuple (c.params.map .var ++ c.result.components)

def arity (c : Comprehension) : Nat := c.params.length + c.result.components.length

def print (c : Comprehension) : String :=
  "\x7b" ++ c.result.print ++ " : " ++ c.join.print ++ "\x7d" ++
    if c.params.isEmpty then ""
    else " with params (" ++ ", ".intercalate (c.params.map Var.print) ++ ")"

end Comprehension

end ViewUpkeep
