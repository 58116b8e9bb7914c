import ViewUpkeep.Breach
import ViewUpkeep.Clause

/-! Why a query, or a whole program, is refused. -/
namespace ViewUpkeep

inductive Malformed where
  | repeatedParameter (name : String)
  | wildcardOutsidePattern
  /-- An element of a pattern, as printed, that is no variable. -/
  | patternElement (text : String)
  | mustBeApplied (name : String) (params : Nat)
  | notEnumerable (name : String)
  | relationApplied (name : String)
  | argumentNotVariable (text name : String)
deriving DecidableEq

def Malformed.message : Malformed → String
  | .repeatedParameter name => "parameter " ++ name ++ " is repeated"
  | .wildcardOutsidePattern => "'_' may only appear in a membership pattern"
  | .patternElement text => "pattern element " ++ text ++ " is not a variable"
  | .mustBeApplied name params =>
    name ++ " is demand driven and must be applied to its " ++ toString params ++ " arguments"
  | .notEnumerable name =>
    name ++ " has parameters no clause enumerates and must be applied to arguments"
  | .relationApplied name => name ++ " is a relation and takes no arguments"
  | .argumentNotVariable text name => "argument " ++ text ++ " of " ++ name ++ " must be a variable"

inductive CompileError where
  | malformedQuery (query : String) (cause : Malformed)
  /-- No clause of the remaining ones can run. -/
  | unorderableJoin (query : String) (stuck : List Clause)
  /-- An argument of a subquery that no earlier clause binds. -/
  | ungroundedArgument (query subquery : String) (param : Var)
  | unknownRelation (query name : String)
  | arityMismatch (query name : String) (expected found : Nat)
  | duplicateDefinition (name : String)
  | unboundResult (query : String) (var : Var)
  /-- A parameter, of a query kept for all parameters, that no clause enumerates. -/
  | unconstrainedParameter (query : String) (param : Var)
  /-- Rows without counts that can be derived twice. -/
  | countingRequired (query : String)
  | recursiveQueries (queries : List String)
  /-- A query that is kept up to date reads one that is not. -/
  | unmaintainedDependency (query dependency : String)
  | invalidOption (query : String) (cause : SettingsError)
  /-- A clause was planned before its variables were bound. -/
  | unready (cause : Clause.Unready)
  /-- A subquery is read before its demand set exists. -/
  | missingDemandSet (query subquery : String)
  | breach (b : Breach)
deriving DecidableEq

namespace CompileError

def message : CompileError → String
  | .malformedQuery query cause => "malformed query " ++ query ++ ": " ++ cause.message
  | .unorderableJoin query stuck =>
    "no legal evaluation order in " ++ query ++ "; stuck on: " ++
      ", ".intercalate (stuck.map Clause.print)
  | .ungroundedArgument query subquery param =>
    "in " ++ query ++ ": argument " ++ param.name ++ " of " ++ subquery ++
      " is not bound by any earlier clause"
  | .unknownRelation query name => "in " ++ query ++ ": unknown relation or query " ++ name
  | .arityMismatch query name expected found =>
    "in " ++ query ++ ": " ++ name ++ " expects " ++ toString expected ++ " columns, found " ++
      toString found
  | .duplicateDefinition name => name ++ " is defined more than once"
  | .unboundResult query var =>
    "in " ++ query ++ ": result variable " ++ var.name ++ " is not bound by any clause"
  | .unconstrainedParameter query param =>
    "in " ++ query ++ ": parameter " ++ param.name ++
      " is not enumerated by any clause; use impl = dem or impl = batch"
  | .countingRequired query =>
    query ++ " can derive a row more than once and needs rc = yes or rc = safe"
  | .recursiveQueries queries => "recursive query definitions: " ++ ", ".intercalate queries
  | .unmaintainedDependency query dependency =>
    query ++ " is maintained but reads " ++ dependency ++ ", which is evaluated in batch"
  | .invalidOption query cause => "in " ++ query ++ ": " ++ cause.message
  | .unready cause =>
    "internal compiler error: clause " ++ cause.clause.print ++ " scheduled while " ++
      cause.var.print ++ " is unbound"
  | .missingDemandSet query subquery =>
    "internal compiler error: " ++ query ++ " reads " ++ subquery ++ " before its demand set exists"
  | .breach b => b.message

def report (e : CompileError) : String := "compile error: " ++ e.message

end CompileError

end ViewUpkeep
