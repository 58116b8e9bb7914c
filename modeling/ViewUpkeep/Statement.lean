import ViewUpkeep.Term
import ViewUpkeep.Token

/-! Statements as they are written: declarations of relations, maps and queries, and commands. -/
namespace ViewUpkeep

/-- What a membership ranges over: a relation or query, perhaps applied to arguments, or the set of
one term. -/
inductive Range where
  | named (name : String) (args : Option (List Term))
  | singleton (t : Term)

inductive ClauseTerm where
  | member (pattern : Term) (range : Range)
  | cond (t : Term)

structure QueryDecl where
  name : String
  params : List String
  result : Spanned Term
  clauses : List (Spanned ClauseTerm)
  /-- Names and values, as written. -/
  options : List (String × String)

inductive Statement where
  | relation (name : String) (arity : Nat)
  | map (name : String) (keyArity : Nat)
  | query (decl : QueryDecl)
  | add (rel : String) (args : List Term)
  | remove (rel : String) (args : List Term)
  | set (map : String) (keys : List Term) (value : Term)
  | unset (map : String) (keys : List Term)
  | demand (query : String) (args : List Term)
  | undemand (query : String) (args : List Term)
  | display (name : String) (args : Option (List Term))

def Statement.declares : Statement → Option String
  | .relation name _ | .map name _ => some name
  | .query decl => some decl.name
  | _ => none

abbrev Script := List (Spanned Statement)

end ViewUpkeep
