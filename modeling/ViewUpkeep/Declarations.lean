import ViewUpkeep.CompileError
import ViewUpkeep.Relation
import ViewUpkeep.Statement

/-!
The declarations of a script, and an order of its queries in which each comes after the queries that
it reads.
-/
namespace ViewUpkeep

structure Declarations where
  relations : List RelationInfo
  queries : List QueryDecl

namespace Declarations

def empty : Declarations := ⟨[], []⟩

def declares (d : Declarations) (name : String) : Bool :=
  d.relations.any (·.name = name) || d.queries.any (·.name = name)

def insert (d : Declarations) : Statement → Declarations
  | .relation name arity => { d with relations := d.relations ++ [.base name arity .set] }
  | .map name keyArity =>
    { d with relations := d.relations ++ [.base name (keyArity + 1) (.map keyArity)] }
  | .query q => { d with queries := d.queries ++ [q] }
  | _ => d

/-- Columns are counted with 64 bits. -/
def arityLimit : Nat := 18446744073709551616

/-- The breach of a declaration: a map has one column more than its key. -/
def breach? : Statement → Option Breach
  | .map _ keyArity => if keyArity + 1 < arityLimit then none else some .arityOverflow
  | _ => none

def collectFrom (d : Declarations) : Script → Except CompileError Declarations
  | [] => .ok d
  | s :: rest =>
    match s.node.declares with
    | none => collectFrom d rest
    | some name =>
      if d.declares name then .error (.duplicateDefinition name)
      else
        match breach? s.node with
        | some b => .error (.breach b)
        | none => collectFrom (d.insert s.node) rest

def ofScript (s : Script) : Except CompileError Declarations := collectFrom empty s

end Declarations

namespace QueryDecl

def reads? (c : Spanned ClauseTerm) : Option String :=
  match c.node with
  | .member _ (.named name _) => some name
  | _ => none

def reads (q : QueryDecl) : List String := (q.clauses.filterMap reads?).eraseDups

end QueryDecl

namespace Declarations

/-- A query, the queries that it reads, and how many of these it still waits for. -/
structure Waiting where
  name : String
  reads : List String
  missing : Nat

def waiting (queries : List QueryDecl) : List Waiting :=
  queries.map fun q =>
    let reads := q.reads.filter fun n => queries.any (·.name = n)
    ⟨q.name, reads, reads.length⟩

def released (name : String) (ws : List Waiting) : List String :=
  (ws.filter fun w => w.reads.contains name && w.missing == 1).map (·.name)

def Waiting.release (name : String) (w : Waiting) : Waiting :=
  if w.reads.contains name then { w with missing := w.missing - 1 } else w

/-- Takes at most `n` queries from those that are ready, in turn, each of which may make others
ready; gives the order and what still waits. -/
def settle : Nat → List String → List Waiting → List String × List Waiting
  | 0, _, ws => ([], ws)
  | _ + 1, [], ws => ([], ws)
  | n + 1, name :: ready, ws =>
    let (order, left) := settle n (ready ++ released name ws) (ws.map (·.release name))
    (name :: order, left)

def order (queries : List QueryDecl) : Except CompileError (List String) :=
  let ws := waiting queries
  let ready := (ws.filter (·.missing == 0)).map (·.name)
  let (order, left) := settle queries.length ready ws
  if order.length < queries.length then
    .error (.recursiveQueries ((left.filter (0 < ·.missing)).map (·.name)))
  else .ok order

end Declarations

end ViewUpkeep
