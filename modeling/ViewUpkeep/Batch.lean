import ViewUpkeep.Code.Run
import ViewUpkeep.Program

/-!
Evaluation from scratch. A query is answered by searching its clauses in the order of a plan over
the stored base relations; the queries that it reads are evaluated in turn, and answers are
remembered. What is kept up to date elsewhere plays no part.
-/
namespace ViewUpkeep

namespace Batch

/-- A question: a query for given arguments, or for all rows. -/
abbrev Question := String × Option Row

abbrev Memo := List (Question × List Row)

abbrev Eval := ExceptT ExecError (StateM Memo)

def Memo.get? (m : Memo) (q : Question) : Option (List Row) := (m.find? fun e => e.1 = q).map Prod.snd

def remember (q : Question) (find : Eval (List Row)) : Eval (List Row) := do
  match Memo.get? (← get) q with
  | some rows => return rows
  | none =>
    let rows ← find
    modify fun m => (q, rows) :: m
    return rows

structure Source where
  store : Store
  queries : List String
  ask : Question → Eval (List Row)

def lift (r : Except ExecError α) : Eval α :=
  match r with
  | .ok a => return a
  | .error e => throw e

def valuesOf (env : Env) : List Var → Except ExecError Row
  | [] => .ok []
  | v :: vs =>
    match env.get? v with
    | none => .error (.eval (.unbound v))
    | some x => do
      let xs ← valuesOf env vs
      .ok (x :: xs)

/-- The rows of a stored relation that can match a pattern, some of whose variables are bound. -/
def stored (r : Relation) (pattern bound : List Var) (env : Env) : Except ExecError (List Row) :=
  let mask := Mask.ofPattern pattern bound
  if mask.allUnbound then .ok r.toList
  else if mask.allBound then do
    let row ← valuesOf env pattern
    .ok (if r.contains row then [row] else [])
  else do
    let key ← valuesOf env (mask.select pattern)
    .ok (r.lookup mask key)

/-- The rows that a clause offers to its pattern; a condition that holds offers the empty row. -/
def offers (src : Source) (s : Plan.Step) (env : Env) : Eval (List Row) :=
  match s.clause with
  | .member lhs rel | .mapMember lhs rel _ =>
    if src.queries.contains rel then src.ask (rel, none)
    else lift do
      let r ← src.store.relation rel
      stored r lhs s.bound env
  | .demand _ query params => do
    let args ← lift (valuesOf env params)
    let rows ← src.ask (query, some args)
    return rows.map (args ++ ·)
  | .singleton lhs expr => lift do
    let v ← ExecError.lift (expr.eval env)
    let items ← v.itemsOf lhs.length
    return [items]
  | .cond expr => lift do
    let b ← ExecError.lift (expr.holds env)
    return if b then [[]] else []
  | .delta .. | .without .. | .withExtra .. => throw (.maintenanceClause s.clause.print)

def search (src : Source) (output : Expr) : List Plan.Step → Env → Eval (List Row)
  | [], env => do
    let row ← lift (ExecError.lift (output.evalRow env))
    return [row]
  | s :: rest, env => do
    let rows ← offers src s env
    let found ← rows.mapM fun row =>
      match env.extend? s.clause.lhs row with
      | some env' => search src output rest env'
      | none => return []
    return found.flatten

def rowsOf (src : Source) (j : Join) (bound : List Var) (env : Env) (output : Expr) :
    Eval (List Row) :=
  match (Plan.ofJoin j bound .silent).complete with
  | .error stuck => throw (.unorderable (stuck.map Clause.print))
  | .ok steps => do
    let rows ← search src output steps env
    return Row.sortUnique rows

/-- The answer of a query: for arguments the rows without them, else all rows with the
parameters in front. -/
def answer (src : Source) (q : CompiledQuery) : Option Row → Eval (List Row)
  | none => rowsOf src q.spec.join [] [] q.spec.output
  | some args =>
    if args.length = q.params.length then
      rowsOf src q.spec.join q.params (Env.shadow [] q.params args) (.tuple q.spec.result.components)
    else throw (.parameterCount q.name q.params.length args.length)

/-- Asks a list of queries, each of which may ask those after it. -/
def ask (store : Store) : List CompiledQuery → Question → Eval (List Row)
  | [], question => throw (.unknownQuery question.1)
  | q :: earlier, question =>
    if q.name = question.1 then
      remember question (answer ⟨store, earlier.map (·.name), ask store earlier⟩ q question.2)
    else ask store earlier question

def run (p : Program) (store : Store) (question : Question) (memo : Memo) :
    Except ExecError (List Row) × Memo :=
  (ask store p.queries.reverse question).run memo

end Batch

namespace Program

def evaluate (p : Program) (store : Store) (query : String) (args : Row) :
    Except ExecError (List Row) :=
  (Batch.run p store (query, some args) []).1

def evaluateAll (p : Program) (store : Store) (query : String) : Except ExecError (List Row) :=
  (Batch.run p store (query, none) []).1

end Program

end ViewUpkeep
