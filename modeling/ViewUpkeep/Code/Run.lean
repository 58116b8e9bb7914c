import ViewUpkeep.Code
import ViewUpkeep.Expr.Eval
import ViewUpkeep.Store

/-!
Running update code. A run leaves a trace: the changes it recorded, the bindings it collected for
the union around it, and the fault that stopped it, if any.
-/
namespace ViewUpkeep

structure Update where
  rel : String
  change : Change
  row : Row
deriving DecidableEq

def Update.print (u : Update) : String := u.rel ++ "." ++ u.change.print ++ u.row.print

inductive ExecError where
  | eval (e : EvalError)
  /-- Two branches of a union collected the same binding. -/
  | overlap (binding : Row)
  | unknownRelation (name : String)
  | unboundVariable (v : Var)
  | collectOutsideUnion
  | unknownQuery (name : String)
  | parameterCount (query : String) (expected found : Nat)
  | unorderable (clauses : List String)
  | maintenanceClause (clause : String)
  | unknownTarget (name : String)
deriving DecidableEq

namespace ExecError

def detail : ExecError → String
  | .eval e => e.message
  | .overlap binding =>
    "self-join contributions are not disjoint: " ++ binding.print ++
      " derived by more than one occurrence"
  | .unknownRelation name => "unknown relation " ++ name
  | .unboundVariable v => "variable " ++ v.name ++ " used before binding"
  | .collectOutsideUnion => "collect outside of a union"
  | .unknownQuery name => "unknown query " ++ name
  | .parameterCount query expected found =>
    query ++ " takes " ++ toString expected ++ " parameters, got " ++ toString found
  | .unorderable clauses => "no legal evaluation order for " ++ ", ".intercalate clauses
  | .maintenanceClause clause => "maintenance clause " ++ clause ++ " in a batch plan"
  | .unknownTarget name => "update to unknown relation " ++ name

/-- Neither an evaluation nor an overlap, but code that does not fit its store. -/
def isInternal : ExecError → Bool
  | .eval _ | .overlap _ => false
  | _ => true

def message (e : ExecError) : String :=
  if e.isInternal then "internal error in generated code: " ++ e.detail else e.detail

end ExecError

structure Trace where
  updates : List Update
  collected : List Row
  fault : Option ExecError

namespace Trace

def empty : Trace := ⟨[], [], none⟩

def failed (e : ExecError) : Trace := ⟨[], [], some e⟩

def append (t u : Trace) : Trace :=
  match t.fault with
  | some _ => t
  | none => ⟨t.updates ++ u.updates, t.collected ++ u.collected, u.fault⟩

def concat : List Trace → Trace
  | [] => empty
  | t :: ts => t.append (concat ts)

def after (r : Except ExecError α) (f : α → Trace) : Trace :=
  match r with
  | .ok a => f a
  | .error e => failed e

/-- The first binding of a branch that branches before it collected. -/
def overlap? (seen : List Row) (t : Trace) : Option Row := t.collected.find? fun r => seen.contains r

/-- The traces of branches, one after the other, with a fault at the first overlap if asked. -/
def branches (verify : Bool) (seen : List Row) : List Trace → Trace
  | [] => empty
  | t :: ts =>
    match (if verify then overlap? seen t else none) with
    | some r => failed (.overlap r)
    | none => t.append (branches verify (seen ++ t.collected) ts)

end Trace

def ExecError.lift (r : Except EvalError α) : Except ExecError α :=
  match r with
  | .ok a => .ok a
  | .error e => .error (.eval e)

namespace Env

def valuesOf (env : Env) : List Var → Except ExecError Row
  | [] => .ok []
  | v :: vs =>
    match env.get? v with
    | none => .error (.unboundVariable v)
    | some x => do
      let xs ← valuesOf env vs
      .ok (x :: xs)

end Env

def Value.itemsOf (v : Value) (n : Nat) : Except ExecError Row :=
  match v with
  | .tuple items => if items.length = n then .ok items else .error (.eval (.arityMismatch n v))
  | _ => .error (.eval (.arityMismatch n v))

def Store.relation (s : Store) (name : String) : Except ExecError Relation :=
  match s.get? name with
  | some r => .ok r
  | none => .error (.unknownRelation name)

namespace Code

mutual

/-- Runs code with some variables bound, inside a union over other variables or inside none. -/
def exec (store : Store) : Code → Option (List Var) → Env → Trace
  | .block items, sink, env => .concat (execAll store items sink env)
  | .scan rel pattern body, sink, env =>
    .after (store.relation rel) fun r =>
      .concat (r.toList.map fun row =>
        match env.extend? pattern row with
        | some env' => body.exec store sink env'
        | none => .empty)
  | .lookup rel mask pattern body, sink, env =>
    .after (store.relation rel) fun r =>
      .after (env.valuesOf (mask.select pattern)) fun key =>
        .concat ((r.lookup mask key).map fun row =>
          match env.extend? pattern row with
          | some env' => body.exec store sink env'
          | none => .empty)
  | .member rel pattern body, sink, env =>
    .after (store.relation rel) fun r =>
      .after (env.valuesOf pattern) fun row =>
        if r.contains row then body.exec store sink env else .empty
  | .bind pattern expr body, sink, env =>
    .after (ExecError.lift (expr.eval env)) fun v =>
      .after (v.itemsOf pattern.length) fun items =>
        match env.extend? pattern items with
        | some env' => body.exec store sink env'
        | none => .empty
  | .test cond body, sink, env =>
    .after (ExecError.lift (cond.holds env)) fun b =>
      if b then body.exec store sink env else .empty
  | .update rel change expr, _, env =>
    .after (ExecError.lift (expr.evalRow env)) fun row => ⟨[⟨rel, change, row⟩], [], none⟩
  | .union vars verify branches body, sink, env =>
    let t := Trace.branches verify [] (execAll store branches (some vars) env)
    Trace.append ⟨t.updates, [], t.fault⟩
      (.concat (t.collected.eraseDups.map fun row => body.exec store sink (env.shadow vars row)))
  | .collect, sink, env =>
    match sink with
    | none => .failed .collectOutsideUnion
    | some vars => .after (env.valuesOf vars) fun row => ⟨[], [row], none⟩

def execAll (store : Store) : List Code → Option (List Var) → Env → List Trace
  | [], _, _ => []
  | c :: cs, sink, env => c.exec store sink env :: execAll store cs sink env

end

def run (c : Code) (store : Store) (changed : Row) : Except ExecError (List Update) :=
  let t := c.exec store none [(Var.delta, .tuple changed)]
  match t.fault with
  | some e => .error e
  | none => .ok t.updates

end Code

end ViewUpkeep
