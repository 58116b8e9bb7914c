import ViewUpkeep.Expr.Eval
import ViewUpkeep.Term

/-!
Terms without variables, which stand for values.
-/
namespace ViewUpkeep

inductive ConstantError where
  | var (name : String)
  | wildcard
  | eval (e : EvalError)
deriving DecidableEq

def ConstantError.message : ConstantError → String
  | .var name => "'" ++ name ++ "' is not a constant"
  | .wildcard => "'_' is not a constant"
  | .eval e => e.message

namespace Term

mutual

def closed : Term → Except ConstantError Expr
  | .var name => .error (.var name)
  | .wildcard => .error .wildcard
  | .int n => .ok (.const (.int n))
  | .str s => .ok (.const (.str s))
  | .bool b => .ok (.const (.bool b))
  | .tuple items => do return .tuple (← closeds items)
  | .not t => do return .not (← t.closed)
  | .neg t => do return .neg (← t.closed)
  | .binary op l r => do
    let a ← l.closed
    let b ← r.closed
    return .binary op a b

def closeds : List Term → Except ConstantError (List Expr)
  | [] => .ok []
  | t :: ts => do
    let e ← t.closed
    let es ← closeds ts
    return e :: es

end

def constant (t : Term) : Except ConstantError Value := do
  let e ← t.closed
  match e.eval [] with
  | .ok v => return v
  | .error e => throw (.eval e)

def constants : List Term → Except ConstantError Row
  | [] => .ok []
  | t :: ts => do
    let v ← t.constant
    let vs ← constants ts
    return v :: vs

end Term

end ViewUpkeep
