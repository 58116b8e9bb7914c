import ViewUpkeep.Expr

/-!
Evaluation of expressions under bindings of variables. Conjunction and disjunction read their right
operand only when it decides the result; integers stay within 64 bits or the evaluation fails.
-/
namespace ViewUpkeep

/-- Bindings of variables, the latest first. -/
abbrev Env := List (Var × Value)

namespace Env

def get? (env : Env) (v : Var) : Option Value := (env.find? fun b => b.1 = v).map Prod.snd

/-- Extends the bindings so that a pattern equals a row; a variable that is bound already, or stands
twice in the pattern, must have the value at its place. -/
def extend? (env : Env) : List Var → Row → Option Env
  | [], [] => some env
  | v :: vs, x :: xs =>
    match env.get? v with
    | some y => if y = x then extend? env vs xs else none
    | none => extend? ((v, x) :: env) vs xs
  | _, _ => none

def shadow (env : Env) (vs : List Var) (row : Row) : Env := (vs.zip row).reverse ++ env

end Env

inductive EvalError where
  | unbound (v : Var)
  | typeMismatch (op : Operator) (left right : Value)
  | notBoolean (v : Value)
  | overflow (op : Operator) (left right : Int64)
  | arityMismatch (expected : Nat) (v : Value)
deriving DecidableEq

namespace EvalError

def message : EvalError → String
  | .unbound v => "unbound variable '" ++ v.print ++ "'"
  | .typeMismatch op l r =>
    "cannot apply '" ++ op.symbol ++ "' to " ++ l.typeName ++ " and " ++ r.typeName ++ " (" ++
      l.print ++ " " ++ op.symbol ++ " " ++ r.print ++ ")"
  | .notBoolean v => "condition evaluated to non-boolean " ++ v.print
  | .overflow op l r =>
    "integer overflow in " ++ Value.printInt l ++ " " ++ op.symbol ++ " " ++ Value.printInt r
  | .arityMismatch n v => "expected a " ++ toString n ++ "-tuple, found " ++ v.print

end EvalError

/-- The 64-bit integer with a given value, if there is one. -/
def fitInt (n : Int) : Option Int64 :=
  if -9223372036854775808 ≤ n ∧ n ≤ 9223372036854775807 then some (Int64.ofInt n) else none

def Value.condition : Value → Except EvalError Bool
  | .bool b => .ok b
  | v => .error (.notBoolean v)

namespace Operator

def arith : Operator → Int → Int → Int
  | .add, a, b => a + b
  | .sub, a, b => a - b
  | _, a, b => a * b

def accepts : Operator → Ordering → Bool
  | .lt, o => o.isLT
  | .le, o => o.isLE
  | .gt, o => o.isGT
  | _, o => o.isGE

def apply (op : Operator) (l r : Value) : Except EvalError Value :=
  match op with
  | .eq => .ok (.bool (l = r))
  | .ne => .ok (.bool (l ≠ r))
  | .lt | .le | .gt | .ge =>
    if l.kind = r.kind then .ok (.bool (op.accepts (l.cmp r))) else .error (.typeMismatch op l r)
  | .add | .sub | .mul =>
    match l, r with
    | .int a, .int b =>
      match fitInt (op.arith a.toInt b.toInt) with
      | some n => .ok (.int n)
      | none => .error (.overflow op a b)
    | .str a, .str b => if op = .add then .ok (.str (a ++ b)) else .error (.typeMismatch op l r)
    | _, _ => .error (.typeMismatch op l r)
  -- not reached: the connectives are evaluated one operand at a time
  | .and | .or => do
    if ← l.condition then return .bool (← r.condition) else return .bool false

end Operator

namespace Value

def negate : Value → Except EvalError Value
  | .int n =>
    match fitInt (-n.toInt) with
    | some m => .ok (.int m)
    | none => .error (.overflow .sub 0 n)
  | v => .error (.typeMismatch .sub (.int 0) v)

end Value

namespace Expr

mutual

def eval (env : Env) : Expr → Except EvalError Value
  | .var v =>
    match env.get? v with
    | some x => .ok x
    | none => .error (.unbound v)
  | .const c => .ok c
  | .tuple items => do
    let vs ← evalAll env items
    .ok (.tuple vs)
  | .not e => do
    let b ← (← e.eval env).condition
    .ok (.bool (!b))
  | .neg e => do (← e.eval env).negate
  | .binary .and l r => do
    if ← (← l.eval env).condition then
      let b ← (← r.eval env).condition
      .ok (.bool b)
    else .ok (.bool false)
  | .binary .or l r => do
    if ← (← l.eval env).condition then .ok (.bool true)
    else
      let b ← (← r.eval env).condition
      .ok (.bool b)
  | .binary op l r => do
    let a ← l.eval env
    let b ← r.eval env
    op.apply a b

def evalAll (env : Env) : List Expr → Except EvalError Row
  | [] => .ok []
  | e :: es => do
    let v ← e.eval env
    let vs ← evalAll env es
    .ok (v :: vs)

end

def holds (e : Expr) (env : Env) : Except EvalError Bool := do (← e.eval env).condition

def evalRow (e : Expr) (env : Env) : Except EvalError Row := do return (← e.eval env).toRow

end Expr

end ViewUpkeep
