import ViewUpkeep.Operator
import ViewUpkeep.Value
import ViewUpkeep.Var

/-!
Expressions of comprehensions: variables, constants, tuples and operators. They are the results and
conditions of queries and the operands of update code.
-/
namespace ViewUpkeep

inductive Expr where
  | var (v : Var)
  | const (v : Value)
  | tuple (items : List Expr)
  | not (e : Expr)
  | neg (e : Expr)
  | binary (op : Operator) (left right : Expr)
deriving Inhabited

namespace Expr

mutual

def decEq : (a b : Expr) → Decidable (a = b)
  | .var a, .var b => if h : a = b then .isTrue (by rw [h]) else .isFalse (by simp [h])
  | .const a, .const b => if h : a = b then .isTrue (by rw [h]) else .isFalse (by simp [h])
  | .tuple a, .tuple b =>
    match decEqList a b with
    | .isTrue h => .isTrue (by rw [h])
    | .isFalse h => .isFalse (by simp [h])
  | .not a, .not b | .neg a, .neg b =>
    match decEq a b with
    | .isTrue h => .isTrue (by rw [h])
    | .isFalse h => .isFalse (by simp [h])
  | .binary o a b, .binary p c d =>
    if ho : o = p then
      match decEq a c, decEq b d with
      | .isTrue h, .isTrue k => .isTrue (by rw [ho, h, k])
      | .isFalse h, _ => .isFalse (by simp [h])
      | _, .isFalse k => .isFalse (by simp [k])
    else .isFalse (by simp [ho])
  | .var _, .const _ | .var _, .tuple _ | .var _, .not _ | .var _, .neg _ | .var _, .binary ..
  | .const _, .var _ | .const _, .tuple _ | .const _, .not _ | .const _, .neg _
  | .const _, .binary ..
  | .tuple _, .var _ | .tuple _, .const _ | .tuple _, .not _ | .tuple _, .neg _
  | .tuple _, .binary ..
  | .not _, .var _ | .not _, .const _ | .not _, .tuple _ | .not _, .neg _ | .not _, .binary ..
  | .neg _, .var _ | .neg _, .const _ | .neg _, .tuple _ | .neg _, .not _ | .neg _, .binary ..
  | .binary .., .var _ | .binary .., .const _ | .binary .., .tuple _ | .binary .., .not _
  | .binary .., .neg _ => .isFalse (by simp)

def decEqList : (a b : List Expr) → Decidable (a = b)
  | [], [] => .isTrue rfl
  | [], _ :: _ | _ :: _, [] => .isFalse (by simp)
  | x :: xs, y :: ys =>
    match decEq x y, decEqList xs ys with
    | .isTrue h, .isTrue k => .isTrue (by rw [h, k])
    | .isFalse h, _ => .isFalse (by simp [h])
    | _, .isFalse k => .isFalse (by simp [k])

end

instance : DecidableEq Expr := decEq

def tupleOf (vs : List Var) : Expr := .tuple (vs.map .var)

mutual

def mentions : Expr → List Var
  | .var v => [v]
  | .const _ => []
  | .tuple items => mentionsAll items
  | .not e | .neg e => e.mentions
  | .binary _ l r => l.mentions ++ r.mentions

def mentionsAll : List Expr → List Var
  | [] => []
  | e :: es => e.mentions ++ mentionsAll es

end

def vars (e : Expr) : List Var := e.mentions.eraseDups

mutual

/-- Variables, constants and tuples of such keep different inputs apart; an operator may not. -/
def isInjective : Expr → Bool
  | .var _ | .const _ => true
  | .tuple items => allInjective items
  | .not _ | .neg _ | .binary .. => false

def allInjective : List Expr → Bool
  | [] => true
  | e :: es => e.isInjective && allInjective es

end

def components : Expr → List Expr
  | .tuple items => items
  | e => [e]

def precedence : Expr → Nat
  | .binary op _ _ => op.precedence
  | .not _ => 3
  | .neg _ => 7
  | .var _ | .const _ | .tuple _ => 8

/-- An operand in parentheses if it binds less tightly than its place needs. -/
def guarded (needed actual : Nat) (text : String) : String :=
  if actual < needed then "(" ++ text ++ ")" else text

mutual

def print : Expr → String
  | .var v => v.print
  | .const c => c.print
  | .tuple items => "(" ++ ", ".intercalate (printAll items) ++ ")"
  | .not e => "not " ++ guarded 3 e.precedence e.print
  | .neg e => "-" ++ guarded 7 e.precedence e.print
  | .binary op l r =>
    guarded op.precedence l.precedence l.print ++ " " ++ op.symbol ++ " " ++
      guarded (op.precedence + 1) r.precedence r.print

def printAll : List Expr → List String
  | [] => []
  | e :: es => e.print :: printAll es

end

end Expr

end ViewUpkeep
