import ViewUpkeep.Expr.Eval
import ViewUpkeep.Reader
import ViewUpkeep.Term
import ViewUpkeep.Text.Decimal

/-!
The grammar of terms, loosest level first: disjunction, conjunction, negation, one comparison, sums,
products, minus signs, atoms. Each level is a reader over the level of terms inside parentheses.
-/
namespace ViewUpkeep.Term.Grammar

open Reader

def intLiteral : Reader Term :=
  number (fun cs => ((Text.integer? cs).bind fitInt).map Term.int) .integer

def literal : Reader Term := token fun
  | .keyword .true => some (.bool true)
  | .keyword .false => some (.bool false)
  | .str s => some (.str s)
  | .ident name => some (.var name)
  | .wildcard => some .wildcard
  | _ => none

def unit : Reader Term := do
  sign .lparen
  sign .rparen
  return .tuple []

/-- A term in parentheses is grouped; with a comma it is a tuple. -/
def parenthesised (inner : Reader Term) : Reader Term :=
  between .lparen .rparen do
    let first ← inner
    let rest ← many (do sign .comma; inner)
    let trailing ← optional (sign .comma)
    return if rest.isEmpty && trailing.isNone then first else .tuple (first :: rest)

def atom (inner : Reader Term) : Reader Term :=
  choice [intLiteral, literal, unit, parenthesised inner]

/-- Any number of signs before an operand, applied from the inside out. -/
def prefixed (mark : Reader Unit) (wrap : Term → Term) (operand : Reader Term) : Reader Term := do
  let marks ← many mark
  let t ← operand
  return marks.foldr (fun _ t => wrap t) t

def chain (op : Reader Operator) (operand : Reader Term) : Reader Term := do
  let first ← operand
  let rest ← many (do let o ← op; let t ← operand; return (o, t))
  return rest.foldl (fun l r => .binary r.1 l r.2) first

def signOp (s : Sign) (op : Operator) : Reader Operator := do
  sign s
  return op

def keywordOp (k : Keyword) (op : Operator) : Reader Operator := do
  keyword k
  return op

def negation (inner : Reader Term) : Reader Term := prefixed (sign .minus) .neg (atom inner)

def product (inner : Reader Term) : Reader Term := chain (signOp .star .mul) (negation inner)

def sum (inner : Reader Term) : Reader Term :=
  chain ((signOp .plus .add).or (signOp .minus .sub)) (product inner)

def comparisonOp : Reader Operator :=
  choice [signOp .eq .eq, signOp .ne .ne, signOp .le .le, signOp .ge .ge, signOp .lt .lt,
    signOp .gt .gt]

def comparison (inner : Reader Term) : Reader Term := do
  let l ← sum inner
  let rest ← optional (do let o ← comparisonOp; let r ← sum inner; return (o, r))
  return match rest with
    | some (o, r) => .binary o l r
    | none => l

def denial (inner : Reader Term) : Reader Term :=
  prefixed (keyword .not) .not (comparison inner)

def conjunction (inner : Reader Term) : Reader Term := chain (keywordOp .and .and) (denial inner)

def disjunction (inner : Reader Term) : Reader Term :=
  chain (keywordOp .or .or) (conjunction inner)

def nested : Nat → Reader Term
  | 0 => choice []
  | depth + 1 => disjunction (nested depth)

/-- Terms; no text nests deeper than it has tokens. -/
def term : Reader Term := fun ts => nested (ts.length + 1) ts

end ViewUpkeep.Term.Grammar
