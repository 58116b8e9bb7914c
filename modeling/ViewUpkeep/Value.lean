import ViewUpkeep.Text.Quoted

/-!
Values are booleans, 64-bit integers, texts and tuples of values; a row is a list of values. This
module has their equality, their total order (booleans, integers, texts, tuples; texts by code
point; tuples lexicographically) and their printed form.
-/
namespace ViewUpkeep

inductive Value where
  | bool (b : Bool)
  | int (n : Int64)
  | str (s : String)
  | tuple (items : List Value)
deriving Inhabited

abbrev Row := List Value

namespace Value

mutual

def decEq : (a b : Value) → Decidable (a = b)
  | .bool a, .bool b => if h : a = b then .isTrue (by rw [h]) else .isFalse (by simp [h])
  | .int a, .int b => if h : a = b then .isTrue (by rw [h]) else .isFalse (by simp [h])
  | .str a, .str b => if h : a = b then .isTrue (by rw [h]) else .isFalse (by simp [h])
  | .tuple a, .tuple b =>
    match decEqRow a b with
    | .isTrue h => .isTrue (by rw [h])
    | .isFalse h => .isFalse (by simp [h])
  | .bool _, .int _ | .bool _, .str _ | .bool _, .tuple _
  | .int _, .bool _ | .int _, .str _ | .int _, .tuple _
  | .str _, .bool _ | .str _, .int _ | .str _, .tuple _
  | .tuple _, .bool _ | .tuple _, .int _ | .tuple _, .str _ => .isFalse (by simp)

def decEqRow : (a b : List Value) → Decidable (a = b)
  | [], [] => .isTrue rfl
  | [], _ :: _ | _ :: _, [] => .isFalse (by simp)
  | x :: xs, y :: ys =>
    match decEq x y, decEqRow xs ys with
    | .isTrue h, .isTrue k => .isTrue (by rw [h, k])
    | .isFalse h, _ => .isFalse (by simp [h])
    | _, .isFalse k => .isFalse (by simp [k])

end

instance : DecidableEq Value := decEq

/-- The place of a value's kind in the order of values. -/
def kind : Value → Nat
  | .bool _ => 0
  | .int _ => 1
  | .str _ => 2
  | .tuple _ => 3

mutual

def cmp : Value → Value → Ordering
  | .bool a, .bool b => compare a.toNat b.toNat
  | .int a, .int b => compare a.toInt b.toInt
  | .str a, .str b => compare a b
  | .tuple a, .tuple b => cmpRow a b
  | a, b => compare a.kind b.kind

/-- Rows compare lexicographically, a shorter row before its extensions. -/
def cmpRow : List Value → List Value → Ordering
  | [], [] => .eq
  | [], _ :: _ => .lt
  | _ :: _, [] => .gt
  | x :: xs, y :: ys => (cmp x y).then (cmpRow xs ys)

end

instance : Ord Value := ⟨cmp⟩

def typeName : Value → String
  | .bool _ => "bool"
  | .int _ => "int"
  | .str _ => "str"
  | .tuple _ => "tuple"

def asBool : Value → Option Bool
  | .bool b => some b
  | _ => none

def asInt : Value → Option Int64
  | .int n => some n
  | _ => none

def asTuple : Value → Option Row
  | .tuple items => some items
  | _ => none

/-- The items of a tuple; any other value makes a row of one. -/
def toRow : Value → Row
  | .tuple items => items
  | v => [v]

def printBool (b : Bool) : String := if b then "true" else "false"

def printInt (n : Int64) : String := toString n.toInt

mutual

def print : Value → String
  | .bool b => printBool b
  | .int n => printInt n
  | .str s => Text.quote s
  | .tuple items => printRow items

/-- A row in parentheses; a row of one keeps a comma. -/
def printRow : List Value → String
  | [] => "()"
  | [v] => "(" ++ v.print ++ ",)"
  | v :: vs => "(" ++ v.print ++ printTail vs ++ ")"

def printTail : List Value → String
  | [] => ""
  | v :: vs => ", " ++ v.print ++ printTail vs

end

mutual

def printTagged : Value → String
  | .bool b => "Bool(" ++ printBool b ++ ")"
  | .int n => "Int(" ++ printInt n ++ ")"
  | .str s => "Str(" ++ Text.quote s ++ ")"
  | .tuple items => "Tuple([" ++ ", ".intercalate (printTaggedAll items) ++ "])"

def printTaggedAll : List Value → List String
  | [] => []
  | v :: vs => v.printTagged :: printTaggedAll vs

end

end Value

namespace Row

def print (row : Row) : String := Value.printRow row

def le (a b : Row) : Bool := (Value.cmpRow a b).isLE

def sort (rows : List Row) : List Row := rows.mergeSort le

def dropRepeats : List Row → List Row
  | [] => []
  | [r] => [r]
  | r :: s :: rest => if r = s then dropRepeats (s :: rest) else r :: dropRepeats (s :: rest)

def sortUnique (rows : List Row) : List Row := dropRepeats (sort rows)

end Row

end ViewUpkeep
