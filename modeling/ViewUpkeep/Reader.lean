import ViewUpkeep.Token

/-!
Readers of token lists with ordered choice and greedy repetition. Besides its result a reader keeps
where it was stopped furthest to the right and which tokens would have gone on there: of a text that
cannot be read, that place is the fault.
-/
namespace ViewUpkeep

inductive NumberFault where
  | count (digits : String)
  | integer (digits : String)
deriving DecidableEq

def NumberFault.message : NumberFault → String
  | .count digits => "expected a count, found " ++ digits
  | .integer digits => "integer literal " ++ digits ++ " is out of range"

/-- A place where reading stopped: how many tokens were left, which fixed tokens could have stood
there, and whether a number was too large. -/
structure Stop where
  left : Nat
  wanted : List Token
  fault : Option NumberFault
deriving DecidableEq

namespace Stop

/-- The stop further to the right; of two at one place, what either says. -/
def merge (a b : Stop) : Stop :=
  if a.left < b.left then a
  else if b.left < a.left then b
  else ⟨a.left, a.wanted ++ b.wanted, a.fault.orElse fun _ => b.fault⟩

def merge? : Option Stop → Option Stop → Option Stop
  | some a, some b => some (a.merge b)
  | some a, none => some a
  | none, b => b

end Stop

inductive Reading (α : Type) where
  | done (value : α) (rest : List (Spanned Token)) (stop : Option Stop)
  | failed (stop : Stop)

namespace Reading

def noting (r : Reading α) (earlier : Option Stop) : Reading α :=
  match r with
  | .done a rest stop => .done a rest (Stop.merge? earlier stop)
  | .failed stop =>
    match earlier with
    | some e => .failed (e.merge stop)
    | none => .failed stop

end Reading

def Reader (α : Type) := List (Spanned Token) → Reading α

namespace Reader

def done (a : α) : Reader α := fun ts => .done a ts none

def andThen (p : Reader α) (f : α → Reader β) : Reader β := fun ts =>
  match p ts with
  | .failed stop => .failed stop
  | .done a rest stop => (f a rest).noting stop

instance : Monad Reader where
  pure := done
  bind := andThen

def or (p q : Reader α) : Reader α := fun ts =>
  match p ts with
  | .done a rest stop => .done a rest stop
  | .failed stop => (q ts).noting (some stop)

def choice : List (Reader α) → Reader α
  | [] => fun ts => .failed ⟨ts.length, [], none⟩
  | [p] => p
  | p :: ps => p.or (choice ps)

def optional (p : Reader α) : Reader (Option α) := fun ts =>
  match p ts with
  | .done a rest stop => .done (some a) rest stop
  | .failed stop => .done none ts (some stop)

/-- At most `n` repetitions, as many as succeed. -/
def upTo : Nat → Reader α → Reader (List α)
  | 0, _ => done []
  | n + 1, p => fun ts =>
    match p ts with
    | .failed stop => .done [] ts (some stop)
    | .done a rest stop =>
      match upTo n p rest with
      | .done as rest' stop' => .done (a :: as) rest' (Stop.merge? stop stop')
      | .failed stop' => .failed stop'

/-- As many repetitions as succeed, of a reader that takes a token at least. -/
def many (p : Reader α) : Reader (List α) := fun ts => upTo (ts.length + 1) p ts

def token (f : Token → Option α) : Reader α := fun ts =>
  match ts with
  | [] => .failed ⟨0, [], none⟩
  | t :: rest =>
    match f t.node with
    | some a => .done a rest none
    | none => .failed ⟨ts.length, [], none⟩

def exactly (t : Token) : Reader Unit := fun ts =>
  match ts with
  | [] => .failed ⟨0, [t], none⟩
  | u :: rest => if u.node = t then .done () rest none else .failed ⟨ts.length, [t], none⟩

def keyword (k : Keyword) : Reader Unit := exactly (.keyword k)

def sign (s : Sign) : Reader Unit := exactly (.sign s)

def ident : Reader String := token fun
  | .ident name => some name
  | _ => none

def number (fit : List Char → Option α) (fault : String → NumberFault) : Reader α := fun ts =>
  match ts with
  | ⟨.int digits, _⟩ :: rest =>
    match fit digits.toList with
    | some a => .done a rest none
    | none => .failed ⟨ts.length, [], some (fault digits)⟩
  | _ => .failed ⟨ts.length, [], none⟩

def between (left right : Sign) (p : Reader α) : Reader α := do
  sign left
  let a ← p
  sign right
  return a

def commaSeparated1 (p : Reader α) : Reader (List α) := do
  let a ← p
  let as ← many (do sign .comma; p)
  return a :: as

def commaSeparated (p : Reader α) : Reader (List α) := do
  return (← optional (commaSeparated1 p)).getD []

/-- Items with commas between them, perhaps none, and perhaps a comma after the last. -/
def commaTerminated (p : Reader α) : Reader (List α) := do
  match ← optional (commaSeparated1 p) with
  | none => return []
  | some as =>
    let _ ← optional (sign .comma)
    return as

def endOfInput : Reader Unit := fun ts =>
  if ts.isEmpty then .done () ts none else .failed ⟨ts.length, [], none⟩

def spanTo (ts rest : List (Spanned Token)) : Text.Span :=
  ⟨(ts.head?.map (·.span.start)).getD 0,
    ((ts.take (ts.length - rest.length)).getLast?.map (·.span.stop)).getD 0⟩

def spanned (p : Reader α) : Reader (Spanned α) := fun ts =>
  match p ts with
  | .done a rest stop => .done ⟨a, spanTo ts rest⟩ rest stop
  | .failed stop => .failed stop

end Reader

structure ParseError where
  span : Text.Span
  found : Option Token
  wanted : List Token
  fault : Option NumberFault
deriving DecidableEq

namespace ParseError

def ofStop (length : Nat) (ts : List (Spanned Token)) (stop : Stop) : ParseError :=
  let here := ts[ts.length - stop.left]?
  { span := (here.map (·.span)).getD ⟨length, length + 1⟩
    found := here.map (·.node)
    wanted := stop.wanted
    fault := stop.fault }

def quoted (t : Token) : String := "'" ++ t.print ++ "'"

def message (e : ParseError) : String :=
  match e.fault with
  | some f => f.message
  | none =>
    let found := (e.found.map quoted).getD "end of input"
    let wanted := ((e.wanted.map quoted).eraseDups).mergeSort fun a b => decide (a ≤ b)
    if wanted.isEmpty then "Unexpected token " ++ found
    else if e.wanted.contains (.sign .semicolon) && (e.found.map Token.opensStatement).getD false then
      "Expected ';' to end the statement, found " ++ found
    else if e.wanted.contains (.keyword .member) && e.found = some (.sign .assign) then
      "Use '==' for comparisons; '=' only appears in declarations"
    else "Unexpected " ++ found ++ ", expected one of: " ++ ", ".intercalate wanted

end ParseError

def Reader.readAll (p : Reader α) (length : Nat) (ts : List (Spanned Token)) :
    Except ParseError α :=
  match (do let a ← p; endOfInput; return a : Reader α) ts with
  | .done a _ _ => .ok a
  | .failed stop => .error (.ofStop length ts stop)

end ViewUpkeep
