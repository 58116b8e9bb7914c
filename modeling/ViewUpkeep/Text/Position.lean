/-!
Places in a text. A span counts characters; a position is the line and column of a character,
both from 1. A line ends after a line feed, a carriage return (with the line feed after it), a
vertical tab, a form feed, a next-line mark, or a line or paragraph separator; the end of the
text stays on the line of the last character.
-/
namespace ViewUpkeep.Text

/-- A stretch of characters, the end excluded. -/
structure Span where
  start : Nat
  stop : Nat
deriving DecidableEq, Repr

structure Position where
  line : Nat
  column : Nat
deriving DecidableEq, Repr

namespace Position

def origin : Position := ⟨1, 1⟩

def endsLine (c : Char) : Bool :=
  let n := c.toNat
  (10 ≤ n && n ≤ 13) || n = 0x85 || n = 0x2028 || n = 0x2029

/-- The position after a character, given what follows it. -/
def step (p : Position) (c : Char) (rest : List Char) : Position :=
  if rest.isEmpty || (c = '\r' && rest.head? = some '\n') then ⟨p.line, p.column + 1⟩
  else if endsLine c then ⟨p.line + 1, 1⟩
  else ⟨p.line, p.column + 1⟩

def advance (p : Position) : List Char → Nat → Position
  | c :: rest, n + 1 => (p.step c rest).advance rest n
  | _, _ => p

def ofOffset (text : List Char) (offset : Nat) : Position := origin.advance text offset

def print (p : Position) : String :=
  toString p.line ++ ":" ++ toString p.column

end Position

end ViewUpkeep.Text
