/-! Numbers written in decimal, with a sign before the digits or without one. -/
namespace ViewUpkeep.Text

/-- The number that digits write. Other characters, or no digit at all, write none. -/
def digits? (cs : List Char) : Option Nat :=
  if !cs.isEmpty && cs.all Char.isDigit then some (Nat.ofDigitChars 10 cs 0) else none

def natural? : List Char → Option Nat
  | '+' :: cs => digits? cs
  | cs => digits? cs

def integer? : List Char → Option Int
  | '-' :: cs => (digits? cs).map fun n => -(n : Int)
  | cs => (natural? cs).map fun n => (n : Int)

end ViewUpkeep.Text
