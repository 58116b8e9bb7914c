/-!
Lines of an input. A line ends with a line feed, and a carriage return before it goes with it. What
follows the last line feed is a line too, unless it is empty.
-/
namespace ViewUpkeep.Text

/-- A line that was ended by a line feed, given backwards, without a carriage return at its end. -/
def endedLine : List Char → List Char
  | '\r' :: line => line.reverse
  | line => line.reverse

/-- The lines of an input; the second argument is the line being read, backwards. -/
def linesFrom : List Char → List Char → List (List Char)
  | [], line => if line.isEmpty then [] else [line.reverse]
  | c :: cs, line => if c = '\n' then endedLine line :: linesFrom cs [] else linesFrom cs (c :: line)

def lines (cs : List Char) : List (List Char) := linesFrom cs []

end ViewUpkeep.Text
