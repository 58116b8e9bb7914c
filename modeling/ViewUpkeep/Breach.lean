import ViewUpkeep.Value

/-!
Breaches: requests that no part of the library can meet, because what they were promised does not
hold. After a breach nothing more is done.
-/
namespace ViewUpkeep

inductive Breach where
  /-- A row is taken away that is not there. -/
  | underflow (row : Row) (rel : String)
  /-- A row is added again to a relation that does not count. -/
  | duplicateAdd (row : Row) (rel : String)
  /-- A row is taken away, from a relation that does not count, that is not there. -/
  | absentRemove (row : Row) (rel : String)
  /-- The key of a map has so many columns that the value would be one too many to number. -/
  | arityOverflow
  /-- A mask has more positions than memory has places. -/
  | maskOverflow
  /-- The pattern of a map clause is shorter than the key. -/
  | shortKey (keyArity width : Nat)
  /-- The pattern of a clause over a demanded query is shorter than the arguments. -/
  | shortPattern (arguments width : Nat)
  /-- More brackets are open, or closed, than can be counted. -/
  | depthOverflow
  | depthUnderflow
deriving DecidableEq

namespace Breach

def message : Breach → String
  | .underflow row rel =>
    "reference count underflow: " ++ row.print ++ " is not in relation " ++ rel
  | .duplicateAdd row rel =>
    "duplicate add: " ++ row.print ++ " is already in plain relation " ++ rel
  | .absentRemove row rel =>
    "remove of absent row: " ++ row.print ++ " is not in plain relation " ++ rel
  | .arityOverflow | .depthOverflow => "attempt to add with overflow"
  | .depthUnderflow => "attempt to subtract with overflow"
  | .maskOverflow => "capacity overflow"
  | .shortKey keyArity width =>
    "range end index " ++ toString keyArity ++ " out of range for slice of length " ++
      toString width
  | .shortPattern arguments width =>
    "range start index " ++ toString arguments ++ " out of range for slice of length " ++
      toString width

end Breach

end ViewUpkeep
