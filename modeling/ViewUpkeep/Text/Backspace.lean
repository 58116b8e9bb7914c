import ViewUpkeep.Text.Cluster

/-!
Backspaces in a line that was not typed at a terminal. Each takes away the cluster before it, or
nothing at the start of the line.
-/
namespace ViewUpkeep.Text

def byteSize (cs : List Char) : Nat := (cs.map Char.utf8Size).foldr (· + ·) 0

def dropBytes : Nat → List Char → List Char
  | 0, cs => cs
  | _ + 1, [] => []
  | n + 1, c :: cs => dropBytes (n + 1 - c.utf8Size) cs

/-- A line so far: its characters, backwards, and how many bytes each of its clusters takes, the
last one first. The sizes are kept in one byte each, so that of a longer cluster only what exceeds
the multiples of 256 counts. -/
structure Typed where
  kept : List Char
  sizes : List Nat

namespace Typed

def empty : Typed := ⟨[], []⟩

def push (t : Typed) (cluster : List Char) : Typed :=
  if cluster = ['\x08'] then
    match t.sizes with
    | [] => t
    | n :: sizes => ⟨dropBytes n t.kept, sizes⟩
  else ⟨cluster.reverse ++ t.kept, byteSize cluster % 256 :: t.sizes⟩

end Typed

def applyBackspaces (line : List Char) : List Char :=
  if line.contains '\x08' then ((clusters line).foldl Typed.push .empty).kept.reverse else line

end ViewUpkeep.Text
