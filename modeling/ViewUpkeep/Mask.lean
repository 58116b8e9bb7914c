import ViewUpkeep.Breach
import ViewUpkeep.Var

/-! A mask says which positions of a row are known when rows are looked up. -/
namespace ViewUpkeep

structure Mask where
  bits : List Bool
deriving DecidableEq, Repr

namespace Mask

/-- The positions of a pattern whose variable is bound beforehand. A variable that the pattern
repeats counts as unbound at each place unless it was bound before. -/
def ofPattern (pattern : List Var) (bound : List Var) : Mask :=
  ⟨pattern.map fun v => bound.contains v⟩

def first (n arity : Nat) : Mask := ⟨(List.range arity).map fun i => decide (i < n)⟩

/-- A mask takes one byte for each position, and this many bytes are more than can be had. -/
def sizeLimit : Nat := 9223372036854775808

def breach? (arity : Nat) : Option Breach := if arity < sizeLimit then none else some .maskOverflow

def arity (m : Mask) : Nat := m.bits.length

def allBound (m : Mask) : Bool := m.bits.all id

def allUnbound (m : Mask) : Bool := m.bits.all not

/-- Neither all nor none: only such a mask has use for an index. -/
def isPartial (m : Mask) : Bool := !m.allBound && !m.allUnbound

def select (m : Mask) (items : List α) : List α :=
  (m.bits.zip items).filterMap fun (b, x) => if b then some x else none

def print (m : Mask) : String := String.ofList (m.bits.map fun b => if b then 'b' else 'u')

end Mask

end ViewUpkeep
