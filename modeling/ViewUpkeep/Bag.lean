/-!
Bags: values with positive counts, in the order in which they came. A value whose count falls to
zero leaves its place to the last one.
-/
namespace ViewUpkeep

/-- Removes the first item that passes a test and puts the last item in its place. -/
def swapErase (p : α → Bool) : List α → List α
  | [] => []
  | x :: xs =>
    if p x then
      match xs.getLast? with
      | none => []
      | some last => last :: xs.dropLast
    else x :: swapErase p xs

structure Bag (α : Type) where
  entries : List (α × Nat)

namespace Bag

variable {α : Type} [DecidableEq α]

def empty : Bag α := ⟨[]⟩

instance : Inhabited (Bag α) := ⟨empty⟩

def size (b : Bag α) : Nat := b.entries.length

def toList (b : Bag α) : List α := b.entries.map Prod.fst

def count (b : Bag α) (a : α) : Nat := ((b.entries.find? fun e => e.1 = a).map Prod.snd).getD 0

def contains (b : Bag α) (a : α) : Bool := b.entries.any fun e => e.1 = a

def setCount (b : Bag α) (a : α) (n : Nat) : Bag α :=
  ⟨b.entries.map fun e => if e.1 = a then (a, n) else e⟩

def insert (b : Bag α) (a : α) : Bag α × Bool :=
  if b.contains a then (b.setCount a (b.count a + 1), false)
  else (⟨b.entries ++ [(a, 1)]⟩, true)

/-- Takes a value away once; the flag tells whether it is gone. An absent value cannot be taken. -/
def erase? (b : Bag α) (a : α) : Option (Bag α × Bool) :=
  match b.count a with
  | 0 => none
  | 1 => some (⟨swapErase (fun e => e.1 = a) b.entries⟩, true)
  | n + 2 => some (b.setCount a (n + 1), false)

/-- Equal counts of every value, in whatever order. -/
def same (a b : Bag α) : Bool :=
  a.size = b.size && a.entries.all fun e => b.contains e.1 && b.count e.1 = e.2

def underflowMessage (print : α → String) (a : α) : String :=
  "reference count underflow: " ++ print a ++ " is not present"

end Bag

end ViewUpkeep
