import ViewUpkeep.Bag
import ViewUpkeep.Mask

/-!
Relations: a bag of rows with an index for each mask that was asked for. An index groups the rows by
their values at the known positions; what it finds is what a scan of all rows would find.
-/
namespace ViewUpkeep

inductive RelationKind where
  | set
  /-- Rows of a key and one value, a key at most once. -/
  | map (keyArity : Nat)
deriving DecidableEq, Repr

inductive Origin where
  | base
  | result (query : String)
  | demandSet (query : String)
  | tag (query : String) (var : Var)
  | filter (query : String) (clause : Nat)
deriving DecidableEq, Repr

namespace Origin

def isBase : Origin → Bool
  | .base => true
  | _ => false

def owner : Origin → Option String
  | .base => none
  | .result q | .demandSet q | .tag q _ | .filter q _ => some q

end Origin

structure RelationInfo where
  name : String
  arity : Nat
  kind : RelationKind
  origin : Origin
  /-- Whether a row may have a count above one. -/
  counted : Bool
deriving DecidableEq, Repr

namespace RelationInfo

def base (name : String) (arity : Nat) (kind : RelationKind) : RelationInfo :=
  ⟨name, arity, kind, .base, false⟩

def derived (name : String) (arity : Nat) (origin : Origin) (counted : Bool) : RelationInfo :=
  ⟨name, arity, .set, origin, counted⟩

def keyMask (info : RelationInfo) : Option Mask :=
  match info.kind with
  | .set => none
  | .map n => some (.first n info.arity)

/-- The breach of setting the relation up: a map needs the mask of its key. -/
def breach? (info : RelationInfo) : Option Breach :=
  match info.kind with
  | .set => none
  | .map _ => Mask.breach? info.arity

end RelationInfo

/-- The rows of each group, by the group's key. -/
abbrev Index := List (Row × List Row)

namespace Index

def rows (index : Index) (key : Row) : List Row :=
  ((index.find? fun g => g.1 = key).map Prod.snd).getD []

def insert (index : Index) (key row : Row) : Index :=
  if index.any fun g => g.1 = key then
    index.map fun g => if g.1 = key then (g.1, g.2 ++ [row]) else g
  else index ++ [(key, [row])]

/-- Takes a row out of its group, and the group away when it was the last. -/
def erase (index : Index) (key row : Row) : Index :=
  (index.map fun g => if g.1 = key then (g.1, swapErase (· = row) g.2) else g).filter
    fun g => !g.2.isEmpty

def ofRows (mask : Mask) (rows : List Row) : Index :=
  rows.foldl (fun index row => index.insert (mask.select row) row) []

end Index

structure Relation where
  info : RelationInfo
  rows : Bag Row
  indices : List (Mask × Index)

namespace Relation

def name (r : Relation) : String := r.info.name

def hasIndex (r : Relation) (mask : Mask) : Bool := r.indices.any fun i => i.1 = mask

/-- An index for a mask, unless it is there already or would not split the rows. -/
def addIndex (r : Relation) (mask : Mask) : Relation :=
  if mask.isPartial && !r.hasIndex mask then
    { r with indices := r.indices ++ [(mask, .ofRows mask r.rows.toList)] }
  else r

def empty (info : RelationInfo) : Relation :=
  let r : Relation := ⟨info, .empty, []⟩
  match info.keyMask with
  | some mask => r.addIndex mask
  | none => r

def size (r : Relation) : Nat := r.rows.size

def contains (r : Relation) (row : Row) : Bool := r.rows.contains row

def count (r : Relation) (row : Row) : Nat := r.rows.count row

def toList (r : Relation) : List Row := r.rows.toList

def lookup (r : Relation) (mask : Mask) (key : Row) : List Row :=
  match r.indices.find? fun i => i.1 = mask with
  | some i => i.2.rows key
  | none => r.toList.filter fun row => mask.select row = key

def mapValue (r : Relation) (key : Row) : Option Value := do
  let mask ← r.info.keyMask
  let row ← (r.lookup mask key).head?
  row.getLast?

def insert (r : Relation) (row : Row) : Relation × Bool :=
  let (rows, isNew) := r.rows.insert row
  if isNew then
    ({ r with
        rows := rows
        indices := r.indices.map fun i => (i.1, i.2.insert (i.1.select row) row) }, true)
  else ({ r with rows := rows }, false)

def erase? (r : Relation) (row : Row) : Option (Relation × Bool) :=
  match r.rows.erase? row with
  | none => none
  | some (rows, true) =>
    some ({ r with
        rows := rows
        indices := r.indices.map fun i => (i.1, i.2.erase (i.1.select row) row) }, true)
  | some (rows, false) => some ({ r with rows := rows }, false)

def sortedRows (r : Relation) : List Row := Row.sort r.toList

def sortedCounts (r : Relation) : List (Row × Nat) :=
  r.rows.entries.mergeSort fun a b => Row.le a.1 b.1

end Relation

end ViewUpkeep
