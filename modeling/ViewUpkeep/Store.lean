import ViewUpkeep.Relation

/-! A store holds the relations of a session, base and derived, in the order of declaration. -/
namespace ViewUpkeep

structure Store where
  relations : List Relation

namespace Store

def empty : Store := ⟨[]⟩

/-- Adds an empty relation; one of the same name is replaced where it stands. -/
def declare (s : Store) (info : RelationInfo) : Store :=
  if s.relations.any fun r => r.name = info.name then
    ⟨s.relations.map fun r => if r.name = info.name then .empty info else r⟩
  else ⟨s.relations ++ [.empty info]⟩

def get? (s : Store) (name : String) : Option Relation := s.relations.find? fun r => r.name = name

def replace (s : Store) (r : Relation) : Store :=
  ⟨s.relations.map fun q => if q.name = r.name then r else q⟩

def load (s : Store) (r : Relation) : Store := (s.declare r.info).replace r

def addIndex (s : Store) (name : String) (mask : Mask) : Store :=
  match s.get? name with
  | some r => s.replace (r.addIndex mask)
  | none => s

def contains (s : Store) (name : String) (row : Row) : Bool :=
  match s.get? name with
  | some r => r.contains row
  | none => false

def names (s : Store) : List String := s.relations.map Relation.name

def derivedSize (s : Store) : Nat :=
  ((s.relations.filter fun r => !r.info.origin.isBase).map Relation.size).foldr (· + ·) 0

end Store

end ViewUpkeep
