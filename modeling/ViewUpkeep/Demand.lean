import ViewUpkeep.Handler

/-!
Demand. A demanded query is kept up to date only for the parameters in its demand set. Its clauses,
from left to right, get supports: a filter, which is the clause's relation restricted to rows that
fit the tags so far; tags, which are the values of the variables that the clause binds first; and
for a clause over another demanded query an entry, which demands that query for the tagged
arguments. Supports that nothing needs are dropped.
-/
namespace ViewUpkeep

namespace Demand

def setName (query : String) : String := query ++ ".U"

def tagName (query : String) (v : Var) : String := query ++ ".T_" ++ v.name

def filterName (query : String) (clause : Nat) (rel : String) : String :=
  query ++ ".F" ++ toString clause ++ "_" ++ rel

end Demand

inductive SupportKind where
  | tag (v : Var)
  | filter
  | entry (subquery : String)
deriving DecidableEq

/-- A comprehension that a demanded query keeps for itself. -/
structure Support where
  kind : SupportKind
  /-- The place of the clause that it belongs to. -/
  clause : Nat
  /-- The relation it writes; an entry writes the demand set of its subquery. -/
  target : String
  spec : Comprehension

namespace Support

def isTag (s : Support) : Bool :=
  match s.kind with
  | .tag _ => true
  | _ => false

def isFilter (s : Support) : Bool := s.kind = .filter

def isEntry (s : Support) : Bool :=
  match s.kind with
  | .entry _ => true
  | _ => false

def counted (s : Support) : Bool := s.isEntry || !s.spec.isDuplicateSafe

def reads (s : Support) (rel : String) : Bool := s.spec.join.rels.contains rel

def print (s : Support) : String :=
  (match s.kind with
    | .tag _ => "tag "
    | .filter => "filter "
    | .entry _ => "demand ") ++ s.target ++ " = " ++ s.spec.print

end Support

namespace Demand

def tagClauses (query : String) (vs : List Var) : List Clause :=
  vs.map fun v => .member [v] (tagName query v)

/-- The filter or the entry of a clause, given the variables with tags. -/
def guardOf (query : String) (filters : Bool) (tagged : List Var) (i : Nat) (c : Clause) :
    Except CompileError (Option Support) :=
  match c with
  | .demand _ subquery params =>
    match params.find? fun p => !tagged.contains p with
    | some p => .error (.ungroundedArgument query subquery p)
    | none =>
      .ok (some ⟨.entry subquery, i, setName subquery,
        ⟨tagClauses query params.eraseDups, .tupleOf params, []⟩⟩)
  | .member _ rel | .mapMember _ rel _ =>
    let known := c.tagsIn.filter fun v => tagged.contains v
    if filters && 0 < i && !known.isEmpty then
      .ok (some ⟨.filter, i, filterName query i rel,
        ⟨tagClauses query known ++ [c], .tupleOf c.lhs, []⟩⟩)
    else .ok none
  | _ => .ok none

/-- What the tags of a clause range over: its filter, the results for the demanded arguments, or the
clause itself. -/
def tagSource (c : Clause) (guard : Option Support) : Join :=
  match guard, c with
  | some g, .demand inner _ _ => g.spec.join ++ [inner]
  | some g, _ => [c.onRelation g.target]
  | none, .demand inner _ _ => [inner]
  | none, _ => [c]

def newTags (tagged : List Var) (c : Clause) : List Var :=
  c.tagsOut.filter fun v => !v.isAnonymous && !tagged.contains v

def supportsFrom (query : String) (filters : Bool) (i : Nat) (tagged : List Var) :
    Join → Except CompileError (List Support)
  | [] => .ok []
  | c :: rest => do
    let guard ← guardOf query filters tagged i c
    let fresh := newTags tagged c
    let source := tagSource c guard
    let tags := fresh.map fun v =>
      (⟨.tag v, i, tagName query v, ⟨source, .var v, []⟩⟩ : Support)
    let later ← supportsFrom query filters (i + 1) (tagged ++ fresh) rest
    return guard.toList ++ tags ++ later

def candidates (query : String) (j : Join) (filters : Bool) : Except CompileError (List Support) :=
  supportsFrom query filters 0 [] j

/-- The clauses, other than the changed one, that steps reach without knowing their inputs. -/
def unfiltered (place : Nat) (steps : List Plan.Step) : List Nat :=
  (steps.filter fun s => s.index ≠ place && s.clause.needsFiltering s.bound).map (·.index)

def unfilteredAll (query : String) (estimate : Estimator) :
    List (Nat × Join) → Except CompileError (List Nat)
  | [] => .ok []
  | (place, j) :: rest => do
    let steps ← Handler.planDelta query j estimate
    let more ← unfilteredAll query estimate rest
    return unfiltered place steps ++ more

/-- The clauses whose filter is worth having: those with a filter that some change would range over
with an input unknown. -/
def select (query : String) (j : Join) (supports : List Support) (estimate : Estimator) :
    Except CompileError (List Nat) := do
  let reached ← unfilteredAll query estimate
    (j.rels.flatMap fun rel => j.deltas rel (.var Var.delta) .das)
  return (List.range j.length).filter fun i =>
    reached.contains i && supports.any fun s => s.isFilter && s.clause = i

/-- Drops filters that are not selected and that no tag reads, then tags that nothing reads. -/
def pruneOnce (selected : List Nat) (supports : List Support) : List Support :=
  let kept := supports.filter fun s =>
    !s.isFilter || selected.contains s.clause ||
      supports.any fun t => t.isTag && t.reads s.target
  kept.filter fun s =>
    !s.isTag || kept.any fun r => r.target ≠ s.target && r.reads s.target

def pruneUpTo (selected : List Nat) : Nat → List Support → List Support
  | 0, supports => supports
  | n + 1, supports =>
    let kept := pruneOnce selected supports
    if kept.length = supports.length then kept else pruneUpTo selected n kept

def prune (supports : List Support) (selected : List Nat) : List Support :=
  pruneUpTo selected supports.length supports

def apply (j : Join) (supports : List Support) (selected : List Nat) : Join :=
  j.zipIdx.map fun p =>
    match supports.find? fun s => s.isFilter && s.clause = p.2 && selected.contains p.2 with
    | some f => p.1.onRelation f.target
    | none => p.1

end Demand

structure DemandPlan where
  supports : List Support
  selected : List Nat
  join : Join

def DemandPlan.ofJoin (query : String) (j : Join) (filters : Bool) (estimate : Estimator) :
    Except CompileError DemandPlan := do
  let candidates ← Demand.candidates query j filters
  let selected ← Demand.select query j candidates estimate
  let supports := Demand.prune candidates selected
  return ⟨supports, selected, Demand.apply j supports selected⟩

end ViewUpkeep
