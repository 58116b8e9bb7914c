import ViewUpkeep.Join

/-!
Plans order the clauses of a join so that each can run when its turn comes. At each step the clause
with the best rating is taken, the leftmost of several unless an estimate prefers another; nothing
is taken back.
-/
namespace ViewUpkeep

abbrev Estimator := Clause → List Var → Option Nat

namespace Estimator

def silent : Estimator := fun _ _ => none

/-- Estimates by the sizes of relations: each bound position divides by sixteen. -/
def ofSizes (sizes : List (String × Nat)) : Estimator := fun c bound => do
  let rel ← c.rel?
  let size ← (sizes.find? fun s => s.1 = rel).map Prod.snd
  return size >>> (4 * (c.lhs.filter fun v => bound.contains v).length)

end Estimator

namespace Plan

/-- A clause in its turn: its place in the join, and what is bound before it. -/
structure Step where
  index : Nat
  clause : Clause
  bound : List Var

namespace Step

def boundAfter (s : Step) : List Var := s.bound ++ s.clause.enumVars

end Step

structure Candidate where
  index : Nat
  clause : Clause
  rate : Rate
  cost : Option Nat

namespace Candidate

/-- Strictly better: by rating, or at the same rating by two known estimates. -/
def beats (a b : Candidate) : Bool :=
  a.rate.rank < b.rate.rank ||
    (a.rate = b.rate &&
      match a.cost, b.cost with
      | some c, some d => decide (c < d)
      | _, _ => false)

def best (b : Candidate) (cs : List Candidate) : Candidate :=
  cs.foldl (fun b c => if c.beats b then c else b) b

end Candidate

def candidate (estimate : Estimator) (bound : List Var) (p : Clause × Nat) : Candidate :=
  let rate := p.1.rate bound
  ⟨p.2, p.1, rate, if rate = .unrunnable then none else estimate p.1 bound⟩

def pick (estimate : Estimator) (bound : List Var) (remaining : List (Clause × Nat)) :
    Option Candidate :=
  match remaining.map (candidate estimate bound) with
  | [] => none
  | c :: cs =>
    let b := Candidate.best c cs
    if b.rate = .unrunnable then none else some b

end Plan

/-- The steps taken, and the clauses that could not be placed. -/
structure Plan where
  steps : List Plan.Step
  stuck : List Clause

namespace Plan

def extend (estimate : Estimator) : Nat → List Var → List (Clause × Nat) → Plan
  | 0, _, remaining => ⟨[], remaining.map Prod.fst⟩
  | n + 1, bound, remaining =>
    match pick estimate bound remaining with
    | none => ⟨[], remaining.map Prod.fst⟩
    | some c =>
      let rest := extend estimate n (bound ++ c.clause.enumVars)
        (remaining.eraseP fun p => p.2 = c.index)
      ⟨⟨c.index, c.clause, bound⟩ :: rest.steps, rest.stuck⟩

def ofJoin (j : Join) (bound : List Var) (estimate : Estimator) : Plan :=
  extend estimate j.length bound j.zipIdx

def complete (p : Plan) : Except (List Clause) (List Step) :=
  if p.stuck.isEmpty then .ok p.steps else .error p.stuck

def code : List Step → Code → Except Clause.Unready Code
  | [], body => .ok body
  | s :: rest, body => do
    let inner ← code rest body
    s.clause.code s.bound inner

end Plan

end ViewUpkeep
