import ViewUpkeep.CompileError
import ViewUpkeep.Comprehension
import ViewUpkeep.Plan
import ViewUpkeep.Text.Lines

/-!
Handlers keep the rows of a comprehension up to date. For each relation that the comprehension reads
and each sign of change there is one, which runs before or after the change and records the changes
of the comprehension's rows.
-/
namespace ViewUpkeep

structure Handler where
  /-- The relation that is kept up to date. -/
  target : String
  /-- The relation whose changes it follows. -/
  rel : String
  change : Change
  placement : Placement
  code : Code

namespace Handler

/-- A heading, and below it the lines of the printed code, which a name may also break. -/
def print (h : Handler) : String :=
  h.placement.print ++ " " ++ h.change.print ++ "(" ++ h.rel ++ ") -> " ++ h.target ++ ":\n" ++
    String.join ((Code.indent ((Text.lines h.code.print.toList).map String.ofList)).map (· ++ "\n"))

def planDelta (owner : String) (j : Join) (estimate : Estimator) :
    Except CompileError (List Plan.Step) :=
  match (Plan.ofJoin j [Var.delta] estimate).complete with
  | .ok steps => .ok steps
  | .error stuck => .error (.unorderableJoin owner stuck)

def branch (owner : String) (estimate : Estimator) (leaf : Code) (j : Join) :
    Except CompileError Code := do
  let steps ← planDelta owner j estimate
  match Plan.code steps leaf with
  | .ok code => .ok code
  | .error e => .error (.unready e)

def branches (owner : String) (estimate : Estimator) (leaf : Code) :
    List (Nat × Join) → Except CompileError (List Code)
  | [] => .ok []
  | j :: js => do
    let c ← branch owner estimate leaf j.2
    let cs ← branches owner estimate leaf js
    return c :: cs

/-- Strategies that compare the bindings of different occurrences. -/
def unites : SelfJoin → Bool
  | .das | .assumeDisjointVerify => true
  | .sub | .aug | .assumeDisjoint => false

def make (spec : Comprehension) (target rel : String) (change : Change) (strategy : SelfJoin)
    (estimate : Estimator) : Except CompileError Handler := do
  let update := Code.update target change spec.output
  let joins := spec.join.deltas rel (.var Var.delta) strategy
  let code ←
    if 1 < joins.length && unites strategy then do
      let cs ← branches target estimate .collect joins
      pure (Code.union spec.join.vars (strategy = .assumeDisjointVerify) cs update)
    else do
      let cs ← branches target estimate update joins
      pure (Code.ofList cs)
  return ⟨target, rel, change, strategy.placement change, code⟩

def makeAll (spec : Comprehension) (target : String) (strategy : SelfJoin) (estimate : Estimator) :
    List (String × Change) → Except CompileError (List Handler)
  | [] => .ok []
  | (rel, change) :: rest => do
    let h ← make spec target rel change strategy estimate
    let hs ← makeAll spec target strategy estimate rest
    return h :: hs

def ofComprehension (spec : Comprehension) (target : String) (strategy : SelfJoin)
    (estimate : Estimator) : Except CompileError (List Handler) :=
  makeAll spec target strategy estimate
    (spec.join.rels.flatMap fun rel => [(rel, .add), (rel, .remove)])

end Handler

end ViewUpkeep
