import ViewUpkeep.Declarations
import ViewUpkeep.Demand
import ViewUpkeep.Lowering

/-!
Programs: what a session needs to know of a script. That is the catalog of all relations, base and
derived, the masks by which rows are looked up, and each query with its supports and handlers.
-/
namespace ViewUpkeep

structure CompiledQuery where
  name : String
  params : List Var
  /-- The comprehension as written. -/
  spec : Comprehension
  /-- The comprehension whose rows are kept, over demand set and filters. -/
  maintained : Option Comprehension
  settings : Settings
  /-- The relation of the result, unless it is evaluated on every read. -/
  result : Option String
  demandSet : Option String
  counted : Bool
  supports : List Support
  handlers : List Handler
  /-- What evaluation from scratch looks up. -/
  lookups : List (String × Mask)

namespace CompiledQuery

def arity (q : CompiledQuery) : Nat := q.spec.arity

def mode (q : CompiledQuery) : Mode := q.settings.mode

def signature (q : CompiledQuery) : Signature :=
  ⟨q.name, q.params.length, q.arity, q.mode, q.spec.unconstrainedParams.isEmpty⟩

def paramMask (q : CompiledQuery) : Mask := .first q.params.length q.arity

def relations (q : CompiledQuery) : List RelationInfo :=
  (q.result.toList.map fun r => .derived r q.arity (.result q.name) q.counted) ++
    (q.demandSet.toList.map fun u => .derived u q.params.length (.demandSet q.name) true) ++
    q.supports.filterMap fun s =>
      match s.kind with
      | .tag v => some (.derived s.target s.spec.arity (.tag q.name v) s.counted)
      | .filter => some (.derived s.target s.spec.arity (.filter q.name s.clause) s.counted)
      | .entry _ => none

def masks (q : CompiledQuery) : List (String × Mask) :=
  (if q.params.isEmpty then [] else q.result.toList.map fun r => (r, q.paramMask)) ++
    q.lookups ++ q.handlers.flatMap fun h => h.code.lookups

end CompiledQuery

structure Program where
  catalog : List RelationInfo
  indices : List (String × Mask)
  /-- The queries, each after those that it reads. -/
  queries : List CompiledQuery

namespace Program

def empty : Program := ⟨[], [], []⟩

def relation? (p : Program) (name : String) : Option RelationInfo := p.catalog.find? (·.name = name)

def query? (p : Program) (name : String) : Option CompiledQuery := p.queries.find? (·.name = name)

def handlers (p : Program) : List Handler := p.queries.flatMap (·.handlers)

def handlersFor (p : Program) (rel : String) : List Handler := p.handlers.filter (·.rel = rel)

/-- The breach of setting up the relations of the program. -/
def breach? (p : Program) : Option Breach := p.catalog.findSome? RelationInfo.breach?

/-- Puts a relation into a catalog, in the place of one of the same name if there is one. -/
def insertInfo (catalog : List RelationInfo) (info : RelationInfo) : List RelationInfo :=
  if catalog.any (·.name = info.name) then
    catalog.map fun i => if i.name = info.name then info else i
  else catalog ++ [info]

def insertMask (indices : List (String × Mask)) (m : String × Mask) : List (String × Mask) :=
  if indices.contains m then indices else indices ++ [m]

def install (p : Program) (q : CompiledQuery) : Program :=
  { catalog := q.relations.foldl insertInfo p.catalog
    indices := q.masks.foldl insertMask p.indices
    queries := p.queries ++ [q] }

end Program

namespace Compile

structure Options where
  settings : Settings
  estimate : Estimator

def checkOrder (o : Options) (name : String) (j : Join) (bound : List Var) :
    Except CompileError Unit :=
  match (Plan.ofJoin j bound o.estimate).complete with
  | .ok _ => .ok ()
  | .error stuck => .error (.unorderableJoin name stuck)

def stepLookup (scope : Scope) (s : Plan.Step) : Option (String × Mask) :=
  match s.clause with
  | .member lhs rel | .mapMember lhs rel _ =>
    let mask := Mask.ofPattern lhs s.bound
    if mask.isPartial && (scope.query? rel).isNone then some (rel, mask) else none
  | _ => none

def planLookups (scope : Scope) (j : Join) (bound : List Var) : List (String × Mask) :=
  match (Plan.ofJoin j bound .silent).complete with
  | .ok steps => steps.filterMap (stepLookup scope)
  | .error _ => []

/-- What evaluation from scratch looks up, with the parameters known and with none known. -/
def batchLookups (scope : Scope) (spec : Comprehension) : List (String × Mask) :=
  (planLookups scope spec.join spec.params ++
    if spec.params.isEmpty then [] else planLookups scope spec.join []).eraseDups

def counting (name : String) (c : Counting) (duplicateSafe : Bool) : Except CompileError Bool :=
  match c with
  | .yes => .ok true
  | .no => if duplicateSafe then .ok false else .error (.countingRequired name)
  | .safe => .ok (!duplicateSafe)

def demandPlan (o : Options) (name : String) (spec : Comprehension) (s : Settings) :
    Except CompileError DemandPlan :=
  if s.mode = .dem then do
    checkOrder o name spec.join spec.params
    DemandPlan.ofJoin name (spec.restrictTo (Demand.setName name)).join s.filters o.estimate
  else
    match spec.unconstrainedParams.head? with
    | some p => .error (.unconstrainedParameter name p)
    | none => do
      checkOrder o name spec.join []
      DemandPlan.ofJoin name spec.join false o.estimate

/-- The handlers of supports, whose demand sets must be known. -/
def supportHandlers (o : Options) (name : String) (strategy : SelfJoin)
    (catalog : List RelationInfo) : List Support → Except CompileError (List Handler)
  | [] => .ok []
  | s :: rest => do
    match s.kind with
    | .entry subquery =>
      if catalog.any (·.name = s.target) then pure ()
      else throw (.missingDemandSet name subquery)
    | _ => pure ()
    let hs ← Handler.ofComprehension s.spec s.target strategy o.estimate
    let more ← supportHandlers o name strategy catalog rest
    return hs ++ more

def maintained (o : Options) (name : String) (spec : Comprehension) (s : Settings) (counted : Bool)
    (catalog : List RelationInfo) : Except CompileError CompiledQuery := do
  let plan ← demandPlan o name spec s
  let kept : Comprehension := ⟨plan.join, spec.result, spec.params⟩
  let hs ← supportHandlers o name s.selfJoin catalog plan.supports
  let own ← Handler.ofComprehension kept name s.selfJoin o.estimate
  return {
    name := name
    params := spec.params
    spec := spec
    maintained := some kept
    settings := s
    result := some name
    demandSet := if s.mode = .dem then some (Demand.setName name) else none
    counted := counted
    supports := plan.supports
    handlers := hs ++ own
    lookups := [] }

def batch (o : Options) (name : String) (spec : Comprehension) (s : Settings) (counted : Bool)
    (scope : Scope) : Except CompileError CompiledQuery := do
  checkOrder o name spec.join spec.params
  return {
    name := name
    params := spec.params
    spec := spec
    maintained := none
    settings := s
    result := none
    demandSet := none
    counted := counted
    supports := []
    handlers := []
    lookups := batchLookups scope spec }

def query (o : Options) (decl : QueryDecl) (scope : Scope) (catalog : List RelationInfo) :
    Except CompileError CompiledQuery := do
  let overrides ← match Overrides.empty.setAll decl.options with
    | .ok v => pure v
    | .error e => throw (.invalidOption decl.name e)
  let s := o.settings.resolve overrides (!decl.params.isEmpty)
  let spec ← Lowering.query decl s.mode scope
  match spec.unboundResultVars.head? with
  | some v => throw (.unboundResult decl.name v)
  | none => pure ()
  let counted ← counting decl.name s.counting spec.isDuplicateSafe
  if s.mode = .batch then batch o decl.name spec s counted scope
  else maintained o decl.name spec s counted catalog

/-- Queries that were compiled, and those that failed or read one that did. -/
structure Progress where
  program : Program
  failed : List String
  errors : List CompileError

/-- Compiles the next query; a query that reads a failed one is left out. -/
def step (o : Options) (d : Declarations) (p : Progress) (decl : QueryDecl) :
    Except CompileError Progress :=
  if decl.reads.any fun n => p.failed.contains n then
    .ok { p with failed := decl.name :: p.failed }
  else do
    let q ← query o decl ⟨d.relations, p.program.queries.map (·.signature)⟩ p.program.catalog
    return { p with program := p.program.install q }

/-- As a step, but a query that cannot be compiled counts as failed. -/
def lenientStep (o : Options) (d : Declarations) (p : Progress) (decl : QueryDecl) : Progress :=
  match step o d p decl with
  | .ok p => p
  | .error e => { p with failed := decl.name :: p.failed, errors := p.errors ++ [e] }

def start (d : Declarations) : Progress := ⟨⟨d.relations, [], []⟩, [], []⟩

def prepare (s : Script) : Except CompileError (Declarations × List QueryDecl) := do
  let d ← Declarations.ofScript s
  let names ← Declarations.order d.queries
  return (d, names.filterMap fun n => d.queries.find? (·.name = n))

def strictSteps (o : Options) (d : Declarations) (p : Progress) :
    List QueryDecl → Except CompileError Progress
  | [] => .ok p
  | q :: qs => do
    let p ← step o d p q
    strictSteps o d p qs

end Compile

namespace Program

def ofScript (o : Compile.Options) (s : Script) : Except CompileError Program := do
  let (d, qs) ← Compile.prepare s
  let p ← Compile.strictSteps o d (Compile.start d) qs
  return p.program

def ofScriptLenient (o : Compile.Options) (s : Script) : Program × List CompileError :=
  match Compile.prepare s with
  | .error e => (empty, [e])
  | .ok (d, qs) =>
    let p := qs.foldl (Compile.lenientStep o d) (Compile.start d)
    (p.program, p.errors)

end Program

end ViewUpkeep
