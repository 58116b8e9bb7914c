import ViewUpkeep.Batch

/-!
Sessions: a program at work on a store. A change of a relation, base or derived, runs the handlers
that come before it, is applied, and runs those that come after it, the last registered first. The
changes that handlers record are applied in the same way, one at a time and depth first. Handlers of
counted relations run only when a row appears or disappears. A failure on the way leaves the session
poisoned.
-/
namespace ViewUpkeep

inductive RuntimeError where
  | unknownRelation (name : String)
  | unknownQuery (name : String)
  | arityMismatch (name : String) (expected found : Nat)
  /-- Only base relations are changed by hand. -/
  | derivedRelation (name : String)
  | notAMap (name : String)
  /-- The key of a map has another value already. -/
  | keyConflict (map : String) (key : Row) (existing : Value)
  | notDemandDriven (query : String)
  | notDemanded (query : String) (params : Row)
  | parametersRequired (query : String) (count : Nat)
  /-- Code or evaluation failed. -/
  | exec (e : ExecError)
  /-- The rows kept for a query are not those of its evaluation. -/
  | instrumentationMismatch (query : String) (expected found : List Row)
  /-- A relation could not take a change. -/
  | breach (b : Breach)
  /-- The changes did not come to an end, within a limit or at all. -/
  | exhausted
  /-- An earlier failure left the store in disorder. -/
  | poisoned
deriving DecidableEq

namespace RuntimeError

def message : RuntimeError → String
  | .unknownRelation name => "unknown relation " ++ name
  | .unknownQuery name => "unknown query " ++ name
  | .arityMismatch name expected found =>
    name ++ " expects " ++ toString expected ++ " values, got " ++ toString found
  | .derivedRelation name => name ++ " is derived and cannot be changed directly"
  | .notAMap name => name ++ " is not a map"
  | .keyConflict map key existing => map ++ key.print ++ " already maps to " ++ existing.print
  | .notDemandDriven query => query ++ " is not demand driven"
  | .notDemanded query params => query ++ params.print ++ " is not demanded"
  | .parametersRequired query count => query ++ " needs " ++ toString count ++ " arguments"
  | .exec (.eval e) => "evaluation failed: " ++ e.message
  | .exec e => if e.isInternal then "internal error: " ++ e.detail else e.detail
  | .instrumentationMismatch query expected found =>
    "maintained result of " ++ query ++ " has " ++ toString found.length ++
      " rows, batch evaluation has " ++ toString expected.length
  | .breach b => b.message
  | .exhausted => "changes without end"
  | .poisoned => "session is poisoned by an earlier failure"

end RuntimeError

structure Stats where
  changes : Nat
  handlerRuns : Nat
deriving DecidableEq, Repr

structure Session where
  program : Program
  store : Store
  /-- The demands of the user that were not taken back, by query and parameters. -/
  demands : List ((String × Row) × Nat)
  poisoned : Bool
  stats : Stats

namespace Session

def ofProgram (p : Program) : Session :=
  let store := p.catalog.foldl Store.declare .empty
  let store := p.indices.foldl (fun s i => s.addIndex i.1 i.2) store
  ⟨p, store, [], false, ⟨0, 0⟩⟩

abbrev Outcome (α : Type) := Session × Except RuntimeError α

/-! ### Changes and what follows from them -/

/-- Runs handlers on one state of the store; also tells how many were started. -/
def runHandlers (store : Store) (row : Row) : List Handler → Nat × Except ExecError (List Update)
  | [] => (0, .ok [])
  | h :: hs =>
    match h.code.run store row with
    | .error e => (1, .error e)
    | .ok us =>
      let (n, rest) := runHandlers store row hs
      (n + 1, rest.map (us ++ ·))

def countRuns (s : Session) (n : Nat) : Session :=
  { s with stats := { s.stats with handlerRuns := s.stats.handlerRuns + n } }

def countChange (s : Session) : Session :=
  { s with stats := { s.stats with changes := s.stats.changes + 1 } }

/-- What is wrong with a change of a relation that does not count its rows. -/
def breach? (r : Relation) (u : Update) : Option Breach :=
  if r.info.counted then none
  else
    match u.change with
    | .add => if 0 < r.count u.row then some (.duplicateAdd u.row u.rel) else none
    | .remove => if r.count u.row = 0 then some (.absentRemove u.row u.rel) else none

def isTransition (r : Relation) (u : Update) : Bool :=
  match u.change with
  | .add => r.count u.row = 0
  | .remove => r.count u.row = 1

def changed (r : Relation) (u : Update) : Except Breach Relation :=
  match u.change with
  | .add => .ok (r.insert u.row).1
  | .remove =>
    match r.erase? u.row with
    | some (r', _) => .ok r'
    | none => .error (.underflow u.row u.rel)

def put (s : Session) (r : Relation) (u : Update) : Outcome Unit :=
  match changed r u with
  | .ok r' => ({ s with store := s.store.replace r' }, .ok ())
  | .error b => (s, .error (.breach b))

def follow (s : Session) (row : Row) (hs : List Handler) : Outcome (List Update) :=
  match runHandlers s.store row hs with
  | (n, .ok us) => (s.countRuns n, .ok us)
  | (n, .error e) => (s.countRuns n, .error (.exec e))

def handlersOf (s : Session) (u : Update) (p : Placement) : List Handler :=
  let hs := (s.program.handlersFor u.rel).filter fun h => h.change = u.change && h.placement = p
  match p with
  | .before => hs
  | .after => hs.reverse

/-- Applies a change that makes a row appear or disappear, and gives the changes that follow. -/
def applyTransition (s : Session) (r : Relation) (u : Update) : Outcome (List Update) :=
  match s.follow u.row (s.handlersOf u .before) with
  | (s, .error e) => (s, .error e)
  | (s, .ok us) =>
    match s.put r u with
    | (s, .error e) => (s, .error e)
    | (s, .ok ()) =>
      match s.follow u.row (s.handlersOf u .after) with
      | (s, .error e) => (s, .error e)
      | (s, .ok vs) => (s, .ok (us ++ vs))

def apply (s : Session) (u : Update) : Outcome (List Update) :=
  match s.store.get? u.rel with
  | none => (s, .error (.exec (.unknownTarget u.rel)))
  | some r =>
    match breach? r u with
    | some b => (s, .error (.breach b))
    | none =>
      let s := s.countChange
      if isTransition r u then s.applyTransition r u
      else
        match s.put r u with
        | (s, .error e) => (s, .error e)
        | (s, .ok ()) => (s, .ok [])

theorem apply_error {s s' : Session} {u : Update} {e : RuntimeError}
    (h : s.apply u = (s', .error e)) :
    (∃ x, e = .exec x) ∨ ∃ b r, e = .breach b ∧ s.store.get? u.rel = some r ∧
      (breach? r u = some b ∨ Session.changed r u = .error b) := by
  have hfollow : ∀ {t t' : Session} {hs : List Handler},
      t.follow u.row hs = (t', .error e) → ∃ x, e = .exec x := by
    intro t t' hs hf
    unfold follow at hf
    split at hf <;> cases hf
    exact ⟨_, rfl⟩
  have hput : ∀ {t t' : Session} {r : Relation}, t.put r u = (t', .error e) →
      ∃ b, e = .breach b ∧ Session.changed r u = .error b := by
    intro t t' r hp
    unfold put at hp
    split at hp
    · cases hp
    · rename_i b hb
      cases hp
      exact ⟨b, rfl, hb⟩
  unfold apply at h
  split at h
  · cases h
    exact .inl ⟨_, rfl⟩
  · rename_i r hget
    have hchanged : (∃ b, e = .breach b ∧ Session.changed r u = .error b) →
        ∃ b r, e = .breach b ∧ s.store.get? u.rel = some r ∧
          (breach? r u = some b ∨ Session.changed r u = .error b) :=
      fun ⟨b, he, hb⟩ => ⟨b, r, he, hget, .inr hb⟩
    split at h
    · rename_i b hb
      cases h
      exact .inr ⟨b, r, rfl, hget, .inl hb⟩
    · dsimp only at h
      split at h
      · unfold applyTransition at h
        split at h
        · rename_i hf
          cases h
          exact .inl (hfollow hf)
        · split at h
          · rename_i hp
            cases h
            exact .inr (hchanged (hput hp))
          · split at h
            · rename_i hf
              cases h
              exact .inl (hfollow hf)
            · cases h
      · split at h
        · rename_i hp
          cases h
          exact .inr (hchanged (hput hp))
        · cases h

theorem ne_exhausted_of_apply {s s' : Session} {u : Update} {e : RuntimeError}
    (h : s.apply u = (s', .error e)) : e ≠ .exhausted := by
  obtain ⟨x, rfl⟩ | ⟨b, r, rfl, _⟩ := apply_error h
  · simp
  · simp

/-- Applies changes and all that follow from them, at most `limit` in number. It can be evaluated in
proofs, which the loop without a limit below cannot. -/
def propagate : Nat → Session → List Update → Outcome Unit
  | _, s, [] => (s, .ok ())
  | 0, s, _ :: _ => (s, .error .exhausted)
  | limit + 1, s, u :: rest =>
    match s.apply u with
    | (s, .error e) => (s, .error e)
    | (s, .ok us) => propagate limit s (us ++ rest)

@[simp] theorem propagate_nil (n : Nat) (s : Session) : propagate n s [] = (s, .ok ()) := by
  cases n <;> rfl

/-- A limit that was enough can be raised without effect. -/
theorem propagate_add {n : Nat} {s : Session} {us : List Update} (k : Nat)
    (enough : (propagate n s us).2 ≠ .error .exhausted) :
    propagate (n + k) s us = propagate n s us := by
  induction n generalizing s us with
  | zero =>
    cases us with
    | nil => simp
    | cons u rest => exact absurd rfl enough
  | succ n ih =>
    cases us with
    | nil => simp
    | cons u rest =>
      rw [Nat.succ_add]
      simp only [propagate] at enough ⊢
      split
      · rfl
      · rename_i h
        simp only [h] at enough
        exact ih enough

/-- What becomes of changes without a limit: the outcome within any limit that is enough, if one
is. -/
structure Ends (s : Session) (us : List Update) (o : Option (Outcome Unit)) : Prop where
  enough : ∀ n, (propagate n s us).2 ≠ .error .exhausted → o = some (propagate n s us)
  within : ∀ r, o = some r → ∃ n, propagate n s us = r ∧ r.2 ≠ .error .exhausted

namespace Ends

variable {s t : Session} {u : Update} {rest : List Update}

theorem of_enough {n : Nat} {us : List Update} (h : (propagate n s us).2 ≠ .error .exhausted) :
    Ends s us (some (propagate n s us)) := by
  refine ⟨fun m hm => ?_, fun r hr => ⟨n, Option.some.inj hr, Option.some.inj hr ▸ h⟩⟩
  rw [← propagate_add m h, Nat.add_comm, propagate_add n hm]

theorem exists_ends (s : Session) (us : List Update) : ∃ o, Ends s us o := by
  by_cases hends : ∃ n, (propagate n s us).2 ≠ .error .exhausted
  · obtain ⟨n, hn⟩ := hends
    exact ⟨_, of_enough hn⟩
  · exact ⟨none, fun n hn => absurd ⟨n, hn⟩ hends, by simp⟩

theorem nil (s : Session) : Ends s [] (some (s, .ok ())) := of_enough (n := 0) (by simp)

theorem error {e : RuntimeError} (h : s.apply u = (t, .error e)) :
    Ends s (u :: rest) (some (t, .error e)) := by
  have hrun : propagate 1 s (u :: rest) = (t, .error e) := by simp only [propagate, h]
  rw [← hrun]
  refine of_enough ?_
  rw [hrun]
  simpa using ne_exhausted_of_apply h

theorem cons {us : List Update} {o : Option (Outcome Unit)} (h : s.apply u = (t, .ok us))
    (ends : Ends t (us ++ rest) o) : Ends s (u :: rest) o := by
  have hstep : ∀ n, propagate (n + 1) s (u :: rest) = propagate n t (us ++ rest) := by
    intro n
    simp only [propagate, h]
  constructor
  · intro n hn
    cases n with
    | zero => exact absurd rfl hn
    | succ n =>
      rw [hstep] at hn ⊢
      exact ends.enough n hn
  · intro r hr
    obtain ⟨n, hn, hne⟩ := ends.within r hr
    exact ⟨n + 1, (hstep n).trans hn, hne⟩

end Ends

instance (s : Session) (us : List Update) : Nonempty { o // Ends s us o } :=
  let ⟨o, h⟩ := Ends.exists_ends s us
  ⟨o, h⟩

/-- Applies changes and all that follow from them until there are none. No measure shows that this
happens, so that the loop carries what is known of its outcome. -/
def loop (s : Session) (us : List Update) : { o // Ends s us o } :=
  WellFounded.extrinsicFix (C := fun a : Session × List Update => { o // Ends a.1 a.2 o })
    (fun _ _ => True)
    (fun
      | (s, []), _ => ⟨some (s, .ok ()), .nil s⟩
      | (s, u :: rest), next =>
        match h : s.apply u with
        | (t, .error e) => ⟨some (t, .error e), .error h⟩
        | (t, .ok us) =>
          let o := next (t, us ++ rest) trivial
          ⟨o.1, .cons h o.2⟩)
    (s, us)

/-- How many steps are tried before the loop is run without a limit. -/
def firstLimit : Nat := 4294967296

/-- Applies changes and all that follow from them. Steps are not limited: if the first ones do not
suffice, it is started again without a limit. A run without end has no outcome, and counts as
exhausted. -/
def settle (s : Session) (us : List Update) : Outcome Unit :=
  match propagate firstLimit s us with
  | (_, .error .exhausted) => (s.loop us).1.getD (s, .error .exhausted)
  | r => r

theorem settle_eq {n : Nat} {s : Session} {us : List Update}
    (enough : (propagate n s us).2 ≠ .error .exhausted) : s.settle us = propagate n s us := by
  unfold settle
  split
  · rw [(s.loop us).2.enough n enough, Option.getD_some]
  · rename_i hfirst
    refine Option.some.inj ((Ends.of_enough enough).enough firstLimit fun h => ?_).symm
    exact hfirst _ (Prod.ext rfl h)

/-- Whatever holds after any number of steps holds of the outcome. -/
theorem exists_settle_eq (s : Session) (us : List Update) : ∃ n, s.settle us = propagate n s us := by
  unfold settle
  split
  · cases hsome : (s.loop us).1 with
    | some r =>
      obtain ⟨n, hn, _⟩ := (s.loop us).2.within r hsome
      exact ⟨n, hn.symm⟩
    | none =>
      cases us with
      | nil => exact absurd (hsome.symm.trans ((s.loop []).2.enough 0 (by simp))) (by simp)
      | cons u rest => exact ⟨0, rfl⟩
  · exact ⟨_, rfl⟩

def demandedRows (s : Session) (name : String) : List Row → Batch.Memo → Except ExecError (List Row)
  | [], _ => .ok []
  | params :: rest, memo =>
    match Batch.run s.program s.store (name, some params) memo with
    | (.error e, _) => .error e
    | (.ok rows, memo) => do
      let more ← demandedRows s name rest memo
      return rows.map (params ++ ·) ++ more

def sortedRows (s : Session) (rel : String) : List Row :=
  match s.store.get? rel with
  | some r => r.sortedRows
  | none => []

def expectedRows (s : Session) (q : CompiledQuery) : Except ExecError (List Row) :=
  match q.demandSet with
  | none => s.program.evaluateAll s.store q.name
  | some u => do
    let rows ← s.demandedRows q.name (s.sortedRows u) []
    return Row.sort rows

/-- Compares the rows kept for a query with its evaluation, if it asks for that. -/
def inspect (s : Session) (q : CompiledQuery) : Except RuntimeError Unit :=
  match q.result with
  | none => .ok ()
  | some result =>
    if q.settings.instrument then
      match s.expectedRows q with
      | .error e => .error (.exec e)
      | .ok expected =>
        let found := s.sortedRows result
        if found = expected then .ok ()
        else .error (.instrumentationMismatch q.name expected found)
    else .ok ()

def inspectAll (s : Session) : List CompiledQuery → Except RuntimeError Unit
  | [] => .ok ()
  | q :: qs => do
    s.inspect q
    s.inspectAll qs

def poison (s : Session) : Session := { s with poisoned := true }

def change (s : Session) (u : Update) : Outcome Unit :=
  match s.settle [u] with
  | (s, .error e) => (s.poison, .error e)
  | (s, .ok ()) =>
    match s.inspectAll s.program.queries with
    | .error e => (s.poison, .error e)
    | .ok () => (s, .ok ())

/-! ### Base relations -/

def baseInfo (s : Session) (rel : String) (arity : Nat) : Except RuntimeError RelationInfo :=
  match s.program.relation? rel with
  | none =>
    match s.program.query? rel with
    | some _ => .error (.derivedRelation rel)
    | none => .error (.unknownRelation rel)
  | some info =>
    if !info.origin.isBase then .error (.derivedRelation rel)
    else if info.arity ≠ arity then .error (.arityMismatch rel info.arity arity)
    else .ok info

def checkMap (s : Session) (map : String) (keyLength : Nat) : Except RuntimeError Unit :=
  match s.baseInfo map (keyLength + 1) with
  | .error (.arityMismatch name expected found) =>
    .error (.arityMismatch name (expected - 1) (found - 1))
  | .error e => .error e
  | .ok info =>
    match info.kind with
    | .map _ => .ok ()
    | .set => .error (.notAMap map)

def mapValue (s : Session) (map : String) (key : Row) : Option Value := do
  (← s.store.get? map).mapValue key

def addRow (s : Session) (rel : String) (row : Row) : Outcome Bool :=
  if s.store.contains rel row then (s, .ok false)
  else
    match s.change ⟨rel, .add, row⟩ with
    | (s, .error e) => (s, .error e)
    | (s, .ok ()) => (s, .ok true)

def add (s : Session) (rel : String) (row : Row) : Outcome Bool :=
  if s.poisoned then (s, .error .poisoned)
  else
    match s.baseInfo rel row.length with
    | .error e => (s, .error e)
    | .ok info =>
      match info.kind with
      | .set => s.addRow rel row
      | .map keyArity =>
        match s.mapValue rel (row.take keyArity) with
        | none => s.addRow rel row
        | some existing =>
          if some existing = row.getLast? then (s, .ok false)
          else (s, .error (.keyConflict rel (row.take keyArity) existing))

def remove (s : Session) (rel : String) (row : Row) : Outcome Bool :=
  if s.poisoned then (s, .error .poisoned)
  else
    match s.baseInfo rel row.length with
    | .error e => (s, .error e)
    | .ok _ =>
      if s.store.contains rel row then
        match s.change ⟨rel, .remove, row⟩ with
        | (s, .error e) => (s, .error e)
        | (s, .ok ()) => (s, .ok true)
      else (s, .ok false)

def assign (s : Session) (map : String) (key : Row) (value : Value) : Outcome Bool :=
  if s.poisoned then (s, .error .poisoned)
  else
    match s.checkMap map key.length with
    | .error e => (s, .error e)
    | .ok () =>
      match s.mapValue map key with
      | none =>
        match s.change ⟨map, .add, key ++ [value]⟩ with
        | (s, .error e) => (s, .error e)
        | (s, .ok ()) => (s, .ok true)
      | some old =>
        if old = value then (s, .ok false)
        else
          match s.change ⟨map, .remove, key ++ [old]⟩ with
          | (s, .error e) => (s, .error e)
          | (s, .ok ()) =>
            match s.change ⟨map, .add, key ++ [value]⟩ with
            | (s, .error e) => (s, .error e)
            | (s, .ok ()) => (s, .ok true)

def unassign (s : Session) (map : String) (key : Row) : Outcome Bool :=
  if s.poisoned then (s, .error .poisoned)
  else
    match s.checkMap map key.length with
    | .error e => (s, .error e)
    | .ok () =>
      match s.mapValue map key with
      | none => (s, .ok false)
      | some old =>
        match s.change ⟨map, .remove, key ++ [old]⟩ with
        | (s, .error e) => (s, .error e)
        | (s, .ok ()) => (s, .ok true)

/-! ### Demand -/

def checkArity (name : String) (expected found : Nat) : Except RuntimeError Unit :=
  if expected = found then .ok () else .error (.arityMismatch name expected found)

def compiled (s : Session) (query : String) : Except RuntimeError CompiledQuery :=
  match s.program.query? query with
  | some q => .ok q
  | none => .error (.unknownQuery query)

def demandTarget (s : Session) (query : String) (params : Row) : Except RuntimeError String := do
  let q ← s.compiled query
  match q.demandSet with
  | none => .error (.notDemandDriven query)
  | some u =>
    checkArity query q.params.length params.length
    return u

def demandCount (s : Session) (query : String) (params : Row) : Nat :=
  ((s.demands.find? fun d => d.1 = (query, params)).map Prod.snd).getD 0

def setDemand (s : Session) (query : String) (params : Row) (n : Nat) : Session :=
  let others := s.demands.filter fun d => d.1 ≠ (query, params)
  { s with demands := if n = 0 then others else others ++ [((query, params), n)] }

/-- Demands a query for parameters, once more each time. -/
def demand (s : Session) (query : String) (params : Row) : Outcome Unit :=
  if s.poisoned then (s, .error .poisoned)
  else
    match s.demandTarget query params with
    | .error e => (s, .error e)
    | .ok u =>
      (s.setDemand query params (s.demandCount query params + 1)).change ⟨u, .add, params⟩

def undemand (s : Session) (query : String) (params : Row) : Outcome Unit :=
  if s.poisoned then (s, .error .poisoned)
  else
    match s.demandTarget query params with
    | .error e => (s, .error e)
    | .ok u =>
      match s.demandCount query params with
      | 0 => (s, .error (.notDemanded query params))
      | n + 1 => (s.setDemand query params n).change ⟨u, .remove, params⟩

def isDemanded (s : Session) (query : String) (params : Row) : Except RuntimeError Bool := do
  let u ← s.demandTarget query params
  return s.store.contains u params

/-- The demands of the user by query and parameters. -/
def userDemands (s : Session) : List ((String × Row) × Nat) :=
  s.demands.mergeSort fun a b =>
    decide (a.1.1 < b.1.1) || (a.1.1 = b.1.1 && Row.le a.1.2 b.1.2)

/-! ### Results -/

def evaluate (s : Session) (query : String) (params : Row) : Except RuntimeError (List Row) := do
  let q ← s.compiled query
  checkArity query q.params.length params.length
  match s.program.evaluate s.store query params with
  | .ok rows => return rows
  | .error e => throw (.exec e)

def keptRows (s : Session) (q : CompiledQuery) (params : Row) : List Row :=
  match s.store.get? q.name with
  | none => []
  | some r =>
    if params.isEmpty then Row.sort r.toList
    else Row.sort ((r.lookup q.paramMask params).map (·.drop params.length))

/-- The rows of a query for parameters, which are demanded if they have to be. -/
def query (s : Session) (name : String) (params : Row) : Outcome (List Row) :=
  if s.poisoned then (s, .error .poisoned)
  else
    match s.compiled name with
    | .error e => (s, .error e)
    | .ok q =>
      match checkArity name q.params.length params.length with
      | .error e => (s, .error e)
      | .ok () =>
        match q.mode with
        | .batch => (s, s.evaluate name params)
        | .inc => (s, .ok (s.keptRows q params))
        | .dem =>
          match s.isDemanded name params with
          | .error e => (s, .error e)
          | .ok true => (s, .ok (s.keptRows q params))
          | .ok false =>
            match s.demand name params with
            | (s, .error e) => (s, .error e)
            | (s, .ok ()) => (s, .ok (s.keptRows q params))

def results (s : Session) (name : String) : Except RuntimeError (List Row) :=
  if s.poisoned then .error .poisoned
  else do
    let q ← s.compiled name
    match q.result with
    | some r => return s.sortedRows r
    | none =>
      if q.params.isEmpty then s.evaluate name []
      else throw (.parametersRequired name q.params.length)

end Session

end ViewUpkeep
