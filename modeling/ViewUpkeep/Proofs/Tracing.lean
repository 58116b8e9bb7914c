import ViewUpkeep.Proofs.Evaluation

/-!
The lookups of an evaluation. An evaluation that notes each lookup of a stored relation by a partial
mask gives the same answers as one that notes nothing. What it notes for the clauses of the query
that is asked is among the lookups of that query's plan; the queries that it reads are asked without
notes.
-/
namespace ViewUpkeep

namespace Batch

abbrev Lookup := String × Mask

abbrev Noting := ExceptT ExecError (StateT (List Lookup) (StateM Memo))

def note (l : Lookup) : Noting Unit := modify (· ++ [l])

def unnoted (x : Eval α) : Noting α := ExceptT.mk (StateT.lift x.run)

/-- The rows of a stored relation that can match a pattern. A lookup is noted before it is known
whether the relation exists. -/
def storedNoting (store : Store) (rel : String) (pattern bound : List Var) (env : Env) :
    Noting (List Row) :=
  let mask := Mask.ofPattern pattern bound
  if mask.isPartial then do
    note (rel, mask)
    let r ← unnoted (lift (store.relation rel))
    let key ← unnoted (lift (valuesOf env (mask.select pattern)))
    return r.lookup mask key
  else if mask.allUnbound then do
    let r ← unnoted (lift (store.relation rel))
    return r.toList
  else do
    let r ← unnoted (lift (store.relation rel))
    let row ← unnoted (lift (valuesOf env pattern))
    return if r.contains row then [row] else []

def offersNoting (src : Source) (s : Plan.Step) (env : Env) : Noting (List Row) :=
  match s.clause with
  | .member lhs rel | .mapMember lhs rel _ =>
    if src.queries.contains rel then unnoted (src.ask (rel, none))
    else storedNoting src.store rel lhs s.bound env
  | _ => unnoted (offers src s env)

def searchNoting (src : Source) (output : Expr) : List Plan.Step → Env → Noting (List Row)
  | [], env => do
    let row ← unnoted (lift (ExecError.lift (output.evalRow env)))
    return [row]
  | s :: rest, env => do
    let rows ← offersNoting src s env
    let found ← rows.mapM fun row =>
      match env.extend? s.clause.lhs row with
      | some env' => searchNoting src output rest env'
      | none => return []
    return found.flatten

def rowsOfNoting (src : Source) (j : Join) (bound : List Var) (env : Env) (output : Expr) :
    Noting (List Row) :=
  match (Plan.ofJoin j bound .silent).complete with
  | .error stuck => throw (.unorderable (stuck.map Clause.print))
  | .ok steps => do
    let rows ← searchNoting src output steps env
    return Row.sortUnique rows

def answerNoting (src : Source) (q : CompiledQuery) : Option Row → Noting (List Row)
  | none => rowsOfNoting src q.spec.join [] [] q.spec.output
  | some args =>
    if args.length = q.params.length then
      rowsOfNoting src q.spec.join q.params (Env.shadow [] q.params args)
        (.tuple q.spec.result.components)
    else throw (.parameterCount q.name q.params.length args.length)

def rememberNoting (q : Question) (find : Noting (List Row)) : Noting (List Row) := do
  match Memo.get? (← unnoted get) q with
  | some rows => return rows
  | none =>
    let rows ← find
    unnoted (modify fun m => (q, rows) :: m)
    return rows

/-- Asks a list of queries, with notes about the one that is asked and none about those after it. -/
def askNoting (store : Store) : List CompiledQuery → Question → Noting (List Row)
  | [], question => throw (.unknownQuery question.1)
  | q :: earlier, question =>
    if q.name = question.1 then
      rememberNoting question
        (answerNoting ⟨store, earlier.map (·.name), ask store earlier⟩ q question.2)
    else askNoting store earlier question

def runNoting (p : Program) (store : Store) (question : Question) (memo : Memo) :
    (Except ExecError (List Row) × List Lookup) × Memo :=
  ((askNoting store p.queries.reverse question).run.run []).run memo

/-! ### Notes change nothing else -/

def Notes (P : Lookup → Prop) (x : Noting α) (y : Eval α) : Prop :=
  ∀ noted memo, ∃ more, (∀ l ∈ more, P l) ∧
    (x.run.run noted).run memo = (((y.run memo).1, noted ++ more), (y.run memo).2)

namespace Notes

variable {P : Lookup → Prop}

theorem pure (a : α) : Notes P (pure a : Noting α) (pure a) :=
  fun noted _ => ⟨[], by simp, by rw [List.append_nil]; rfl⟩

theorem throw (e : ExecError) : Notes P (throw e : Noting α) (throw e) :=
  fun noted _ => ⟨[], by simp, by rw [List.append_nil]; rfl⟩

theorem unnoted (y : Eval α) : Notes P (unnoted y) y :=
  fun noted _ => ⟨[], by simp, by rw [List.append_nil]; rfl⟩

theorem note {l : Lookup} (h : P l) : Notes P (note l) (Pure.pure ()) :=
  fun _ _ => ⟨[l], by simpa using h, rfl⟩

theorem bind {x : Noting α} {y : Eval α} {f : α → Noting β} {g : α → Eval β} (hx : Notes P x y)
    (hf : ∀ a, Notes P (f a) (g a)) : Notes P (x >>= f) (y >>= g) := by
  intro noted memo
  obtain ⟨more, hmore, hrun⟩ := hx noted memo
  rw [run_bind]
  rcases hy : y.run memo with ⟨e | a, memo'⟩ <;> rw [hy] at hrun
  · refine ⟨more, hmore, ?_⟩
    simp only [ExceptT.run_bind, StateT.run_bind, hrun]
    rfl
  · obtain ⟨rest, hrest, hnext⟩ := hf a (noted ++ more) memo'
    refine ⟨more ++ rest, List.forall_mem_append.mpr ⟨hmore, hrest⟩, ?_⟩
    simp only [ExceptT.run_bind, StateT.run_bind, hrun]
    rw [← List.append_assoc]
    exact hnext

theorem note_bind {l : Lookup} {x : Noting α} {y : Eval α} (hl : P l) (hx : Notes P x y) :
    Notes P (Batch.note l >>= fun _ => x) y := by
  have hbind := (note hl).bind fun _ => hx
  rwa [pure_bind] at hbind

theorem mapM {f : α → Noting β} {g : α → Eval β} (items : List α)
    (h : ∀ a, Notes P (f a) (g a)) : Notes P (items.mapM f) (items.mapM g) := by
  induction items with
  | nil => exact .pure []
  | cons a items ih =>
    rw [List.mapM_cons, List.mapM_cons]
    exact (h a).bind fun b => ih.bind fun bs => .pure (b :: bs)

end Notes

variable {P : Lookup → Prop} {src : Source} {scope : Scope}

theorem lift_bind {α β : Type} (x : Except ExecError α) (f : α → Except ExecError β) :
    lift (x >>= f) = lift x >>= fun a => lift (f a) := by
  cases x <;> rfl

theorem storedNoting_notes {store : Store} {rel : String} {pattern bound : List Var} {env : Env}
    (h : (Mask.ofPattern pattern bound).isPartial = true → P (rel, .ofPattern pattern bound)) :
    Notes P (storedNoting store rel pattern bound env)
      (lift do
        let r ← store.relation rel
        stored r pattern bound env) := by
  rw [lift_bind]
  unfold storedNoting stored
  dsimp only
  cases hunbound : (Mask.ofPattern pattern bound).allUnbound with
  | true =>
    simp only [Mask.isPartial, hunbound, Bool.not_true, Bool.and_false, Bool.false_eq_true,
      ↓reduceIte]
    exact (Notes.unnoted _).bind fun r => .pure _
  | false =>
    cases hbound : (Mask.ofPattern pattern bound).allBound with
    | true =>
      simp only [Mask.isPartial, hunbound, hbound, Bool.not_true, Bool.false_and,
        Bool.false_eq_true, ↓reduceIte, lift_bind]
      exact (Notes.unnoted _).bind fun r => (Notes.unnoted _).bind fun row => .pure _
    | false =>
      have hpartial : (Mask.ofPattern pattern bound).isPartial = true := by
        simp [Mask.isPartial, hunbound, hbound]
      simp only [hpartial, Bool.false_eq_true, ↓reduceIte, lift_bind]
      exact Notes.note_bind (h hpartial)
        ((Notes.unnoted _).bind fun r => (Notes.unnoted _).bind fun key => .pure _)

theorem offersNoting_notes {s : Plan.Step} {env : Env}
    (agree : ∀ rel, src.queries.contains rel = (scope.query? rel).isSome)
    (h : ∀ l, Compile.stepLookup scope s = some l → P l) :
    Notes P (offersNoting src s env) (offers src s env) := by
  have hmember : ∀ {lhs rel}, src.queries.contains rel = false →
      (s.clause = .member lhs rel ∨ ∃ n, s.clause = .mapMember lhs rel n) →
      (Mask.ofPattern lhs s.bound).isPartial = true → P (rel, .ofPattern lhs s.bound) := by
    intro lhs rel hrel hclause hpartial
    rw [agree, Option.isSome_eq_false_iff] at hrel
    apply h
    unfold Compile.stepLookup
    rcases hclause with hclause | ⟨n, hclause⟩ <;> simp [hclause, hpartial, hrel]
  unfold offersNoting offers
  cases hclause : s.clause with
  | member lhs rel | mapMember lhs rel n =>
    dsimp only
    split
    · exact .unnoted _
    · rename_i hrel
      exact storedNoting_notes (hmember (by simpa using hrel) (by simp [hclause]))
  | _ => exact .unnoted _

theorem searchNoting_notes {steps : List Plan.Step}
    (agree : ∀ rel, src.queries.contains rel = (scope.query? rel).isSome)
    (h : ∀ l ∈ steps.filterMap (Compile.stepLookup scope), P l) (output : Expr) (env : Env) :
    Notes P (searchNoting src output steps env) (search src output steps env) := by
  induction steps generalizing env with
  | nil => exact (Notes.unnoted _).bind fun row => .pure [row]
  | cons s rest ih =>
    have hs : ∀ l, Compile.stepLookup scope s = some l → P l := fun l hl =>
      h l (List.mem_filterMap.mpr ⟨s, List.mem_cons_self, hl⟩)
    have hrest : ∀ l ∈ rest.filterMap (Compile.stepLookup scope), P l := by
      intro l hl
      obtain ⟨t, ht, hl⟩ := List.mem_filterMap.mp hl
      exact h l (List.mem_filterMap.mpr ⟨t, List.mem_cons_of_mem s ht, hl⟩)
    refine (offersNoting_notes agree hs).bind fun rows => ?_
    refine (Notes.mapM rows fun row => ?_).bind fun found => .pure found.flatten
    cases env.extend? s.clause.lhs row with
    | some env' => exact ih hrest env'
    | none => exact .pure []

theorem rowsOfNoting_notes {j : Join} {bound : List Var}
    (agree : ∀ rel, src.queries.contains rel = (scope.query? rel).isSome)
    (h : ∀ l ∈ Compile.planLookups scope j bound, P l) (env : Env) (output : Expr) :
    Notes P (rowsOfNoting src j bound env output) (rowsOf src j bound env output) := by
  unfold Compile.planLookups at h
  unfold rowsOfNoting rowsOf
  cases hplan : (Plan.ofJoin j bound .silent).complete with
  | error stuck => exact .throw _
  | ok steps =>
    rw [hplan] at h
    exact (searchNoting_notes agree h output env).bind fun rows => .pure _

/-- The lookups with the parameters known and those with none known are all that a query makes. -/
theorem answerNoting_notes {q : CompiledQuery} (params : q.params = q.spec.params)
    (agree : ∀ rel, src.queries.contains rel = (scope.query? rel).isSome)
    (h : ∀ l ∈ Compile.batchLookups scope q.spec, P l) (args : Option Row) :
    Notes P (answerNoting src q args) (answer src q args) := by
  have hknown : ∀ l ∈ Compile.planLookups scope q.spec.join q.spec.params, P l := fun l hl =>
    h l (List.mem_eraseDups.mpr (List.mem_append_left _ hl))
  cases args with
  | none =>
    refine rowsOfNoting_notes agree (fun l hl => ?_) [] q.spec.output
    by_cases hnone : q.spec.params = []
    · rw [hnone] at hknown
      exact hknown l hl
    · refine h l (List.mem_eraseDups.mpr (List.mem_append_right _ ?_))
      simpa [hnone] using hl
  | some args =>
    simp only [answerNoting, answer]
    split
    · exact rowsOfNoting_notes agree (params ▸ hknown) _ _
    · exact .throw _

theorem rememberNoting_notes {question : Question} {x : Noting (List Row)} {y : Eval (List Row)}
    (h : Notes P x y) : Notes P (rememberNoting question x) (remember question y) := by
  unfold rememberNoting remember
  refine (Notes.unnoted get).bind fun memo => ?_
  cases Memo.get? memo question with
  | some rows => exact .pure rows
  | none => exact h.bind fun rows => (Notes.unnoted _).bind fun _ => .pure rows

theorem askNoting_notes {store : Store} {q : CompiledQuery} {earlier later : List CompiledQuery}
    {args : Option Row} (hlater : q.name ∉ later.map (·.name))
    (h : Notes P (answerNoting ⟨store, earlier.map (·.name), ask store earlier⟩ q args)
      (answer ⟨store, earlier.map (·.name), ask store earlier⟩ q args)) :
    Notes P (askNoting store (later ++ q :: earlier) (q.name, args))
      (ask store (later ++ q :: earlier) (q.name, args)) := by
  induction later with
  | nil =>
    rw [List.nil_append, askNoting, ask, if_pos rfl, if_pos rfl]
    exact rememberNoting_notes h
  | cons r later ih =>
    rw [List.map_cons, List.mem_cons, not_or] at hlater
    rw [List.cons_append, askNoting, ask, if_neg (Ne.symm hlater.1), if_neg (Ne.symm hlater.1)]
    exact ih hlater.2

end Batch

end ViewUpkeep
