import ViewUpkeep.Proofs.Fitting
import ViewUpkeep.Proofs.Generation
import ViewUpkeep.Proofs.Meaning

/-!
Which questions evaluation can answer. Over a store that has all base relations, a query that is
asked for arguments fails because of values only, unless it comes, itself or through queries that it
reads, to a query that is evaluated on every read, stands there without arguments, and whose clauses
cannot be ordered before its parameters are known. Queries that are kept up to date never come to
such a query.
-/
namespace ViewUpkeep

namespace Batch

/-! ### Computations and their errors -/

def Fails {α : Type} (P : ExecError → Prop) (x : Eval α) : Prop := ∀ memo, FailsOnly P (x.run memo).1

namespace Fails

variable {α β : Type} {P Q : ExecError → Prop} {x : Eval α}

theorem pure (a : α) : Fails P (pure a) := fun _ => .ok a

theorem throw {e : ExecError} (h : P e) : Fails P (throw e : Eval α) := by
  intro memo e' he
  cases he
  exact h

theorem lift {r : Except ExecError α} (h : FailsOnly P r) : Fails P (lift r) := by
  unfold Batch.lift
  cases r with
  | ok a => exact .pure a
  | error e => exact .throw (h e rfl)

theorem bind {f : α → Eval β} (h : Fails P x) (k : ∀ a, Fails P (f a)) : Fails P (x >>= f) := by
  intro memo
  have hx := h memo
  rw [run_bind]
  cases hrun : x.run memo with
  | mk r memo' =>
    rw [hrun] at hx
    cases r with
    | error e =>
      intro e' he
      cases he
      exact hx e rfl
    | ok a => exact k a memo'

theorem lift_bind {r : Except ExecError α} {f : α → Eval β} (h : FailsOnly P r)
    (k : ∀ a, r = .ok a → Fails P (f a)) : Fails P (Batch.lift r >>= f) := by
  intro memo
  rw [run_bind]
  cases r with
  | error e =>
    intro e' he
    cases he
    exact h e rfl
  | ok a => exact k a rfl memo

theorem mono (h : Fails P x) (k : ∀ e, P e → Q e) : Fails Q x :=
  fun memo e he => k e (h memo e he)

theorem mapM {f : α → Eval β} {items : List α} (h : ∀ a ∈ items, Fails P (f a)) :
    Fails P (items.mapM f) := by
  induction items with
  | nil => exact .pure []
  | cons a items ih =>
    rw [List.mapM_cons]
    obtain ⟨ha, hrest⟩ := List.forall_mem_cons.mp h
    exact ha.bind fun b => (ih hrest).bind fun bs => .pure (b :: bs)

theorem remember {question : Question} {find : Eval (List Row)} (h : Fails P find) :
    Fails P (remember question find) := by
  unfold Batch.remember
  refine bind (x := get) (fun memo => .ok memo) fun memo => ?_
  split
  · exact .pure _
  · exact h.bind fun rows => bind (x := modify _) (fun memo => .ok ()) fun _ => .pure rows

end Fails

/-! ### Searching -/

theorem valuesOf_fails {env : Env} {vs : List Var} (h : env.Binds vs) :
    FailsOnly (·.isOfValues = true) (valuesOf env vs) := by
  induction vs with
  | nil => exact .ok []
  | cons v vs ih =>
    obtain ⟨x, hx⟩ := Option.isSome_iff_exists.mp (h v List.mem_cons_self)
    unfold valuesOf
    rw [hx]
    exact (ih fun w hw => h w (List.mem_cons_of_mem v hw)).bind fun xs _ => .ok (x :: xs)

theorem stored_fails {r : Relation} {pattern bound : List Var} {env : Env}
    (h : env.Binds bound) : FailsOnly (·.isOfValues = true) (stored r pattern bound env) := by
  unfold stored
  dsimp only
  split
  · exact .ok _
  · split
    · rename_i hall
      exact (valuesOf_fails (h.mono (Mask.subset_of_allBound hall))).bind fun _ _ => .ok _
    · exact (valuesOf_fails (h.mono (Mask.select_subset ..))).bind fun _ _ => .ok _

structure Serves (P : ExecError → Prop) (src : Source) (c : Clause) : Prop where
  stored : ∀ rel, c.rel? = some rel → rel ∉ src.queries → (src.store.get? rel).isSome
  all : ∀ lhs rel, c = .member lhs rel ∨ (∃ n, c = .mapMember lhs rel n) → rel ∈ src.queries →
    Fails P (src.ask (rel, none))
  some : ∀ inner query params, c = .demand inner query params →
    ∀ args : Row, args.length = params.length → Fails P (src.ask (query, some args))

variable {P Q : ExecError → Prop} {src : Source}

theorem Serves.mono {c : Clause} (h : Serves P src c) (k : ∀ e, P e → Q e) : Serves Q src c :=
  ⟨h.stored, fun lhs rel hc hq => (h.all lhs rel hc hq).mono k,
    fun inner query params hc args hargs => (h.some inner query params hc args hargs).mono k⟩

theorem offers_fails (hP : ∀ e : ExecError, e.isOfValues = true → P e) {s : Plan.Step}
    (plain : s.clause.Plain) (serves : Serves P src s.clause)
    (hrate : s.clause.rate s.bound ≠ .unrunnable) {env : Env} (hbinds : env.Binds s.bound) :
    Fails P (offers src s env) := by
  have hlift : ∀ {α : Type} {r : Except ExecError α}, FailsOnly (·.isOfValues = true) r →
      Fails P (lift r) := fun h => (Fails.lift h).mono hP
  unfold offers
  cases hc : s.clause with
  | member lhs rel =>
    dsimp only
    split
    · rename_i hquery
      exact serves.all lhs rel (.inl hc) (List.contains_iff_mem.mp hquery)
    · rename_i hquery
      have hget := serves.stored rel (by simp [hc, Clause.rel?])
        (fun h => hquery (List.contains_iff_mem.mpr h))
      exact hlift ((Store.relation_fails hget).bind fun r _ => stored_fails hbinds)
  | mapMember lhs rel n =>
    dsimp only
    split
    · rename_i hquery
      exact serves.all lhs rel (.inr ⟨n, hc⟩) (List.contains_iff_mem.mp hquery)
    · rename_i hquery
      have hget := serves.stored rel (by simp [hc, Clause.rel?])
        (fun h => hquery (List.contains_iff_mem.mpr h))
      exact hlift ((Store.relation_fails hget).bind fun r _ => stored_fails hbinds)
  | demand inner query params =>
    rw [hc, Clause.rate_demand_iff] at hrate
    have hvalues := valuesOf_fails (hbinds.mono hrate.1)
    refine Fails.lift_bind (fun e he => hP e (hvalues e he)) fun args hargs => ?_
    have hlength : args.length = params.length := (valuesOf_eq_ok hargs).length
    exact (serves.some inner query params hc args hlength).bind fun rows => .pure _
  | singleton lhs expr =>
    rw [hc, Clause.rate_singleton] at hrate
    have hexpr : env.Binds expr.mentions := hbinds.mono fun v hv => hrate (by simpa using hv)
    exact hlift ((ExecError.lift_fails (expr.eval_fails hexpr)).bind fun v _ =>
      (v.itemsOf_fails _).bind fun items _ => .ok _)
  | cond expr =>
    rw [hc, Clause.rate_cond] at hrate
    have hexpr : env.Binds expr.mentions := hbinds.mono fun v hv => hrate (by simpa using hv)
    exact hlift ((ExecError.lift_fails (Expr.holds_fails hexpr)).bind fun b _ => .ok _)
  | delta | without | withExtra => rw [hc] at plain; cases plain

theorem search_fails (hP : ∀ e : ExecError, e.isOfValues = true → P e) {steps : List Plan.Step}
    {bound : List Var} (chained : Plan.Chained bound steps)
    (plain : ∀ s ∈ steps, s.clause.Plain) (serves : ∀ s ∈ steps, Serves P src s.clause)
    {output : Expr} (houtput : output.mentions ⊆ bound ++ steps.flatMap (·.clause.lhs)) {env : Env}
    (hbinds : env.Binds bound) : Fails P (search src output steps env) := by
  induction steps generalizing bound env with
  | nil =>
    have hexpr : env.Binds output.mentions := hbinds.mono (by simpa using houtput)
    exact ((Fails.lift (ExecError.lift_fails (Expr.evalRow_fails hexpr))).mono hP).bind
      fun row => .pure [row]
  | cons s rest ih =>
    obtain ⟨rfl, hrate, chained⟩ := chained
    obtain ⟨hplain, plain⟩ := List.forall_mem_cons.mp plain
    obtain ⟨hserves, serves⟩ := List.forall_mem_cons.mp serves
    refine (offers_fails hP hplain hserves hrate hbinds).bind fun rows => ?_
    refine (Fails.mapM fun row _ => ?_).bind fun found => .pure _
    split
    · rename_i env' henv
      refine ih chained plain serves (fun v hv => ?_) ((hbinds.extend? henv).mono fun v hv => ?_)
      · have hmem := houtput hv
        simp only [List.flatMap_cons, List.mem_append] at hmem ⊢
        simpa [Clause.enumVars, or_assoc] using hmem
      · simpa [Clause.enumVars] using hv
    · exact .pure []

theorem rowsOf_fails (hP : ∀ e : ExecError, e.isOfValues = true → P e) {j : Join}
    (plain : ∀ c ∈ j, c.Plain) (serves : ∀ c ∈ j, Serves P src c) {bound : List Var} {env : Env}
    (hbinds : env.Binds bound) {output : Expr}
    (houtput : output.mentions ⊆ bound ++ j.flatMap (·.lhs))
    (hstuck : ∀ stuck, (Plan.ofJoin j bound .silent).complete = .error stuck →
      P (.unorderable (stuck.map Clause.print))) : Fails P (rowsOf src j bound env output) := by
  unfold rowsOf
  split
  · rename_i stuck hplan
    exact .throw (hstuck stuck hplan)
  · rename_i steps hplan
    have hperm := Plan.complete_perm hplan
    have hmem : ∀ s ∈ steps, s.clause ∈ j := fun s hs =>
      hperm.subset (List.mem_map_of_mem (f := (·.clause)) hs)
    refine Fails.bind ?_ fun rows => .pure _
    refine search_fails hP (Plan.complete_chained hplan) (fun s hs => plain _ (hmem s hs))
      (fun s hs => serves _ (hmem s hs)) (fun v hv => ?_) hbinds
    refine List.mem_append.mpr ((List.mem_append.mp (houtput hv)).imp_right fun hv => ?_)
    obtain ⟨c, hc, hvc⟩ := List.mem_flatMap.mp hv
    obtain ⟨s, hs, rfl⟩ := List.mem_map.mp (hperm.symm.subset hc)
    exact List.mem_flatMap.mpr ⟨s, hs, hvc⟩

end Batch

/-! ### Queries that read others -/

/-- The queries that a query comes to: itself, and those that queries on the way read. -/
inductive Program.ComesTo (p : Program) (q : CompiledQuery) : CompiledQuery → Prop where
  | self : ComesTo p q q
  | read {r b : CompiledQuery} {c : Clause} : ComesTo p q r → c ∈ r.spec.join → b ∈ p.queries →
    c.rel? = some b.name → ComesTo p q b

theorem Program.ComesTo.head {p : Program} {q r b : CompiledQuery} {c : Clause}
    (h : p.ComesTo r b) (hc : c ∈ q.spec.join) (hr : r ∈ p.queries) (hrel : c.rel? = some r.name) :
    p.ComesTo q b := by
  induction h with
  | self => exact .read .self hc hr hrel
  | read _ hc' hb hrel' ih => exact .read ih hc' hb hrel'

/-- The error of a query that is evaluated on every read and asked for all rows, if its clauses
cannot be ordered then. -/
structure CompiledQuery.Unlistable (q : CompiledQuery) (e : ExecError) : Prop where
  mode : q.mode = .batch
  enumerable : q.spec.unconstrainedParams = []
  unorderable : ¬ q.spec.join.Orderable []
  error : ∃ stuck, (Plan.ofJoin q.spec.join [] .silent).complete = .error stuck ∧
    e = .unorderable (stuck.map Clause.print)

/-- An error of values, or that of a query which cannot be listed and which a query on the way reads
without arguments. -/
def Program.Troubles (p : Program) (q : CompiledQuery) (e : ExecError) : Prop :=
  e.isOfValues = true ∨ ∃ r b lhs, p.ComesTo q r ∧ r.mode = .batch ∧ b ∈ p.queries ∧
    .member lhs b.name ∈ r.spec.join ∧ b.Unlistable e

theorem Program.Troubles.head {p : Program} {q r : CompiledQuery} {e : ExecError} {c : Clause}
    (h : p.Troubles r e) (hc : c ∈ q.spec.join) (hr : r ∈ p.queries)
    (hrel : c.rel? = some r.name) : p.Troubles q e :=
  h.imp_right fun ⟨x, b, lhs, hx, rest⟩ => ⟨x, b, lhs, hx.head hc hr hrel, rest⟩

theorem Program.forall_queries {p : Program} {P : CompiledQuery → Prop}
    (h : ∀ earlier q later, p.queries = earlier ++ q :: later → (∀ r ∈ earlier, P r) → P q) :
    ∀ q ∈ p.queries, P q := by
  have hsplit : ∀ earlier later, p.queries = earlier ++ later → ∀ r ∈ earlier, P r := by
    intro earlier
    induction earlier using List.reverseRecOn with
    | nil => simp
    | append_singleton earlier q ih =>
      intro later heq
      have heq' : p.queries = earlier ++ q :: later := by simpa using heq
      have hearlier := ih _ heq'
      exact List.forall_mem_append.mpr
        ⟨hearlier, List.forall_mem_singleton.mpr (h earlier q later heq' hearlier)⟩
  exact hsplit p.queries [] (List.append_nil _).symm

namespace Compile

variable {o : Options} {decl : QueryDecl} {scope : Scope} {catalog : List RelationInfo}
  {d : Declarations} {p : Program} {q : CompiledQuery} {store : Store}

theorem Compiled.orderable (h : Compiled o decl scope catalog q) :
    q.spec.join.Orderable q.spec.params := by
  rcases h.kept with unkept | ⟨plan, kept⟩
  · exact Plan.complete_iff.mp unkept.ordered
  · refine (Plan.complete_iff.mp kept.ordered).mono ?_
    split
    · exact List.Subset.refl _
    · exact List.nil_subset _

theorem Compiled.orderable_nil (h : Compiled o decl scope catalog q) (hmode : q.mode = .inc) :
    q.spec.join.Orderable [] ∧ q.spec.unconstrainedParams = [] := by
  rcases h.kept with unkept | ⟨plan, kept⟩
  · rw [CompiledQuery.mode, unkept.mode] at hmode
    cases hmode
  · have hordered := Plan.complete_iff.mp kept.ordered
    rw [if_neg (by rw [show q.settings.mode = .inc from hmode]; simp)] at hordered
    exact ⟨hordered, kept.enumerable hmode⟩

namespace Built

open Batch

theorem ask_self (built : Built o d p) {earlier later : List CompiledQuery}
    (h : p.queries = earlier ++ q :: later) (store : Store) (x : Option Row) :
    ask store p.queries.reverse (q.name, x) = remember (q.name, x)
      (answer ⟨store, earlier.reverse.map (·.name), ask store earlier.reverse⟩ q x) := by
  obtain ⟨hreverse, hnot⟩ := built.reverse_queries h
  rw [hreverse, ask_append store hnot, ask, if_pos rfl]

theorem ask_earlier (built : Built o d p) {earlier later : List CompiledQuery}
    (h : p.queries = earlier ++ q :: later) (store : Store) {r : CompiledQuery} (hr : r ∈ earlier)
    (x : Option Row) :
    ask store earlier.reverse (r.name, x) = ask store p.queries.reverse (r.name, x) := by
  have hnodup := built.nodup_queries
  rw [h, List.map_append, List.nodup_append] at hnodup
  have hsplit : p.queries.reverse = (q :: later).reverse ++ earlier.reverse := by simp [h]
  rw [hsplit, ask_append store]
  intro hmem
  rw [List.map_reverse, List.mem_reverse] at hmem
  exact hnodup.2.2 _ (List.mem_map_of_mem hr) _ hmem rfl

theorem serves (built : Built o d p) (sound : d.Sound)
    (hstore : ∀ rel ∈ d.relations.map (·.name), (store.get? rel).isSome)
    {earlier later : List CompiledQuery} (h : p.queries = earlier ++ q :: later)
    (hsome : ∀ r ∈ earlier, ∀ args : Row, args.length = r.params.length →
      Fails (p.Troubles r) (ask store p.queries.reverse (r.name, some args)))
    (hall : ∀ r ∈ earlier, r.mode ≠ .dem →
      (r.mode = .batch → r.spec.unconstrainedParams = []) →
      Fails (fun e => p.Troubles r e ∨ r.Unlistable e)
        (ask store p.queries.reverse (r.name, none))) :
    ∀ c ∈ q.spec.join, Serves (p.Troubles q)
      ⟨store, earlier.reverse.map (·.name), ask store earlier.reverse⟩ c := by
  obtain ⟨decl, hdecl, catalog, compiled, _⟩ := built.compiled h
  have lowered := Lowering.query_lowered (sound.queries decl hdecl) compiled.spec
  have hmem : ∀ r ∈ earlier, r ∈ p.queries := fun r hr => by simp [h, hr]
  have hname : ∀ {r : CompiledQuery}, r ∈ earlier → r.name ∈ earlier.reverse.map (·.name) :=
    fun hr => List.mem_map_of_mem (List.mem_reverse.mpr hr)
  intro c hc
  rcases (lowered.inScope c hc).cases_read with ⟨lhs, rel, hform, hrel⟩ |
    ⟨r, hr, hdem, hbatch, lhs, rfl⟩ | ⟨r, hr, hinc, hbatch, params, lhs, hlength, rfl⟩ |
    ⟨lhs, expr, rfl⟩ | ⟨expr, rfl⟩
  · have hnot : rel ∉ earlier.reverse.map (·.name) := by
      intro hm
      obtain ⟨r, hr, hn⟩ := List.mem_map.mp hm
      exact built.base_notMem_queries sound hrel
        (hn ▸ List.mem_map_of_mem (hmem r (List.mem_reverse.mp hr)))
    refine ⟨fun rel' hrel' _ => ?_, fun lhs' rel' hc' hq => ?_, fun _ _ _ hc' => ?_⟩
    · rcases hform with rfl | ⟨n, rfl⟩ <;> cases hrel' <;> exact hstore rel hrel
    · rcases hform with rfl | ⟨n, rfl⟩ <;> rcases hc' with hc' | ⟨m, hc'⟩ <;> cases hc' <;>
        exact absurd hq hnot
    · rcases hform with rfl | ⟨n, rfl⟩ <;> cases hc'
  · refine ⟨fun rel' hrel' hq => ?_, fun lhs' rel' hc' hq => ?_, fun _ _ _ hc' => ?_⟩
    · cases hrel'
      exact absurd (hname hr) hq
    · rcases hc' with hc' | ⟨m, hc'⟩ <;> cases hc'
      show Fails _ (ask store earlier.reverse (r.name, none))
      rw [built.ask_earlier h store hr]
      refine (hall r hr hdem fun hm => (hbatch hm).2).mono fun e he => ?_
      rcases he with he | he
      · exact he.head hc (hmem r hr) rfl
      · exact .inr ⟨q, r, lhs, .self, (hbatch he.mode).1, hmem r hr, hc, he⟩
    · cases hc'
  · refine ⟨fun rel' hrel' hq => ?_, fun lhs' rel' hc' _ => ?_, fun _ _ _ hc' args hargs => ?_⟩
    · cases hrel'
      exact absurd (hname hr) hq
    · rcases hc' with hc' | ⟨m, hc'⟩ <;> cases hc'
    · cases hc'
      show Fails _ (ask store earlier.reverse (r.name, some args))
      rw [built.ask_earlier h store hr]
      exact (hsome r hr args (hargs.trans hlength)).mono fun e he => he.head hc (hmem r hr) rfl
  · exact ⟨by simp [Clause.rel?], by simp, by simp⟩
  · exact ⟨by simp [Clause.rel?], by simp, by simp⟩

/-- Whatever is remembered, a question for arguments fails because of values or of a query on the way
that cannot be listed. -/
theorem ask_fails (built : Built o d p) (sound : d.Sound)
    (hstore : ∀ rel ∈ d.relations.map (·.name), (store.get? rel).isSome) : ∀ q ∈ p.queries,
    (∀ args : Row, args.length = q.params.length →
      Fails (p.Troubles q) (ask store p.queries.reverse (q.name, some args))) ∧
    (q.mode ≠ .dem → (q.mode = .batch → q.spec.unconstrainedParams = []) →
      Fails (fun e => p.Troubles q e ∨ q.Unlistable e)
        (ask store p.queries.reverse (q.name, none))) := by
  refine p.forall_queries fun earlier q later h ih => ?_
  have serves := built.serves sound hstore h (fun r hr => (ih r hr).1) fun r hr => (ih r hr).2
  obtain ⟨decl, hdecl, catalog, compiled, _⟩ := built.compiled h
  have plain := (Lowering.query_lowered (sound.queries decl hdecl) compiled.spec).proper.plain
  refine ⟨fun args hargs => ?_, fun hdem henum => ?_⟩
  · rw [built.ask_self h]
    refine Fails.remember ?_
    have hbinds : (Env.shadow [] q.params args).Binds q.params := by
      have hnil : Env.Binds [] [] := by simp [Env.Binds]
      exact hnil.shadow hargs
    rw [answer, if_pos hargs]
    refine rowsOf_fails (fun e he => .inl he) plain serves
      hbinds ?_ fun stuck hstuck => ?_
    · rw [Expr.mentions, Expr.mentionsAll_components, compiled.params]
      exact Comprehension.result_subset compiled.bound
    · rw [compiled.params] at hstuck
      exact absurd compiled.orderable (Plan.not_orderable hstuck)
  · rw [built.ask_self h]
    refine Fails.remember ?_
    have hparams : q.spec.unconstrainedParams = [] := by
      by_cases hbatch : q.mode = .batch
      · exact henum hbatch
      · exact (compiled.orderable_nil (Mode.eq_inc hdem hbatch)).2
    refine rowsOf_fails (fun e he => .inl (.inl he)) plain (fun c hc => ?_)
      (by simp [Env.Binds]) ?_ fun stuck hstuck => .inr ?_
    · exact (serves c hc).mono fun e he => .inl he
    · rw [Comprehension.mentions_output, List.nil_append]
      refine List.append_subset.mpr ⟨Comprehension.params_subset hparams, ?_⟩
      exact List.Subset.trans (Comprehension.result_subset compiled.bound)
        (List.append_subset.mpr ⟨Comprehension.params_subset hparams, List.Subset.refl _⟩)
    · have hnot : ¬ q.spec.join.Orderable [] := Plan.not_orderable hstuck
      refine ⟨?_, hparams, hnot, stuck, hstuck, rfl⟩
      by_contra hbatch
      exact hnot (compiled.orderable_nil (Mode.eq_inc hdem hbatch)).1

theorem evaluateAll_unorderable (built : Built o d p) (hq : q ∈ p.queries)
    (h : ¬ q.spec.join.Orderable []) (store : Store) :
    ∃ stuck, p.evaluateAll store q.name = .error (.unorderable stuck) := by
  obtain ⟨earlier, later, hsplit, _⟩ := built.mem_compiled hq
  cases hplan : (Plan.ofJoin q.spec.join [] .silent).complete with
  | ok steps => exact absurd (Plan.complete_iff.mp ⟨steps, hplan⟩) h
  | error stuck =>
    refine ⟨stuck.map Clause.print, ?_⟩
    unfold Program.evaluateAll run
    rw [built.ask_self hsplit, remember_nil, answer, rowsOf, hplan]
    rfl

end Built

end Compile

/-- Over a store that has the relations of the program, a query that is asked for arguments fails
internally only if it comes to a query that another one reads without arguments, although its clauses
cannot be ordered then; and such a query is never listed. -/
theorem Program.evaluate_internal {o : Compile.Options} {text : String} {p : Program}
    (compiles : Program.ofText? o text = some p) {store : Store}
    (relations : ∀ info ∈ p.catalog, (store.get? info.name).isSome) {q : CompiledQuery}
    (hq : q ∈ p.queries) :
    (∀ (args : Row) (e : ExecError), args.length = q.params.length →
      p.evaluate store q.name args = .error e → e.isInternal = true →
      ∃ r b lhs, p.ComesTo q r ∧ r.mode = .batch ∧ b ∈ p.queries ∧
        .member lhs b.name ∈ r.spec.join ∧ b.Unlistable e) ∧
    (¬ q.spec.join.Orderable [] →
      ∃ stuck, p.evaluateAll store q.name = .error (.unorderable stuck)) := by
  obtain ⟨d, sound, built⟩ := Program.built_of_text compiles
  have hstore : ∀ rel ∈ d.relations.map (·.name), (store.get? rel).isSome := by
    intro rel hrel
    obtain ⟨info, hinfo, rfl⟩ := List.mem_map.mp hrel
    exact relations info (built.relations_subset sound hinfo)
  refine ⟨fun args e hargs he hinternal => ?_, fun h => built.evaluateAll_unorderable hq h store⟩
  rcases (built.ask_fails sound hstore q hq).1 args hargs [] e he with hvalues | htrouble
  · rw [(ExecError.isOfValues_iff.mp hvalues).1] at hinternal
    cases hinternal
  · exact htrouble

namespace Program

def mutualText : String :=
  "relation R(2); query S(a) = \x7bb : (a, b) in R\x7d with impl = batch; " ++
  "query B(x) = \x7by : y in S(x), x in S(y)\x7d with impl = batch; " ++
  "query C = \x7b(x, y) : (x, y) in B\x7d with impl = batch;"

def mutualOps : List Session.Op :=
  [.add "R" [.int 1, .int 2], .add "R" [.int 2, .int 1]]

set_option maxRecDepth 10000 in
theorem mutual_stuck : ∃ p, Program.ofText? ⟨.default, .silent⟩ mutualText = some p ∧
    ∃ store, store = ((Session.ofProgram p).after mutualOps).store ∧
      (∀ info ∈ p.catalog, (store.get? info.name).isSome) ∧
      ∃ q ∈ p.queries, q.name = "C" ∧ q.params = [] ∧
        p.evaluate store q.name [] = .error (.unorderable ["y in S(x)", "x in S(y)"]) := by
  obtain ⟨p, hp, h⟩ : ∃ p, Program.ofText? ⟨.default, .silent⟩ mutualText = some p ∧
      (∀ info ∈ p.catalog,
        (((Session.ofProgram p).after mutualOps).store.get? info.name).isSome = true) ∧
      ∃ q ∈ p.queries, q.name = "C" ∧ q.params = [] ∧
        p.evaluate ((Session.ofProgram p).after mutualOps).store q.name [] =
          .error (.unorderable ["y in S(x)", "x in S(y)"]) := by
    decide +kernel
  exact ⟨p, hp, _, rfl, h⟩

/-- A query can be accepted, and its evaluation fail internally. -/
theorem evaluate_mutual : ∃ p, Program.ofText? ⟨.default, .silent⟩ mutualText = some p ∧
    ∃ store, (∀ info ∈ p.catalog, (store.get? info.name).isSome) ∧
      ∃ q ∈ p.queries, ∃ args e, args.length = q.params.length ∧
        p.evaluate store q.name args = .error e ∧ e.isInternal = true := by
  obtain ⟨p, hp, store, _, hrelations, q, hq, _, hparams, he⟩ := mutual_stuck
  exact ⟨p, hp, store, hrelations, q, hq, [], _, by simp [hparams], he, rfl⟩

theorem evaluate_internal_mutual : ∃ p,
    Program.ofText? ⟨.default, .silent⟩ mutualText = some p ∧
    ∃ store, (∀ info ∈ p.catalog, (store.get? info.name).isSome) ∧
      ∃ q ∈ p.queries, ∃ e, p.evaluate store q.name [] = .error e ∧ e.isInternal = true ∧
        ∃ r b lhs, p.ComesTo q r ∧ r.mode = .batch ∧ b ∈ p.queries ∧
          .member lhs b.name ∈ r.spec.join ∧ b.Unlistable e := by
  obtain ⟨p, hp, store, _, hrelations, q, hq, _, hparams, he⟩ := mutual_stuck
  exact ⟨p, hp, store, hrelations, q, hq, _, he, rfl,
    (Program.evaluate_internal hp hrelations hq).1 [] _ (by simp [hparams]) he rfl⟩

end Program

end ViewUpkeep
