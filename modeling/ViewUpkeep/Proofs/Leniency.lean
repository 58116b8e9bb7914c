import Mathlib.Data.List.Find
import ViewUpkeep.Proofs.Acceptance
import ViewUpkeep.Proofs.Extension
import ViewUpkeep.Proofs.Omission

/-!
Leaving failed queries out. Compiling what can be compiled and compiling all or nothing agree: the
first error is the same, and what can be compiled is all that is left when the queries that fail,
and those that read them, are taken out of the script. This rests on what a query depends on, which
is the queries that it reads and nothing else.
-/
namespace ViewUpkeep

/-! ### What a query depends on -/

namespace Lowering

variable {c : Context}

theorem named_rel? {name : String} {lhs : List Var} {cl : Clause} (h : named c name lhs = .ok cl) :
    cl.rel? = some name := by
  unfold named at h
  split at h
  · obtain ⟨_, _, h⟩ := bind_eq_ok.mp h
    split at h <;> cases h <;> rfl
  · split at h
    · cases h
    · split at h
      · cases h
      · split at h
        · cases h
        · split at h
          · cases h
          · obtain ⟨_, _, h⟩ := bind_eq_ok.mp h
            cases h
            rfl

theorem applied_rel? {name : String} {args : List Term} {lhs : List Var} {cl : Clause}
    (h : applied c name args lhs = .ok cl) : cl.rel? = some name := by
  unfold applied at h
  split at h
  · cases h
  · split at h
    · cases h
    · obtain ⟨_, _, h⟩ := bind_eq_ok.mp h
      obtain ⟨_, _, h⟩ := bind_eq_ok.mp h
      obtain ⟨_, _, h⟩ := bind_eq_ok.mp h
      dsimp only at h
      split at h
      · cases h
        rfl
      · cases h
        rfl
      · split at h
        · cases h
          rfl
        · cases h

theorem clause_rel? {n m : Nat} {s : Spanned ClauseTerm} {cl : Clause}
    (h : clause c n s.node = .ok (cl, m)) : cl.rel? = QueryDecl.reads? s := by
  unfold QueryDecl.reads?
  cases hs : s.node with
  | cond t =>
    rw [hs] at h
    obtain ⟨_, _, h⟩ := bind_eq_ok.mp h
    cases h
    rfl
  | member pattern range =>
    rw [hs] at h
    obtain ⟨_, _, h⟩ := bind_eq_ok.mp h
    cases range with
    | singleton t =>
      obtain ⟨_, _, h⟩ := bind_eq_ok.mp h
      cases h
      rfl
    | named name args =>
      cases args with
      | none =>
        obtain ⟨_, hnamed, h⟩ := bind_eq_ok.mp h
        cases h
        exact named_rel? hnamed
      | some args =>
        obtain ⟨_, happlied, h⟩ := bind_eq_ok.mp h
        cases h
        exact applied_rel? happlied

theorem clauses_rels {n : Nat} {ss : List (Spanned ClauseTerm)} {cls : List Clause}
    (h : clauses c n ss = .ok cls) : cls.filterMap Clause.rel? = ss.filterMap QueryDecl.reads? := by
  induction ss generalizing n cls with
  | nil =>
    cases h
    rfl
  | cons s ss ih =>
    obtain ⟨_, hfirst, h⟩ := bind_eq_ok.mp h
    obtain ⟨rest, hrest, h⟩ := bind_eq_ok.mp h
    cases h
    rw [List.filterMap_cons, List.filterMap_cons, clause_rel? hfirst, ih hrest]

theorem query_rels {decl : QueryDecl} {mode : Mode} {scope : Scope} {spec : Comprehension}
    (h : Lowering.query decl mode scope = .ok spec) : spec.join.rels = decl.reads := by
  unfold Lowering.query at h
  dsimp only at h
  split at h
  · cases h
  · obtain ⟨_, _, h⟩ := bind_eq_ok.mp h
    obtain ⟨_, hclauses, h⟩ := bind_eq_ok.mp h
    cases h
    exact congrArg List.eraseDups (clauses_rels hclauses)

end Lowering

namespace Compile

variable {o : Options} {d : Declarations} {p p' : Program}

theorem planLookups_congr {scope scope' : Scope} {j : Join}
    (h : ∀ rel ∈ j.rels, scope.query? rel = scope'.query? rel) (bound : List Var) :
    planLookups scope j bound = planLookups scope' j bound := by
  unfold planLookups
  split
  · rename_i steps hsteps
    refine List.filterMap_congr fun s hs => ?_
    have hmem : s.clause ∈ j :=
      (Plan.complete_perm hsteps).mem_iff.mp (List.mem_map_of_mem hs)
    unfold stepLookup
    split
    · rename_i lhs rel hclause
      rw [h rel (Join.mem_rels.mpr ⟨_, hmem, by rw [hclause]; rfl⟩)]
    · rename_i lhs rel n hclause
      rw [h rel (Join.mem_rels.mpr ⟨_, hmem, by rw [hclause]; rfl⟩)]
    · rfl
  · rfl

theorem supportHandlers_congr {name : String} {strategy : SelfJoin}
    {catalog catalog' : List RelationInfo} {ss : List Support}
    (h : ∀ s ∈ ss, s.isEntry = true →
      catalog.any (·.name = s.target) = catalog'.any (·.name = s.target)) :
    supportHandlers o name strategy catalog ss = supportHandlers o name strategy catalog' ss := by
  induction ss with
  | nil => rfl
  | cons s ss ih =>
    rw [List.forall_mem_cons] at h
    unfold supportHandlers
    rw [ih h.2]
    cases hkind : s.kind with
    | entry subquery => simp only [h.1 (by simp [Support.isEntry, hkind])]
    | _ => rfl

theorem maintained_congr {d' : Declarations} (built : Built o d p) (built' : Built o d' p')
    (name : String) {spec : Comprehension} {s : Settings} (counted : Bool) (hmode : s.mode ≠ .batch)
    (inScope : ∀ c ∈ spec.join, c.Scoped ⟨d.relations, p.queries.map (·.signature)⟩ s.mode)
    (inScope' : ∀ c ∈ spec.join, c.Scoped ⟨d'.relations, p'.queries.map (·.signature)⟩ s.mode) :
    maintained o name spec s counted p.catalog = maintained o name spec s counted p'.catalog := by
  unfold maintained
  cases hplan : demandPlan o name spec s with
  | error e => rfl
  | ok plan =>
    have hofJoin := (demandPlan_eq_ok hplan).2.2
    obtain ⟨cs, hcs, _, hsupports, _⟩ := DemandPlan.ofJoin_eq_ok hofJoin
    have hmem : ∀ inner subquery params, Clause.demand inner subquery params ∈
        (if s.mode = .dem then (spec.restrictTo (Demand.setName name)).join else spec.join) →
        Clause.demand inner subquery params ∈ spec.join := by
      intro inner subquery params hc
      split at hc
      · exact (List.mem_cons.mp hc).resolve_left (by simp)
      · exact hc
    have hset := built.exists_sets hmode hcs fun inner subquery params hc =>
      inScope _ (hmem inner subquery params hc)
    have hset' := built'.exists_sets hmode hcs fun inner subquery params hc =>
      inScope' _ (hmem inner subquery params hc)
    have hhandlers : supportHandlers o name s.selfJoin p.catalog plan.supports =
        supportHandlers o name s.selfJoin p'.catalog plan.supports := by
      apply supportHandlers_congr
      intro t ht hentry
      rw [hsupports] at ht
      have htarget := (Demand.prune_pruned cs _).sublist.subset ht
      rw [List.any_eq_true.mpr (by simpa using hset t htarget hentry),
        List.any_eq_true.mpr (by simpa using hset' t htarget hentry)]
    simp only [bind, Except.bind, hhandlers]

theorem Built.query_congr {d' : Declarations} (built : Built o d p) (built' : Built o d' p')
    {decl : QueryDecl}
    (agree : Scope.AgreeOn decl.reads ⟨d.relations, p.queries.map (·.signature)⟩
      ⟨d'.relations, p'.queries.map (·.signature)⟩) :
    query o decl ⟨d.relations, p.queries.map (·.signature)⟩ p.catalog =
      query o decl ⟨d'.relations, p'.queries.map (·.signature)⟩ p'.catalog := by
  unfold query
  dsimp only
  cases Overrides.empty.setAll decl.options with
  | error e => rfl
  | ok overrides =>
    generalize hs : o.settings.resolve overrides (!decl.params.isEmpty) = s
    have hlower := Lowering.query_congr decl s.mode agree
    simp only [bind, Except.bind, pure, Except.pure, hs]
    rw [hlower]
    cases hspec : Lowering.query decl s.mode ⟨d'.relations, p'.queries.map (·.signature)⟩ with
    | error e => rfl
    | ok spec =>
      rw [hspec] at hlower
      have hbatch : batchLookups ⟨d.relations, p.queries.map (·.signature)⟩ spec =
          batchLookups ⟨d'.relations, p'.queries.map (·.signature)⟩ spec := by
        have hrels : ∀ rel ∈ spec.join.rels,
            Scope.query? ⟨d.relations, p.queries.map (·.signature)⟩ rel =
              Scope.query? ⟨d'.relations, p'.queries.map (·.signature)⟩ rel := by
          intro rel hrel
          rw [Lowering.query_rels hspec] at hrel
          exact (agree rel hrel).2
        simp only [batchLookups, planLookups_congr hrels]
      by_cases hmode : s.mode = .batch
      · simp only [hmode, batch, hbatch, if_true]
      · have hkept := fun counted => maintained_congr built built' decl.name counted hmode
          (Lowering.query_scoped hlower) (Lowering.query_scoped hspec)
        simp only [hkept, if_neg hmode]

/-! ### Queries in turn -/

def outcome (o : Options) (d : Declarations) (decls : List QueryDecl) : Progress :=
  decls.foldl (lenientStep o d) (start d)

variable {decls : List QueryDecl} {decl : QueryDecl}

theorem outcome_concat (o : Options) (d : Declarations) (decls : List QueryDecl) (decl : QueryDecl) :
    outcome o d (decls ++ [decl]) = lenientStep o d (outcome o d decls) decl := by
  simp [outcome, List.foldl_append]

theorem outcome_names (o : Options) (d : Declarations) (decls : List QueryDecl) :
    ((outcome o d decls).program.queries.map (·.name) ++ (outcome o d decls).failed).Perm
      (decls.map (·.name)) := by
  induction decls using List.reverseRecOn with
  | nil => exact .nil
  | append_singleton decls decl ih =>
    have hnext := (ih.cons decl.name).trans (List.perm_append_singleton _ _).symm
    rw [outcome_concat, List.map_append]
    rcases lenientStep_cases o d (outcome o d decls) decl with ⟨_, h⟩ | ⟨_, e, _, h⟩ | ⟨_, q, hq, h⟩
    · rw [h]
      exact List.perm_middle.trans hnext
    · rw [h]
      exact List.perm_middle.trans hnext
    · rw [h]
      simp only [Program.install, List.map_append, List.map_cons, List.map_nil, List.append_assoc,
        List.singleton_append, (query_compiled hq).name]
      exact List.perm_middle.trans hnext

theorem outcome_program (o : Options) (d : Declarations) (decls : List QueryDecl) :
    (outcome o d decls).program =
      (outcome o d decls).program.queries.foldl Program.install ⟨d.relations, [], []⟩ := by
  induction decls using List.reverseRecOn with
  | nil => rfl
  | append_singleton decls decl ih =>
    rw [outcome_concat]
    rcases lenientStep_cases o d (outcome o d decls) decl with ⟨_, h⟩ | ⟨_, e, _, h⟩ | ⟨_, q, hq, h⟩
    · rw [h]
      exact ih
    · rw [h]
      exact ih
    · rw [h]
      simp only [Program.install, List.foldl_append, List.foldl_cons, List.foldl_nil, ← ih]

theorem outcome_failed_iff (o : Options) (d : Declarations) (decls : List QueryDecl) :
    (outcome o d decls).failed = [] ↔ (outcome o d decls).errors = [] := by
  induction decls using List.reverseRecOn with
  | nil => simp [outcome, start]
  | append_singleton decls decl ih =>
    rw [outcome_concat]
    rcases lenientStep_cases o d (outcome o d decls) decl with
      ⟨⟨n, _, hn⟩, h⟩ | ⟨_, e, _, h⟩ | ⟨_, q, hq, h⟩
    · rw [h]
      simp [← ih, List.ne_nil_of_mem hn]
    · rw [h]
      simp
    · rw [h]
      exact ih

theorem mem_failed_append {pre post : List QueryDecl} {n : String}
    (hn : n ∉ post.map (·.name)) :
    n ∈ (outcome o d (pre ++ post)).failed ↔ n ∈ (outcome o d pre).failed := by
  induction post using List.reverseRecOn with
  | nil => rw [List.append_nil]
  | append_singleton post decl ih =>
    rw [List.map_append, List.mem_append, not_or] at hn
    have hne : n ≠ decl.name := by simpa using hn.2
    rw [← List.append_assoc, outcome_concat, ← ih hn.1]
    rcases lenientStep_cases o d (outcome o d (pre ++ post)) decl with
      ⟨_, h⟩ | ⟨_, e, _, h⟩ | ⟨_, q, _, h⟩
    · simp [h, hne]
    · simp [h, hne]
    · simp [h]

/-! ### All or nothing -/

theorem step_errors {P P' : Progress} (h : step o d P decl = .ok P') : P'.errors = P.errors := by
  by_cases hskips : P.Skips decl
  · rw [step_of_skips hskips] at h
    cases h
    rfl
  · rw [step_of_not_skips hskips] at h
    obtain ⟨q, _, h⟩ := bind_eq_ok.mp h
    cases h
    rfl

theorem strictSteps_errors {P P' : Progress} (h : strictSteps o d P decls = .ok P') :
    P'.errors = P.errors := by
  induction decls generalizing P with
  | nil =>
    cases h
    rfl
  | cons decl decls ih =>
    obtain ⟨P₁, hstep, h⟩ := bind_eq_ok.mp h
    rw [ih h, step_errors hstep]

theorem foldl_errors (decls : List QueryDecl) (P : Progress) :
    P.errors <+: (decls.foldl (lenientStep o d) P).errors := by
  induction decls generalizing P with
  | nil => exact List.prefix_rfl
  | cons decl decls ih =>
    refine List.IsPrefix.trans ?_ (ih (lenientStep o d P decl))
    rcases lenientStep_cases o d P decl with ⟨_, h⟩ | ⟨_, e, _, h⟩ | ⟨_, q, _, h⟩
    · rw [h]
    · rw [h]
      exact List.prefix_append _ _
    · rw [h]

theorem strictSteps_error {P : Progress} {e : CompileError}
    (h : strictSteps o d P decls = .error e) :
    P.errors ++ [e] <+: (decls.foldl (lenientStep o d) P).errors := by
  induction decls generalizing P with
  | nil => cases h
  | cons decl decls ih =>
    unfold strictSteps at h
    rw [List.foldl_cons, lenientStep]
    cases hstep : step o d P decl with
    | error e' =>
      rw [hstep] at h
      cases h
      exact foldl_errors decls ⟨P.program, decl.name :: P.failed, P.errors ++ [e]⟩
    | ok P₁ =>
      rw [hstep] at h
      rw [← step_errors hstep]
      exact ih h

end Compile

namespace Program

variable {o : Compile.Options} {script : Script} {d : Declarations} {decls : List QueryDecl}

theorem ofScriptLenient_of_prepare (h : Compile.prepare script = .ok (d, decls)) :
    ofScriptLenient o script =
      ((Compile.outcome o d decls).program, (Compile.outcome o d decls).errors) := by
  unfold ofScriptLenient
  rw [h]
  rfl

theorem ofScript_of_prepare (h : Compile.prepare script = .ok (d, decls)) :
    ofScript o script = (Compile.strictSteps o d (Compile.start d) decls).map (·.program) := by
  unfold ofScript
  rw [h]
  cases hsteps : Compile.strictSteps o d (Compile.start d) decls with
  | error e => simp only [bind, Except.bind, hsteps, Except.map]
  | ok P => simp only [bind, Except.bind, hsteps, Except.map, pure, Except.pure]

theorem ofScriptLenient_of_ok {p : Program} (h : ofScript o script = .ok p) :
    ofScriptLenient o script = (p, []) := by
  obtain ⟨⟨d, decls⟩, hprepare, h⟩ := bind_eq_ok.mp h
  obtain ⟨P, hsteps, h⟩ := bind_eq_ok.mp h
  cases h
  have hrun : Compile.outcome o d decls = P := Compile.foldl_lenientStep hsteps
  rw [ofScriptLenient_of_prepare hprepare, hrun, Compile.strictSteps_errors hsteps]
  rfl

theorem head?_ofScriptLenient {e : CompileError} (h : ofScript o script = .error e) :
    (ofScriptLenient o script).2.head? = some e := by
  cases hprepare : Compile.prepare script with
  | error e' =>
    unfold ofScript at h
    rw [hprepare] at h
    cases h
    simp only [ofScriptLenient, hprepare, List.head?_cons]
  | ok prepared =>
    obtain ⟨d, decls⟩ := prepared
    rw [ofScript_of_prepare hprepare] at h
    rw [ofScriptLenient_of_prepare hprepare]
    cases hsteps : Compile.strictSteps o d (Compile.start d) decls with
    | ok P =>
      rw [hsteps] at h
      cases h
    | error e' =>
      rw [hsteps] at h
      cases h
      obtain ⟨more, hmore⟩ := Compile.strictSteps_error hsteps
      unfold Compile.outcome
      rw [← hmore]
      rfl

theorem ofScript_eq_ok_iff {p : Program} :
    ofScript o script = .ok p ↔ ofScriptLenient o script = (p, []) := by
  refine ⟨ofScriptLenient_of_ok, fun h => ?_⟩
  cases hscript : ofScript o script with
  | error e =>
    have hhead := head?_ofScriptLenient hscript
    rw [h] at hhead
    cases hhead
  | ok p' =>
    rw [ofScriptLenient_of_ok hscript] at h
    cases h
    rfl

theorem ofScript_isOk_iff (h : Compile.prepare script = .ok (d, decls)) :
    (∃ p, ofScript o script = .ok p) ↔ (Compile.outcome o d decls).failed = [] := by
  rw [Compile.outcome_failed_iff]
  simp only [ofScript_eq_ok_iff, ofScriptLenient_of_prepare h, Prod.mk.injEq, exists_eq_left']

end Program

/-! ### Fewer queries -/

namespace Compile

open Declarations (Reads Closed isKept isKept_name)

variable {o : Options} {d : Declarations} {decls : List QueryDecl} {keep : QueryDecl → Bool}

structure Progress.Restricts (kept : String → Bool) (P P' : Progress) : Prop where
  queries : P'.program.queries = P.program.queries.filter fun q => kept q.name
  failed : P'.failed = P.failed.filter kept

theorem Ordered.outcome_built (ordered : Ordered d decls) {done : List QueryDecl}
    (hdone : done.Sublist decls) : Built o d (outcome o d done).program := by
  refine lenientSteps_built .start ?_ ?_
  · exact fun q hq => ordered.perm.mem_iff.mp (hdone.subset hq)
  · simpa [start] using ordered.nodup.sublist (hdone.map _)

theorem Progress.Restricts.omit {kept : String → Bool} {P P' : Progress}
    (h : P.Restricts kept P') {decl : QueryDecl} (hdrop : kept decl.name = false) :
    (lenientStep o d P decl).Restricts kept P' := by
  rcases lenientStep_cases o d P decl with ⟨_, hstep⟩ | ⟨_, e, _, hstep⟩ | ⟨_, q, hq, hstep⟩
  · rw [hstep]
    exact ⟨h.queries, by simp [h.failed, hdrop]⟩
  · rw [hstep]
    exact ⟨h.queries, by simp [h.failed, hdrop]⟩
  · rw [hstep]
    refine ⟨?_, h.failed⟩
    simp [h.queries, Program.install, (query_compiled hq).name, hdrop]

theorem Progress.Restricts.step {kept : String → Bool} {P P' : Progress}
    (h : P.Restricts kept P') (built : Built o d P.program) (built' : Built o d P'.program)
    {decl : QueryDecl} (hkeep : kept decl.name = true)
    (reads : ∀ n ∈ decl.reads, n ∈ P.program.queries.map (·.name) ++ P.failed → kept n = true) :
    (lenientStep o d P decl).Restricts kept (lenientStep o d P' decl) := by
  -- Both steps take the same branch: what the query reads has failed in both or in none, and it is
  -- compiled over the same names.
  have hskips : P'.Skips decl ↔ P.Skips decl := by
    unfold Progress.Skips
    refine exists_congr fun n => and_congr_right fun hn => ?_
    rw [h.failed, List.mem_filter, and_iff_left_iff_imp]
    exact fun hfailed => reads n hn (List.mem_append_right _ hfailed)
  have hagree : Scope.AgreeOn decl.reads ⟨d.relations, P.program.queries.map (·.signature)⟩
      ⟨d.relations, P'.program.queries.map (·.signature)⟩ := by
    intro n hn
    refine ⟨rfl, ?_⟩
    unfold Scope.query?
    rw [h.queries, List.find?_map, List.find?_map, List.find?_filter]
    congr 1
    refine List.find?_congr fun q hq => ?_
    by_cases hname : q.signature.name = n
    · subst hname
      have hkept : kept q.name = true :=
        reads q.name hn (List.mem_append_left _ (List.mem_map_of_mem hq))
      simp [hkept]
    · simp [hname]
  have hquery := built.query_congr built' hagree
  rcases lenientStep_cases o d P decl with ⟨hfails, hstep⟩ | ⟨hfails, e, he, hstep⟩ |
    ⟨hfails, q, hq, hstep⟩
  · rw [hstep, lenientStep_of_skips (hskips.mpr hfails)]
    exact ⟨h.queries, by simp [h.failed, hkeep]⟩
  · rw [hstep, lenientStep_of_error (mt hskips.mp hfails) (hquery ▸ he)]
    exact ⟨h.queries, by simp [h.failed, hkeep]⟩
  · rw [hstep, lenientStep_of_ok (mt hskips.mp hfails) (hquery ▸ hq)]
    refine ⟨?_, h.failed⟩
    simp [h.queries, Program.install, (query_compiled hq).name, hkeep]

/-- If no query that is kept reads one that is not, leaving these out changes nothing for those. -/
theorem Ordered.outcome_restricts (ordered : Ordered d decls) (closed : Closed d.queries keep)
    {done rest : List QueryDecl} (h : decls = done ++ rest) :
    (outcome o d done).Restricts (isKept d.queries keep) (outcome o d (done.filter keep)) := by
  have hnodup := ordered.queries_nodup
  induction done using List.reverseRecOn generalizing rest with
  | nil => exact ⟨rfl, rfl⟩
  | append_singleton done q ih =>
    rw [List.append_assoc] at h
    have hprev := ih h
    have hdone : done.Sublist decls := by simp [h]
    have hq : q ∈ d.queries := ordered.perm.mem_iff.mp (by simp [h])
    rw [outcome_concat, List.filter_append]
    cases hkeep : keep q with
    | false =>
      rw [List.filter_cons_of_neg (by simp [hkeep]), List.filter_nil, List.append_nil]
      exact hprev.omit ((isKept_name hnodup hq).trans hkeep)
    | true =>
      rw [List.filter_cons_of_pos hkeep, List.filter_nil, outcome_concat]
      have hkept := (isKept_name hnodup hq).trans hkeep
      refine hprev.step (ordered.outcome_built hdone)
        (ordered.outcome_built (List.filter_sublist.trans hdone)) hkept ?_
      intro n hn hname
      obtain ⟨r, hr, rfl⟩ := List.mem_map.mp ((outcome_names o d done).mem_iff.mp hname)
      have hr := ordered.perm.mem_iff.mp (hdone.subset hr)
      rw [isKept_name hnodup hr]
      exact closed q r ⟨hq, hr, QueryDecl.mem_reads.mp hn⟩ hkeep

theorem Ordered.notMem_failed (ordered : Ordered d decls) {c : CompiledQuery}
    (hc : c ∈ (outcome o d decls).program.queries) : c.name ∉ (outcome o d decls).failed := by
  have hnodup := (outcome_names o d decls).nodup_iff.mpr ordered.nodup
  intro hfailed
  exact (List.nodup_append.mp hnodup).2.2 _ (List.mem_map_of_mem hc) _ hfailed rfl

theorem Ordered.failed_of_reads (ordered : Ordered d decls) {q r : QueryDecl}
    (hread : Reads d.queries q r) (hr : r.name ∈ (outcome o d decls).failed) :
    q.name ∈ (outcome o d decls).failed := by
  obtain ⟨pre, post, rfl⟩ := List.append_of_mem (ordered.perm.mem_iff.mpr hread.1)
  have hpre := ordered.before pre q post rfl r hread
  have hnodup := ordered.nodup
  rw [List.map_append, List.nodup_append] at hnodup
  have hlater : r.name ∉ (q :: post).map (·.name) := fun hm =>
    hnodup.2.2 _ (List.mem_map_of_mem hpre) _ hm rfl
  have hlast : q.name ∉ post.map (·.name) := (List.nodup_cons.mp hnodup.2.1).1
  have hskips : (outcome o d pre).Skips q :=
    ⟨r.name, QueryDecl.mem_reads.mpr hread.2.2, (mem_failed_append hlater).mp hr⟩
  rw [List.append_cons, mem_failed_append hlast, outcome_concat, lenientStep_of_skips hskips]
  exact List.mem_cons_self

variable {script : Script}

theorem isOk_keeping_iff (hprepare : prepare script = .ok (d, decls))
    (closed : Closed d.queries keep) :
    (∃ p, Program.ofScript o (script.keeping keep) = .ok p) ↔
      ∀ q ∈ d.queries, keep q = true → q.name ∉ (outcome o d decls).failed := by
  have hrestricts := (prepare_ordered hprepare).outcome_restricts (o := o) closed
    (List.append_nil decls).symm
  have hrun : outcome o (d.keeping keep) (decls.filter keep) = outcome o d (decls.filter keep) := rfl
  rw [Program.ofScript_isOk_iff (prepare_keeping closed hprepare), hrun, hrestricts.failed,
    List.filter_eq_nil_iff]
  simp only [Declarations.isKept_iff]
  constructor
  · exact fun h q hq hkeep hfailed => h q.name hfailed ⟨q, hq, hkeep, rfl⟩
  · rintro h n hfailed ⟨q, hq, hkeep, rfl⟩
    exact h q hq hkeep hfailed

theorem ofScript_keeping (hprepare : prepare script = .ok (d, decls))
    (hkeep : ∀ q ∈ d.queries, keep q = true ↔ q.name ∉ (outcome o d decls).failed) :
    Program.ofScript o (script.keeping keep) = .ok (outcome o d decls).program := by
  have ordered := prepare_ordered hprepare
  have closed : Closed d.queries keep := by
    intro q r hread hq
    rw [hkeep r hread.2.1]
    exact fun hr => (hkeep q hread.1).mp hq (ordered.failed_of_reads hread hr)
  obtain ⟨p, hp⟩ := (isOk_keeping_iff (o := o) hprepare closed).mpr fun q hq => (hkeep q hq).mp
  have hlenient := Program.ofScriptLenient_of_ok hp
  rw [Program.ofScriptLenient_of_prepare (prepare_keeping closed hprepare), Prod.mk.injEq]
    at hlenient
  have hqueries : (outcome o d (decls.filter keep)).program.queries =
      (outcome o d decls).program.queries := by
    rw [(ordered.outcome_restricts closed (List.append_nil decls).symm).queries]
    refine List.filter_eq_self.mpr fun c hc => ?_
    have hname := List.mem_append_left (outcome o d decls).failed
      (List.mem_map_of_mem (f := CompiledQuery.name) hc)
    obtain ⟨q, hq, hname⟩ := List.mem_map.mp ((outcome_names o d decls).mem_iff.mp hname)
    have hq := ordered.perm.mem_iff.mp hq
    rw [← hname, isKept_name ordered.queries_nodup hq, hkeep q hq, hname]
    exact ordered.notMem_failed hc
  have hprogram : (outcome o d (decls.filter keep)).program = (outcome o d decls).program := by
    rw [outcome_program, hqueries, ← outcome_program]
  rw [hp, ← hlenient.1]
  exact congrArg Except.ok hprogram

open Classical in
/-- The query cannot be compiled, although everything can that it reads. -/
def FailsItself (o : Options) (script : Script) (queries : List QueryDecl) (q : QueryDecl) : Prop :=
  (∃ p, Program.ofScript o
    (script.keeping fun r => Relation.TransGen (Reads queries) q r) = .ok p) ∧
  ∃ e, Program.ofScript o
    (script.keeping fun r => Relation.ReflTransGen (Reads queries) q r) = .error e

/-- The query fails itself or reads, perhaps through others, one that does. -/
def Spoiled (o : Options) (script : Script) (queries : List QueryDecl) (q : QueryDecl) : Prop :=
  ∃ r, Relation.ReflTransGen (Reads queries) q r ∧ FailsItself o script queries r

open Classical in
theorem closed_transGen (queries : List QueryDecl) (q : QueryDecl) :
    Closed queries fun r => Relation.TransGen (Reads queries) q r := by
  intro a b hread ha
  rw [decide_eq_true_eq] at ha ⊢
  exact ha.tail hread

open Classical in
theorem closed_reflTransGen (queries : List QueryDecl) (q : QueryDecl) :
    Closed queries fun r => Relation.ReflTransGen (Reads queries) q r := by
  intro a b hread ha
  rw [decide_eq_true_eq] at ha ⊢
  exact ha.tail hread

theorem Ordered.failed_of_reflTransGen (ordered : Ordered d decls) {q r : QueryDecl}
    (h : Relation.ReflTransGen (Reads d.queries) q r) (hr : r.name ∈ (outcome o d decls).failed) :
    q.name ∈ (outcome o d decls).failed := by
  induction h using Relation.ReflTransGen.head_induction_on with
  | refl => exact hr
  | head hread _ ih => exact ordered.failed_of_reads hread ih

theorem failsItself_iff (hprepare : prepare script = .ok (d, decls)) {q : QueryDecl}
    (hq : q ∈ d.queries) : FailsItself o script d.queries q ↔
      q.name ∈ (outcome o d decls).failed ∧
        ∀ r, Relation.TransGen (Reads d.queries) q r → r.name ∉ (outcome o d decls).failed := by
  have hdeclared : ∀ {r}, Relation.TransGen (Reads d.queries) q r → r ∈ d.queries := by
    intro r hr
    obtain ⟨_, _, hread⟩ := Relation.TransGen.tail'_iff.mp hr
    exact hread.2.1
  have herror : ∀ {x : Except CompileError Program}, (∃ e, x = .error e) ↔ ¬ ∃ p, x = .ok p := by
    intro x
    cases x <;> simp
  unfold FailsItself
  rw [herror, isOk_keeping_iff hprepare (closed_transGen d.queries q),
    isOk_keeping_iff hprepare (closed_reflTransGen d.queries q)]
  simp only [decide_eq_true_eq]
  constructor
  · rintro ⟨hbelow, hfails⟩
    refine ⟨?_, fun r hr => hbelow r (hdeclared hr) hr⟩
    by_contra hsound
    refine hfails fun r hr hreach => ?_
    rcases Relation.reflTransGen_iff_eq_or_transGen.mp hreach with rfl | hreach
    · exact hsound
    · exact hbelow r hr hreach
  · rintro ⟨hfailed, hbelow⟩
    exact ⟨fun r _ hr => hbelow r hr, fun h => h q hq .refl hfailed⟩

theorem spoiled_iff (hprepare : prepare script = .ok (d, decls)) {q : QueryDecl}
    (hq : q ∈ d.queries) :
    Spoiled o script d.queries q ↔ q.name ∈ (outcome o d decls).failed := by
  have ordered := prepare_ordered hprepare
  constructor
  · rintro ⟨r, hreach, hself⟩
    have hr : r ∈ d.queries := by
      rcases Relation.ReflTransGen.cases_tail hreach with rfl | ⟨_, _, hread⟩
      · exact hq
      · exact hread.2.1
    exact ordered.failed_of_reflTransGen hreach ((failsItself_iff hprepare hr).mp hself).1
  · -- Among the failed queries that it leads to, the first one in the order fails itself.
    intro hfailed
    obtain ⟨pre, post, hsplit⟩ := List.append_of_mem (ordered.perm.mem_iff.mpr hq)
    induction hlen : pre.length using Nat.strongRecOn generalizing q pre post with
    | _ n ih =>
      by_cases hreads : ∃ m, Reads d.queries q m ∧ m.name ∈ (outcome o d decls).failed
      · obtain ⟨m, hread, hm⟩ := hreads
        obtain ⟨first, last, rfl⟩ := List.append_of_mem (ordered.before pre q post hsplit m hread)
        obtain ⟨r, hreach, hself⟩ := ih first.length (by simp [← hlen]) hread.2.1 hm first
          (last ++ q :: post) (by simp [hsplit]) rfl
        exact ⟨r, hreach.head hread, hself⟩
      · refine ⟨q, .refl, (failsItself_iff hprepare hq).mpr ⟨hfailed, fun r hr hr' => hreads ?_⟩⟩
        obtain ⟨m, hread, hreach⟩ := Relation.TransGen.head'_iff.mp hr
        exact ⟨m, hread, ordered.failed_of_reflTransGen hreach hr'⟩

end Compile

namespace Program

open Classical in
/-- Compiling what can be compiled agrees with compiling all or nothing: on success, on the first
error, and on the script without the queries that fail. -/
theorem ofScriptLenient_agrees (o : Compile.Options) (script : Script) :
    (∀ p, ofScript o script = .ok p ↔ ofScriptLenient o script = (p, [])) ∧
    (∀ e, ofScript o script = .error e → (ofScriptLenient o script).2.head? = some e) ∧
    ∀ d names, Declarations.ofScript script = .ok d → Declarations.order d.queries = .ok names →
      ofScript o (script.keeping fun q => ¬ Compile.Spoiled o script d.queries q) =
        .ok (ofScriptLenient o script).1 := by
  refine ⟨fun p => ofScript_eq_ok_iff, fun e => head?_ofScriptLenient, ?_⟩
  intro d names hd hnames
  have hprepare : Compile.prepare script =
      .ok (d, names.filterMap fun n => d.queries.find? (·.name = n)) :=
    bind_eq_ok.mpr ⟨d, hd, bind_eq_ok.mpr ⟨names, hnames, rfl⟩⟩
  rw [ofScriptLenient_of_prepare hprepare]
  refine Compile.ofScript_keeping hprepare fun q hq => ?_
  rw [decide_eq_true_eq, Compile.spoiled_iff hprepare hq]

def partialQueries : List QueryDecl :=
  [Declarations.orderSample "D" ["C"], Declarations.orderSample "C" ["F"],
    Declarations.orderSample "A" ["B", "E"], Declarations.orderSample "B" ["E"]]

def partialSample : Script :=
  ⟨.relation "E" 1, ⟨0, 0⟩⟩ :: partialQueries.map fun q => ⟨.query q, ⟨0, 0⟩⟩

open Classical in
theorem ofScriptLenient_agrees_sample :
    ofScript ⟨.default, .silent⟩ partialSample = .error (.unknownRelation "C" "F") ∧
    (ofScriptLenient ⟨.default, .silent⟩ partialSample).2.head? = some (.unknownRelation "C" "F") ∧
    (ofScriptLenient ⟨.default, .silent⟩ partialSample).1.queries.map (·.name) = ["B", "A"] ∧
    ofScript ⟨.default, .silent⟩ (partialSample.keeping fun q =>
        ¬ Compile.Spoiled ⟨.default, .silent⟩ partialSample partialQueries q) =
      .ok (ofScriptLenient ⟨.default, .silent⟩ partialSample).1 := by
  have hagrees := ofScriptLenient_agrees ⟨.default, .silent⟩ partialSample
  exact ⟨rfl, hagrees.2.1 _ rfl, rfl, hagrees.2.2 ⟨_, partialQueries⟩ _ rfl rfl⟩

end Program

end ViewUpkeep
