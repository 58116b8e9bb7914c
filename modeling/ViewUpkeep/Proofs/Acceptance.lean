import ViewUpkeep.Proofs.Fitting
import ViewUpkeep.Proofs.Soundness

/-!
Queries whose clauses can be ordered. Once the order of its own clauses is accepted, a query is
compiled, unless an argument of a subquery has no tag: whatever row changes, the clauses around it
can be ordered and turned into code, and so can those of all supports, since supports have nothing
but memberships.
-/
namespace ViewUpkeep

/-! ### Handlers -/

namespace Handler

variable (owner : String) (estimate : Estimator) (leaf : Code)

theorem exists_planDelta {j : Join} (h : j.Orderable []) :
    ∃ steps, planDelta owner j estimate = .ok steps ∧ Plan.Chained [Var.delta] steps := by
  obtain ⟨steps, hsteps⟩ := Plan.complete_iff.mpr (h.mono (List.nil_subset [Var.delta]))
  refine ⟨steps, ?_, Plan.complete_chained hsteps⟩
  unfold planDelta
  rw [hsteps]

theorem exists_branch {j : Join} (h : j.Orderable []) :
    ∃ code, branch owner estimate leaf j = .ok code := by
  obtain ⟨steps, hsteps, hchained⟩ := exists_planDelta owner estimate h
  obtain ⟨code, hcode⟩ := hchained.exists_code leaf
  refine ⟨code, ?_⟩
  simp only [branch, hsteps, bind, Except.bind, hcode]

theorem exists_branches {js : List (Nat × Join)} (h : ∀ j ∈ js, j.2.Orderable []) :
    ∃ cs, branches owner estimate leaf js = .ok cs := by
  induction js with
  | nil => exact ⟨[], rfl⟩
  | cons j js ih =>
    obtain ⟨hj, hjs⟩ := List.forall_mem_cons.mp h
    obtain ⟨c, hc⟩ := exists_branch owner estimate leaf hj
    obtain ⟨cs, hcs⟩ := ih hjs
    exact ⟨c :: cs, by rw [branches, hc, hcs]; rfl⟩

variable {c : Comprehension}

theorem deltas_orderable {j : Join} (h : j.Orderable []) (rel : String) (strategy : SelfJoin) :
    ∀ k ∈ j.deltas rel (.var Var.delta) strategy, k.2.Orderable [] := by
  intro k hk
  obtain ⟨i, _, rfl⟩ := List.mem_map.mp hk
  exact h.deltaAt rel (.var Var.delta) strategy i

theorem exists_make (h : c.join.Orderable []) (target rel : String) (change : Change)
    (strategy : SelfJoin) : ∃ hd, make c target rel change strategy estimate = .ok hd := by
  have hjoins := deltas_orderable h rel strategy
  unfold make
  dsimp only
  split
  · obtain ⟨cs, hcs⟩ := exists_branches target estimate .collect hjoins
    exact ⟨_, by rw [hcs]; rfl⟩
  · obtain ⟨cs, hcs⟩ := exists_branches target estimate (.update target change c.output) hjoins
    exact ⟨_, by rw [hcs]; rfl⟩

theorem exists_ofComprehension (h : c.join.Orderable []) (target : String) (strategy : SelfJoin)
    (estimate : Estimator) : ∃ hs, ofComprehension c target strategy estimate = .ok hs := by
  unfold ofComprehension
  generalize (c.join.rels.flatMap fun rel => [(rel, Change.add), (rel, Change.remove)]) = keys
  induction keys with
  | nil => exact ⟨[], rfl⟩
  | cons key keys ih =>
    obtain ⟨hd, hhd⟩ := exists_make estimate h target key.1 key.2 strategy
    obtain ⟨hs, hhs⟩ := ih
    exact ⟨hd :: hs, by rw [makeAll, hhd, hhs]; rfl⟩

end Handler

/-! ### Supports -/

namespace Demand

variable {query : String} {filters : Bool} {cs : List Support}

theorem guardOf_fails (tagged : List Var) (i : Nat) (c : Clause) :
    FailsOnly (fun e => ∃ subquery param, e = .ungroundedArgument query subquery param)
      (guardOf query filters tagged i c) := by
  intro e h
  unfold guardOf at h
  split at h
  · split at h <;> cases h
    exact ⟨_, _, rfl⟩
  · dsimp only at h
    split at h <;> cases h
  · dsimp only at h
    split at h <;> cases h
  · cases h

/-- Supports are refused only for an argument that has no tag. -/
theorem supportsFrom_fails (i : Nat) (tagged : List Var) (j : Join) :
    FailsOnly (fun e => ∃ subquery param, e = .ungroundedArgument query subquery param)
      (supportsFrom query filters i tagged j) := by
  induction j generalizing i tagged with
  | nil => exact .ok []
  | cons c rest ih =>
    unfold supportsFrom
    exact (guardOf_fails tagged i c).bind fun guard _ => (ih _ _).bind fun later _ => .ok _

theorem rate_tagClauses {vs : List Var} :
    ∀ c ∈ tagClauses query vs, ∀ bound, c.rate bound ≠ .unrunnable := by
  intro c hc bound
  obtain ⟨v, _, rfl⟩ := List.mem_map.mp hc
  exact Clause.memberRate_ne [v] bound

theorem supportsFrom_rates {j : Join} (plain : ∀ c ∈ j, c.Plain)
    (h : supportsFrom query filters 0 [] j = .ok cs) :
    ∀ s ∈ cs, ∀ c ∈ s.spec.join, ∀ bound, c.rate bound ≠ .unrunnable := by
  refine supportsFrom_induction
    (P := fun s => ∀ c ∈ s.spec.join, ∀ bound, c.rate bound ≠ .unrunnable) h ?_ ?_
  · intro pre c post guard hj hguard _ _ s hs
    cases guardOf_guards hguard s hs with
    | entry => exact rate_tagClauses
    | filter _ _ hrel =>
      refine List.forall_mem_append.mpr ⟨rate_tagClauses, List.forall_mem_singleton.mpr ?_⟩
      exact Clause.rate_ne_of_member hrel
  · intro pre c post guard v hj hguard _ _ hguards hv
    have hplain : c.Plain := plain c (by simp [hj])
    have hout := (mem_newTags.mp hv).1
    show ∀ d ∈ tagSource c guard, ∀ bound, d.rate bound ≠ .unrunnable
    cases c with
    | member lhs rel =>
      cases guard with
      | none => exact List.forall_mem_singleton.mpr (Clause.memberRate_ne lhs)
      | some g => exact List.forall_mem_singleton.mpr (Clause.memberRate_ne lhs)
    | mapMember lhs rel n =>
      cases guard with
      | none => exact List.forall_mem_singleton.mpr (Clause.rate_mapMember_ne lhs rel n)
      | some g => exact List.forall_mem_singleton.mpr (Clause.memberRate_ne lhs)
    | demand inner subquery params =>
      obtain ⟨_, rfl⟩ := guardOf_demand hguard
      cases inner with
      | member lhs rel =>
        exact List.forall_mem_append.mpr
          ⟨hguards _ rfl, List.forall_mem_singleton.mpr (Clause.memberRate_ne lhs)⟩
      | _ => cases hplain
    | singleton | cond => cases hout
    | delta | without | withExtra => cases hplain

theorem apply_orderable {j : Join} {bound : List Var} (h : j.Orderable bound)
    (kept : List Support) (selected : List Nat) : (apply j kept selected).Orderable bound := by
  refine h.ease (Join.forall₂_zipIdx_map j fun c i => ?_)
  dsimp only
  split
  · exact c.eases_onRelation _
  · exact .refl c

theorem exists_select {j : Join} (h : j.Orderable []) (query : String) (supports : List Support)
    (estimate : Estimator) : ∃ selected, select query j supports estimate = .ok selected := by
  have hall : ∀ k ∈ j.rels.flatMap fun rel => j.deltas rel (.var Var.delta) .das,
      k.2.Orderable [] := by
    intro k hk
    obtain ⟨rel, _, hk⟩ := List.mem_flatMap.mp hk
    exact Handler.deltas_orderable h rel .das k hk
  unfold select
  generalize (j.rels.flatMap fun rel => j.deltas rel (.var Var.delta) .das) = joins at hall
  have hreached : ∃ reached, unfilteredAll query estimate joins = .ok reached := by
    induction joins with
    | nil => exact ⟨[], rfl⟩
    | cons k joins ih =>
      obtain ⟨hk, hrest⟩ := List.forall_mem_cons.mp hall
      obtain ⟨steps, hsteps, _⟩ := Handler.exists_planDelta query estimate hk
      obtain ⟨more, hmore⟩ := ih hrest
      exact ⟨_, by rw [unfilteredAll, hsteps, hmore]; rfl⟩
  obtain ⟨reached, hreached⟩ := hreached
  exact ⟨_, by rw [hreached]; rfl⟩

end Demand

theorem DemandPlan.ofJoin_fails {query : String} {j : Join} (h : j.Orderable []) (filters : Bool)
    (estimate : Estimator) :
    FailsOnly (fun e => ∃ subquery param, e = .ungroundedArgument query subquery param)
      (ofJoin query j filters estimate) := by
  unfold ofJoin Demand.candidates
  refine (Demand.supportsFrom_fails 0 [] j).bind fun cs _ => ?_
  obtain ⟨selected, hselected⟩ := Demand.exists_select h query cs estimate
  rw [hselected]
  exact .ok _

/-! ### Queries -/

namespace Compile

variable {o : Options} {decl : QueryDecl} {scope : Scope} {catalog : List RelationInfo}
  {d : Declarations} {p : Program} {s : Settings} {spec : Comprehension} {counted : Bool}

/-- A query up to the order of its own clauses: all checks before are passed, and this one is. -/
structure Accepted (o : Options) (decl : QueryDecl) (scope : Scope) (s : Settings)
    (spec : Comprehension) (counted : Bool) : Prop where
  settings : ∃ overrides, Overrides.empty.setAll decl.options = .ok overrides ∧
    s = o.settings.resolve overrides (!decl.params.isEmpty)
  lowered : Lowering.query decl s.mode scope = .ok spec
  bound : spec.unboundResultVars = []
  counted : counting decl.name s.counting spec.isDuplicateSafe = .ok counted
  enumerable : s.mode = .inc → spec.unconstrainedParams = []
  ordered : checkOrder o decl.name spec.join (if s.mode = .inc then [] else spec.params) = .ok ()

theorem orderable_of_checkOrder {name : String} {j : Join} {bound : List Var}
    (h : checkOrder o name j bound = .ok ()) : j.Orderable bound :=
  Plan.complete_iff.mp (checkOrder_eq_ok h)

theorem checkOrder_of_complete {name : String} {j : Join} {bound : List Var}
    (h : ∃ steps, (Plan.ofJoin j bound o.estimate).complete = .ok steps) :
    checkOrder o name j bound = .ok () := by
  obtain ⟨steps, hsteps⟩ := h
  rw [checkOrder, hsteps]

theorem query_ok_accepted {q : CompiledQuery} (h : query o decl scope catalog = .ok q) :
    Accepted o decl scope q.settings q.spec q.counted := by
  obtain ⟨_, _, hsettings, hspec, hbound, hcounted, _, hkept⟩ := query_compiled h
  rcases hkept with unkept | ⟨plan, kept⟩
  · have hmode : q.settings.mode ≠ .inc := by simp [unkept.mode]
    refine ⟨hsettings, hspec, hbound, hcounted, fun hinc => absurd hinc hmode, ?_⟩
    rw [if_neg hmode]
    exact checkOrder_of_complete unkept.ordered
  · refine ⟨hsettings, hspec, hbound, hcounted, kept.enumerable, ?_⟩
    by_cases hdem : q.settings.mode = .dem
    · have hordered := kept.ordered
      rw [if_pos hdem] at hordered
      rw [if_neg (by simp [hdem])]
      exact checkOrder_of_complete hordered
    · have hordered := kept.ordered
      rw [if_neg hdem] at hordered
      rw [if_pos (Mode.eq_inc hdem kept.mode)]
      exact checkOrder_of_complete hordered

theorem restrictTo_orderable (h : spec.join.Orderable spec.params) (set : String) :
    (spec.restrictTo set).join.Orderable [] := by
  refine Join.Orderable.cons (Clause.memberRate_ne spec.params []) (h.mono ?_)
  exact fun v hv => List.mem_append_right _ (List.mem_eraseDups.mpr hv)

theorem exists_supportHandlers (o : Options) (name : String) (strategy : SelfJoin)
    {ss : List Support}
    (hrates : ∀ t ∈ ss, ∀ c ∈ t.spec.join, ∀ bound, c.rate bound ≠ .unrunnable)
    (hsets : ∀ t ∈ ss, t.isEntry = true → ∃ info ∈ catalog, info.name = t.target) :
    ∃ hs, supportHandlers o name strategy catalog ss = .ok hs := by
  induction ss with
  | nil => exact ⟨[], rfl⟩
  | cons t rest ih =>
    obtain ⟨hrate, hrates⟩ := List.forall_mem_cons.mp hrates
    obtain ⟨hset, hsets⟩ := List.forall_mem_cons.mp hsets
    obtain ⟨more, hmore⟩ := ih hrates hsets
    obtain ⟨hs, hhs⟩ := Handler.exists_ofComprehension (Join.orderable_of_forall hrate [])
      t.target strategy o.estimate
    refine ⟨hs ++ more, ?_⟩
    unfold supportHandlers
    cases hkind : t.kind with
    | entry subquery =>
      obtain ⟨info, hinfo, hname⟩ := hset (by simp [Support.isEntry, hkind])
      have hany : catalog.any (fun i => i.name = t.target) = true :=
        List.any_eq_true.mpr ⟨info, hinfo, by simp [hname]⟩
      simp only [hany, if_true]
      rw [hhs, hmore]
      rfl
    | tag v | filter =>
      dsimp only
      rw [hhs, hmore]
      rfl

theorem Built.exists_set (built : Built o d p) {mode : Mode}
    (hmode : mode ≠ .batch) {inner : Clause} {subquery : String} {params : List Var}
    (h : (Clause.demand inner subquery params).Scoped ⟨d.relations, p.queries.map (·.signature)⟩
      mode) : ∃ info ∈ p.catalog, info.name = Demand.setName subquery := by
  rcases h.cases_kept hmode with ⟨lhs, rel, hc, _⟩ | ⟨r, hr, hdem, _, _, _, hc⟩ |
    ⟨_, _, hc⟩ | ⟨_, hc⟩
  · simp at hc
  · cases hc
    obtain ⟨_, _, _, _, _, _, hcompiled⟩ := built.mem_compiled hr
    obtain ⟨info, hinfo, hname, _⟩ := hcompiled.lists_demandSet hdem
    have hset := built.query_names_subset hr (List.mem_map_of_mem hinfo)
    rw [hname] at hset
    exact List.mem_map.mp hset
  · cases hc
  · cases hc

theorem Built.exists_sets (built : Built o d p) {mode : Mode}
    (hmode : mode ≠ .batch) {query : String} {filters : Bool} {j : Join} {cs : List Support}
    (h : Demand.supportsFrom query filters 0 [] j = .ok cs)
    (hscoped : ∀ inner subquery params, .demand inner subquery params ∈ j →
      (Clause.demand inner subquery params).Scoped ⟨d.relations, p.queries.map (·.signature)⟩
        mode) :
    ∀ t ∈ cs, t.isEntry = true → ∃ info ∈ p.catalog, info.name = t.target := by
  intro t ht hentry
  obtain ⟨pre, c, post, guard, hj, hguard, hmade⟩ := Demand.mem_supportsFrom h ht
  rcases hmade with hmade | ⟨v, _, rfl⟩
  · cases Demand.guardOf_guards hguard t hmade with
    | entry hparams =>
      rename_i inner subquery params
      exact built.exists_set hmode (hscoped inner subquery params (by simp [hj]))
    | filter => cases hentry
  · cases hentry

theorem maintained_fails (built : Built o d p) (hmode : s.mode ≠ .batch)
    (lowered : Lowering.Lowered decl s.mode ⟨d.relations, p.queries.map (·.signature)⟩ spec)
    (henum : s.mode = .inc → spec.unconstrainedParams = [])
    (hordered : checkOrder o decl.name spec.join (if s.mode = .inc then [] else spec.params) =
      .ok ()) :
    FailsOnly (fun e => ∃ subquery param, e = .ungroundedArgument decl.name subquery param)
      (maintained o decl.name spec s counted p.catalog) := by
  obtain ⟨j, filters, hplan, horder, hmem⟩ : ∃ j filters,
      demandPlan o decl.name spec s = DemandPlan.ofJoin decl.name j filters o.estimate ∧
      j.Orderable [] ∧
      ∀ c ∈ j, c ∈ spec.join ∨ c = .member spec.params (Demand.setName decl.name) := by
    unfold demandPlan
    cases hm : s.mode with
    | batch => exact absurd hm hmode
    | dem =>
      rw [hm, if_neg (by simp)] at hordered
      refine ⟨_, _, by rw [if_pos rfl, hordered]; rfl,
        restrictTo_orderable (orderable_of_checkOrder hordered) _, fun c hc => ?_⟩
      exact (List.mem_cons.mp hc).symm
    | inc =>
      rw [hm, if_pos rfl] at hordered
      refine ⟨spec.join, false, ?_, orderable_of_checkOrder hordered, fun c hc => .inl hc⟩
      rw [if_neg (by simp), henum hm, List.head?_nil]
      show (checkOrder o decl.name spec.join [] >>= _) = _
      rw [hordered]
      rfl
  have plain : ∀ c ∈ j, c.Plain := by
    intro c hc
    rcases hmem c hc with hc | rfl
    · exact lowered.proper.plain c hc
    · trivial
  unfold maintained
  rw [hplan]
  refine (DemandPlan.ofJoin_fails horder filters o.estimate).bind fun plan hofJoin => ?_
  obtain ⟨cs, hcs, _, hsupports, hjoin⟩ := DemandPlan.ofJoin_eq_ok hofJoin
  have hsub : ∀ t ∈ plan.supports, t ∈ cs := by
    rw [hsupports]
    exact fun t ht => (Demand.prune_pruned cs _).sublist.subset ht
  obtain ⟨hs, hhs⟩ := exists_supportHandlers o decl.name s.selfJoin
    (fun t ht => Demand.supportsFrom_rates plain hcs t (hsub t ht))
    (fun t ht => built.exists_sets hmode hcs (fun inner subquery params hc => by
      rcases hmem _ hc with hc | hc
      · exact lowered.inScope _ hc
      · cases hc) t (hsub t ht))
  have hkept : plan.join.Orderable [] := by
    rw [hjoin]
    exact Demand.apply_orderable horder plan.supports plan.selected
  obtain ⟨own, hown⟩ := Handler.exists_ofComprehension (c := ⟨plan.join, spec.result, spec.params⟩)
    hkept decl.name s.selfJoin o.estimate
  dsimp only
  rw [hhs, hown]
  exact .ok _

/-- A query whose order is accepted is compiled, unless an argument of a subquery has no tag. -/
theorem query_accepted (built : Built o d p) (named : decl.WellNamed)
    (accepted : Accepted o decl ⟨d.relations, p.queries.map (·.signature)⟩ s spec counted) :
    FailsOnly (fun e => ∃ subquery param, e = .ungroundedArgument decl.name subquery param)
      (query o decl ⟨d.relations, p.queries.map (·.signature)⟩ p.catalog) := by
  obtain ⟨⟨overrides, hoverrides, rfl⟩, hspec, hbound, hcounted, henum, hordered⟩ := accepted
  simp only [query, hoverrides, hspec, hbound, hcounted, List.head?_nil, bind, Except.bind, pure,
    Except.pure]
  split
  · rename_i hmode
    unfold batch
    rw [hmode, if_neg (by simp)] at hordered
    rw [hordered]
    exact .ok _
  · rename_i hmode
    exact maintained_fails built hmode (Lowering.query_lowered named hspec) henum hordered

/-! ### Programs that leave failed queries out -/

def Progress.Skips (P : Progress) (decl : QueryDecl) : Prop := ∃ n ∈ decl.reads, n ∈ P.failed

theorem step_of_skips {P : Progress} {decl : QueryDecl} (h : P.Skips decl) :
    step o d P decl = .ok { P with failed := decl.name :: P.failed } := by
  refine if_pos ?_
  obtain ⟨n, hn, hfailed⟩ := h
  exact List.any_eq_true.mpr ⟨n, hn, by simpa using hfailed⟩

theorem step_of_not_skips {P : Progress} {decl : QueryDecl} (h : ¬ P.Skips decl) :
    step o d P decl = (do
      let q ← query o decl ⟨d.relations, P.program.queries.map (·.signature)⟩ P.program.catalog
      return { P with program := P.program.install q }) := by
  refine if_neg ?_
  intro hany
  obtain ⟨n, hn, hfailed⟩ := List.any_eq_true.mp hany
  exact h ⟨n, hn, by simpa using hfailed⟩

theorem lenientStep_of_skips {P : Progress} {decl : QueryDecl} (h : P.Skips decl) :
    lenientStep o d P decl = { P with failed := decl.name :: P.failed } := by
  rw [lenientStep, step_of_skips h]

theorem lenientStep_of_error {P : Progress} {decl : QueryDecl} (h : ¬ P.Skips decl)
    {e : CompileError}
    (he : query o decl ⟨d.relations, P.program.queries.map (·.signature)⟩ P.program.catalog =
      .error e) :
    lenientStep o d P decl =
      { P with failed := decl.name :: P.failed, errors := P.errors ++ [e] } := by
  rw [lenientStep, step_of_not_skips h, he]
  rfl

theorem lenientStep_of_ok {P : Progress} {decl : QueryDecl} (h : ¬ P.Skips decl)
    {q : CompiledQuery}
    (hq : query o decl ⟨d.relations, P.program.queries.map (·.signature)⟩ P.program.catalog =
      .ok q) :
    lenientStep o d P decl = { P with program := P.program.install q } := by
  rw [lenientStep, step_of_not_skips h, hq]
  rfl

/-- What a step does: a query that reads a failed one is left out, one that cannot be compiled is
reported besides, and any other is installed. -/
theorem lenientStep_cases (o : Options) (d : Declarations) (P : Progress) (decl : QueryDecl) :
    (P.Skips decl ∧
      lenientStep o d P decl = { P with failed := decl.name :: P.failed }) ∨
    (¬ P.Skips decl ∧ ∃ e,
      query o decl ⟨d.relations, P.program.queries.map (·.signature)⟩ P.program.catalog =
        .error e ∧
      lenientStep o d P decl =
        { P with failed := decl.name :: P.failed, errors := P.errors ++ [e] }) ∨
    (¬ P.Skips decl ∧ ∃ q,
      query o decl ⟨d.relations, P.program.queries.map (·.signature)⟩ P.program.catalog = .ok q ∧
      lenientStep o d P decl = { P with program := P.program.install q }) := by
  by_cases hskips : P.Skips decl
  · exact .inl ⟨hskips, lenientStep_of_skips hskips⟩
  · cases hquery : query o decl ⟨d.relations, P.program.queries.map (·.signature)⟩
      P.program.catalog with
    | error e => exact .inr (.inl ⟨hskips, e, rfl, lenientStep_of_error hskips hquery⟩)
    | ok q => exact .inr (.inr ⟨hskips, q, rfl, lenientStep_of_ok hskips hquery⟩)

theorem lenientStep_program (P : Progress) (decl : QueryDecl) :
    (lenientStep o d P decl).program = P.program ∨ ∃ q,
      query o decl ⟨d.relations, P.program.queries.map (·.signature)⟩ P.program.catalog = .ok q ∧
      (lenientStep o d P decl).program = P.program.install q := by
  rcases lenientStep_cases o d P decl with ⟨_, h⟩ | ⟨_, e, _, h⟩ | ⟨_, q, hq, h⟩
  · exact .inl (by rw [h])
  · exact .inl (by rw [h])
  · exact .inr ⟨q, hq, by rw [h]⟩

theorem lenientSteps_built {P : Progress} {decls : List QueryDecl} (built : Built o d P.program)
    (hdecls : ∀ e ∈ decls, e ∈ d.queries)
    (nodup : (P.program.queries.map (·.name) ++ decls.map (·.name)).Nodup) :
    Built o d (decls.foldl (lenientStep o d) P).program := by
  induction decls generalizing P with
  | nil => exact built
  | cons e decls ih =>
    have hrest : ∀ f ∈ decls, f ∈ d.queries := fun f hf => hdecls f (List.mem_cons_of_mem e hf)
    rw [List.foldl_cons]
    rcases lenientStep_program (o := o) (d := d) P e with hsame | ⟨q, hq, hinstall⟩
    · apply ih (hsame ▸ built) hrest
      rw [hsame]
      exact nodup.sublist ((List.sublist_cons_self ..).append_left _)
    · have compiled := query_compiled hq
      have fresh : e.name ∉ P.program.queries.map (·.name) := fun hm =>
        (List.nodup_append.mp nodup).2.2 _ hm _ List.mem_cons_self rfl
      apply ih (hinstall ▸ .install built (hdecls e List.mem_cons_self) fresh compiled) hrest
      rw [hinstall]
      simpa [Program.install, compiled.name] using nodup

theorem foldl_lenientStep {P P' : Progress} {decls : List QueryDecl}
    (h : strictSteps o d P decls = .ok P') : decls.foldl (lenientStep o d) P = P' := by
  induction decls generalizing P with
  | nil =>
    cases h
    rfl
  | cons e decls ih =>
    obtain ⟨P₁, hstep, h⟩ := bind_eq_ok.mp h
    rw [List.foldl_cons, lenientStep, hstep]
    exact ih h

def Reached (o : Options) (d : Declarations) (done : List QueryDecl) (P : Progress) : Prop :=
  strictSteps o d (start d) done = .ok P ∨ done.foldl (lenientStep o d) (start d) = P

theorem Reached.built {done : List QueryDecl} {P : Progress} (h : Reached o d done P)
    (rest : List QueryDecl) (hdecls : ∀ e ∈ done ++ rest, e ∈ d.queries)
    (nodup : ((done ++ rest).map (·.name)).Nodup) : Built o d P.program := by
  have hP : done.foldl (lenientStep o d) (start d) = P := h.elim foldl_lenientStep id
  have hdone : (done.map (·.name)).Nodup := by
    rw [List.map_append] at nodup
    exact (List.nodup_append.mp nodup).1
  rw [← hP]
  exact lenientSteps_built .start (fun e he => hdecls e (List.mem_append_left rest he))
    (by simpa [start] using hdone)

theorem ofScriptLenient_built {script : Script} (named : ∀ s ∈ script, s.node.WellNamed) :
    ∃ d : Declarations, d.Sound ∧ Built o d (Program.ofScriptLenient o script).1 := by
  unfold Program.ofScriptLenient
  split
  · exact ⟨.empty, Declarations.empty_sound, .start⟩
  · rename_i d decls hprepare
    obtain ⟨sound, hdecls, hnodup⟩ := prepare_sound named hprepare
    have hreached : Reached o d decls (decls.foldl (lenientStep o d) (start d)) := .inr rfl
    exact ⟨d, sound, hreached.built [] (by simpa using hdecls) (by simpa using hnodup)⟩

end Compile

end ViewUpkeep
