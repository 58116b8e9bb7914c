import ViewUpkeep.Proofs.Declarations
import ViewUpkeep.Proofs.Supports
import ViewUpkeep.Proofs.View

/-!
Compiled programs. A program grows query by query, each compiled over the relations and the queries
before it. All its derived relations have names of their own, its handlers are those of its views,
and a relation that does not count its rows stores a single view, which derives no row twice.
-/
namespace ViewUpkeep

/-- The join whose clauses get supports: the clauses as written, after the demand set if there is
one. -/
def CompiledQuery.source (q : CompiledQuery) : Join :=
  if q.settings.mode = .dem then (q.spec.restrictTo (Demand.setName q.name)).join else q.spec.join

namespace Compile

structure Unkept (o : Options) (q : CompiledQuery) : Prop where
  mode : q.settings.mode = .batch
  ordered : ∃ steps, (Plan.ofJoin q.spec.join q.spec.params o.estimate).complete = .ok steps
  maintained : q.maintained = none
  result : q.result = none
  demandSet : q.demandSet = none
  supports : q.supports = []
  handlers : q.handlers = []

structure Kept (o : Options) (catalog : List RelationInfo) (q : CompiledQuery) (plan : DemandPlan) :
    Prop where
  mode : q.settings.mode ≠ .batch
  planned : DemandPlan.ofJoin q.name q.source
      (q.settings.mode = .dem && q.settings.filters) o.estimate =
    .ok plan
  enumerable : q.settings.mode = .inc → q.spec.unconstrainedParams = []
  ordered : ∃ steps, (Plan.ofJoin q.spec.join
    (if q.settings.mode = .dem then q.spec.params else []) o.estimate).complete = .ok steps
  maintained : q.maintained = some ⟨plan.join, q.spec.result, q.spec.params⟩
  result : q.result = some q.name
  demandSet : q.demandSet = if q.settings.mode = .dem then some (Demand.setName q.name) else none
  supports : q.supports = plan.supports
  handlers : ∃ hs own,
    supportHandlers o q.name q.settings.selfJoin catalog plan.supports = .ok hs ∧
    Handler.ofComprehension ⟨plan.join, q.spec.result, q.spec.params⟩ q.name q.settings.selfJoin
      o.estimate = .ok own ∧
    q.handlers = hs ++ own

/-- All that the compilation of a query checks and decides. -/
structure Compiled (o : Options) (decl : QueryDecl) (scope : Scope) (catalog : List RelationInfo)
    (q : CompiledQuery) : Prop where
  name : q.name = decl.name
  params : q.params = q.spec.params
  settings : ∃ overrides, Overrides.empty.setAll decl.options = .ok overrides ∧
    q.settings = o.settings.resolve overrides (!decl.params.isEmpty)
  spec : Lowering.query decl q.settings.mode scope = .ok q.spec
  bound : q.spec.unboundResultVars = []
  counted : counting decl.name q.settings.counting q.spec.isDuplicateSafe = .ok q.counted
  lookups : q.settings.mode = .batch → q.lookups = batchLookups scope q.spec
  kept : Unkept o q ∨ ∃ plan, Kept o catalog q plan

theorem checkOrder_eq_ok {o : Options} {name : String} {j : Join} {bound : List Var}
    (h : checkOrder o name j bound = .ok ()) :
    ∃ steps, (Plan.ofJoin j bound o.estimate).complete = .ok steps := by
  unfold checkOrder at h
  split at h
  · rename_i steps hsteps
    exact ⟨steps, hsteps⟩
  · cases h

theorem demandPlan_eq_ok {o : Options} {name : String} {spec : Comprehension} {s : Settings}
    {plan : DemandPlan} (h : demandPlan o name spec s = .ok plan) :
    (s.mode = .inc → spec.unconstrainedParams = []) ∧
      (∃ steps, (Plan.ofJoin spec.join (if s.mode = .dem then spec.params else [])
        o.estimate).complete = .ok steps) ∧
      DemandPlan.ofJoin name
        (if s.mode = .dem then (spec.restrictTo (Demand.setName name)).join else spec.join)
        (s.mode = .dem && s.filters) o.estimate = .ok plan := by
  unfold demandPlan at h
  split at h
  · rename_i hdem
    obtain ⟨_, horder, h⟩ := bind_eq_ok.mp h
    have horder := checkOrder_eq_ok horder
    exact ⟨by simp [hdem], by simpa [hdem] using horder, by simpa [hdem] using h⟩
  · rename_i hdem
    split at h
    · cases h
    · rename_i hparams
      obtain ⟨_, horder, h⟩ := bind_eq_ok.mp h
      have horder := checkOrder_eq_ok horder
      exact ⟨fun _ => List.head?_eq_none_iff.mp hparams, by simpa [hdem] using horder,
        by simpa [hdem] using h⟩

theorem maintained_compiled {o : Options} {name : String} {spec : Comprehension} {s : Settings}
    {counted : Bool} {catalog : List RelationInfo} {q : CompiledQuery} (hmode : s.mode ≠ .batch)
    (h : maintained o name spec s counted catalog = .ok q) :
    q.name = name ∧ q.params = spec.params ∧ q.spec = spec ∧ q.settings = s ∧
      q.counted = counted ∧ ∃ plan, Kept o catalog q plan := by
  obtain ⟨plan, hplan, h⟩ := bind_eq_ok.mp h
  obtain ⟨hs, hhs, h⟩ := bind_eq_ok.mp h
  obtain ⟨own, hown, h⟩ := bind_eq_ok.mp h
  cases h
  obtain ⟨hparams, hordered, hplan⟩ := demandPlan_eq_ok hplan
  exact ⟨rfl, rfl, rfl, rfl, rfl, plan, hmode, hplan, hparams, hordered, rfl, rfl, rfl, rfl, hs,
    own, hhs, hown, rfl⟩

theorem query_compiled {o : Options} {decl : QueryDecl} {scope : Scope}
    {catalog : List RelationInfo} {q : CompiledQuery} (h : query o decl scope catalog = .ok q) :
    Compiled o decl scope catalog q := by
  unfold query at h
  dsimp only at h
  split at h
  · rename_i overrides hoverrides
    obtain ⟨_, hv, h⟩ := bind_eq_ok.mp h
    cases hv
    obtain ⟨spec, hspec, h⟩ := bind_eq_ok.mp h
    split at h
    · cases h
    · rename_i hbound
      obtain ⟨counted, hcounted, h⟩ := bind_eq_ok.mp h
      have hbound := List.head?_eq_none_iff.mp hbound
      split at h
      · rename_i hmode
        obtain ⟨_, hordered, h⟩ := bind_eq_ok.mp h
        cases h
        exact ⟨rfl, rfl, ⟨overrides, hoverrides, rfl⟩, hspec, hbound, hcounted, fun _ => rfl,
          .inl ⟨hmode, checkOrder_eq_ok hordered, rfl, rfl, rfl, rfl, rfl⟩⟩
      · rename_i hmode
        obtain ⟨hname, hparams, rfl, hsettings, rfl, hkept⟩ := maintained_compiled hmode h
        rw [← hsettings] at hspec hcounted
        exact ⟨hname, hparams, ⟨overrides, hoverrides, hsettings⟩, hspec, hbound, hcounted,
          fun hbatch => absurd (hsettings ▸ hbatch) hmode, .inr hkept⟩
  · cases h

theorem supportHandlers_eq_ok {o : Options} {name : String} {strategy : SelfJoin}
    {catalog : List RelationInfo} {ss : List Support} {hs : List Handler}
    (h : supportHandlers o name strategy catalog ss = .ok hs) :
    ∃ made : Support → List Handler,
      (∀ s ∈ ss, Handler.ofComprehension s.spec s.target strategy o.estimate = .ok (made s)) ∧
      hs = ss.flatMap made := by
  refine ⟨fun s => ((Handler.ofComprehension s.spec s.target strategy o.estimate).toOption).getD [],
    ?_⟩
  induction ss generalizing hs with
  | nil =>
    cases h
    simp
  | cons s rest ih =>
    have hrest : ∃ ds more,
        Handler.ofComprehension s.spec s.target strategy o.estimate = .ok ds ∧
        supportHandlers o name strategy catalog rest = .ok more ∧ hs = ds ++ more := by
      unfold supportHandlers at h
      dsimp only at h
      split at h
      · split at h
        · obtain ⟨ds, hds, h⟩ := bind_eq_ok.mp h
          obtain ⟨more, hmore, h⟩ := bind_eq_ok.mp h
          cases h
          exact ⟨ds, more, hds, hmore, rfl⟩
        · cases h
      · obtain ⟨ds, hds, h⟩ := bind_eq_ok.mp h
        obtain ⟨more, hmore, h⟩ := bind_eq_ok.mp h
        cases h
        exact ⟨ds, more, hds, hmore, rfl⟩
    obtain ⟨ds, more, hds, hmore, rfl⟩ := hrest
    obtain ⟨hall, rfl⟩ := ih hmore
    refine ⟨List.forall_mem_cons.mpr ⟨by simp [hds, Except.toOption], hall⟩, ?_⟩
    simp [hds, Except.toOption]

/-! ### Names -/

@[simp] theorem name_derived (name : String) (arity : Nat) (origin : Origin) (counted : Bool) :
    (RelationInfo.derived name arity origin counted).name = name := rfl

theorem relations_names (q : CompiledQuery) : q.relations.map (·.name) =
    q.result.toList ++ q.demandSet.toList ++
      (q.supports.filter fun s => !s.isEntry).map (·.target) := by
  unfold CompiledQuery.relations
  rw [List.map_append, List.map_append, List.map_map, List.map_map]
  congr 1
  · congr 1
    · exact List.map_id' _
    · exact List.map_id' _
  · induction q.supports with
    | nil => rfl
    | cons s ss ih =>
      rw [List.filterMap_cons, List.filter_cons]
      cases hk : s.kind with
      | tag v | filter =>
        have hentry : s.isEntry = false := by simp [Support.isEntry, hk]
        simp [hentry, ih]
      | entry sub =>
        have hentry : s.isEntry = true := by simp [Support.isEntry, hk]
        simp [hentry, ih]

variable {o : Options} {decl : QueryDecl} {scope : Scope} {catalog : List RelationInfo}
  {q : CompiledQuery}

theorem Kept.kinds {plan : DemandPlan} (kept : Kept o catalog q plan) {s : Support}
    (hs : s ∈ q.supports) : s.spec.params = [] ∧
    ((∃ v, s.kind = .tag v ∧ s.target = Demand.tagName q.name v) ∨
      (s.kind = .filter ∧ ∃ rel, s.target = Demand.filterName q.name s.clause rel) ∨
      ∃ subquery, s.kind = .entry subquery ∧ s.target = Demand.setName subquery) := by
  obtain ⟨cs, hcs, _, hsupports, _⟩ := DemandPlan.ofJoin_eq_ok kept.planned
  rw [kept.supports, hsupports] at hs
  obtain ⟨_, hparams, hkind⟩ :=
    Demand.supportsFrom_kinds hcs ((Demand.prune_pruned cs _).sublist.subset hs)
  exact ⟨hparams, hkind.imp_left fun ⟨v, hk, ht, _⟩ => ⟨v, hk, ht⟩⟩

theorem Compiled.owned (h : Compiled o decl scope catalog q) :
    ∀ n ∈ q.relations.map (·.name), Owned q.name n := by
  rw [relations_names]
  rcases h.kept with unkept | ⟨plan, kept⟩
  · simp [unkept.result, unkept.demandSet, unkept.supports]
  · intro n hn
    rw [List.mem_append, List.mem_append, kept.result, kept.demandSet] at hn
    rcases hn with (hn | hn) | hn
    · exact .inl (by simpa using hn)
    · split at hn
      · rw [show n = Demand.setName q.name by simpa using hn]
        exact Demand.owned_setName q.name
      · cases hn
    · obtain ⟨s, hs, rfl⟩ := List.mem_map.mp hn
      obtain ⟨hs, hentry⟩ := List.mem_filter.mp hs
      obtain ⟨_, ⟨v, _, ht⟩ | ⟨_, rel, ht⟩ | ⟨sub, hk, _⟩⟩ := kept.kinds hs
      · rw [ht]
        exact Demand.owned_tagName q.name v
      · rw [ht]
        exact Demand.owned_filterName q.name _ rel
      · simp [Support.isEntry, hk] at hentry

theorem Compiled.nodup (h : Compiled o decl scope catalog q) (hname : IsIdentifier q.name) :
    (q.relations.map (·.name)).Nodup := by
  rw [relations_names]
  rcases h.kept with unkept | ⟨plan, kept⟩
  · simp [unkept.result, unkept.demandSet, unkept.supports]
  · obtain ⟨cs, hcs, _, hsupports, _⟩ := DemandPlan.ofJoin_eq_ok kept.planned
    have htargets : ((q.supports.filter fun s => !s.isEntry).map (·.target)).Nodup := by
      rw [kept.supports, hsupports]
      exact (Demand.supportsFrom_nodup hcs).sublist
        (((Demand.prune_pruned cs plan.selected).sublist.filter _).map _)
    have hname_ne : ∀ t ∈ (q.supports.filter fun s => !s.isEntry).map (·.target),
        q.name ≠ t ∧ Demand.setName q.name ≠ t := by
      intro t ht
      obtain ⟨s, hs, rfl⟩ := List.mem_map.mp ht
      obtain ⟨hs, hentry⟩ := List.mem_filter.mp hs
      obtain ⟨_, ⟨v, _, ht⟩ | ⟨_, rel, ht⟩ | ⟨sub, hk, _⟩⟩ := kept.kinds hs
      · rw [ht]
        exact ⟨Demand.ne_of_owned_dot hname (Demand.toList_tagName q.name v),
          Demand.setName_ne_tagName v⟩
      · rw [ht]
        exact ⟨Demand.ne_of_owned_dot hname (Demand.toList_filterName q.name _ rel),
          Demand.setName_ne_filterName _ rel⟩
      · simp [Support.isEntry, hk] at hentry
    have hset : q.name ≠ Demand.setName q.name :=
      Demand.ne_of_owned_dot hname (Demand.toList_setName q.name)
    rw [kept.result, kept.demandSet]
    split
    · simp only [Option.toList_some, List.cons_append, List.nil_append, List.nodup_cons,
        List.mem_cons, not_or]
      exact ⟨⟨hset, fun hm => (hname_ne _ hm).1 rfl⟩, fun hm => (hname_ne _ hm).2 rfl, htargets⟩
    · simp only [Option.toList_some, Option.toList_none, List.append_nil, List.cons_append,
        List.nil_append, List.nodup_cons]
      exact ⟨fun hm => (hname_ne _ hm).1 rfl, htargets⟩

/-! ### Views and handlers of a query -/

theorem Compiled.source_proper (h : Compiled o decl scope catalog q) (named : decl.WellNamed) :
    (∀ c ∈ q.source, c.Plain) ∧ ∀ c ∈ q.source, Var.delta ∉ c.mentions := by
  have lowered := Lowering.query_lowered named h.spec
  unfold CompiledQuery.source
  split
  · simp only [Comprehension.restrictTo, List.forall_mem_cons]
    exact ⟨⟨trivial, lowered.proper.plain⟩, lowered.params_delta, lowered.proper.join_delta⟩
  · exact ⟨lowered.proper.plain, lowered.proper.join_delta⟩

theorem Compiled.views_proper (h : Compiled o decl scope catalog q) (named : decl.WellNamed) :
    ∀ v ∈ q.views, v.spec.Proper := by
  have lowered := Lowering.query_lowered named h.spec
  obtain ⟨hplain, hdelta⟩ := h.source_proper named
  intro v hv
  rcases h.kept with unkept | ⟨plan, kept⟩
  · simp [CompiledQuery.views, unkept.supports, unkept.maintained] at hv
  · obtain ⟨cs, hcs, _, hsupports, hjoin⟩ := DemandPlan.ofJoin_eq_ok kept.planned
    unfold CompiledQuery.views at hv
    rw [kept.maintained] at hv
    rcases List.mem_append.mp hv with hv | hv
    · obtain ⟨s, hs, rfl⟩ := List.mem_map.mp hv
      rw [kept.supports, hsupports] at hs
      exact Demand.supportsFrom_proper hplain hdelta hcs s
        ((Demand.prune_pruned cs _).sublist.subset hs)
    · obtain ⟨c, hc, rfl⟩ := List.mem_map.mp hv
      cases Option.mem_toList.mp hc
      have happly := Demand.apply_proper hplain hdelta plan.supports plan.selected
      rw [← hjoin] at happly
      exact ⟨fun d hd => (happly d hd).1, fun d hd => (happly d hd).2, lowered.proper.output_delta⟩

def made (estimate : Estimator) (v : View) : List Handler :=
  ((Handler.ofComprehension v.spec v.target v.strategy estimate).toOption).getD []

theorem Compiled.handlers (h : Compiled o decl scope catalog q) :
    (∀ v ∈ q.views,
      Handler.ofComprehension v.spec v.target v.strategy o.estimate = .ok (made o.estimate v)) ∧
    q.handlers = q.views.flatMap (made o.estimate) := by
  rcases h.kept with unkept | ⟨plan, kept⟩
  · simp [CompiledQuery.views, unkept.supports, unkept.maintained, unkept.handlers]
  · obtain ⟨hs, own, hhs, hown, hall⟩ := kept.handlers
    obtain ⟨each, heach, rfl⟩ := supportHandlers_eq_ok hhs
    have hmade : ∀ s ∈ plan.supports,
        each s = made o.estimate (s.view q.settings.selfJoin) := by
      intro s hs
      simp [made, Support.view, heach s hs, Except.toOption]
    unfold CompiledQuery.views
    rw [kept.maintained, kept.supports, hall]
    constructor
    · intro v hv
      rcases List.mem_append.mp hv with hv | hv
      · obtain ⟨s, hs, rfl⟩ := List.mem_map.mp hv
        rw [← hmade s hs]
        exact heach s hs
      · obtain ⟨c, hc, rfl⟩ := List.mem_map.mp hv
        cases Option.mem_toList.mp hc
        simp [made, hown, Except.toOption]
    · rw [List.flatMap_append, List.flatMap_map, List.flatMap_congr hmade]
      simp [made, hown, Except.toOption]

/-! ### Programs -/

/-- Programs that grow from declarations, each query over those before it. -/
inductive Built (o : Options) (d : Declarations) : Program → Prop where
  | start : Built o d ⟨d.relations, [], []⟩
  | install {p : Program} {decl : QueryDecl} {q : CompiledQuery} : Built o d p →
    decl ∈ d.queries → decl.name ∉ p.queries.map (·.name) →
    Compiled o decl ⟨d.relations, p.queries.map (·.signature)⟩ p.catalog q →
    Built o d (p.install q)

theorem step_built {d : Declarations} {p p' : Progress} (built : Built o d p.program)
    (hfailed : p.failed = []) (hdecl : decl ∈ d.queries)
    (fresh : decl.name ∉ p.program.queries.map (·.name)) (h : step o d p decl = .ok p') :
    Built o d p'.program ∧ p'.failed = [] ∧
      p'.program.queries.map (·.name) = p.program.queries.map (·.name) ++ [decl.name] := by
  unfold step at h
  rw [if_neg (by simp [hfailed])] at h
  obtain ⟨q, hq, h⟩ := bind_eq_ok.mp h
  cases h
  have compiled := query_compiled hq
  exact ⟨.install built hdecl fresh compiled, hfailed, by simp [Program.install, compiled.name]⟩

theorem strictSteps_built {d : Declarations} {p p' : Progress} {decls : List QueryDecl}
    (built : Built o d p.program) (hfailed : p.failed = []) (hdecls : ∀ e ∈ decls, e ∈ d.queries)
    (nodup : (p.program.queries.map (·.name) ++ decls.map (·.name)).Nodup)
    (h : strictSteps o d p decls = .ok p') : Built o d p'.program ∧
      p'.program.queries.map (·.name) = p.program.queries.map (·.name) ++ decls.map (·.name) := by
  induction decls generalizing p with
  | nil =>
    cases h
    exact ⟨built, by simp⟩
  | cons e decls ih =>
    obtain ⟨p₁, hp₁, h⟩ := bind_eq_ok.mp h
    have hfresh : e.name ∉ p.program.queries.map (·.name) := by
      intro hm
      exact (List.nodup_append.mp nodup).2.2 _ hm _ List.mem_cons_self rfl
    obtain ⟨built₁, hfailed₁, hnames⟩ :=
      step_built built hfailed (hdecls e List.mem_cons_self) hfresh hp₁
    have hall : p₁.program.queries.map (·.name) ++ decls.map (·.name) =
        p.program.queries.map (·.name) ++ (e :: decls).map (·.name) := by
      rw [hnames, List.append_assoc]
      rfl
    rw [← hall] at nodup ⊢
    exact ih built₁ hfailed₁ (fun f hf => hdecls f (List.mem_cons_of_mem e hf)) nodup h

/-- A script whose names are identifiers gives a program that is built from sound declarations, with
the queries in the order in which they were prepared. -/
theorem ofScript_built {script : Script} (named : ∀ s ∈ script, s.node.WellNamed) {p : Program}
    (h : Program.ofScript o script = .ok p) : ∃ d decls, prepare script = .ok (d, decls) ∧
      d.Sound ∧ Built o d p ∧ p.queries.map (·.name) = decls.map (·.name) := by
  obtain ⟨⟨d, decls⟩, hprepare, h⟩ := bind_eq_ok.mp h
  obtain ⟨p', hsteps, h⟩ := bind_eq_ok.mp h
  cases h
  obtain ⟨sound, hdecls, hnodup⟩ := prepare_sound named hprepare
  obtain ⟨built, hnames⟩ :=
    strictSteps_built .start rfl hdecls (by simpa [start] using hnodup) hsteps
  exact ⟨d, decls, hprepare, sound, built, hnames⟩

theorem mem_names_insertInfo (catalog : List RelationInfo) (info : RelationInfo) (name : String) :
    name ∈ (Program.insertInfo catalog info).map (·.name) ↔
      name ∈ catalog.map (·.name) ∨ name = info.name := by
  unfold Program.insertInfo
  split
  · rename_i hany
    obtain ⟨other, hother, hname⟩ := List.any_eq_true.mp hany
    have hnames : (catalog.map fun i => if i.name = info.name then info else i).map (·.name) =
        catalog.map (·.name) := by
      rw [List.map_map]
      refine List.map_congr_left fun i _ => ?_
      by_cases hi : i.name = info.name <;> simp [hi]
    rw [hnames]
    refine (or_iff_left_of_imp ?_).symm
    rintro rfl
    rw [← of_decide_eq_true hname]
    exact List.mem_map_of_mem hother
  · simp

theorem mem_names_foldl_insertInfo (infos catalog : List RelationInfo) (name : String) :
    name ∈ (infos.foldl Program.insertInfo catalog).map (·.name) ↔
      name ∈ catalog.map (·.name) ∨ name ∈ infos.map (·.name) := by
  induction infos generalizing catalog with
  | nil => simp
  | cons info infos ih =>
    refine (ih (Program.insertInfo catalog info)).trans ?_
    rw [mem_names_insertInfo, List.map_cons, List.mem_cons, or_assoc]

namespace Built

variable {d : Declarations} {p : Program}

theorem compiled (built : Built o d p) {earlier later : List CompiledQuery}
    (h : p.queries = earlier ++ q :: later) :
    ∃ decl ∈ d.queries, ∃ catalog,
      Compiled o decl ⟨d.relations, earlier.map (·.signature)⟩ catalog q ∧
      q.name ∉ earlier.map (·.name) := by
  induction built generalizing later with
  | start => simp at h
  | @install p decl r built hdecl fresh hr ih =>
    rcases List.eq_nil_or_concat later with rfl | ⟨init, last, rfl⟩
    · have h' : p.queries ++ [r] = earlier ++ [q] := h
      obtain ⟨rfl, hlast⟩ := List.append_inj' h' rfl
      cases hlast
      exact ⟨decl, hdecl, p.catalog, hr, hr.name ▸ fresh⟩
    · rw [List.concat_eq_append] at h
      have h' : p.queries ++ [r] = (earlier ++ q :: init) ++ [last] := by
        rw [List.append_assoc]
        exact h
      exact ih (List.append_inj' h' rfl).1

theorem mem_compiled (built : Built o d p) (hq : q ∈ p.queries) :
    ∃ earlier later, p.queries = earlier ++ q :: later ∧ ∃ decl ∈ d.queries, ∃ catalog,
      Compiled o decl ⟨d.relations, earlier.map (·.signature)⟩ catalog q := by
  obtain ⟨earlier, later, h⟩ := List.append_of_mem hq
  obtain ⟨decl, hdecl, catalog, hc, _⟩ := built.compiled h
  exact ⟨earlier, later, h, decl, hdecl, catalog, hc⟩

theorem nodup_queries (built : Built o d p) : (p.queries.map (·.name)).Nodup := by
  induction built with
  | start => simp
  | @install p decl r built hdecl fresh hr ih =>
    rw [Program.install, List.map_append]
    refine ih.append (List.nodup_singleton _) ?_
    intro n hn hm
    rw [List.map_singleton, List.mem_singleton, hr.name] at hm
    exact fresh (hm ▸ hn)

theorem query_name (built : Built o d p) (sound : d.Sound) (hq : q ∈ p.queries) :
    IsIdentifier q.name ∧ q.name ∉ d.relations.map (·.name) := by
  obtain ⟨_, _, _, decl, hdecl, _, hc⟩ := built.mem_compiled hq
  have hm : q.name ∈ d.queries.map (·.name) := by
    rw [hc.name]
    exact List.mem_map_of_mem hdecl
  refine ⟨sound.names _ (List.mem_append_right _ hm), ?_⟩
  intro hr
  exact (List.nodup_append.mp sound.nodup).2.2 _ hr _ hm rfl

theorem query_names_subset (built : Built o d p) (hq : q ∈ p.queries) :
    q.relations.map (·.name) ⊆ p.catalog.map (·.name) := by
  induction built with
  | start => cases hq
  | @install p decl r _ _ _ _ ih =>
    intro name hname
    apply (mem_names_foldl_insertInfo r.relations p.catalog name).mpr
    rcases List.mem_append.mp hq with hq | hq
    · exact .inl (ih hq hname)
    · rw [List.mem_singleton.mp hq] at hname
      exact .inr hname

theorem foldl_insertInfo {catalog infos : List RelationInfo}
    (nodup : ((catalog ++ infos).map (·.name)).Nodup) :
    infos.foldl Program.insertInfo catalog = catalog ++ infos := by
  induction infos generalizing catalog with
  | nil => simp
  | cons i is ih =>
    have hnone : ¬ (catalog.any fun x => decide (x.name = i.name)) = true := by
      intro hany
      obtain ⟨x, hx, hname⟩ := List.any_eq_true.mp hany
      rw [List.map_append] at nodup
      refine (List.nodup_append.mp nodup).2.2 x.name (List.mem_map_of_mem hx) i.name ?_ ?_
      · exact List.mem_map_of_mem List.mem_cons_self
      · simpa using hname
    rw [List.foldl_cons, Program.insertInfo, if_neg hnone, ih]
    · rw [List.append_assoc]
      rfl
    · rw [List.append_assoc]
      exact nodup

theorem nodup_names (built : Built o d p) (sound : d.Sound) :
    (d.relations.map (·.name) ++ p.queries.flatMap fun q => q.relations.map (·.name)).Nodup := by
  induction built with
  | start => simpa using (List.nodup_append.mp sound.nodup).1
  | @install p decl r built hdecl fresh hr ih =>
    have hlast : r ∈ (p.install r).queries := by simp [Program.install]
    obtain ⟨hident, hbase⟩ := (Built.install built hdecl fresh hr).query_name sound hlast
    rw [Program.install, List.flatMap_append, ← List.append_assoc, List.flatMap_singleton]
    refine ih.append (hr.nodup hident) ?_
    intro n hn hm
    have howned := hr.owned n hm
    rcases List.mem_append.mp hn with hn | hn
    · have hn' : IsIdentifier n := sound.names n (List.mem_append_left _ hn)
      have := Owned.unique hident hn' howned (.inl rfl)
      exact hbase (this ▸ hn)
    · obtain ⟨q, hq, hn⟩ := List.mem_flatMap.mp hn
      obtain ⟨_, _, _, _, _, _, hc⟩ := built.mem_compiled hq
      have := Owned.unique hident (built.query_name sound hq).1 howned (hc.owned n hn)
      refine fresh ?_
      rw [← hr.name, this]
      exact List.mem_map_of_mem hq

/-- The catalog lists the base relations and then those of each query. -/
theorem catalog_eq (built : Built o d p) (sound : d.Sound) :
    p.catalog = d.relations ++ p.queries.flatMap (·.relations) := by
  induction built with
  | start => simp
  | @install p decl r built hdecl fresh hr ih =>
    have hnodup := (Built.install built hdecl fresh hr).nodup_names sound
    rw [Program.install] at hnodup ⊢
    simp only [ih, List.flatMap_append, List.flatMap_singleton] at hnodup ⊢
    rw [foldl_insertInfo, List.append_assoc]
    rw [List.append_assoc, List.map_append, List.map_append, List.map_flatMap]
    exact hnodup

theorem nodup_catalog (built : Built o d p) (sound : d.Sound) : (p.catalog.map (·.name)).Nodup := by
  rw [built.catalog_eq sound, List.map_append, List.map_flatMap]
  exact built.nodup_names sound

theorem views_proper (built : Built o d p) (sound : d.Sound) : ∀ v ∈ p.views, v.spec.Proper := by
  intro v hv
  obtain ⟨q, hq, hv⟩ := List.mem_flatMap.mp hv
  obtain ⟨_, _, _, decl, hdecl, _, hc⟩ := built.mem_compiled hq
  exact hc.views_proper (sound.queries decl hdecl) v hv

theorem handlers (built : Built o d p) :
    (∀ v ∈ p.views,
      Handler.ofComprehension v.spec v.target v.strategy o.estimate = .ok (made o.estimate v)) ∧
    p.handlers = p.views.flatMap (made o.estimate) := by
  refine ⟨?_, ?_⟩
  · intro v hv
    obtain ⟨q, hq, hv⟩ := List.mem_flatMap.mp hv
    obtain ⟨_, _, _, _, _, _, hc⟩ := built.mem_compiled hq
    exact hc.handlers.1 v hv
  · unfold Program.handlers Program.views
    rw [List.flatMap_assoc]
    refine List.flatMap_congr fun q hq => ?_
    obtain ⟨_, _, _, _, _, _, hc⟩ := built.mem_compiled hq
    exact hc.handlers.2

theorem handler_made (built : Built o d p) {h : Handler} (hh : h ∈ p.handlers) :
    ∃ v ∈ p.views, h.rel ∈ v.spec.join.rels ∧
      Handler.make v.spec v.target h.rel h.change v.strategy o.estimate = .ok h := by
  obtain ⟨hmade, hall⟩ := built.handlers
  rw [hall] at hh
  obtain ⟨v, hv, hh⟩ := List.mem_flatMap.mp hh
  have hin : h ∈ (made o.estimate v).filter fun g => g.rel = h.rel && g.change = h.change :=
    List.mem_filter.mpr ⟨hh, by simp⟩
  obtain ⟨hnone, hone⟩ := Handler.ofComprehension_filter (hmade v hv) h.rel h.change
  by_cases hread : h.rel ∈ v.spec.join.rels
  · obtain ⟨g, hmake, hfilter⟩ := hone hread
    rw [hfilter, List.mem_singleton] at hin
    exact ⟨v, hv, hread, hin ▸ hmake⟩
  · rw [hnone hread] at hin
    cases hin

theorem handled (built : Built o d p) (sound : d.Sound) : p.Handled o.estimate :=
  ⟨built.views_proper sound, made o.estimate, built.handlers⟩

theorem follows (built : Built o d p) (sound : d.Sound)
    (exact : ∀ q ∈ p.queries, q.maintained.isSome → q.settings.selfJoin ≠ .assumeDisjoint) :
    p.Follows o.estimate := by
  refine ⟨built.views_proper sound, ?_, made o.estimate, built.handlers⟩
  intro v hv
  obtain ⟨q, hq, hv⟩ := List.mem_flatMap.mp hv
  obtain ⟨_, _, _, decl, hdecl, _, hc⟩ := built.mem_compiled hq
  rcases hc.kept with unkept | ⟨plan, kept⟩
  · simp [CompiledQuery.views, unkept.supports, unkept.maintained] at hv
  · have hs := exact q hq (by simp [kept.maintained])
    rcases List.mem_append.mp hv with hv | hv
    · obtain ⟨s, _, rfl⟩ := List.mem_map.mp hv
      exact hs
    · obtain ⟨c, _, rfl⟩ := List.mem_map.mp hv
      exact hs

end Built

end Compile

end ViewUpkeep
