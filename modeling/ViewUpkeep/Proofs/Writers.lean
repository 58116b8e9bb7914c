import ViewUpkeep.Proofs.Compilation

/-!
Who writes to a relation. The result of a query, its tags and its filters have one writer each, and
nobody writes to a base relation. A demand set is written by the entries of later queries. So a
relation that does not count its rows never needs one twice.
-/
namespace ViewUpkeep

def CompiledQuery.ownViews (q : CompiledQuery) : List View :=
  (q.supports.filter fun s => !s.isEntry).map (·.view q.settings.selfJoin) ++
    q.maintained.toList.map fun c => ⟨q.name, c, q.settings.selfJoin⟩

def CompiledQuery.entries (q : CompiledQuery) : List Support := q.supports.filter (·.isEntry)

theorem CompiledQuery.support_mem_ownViews {q : CompiledQuery} {s : Support} (hs : s ∈ q.supports)
    (hentry : s.isEntry = false) : s.view q.settings.selfJoin ∈ q.ownViews :=
  List.mem_append_left _ (List.mem_map_of_mem (List.mem_filter.mpr ⟨hs, by simp [hentry]⟩))

theorem CompiledQuery.maintained_mem_ownViews {q : CompiledQuery} {c : Comprehension}
    (hc : q.maintained = some c) : (⟨q.name, c, q.settings.selfJoin⟩ : View) ∈ q.ownViews :=
  List.mem_append_right _ (by simp [hc])

def Program.entries (p : Program) (set : String) : List Support :=
  (p.queries.flatMap (·.entries)).filter fun e => e.target = set

theorem CompiledQuery.views_perm (q : CompiledQuery) :
    q.views.Perm (q.ownViews ++ q.entries.map (·.view q.settings.selfJoin)) := by
  have hsplit := (List.filter_append_perm (·.isEntry) q.supports).symm.map
    (·.view q.settings.selfJoin)
  rw [List.map_append] at hsplit
  unfold views ownViews entries
  refine (hsplit.append_right _).trans ?_
  rw [List.append_assoc]
  exact List.perm_append_comm

theorem filter_eq_singleton_of_nodup_map {α β : Type} [DecidableEq β] {f : α → β} {l : List α}
    (nodup : (l.map f).Nodup) {a : α} (h : a ∈ l) : (l.filter fun b => f b = f a) = [a] := by
  induction l with
  | nil => cases h
  | cons b l ih =>
    rw [List.map_cons, List.nodup_cons] at nodup
    rcases List.mem_cons.mp h with rfl | h
    · have hnone : (l.filter fun b => f b = f a) = [] := by
        refine List.filter_eq_nil_iff.mpr fun b hb hf => ?_
        have heq : f b = f a := of_decide_eq_true hf
        exact nodup.1 (heq ▸ List.mem_map_of_mem hb)
      simp [hnone]
    · have hne : f b ≠ f a := fun he => nodup.1 (he ▸ List.mem_map_of_mem h)
      simp [hne, ih nodup.2 h]

namespace Compile

variable {o : Options} {decl : QueryDecl} {scope : Scope} {catalog : List RelationInfo}
  {q : CompiledQuery} {d : Declarations} {p : Program}

theorem Compiled.relations_perm (h : Compiled o decl scope catalog q) :
    (q.relations.map (·.name)).Perm (q.ownViews.map (·.target) ++ q.demandSet.toList) := by
  rw [relations_names]
  unfold CompiledQuery.ownViews
  rcases h.kept with unkept | ⟨plan, kept⟩
  · simp [unkept.result, unkept.demandSet, unkept.supports, unkept.maintained]
  · rw [kept.result, kept.maintained, List.map_append, List.map_map, List.map_map]
    refine (List.perm_append_comm).trans ?_
    rw [← List.append_assoc]
    exact .of_eq rfl

theorem Compiled.params_ne_nil (h : Compiled o decl scope catalog q)
    (hmode : q.settings.mode = .dem)
    (named : decl.WellNamed) : q.params ≠ [] := by
  obtain ⟨overrides, _, hs⟩ := h.settings
  rw [h.params, (Lowering.query_lowered named h.spec).params]
  intro hnil
  rw [List.map_eq_nil_iff] at hnil
  rw [hs, Settings.resolve] at hmode
  simp only [hnil, List.isEmpty_nil] at hmode
  split at hmode
  · cases hmode
  · rename_i hne
    exact hne (by simp [hmode])

namespace Built

theorem entry (built : Built o d p) (sound : d.Sound) {earlier later : List CompiledQuery}
    (h : p.queries = earlier ++ q :: later) {s : Support} (hs : s ∈ q.supports)
    (hentry : s.isEntry = true) :
    ∃ r ∈ earlier, r.settings.mode = .dem ∧ s.kind = .entry r.name ∧
      s.target = Demand.setName r.name ∧ ∃ params : List Var, params ≠ [] ∧
        s.spec = ⟨Demand.tagClauses q.name params.eraseDups, .tupleOf params, []⟩ := by
  obtain ⟨decl, hdecl, catalog, hc, _⟩ := built.compiled h
  have lowered := Lowering.query_lowered (sound.queries decl hdecl) hc.spec
  rcases hc.kept with unkept | ⟨plan, kept⟩
  · rw [unkept.supports] at hs
    cases hs
  · obtain ⟨cs, hcs, _, hsupports, _⟩ := DemandPlan.ofJoin_eq_ok kept.planned
    rw [kept.supports, hsupports] at hs
    obtain ⟨pre, c, post, guard, hj, hguard, hfrom⟩ :=
      Demand.mem_supportsFrom hcs ((Demand.prune_pruned cs _).sublist.subset hs)
    rcases hfrom with hfrom | ⟨v, _, rfl⟩
    · cases Demand.guardOf_guards hguard s hfrom with
      | entry hparams =>
        rename_i inner sub params
        have hmem : Clause.demand inner sub params ∈ q.spec.join := by
          have hsource : Clause.demand inner sub params ∈ q.source := by simp [hj]
          unfold CompiledQuery.source at hsource
          split at hsource
          · simpa [Comprehension.restrictTo] using hsource
          · exact hsource
        cases lowered.inScope _ hmem with
        | relation _ hc => simp at hc
        | applied hnone hsig hinc hbatch hlen =>
          obtain ⟨r, hr, rfl⟩ := List.mem_map.mp (List.mem_of_find?_eq_some hsig)
          have hname : r.signature.name = sub := by simpa using List.find?_some hsig
          change r.name = sub at hname
          have hdem : r.settings.mode = .dem := by
            cases hm : r.settings.mode with
            | dem => rfl
            | inc => exact absurd hm hinc
            | batch => exact absurd (hbatch hm) kept.mode
          have hrq : r ∈ p.queries := by
            rw [h]
            exact List.mem_append_left _ hr
          obtain ⟨_, _, _, rdecl, hrdecl, _, hrc⟩ := built.mem_compiled hrq
          have hne : params ≠ [] := by
            rintro rfl
            have hlen' : r.params.length = 0 := hlen.symm
            exact hrc.params_ne_nil hdem (sound.queries rdecl hrdecl)
              (List.length_eq_zero_iff.mp hlen')
          exact ⟨r, hr, hdem, by rw [hname], by rw [hname], params, hne, rfl⟩
      | filter => cases hentry
    · cases hentry

theorem entry_isLive (built : Built o d p) (sound : d.Sound) (hq : q ∈ p.queries) {s : Support}
    (hs : s ∈ q.entries) (strategy : SelfJoin) : (s.view strategy).isLive = true := by
  obtain ⟨earlier, later, h, _⟩ := built.mem_compiled hq
  obtain ⟨hs, hentry⟩ := List.mem_filter.mp hs
  obtain ⟨r, _, _, _, _, params, hne, hspec⟩ := built.entry sound h hs hentry
  have hrels : (s.view strategy).spec.join.rels ≠ [] := by
    obtain ⟨v, hv⟩ := List.exists_mem_of_ne_nil params hne
    have hmem : Demand.tagName q.name v ∈ (s.view strategy).spec.join.rels := by
      rw [Join.mem_rels]
      refine ⟨.member [v] (Demand.tagName q.name v), ?_, rfl⟩
      simp only [Support.view, hspec, Demand.tagClauses]
      exact List.mem_map_of_mem (List.mem_eraseDups.mpr hv)
    exact List.ne_nil_of_mem hmem
  simpa [View.isLive] using hrels

/-- The relations that have one writer, and the demand sets, all have different names. -/
theorem nodup_targets (built : Built o d p) (sound : d.Sound) :
    (d.relations.map (·.name) ++ ((p.queries.flatMap (·.ownViews)).map (·.target) ++
      p.queries.flatMap (·.demandSet.toList))).Nodup := by
  have hperm : (p.queries.flatMap fun q => q.relations.map (·.name)).Perm
      ((p.queries.flatMap (·.ownViews)).map (·.target) ++
        p.queries.flatMap (·.demandSet.toList)) := by
    rw [List.map_flatMap]
    refine (List.Perm.flatMap_left p.queries fun q hq => ?_).trans
      (List.flatMap_append_perm _ _ _).symm
    obtain ⟨_, _, _, _, _, _, hc⟩ := built.mem_compiled hq
    exact hc.relations_perm
  exact (hperm.append_left _).nodup_iff.mp (built.nodup_names sound)

theorem demandSet_of_dem (built : Built o d p) (hq : q ∈ p.queries)
    (hdem : q.settings.mode = .dem) :
    q.demandSet = some (Demand.setName q.name) := by
  obtain ⟨_, _, _, _, _, _, hc⟩ := built.mem_compiled hq
  rcases hc.kept with unkept | ⟨plan, kept⟩
  · rw [unkept.mode] at hdem
    cases hdem
  · rw [kept.demandSet, if_pos hdem]

theorem demandSet_of_not_dem (built : Built o d p) (hq : q ∈ p.queries)
    (hdem : q.settings.mode ≠ .dem) : q.demandSet = none := by
  obtain ⟨_, _, _, _, _, _, hc⟩ := built.mem_compiled hq
  rcases hc.kept with unkept | ⟨plan, kept⟩
  · exact unkept.demandSet
  · exact kept.demandSet.trans (if_neg hdem)

theorem mode_of_result (built : Built o d p) (hq : q ∈ p.queries) {result : String}
    (hresult : q.result = some result) : q.settings.mode ≠ .batch := by
  obtain ⟨_, _, _, _, _, _, hc⟩ := built.mem_compiled hq
  rcases hc.kept with unkept | ⟨plan, kept⟩
  · cases hresult.symm.trans unkept.result
  · exact kept.mode

theorem queries_plain (built : Built o d p) (sound : d.Sound) :
    ∀ q ∈ p.queries, ∀ c ∈ q.spec.join, c.Plain := by
  intro q hq c hc
  obtain ⟨_, _, _, decl, hdecl, _, hcompiled⟩ := built.mem_compiled hq
  have lowered := Lowering.query_lowered (sound.queries decl hdecl) hcompiled.spec
  exact (lowered.inScope c hc).plain

theorem entry_target (built : Built o d p) (sound : d.Sound) (hq : q ∈ p.queries) {s : Support}
    (hs : s ∈ q.entries) : s.target ∈ p.queries.flatMap (·.demandSet.toList) := by
  obtain ⟨earlier, later, h, _⟩ := built.mem_compiled hq
  obtain ⟨hs, hentry⟩ := List.mem_filter.mp hs
  obtain ⟨r, hr, hdem, _, htarget, _⟩ := built.entry sound h hs hentry
  have hrq : r ∈ p.queries := by
    rw [h]
    exact List.mem_append_left _ hr
  rw [htarget]
  exact List.mem_flatMap.mpr ⟨r, hrq, by simp [built.demandSet_of_dem hrq hdem]⟩

theorem views_perm (p : Program) : p.views.Perm (p.queries.flatMap (·.ownViews) ++
    p.queries.flatMap fun q => q.entries.map (·.view q.settings.selfJoin)) :=
  (List.Perm.flatMap_left p.queries fun q _ => q.views_perm).trans
    (List.flatMap_append_perm _ _ _).symm

theorem own_writer (built : Built o d p) (sound : d.Sound) (hq : q ∈ p.queries) {v : View}
    (hv : v ∈ q.ownViews) : (p.views.filter fun w => w.target = v.target) = [v] := by
  have hnodup := (List.nodup_append.mp (built.nodup_targets sound)).2.1
  have hmem : v ∈ p.queries.flatMap (·.ownViews) := List.mem_flatMap.mpr ⟨q, hq, hv⟩
  have hown := filter_eq_singleton_of_nodup_map (List.nodup_append.mp hnodup).1 hmem
  have hentries : ((p.queries.flatMap fun q => q.entries.map (·.view q.settings.selfJoin)).filter
      fun w => w.target = v.target) = [] := by
    refine List.filter_eq_nil_iff.mpr fun w hw he => ?_
    obtain ⟨r, hr, hw⟩ := List.mem_flatMap.mp hw
    obtain ⟨s, hs, rfl⟩ := List.mem_map.mp hw
    have htarget := built.entry_target sound hr hs
    have heq : s.target = v.target := of_decide_eq_true he
    exact (List.nodup_append.mp hnodup).2.2 _ (List.mem_map_of_mem hmem) _ htarget heq.symm
  have hperm := (views_perm p).filter fun w => w.target = v.target
  rw [List.filter_append, hown, hentries, List.append_nil] at hperm
  exact List.perm_singleton.mp hperm

theorem own_writers (built : Built o d p) (sound : d.Sound) (hq : q ∈ p.queries) {v : View}
    (hv : v ∈ q.ownViews) : p.writers v.target = if v.isLive then [v] else [] := by
  have hfilter : p.writers v.target =
      (p.views.filter fun w => w.target = v.target).filter (·.isLive) := by
    rw [List.filter_filter]
    exact List.filter_congr fun w _ => Bool.and_comm _ _
  rw [hfilter, built.own_writer sound hq hv, List.filter_singleton, cond_eq_ite]

theorem own_target (built : Built o d p) (sound : d.Sound) (hq : q ∈ p.queries) {v : View}
    (hv : v ∈ q.ownViews) : v.target ∉ d.relations.map (·.name) ∧
      v.target ∉ p.queries.flatMap (·.demandSet.toList) := by
  have hmem : v.target ∈ (p.queries.flatMap (·.ownViews)).map (·.target) :=
    List.mem_map_of_mem (List.mem_flatMap.mpr ⟨q, hq, hv⟩)
  obtain ⟨_, hn, hapart⟩ := List.nodup_append.mp (built.nodup_targets sound)
  refine ⟨fun hm => ?_, fun hm => ?_⟩
  · exact hapart _ hm _ (List.mem_append_left _ hmem) rfl
  · exact (List.nodup_append.mp hn).2.2 _ hmem _ hm rfl

theorem set_writers (built : Built o d p) (sound : d.Sound) {u : String}
    (hu : u ∈ p.queries.flatMap (·.demandSet.toList)) (facts : Facts) (row : Row) :
    ((p.writers u).map fun v => v.spec.multiplicity facts row).sum =
      ((p.entries u).map fun e => e.spec.multiplicity facts row).sum := by
  have hown : ((p.queries.flatMap (·.ownViews)).filter fun v => v.target = u && v.isLive) = [] := by
    refine List.filter_eq_nil_iff.mpr fun v hv hcond => ?_
    obtain ⟨q, hq, hv⟩ := List.mem_flatMap.mp hv
    have htarget : v.target = u := of_decide_eq_true (Bool.and_eq_true_iff.mp hcond).1
    exact (built.own_target sound hq hv).2 (htarget ▸ hu)
  have hentries : ((p.queries.flatMap fun q => q.entries.map (·.view q.settings.selfJoin)).filter
      fun v => v.target = u && v.isLive).map (fun v => v.spec.multiplicity facts row) =
      (p.entries u).map fun e => e.spec.multiplicity facts row := by
    unfold Program.entries
    rw [List.filter_flatMap, List.filter_flatMap, List.map_flatMap, List.map_flatMap]
    refine List.flatMap_congr fun q hq => ?_
    rw [List.filter_map, List.map_map]
    congr 1
    refine List.filter_congr fun e he => ?_
    rw [Function.comp_apply, built.entry_isLive sound hq he, Bool.and_true]
    rfl
  have hperm := ((views_perm p).filter fun v => v.target = u && v.isLive).map
    fun v => v.spec.multiplicity facts row
  rw [List.filter_append, hown, List.nil_append, hentries] at hperm
  exact hperm.sum_eq

theorem view_target (built : Built o d p) (sound : d.Sound) {v : View} (hv : v ∈ p.views) :
    v.target ∈ (p.queries.flatMap (·.ownViews)).map (·.target) ++
      p.queries.flatMap (·.demandSet.toList) := by
  rcases List.mem_append.mp ((views_perm p).mem_iff.mp hv) with hv | hv
  · exact List.mem_append_left _ (List.mem_map_of_mem hv)
  · obtain ⟨q, hq, hv⟩ := List.mem_flatMap.mp hv
    obtain ⟨s, hs, rfl⟩ := List.mem_map.mp hv
    exact List.mem_append_right _ (built.entry_target sound hq hs)

theorem view_target_not_base (built : Built o d p) (sound : d.Sound) {v : View} (hv : v ∈ p.views) :
    v.target ∉ d.relations.map (·.name) := fun h =>
  (List.nodup_append.mp (built.nodup_targets sound)).2.2 _ h _ (built.view_target sound hv) rfl

theorem base_writers (built : Built o d p) (sound : d.Sound) {rel : String}
    (h : rel ∈ d.relations.map (·.name)) : p.writers rel = [] := by
  refine List.filter_eq_nil_iff.mpr fun v hv hcond => ?_
  have htarget : v.target = rel := by simpa using (Bool.and_eq_true_iff.mp hcond).1
  exact built.view_target_not_base sound hv (htarget ▸ h)

end Built

/-! ### Relations that do not count -/

theorem Kept.isDuplicateSafe {plan : DemandPlan} (kept : Kept o catalog q plan)
    (h : q.spec.isDuplicateSafe = true) :
    (⟨plan.join, q.spec.result, q.spec.params⟩ : Comprehension).isDuplicateSafe = true := by
  obtain ⟨cs, _, _, _, hjoin⟩ := DemandPlan.ofJoin_eq_ok kept.planned
  obtain ⟨hinj, hlocal⟩ := Bool.and_eq_true_iff.mp h
  refine Bool.and_eq_true_iff.mpr ⟨hinj, List.all_eq_true.mpr fun v hv => ?_⟩
  obtain ⟨henum, hparam⟩ := List.mem_filter.mp hv
  refine List.all_eq_true.mp hlocal v (List.mem_filter.mpr ⟨?_, hparam⟩)
  rw [Join.mem_enumVars] at henum ⊢
  obtain ⟨c, hc, hvc⟩ := henum
  have hlhs : c.lhs ∈ q.source.map Clause.lhs := by
    rw [← Demand.map_lhs_apply q.source plan.supports plan.selected, ← hjoin]
    exact List.mem_map_of_mem hc
  obtain ⟨e, he, heq⟩ := List.mem_map.mp hlhs
  rw [← heq] at hvc
  unfold CompiledQuery.source at he
  split at he
  · rcases List.mem_cons.mp he with rfl | he
    · have hp : v ∈ q.spec.params := hvc
      simp [hp] at hparam
    · exact ⟨e, he, hvc⟩
  · exact ⟨e, he, hvc⟩

theorem Compiled.safe_of_plain (h : Compiled o decl scope catalog q) (hplain : q.counted = false) :
    q.spec.isDuplicateSafe = true := by
  have hc := h.counted
  rw [hplain] at hc
  unfold counting at hc
  split at hc
  · cases hc
  · split at hc
    · assumption
    · cases hc
  · simpa using hc

/-- A relation of a query that does not count its rows stores one of the query's own views, which
derives no row twice. -/
theorem Compiled.plain_view (h : Compiled o decl scope catalog q) {info : RelationInfo}
    (hinfo : info ∈ q.relations) (hplain : info.counted = false) :
    ∃ v ∈ q.ownViews, v.target = info.name ∧ v.spec.isDuplicateSafe = true := by
  rcases h.kept with unkept | ⟨plan, kept⟩
  · simp [CompiledQuery.relations, unkept.result, unkept.demandSet, unkept.supports] at hinfo
  · unfold CompiledQuery.relations at hinfo
    rw [kept.result] at hinfo
    rcases List.mem_append.mp hinfo with hinfo | hinfo
    · rcases List.mem_append.mp hinfo with hinfo | hinfo
      · obtain ⟨n, hn, rfl⟩ := List.mem_map.mp hinfo
        cases Option.mem_toList.mp hn
        exact ⟨_, CompiledQuery.maintained_mem_ownViews kept.maintained, rfl,
          kept.isDuplicateSafe (h.safe_of_plain hplain)⟩
      · obtain ⟨n, _, rfl⟩ := List.mem_map.mp hinfo
        cases hplain
    · obtain ⟨s, hs, hsome⟩ := List.mem_filterMap.mp hinfo
      have hnot : s.isEntry = false ∧ s.target = info.name ∧ s.counted = false := by
        split at hsome
        · rename_i hk
          cases hsome
          exact ⟨by simp [Support.isEntry, hk], rfl, hplain⟩
        · rename_i hk
          cases hsome
          exact ⟨by simp [Support.isEntry, hk], rfl, hplain⟩
        · cases hsome
      obtain ⟨hentry, htarget, hcounted⟩ := hnot
      refine ⟨_, CompiledQuery.support_mem_ownViews hs hentry, htarget, ?_⟩
      change s.spec.isDuplicateSafe = true
      simpa [Support.counted, hentry] using hcounted

theorem made_closed {estimate : Estimator} {v : View} {hs : List Handler} (proper : v.spec.Proper)
    (hmade : Handler.ofComprehension v.spec v.target v.strategy estimate = .ok hs)
    (live : v.isLive = true) : ∀ x ∈ v.spec.join.vars, ∃ c ∈ v.spec.join, x ∈ c.lhs := by
  have hne : v.spec.join.rels ≠ [] := by simpa [View.isLive] using live
  obtain ⟨rel, hrel⟩ := List.exists_mem_of_ne_nil _ hne
  obtain ⟨h, hh, _⟩ := (Handler.ofComprehension_filter hmade rel .add).2 hrel
  exact Handler.make_closed proper hrel hh

theorem Built.plain_writers (built : Built o d p) (sound : d.Sound) {info : RelationInfo}
    (hinfo : info ∈ p.catalog) (hplain : info.counted = false) :
    (info ∈ d.relations ∧ p.writers info.name = []) ∨
      ((info.name ∉ d.relations.map (·.name) ∧
          info.name ∉ p.queries.flatMap (·.demandSet.toList)) ∧
        ∀ facts row, ((p.writers info.name).map fun v =>
          v.spec.multiplicity facts row).sum ≤ 1) := by
  rw [built.catalog_eq sound] at hinfo
  rcases List.mem_append.mp hinfo with hinfo | hinfo
  · exact .inl ⟨hinfo, built.base_writers sound (List.mem_map_of_mem hinfo)⟩
  · obtain ⟨q, hq, hinfo⟩ := List.mem_flatMap.mp hinfo
    obtain ⟨_, _, _, decl, hdecl, _, hc⟩ := built.mem_compiled hq
    obtain ⟨v, hv, htarget, hsafe⟩ := hc.plain_view hinfo hplain
    have hview : v ∈ q.views := q.views_perm.mem_iff.mpr (List.mem_append_left _ hv)
    rw [← htarget]
    refine .inr ⟨built.own_target sound hq hv, fun facts row => ?_⟩
    rw [built.own_writers sound hq hv]
    split
    · rename_i live
      have hclosed := made_closed (hc.views_proper (sound.queries decl hdecl) v hview)
        (hc.handlers.1 v hview) live
      have hbound : ∀ w ∈ v.spec.join.vars, w ∈ v.spec.join.enumVars ∨ w ∈ v.spec.params :=
        fun w hw => .inl (Join.mem_enumVars.mpr (hclosed w hw))
      simpa using Comprehension.multiplicity_le_one hbound hsafe facts row
    · simp

end Compile

end ViewUpkeep
