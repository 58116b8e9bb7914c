import ViewUpkeep.Proofs.Evaluation
import ViewUpkeep.Proofs.Writers

/-!
What demand reaches. A demanded query is kept over tags, filters and the demand sets of other
queries, not over the relations that it is written with. Nothing is lost by that: under every
environment that satisfies the clauses as written, each tag, filter and demand set that is left
after pruning has what it should have. And nothing is gained, since filters only leave out rows.
-/
namespace ViewUpkeep

/-! ### Rows that are derived at all -/

namespace Clause.Plain

variable {c : Clause} {facts : Facts} {env : Env}

theorem mem_mentions (plain : c.Plain) {v : Var} (h : v ∈ c.mentions) :
    v ∈ c.lhs ∨ v ∈ c.readVars := by
  cases c with
  | member | mapMember => exact .inl h
  | singleton lhs expr => simpa [mentions, Clause.lhs, readVars] using h
  | demand inner query params =>
    cases inner with
    | member => exact .inl h
    | _ => cases plain
  | cond expr => exact .inr (by simpa [mentions, readVars] using h)
  | _ => cases plain

theorem binds_lhs (plain : c.Plain) (h : c.Holds facts env) : env.Binds c.lhs := by
  cases c with
  | member | mapMember | singleton =>
    obtain ⟨row, hrow, _⟩ := h
    exact hrow.binds
  | demand inner query params =>
    cases inner with
    | member =>
      obtain ⟨row, hrow, _⟩ := h
      exact hrow.binds
    | _ => cases plain
  | cond => exact fun v hv => absurd hv (by simp [Clause.lhs])
  | _ => cases plain

end Clause.Plain

structure Comprehension.Closed (c : Comprehension) : Prop where
  vars : ∀ v ∈ c.join.vars, ∃ d ∈ c.join, v ∈ d.lhs
  output : ∀ v ∈ c.output.mentions, ∃ d ∈ c.join, v ∈ d.lhs

theorem Comprehension.Proper.mem_vars {c : Comprehension} (proper : c.Proper) {d : Clause}
    (hd : d ∈ c.join) {v : Var} (hv : v ∈ d.mentions) : v ∈ c.join.vars := by
  refine Join.mem_vars.mpr ⟨d, hd, (proper.plain d hd).mem_mentions hv, ?_⟩
  exact fun he => proper.join_delta d hd (he ▸ hv)

theorem Comprehension.Proper.multiplicity_pos_iff {c : Comprehension} (proper : c.Proper)
    (closed : c.Closed) (facts : Facts) (row : Row) :
    0 < c.multiplicity facts row ↔ c.Yields facts row := by
  rw [multiplicity, Set.encard_pos]
  constructor
  · rintro ⟨b, ⟨_, holds⟩, hout⟩
    exact ⟨c.bindings b, holds, hout⟩
  · rintro ⟨env, holds, hout⟩
    have hbound : ∀ v, (∃ d ∈ c.join, v ∈ d.lhs) → (env.get? v).isSome = true :=
      fun v ⟨d, hd, hv⟩ => (proper.plain d hd).binds_lhs (holds d hd) v hv
    obtain ⟨b, hb⟩ := Env.Binds.exists_reads fun v hv => hbound v (closed.vars v hv)
    have hbind : (c.bindings b).Reads c.join.vars b := Env.reads_zip c.join.nodup_vars hb.length
    have hsame : ∀ v ∈ c.join.vars, (c.bindings b).get? v = env.get? v :=
      fun v hv => hbind.get?_eq hb hv
    refine ⟨b, ⟨hb.length, ?_⟩, ?_⟩
    · rwa [Join.holds_congr fun d hd v hv => hsame v (proper.mem_vars hd hv)]
    · rw [Expr.evalRow_congr _ fun v hv => hsame v ?_]
      · exact hout
      · obtain ⟨d, hd, hvd⟩ := closed.output v hv
        refine Join.mem_vars.mpr ⟨d, hd, .inl hvd, ?_⟩
        exact fun he => proper.output_delta (he ▸ hv)

namespace Demand

variable {query : String} {filters : Bool}

theorem mentions_output_tupleOf (j : Join) (vs : List Var) :
    (Comprehension.output ⟨j, .tupleOf vs, []⟩).mentions = vs := by
  simp [Comprehension.output, Expr.components, Expr.tupleOf, Expr.mentions, Expr.mentionsAll_vars]

theorem mentions_output_var (j : Join) (v : Var) :
    (Comprehension.output ⟨j, .var v, []⟩).mentions = [v] := by
  simp [Comprehension.output, Expr.components, Expr.mentions, Expr.mentionsAll]

theorem tagSource_spec {c : Clause} (plain : c.Plain) {v : Var} (hv : v ∈ c.tagsOut)
    (guard : Option Support) :
    ∃ d ∈ tagSource c guard, d.lhs = c.lhs ∧ ∃ rel, d.rel? = some rel := by
  cases c with
  | member lhs rel | mapMember lhs rel n =>
    cases guard with
    | none => exact ⟨_, List.mem_singleton_self _, rfl, rel, rfl⟩
    | some g => exact ⟨_, List.mem_singleton_self _, rfl, g.target, rfl⟩
  | demand inner query params =>
    cases inner with
    | member lhs rel =>
      refine ⟨.member lhs rel, ?_, rfl, rel, rfl⟩
      cases guard <;> simp [tagSource]
    | _ => cases plain
  | singleton | cond => cases hv
  | _ => cases plain

theorem supportsFrom_live {i : Nat} {j : Join} {cs : List Support} (plain : ∀ c ∈ j, c.Plain)
    (h : supportsFrom query filters i [] j = .ok cs) {s : Support} (hs : s ∈ cs)
    (hentry : s.isEntry = false) : s.spec.join.rels ≠ [] := by
  obtain ⟨pre, c, post, guard, rfl, hguard, hs⟩ := mem_supportsFrom h hs
  have hexists : ∃ d ∈ s.spec.join, ∃ rel, d.rel? = some rel := by
    rcases hs with hs | ⟨v, hv, rfl⟩
    · cases guardOf_guards hguard s hs with
      | entry => cases hentry
      | filter _ _ hrel _ =>
        refine ⟨c, by simp, ?_⟩
        rcases hrel with hc | ⟨n, hc⟩ <;> exact ⟨_, by rw [hc]; rfl⟩
    · obtain ⟨d, hd, _, hrel⟩ := tagSource_spec (plain c (by simp)) (mem_newTags.mp hv).1 guard
      exact ⟨d, hd, hrel⟩
  obtain ⟨d, hd, rel, hrel⟩ := hexists
  exact List.ne_nil_of_mem (Join.mem_rels.mpr ⟨d, hd, hrel⟩)

theorem supportsFrom_output {i : Nat} {j : Join} {cs : List Support} (plain : ∀ c ∈ j, c.Plain)
    (h : supportsFrom query filters i [] j = .ok cs) {s : Support} (hs : s ∈ cs) :
    ∀ v ∈ s.spec.output.mentions, ∃ d ∈ s.spec.join, v ∈ d.lhs := by
  obtain ⟨pre, c, post, guard, rfl, hguard, hs⟩ := mem_supportsFrom h hs
  intro v hv
  rcases hs with hs | ⟨w, hw, rfl⟩
  · cases guardOf_guards hguard s hs with
    | entry =>
      rw [mentions_output_tupleOf] at hv
      exact ⟨.member [v] (tagName query v),
        List.mem_map_of_mem (List.mem_eraseDups.mpr hv), List.mem_singleton_self v⟩
    | filter =>
      rw [mentions_output_tupleOf] at hv
      exact ⟨c, by simp, hv⟩
  · rw [tagOf, mentions_output_var, List.mem_singleton] at hv
    obtain ⟨d, hd, hlhs, _⟩ := tagSource_spec (plain c (by simp)) (mem_newTags.mp hw).1 guard
    exact ⟨d, hd, by rw [hlhs, hv]; exact tagsOut_subset_lhs c (mem_newTags.mp hw).1⟩

/-! ### Nothing is lost -/

theorem evalRow_tupleOf (j : Join) (vs : List Var) (env : Env) (row : Row) :
    (Comprehension.output ⟨j, .tupleOf vs, []⟩).evalRow env = .ok row ↔ env.Reads vs row := by
  rw [Comprehension.output_evalRow]
  simp [Expr.tupleOf, Expr.components, Expr.evalAll_vars]

theorem evalRow_var (j : Join) {v : Var} {env : Env} {x : Value} (h : env.get? v = some x) :
    (Comprehension.output ⟨j, .var v, []⟩).evalRow env = .ok [x] := by
  rw [Comprehension.output_evalRow]
  refine ⟨[], [x], by simp, ?_, rfl⟩
  exact (Expr.evalAll_vars env [v] [x]).mpr
    ((Env.reads_cons ..).mpr ⟨h, (Env.reads_nil ..).mpr rfl⟩)

/-- A clause that holds, or that would hold if its arguments were demanded. -/
def Ready (demanded facts : Facts) (env : Env) : Clause → Prop
  | .demand inner subquery params => (∃ args, env.Reads params args) ∧
    ((∃ args, env.Reads params args ∧ demanded (setName subquery) args) → inner.Holds facts env)
  | c => c.Holds facts env

theorem ready_of_holds {demanded facts : Facts} {env : Env} {c : Clause} (plain : c.Plain)
    (args : ∀ inner subquery params, c = .demand inner subquery params → params ⊆ c.lhs)
    (h : c.Holds facts env) : Ready demanded facts env c := by
  cases c with
  | demand inner subquery params =>
    refine ⟨Env.Binds.exists_reads fun v hv => ?_, fun _ => h⟩
    exact plain.binds_lhs h v (args _ _ _ rfl hv)
  | _ => exact h

def Needed (query : String) (kept : List Support) (v : Var) : Prop :=
  ∃ r ∈ kept, r.target ≠ tagName query v ∧ r.reads (tagName query v) = true

def Tagged (query : String) (kept : List Support) (facts : Facts) (env : Env) (tagged : List Var) :
    Prop :=
  ∀ v ∈ tagged, Needed query kept v → ∃ x, env.get? v = some x ∧ facts (tagName query v) [x]

section Coverage

variable {cs kept : List Support} {selected : List Nat} {demanded facts : Facts} {env : Env}
  {tagged : List Var} {i : Nat} {c : Clause} {guard : Option Support}

/-- No entry writes to a tag that it reads. -/
def Apart (query : String) (kept : List Support) : Prop :=
  ∀ s ∈ kept, s.isEntry = true → ∀ v, s.reads (tagName query v) = true → s.target ≠ tagName query v

theorem reads_of_mem {s : Support} {lhs : List Var} {rel : String}
    (h : .member lhs rel ∈ s.spec.join) : s.reads rel = true := by
  simpa [Support.reads] using Join.mem_rels.mpr ⟨_, h, rfl⟩

theorem needed_of_mem {s : Support} (hs : s ∈ kept) {v : Var} (hne : s.target ≠ tagName query v)
    {lhs : List Var} (hread : .member lhs (tagName query v) ∈ s.spec.join) : Needed query kept v :=
  ⟨s, hs, hne, reads_of_mem hread⟩

theorem Tagged.tagClauses (htags : Tagged query kept facts env tagged) {s : Support} (hs : s ∈ kept)
    {vs : List Var} (hvs : ∀ v ∈ vs, v ∈ tagged ∧ s.target ≠ tagName query v)
    (hread : ∀ d ∈ tagClauses query vs, d ∈ s.spec.join) :
    ∀ d ∈ tagClauses query vs, d.Holds facts env := by
  intro d hd
  have hjoin := hread d hd
  obtain ⟨v, hv, rfl⟩ := List.mem_map.mp hd
  obtain ⟨x, hx, hfact⟩ := htags v (hvs v hv).1 (needed_of_mem hs (hvs v hv).2 hjoin)
  exact ⟨[x], (Env.reads_cons ..).mpr ⟨hx, (Env.reads_nil ..).mpr rfl⟩, hfact⟩

theorem guard_holds (htags : Tagged query kept facts env tagged)
    (apart : Apart query kept) (ready : Ready demanded facts env c)
    (hguard : guardOf query filters tagged i c = .ok guard) {s : Support}
    (hs : s ∈ guard) (hkept : s ∈ kept) : s.spec.join.Holds facts env := by
  cases guardOf_guards hguard s hs with
  | entry hparams =>
    refine htags.tagClauses hkept ?_ fun d hd => hd
    intro v hv
    exact ⟨hparams v (List.mem_eraseDups.mp hv),
      apart _ hkept rfl v (reads_of_mem (List.mem_map_of_mem hv))⟩
  | filter _ _ hrel =>
    intro d hd
    rcases List.mem_append.mp hd with hd | hd
    · refine htags.tagClauses hkept ?_ (fun d hd => List.mem_append_left _ hd) d hd
      intro v hv
      refine ⟨by simpa using (List.mem_filter.mp hv).2, ?_⟩
      exact (tagName_ne_filterName _ _ _).symm
    · rw [List.mem_singleton.mp hd]
      rcases hrel with hc | ⟨n, hc⟩ <;> rw [hc] at ready ⊢ <;> exact ready

/-- A clause holds, because its arguments are demanded by then. -/
theorem clause_holds (pruned : Pruned cs selected kept)
    (hentries : ∀ s ∈ kept, s.isEntry = true → ∀ row, s.spec.Yields facts row →
      demanded s.target row)
    (htags : Tagged query kept facts env tagged) (apart : Apart query kept)
    (ready : Ready demanded facts env c) (hguard : guardOf query filters tagged i c = .ok guard)
    (hcs : ∀ s ∈ guard, s ∈ cs) : c.Holds facts env := by
  cases c with
  | demand inner subquery params =>
    obtain ⟨_, rfl⟩ := guardOf_demand hguard
    have hkept := pruned.entries _ (hcs _ rfl) rfl
    have hjoin := guard_holds htags apart ready hguard rfl hkept
    obtain ⟨⟨args, hargs⟩, hholds⟩ := ready
    exact hholds ⟨args, hargs, hentries _ hkept rfl args
      ⟨env, hjoin, (evalRow_tupleOf _ params env args).mpr hargs⟩⟩
  | _ => exact ready

theorem filter_tags (pruned : Pruned cs selected kept) {g : Support}
    (hguard : Guards query filters tagged i c g) (hfilter : g.isFilter = true) (hg : g ∈ cs) :
    tagSource c (some g) = [.member c.lhs g.target] ∧
      ∀ v, tagOf query i (tagSource c (some g)) v ∈ kept → g ∈ kept := by
  cases hguard with
  | entry => cases hfilter
  | @filter _ rel _ _ hrel =>
    have hsource : tagSource c (some ⟨.filter, i, filterName query i rel,
        ⟨tagClauses query (c.lhs.eraseDups.filter fun v => tagged.contains v) ++ [c],
          .tupleOf c.lhs, []⟩⟩) = [.member c.lhs (filterName query i rel)] := by
      rcases hrel with h | ⟨n, h⟩ <;> rw [h] <;> rfl
    refine ⟨hsource, fun v hkept => pruned.filters _ hg rfl (.inr ⟨_, hkept, rfl, ?_⟩)⟩
    rw [hsource]
    exact reads_of_mem (List.mem_singleton_self _)

theorem tag_holds (pruned : Pruned cs selected kept)
    (hstored : ∀ s ∈ kept, s.isEntry = false → ∀ row, s.spec.Yields facts row → facts s.target row)
    (htags : Tagged query kept facts env tagged) (apart : Apart query kept)
    (plain : c.Plain) (ready : Ready demanded facts env c) (hc : c.Holds facts env)
    (hguard : guardOf query filters tagged i c = .ok guard) (hcs : ∀ s ∈ guard, s ∈ cs) {v : Var}
    (hv : v ∈ newTags tagged c) (hkept : tagOf query i (tagSource c guard) v ∈ kept) :
    (tagSource c guard).Holds facts env := by
  cases hg : guard with
  | none =>
    rw [hg] at hguard
    cases c with
    | demand => cases (guardOf_demand hguard).2
    | _ => exact fun d hd => List.mem_singleton.mp hd ▸ hc
  | some g =>
    subst hg
    cases guardOf_guards hguard g rfl with
    | entry hparams =>
      intro d hd
      rcases List.mem_append.mp hd with hd | hd
      · refine htags.tagClauses hkept ?_ (fun d hd => List.mem_append_left _ hd) d hd
        intro w hw
        have hw := hparams w (List.mem_eraseDups.mp hw)
        exact ⟨hw, fun he => (mem_newTags.mp hv).2.2 (tagName_inj he ▸ hw)⟩
      · exact List.mem_singleton.mp hd ▸ hc
    | filter =>
      obtain ⟨hsource, hfilter⟩ := filter_tags pruned (guardOf_guards hguard _ rfl) rfl (hcs _ rfl)
      have hfilter := hfilter v hkept
      have hjoin := guard_holds htags apart ready hguard rfl hfilter
      obtain ⟨row, hrow⟩ := Env.Binds.exists_reads (plain.binds_lhs hc)
      have hfact := hstored _ hfilter rfl row
        ⟨env, hjoin, (evalRow_tupleOf _ c.lhs env row).mpr hrow⟩
      intro d hd
      rw [hsource] at hd
      rw [List.mem_singleton.mp hd]
      exact ⟨row, hrow, hfact⟩

/-- From the first clause to the last, all supports that are left hold, and so do the clauses. -/
theorem supportsFrom_holds (pruned : Pruned cs selected kept)
    (hstored : ∀ s ∈ kept, s.isEntry = false → ∀ row, s.spec.Yields facts row → facts s.target row)
    (hentries : ∀ s ∈ kept, s.isEntry = true → ∀ row, s.spec.Yields facts row →
      demanded s.target row)
    (apart : Apart query kept) {j : Join}
    (plain : ∀ c ∈ j, c.Plain) (ready : ∀ c ∈ j, Ready demanded facts env c) {later : List Support}
    (h : supportsFrom query filters i tagged j = .ok later) (hlater : ∀ s ∈ later, s ∈ cs)
    (htags : Tagged query kept facts env tagged) :
    (∀ s ∈ later, s ∈ kept → s.spec.join.Holds facts env) ∧ j.Holds facts env := by
  induction j generalizing i tagged later with
  | nil =>
    cases h
    exact ⟨by simp, by simp [Join.Holds]⟩
  | cons c rest ih =>
    obtain ⟨guard, after, hguard, hafter, rfl⟩ := supportsFrom_cons h
    obtain ⟨hplain, plain⟩ := List.forall_mem_cons.mp plain
    obtain ⟨hready, ready⟩ := List.forall_mem_cons.mp ready
    have hcs : ∀ s ∈ guard, s ∈ cs := fun s hs => hlater s (by simp [Option.mem_toList.mpr hs])
    have hc := clause_holds pruned hentries htags apart hready hguard hcs
    have htag : ∀ v ∈ newTags tagged c, tagOf query i (tagSource c guard) v ∈ kept →
        (tagSource c guard).Holds facts env :=
      fun v hv => tag_holds pruned hstored htags apart hplain hready hc hguard hcs hv
    have htags' : Tagged query kept facts env (tagged ++ newTags tagged c) := by
      intro v hv hneeded
      rcases List.mem_append.mp hv with hv | hv
      · exact htags v hv hneeded
      · have hmem : tagOf query i (tagSource c guard) v ∈ cs :=
          hlater _ (List.mem_append_left _ (List.mem_append_right _ (List.mem_map_of_mem hv)))
        have hkept := pruned.tags _ hmem rfl hneeded
        have hlhs := tagsOut_subset_lhs c (mem_newTags.mp hv).1
        obtain ⟨x, hx⟩ := Option.isSome_iff_exists.mp (hplain.binds_lhs hc v hlhs)
        exact ⟨x, hx, hstored _ hkept rfl [x] ⟨env, htag v hv hkept, evalRow_var _ hx⟩⟩
    obtain ⟨hholds, hrest⟩ := ih plain ready hafter
      (fun s hs => hlater s (List.mem_append_right _ hs)) htags'
    refine ⟨?_, List.forall_mem_cons.mpr ⟨hc, hrest⟩⟩
    intro s hs hkept
    rcases List.mem_append.mp hs with hs | hs
    · rcases List.mem_append.mp hs with hs | hs
      · exact guard_holds htags apart hready hguard (Option.mem_toList.mp hs) hkept
      · obtain ⟨v, hv, rfl⟩ := List.mem_map.mp hs
        exact htag v hv hkept
    · exact hholds s hs hkept

theorem filter_spec {j : Join} (h : supportsFrom query filters 0 [] j = .ok cs) {f : Support}
    (hf : f ∈ cs) (hfilter : f.isFilter = true) (hc : j[f.clause]? = some c) :
    (∃ rel, c = .member c.lhs rel ∨ ∃ n, c = .mapMember c.lhs rel n) ∧
      ∃ vs, f.spec = ⟨tagClauses query vs ++ [c], .tupleOf c.lhs, []⟩ := by
  obtain ⟨pre, d, post, guard, rfl, hguard, hf | ⟨v, _, rfl⟩⟩ := mem_supportsFrom h hf
  · cases guardOf_guards hguard f hf with
    | entry => cases hfilter
    | filter _ _ hrel =>
      have hd : c = d := by simpa using hc.symm
      subst hd
      exact ⟨⟨_, hrel⟩, _, rfl⟩
  · cases hfilter

theorem filter_rows {j : Join} (h : supportsFrom query filters 0 [] j = .ok cs) {f : Support}
    (hf : f ∈ cs) (hfilter : f.isFilter = true) (hc : j[f.clause]? = some c) (facts : Facts) :
    ∃ rel, (∀ env, c.Holds facts env ↔ ∃ row, env.Reads c.lhs row ∧ facts rel row) ∧
      ∀ row, f.spec.Yields facts row → facts rel row := by
  obtain ⟨⟨rel, hrel⟩, vs, hspec⟩ := filter_spec h hf hfilter hc
  have hkey : ∀ env, c.Holds facts env ↔ ∃ row, env.Reads c.lhs row ∧ facts rel row := by
    intro env
    rcases hrel with hc | ⟨n, hc⟩ <;> rw [hc] <;> rfl
  refine ⟨rel, hkey, ?_⟩
  rintro row ⟨env, hjoin, hout⟩
  rw [hspec] at hjoin hout
  have hreads := (evalRow_tupleOf _ c.lhs env row).mp hout
  obtain ⟨found, hfound, hfact⟩ := (hkey env).mp (hjoin c (by simp))
  exact hreads.unique hfound ▸ hfact

theorem filter_sound {j : Join} (h : supportsFrom query filters 0 [] j = .ok cs) {f : Support}
    (hf : f ∈ cs) (hfilter : f.isFilter = true) (hc : j[f.clause]? = some c)
    (hyields : ∀ row, facts f.target row → f.spec.Yields facts row)
    (hholds : (c.onRelation f.target).Holds facts env) : c.Holds facts env := by
  obtain ⟨rel, hkey, hrows⟩ := filter_rows h hf hfilter hc facts
  obtain ⟨row, hrow, hfact⟩ := hholds
  exact (hkey env).mpr ⟨row, hrow, hrows row (hyields row hfact)⟩

theorem filter_complete {j : Join} (h : supportsFrom query filters 0 [] j = .ok cs) {f : Support}
    (hf : f ∈ cs) (hfilter : f.isFilter = true) (hc : j[f.clause]? = some c)
    (hyields : ∀ row, f.spec.Yields facts row → facts f.target row)
    (hjoin : f.spec.join.Holds facts env) (plain : c.Plain) (hholds : c.Holds facts env) :
    (c.onRelation f.target).Holds facts env := by
  obtain ⟨_, vs, hspec⟩ := filter_spec h hf hfilter hc
  obtain ⟨row, hrow⟩ := Env.Binds.exists_reads (plain.binds_lhs hholds)
  refine ⟨row, hrow, hyields row ⟨env, hjoin, ?_⟩⟩
  rw [hspec]
  exact (evalRow_tupleOf _ c.lhs env row).mpr hrow

def Replaces (kept : List Support) (n : Nat) (c d : Clause) : Prop :=
  d = c ∨ ∃ f ∈ kept, f.isFilter = true ∧ f.clause = n ∧ d = c.onRelation f.target

def replacement (kept : List Support) (selected : List Nat) (p : Clause × Nat) : Clause :=
  match kept.find? fun s => s.isFilter && s.clause = p.2 && selected.contains p.2 with
  | some f => p.1.onRelation f.target
  | none => p.1

theorem mem_apply {j : Join} (kept : List Support) (selected : List Nat) :
    (∀ d ∈ apply j kept selected, ∃ n c, j[n]? = some c ∧ Replaces kept n c d) ∧
      ∀ n c, j[n]? = some c → ∃ d ∈ apply j kept selected, Replaces kept n c d := by
  have hreplaces : ∀ p : Clause × Nat, Replaces kept p.2 p.1 (replacement kept selected p) := by
    intro p
    unfold replacement
    split
    · rename_i f hfind
      have hf := List.find?_some hfind
      simp only [Bool.and_eq_true, decide_eq_true_eq] at hf
      exact .inr ⟨f, List.mem_of_find?_eq_some hfind, hf.1.1, hf.1.2, rfl⟩
    · exact .inl rfl
  constructor
  · intro d hd
    obtain ⟨p, hp, rfl⟩ := List.mem_map.mp hd
    exact ⟨p.2, p.1, List.mem_zipIdx_iff_getElem?.mp hp, hreplaces p⟩
  · intro n c hc
    exact ⟨_, List.mem_map_of_mem (List.mem_zipIdx_iff_getElem?.mpr hc), hreplaces (c, n)⟩

/-- Over the filters that are left, a join says what it says without them. -/
theorem apply_holds_iff {j : Join} (plain : ∀ c ∈ j, c.Plain)
    (h : supportsFrom query filters 0 [] j = .ok cs) (pruned : Pruned cs selected kept)
    (hexact : ∀ s ∈ kept, s.isFilter = true → ∀ row, facts s.target row ↔ s.spec.Yields facts row)
    (hholds : j.Holds facts env → ∀ s ∈ kept, s.spec.join.Holds facts env) :
    (apply j kept selected).Holds facts env ↔ j.Holds facts env := by
  obtain ⟨hback, hforth⟩ := mem_apply (j := j) kept selected
  constructor
  · intro happly c hc
    obtain ⟨n, hn⟩ := List.mem_iff_getElem?.mp hc
    obtain ⟨d, hd, rfl | ⟨f, hf, hfilter, rfl, rfl⟩⟩ := hforth n c hn
    · exact happly d hd
    · exact filter_sound h (pruned.sublist.subset hf) hfilter hn
        (fun row => (hexact f hf hfilter row).mp) (happly _ hd)
  · intro hj d hd
    obtain ⟨n, c, hn, rfl | ⟨f, hf, hfilter, rfl, rfl⟩⟩ := hback d hd
    · exact hj d (List.mem_of_getElem? hn)
    · have hc := List.mem_of_getElem? hn
      exact filter_complete h (pruned.sublist.subset hf) hfilter hn
        (fun row => (hexact f hf hfilter row).mpr) (hholds hj f hf) (plain c hc) (hj c hc)

end Coverage

end Demand

theorem Clause.constrainedVars_subset_lhs (c : Clause) : c.constrainedVars ⊆ c.lhs := by
  intro v hv
  cases c with
  | demand inner query params => exact List.mem_eraseDups.mp (List.mem_filter.mp hv).1
  | cond => cases hv
  | _ => exact List.mem_eraseDups.mp hv

theorem Comprehension.mentions_output (c : Comprehension) :
    c.output.mentions = c.params ++ c.result.mentions := by
  rw [output, Expr.mentions, Expr.mentionsAll_append, Expr.mentionsAll_vars,
    Expr.mentionsAll_components]

theorem Comprehension.params_subset {c : Comprehension} (h : c.unconstrainedParams = []) :
    c.params ⊆ c.join.flatMap (·.lhs) := by
  intro v hv
  have hall := List.filter_eq_nil_iff.mp h v hv
  simp only [Bool.not_eq_true', Bool.not_eq_false, List.contains_iff_mem, Join.constrainedVars,
    List.mem_eraseDups, List.mem_flatMap] at hall
  obtain ⟨d, hd, hvd⟩ := hall
  exact List.mem_flatMap.mpr ⟨d, hd, d.constrainedVars_subset_lhs hvd⟩

theorem Comprehension.result_subset {c : Comprehension} (h : c.unboundResultVars = []) :
    c.result.mentions ⊆ c.params ++ c.join.flatMap (·.lhs) := by
  intro v hv
  have hall := List.filter_eq_nil_iff.mp h v (by simpa using hv)
  simp only [Bool.and_eq_true, Bool.not_eq_true', not_and_or, Bool.not_eq_false,
    List.contains_iff_mem] at hall
  rcases hall with henum | hp
  · obtain ⟨d, hd, hvd⟩ := List.mem_flatMap.mp (List.mem_eraseDups.mp henum)
    exact List.mem_append_right _ (List.mem_flatMap.mpr ⟨d, hd, List.mem_eraseDups.mp hvd⟩)
  · exact List.mem_append_left _ hp

namespace Compile

variable {o : Options} {decl : QueryDecl} {scope : Scope} {catalog : List RelationInfo}
  {q : CompiledQuery} {d : Declarations} {p : Program}

theorem Compiled.output_bound (h : Compiled o decl scope catalog q) {plan : DemandPlan}
    (kept : Kept o catalog q plan) {v : Var} (hv : v ∈ q.spec.output.mentions) :
    ∃ c ∈ q.source, v ∈ c.lhs := by
  have hspec : v ∈ q.spec.join.flatMap (·.lhs) → ∃ c ∈ q.source, v ∈ c.lhs := by
    intro hv
    obtain ⟨c, hc, hvc⟩ := List.mem_flatMap.mp hv
    refine ⟨c, ?_, hvc⟩
    unfold CompiledQuery.source
    split
    · exact List.mem_cons_of_mem _ hc
    · exact hc
  have hparams : v ∈ q.spec.params → ∃ c ∈ q.source, v ∈ c.lhs := by
    intro hp
    by_cases hdem : q.settings.mode = .dem
    · refine ⟨.member q.spec.params (Demand.setName q.name), ?_, hp⟩
      unfold CompiledQuery.source
      rw [if_pos hdem]
      exact List.mem_cons_self
    · exact hspec (Comprehension.params_subset (kept.enumerable (Mode.eq_inc hdem kept.mode)) hp)
  rw [Comprehension.mentions_output] at hv
  rcases List.mem_append.mp hv with hv | hv
  · exact hparams hv
  · exact (List.mem_append.mp (Comprehension.result_subset h.bound hv)).elim hparams hspec

theorem Compiled.views_closed (h : Compiled o decl scope catalog q) (named : decl.WellNamed) :
    ∀ v ∈ q.views, v.isLive = true → v.spec.Closed := by
  intro v hv live
  refine ⟨made_closed (h.views_proper named v hv) (h.handlers.1 v hv) live, ?_⟩
  rcases h.kept with unkept | ⟨plan, kept⟩
  · simp [CompiledQuery.views, unkept.supports, unkept.maintained] at hv
  · obtain ⟨cs, hcs, _, hsupports, hjoin⟩ := DemandPlan.ofJoin_eq_ok kept.planned
    unfold CompiledQuery.views at hv
    rw [kept.maintained] at hv
    rcases List.mem_append.mp hv with hv | hv
    · obtain ⟨s, hs, rfl⟩ := List.mem_map.mp hv
      rw [kept.supports, hsupports] at hs
      exact Demand.supportsFrom_output (h.source_proper named).1 hcs
        ((Demand.prune_pruned cs _).sublist.subset hs)
    · obtain ⟨c, hc, rfl⟩ := List.mem_map.mp hv
      cases Option.mem_toList.mp hc
      intro x hx
      obtain ⟨e, he, hxe⟩ := h.output_bound kept hx
      have hlhs : e.lhs ∈ plan.join.map Clause.lhs := by
        rw [hjoin, Demand.map_lhs_apply]
        exact List.mem_map_of_mem he
      obtain ⟨f, hf, heq⟩ := List.mem_map.mp hlhs
      exact ⟨f, hf, heq ▸ hxe⟩

end Compile

end ViewUpkeep
