import Mathlib.Algebra.Order.BigOperators.Group.List
import ViewUpkeep.Proofs.Counts
import ViewUpkeep.Proofs.Coverage

/-!
Kept rows and meanings. Going through the queries in the order in which they were compiled, the rows
kept for a query are those that it means; for a demanded query only those whose parameters are in
its demand set are kept, and all of these.
-/
namespace ViewUpkeep

def CompiledQuery.isAlive (q : CompiledQuery) : Bool :=
  q.maintained.all fun c => !c.join.rels.isEmpty

theorem CompiledQuery.isAlive_iff {q : CompiledQuery} :
    q.isAlive = true ↔ ∀ c, q.maintained = some c → c.join.rels ≠ [] := by
  simp [isAlive, Option.all_eq_true]

theorem CompiledQuery.isAlive_eq {q : CompiledQuery} {c : Comprehension}
    (hc : q.maintained = some c) :
    q.isAlive = View.isLive ⟨q.name, c, q.settings.selfJoin⟩ := by
  rw [isAlive, hc]
  rfl

/-- How stored rows relate to what they are about: they are the same for base relations and for
queries kept in full, and for a demanded query as far as there is demand. -/
structure Reflects (d : Declarations) (qs : List CompiledQuery) (stored facts : Facts) : Prop where
  base : ∀ rel ∈ d.relations.map (·.name), ∀ row, stored rel row ↔ facts rel row
  full : ∀ q ∈ qs, q.settings.mode = .inc → ∀ row, stored q.name row ↔ facts q.name row
  demanded : ∀ q ∈ qs, q.settings.mode = .dem → ∀ row, stored q.name row ↔
    facts q.name row ∧ stored (Demand.setName q.name) (row.take q.params.length)

theorem Reflects.whole {d : Declarations} {qs : List CompiledQuery} {stored facts : Facts}
    (h : Reflects d qs stored facts) {rel : String}
    (hrel : rel ∈ d.relations.map (·.name) ∨ ∃ q ∈ qs, q.settings.mode = .inc ∧ q.name = rel)
    (row : Row) : stored rel row ↔ facts rel row := by
  rcases hrel with hbase | ⟨q, hq, hinc, rfl⟩
  · exact h.base rel hbase row
  · exact h.full q hq hinc row

namespace Clause.Scoped

variable {d : Declarations} {qs : List CompiledQuery} {stored facts : Facts} {mode : Mode}
  {c : Clause} {env : Env}

theorem cases_read (h : c.Scoped ⟨d.relations, qs.map (·.signature)⟩ mode) :
    (∃ lhs rel, (c = .member lhs rel ∨ ∃ n, c = .mapMember lhs rel n) ∧
      rel ∈ d.relations.map (·.name)) ∨
    (∃ r ∈ qs, r.settings.mode ≠ .dem ∧
      (r.settings.mode = .batch → mode = .batch ∧ r.spec.unconstrainedParams = []) ∧
      ∃ lhs, c = .member lhs r.name) ∨
    (∃ r ∈ qs, r.settings.mode ≠ .inc ∧ (r.settings.mode = .batch → mode = .batch) ∧
      ∃ params lhs, params.length = r.params.length ∧
        c = .demand (.member (params ++ lhs) r.name) r.name params) ∨
    ((∃ lhs expr, c = .singleton lhs expr) ∨ ∃ expr, c = .cond expr) := by
  have hquery : ∀ {rel sig}, (Scope.query? ⟨d.relations, qs.map (·.signature)⟩ rel) = some sig →
      ∃ r ∈ qs, r.name = rel ∧ r.signature = sig := by
    intro rel sig hsig
    obtain ⟨r, hr, rfl⟩ := List.mem_map.mp (List.mem_of_find?_eq_some hsig)
    have hname : r.signature.name = rel := by simpa using List.find?_some hsig
    exact ⟨r, hr, hname, rfl⟩
  cases h with
  | relation hrel hc =>
    refine .inl ⟨_, _, hc, ?_⟩
    have hname := List.find?_some hrel
    rw [← of_decide_eq_true hname]
    exact List.mem_map_of_mem (List.mem_of_find?_eq_some hrel)
  | rows _ hsig hdem hbatch _ henum =>
    obtain ⟨r, hr, rfl, rfl⟩ := hquery hsig
    refine .inr (.inl ⟨r, hr, hdem, fun hm => ⟨hbatch hm, ?_⟩, _, rfl⟩)
    exact List.isEmpty_iff.mp (henum hm)
  | applied _ hsig hinc hbatch hlen =>
    obtain ⟨r, hr, rfl, rfl⟩ := hquery hsig
    exact .inr (.inr (.inl ⟨r, hr, hinc, hbatch, _, _, hlen, rfl⟩))
  | singleton => exact .inr (.inr (.inr (.inl ⟨_, _, rfl⟩)))
  | cond => exact .inr (.inr (.inr (.inr ⟨_, rfl⟩)))

theorem cases_kept (h : c.Scoped ⟨d.relations, qs.map (·.signature)⟩ mode) (hmode : mode ≠ .batch) :
    (∃ lhs rel, (c = .member lhs rel ∨ ∃ n, c = .mapMember lhs rel n) ∧
      (rel ∈ d.relations.map (·.name) ∨ ∃ r ∈ qs, r.settings.mode = .inc ∧ r.name = rel)) ∨
    (∃ r ∈ qs, r.settings.mode = .dem ∧ ∃ params lhs, params.length = r.params.length ∧
      c = .demand (.member (params ++ lhs) r.name) r.name params) ∨
    ((∃ lhs expr, c = .singleton lhs expr) ∨ ∃ expr, c = .cond expr) := by
  rcases h.cases_read with ⟨lhs, rel, hc, hrel⟩ | ⟨r, hr, hdem, hbatch, lhs, rfl⟩ |
    ⟨r, hr, hinc, hbatch, params, lhs, hlen, rfl⟩ | hnone
  · exact .inl ⟨lhs, rel, hc, .inl hrel⟩
  · have hinc : r.settings.mode = .inc := Mode.eq_inc hdem fun hm => hmode (hbatch hm).1
    exact .inl ⟨lhs, r.name, .inl rfl, .inr ⟨r, hr, hinc, rfl⟩⟩
  · refine .inr (.inl ⟨r, hr, ?_, params, lhs, hlen, rfl⟩)
    cases hm : r.settings.mode with
    | dem => rfl
    | inc => exact absurd hm hinc
    | batch => exact absurd (hbatch hm) hmode
  · exact .inr (.inr hnone)

theorem ready (h : c.Scoped ⟨d.relations, qs.map (·.signature)⟩ mode) (hmode : mode ≠ .batch)
    (reflects : Reflects d qs stored facts) (holds : c.Holds facts env) :
    Demand.Ready stored stored env c := by
  rcases h.cases_kept hmode with ⟨lhs, rel, hc, hrel⟩ |
    ⟨r, hr, hdem, params, lhs, hlen, rfl⟩ | ⟨_, _, rfl⟩ | ⟨_, rfl⟩
  · have hiff := reflects.whole hrel
    rcases hc with rfl | ⟨n, rfl⟩
    · obtain ⟨row, hrow, hfact⟩ := holds
      exact ⟨row, hrow, (hiff row).mpr hfact⟩
    · obtain ⟨row, hrow, hfact⟩ := holds
      exact ⟨row, hrow, (hiff row).mpr hfact⟩
  · obtain ⟨row, hrow, hfact⟩ := holds
    obtain ⟨args, rest, rfl, hargs, _⟩ := hrow.exists_append
    refine ⟨⟨args, hargs⟩, fun ⟨args', hargs', hset⟩ => ⟨_, hrow, ?_⟩⟩
    rw [hargs'.unique hargs] at hset
    refine (reflects.demanded r hr hdem _).mpr ⟨hfact, ?_⟩
    rwa [← hlen, List.take_left' hargs.length]
  · exact holds
  · exact holds

theorem holds_of_stored (h : c.Scoped ⟨d.relations, qs.map (·.signature)⟩ mode)
    (hmode : mode ≠ .batch) (reflects : Reflects d qs stored facts) (holds : c.Holds stored env) :
    c.Holds facts env := by
  rcases h.cases_kept hmode with ⟨lhs, rel, hc, hrel⟩ |
    ⟨r, hr, hdem, params, lhs, _, rfl⟩ | ⟨_, _, rfl⟩ | ⟨_, rfl⟩
  · have hiff := reflects.whole hrel
    rcases hc with rfl | ⟨n, rfl⟩
    · obtain ⟨row, hrow, hfact⟩ := holds
      exact ⟨row, hrow, (hiff row).mp hfact⟩
    · obtain ⟨row, hrow, hfact⟩ := holds
      exact ⟨row, hrow, (hiff row).mp hfact⟩
  · obtain ⟨row, hrow, hfact⟩ := holds
    exact ⟨row, hrow, ((reflects.demanded r hr hdem row).mp hfact).1⟩
  · exact holds
  · exact holds

theorem regular {scope : Scope} (h : c.Scoped scope mode) : Batch.Regular c := by
  cases h with
  | relation _ hc => rcases hc with rfl | ⟨n, rfl⟩ <;> trivial
  | applied => exact ⟨_, rfl⟩
  | _ => trivial

end Clause.Scoped

theorem Batch.Regular.args_subset {c : Clause} (regular : Batch.Regular c) :
    ∀ inner subquery params, c = .demand inner subquery params → params ⊆ c.lhs := by
  rintro inner subquery params rfl
  obtain ⟨lhs, rfl⟩ := regular
  exact List.subset_append_left _ _

/-- What is stored for a query: the rows of its tags, its filters and its result, and everything
that its entries demand. -/
structure CompiledQuery.Stores (q : CompiledQuery) (stored : Facts) : Prop where
  supports : ∀ t ∈ q.supports, t.isEntry = false → ∀ row, stored t.target row ↔
    t.spec.Yields stored row
  result : ∀ c, q.maintained = some c → ∀ row,
    stored q.name row ↔ q.isAlive = true ∧ c.Yields stored row
  entries : ∀ e ∈ q.entries, ∀ row, e.spec.Yields stored row → stored e.target row

namespace Compile.Built

variable {o : Options} {d : Declarations} {p : Program} {q : CompiledQuery}
  {earlier later : List CompiledQuery} {stored facts : Facts}

theorem entry_apart (built : Built o d p) (sound : d.Sound) (h : p.queries = earlier ++ q :: later)
    {s : Support} (hs : s ∈ q.supports) (hentry : s.isEntry = true) (v : Var) :
    s.target ≠ Demand.tagName q.name v := by
  obtain ⟨r, hr, _, _, htarget, _⟩ := built.entry sound h hs hentry
  have hrq : r ∈ p.queries := by
    rw [h]
    exact List.mem_append_left _ hr
  have hq : q ∈ p.queries := by simp [h]
  intro he
  rw [htarget] at he
  have hname : r.name = q.name := by
    refine Owned.unique (built.query_name sound hrq).1 (built.query_name sound hq).1
      (Demand.owned_setName r.name) ?_
    rw [he]
    exact Demand.owned_tagName q.name v
  rw [hname] at he
  exact Demand.setName_ne_tagName v he

theorem mem_source {c : Clause} (h : c ∈ q.source) :
    c ∈ q.spec.join ∨
      q.settings.mode = .dem ∧ c = .member q.spec.params (Demand.setName q.name) := by
  unfold CompiledQuery.source at h
  split at h
  · rename_i hdem
    rcases List.mem_cons.mp h with rfl | h
    · exact .inr ⟨hdem, rfl⟩
    · exact .inl h
  · exact .inl h

theorem source_holds_iff {env : Env} : q.source.Holds stored env ↔ q.spec.join.Holds stored env ∧
    (q.settings.mode = .dem →
      (Clause.member q.spec.params (Demand.setName q.name)).Holds stored env) := by
  unfold CompiledQuery.source
  split
  · rename_i hdem
    rw [and_comm]
    simp [Comprehension.restrictTo, Join.Holds, hdem]
  · rename_i hdem
    simp [hdem]

theorem planned (built : Built o d p) (sound : d.Sound) (h : p.queries = earlier ++ q :: later)
    (hmode : q.settings.mode ≠ .batch) :
    ∃ cs selected, (∀ c ∈ q.source, c.Plain ∧ Batch.Regular c) ∧
      Demand.supportsFrom q.name (q.settings.mode = .dem && q.settings.filters) 0 [] q.source =
        .ok cs ∧
      Demand.Pruned cs selected q.supports ∧
      q.maintained = some ⟨Demand.apply q.source q.supports selected, q.spec.result,
        q.spec.params⟩ ∧
      ∀ c ∈ q.spec.join, c.Scoped ⟨d.relations, earlier.map (·.signature)⟩ q.settings.mode := by
  obtain ⟨decl, hdecl, catalog, hc, _⟩ := built.compiled h
  have named := sound.queries decl hdecl
  have hscoped := (Lowering.query_lowered named hc.spec).inScope
  rcases hc.kept with unkept | ⟨plan, kept⟩
  · exact absurd unkept.mode hmode
  · obtain ⟨cs, hcs, _, hsupports, hjoin⟩ := DemandPlan.ofJoin_eq_ok kept.planned
    refine ⟨cs, plan.selected, ?_, hcs, ?_, ?_, hscoped⟩
    · intro c hm
      refine ⟨(hc.source_proper named).1 c hm, ?_⟩
      rcases mem_source hm with hm | ⟨_, rfl⟩
      · exact (hscoped c hm).regular
      · trivial
    · rw [kept.supports, hsupports]
      exact Demand.prune_pruned cs plan.selected
    · rw [kept.maintained, hjoin, kept.supports]

theorem support_isLive (built : Built o d p) (sound : d.Sound) (hq : q ∈ p.queries) {s : Support}
    (hs : s ∈ q.supports) (hentry : s.isEntry = false) (strategy : SelfJoin) :
    (s.view strategy).isLive = true := by
  obtain ⟨earlier, later, h, _⟩ := built.mem_compiled hq
  by_cases hmode : q.settings.mode = .batch
  · obtain ⟨_, _, _, hc, _⟩ := built.compiled h
    rcases hc.kept with unkept | ⟨plan, kept⟩
    · rw [unkept.supports] at hs
      cases hs
    · exact absurd hmode kept.mode
  · obtain ⟨cs, selected, hclauses, hcs, pruned, _⟩ := built.planned sound h hmode
    have hrels := Demand.supportsFrom_live (fun c hc => (hclauses c hc).1) hcs
      (pruned.sublist.subset hs) hentry
    simpa [View.isLive, Support.view] using hrels

theorem keeps_pos_iff (built : Built o d p) (sound : d.Sound) (hq : q ∈ p.queries) {v : View}
    (hv : v ∈ q.views) (facts : Facts) (row : Row) :
    0 < v.spec.keeps facts row ↔ v.isLive = true ∧ v.spec.Yields facts row := by
  obtain ⟨_, _, _, decl, hdecl, _, hc⟩ := built.mem_compiled hq
  have named := sound.queries decl hdecl
  unfold Comprehension.keeps
  by_cases live : v.isLive = true
  · have hrels : v.spec.join.rels ≠ [] := by simpa [View.isLive] using live
    rw [if_neg hrels, (hc.views_proper named v hv).multiplicity_pos_iff
      (hc.views_closed named v hv live)]
    exact (and_iff_right live).symm
  · have hrels : v.spec.join.rels = [] := by simpa [View.isLive] using live
    simp [hrels, live]

/-- Counts that solve the equations of a query and those of the demand sets are of rows that are
stored for it as they should be. -/
theorem stores_of (built : Built o d p) (sound : d.Sound) {asked count : String → Row → Nat}
    (hq : q ∈ p.queries)
    (supports : ∀ t ∈ q.supports, t.isEntry = false → ∀ row,
      (count t.target row : ℕ∞) = t.spec.keeps (present count) row)
    (results : ∀ c, q.maintained = some c → ∀ row,
      (count q.name row : ℕ∞) = c.keeps (present count) row)
    (sets : ∀ r ∈ p.queries, ∀ u, r.demandSet = some u → ∀ row, (count u row : ℕ∞) =
      asked r.name row + ((p.entries u).map fun e => e.spec.multiplicity (present count) row).sum) :
    q.Stores (present count) := by
  obtain ⟨earlier, later, h, _⟩ := built.mem_compiled hq
  have hviews : ∀ v ∈ q.ownViews, v ∈ q.views :=
    fun v hv => q.views_perm.mem_iff.mpr (List.mem_append_left _ hv)
  have hpresent : ∀ {n : Nat} {m : ℕ∞}, (n : ℕ∞) = m → (0 < n ↔ 0 < m) := by
    rintro n _ rfl
    exact_mod_cast Iff.rfl
  refine ⟨?_, ?_, ?_⟩
  · intro t ht hentry row
    have hview := hviews _ (CompiledQuery.support_mem_ownViews ht hentry)
    refine (hpresent (supports t ht hentry row)).trans ?_
    exact (built.keeps_pos_iff sound hq hview _ row).trans
      (and_iff_right (built.support_isLive sound hq ht hentry _))
  · intro c hc row
    have hview := hviews _ (CompiledQuery.maintained_mem_ownViews hc)
    refine (hpresent (results c hc row)).trans ?_
    rw [CompiledQuery.isAlive_eq hc]
    exact built.keeps_pos_iff sound hq hview _ row
  · intro e he row hyields
    obtain ⟨hs, hentry⟩ := List.mem_filter.mp he
    obtain ⟨r, hr, hdem, _, htarget, _⟩ := built.entry sound h hs hentry
    have hrq : r ∈ p.queries := by
      rw [h]
      exact List.mem_append_left _ hr
    have hset : r.demandSet = some e.target := by rw [built.demandSet_of_dem hrq hdem, htarget]
    have hview : e.view q.settings.selfJoin ∈ q.views :=
      q.views_perm.mem_iff.mpr (List.mem_append_right _ (List.mem_map_of_mem he))
    have live := built.entry_isLive sound hq he q.settings.selfJoin
    have hrels : e.spec.join.rels ≠ [] := by simpa [View.isLive, Support.view] using live
    have hone := (built.keeps_pos_iff sound hq hview (present count) row).mpr ⟨live, hyields⟩
    have hmem : e ∈ p.entries e.target :=
      List.mem_filter.mpr ⟨List.mem_flatMap.mpr ⟨q, hq, he⟩, by simp⟩
    have hsum : e.spec.keeps (present count) row ≤
        ((p.entries e.target).map fun e => e.spec.multiplicity (present count) row).sum := by
      rw [Comprehension.keeps, if_neg hrels]
      exact List.single_le_sum (by simp) _ (List.mem_map_of_mem hmem)
    refine (hpresent (sets r hrq e.target hset row)).mpr ?_
    exact hone.trans_le (hsum.trans le_add_self)

theorem stores (built : Built o d p) (sound : d.Sound) {asked count : String → Row → Nat}
    (solved : p.Solved asked count) (hq : q ∈ p.queries) : q.Stores (present count) :=
  built.stores_of sound hq (solved.supports q hq) (solved.results q hq) solved.sets

theorem supports_hold (built : Built o d p) (sound : d.Sound)
    (h : p.queries = earlier ++ q :: later)
    (hmode : q.settings.mode ≠ .batch) (stores : q.Stores stored) {env : Env}
    (ready : ∀ c ∈ q.source, Demand.Ready stored stored env c) :
    (∀ s ∈ q.supports, s.spec.join.Holds stored env) ∧ q.source.Holds stored env := by
  obtain ⟨cs, selected, hclauses, hcs, pruned, _⟩ := built.planned sound h hmode
  obtain ⟨hholds, hsource⟩ := Demand.supportsFrom_holds pruned
    (fun s hs hentry row => (stores.supports s hs hentry row).mpr)
    (fun s hs hentry => stores.entries s (List.mem_filter.mpr ⟨hs, hentry⟩))
    (fun s hs hentry v _ => built.entry_apart sound h hs hentry v) (fun c hc => (hclauses c hc).1)
    ready hcs (fun s hs => hs) (fun v hv => by cases hv)
  exact ⟨fun s hs => hholds s (pruned.sublist.subset hs) hs, hsource⟩

theorem maintained_holds_iff (built : Built o d p) (sound : d.Sound)
    (h : p.queries = earlier ++ q :: later) (hmode : q.settings.mode ≠ .batch)
    (reflects : Reflects d earlier stored facts) (stores : q.Stores stored) {c : Comprehension}
    (hc : q.maintained = some c) (env : Env) :
    c.join.Holds stored env ↔ q.spec.join.Holds facts env ∧ (q.settings.mode = .dem →
      (Clause.member q.spec.params (Demand.setName q.name)).Holds stored env) := by
  obtain ⟨cs, selected, hclauses, hcs, pruned, hmaintained, hscoped⟩ := built.planned sound h hmode
  cases hc.symm.trans hmaintained
  have hexact : ∀ s ∈ q.supports, s.isFilter = true →
      ∀ row, stored s.target row ↔ s.spec.Yields stored row :=
    fun s hs hfilter => stores.supports s hs (s.isEntry_of_isFilter hfilter)
  rw [Demand.apply_holds_iff (fun c hc => (hclauses c hc).1) hcs pruned hexact fun hsource =>
    (built.supports_hold sound h hmode stores fun c hc =>
      Demand.ready_of_holds (hclauses c hc).1 (hclauses c hc).2.args_subset (hsource c hc)).1]
  constructor
  · intro hsource
    obtain ⟨hspec, hset⟩ := source_holds_iff.mp hsource
    exact ⟨fun c hc => (hscoped c hc).holds_of_stored hmode reflects (hspec c hc), hset⟩
  · rintro ⟨hspec, hset⟩
    refine (built.supports_hold sound h hmode stores fun c hc => ?_).2
    rcases mem_source hc with hc | ⟨hdem, rfl⟩
    · exact (hscoped c hc).ready hmode reflects (hspec c hc)
    · exact hset hdem

theorem set_holds_iff {env : Env} {row : Row} (hout : q.spec.output.evalRow env = .ok row)
    (set : String) : (Clause.member q.spec.params set).Holds stored env ↔
      stored set (row.take q.spec.params.length) := by
  obtain ⟨a, b, ha, _, rfl⟩ := Comprehension.output_evalRow.mp hout
  rw [List.take_left' ha.length]
  constructor
  · rintro ⟨args, hargs, hset⟩
    rwa [ha.unique hargs]
  · exact fun hset => ⟨a, ha, hset⟩

theorem stored_iff (built : Built o d p) (sound : d.Sound) (h : p.queries = earlier ++ q :: later)
    (hmode : q.settings.mode ≠ .batch) (reflects : Reflects d earlier stored facts)
    (stores : q.Stores stored) (row : Row) :
    stored q.name row ↔ (q.isAlive = true ∧ q.spec.Yields facts row) ∧
      (q.settings.mode = .dem → stored (Demand.setName q.name) (row.take q.params.length)) := by
  obtain ⟨_, _, _, hcompiled, _⟩ := built.compiled h
  obtain ⟨cs, selected, _, _, _, hmaintained, _⟩ := built.planned sound h hmode
  have hiff := built.maintained_holds_iff sound h hmode reflects stores hmaintained
  rw [hcompiled.params, stores.result _ hmaintained row, and_assoc]
  refine and_congr_right fun _ => ?_
  constructor
  · rintro ⟨env, hjoin, hout⟩
    obtain ⟨hspec, hset⟩ := (hiff env).mp hjoin
    exact ⟨⟨env, hspec, hout⟩, fun hdem => (set_holds_iff hout _).mp (hset hdem)⟩
  · rintro ⟨⟨env, hspec, hout⟩, hset⟩
    exact ⟨env, (hiff env).mpr ⟨hspec, fun hdem => (set_holds_iff hout _).mpr (hset hdem)⟩, hout⟩

/-- Query by query, what is stored reflects what the queries mean. -/
theorem reflects (built : Built o d p) (sound : d.Sound) (h : p.queries = earlier ++ later)
    (stores : ∀ q ∈ p.queries, q.Stores stored) :
    Reflects d earlier stored (meaning CompiledQuery.isAlive stored earlier.reverse) := by
  induction earlier using List.reverseRecOn generalizing later with
  | nil => exact ⟨fun _ _ _ => Iff.rfl, by simp, by simp⟩
  | append_singleton earlier q ih =>
    have h' : p.queries = earlier ++ q :: later := by simpa using h
    have hq : q ∈ p.queries := by simp [h']
    have hbefore := ih h'
    obtain ⟨_, hbase⟩ := built.query_name sound hq
    obtain ⟨_, _, _, hcompiled, hfresh⟩ := built.compiled h'
    have hne : ∀ r ∈ earlier, r.name ≠ q.name :=
      fun r hr he => hfresh (he ▸ List.mem_map_of_mem hr)
    have hlast : q.settings.mode ≠ .batch → ∀ row, stored q.name row ↔
        meaning CompiledQuery.isAlive stored (q :: earlier.reverse) q.name row ∧
          (q.settings.mode = .dem → stored (Demand.setName q.name) (row.take q.params.length)) := by
      intro hmode row
      rw [meaning_self]
      exact built.stored_iff sound h' hmode hbefore (stores q hq) row
    rw [List.reverse_append, List.reverse_singleton, List.singleton_append]
    refine ⟨?_, ?_, ?_⟩
    · intro rel hrel row
      rw [meaning_of_ne fun he => hbase (he ▸ hrel)]
      exact hbefore.base rel hrel row
    · intro r hr hinc row
      rcases List.mem_append.mp hr with hr | hr
      · rw [meaning_of_ne (hne r hr)]
        exact hbefore.full r hr hinc row
      · cases List.mem_singleton.mp hr
        simpa [hinc] using hlast (by simp [hinc]) row
    · intro r hr hdem row
      rcases List.mem_append.mp hr with hr | hr
      · rw [meaning_of_ne (hne r hr)]
        exact hbefore.demanded r hr hdem row
      · cases List.mem_singleton.mp hr
        simpa [hdem] using hlast (by simp [hdem]) row

end Compile.Built

end ViewUpkeep
