import Mathlib.Order.FixedPoints
import ViewUpkeep.Proofs.Finiteness
import ViewUpkeep.Proofs.Uniqueness

/-!
All that can ever come of given rows. Tags, filters, demand sets and results feed each other, so the
rows that follow from given ones are a least fixed point of the views. It is finite, whatever the
given rows and although clauses compute new values. This is shown in two passes over the queries:
from the first to the last, a query has finitely many rows for given parameters, and from the last
to the first, finitely many parameters are demanded.
-/
namespace ViewUpkeep

theorem Clause.Holds.of_le {facts facts' : Facts} (hle : facts ≤ facts') {env : Env} {c : Clause}
    (h : c.Holds facts env) : c.Holds facts' env :=
  h.of_facts fun rel _ row _ => hle rel row

theorem finite_of_forall_mem {α β : Type} {l : List α} {f : α → Set β}
    (h : ∀ a ∈ l, (f a).Finite) : {b | ∃ a ∈ l, b ∈ f a}.Finite := by
  refine (l.finite_toSet.biUnion h).subset ?_
  rintro b ⟨a, ha, hb⟩
  exact Set.mem_biUnion ha hb

theorem Clause.Tame.of_le {facts facts' : Facts} (hle : facts ≤ facts') {c : Clause}
    (h : c.Tame facts') : c.Tame facts := by
  refine fun bound hrate env => (h bound hrate env).subset ?_
  rintro row ⟨other, hsame, hreads, hholds⟩
  exact ⟨other, hsame, hreads, hholds.of_le hle⟩

theorem Comprehension.Yields.of_le {facts facts' : Facts} (hle : facts ≤ facts')
    {c : Comprehension} {row : Row} (h : c.Yields facts row) : c.Yields facts' row := by
  obtain ⟨env, hholds, hrow⟩ := h
  exact ⟨env, fun d hd => (hholds d hd).of_le hle, hrow⟩

namespace Program

def round (p : Program) (given : Facts) : Facts →o Facts where
  toFun facts rel row := given rel row ∨ ∃ v ∈ p.views, v.target = rel ∧ v.spec.Yields facts row
  monotone' facts facts' hle rel row h := by
    refine h.imp_right ?_
    rintro ⟨v, hv, htarget, hyields⟩
    exact ⟨v, hv, htarget, hyields.of_le hle⟩

def derived (p : Program) (given : Facts) : Facts := (p.round given).lfp

variable {p : Program} {given : Facts} {rel : String} {row : Row}

theorem derived_iff : p.derived given rel row ↔
    given rel row ∨ ∃ v ∈ p.views, v.target = rel ∧ v.spec.Yields (p.derived given) row := by
  have hfixed := (p.round given).map_lfp
  exact (congrFun (congrFun hfixed rel) row).symm.to_iff

theorem derived_given (h : given rel row) : p.derived given rel row := derived_iff.mpr (.inl h)

theorem derived_view {v : View} (hv : v ∈ p.views) (h : v.spec.Yields (p.derived given) row) :
    p.derived given v.target row := derived_iff.mpr (.inr ⟨v, hv, rfl, h⟩)

/-- The facts that follow from given ones, and the given rows in every relation. A filter that was
given too many rows has none that its relation lacks here. -/
def loose (p : Program) (given : Facts) : Facts :=
  fun rel row => p.derived given rel row ∨ ∃ r, given r row

theorem derived_le_loose : p.derived given ≤ p.loose given := fun _ _ h => .inl h

end Program

namespace Compile.Built

variable {o : Options} {d : Declarations} {p : Program} {q : CompiledQuery}
  {earlier later : List CompiledQuery} {given : Facts} {row : Row}

theorem derived_own (built : Built o d p) (sound : d.Sound) (hq : q ∈ p.queries) {v : View}
    (hv : v ∈ q.ownViews) : p.derived given v.target row ↔
      given v.target row ∨ v.spec.Yields (p.derived given) row := by
  rw [Program.derived_iff]
  have hwriter := built.own_writer sound hq hv
  refine or_congr_right ⟨?_, fun hyields => ⟨v, ?_, rfl, hyields⟩⟩
  · rintro ⟨w, hw, htarget, hyields⟩
    have hmem : w ∈ p.views.filter fun w => w.target = v.target :=
      List.mem_filter.mpr ⟨hw, by simpa using htarget⟩
    rw [hwriter, List.mem_singleton] at hmem
    exact hmem ▸ hyields
  · have hmem : v ∈ p.views.filter fun w => w.target = v.target := by simp [hwriter]
    exact (List.mem_filter.mp hmem).1

theorem derived_base (built : Built o d p) (sound : d.Sound) {rel : String}
    (hrel : rel ∈ d.relations.map (·.name)) : p.derived given rel row ↔ given rel row := by
  rw [Program.derived_iff]
  refine or_iff_left ?_
  rintro ⟨v, hv, rfl, _⟩
  exact built.view_target_not_base sound hv hrel

theorem derived_set (built : Built o d p) (sound : d.Sound) (h : p.queries = earlier ++ q :: later)
    (hdem : q.settings.mode = .dem) (hrow : p.derived given (Demand.setName q.name) row) :
    given (Demand.setName q.name) row ∨
      ∃ r ∈ later, ∃ v ∈ r.views, v.spec.Yields (p.derived given) row := by
  refine (Program.derived_iff.mp hrow).imp_right ?_
  rintro ⟨v, hv, htarget, hyields⟩
  have hq : q ∈ p.queries := by simp [h]
  rcases List.mem_append.mp ((views_perm p).mem_iff.mp hv) with hv | hv
  · obtain ⟨r, hr, hv⟩ := List.mem_flatMap.mp hv
    refine absurd ?_ (built.own_target sound hr hv).2
    rw [htarget]
    exact List.mem_flatMap.mpr ⟨q, hq, by simp [built.demandSet_of_dem hq hdem]⟩
  · obtain ⟨r, hr, hv⟩ := List.mem_flatMap.mp hv
    obtain ⟨e, he, rfl⟩ := List.mem_map.mp hv
    have hentry : e ∈ p.entries (Demand.setName q.name) :=
      List.mem_filter.mpr ⟨List.mem_flatMap.mpr ⟨r, hr, he⟩, decide_eq_true htarget⟩
    obtain ⟨r', hr', he'⟩ := built.entry_later sound h hentry
    refine ⟨r', hr', e.view r'.settings.selfJoin, ?_, hyields⟩
    exact r'.views_perm.mem_iff.mpr (List.mem_append_right _ (List.mem_map_of_mem he'))

theorem source_holds_loose (built : Built o d p) (sound : d.Sound)
    (h : p.queries = earlier ++ q :: later) (hmode : q.settings.mode ≠ .batch) {c : Comprehension}
    (hc : q.maintained = some c) {env : Env} (hjoin : c.join.Holds (p.derived given) env) :
    q.source.Holds (p.loose given) env := by
  obtain ⟨cs, selected, hclauses, hcs, pruned, hmaintained, _⟩ := built.planned sound h hmode
  cases hc.symm.trans hmaintained
  intro e he
  obtain ⟨n, hn⟩ := List.mem_iff_getElem?.mp he
  obtain ⟨d, hd, rfl | ⟨f, hf, hfilter, rfl, rfl⟩⟩ := (Demand.mem_apply _ selected).2 n e hn
  · exact (hjoin d hd).of_le Program.derived_le_loose
  · obtain ⟨found, hfound, hfact⟩ := hjoin _ hd
    obtain ⟨rel, hkey, hrows⟩ :=
      Demand.filter_rows hcs (pruned.sublist.subset hf) hfilter hn (p.loose given)
    refine (hkey env).mpr ⟨found, hfound, ?_⟩
    have hown := CompiledQuery.support_mem_ownViews hf (f.isEntry_of_isFilter hfilter)
    rcases (built.derived_own sound (by simp [h]) hown).mp hfact with hgiven | hyields
    · exact .inr ⟨_, hgiven⟩
    · exact hrows found (hyields.of_le Program.derived_le_loose)

theorem loose_result (built : Built o d p) (sound : d.Sound)
    (h : p.queries = earlier ++ q :: later) (hmode : q.settings.mode ≠ .batch)
    (hrow : p.loose given q.name row) : (∃ r, given r row) ∨
      ∃ env, q.source.Holds (p.loose given) env ∧ q.spec.output.evalRow env = .ok row := by
  obtain ⟨cs, selected, _, _, _, hmaintained, _⟩ := built.planned sound h hmode
  rcases hrow with hrow | hgiven
  · have hown := CompiledQuery.maintained_mem_ownViews hmaintained
    rcases (built.derived_own sound (by simp [h]) hown).mp hrow with hgiven | ⟨env, hjoin, hout⟩
    · exact .inl ⟨_, hgiven⟩
    · exact .inr ⟨env, built.source_holds_loose sound h hmode hmaintained hjoin, hout⟩
  · exact .inl hgiven

end Compile.Built

/-! ### From the first query to the last -/

/-- Finitely many rows: in all for a query that is kept in full, for given parameters for one that
waits for demand. -/
structure CompiledQuery.Limited (q : CompiledQuery) (facts : Facts) : Prop where
  full : q.settings.mode = .inc → {row | facts q.name row}.Finite
  sections : q.settings.mode = .dem → ∀ args : Row, args.length = q.params.length →
    {rest | facts q.name (args ++ rest)}.Finite

theorem Clause.Scoped.tame {d : Declarations} {qs : List CompiledQuery} {mode : Mode} {c : Clause}
    {facts : Facts} (h : c.Scoped ⟨d.relations, qs.map (·.signature)⟩ mode) (hmode : mode ≠ .batch)
    (base : ∀ rel ∈ d.relations.map (·.name), {row | facts rel row}.Finite)
    (limited : ∀ q ∈ qs, q.Limited facts) : c.Tame facts := by
  rcases h.cases_kept hmode with ⟨lhs, rel, hc, hrel⟩ |
    ⟨r, hr, hdem, params, lhs, hlen, rfl⟩ | ⟨_, _, rfl⟩ | ⟨_, rfl⟩
  · have finite : {row | facts rel row}.Finite := by
      rcases hrel with hbase | ⟨r, hr, hinc, rfl⟩
      · exact base rel hbase
      · exact (limited r hr).full hinc
    refine h.plain.tame_of_finite ?_ finite
    rcases hc with rfl | ⟨n, rfl⟩ <;> rfl
  · exact Clause.tame_demand fun args hargs => (limited r hr).sections hdem args (hargs.trans hlen)
  · exact Clause.tame_singleton
  · exact Clause.tame_cond

namespace Compile.Built

variable {o : Options} {d : Declarations} {p : Program} {q : CompiledQuery}
  {earlier later : List CompiledQuery} {given : Facts} {facts : Facts}

theorem finitary (built : Built o d p) (h : p.queries = earlier ++ q :: later)
    (hmode : q.settings.mode ≠ .batch) (tame : ∀ c ∈ q.spec.join, c.Tame facts) :
    ∃ j : Join, j.Perm q.spec.join ∧
      j.Finitary facts (if q.settings.mode = .dem then q.spec.params else []) := by
  obtain ⟨_, _, _, hc, _⟩ := built.compiled h
  rcases hc.kept with unkept | ⟨plan, kept⟩
  · exact absurd unkept.mode hmode
  · obtain ⟨steps, hsteps⟩ := kept.ordered
    exact ⟨_, Plan.complete_perm hsteps, Plan.complete_finitary hsteps tame⟩

theorem outputs_finite (built : Built o d p) (sound : d.Sound)
    (h : p.queries = earlier ++ q :: later) (hmode : q.settings.mode ≠ .batch)
    (tame : ∀ c ∈ q.spec.join, c.Tame facts) (env : Env) :
    {row | ∃ other : Env, env.Same (if q.settings.mode = .dem then q.spec.params else []) other ∧
      q.source.Holds facts other ∧ q.spec.output.evalRow other = .ok row}.Finite := by
  obtain ⟨decl, hdecl, _, hc, _⟩ := built.compiled h
  have lowered := Lowering.query_lowered (sound.queries decl hdecl) hc.spec
  obtain ⟨j, hperm, hfinitary⟩ := built.finitary h hmode tame
  have hout : ∀ v ∈ q.spec.output.mentions,
      v ∈ (if q.settings.mode = .dem then q.spec.params else []) ∨ ∃ c ∈ j, v ∈ c.lhs := by
    intro v hv
    rcases hc.kept with unkept | ⟨plan, kept⟩
    · exact absurd unkept.mode hmode
    · obtain ⟨c, hcs, hvc⟩ := hc.output_bound kept hv
      rcases mem_source hcs with hcs | ⟨hdem, rfl⟩
      · exact .inr ⟨c, hperm.mem_iff.mpr hcs, hvc⟩
      · rw [if_pos hdem]
        exact .inl hvc
  refine (hfinitary.finite (fun c hc => lowered.proper.plain c (hperm.mem_iff.mp hc))
    hout env).subset ?_
  rintro row ⟨other, hsame, hholds, hrow⟩
  refine ⟨other, hsame, fun c hc => ?_, hrow⟩
  exact (source_holds_iff.mp hholds).1 c (hperm.mem_iff.mp hc)

section Finite

variable (built : Built o d p) (sound : d.Sound)
  (finite : {x : String × Row | given x.1 x.2}.Finite)

include finite in
theorem given_finite : {row | ∃ r, given r row}.Finite := by
  refine (finite.image Prod.snd).subset ?_
  rintro row ⟨r, hr⟩
  exact ⟨(r, row), hr, rfl⟩

include built sound finite

theorem loose_base_finite : ∀ rel ∈ d.relations.map (·.name),
    {row | p.loose given rel row}.Finite := by
  intro rel hrel
  refine (given_finite finite).subset ?_
  rintro row (hrow | hgiven)
  · exact ⟨rel, (built.derived_base sound hrel).mp hrow⟩
  · exact hgiven

/-- From the first query to the last, finitely many rows follow for each query, for given parameters
if it waits for demand. -/
theorem limited (h : p.queries = earlier ++ later) : ∀ q ∈ earlier, q.Limited (p.loose given) := by
  induction earlier using List.reverseRecOn generalizing later with
  | nil => simp
  | append_singleton earlier q ih =>
    have h' : p.queries = earlier ++ q :: later := by simpa using h
    have hbefore := ih h'
    intro r hr
    rcases List.mem_append.mp hr with hr | hr
    · exact hbefore r hr
    cases List.mem_singleton.mp hr
    by_cases hmode : q.settings.mode = .batch
    · exact ⟨by simp [hmode], by simp [hmode]⟩
    obtain ⟨decl, hdecl, _, hc, _⟩ := built.compiled h'
    obtain ⟨_, _, _, _, _, _, hscoped⟩ := built.planned sound h' hmode
    have tame : ∀ c ∈ q.spec.join, c.Tame (p.loose given) := fun c hc =>
      (hscoped c hc).tame hmode (loose_base_finite built sound finite) hbefore
    have houtputs := built.outputs_finite sound h' hmode tame
    refine ⟨fun hinc => ?_, fun hdem args hlen => ?_⟩
    · refine ((given_finite finite).union (houtputs [])).subset fun row hrow => ?_
      refine (built.loose_result sound h' hmode hrow).imp_right ?_
      rintro ⟨env, hholds, hout⟩
      exact ⟨env, by simp [hinc, Env.Same], hholds, hout⟩
    · have hrows : {row | ∃ env : Env, env.Reads q.spec.params args ∧
          q.source.Holds (p.loose given) env ∧ q.spec.output.evalRow env = .ok row}.Finite := by
        by_cases hread : ∃ env : Env, env.Reads q.spec.params args
        · obtain ⟨env, henv⟩ := hread
          refine (houtputs env).subset ?_
          rintro row ⟨other, hother, hholds, hout⟩
          refine ⟨other, ?_, hholds, hout⟩
          rw [if_pos hdem]
          exact fun v hv => henv.get?_eq hother hv
        · refine Set.finite_empty.subset ?_
          rintro row ⟨env, henv, _⟩
          exact hread ⟨env, henv⟩
      refine Set.Finite.subset (((given_finite finite).union hrows).preimage
        (List.append_right_injective args).injOn) fun rest hrest => ?_
      refine (built.loose_result sound h' hmode hrest).imp_right ?_
      rintro ⟨env, hholds, hout⟩
      refine ⟨env, ?_, hholds, hout⟩
      obtain ⟨a, b, ha, _, heq⟩ := Comprehension.output_evalRow.mp hout
      have hlength : args.length = a.length := by rw [hlen, ha.length, hc.params]
      exact (List.append_inj heq hlength).1 ▸ ha

/-! ### From the last query to the first -/

omit finite in
theorem candidate_writer (h : p.queries = earlier ++ q :: later) {filters : Bool}
    {cs : List Support} (hcs : Demand.supportsFrom q.name filters 0 [] q.source = .ok cs)
    (hsub : q.supports.Sublist cs) {s : Support} (hs : s ∈ cs) (hentry : s.isEntry = false)
    {v : View} (hv : v ∈ p.views) (htarget : v.target = s.target) : v.spec = s.spec := by
  have hq : q ∈ p.queries := by simp [h]
  have hident := (built.query_name sound hq).1
  have hname : Owned q.name s.target ∧ s.target ≠ q.name ∧ s.target ≠ Demand.setName q.name := by
    obtain ⟨_, _, ⟨x, _, hx, _⟩ | ⟨_, rel, hrel⟩ | ⟨sub, hk, _⟩⟩ := Demand.supportsFrom_kinds hcs hs
    · rw [hx]
      exact ⟨Demand.owned_tagName q.name x,
        (Demand.ne_of_owned_dot hident (Demand.toList_tagName q.name x)).symm,
        (Demand.setName_ne_tagName x).symm⟩
    · rw [hrel]
      exact ⟨Demand.owned_filterName q.name _ rel,
        (Demand.ne_of_owned_dot hident (Demand.toList_filterName q.name _ rel)).symm,
        (Demand.setName_ne_filterName _ rel).symm⟩
    · simp [Support.isEntry, hk] at hentry
  have hsame : ∀ r ∈ p.queries, Owned r.name v.target → r = q := by
    intro r hr howned
    refine List.inj_on_of_nodup_map built.nodup_queries hr hq ?_
    exact Owned.unique (built.query_name sound hr).1 hident howned (htarget ▸ hname.1)
  rcases List.mem_append.mp ((views_perm p).mem_iff.mp hv) with hv | hv
  · obtain ⟨r, hr, hv⟩ := List.mem_flatMap.mp hv
    obtain ⟨_, _, _, _, _, _, hc⟩ := built.mem_compiled hr
    have howned : Owned r.name v.target := hc.owned _ (hc.relations_perm.mem_iff.mpr
      (List.mem_append_left _ (List.mem_map_of_mem hv)))
    cases hsame r hr howned
    rcases List.mem_append.mp hv with hv | hv
    · obtain ⟨t, ht, rfl⟩ := List.mem_map.mp hv
      obtain ⟨ht, htentry⟩ := List.mem_filter.mp ht
      have htentry : t.isEntry = false := by simpa using htentry
      have hts : t = s := List.inj_on_of_nodup_map (Demand.supportsFrom_nodup hcs)
        (List.mem_filter.mpr ⟨hsub.subset ht, by simp [htentry]⟩)
        (List.mem_filter.mpr ⟨hs, by simp [hentry]⟩) htarget
      rw [hts]
      rfl
    · obtain ⟨c, _, rfl⟩ := List.mem_map.mp hv
      exact absurd htarget.symm hname.2.1
  · obtain ⟨r, hr, hv⟩ := List.mem_flatMap.mp hv
    obtain ⟨e, he, rfl⟩ := List.mem_map.mp hv
    obtain ⟨before, after, hsplit⟩ := List.append_of_mem hr
    obtain ⟨he, heentry⟩ := List.mem_filter.mp he
    obtain ⟨t, ht, _, _, hset, _⟩ := built.entry sound hsplit he heentry
    have htq : t ∈ p.queries := by simp [hsplit, ht]
    have heset : (e.view r.settings.selfJoin).target = Demand.setName t.name := hset
    cases hsame t htq (heset ▸ Demand.owned_setName t.name)
    exact absurd (htarget.symm.trans heset) hname.2.2

theorem set_finite (h : p.queries = earlier ++ q :: later) (hdem : q.settings.mode = .dem)
    (hlater : ∀ r ∈ later, ∀ v ∈ r.views, {row | v.spec.Yields (p.derived given) row}.Finite) :
    {row | p.derived given (Demand.setName q.name) row}.Finite := by
  have hviews : {row | ∃ v ∈ later.flatMap (·.views),
      row ∈ {row | v.spec.Yields (p.derived given) row}}.Finite := by
    refine finite_of_forall_mem fun v hv => ?_
    obtain ⟨r, hr, hv⟩ := List.mem_flatMap.mp hv
    exact hlater r hr v hv
  refine ((given_finite finite).union hviews).subset fun row hrow => ?_
  rcases built.derived_set sound h hdem hrow with hgiven | ⟨r, hr, v, hv, hyields⟩
  · exact .inl ⟨_, hgiven⟩
  · exact .inr ⟨v, List.mem_flatMap.mpr ⟨r, hr, hv⟩, hyields⟩

theorem supports_finite (h : p.queries = earlier ++ q :: later) (hmode : q.settings.mode ≠ .batch)
    (hset : q.settings.mode = .dem →
      {row | p.derived given (Demand.setName q.name) row}.Finite) :
    ∀ s ∈ q.supports, {row | s.spec.Yields (p.derived given) row}.Finite := by
  obtain ⟨cs, selected, hclauses, hcs, pruned, _, hscoped⟩ := built.planned sound h hmode
  obtain ⟨decl, hdecl, _, hc, _⟩ := built.compiled h
  obtain ⟨hplain, hdelta⟩ := hc.source_proper (sound.queries decl hdecl)
  have tame : ∀ c ∈ q.source, c.Tame (p.derived given) := by
    intro c hc
    rcases mem_source hc with hc | ⟨hdem, rfl⟩
    · exact ((hscoped c hc).tame hmode (loose_base_finite built sound finite)
        (limited built sound finite h)).of_le Program.derived_le_loose
    · exact (hclauses _ hc).1.tame_of_finite rfl (hset hdem)
  have hstored : ∀ s ∈ cs, s.isEntry = false → {row | s.spec.Yields (p.derived given) row}.Finite →
      {row | p.derived given s.target row}.Finite := by
    intro s hs hentry hyields
    refine ((given_finite finite).union hyields).subset fun row hrow => ?_
    rcases Program.derived_iff.mp hrow with hgiven | ⟨v, hv, htarget, hrow⟩
    · exact .inl ⟨_, hgiven⟩
    · exact .inr (candidate_writer built sound h hcs pruned.sublist hs hentry hv htarget ▸ hrow)
  have hall := Demand.supportsFrom_finite hplain tame hcs
    (fun s hs => (Demand.supportsFrom_proper hplain hdelta hcs s hs).plain)
    (fun s hs => Demand.supportsFrom_output hplain hcs hs) hstored (fun v hv => by cases hv)
  exact fun s hs => hall s (pruned.sublist.subset hs)

theorem result_finite (h : p.queries = earlier ++ q :: later) (hmode : q.settings.mode ≠ .batch)
    (hset : q.settings.mode = .dem →
      {row | p.derived given (Demand.setName q.name) row}.Finite) {c : Comprehension}
    (hc : q.maintained = some c) : {row | c.Yields (p.derived given) row}.Finite := by
  have hq : q ∈ p.queries := by simp [h]
  have hlimited := limited built sound finite (List.append_nil p.queries).symm q hq
  have hresult : ∀ row, c.Yields (p.derived given) row → p.loose given q.name row := by
    intro row hyields
    have hown := CompiledQuery.maintained_mem_ownViews hc
    exact .inl ((built.derived_own sound hq hown).mpr (.inr hyields))
  by_cases hdem : q.settings.mode = .dem
  · have hparams : {args : Row | p.loose given (Demand.setName q.name) args}.Finite :=
      (hset hdem).union (given_finite finite)
    have hrows : (⋃ args ∈ {args : Row | p.loose given (Demand.setName q.name) args},
        {row | args.length = q.params.length ∧
          ∃ rest, row = args ++ rest ∧ p.loose given q.name (args ++ rest)}).Finite := by
      refine hparams.biUnion fun args _ => ?_
      by_cases hlen : args.length = q.params.length
      · refine ((hlimited.sections hdem args hlen).image (args ++ ·)).subset ?_
        rintro row ⟨_, rest, rfl, hrest⟩
        exact ⟨rest, hrest, rfl⟩
      · exact Set.finite_empty.subset fun row hrow => hlen hrow.1
    refine hrows.subset fun row hyields => ?_
    have hrow := hresult row hyields
    obtain ⟨env, hjoin, hout⟩ := hyields
    have hsource := built.source_holds_loose sound h hmode hc hjoin
    obtain ⟨args, hargs, hset⟩ := (source_holds_iff.mp hsource).2 hdem
    have hout : q.spec.output.evalRow env = .ok row := by
      obtain ⟨_, _, _, _, _, hmaintained, _⟩ := built.planned sound h hmode
      cases hc.symm.trans hmaintained
      exact hout
    obtain ⟨a, rest, ha, _, rfl⟩ := Comprehension.output_evalRow.mp hout
    cases ha.unique hargs
    obtain ⟨_, _, _, hcompiled, _⟩ := built.compiled h
    refine Set.mem_biUnion hset ⟨?_, rest, rfl, hrow⟩
    rw [hcompiled.params]
    exact hargs.length
  · exact (hlimited.full (Mode.eq_inc hdem hmode)).subset hresult

theorem views_finite (h : p.queries = earlier ++ later) : ∀ q ∈ later, ∀ v ∈ q.views,
    {row | v.spec.Yields (p.derived given) row}.Finite := by
  induction later generalizing earlier with
  | nil => simp
  | cons q later ih =>
    have hsplit : p.queries = (earlier ++ [q]) ++ later := by simp [h]
    have hlater := ih hsplit
    refine List.forall_mem_cons.mpr ⟨fun v hv => ?_, hlater⟩
    by_cases hmode : q.settings.mode = .batch
    · obtain ⟨_, _, _, hc, _⟩ := built.compiled h
      rcases hc.kept with unkept | ⟨plan, kept⟩
      · simp [CompiledQuery.views, unkept.supports, unkept.maintained] at hv
      · exact absurd hmode kept.mode
    have hset := fun hdem => set_finite built sound finite h hdem hlater
    rcases List.mem_append.mp hv with hv | hv
    · obtain ⟨s, hs, rfl⟩ := List.mem_map.mp hv
      exact supports_finite built sound finite h hmode hset s hs
    · obtain ⟨c, hc, rfl⟩ := List.mem_map.mp hv
      exact result_finite built sound finite h hmode hset (Option.mem_toList.mp hc)

/-- From finitely many rows, finitely many rows follow. -/
theorem derived_finite : {x : String × Row | p.derived given x.1 x.2}.Finite := by
  have hviews : {x : String × Row | ∃ v ∈ p.views,
      x ∈ Prod.mk v.target '' {row | v.spec.Yields (p.derived given) row}}.Finite := by
    refine finite_of_forall_mem fun v hv => Set.Finite.image _ ?_
    obtain ⟨q, hq, hv⟩ := List.mem_flatMap.mp hv
    exact views_finite built sound finite (List.nil_append _).symm q hq v hv
  refine (finite.union hviews).subset ?_
  rintro ⟨rel, row⟩ hrow
  rcases Program.derived_iff.mp hrow with hgiven | ⟨v, hv, rfl, hyields⟩
  · exact .inl hgiven
  · exact .inr ⟨v, hv, row, hyields, rfl⟩

end Finite

end Compile.Built

end ViewUpkeep
