import ViewUpkeep.Proofs.Reflection

/-!
The equations of a program have one solution. Demand sets, results and tags depend on each other in
a circle, but there are two directions in which all is settled: what queries mean follows from the
first query to the last, and what is demanded follows from the last query to the first. In both
directions, more rows and more demands lead to more; so equal ones lead to the same.
-/
namespace ViewUpkeep

def Join.Le (facts facts' : Facts) (j : Join) : Prop :=
  ∀ env, j.Holds facts env → j.Holds facts' env

def Join.Same (facts facts' : Facts) (j : Join) : Prop :=
  ∀ env, j.Holds facts env ↔ j.Holds facts' env

theorem Join.Le.antisymm {facts facts' : Facts} {j : Join} (h : j.Le facts facts')
    (h' : j.Le facts' facts) : j.Same facts facts' := fun env => ⟨h env, h' env⟩

namespace Comprehension

variable {c : Comprehension} {facts facts' : Facts}

theorem Yields.of_join {row : Row} (h : c.join.Le facts facts') (yields : c.Yields facts row) :
    c.Yields facts' row := by
  obtain ⟨env, hjoin, hout⟩ := yields
  exact ⟨env, h env hjoin, hout⟩

theorem yields_congr (h : c.join.Same facts facts') (row : Row) :
    c.Yields facts row ↔ c.Yields facts' row :=
  exists_congr fun env => and_congr_left' (h env)

theorem yields_of_multiplicity {row : Row} (h : c.multiplicity facts row ≠ 0) :
    c.Yields facts row := by
  obtain ⟨b, ⟨_, hholds⟩, hout⟩ := Set.encard_ne_zero.mp h
  exact ⟨c.bindings b, hholds, hout⟩

theorem multiplicity_congr_of {row : Row} (h : ∀ env, c.output.evalRow env = .ok row →
    (c.join.Holds facts env ↔ c.join.Holds facts' env)) :
    c.multiplicity facts row = c.multiplicity facts' row := by
  have hwitnesses : c.witnesses facts row = c.witnesses facts' row := by
    ext b
    exact and_congr_left fun hout => and_congr_right fun _ => h _ hout
  rw [multiplicity, multiplicity, hwitnesses]

theorem multiplicity_congr (h : c.join.Same facts facts') (row : Row) :
    c.multiplicity facts row = c.multiplicity facts' row :=
  multiplicity_congr_of fun env _ => h env

theorem keeps_congr (h : c.join.Same facts facts') (row : Row) :
    c.keeps facts row = c.keeps facts' row := by
  unfold keeps
  rw [multiplicity_congr h]

end Comprehension

namespace Demand

/-- A clause that holds over some facts wherever it holds over others; over a demanded query, for
arguments that are demanded there. -/
def Covered (facts facts' : Facts) : Clause → Prop
  | .demand inner subquery params => ∀ env args, env.Reads params args →
    facts' (setName subquery) args → inner.Holds facts env → inner.Holds facts' env
  | c => ∀ env, c.Holds facts env → c.Holds facts' env

section Supports

variable {query : String} {filters : Bool} {cs kept : List Support} {selected : List Nat}
  {facts facts' : Facts} {tagged : List Var} {i : Nat} {c : Clause} {guard : Option Support}

def LeTags (query : String) (kept : List Support) (facts facts' : Facts)
    (tagged : List Var) : Prop :=
  ∀ v ∈ tagged, Needed query kept v → ∀ row, facts (tagName query v) row →
    facts' (tagName query v) row

theorem LeTags.tagClauses (htags : LeTags query kept facts facts' tagged) {s : Support}
    (hs : s ∈ kept) {vs : List Var} (hvs : ∀ v ∈ vs, v ∈ tagged ∧ s.target ≠ tagName query v)
    (hread : ∀ d ∈ tagClauses query vs, d ∈ s.spec.join) :
    Join.Le facts facts' (Demand.tagClauses query vs) := by
  intro env holds d hd
  refine (holds d hd).of_facts fun rel hrel row _ => ?_
  have hjoin := hread d hd
  obtain ⟨v, hv, rfl⟩ := List.mem_map.mp hd
  cases hrel
  exact htags v (hvs v hv).1 (needed_of_mem hs (hvs v hv).2 hjoin) row

theorem le_append {a b : Join} (ha : Join.Le facts facts' a) (hb : Join.Le facts facts' b) :
    Join.Le facts facts' (a ++ b) := by
  intro env holds
  obtain ⟨hfirst, hsecond⟩ := List.forall_mem_append.mp holds
  exact List.forall_mem_append.mpr ⟨ha env hfirst, hb env hsecond⟩

theorem le_singleton (h : ∀ env, c.Holds facts env → c.Holds facts' env) :
    Join.Le facts facts' [c] := by
  intro env holds
  exact List.forall_mem_singleton.mpr (h env (holds c (List.mem_singleton_self c)))

theorem guard_le (htags : LeTags query kept facts facts' tagged)
    (apart : ∀ s ∈ kept, s.isEntry = true → ∀ v, s.target ≠ tagName query v)
    (covered : Covered facts facts' c) (hguard : guardOf query filters tagged i c = .ok guard)
    {s : Support} (hs : s ∈ guard) (hkept : s ∈ kept) : s.spec.join.Le facts facts' := by
  cases guardOf_guards hguard s hs with
  | entry hparams =>
    refine htags.tagClauses hkept ?_ fun d hd => hd
    intro v hv
    exact ⟨hparams v (List.mem_eraseDups.mp hv), apart _ hkept rfl v⟩
  | filter _ _ hrel =>
    refine le_append (htags.tagClauses hkept ?_ fun d hd => List.mem_append_left _ hd)
      (le_singleton ?_)
    · intro v hv
      refine ⟨by simpa using (List.mem_filter.mp hv).2, ?_⟩
      exact (tagName_ne_filterName _ _ _).symm
    · rcases hrel with hc | ⟨n, hc⟩ <;> rw [hc] at covered ⊢ <;> exact covered

theorem entry_le {g : Support} {inner : Clause} {subquery : String} {params : List Var}
    (covered : Covered facts facts' (.demand inner subquery params))
    (hspec : g.spec = ⟨Demand.tagClauses query params.eraseDups, .tupleOf params, []⟩)
    (htarget : g.target = setName subquery)
    (hstored : ∀ row, g.spec.Yields facts' row → facts' g.target row)
    (hle : g.spec.join.Le facts facts') : Join.Le facts facts' (g.spec.join ++ [inner]) := by
  intro env holds
  obtain ⟨hjoin, hinner⟩ := List.forall_mem_append.mp holds
  refine List.forall_mem_append.mpr ⟨hle env hjoin, List.forall_mem_singleton.mpr ?_⟩
  have hbinds : env.Binds params := by
    intro v hv
    have hclause : Clause.member [v] (tagName query v) ∈ g.spec.join := by
      rw [hspec]
      exact List.mem_map_of_mem (List.mem_eraseDups.mpr hv)
    obtain ⟨row, hrow, _⟩ := hjoin _ hclause
    exact hrow.binds v (List.mem_singleton_self v)
  obtain ⟨args, hargs⟩ := Env.Binds.exists_reads hbinds
  have hout : g.spec.output.evalRow env = .ok args := by
    rw [hspec]
    exact (evalRow_tupleOf _ params env args).mpr hargs
  refine covered env args hargs ?_ (hinner inner (List.mem_singleton_self inner))
  exact htarget ▸ hstored args ⟨env, hle env hjoin, hout⟩

end Supports

section Queries

variable {q : CompiledQuery} {filters : Bool} {cs : List Support} {selected : List Nat}
  {facts facts' : Facts} {tagged : List Var} {i : Nat} {c : Clause} {guard : Option Support}

theorem tag_le (stores : q.Stores facts) (stores' : q.Stores facts')
    (pruned : Pruned cs selected q.supports)
    (htags : LeTags q.name q.supports facts facts' tagged)
    (apart : ∀ s ∈ q.supports, s.isEntry = true → ∀ v, s.target ≠ tagName q.name v)
    (covered : Covered facts facts' c) (hguard : guardOf q.name filters tagged i c = .ok guard)
    (hcs : ∀ s ∈ guard, s ∈ cs) {v : Var}
    (hkept : tagOf q.name i (tagSource c guard) v ∈ q.supports) :
    Join.Le facts facts' (tagSource c guard) := by
  cases hg : guard with
  | none =>
    rw [hg] at hguard
    cases c with
    | demand => cases (guardOf_demand hguard).2
    | _ => exact le_singleton covered
  | some g =>
    subst hg
    cases guardOf_guards hguard g rfl with
    | entry hparams =>
      have hentry := pruned.entries _ (hcs _ rfl) rfl
      have hle := guard_le htags apart covered hguard rfl hentry
      exact entry_le covered rfl rfl (stores'.entries _ (List.mem_filter.mpr ⟨hentry, rfl⟩)) hle
    | filter =>
      obtain ⟨hsource, hfilter⟩ := filter_tags pruned (guardOf_guards hguard _ rfl) rfl (hcs _ rfl)
      have hfilter := hfilter v hkept
      have hle := guard_le htags apart covered hguard rfl hfilter
      rw [hsource]
      refine le_singleton fun env holds => holds.of_facts fun rel hrel row _ hrow => ?_
      cases hrel
      rw [stores.supports _ hfilter rfl] at hrow
      rw [stores'.supports _ hfilter rfl]
      exact hrow.of_join hle

theorem supportsFrom_le (stores : q.Stores facts) (stores' : q.Stores facts')
    (pruned : Pruned cs selected q.supports)
    (apart : ∀ s ∈ q.supports, s.isEntry = true → ∀ v, s.target ≠ tagName q.name v) {j : Join}
    (covered : ∀ c ∈ j, Covered facts facts' c) {later : List Support}
    (h : supportsFrom q.name filters i tagged j = .ok later) (hlater : ∀ s ∈ later, s ∈ cs)
    (htags : LeTags q.name q.supports facts facts' tagged) :
    ∀ s ∈ later, s ∈ q.supports → s.spec.join.Le facts facts' := by
  induction j generalizing i tagged later with
  | nil =>
    cases h
    simp
  | cons c rest ih =>
    obtain ⟨guard, after, hguard, hafter, rfl⟩ := supportsFrom_cons h
    obtain ⟨hc, covered⟩ := List.forall_mem_cons.mp covered
    have hcs : ∀ s ∈ guard, s ∈ cs := fun s hs => hlater s (by simp [Option.mem_toList.mpr hs])
    have htag : ∀ v, tagOf q.name i (tagSource c guard) v ∈ q.supports →
        Join.Le facts facts' (tagSource c guard) :=
      fun v => tag_le stores stores' pruned htags apart hc hguard hcs
    have htags' : LeTags q.name q.supports facts facts' (tagged ++ newTags tagged c) := by
      intro v hv hneeded row hrow
      rcases List.mem_append.mp hv with hv | hv
      · exact htags v hv hneeded row hrow
      · have hmem : tagOf q.name i (tagSource c guard) v ∈ cs :=
          hlater _ (List.mem_append_left _ (List.mem_append_right _ (List.mem_map_of_mem hv)))
        have hkept := pruned.tags _ hmem rfl hneeded
        refine (stores'.supports _ hkept rfl row).mpr ?_
        exact ((stores.supports _ hkept rfl row).mp hrow).of_join (htag v hkept)
    intro s hs hkept
    rcases List.mem_append.mp hs with hs | hs
    · rcases List.mem_append.mp hs with hs | hs
      · exact guard_le htags apart hc hguard (Option.mem_toList.mp hs) hkept
      · obtain ⟨v, _, rfl⟩ := List.mem_map.mp hs
        exact htag v hkept
    · exact ih covered hafter (fun s hs => hlater s (List.mem_append_right _ hs)) htags' s hs hkept

end Queries

end Demand

namespace Clause.Scoped

variable {d : Declarations} {qs : List CompiledQuery} {mode : Mode} {c : Clause}

theorem rel_mem (h : c.Scoped ⟨d.relations, qs.map (·.signature)⟩ mode) {rel : String}
    (hrel : c.rel? = some rel) : rel ∈ d.relations.map (·.name) ∨ rel ∈ qs.map (·.name) := by
  have hquery : ∀ {sig}, (Scope.query? ⟨d.relations, qs.map (·.signature)⟩ rel) = some sig →
      rel ∈ qs.map (·.name) := by
    intro sig hsig
    obtain ⟨r, hr, rfl⟩ := List.mem_map.mp (List.mem_of_find?_eq_some hsig)
    have hname : r.signature.name = rel := by simpa using List.find?_some hsig
    exact hname ▸ List.mem_map_of_mem hr
  cases h with
  | @relation c lhs r info hinfo hc =>
    have hr : r = rel := by
      rcases hc with rfl | ⟨n, rfl⟩ <;> exact Option.some.inj hrel
    subst hr
    have hname : info.name = r := by simpa using List.find?_some hinfo
    exact .inl (hname ▸ List.mem_map_of_mem (List.mem_of_find?_eq_some hinfo))
  | rows _ hsig =>
    cases hrel
    exact .inr (hquery hsig)
  | applied _ hsig =>
    cases hrel
    exact .inr (hquery hsig)
  | singleton => cases hrel
  | cond => cases hrel

theorem covered_of_reflects {stored stored' facts facts' : Facts}
    (h : c.Scoped ⟨d.relations, qs.map (·.signature)⟩ mode) (hmode : mode ≠ .batch)
    (reflects : Reflects d qs stored facts) (reflects' : Reflects d qs stored' facts')
    (le : ∀ rel, rel ∈ d.relations.map (·.name) ∨ rel ∈ qs.map (·.name) →
      ∀ row, facts rel row → facts' rel row) : Demand.Covered stored stored' c := by
  rcases h.cases_kept hmode with ⟨lhs, rel, hc, hrel⟩ |
    ⟨r, hr, hdem, params, lhs, hlen, rfl⟩ | ⟨_, _, rfl⟩ | ⟨_, rfl⟩
  · have hmem : rel ∈ d.relations.map (·.name) ∨ rel ∈ qs.map (·.name) :=
      hrel.imp_right fun ⟨r, hr, _, hname⟩ => hname ▸ List.mem_map_of_mem hr
    have hholds : ∀ env, c.Holds stored env → c.Holds stored' env := by
      intro env holds
      refine holds.of_facts fun rel' hrel' row _ hrow => ?_
      have heq : rel = rel' := by rcases hc with rfl | ⟨n, rfl⟩ <;> exact Option.some.inj hrel'
      subst heq
      exact (reflects'.whole hrel row).mpr (le rel hmem row ((reflects.whole hrel row).mp hrow))
    rcases hc with rfl | ⟨n, rfl⟩ <;> exact hholds
  · intro env args hargs hset holds
    refine holds.of_facts fun rel hrel row hrow hstored => ?_
    cases hrel
    have htake : row.take r.params.length = args := by
      rw [← hlen]
      have hlength : row.length = (params ++ lhs).length := hrow.length
      rw [List.length_append] at hlength
      have hsplit : env.Reads (params ++ lhs)
          (row.take params.length ++ row.drop params.length) := by
        rw [List.take_append_drop]
        exact hrow
      rw [Env.reads_append (by simp; omega)] at hsplit
      exact hsplit.1.unique hargs
    have hfact := ((reflects.demanded r hr hdem row).mp hstored).1
    refine (reflects'.demanded r hr hdem row).mpr ⟨?_, htake ▸ hset⟩
    exact le r.name (.inr (List.mem_map_of_mem hr)) row hfact
  · exact fun _ holds => holds
  · exact fun _ holds => holds

end Clause.Scoped

namespace Compile.Built

variable {o : Options} {d : Declarations} {p : Program} {q : CompiledQuery}
  {earlier later : List CompiledQuery} {stored stored' : Facts}

theorem meaning_le (built : Built o d p) (sound : d.Sound) (alive : CompiledQuery → Bool)
    (h : p.queries = earlier ++ later)
    (base : ∀ rel ∈ d.relations.map (·.name), ∀ row, stored rel row → stored' rel row)
    {rel : String}
    (hrel : rel ∈ d.relations.map (·.name) ∨ rel ∈ earlier.map (·.name)) {row : Row}
    (hrow : meaning alive stored earlier.reverse rel row) :
    meaning alive stored' earlier.reverse rel row := by
  induction earlier using List.reverseRecOn generalizing later rel row with
  | nil =>
    rcases hrel with hrel | hrel
    · exact base rel hrel row hrow
    · cases hrel
  | append_singleton earlier q ih =>
    have h' : p.queries = earlier ++ q :: later := by simpa using h
    obtain ⟨decl, hdecl, _, hcompiled, _⟩ := built.compiled h'
    have hscoped := (Lowering.query_lowered (sound.queries decl hdecl) hcompiled.spec).inScope
    rw [List.reverse_append, List.reverse_singleton, List.singleton_append] at hrow ⊢
    by_cases hname : rel = q.name
    · rw [hname, meaning_self] at hrow ⊢
      refine ⟨hrow.1, hrow.2.of_join fun env holds c hc => ?_⟩
      exact (holds c hc).of_facts fun rel hrel row _ => ih h' ((hscoped c hc).rel_mem hrel)
    · rw [meaning_of_ne hname] at hrow ⊢
      refine ih h' (hrel.imp_right fun hm => ?_) hrow
      simpa [hname] using hm

theorem meaning_same (built : Built o d p) (sound : d.Sound) (alive : CompiledQuery → Bool)
    (h : p.queries = earlier ++ later)
    (base : ∀ rel ∈ d.relations.map (·.name), ∀ row, stored rel row ↔ stored' rel row)
    {rel : String}
    (hrel : rel ∈ d.relations.map (·.name) ∨ rel ∈ earlier.map (·.name)) (row : Row) :
    meaning alive stored earlier.reverse rel row ↔ meaning alive stored' earlier.reverse rel row :=
  ⟨built.meaning_le sound alive h (fun rel hrel row => (base rel hrel row).mp) hrel,
    built.meaning_le sound alive h (fun rel hrel row => (base rel hrel row).mpr) hrel⟩

theorem entry_later (built : Built o d p) (sound : d.Sound) (h : p.queries = earlier ++ q :: later)
    {e : Support} (he : e ∈ p.entries (Demand.setName q.name)) : ∃ r ∈ later, e ∈ r.entries := by
  obtain ⟨hmem, htarget⟩ := List.mem_filter.mp he
  obtain ⟨r, hr, her⟩ := List.mem_flatMap.mp hmem
  refine ⟨r, ?_, her⟩
  obtain ⟨before, after, hsplit⟩ := List.append_of_mem hr
  obtain ⟨hs, hentry⟩ := List.mem_filter.mp her
  obtain ⟨t, ht, _, _, hset, _⟩ := built.entry sound hsplit hs hentry
  have hq : q ∈ p.queries := by simp [h]
  have htq : t = q := by
    refine List.inj_on_of_nodup_map built.nodup_queries (by simp [hsplit, ht]) hq ?_
    exact Demand.setName_injective (hset.symm.trans (of_decide_eq_true htarget))
  subst htq
  obtain ⟨first, second, rfl⟩ := List.append_of_mem ht
  rw [h, List.append_assoc, List.cons_append] at hsplit
  have hnodup := built.nodup_queries.of_map
  rw [h, List.nodup_middle, List.nodup_cons, List.mem_append, not_or] at hnodup
  obtain ⟨_, _, rfl⟩ := (List.append_cons_inj_of_notMem hnodup.1.1 hnodup.1.2).mp hsplit
  simp

theorem supports_le (built : Built o d p) (sound : d.Sound)
    (h : p.queries = earlier ++ q :: later)
    (stores : q.Stores stored) (stores' : q.Stores stored')
    (covered : q.settings.mode ≠ .batch → ∀ c ∈ q.source, Demand.Covered stored stored' c) :
    ∀ s ∈ q.supports, s.spec.join.Le stored stored' := by
  intro s hs
  by_cases hmode : q.settings.mode = .batch
  · obtain ⟨_, _, _, hc, _⟩ := built.compiled h
    rcases hc.kept with unkept | ⟨plan, kept⟩
    · rw [unkept.supports] at hs
      cases hs
    · exact absurd hmode kept.mode
  · obtain ⟨cs, selected, _, hcs, pruned, _⟩ := built.planned sound h hmode
    exact Demand.supportsFrom_le stores stores' pruned
      (fun s hs hentry => built.entry_apart sound h hs hentry) (covered hmode) hcs (fun s hs => hs)
      (fun v hv => by cases hv) s (pruned.sublist.subset hs) hs

/-- From the last query to the first, more rows of the base relations and more demands of the user
make more demands. Each demanded row is demanded on the other side as well, or an entry demands
it. -/
theorem demand_le (built : Built o d p) (sound : d.Sound)
    (stores : ∀ q ∈ p.queries, q.Stores stored) (stores' : ∀ q ∈ p.queries, q.Stores stored')
    (base : ∀ rel ∈ d.relations.map (·.name), ∀ row, stored rel row → stored' rel row)
    (sets : ∀ q ∈ p.queries, q.settings.mode = .dem → ∀ row, stored (Demand.setName q.name) row →
      stored' (Demand.setName q.name) row ∨
        ∃ e ∈ p.entries (Demand.setName q.name), e.spec.Yields stored row)
    (h : p.queries = earlier ++ later) : ∀ q ∈ later,
    (∀ s ∈ q.supports, s.spec.join.Le stored stored') ∧ (q.settings.mode = .dem →
      ∀ row, stored (Demand.setName q.name) row → stored' (Demand.setName q.name) row) := by
  induction later generalizing earlier with
  | nil => simp
  | cons q later ih =>
    have hsplit : p.queries = (earlier ++ [q]) ++ later := by simp [h]
    have hlater := ih hsplit
    have hq : q ∈ p.queries := by simp [h]
    have hset : q.settings.mode = .dem → ∀ row, stored (Demand.setName q.name) row →
        stored' (Demand.setName q.name) row := by
      intro hdem row hrow
      rcases sets q hq hdem row hrow with hthere | ⟨e, he, hyields⟩
      · exact hthere
      · obtain ⟨r, hr, her⟩ := built.entry_later sound h he
        have hrq : r ∈ p.queries := by simp [h, hr]
        have htarget : e.target = Demand.setName q.name :=
          of_decide_eq_true (List.mem_filter.mp he).2
        rw [← htarget]
        exact (stores' r hrq).entries e her row
          (hyields.of_join ((hlater r hr).1 e (List.mem_filter.mp her).1))
    refine List.forall_mem_cons.mpr ⟨⟨?_, hset⟩, hlater⟩
    refine built.supports_le sound h (stores q hq) (stores' q hq) fun hmode c hc => ?_
    obtain ⟨_, _, _, _, _, _, hscoped⟩ := built.planned sound h hmode
    rcases mem_source hc with hc | ⟨hdem, rfl⟩
    · exact (hscoped c hc).covered_of_reflects hmode (built.reflects sound h stores)
        (built.reflects sound h stores') fun rel hrel row => built.meaning_le sound _ h base hrel
    · intro env holds
      refine holds.of_facts fun rel hrel row _ => ?_
      cases hrel
      exact hset hdem row

theorem demanded_cases {n asked : Nat} {es : List Support} {row : Row}
    (h : (n : ℕ∞) = asked + (es.map fun e => e.spec.multiplicity stored row).sum) (hn : 0 < n) :
    0 < asked ∨ ∃ e ∈ es, e.spec.Yields stored row := by
  by_contra hnone
  push Not at hnone
  obtain ⟨hasked, hentries⟩ := hnone
  have hzero : (es.map fun e => e.spec.multiplicity stored row).sum = 0 := by
    refine List.sum_eq_zero fun m hm => ?_
    obtain ⟨e, he, rfl⟩ := List.mem_map.mp hm
    by_contra hne
    exact hentries e he (Comprehension.yields_of_multiplicity hne)
  rw [hzero, Nat.le_zero.mp hasked] at h
  have : n = 0 := by exact_mod_cast h
  omega

theorem keeps_same (built : Built o d p) (sound : d.Sound)
    (stores : ∀ q ∈ p.queries, q.Stores stored) (stores' : ∀ q ∈ p.queries, q.Stores stored')
    (base : ∀ rel ∈ d.relations.map (·.name), ∀ row, stored rel row ↔ stored' rel row)
    (hq : q ∈ p.queries) {c : Comprehension} (hc : q.maintained = some c) {row : Row}
    (demanded : q.settings.mode = .dem → (stored (Demand.setName q.name)
      (row.take q.params.length) ↔ stored' (Demand.setName q.name) (row.take q.params.length))) :
    c.keeps stored row = c.keeps stored' row := by
  obtain ⟨earlier, later, h, decl, _, _, hcompiled⟩ := built.mem_compiled hq
  have hmode : q.settings.mode ≠ .batch := by
    intro hbatch
    rcases hcompiled.kept with unkept | ⟨plan, kept⟩
    · rw [unkept.maintained] at hc
      cases hc
    · exact kept.mode hbatch
  obtain ⟨_, _, _, _, _, hmaintained, hscoped⟩ := built.planned sound h hmode
  have houtput : c.output = q.spec.output := by
    cases hc.symm.trans hmaintained
    rfl
  unfold Comprehension.keeps
  rw [Comprehension.multiplicity_congr_of]
  intro env hout
  rw [houtput] at hout
  rw [built.maintained_holds_iff sound h hmode (built.reflects sound h stores) (stores q hq) hc,
    built.maintained_holds_iff sound h hmode (built.reflects sound h stores') (stores' q hq) hc]
  refine and_congr ?_ (imp_congr_right fun hdem => ?_)
  · refine forall₂_congr fun e he => Clause.holds_facts_congr fun rel hrel row _ => ?_
    exact built.meaning_same sound _ h base ((hscoped e he).rel_mem hrel) row
  · rw [set_holds_iff hout, set_holds_iff hout, ← hcompiled.params]
    exact demanded hdem

section Solutions

variable {asked count count' : String → Row → Nat} (built : Built o d p) (sound : d.Sound)
  (solved : p.Solved asked count) (solved' : p.Solved asked count')
  (base : ∀ rel ∈ d.relations.map (·.name), ∀ row, present count rel row ↔ present count' rel row)

include built sound solved solved'

theorem solved_le
    (base : ∀ rel ∈ d.relations.map (·.name), ∀ row, present count rel row → present count' rel row)
    (hq : q ∈ p.queries) : (∀ s ∈ q.supports, s.spec.join.Le (present count) (present count')) ∧
      (q.settings.mode = .dem → ∀ row, present count (Demand.setName q.name) row →
        present count' (Demand.setName q.name) row) := by
  refine built.demand_le sound (fun q hq => built.stores sound solved hq)
    (fun q hq => built.stores sound solved' hq) base ?_ (List.nil_append _).symm q hq
  intro r hr hdem row hrow
  have hset := built.demandSet_of_dem hr hdem
  refine (demanded_cases (solved.sets r hr _ hset row) hrow).imp_left fun hasked => ?_
  have hle : (asked r.name row : ℕ∞) ≤ count' (Demand.setName r.name) row :=
    solved'.sets r hr _ hset row ▸ le_self_add
  exact hasked.trans_le (by exact_mod_cast hle)

include base

theorem demand_unique (hq : q ∈ p.queries) :
    (∀ s ∈ q.supports, s.spec.join.Same (present count) (present count')) ∧
      ∀ u, q.demandSet = some u → ∀ row, count u row = count' u row := by
  have hsame : ∀ r ∈ p.queries, ∀ s ∈ r.supports,
      s.spec.join.Same (present count) (present count') := fun r hr s hs =>
    ((built.solved_le sound solved solved' (fun rel hrel row => (base rel hrel row).mp) hr).1
      s hs).antisymm
    ((built.solved_le sound solved' solved (fun rel hrel row => (base rel hrel row).mpr) hr).1 s hs)
  refine ⟨hsame q hq, fun u hu row => ?_⟩
  have hentries : (p.entries u).map (fun e => e.spec.multiplicity (present count) row) =
      (p.entries u).map fun e => e.spec.multiplicity (present count') row := by
    refine List.map_congr_left fun e he => ?_
    obtain ⟨r, hr, her⟩ := List.mem_flatMap.mp (List.mem_filter.mp he).1
    exact Comprehension.multiplicity_congr (hsame r hr e (List.mem_filter.mp her).1) row
  have hcount := solved.sets q hq u hu row
  rw [hentries, ← solved'.sets q hq u hu row] at hcount
  exact_mod_cast hcount

/-- The counts of all derived relations follow from the rows of the base relations and from what the
user demands. -/
theorem count_unique {info : RelationInfo} (hinfo : info ∈ p.catalog)
    (hderived : info.origin.isBase = false) (row : Row) :
    count info.name row = count' info.name row := by
  rw [built.catalog_eq sound] at hinfo
  rcases List.mem_append.mp hinfo with hinfo | hinfo
  · rw [(sound.relations info hinfo).origin] at hderived
    cases hderived
  obtain ⟨q, hq, hinfo⟩ := List.mem_flatMap.mp hinfo
  obtain ⟨_, _, _, _, _, _, hc⟩ := built.mem_compiled hq
  obtain ⟨hsupports, hset⟩ := built.demand_unique sound solved solved' base hq
  rcases List.mem_append.mp (hc.relations_perm.mem_iff.mp (List.mem_map_of_mem hinfo))
    with hown | hu
  · obtain ⟨v, hv, htarget⟩ := List.mem_map.mp hown
    rw [← htarget]
    rcases List.mem_append.mp hv with hv | hv
    · obtain ⟨t, ht, rfl⟩ := List.mem_map.mp hv
      obtain ⟨ht, hentry⟩ := List.mem_filter.mp ht
      have hentry : t.isEntry = false := by simpa using hentry
      have hcount := solved.supports q hq t ht hentry row
      rw [Comprehension.keeps_congr (hsupports t ht),
        ← solved'.supports q hq t ht hentry row] at hcount
      exact_mod_cast hcount
    · obtain ⟨c, hm, rfl⟩ := List.mem_map.mp hv
      have hm := Option.mem_toList.mp hm
      have hdemanded : q.settings.mode = .dem →
          (present count (Demand.setName q.name) (row.take q.params.length) ↔
            present count' (Demand.setName q.name) (row.take q.params.length)) := by
        intro hdem
        unfold present
        rw [hset _ (built.demandSet_of_dem hq hdem)]
      have hcount := solved.results q hq c hm row
      rw [built.keeps_same sound (fun q hq => built.stores sound solved hq)
        (fun q hq => built.stores sound solved' hq) base hq hm hdemanded,
        ← solved'.results q hq c hm row] at hcount
      exact_mod_cast hcount
  · exact hset _ (Option.mem_toList.mp hu) row

end Solutions

end Compile.Built

end ViewUpkeep
