import ViewUpkeep.Proofs.Reflection

/-!
Rows of the right length. Every relation that a view reads or writes is in the catalog, with rows as
long as the patterns that range over it and as the rows that are written to it. Pruning leaves it at
that: what a support reads that is left, is left.
-/
namespace ViewUpkeep

def Lists (catalog : List RelationInfo) (rel : String) (n : Nat) : Prop :=
  ∃ info ∈ catalog, info.name = rel ∧ info.arity = n

theorem Lists.mono {catalog catalog' : List RelationInfo} {rel : String} {n : Nat}
    (h : Lists catalog rel n) (hsub : catalog ⊆ catalog') : Lists catalog' rel n := by
  obtain ⟨info, hinfo, hrest⟩ := h
  exact ⟨info, hsub hinfo, hrest⟩

def Clause.FitsIn (catalog : List RelationInfo) (c : Clause) : Prop :=
  ∀ rel, c.rel? = some rel → Lists catalog rel c.lhs.length

structure View.FitsIn (catalog : List RelationInfo) (v : View) : Prop where
  clauses : ∀ c ∈ v.spec.join, c.FitsIn catalog
  target : Lists catalog v.target v.spec.arity

namespace Demand

@[simp] theorem arity_tupleOf (j : Join) (vs : List Var) :
    (⟨j, .tupleOf vs, []⟩ : Comprehension).arity = vs.length := by
  simp [Comprehension.arity, Expr.tupleOf, Expr.components]

@[simp] theorem arity_var (j : Join) (v : Var) : (⟨j, .var v, []⟩ : Comprehension).arity = 1 := rfl

section Supports

variable {query : String} {filters : Bool} {cs kept : List Support} {selected : List Nat}
  {catalog : List RelationInfo}

theorem tagClauses_fit (pruned : Pruned cs selected kept)
    (owned : ∀ s ∈ kept, s.isEntry = false → Lists catalog s.target s.spec.arity) {s : Support}
    (hs : s ∈ kept) {vs : List Var} (htags : ∀ v ∈ vs, ∃ i source, tagOf query i source v ∈ cs)
    (hne : ∀ v ∈ vs, s.target ≠ tagName query v)
    (hread : ∀ d ∈ tagClauses query vs, d ∈ s.spec.join) :
    ∀ d ∈ tagClauses query vs, d.FitsIn catalog := by
  intro d hd
  have hjoin := hread d hd
  obtain ⟨v, hv, rfl⟩ := List.mem_map.mp hd
  obtain ⟨i, source, htag⟩ := htags v hv
  have hkept := pruned.tags _ htag rfl ⟨s, hs, hne v hv, reads_of_mem hjoin⟩
  intro rel hrel
  cases hrel
  exact owned _ hkept rfl

theorem supports_fit {j : Join} (pruned : Pruned cs selected kept)
    (apart : ∀ s ∈ kept, s.isEntry = true → ∀ v, s.target ≠ tagName query v)
    (owned : ∀ s ∈ kept, s.isEntry = false → Lists catalog s.target s.spec.arity)
    (fits : ∀ c ∈ j, c.FitsIn catalog) (h : supportsFrom query filters 0 [] j = .ok cs) :
    ∀ s ∈ cs, s ∈ kept → ∀ c ∈ s.spec.join, c.FitsIn catalog := by
  refine supportsFrom_induction (P := fun s => s ∈ kept → ∀ c ∈ s.spec.join, c.FitsIn catalog) h ?_ ?_
  · intro pre c post guard hj hguard _ htags s hs hkept
    have hc : c.FitsIn catalog := fits c (by simp [hj])
    have htagged : ∀ v ∈ taggedBy [] pre, ∃ i source, tagOf query i source v ∈ cs := by
      intro v hv
      obtain ⟨i, source, hmem, _⟩ := htags v hv
      exact ⟨i, source, hmem⟩
    cases guardOf_guards hguard s hs with
    | entry hparams =>
      apply tagClauses_fit pruned owned hkept
      · exact fun v hv => htagged v (hparams v (List.mem_eraseDups.mp hv))
      · exact fun v _ => apart _ hkept rfl v
      · exact fun d hd => hd
    | filter =>
      refine List.forall_mem_append.mpr ⟨?_, List.forall_mem_singleton.mpr hc⟩
      apply tagClauses_fit pruned owned hkept
      · exact fun v hv => htagged v (by simpa using (List.mem_filter.mp hv).2)
      · exact fun v _ => (tagName_ne_filterName _ _ _).symm
      · exact fun d hd => List.mem_append_left _ hd
  · intro pre c post guard v hj hguard hcs _ hguards _ hkept
    have hc : c.FitsIn catalog := fits c (by simp [hj])
    show ∀ d ∈ tagSource c guard, d.FitsIn catalog
    cases guard with
    | none =>
      cases c with
      | demand => cases (guardOf_demand hguard).2
      | _ => exact List.forall_mem_singleton.mpr hc
    | some g =>
      cases guardOf_guards hguard g rfl with
      | entry =>
        have hentry := pruned.entries _ (hcs _ rfl) rfl
        exact List.forall_mem_append.mpr ⟨hguards _ rfl hentry, List.forall_mem_singleton.mpr hc⟩
      | filter =>
        obtain ⟨hsource, hfilter⟩ :=
          filter_tags pruned (guardOf_guards hguard _ rfl) rfl (hcs _ rfl)
        rw [hsource]
        refine List.forall_mem_singleton.mpr fun rel hrel => ?_
        cases hrel
        have hlisted := owned _ (hfilter v hkept) rfl
        rwa [arity_tupleOf] at hlisted

theorem apply_fits {j : Join}
    (owned : ∀ s ∈ kept, s.isEntry = false → Lists catalog s.target s.spec.arity)
    (hkept : kept ⊆ cs) (fits : ∀ c ∈ j, c.FitsIn catalog)
    (h : supportsFrom query filters 0 [] j = .ok cs) :
    ∀ c ∈ apply j kept selected, c.FitsIn catalog := by
  intro e he
  obtain ⟨n, c, hc, rfl | ⟨f, hf, hfilter, rfl, rfl⟩⟩ := (mem_apply kept selected).1 e he
  · exact fits _ (List.mem_of_getElem? hc)
  · obtain ⟨_, vs, hspec⟩ := filter_spec h (hkept hf) hfilter hc
    intro rel hrel
    cases hrel
    have hlisted := owned f hf (f.isEntry_of_isFilter hfilter)
    rwa [hspec, arity_tupleOf] at hlisted

end Supports

end Demand

namespace Compile

variable {o : Options} {d : Declarations} {p : Program} {q : CompiledQuery}
  {decl : QueryDecl} {scope : Scope} {catalog : List RelationInfo}

/-! ### The relations of a query -/

theorem Compiled.params_le_arity (h : Compiled o decl scope catalog q) :
    q.signature.params ≤ q.signature.arity := by
  show q.params.length ≤ q.spec.params.length + _
  rw [h.params]
  exact Nat.le_add_right ..

theorem Compiled.lists_result (h : Compiled o decl scope catalog q)
    (hmode : q.settings.mode ≠ .batch) : Lists q.relations q.name q.arity := by
  rcases h.kept with unkept | ⟨plan, kept⟩
  · exact absurd unkept.mode hmode
  · refine ⟨.derived q.name q.arity (.result q.name) q.counted, ?_, rfl, rfl⟩
    simp [CompiledQuery.relations, kept.result]

theorem Compiled.lists_demandSet (h : Compiled o decl scope catalog q)
    (hmode : q.settings.mode = .dem) :
    Lists q.relations (Demand.setName q.name) q.params.length := by
  rcases h.kept with unkept | ⟨plan, kept⟩
  · rw [unkept.mode] at hmode
    cases hmode
  · refine ⟨.derived (Demand.setName q.name) q.params.length (.demandSet q.name) true, ?_, rfl, rfl⟩
    simp [CompiledQuery.relations, kept.demandSet, hmode]

theorem lists_support {s : Support} (hs : s ∈ q.supports) (hentry : s.isEntry = false) :
    Lists q.relations s.target s.spec.arity := by
  obtain ⟨kind, clause, target, spec⟩ := s
  cases kind with
  | tag v =>
    exact ⟨_, List.mem_append_right _ (List.mem_filterMap.mpr ⟨_, hs, rfl⟩), rfl, rfl⟩
  | filter =>
    exact ⟨_, List.mem_append_right _ (List.mem_filterMap.mpr ⟨_, hs, rfl⟩), rfl, rfl⟩
  | entry subquery => cases hentry

/-! ### Programs -/

namespace Built

variable {earlier later : List CompiledQuery}

theorem relations_subset (built : Built o d p) (sound : d.Sound) : d.relations ⊆ p.catalog := by
  rw [built.catalog_eq sound]
  exact List.subset_append_left ..

theorem query_relations_subset (built : Built o d p) (sound : d.Sound) (hq : q ∈ p.queries) :
    q.relations ⊆ p.catalog := by
  rw [built.catalog_eq sound]
  exact fun info hinfo => List.mem_append_right _ (List.mem_flatMap.mpr ⟨q, hq, hinfo⟩)

theorem scoped_fits (built : Built o d p) (sound : d.Sound) {qs : List CompiledQuery}
    (hqs : qs ⊆ p.queries) {mode : Mode} (hmode : mode ≠ .batch) {c : Clause}
    (h : c.Scoped ⟨d.relations, qs.map (·.signature)⟩ mode) : c.FitsIn p.catalog := by
  have hquery : ∀ {rel sig}, Scope.query? ⟨d.relations, qs.map (·.signature)⟩ rel = some sig →
      (sig.mode = .batch → mode = .batch) →
      sig.params ≤ sig.arity ∧ Lists p.catalog rel sig.arity := by
    intro rel sig hsig hbatch
    obtain ⟨r, hr, rfl⟩ := List.mem_map.mp (List.mem_of_find?_eq_some hsig)
    have hname : r.signature.name = rel := by simpa using List.find?_some hsig
    change r.name = rel at hname
    obtain ⟨_, _, _, rdecl, _, _, hcompiled⟩ := built.mem_compiled (hqs hr)
    refine ⟨hcompiled.params_le_arity, hname ▸ ?_⟩
    exact (hcompiled.lists_result fun hm => hmode (hbatch hm)).mono
      (built.query_relations_subset sound (hqs hr))
  intro rel hrel
  cases h with
  | relation hinfo hc hlen =>
    have hfound : ∀ {lhs name}, (c = .member lhs name ∨ ∃ n, c = .mapMember lhs name n) →
        c.lhs = lhs ∧ c.rel? = some name := by
      rintro lhs name (rfl | ⟨n, rfl⟩) <;> exact ⟨rfl, rfl⟩
    obtain ⟨hlhs, hname⟩ := hfound hc
    rw [hname] at hrel
    cases hrel
    rw [hlhs, hlen]
    exact ⟨_, built.relations_subset sound (List.mem_of_find?_eq_some hinfo),
      by simpa using List.find?_some hinfo, rfl⟩
  | rows _ hsig _ hbatch hlen =>
    cases hrel
    obtain ⟨hle, hlists⟩ := hquery hsig hbatch
    exact hlen hle ▸ hlists
  | applied _ hsig _ hbatch _ hlen =>
    cases hrel
    obtain ⟨hle, hlists⟩ := hquery hsig hbatch
    exact hlen hle ▸ hlists
  | singleton => cases hrel
  | cond => cases hrel

theorem source_fits (built : Built o d p) (sound : d.Sound) (h : p.queries = earlier ++ q :: later)
    (hmode : q.settings.mode ≠ .batch) : ∀ c ∈ q.source, c.FitsIn p.catalog := by
  have hq : q ∈ p.queries := by simp [h]
  obtain ⟨_, _, _, _, _, _, hscoped⟩ := built.planned sound h hmode
  intro c hc
  rcases mem_source hc with hc | ⟨hdem, rfl⟩
  · apply built.scoped_fits sound _ hmode (hscoped c hc)
    rw [h]
    exact List.subset_append_left ..
  · obtain ⟨_, _, _, _, _, _, hcompiled⟩ := built.mem_compiled hq
    intro rel hrel
    cases hrel
    have hlists := (hcompiled.lists_demandSet hdem).mono (built.query_relations_subset sound hq)
    rwa [hcompiled.params] at hlists

theorem entry_lists (built : Built o d p) (sound : d.Sound) (h : p.queries = earlier ++ q :: later)
    (hmode : q.settings.mode ≠ .batch) {s : Support} (hs : s ∈ q.supports)
    (hentry : s.isEntry = true) : Lists p.catalog s.target s.spec.arity := by
  obtain ⟨cs, selected, _, hfrom, pruned, _, hscoped⟩ := built.planned sound h hmode
  obtain ⟨pre, c, post, guard, hj, hguard, hmade⟩ :=
    Demand.mem_supportsFrom hfrom (pruned.sublist.subset hs)
  rcases hmade with hmade | ⟨v, _, rfl⟩
  · cases Demand.guardOf_guards hguard s hmade with
    | entry hparams =>
      rename_i inner subquery params
      have hmem : Clause.demand inner subquery params ∈ q.spec.join := by
        have hsource : Clause.demand inner subquery params ∈ q.source := by simp [hj]
        rcases mem_source hsource with hmem | ⟨_, hc⟩
        · exact hmem
        · cases hc
      rcases (hscoped _ hmem).cases_kept hmode with ⟨lhs, rel, hc, _⟩ |
        ⟨r, hr, hdem, params', lhs, hlen, hc⟩ | ⟨_, _, hc⟩ | ⟨_, hc⟩
      · simp at hc
      · cases hc
        have hrq : r ∈ p.queries := by simp [h, hr]
        obtain ⟨_, _, _, _, _, _, hcompiled⟩ := built.mem_compiled hrq
        have hlists := (hcompiled.lists_demandSet hdem).mono (built.query_relations_subset sound hrq)
        rwa [Demand.arity_tupleOf, hlen]
      · cases hc
      · cases hc
    | filter => cases hentry
  · cases hentry

/-- The views of a compiled program read and write relations of its catalog, in rows of the right
length. -/
theorem views_fit (built : Built o d p) (sound : d.Sound) : ∀ v ∈ p.views, v.FitsIn p.catalog := by
  intro v hv
  obtain ⟨q, hq, hv⟩ := List.mem_flatMap.mp hv
  obtain ⟨earlier, later, h, decl, _, catalog, hcompiled⟩ := built.mem_compiled hq
  have hsub := built.query_relations_subset sound hq
  by_cases hmode : q.settings.mode = .batch
  · have hnone : q.views = [] := by
      rcases hcompiled.kept with unkept | ⟨plan, kept⟩
      · simp [CompiledQuery.views, unkept.supports, unkept.maintained]
      · exact absurd hmode kept.mode
    rw [hnone] at hv
    cases hv
  · obtain ⟨cs, selected, _, hfrom, pruned, hmaintained, _⟩ := built.planned sound h hmode
    have fits := built.source_fits sound h hmode
    have owned : ∀ s ∈ q.supports, s.isEntry = false → Lists p.catalog s.target s.spec.arity :=
      fun s hs hentry => (lists_support hs hentry).mono hsub
    rcases List.mem_append.mp hv with hv | hv
    · obtain ⟨s, hs, rfl⟩ := List.mem_map.mp hv
      constructor
      · exact Demand.supports_fit pruned (fun t ht hentry v => built.entry_apart sound h ht hentry v)
          owned fits hfrom s (pruned.sublist.subset hs) hs
      · cases hentry : s.isEntry with
        | false => exact owned s hs hentry
        | true => exact built.entry_lists sound h hmode hs hentry
    · rw [hmaintained] at hv
      cases List.mem_singleton.mp hv
      constructor
      · exact Demand.apply_fits owned pruned.sublist.subset fits hfrom
      · exact (hcompiled.lists_result hmode).mono hsub

end Built

end Compile

end ViewUpkeep
