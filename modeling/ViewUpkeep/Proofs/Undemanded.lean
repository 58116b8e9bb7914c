import ViewUpkeep.Proofs.Counts
import ViewUpkeep.Proofs.Exactness

/-!
What nobody asks for is not stored. If each clause of a demanded query is linked, by a named
variable, to the parameters or to a clause before it, then all its tags and filters go back to its
demand set. So while that set is empty they are empty too, and the entries of the query ask for
nothing. The result is empty as well, unless the query makes an assumption about a relation that it
reads twice: then rows can stay behind when a demand is taken back.
-/
namespace ViewUpkeep

def Clause.isLinked (known : List Var) : Clause → Bool
  | .member lhs _ | .mapMember lhs _ _ => lhs.any fun v => !v.isAnonymous && known.contains v
  | _ => true

/-- From the first clause to the last, each is linked to variables that are known or that the
clauses before it provide. -/
def Join.isLinked (known : List Var) : Join → Bool
  | [] => true
  | c :: rest => c.isLinked known && Join.isLinked (known ++ c.tagsOut) rest

theorem Join.isLinked_append {known : List Var} {pre post : Join} {c : Clause}
    (h : Join.isLinked known (pre ++ c :: post) = true) :
    c.isLinked (known ++ pre.flatMap (·.tagsOut)) = true := by
  induction pre generalizing known with
  | nil =>
    rw [List.flatMap_nil, List.append_nil]
    exact (Bool.and_eq_true_iff.mp h).1
  | cons b pre ih =>
    rw [List.flatMap_cons, ← List.append_assoc]
    exact ih (Bool.and_eq_true_iff.mp h).2

def Store.Vacant (s : Store) (rel : String) : Prop := ∀ row, s.count rel row = 0

theorem Store.vacant_of_toList {s : Store} {rel : String}
    (h : (s.get? rel).all (·.toList.isEmpty) = true) : s.Vacant rel := by
  intro row
  unfold count
  split
  · rename_i r hr
    rw [hr, Option.all_some, List.isEmpty_iff] at h
    exact Bag.count_eq_zero_of_not_mem (by simp [Relation.toList] at h; simp [h])
  · rfl

theorem Store.Sound.not_has_of_vacant {s : Store} (sound : s.Sound) {rel : String}
    (h : s.Vacant rel) (row : Row) : ¬ s.Has rel row := by
  rw [← sound.count_pos_iff, h row]
  exact Nat.lt_irrefl 0

theorem Comprehension.multiplicity_eq_zero {c : Comprehension} {facts : Facts}
    (h : ∀ env, ¬ c.join.Holds facts env) (row : Row) : c.multiplicity facts row = 0 := by
  refine Set.encard_eq_zero.mpr (Set.eq_empty_of_forall_notMem ?_)
  rintro b ⟨⟨_, holds⟩, _⟩
  exact h _ holds

def Support.Unsatisfied (facts : Facts) (s : Support) : Prop :=
  ∀ env, ¬ s.spec.join.Holds facts env

namespace Demand

variable {query : String}

theorem mem_taggedBy_of_tagsOut {tagged : List Var} {j : Join} {v : Var}
    (named : v.isAnonymous = false) (h : v ∈ tagged ∨ v ∈ j.flatMap (·.tagsOut)) :
    v ∈ taggedBy tagged j := by
  induction j generalizing tagged with
  | nil => simpa [taggedBy] using h
  | cons c rest ih =>
    refine ih ?_
    rw [List.flatMap_cons, List.mem_append] at h
    by_cases hv : v ∈ tagged
    · exact .inl (List.mem_append_left _ hv)
    · rcases h with h | h | h
      · exact absurd h hv
      · exact .inl (List.mem_append_right _ (mem_newTags.mpr ⟨h, named, hv⟩))
      · exact .inr h

section Vacancy

variable {params : List Var} {set : String} {rest : Join} {cs kept : List Support}
  {selected : List Nat} {facts : Facts}

theorem guardOf_linked {pre post : Join} {c : Clause} {guard : Option Support} {rel : String}
    (linked : rest.isLinked params = true) (hrest : rest = pre ++ c :: post)
    (hc : c = .member c.lhs rel ∨ ∃ n, c = .mapMember c.lhs rel n)
    (hguard : guardOf query true (taggedBy [] (.member params set :: pre)) (pre.length + 1) c =
      .ok guard) :
    ∃ g ∈ guard, g.isFilter = true := by
  have hlinked := Join.isLinked_append (hrest ▸ linked)
  have hshared : ∃ v ∈ c.lhs, v.isAnonymous = false ∧ v ∈ params ++ pre.flatMap (·.tagsOut) := by
    rcases hc with hc | ⟨n, hc⟩ <;> rw [hc] at hlinked ⊢ <;>
      simpa [Clause.isLinked, Clause.lhs] using hlinked
  obtain ⟨v, hv, named, hknown⟩ := hshared
  have htagged : v ∈ taggedBy [] (.member params set :: pre) := by
    refine mem_taggedBy_of_tagsOut named (.inr ?_)
    simpa [Clause.tagsOut] using hknown
  have hne : (c.tagsIn.filter fun v =>
      (taggedBy [] (.member params set :: pre)).contains v) ≠ [] := by
    refine List.ne_nil_of_mem (a := v) (List.mem_filter.mpr ⟨?_, by simpa using htagged⟩)
    rcases hc with hc | ⟨n, hc⟩ <;> rw [hc] at hv ⊢ <;> exact List.mem_eraseDups.mpr hv
  rcases hc with hc | ⟨n, hc⟩ <;> rw [hc] at hguard hne <;>
    simp only [guardOf, Nat.zero_lt_succ, decide_true, Bool.and_true, Bool.true_and,
      Bool.not_eq_true', List.isEmpty_eq_false_iff, ne_eq, hne, not_false_eq_true, if_true,
      Except.ok.injEq] at hguard <;>
    exact ⟨_, hguard.symm, rfl⟩

section Unsatisfied

variable (pruned : Pruned cs selected kept)
  (stored : ∀ s ∈ kept, s.isEntry = false → s.Unsatisfied facts → ∀ row, ¬ facts s.target row)

include pruned stored

theorem unsatisfied_of_tag {s : Support} (hs : s ∈ kept) {v : Var}
    (tag : TagWith query cs (fun t => t ∈ kept → t.Unsatisfied facts) v)
    (hne : s.target ≠ tagName query v) (hread : .member [v] (tagName query v) ∈ s.spec.join) :
    s.Unsatisfied facts := by
  intro env holds
  obtain ⟨i, source, hmem, hunsat⟩ := tag
  have hkept := pruned.tags _ hmem rfl ⟨s, hs, hne, reads_of_mem hread⟩
  obtain ⟨row, _, hrow⟩ := holds _ hread
  exact stored _ hkept rfl (hunsat hkept) row hrow

theorem guard_unsatisfied {i : Nat} {c : Clause} {tagged : List Var} {s : Support}
    (guards : Guards query true tagged i c s) (hkept : s ∈ kept)
    (entries : s.isEntry = true → (∀ v, s.target ≠ tagName query v) ∧ s.spec.join ≠ [])
    (tags : ∀ v ∈ tagged, TagWith query cs (fun t => t ∈ kept → t.Unsatisfied facts) v) :
    s.Unsatisfied facts := by
  cases guards with
  | @entry inner subquery args hargs =>
    obtain ⟨happart, hne⟩ := entries rfl
    have hargsne : args.eraseDups ≠ [] := fun h => hne (by rw [h]; rfl)
    obtain ⟨v, hv⟩ := List.exists_mem_of_ne_nil _ hargsne
    exact unsatisfied_of_tag pruned stored hkept (tags v (hargs v (List.mem_eraseDups.mp hv)))
      (happart v) (List.mem_map_of_mem hv)
  | filter _ _ _ hknown =>
    obtain ⟨v, hv, htagged⟩ := hknown
    refine unsatisfied_of_tag pruned stored hkept (tags v htagged)
      (tagName_ne_filterName v _ _).symm ?_
    refine List.mem_append_left _ (List.mem_map_of_mem (List.mem_filter.mpr ?_))
    exact ⟨List.mem_eraseDups.mpr hv, by simpa using htagged⟩

theorem tag_unsatisfied_of_filter {i : Nat} {c : Clause} {tagged : List Var} {v : Var} {g : Support}
    (guards : Guards query true tagged i c g) (hfilter : g.isFilter = true) (hg : g ∈ cs)
    (hunsat : g ∈ kept → g.Unsatisfied facts)
    (hkept : tagOf query i (tagSource c (some g)) v ∈ kept) :
    (tagOf query i (tagSource c (some g)) v).Unsatisfied facts := by
  intro env holds
  obtain ⟨hsource, hkeeps⟩ := filter_tags pruned guards hfilter hg
  have hmem := hkeeps v hkept
  obtain ⟨row, _, hrow⟩ := holds (.member c.lhs g.target) (by
    show _ ∈ tagSource c (some g)
    rw [hsource]
    exact List.mem_singleton_self _)
  exact stored g hmem (g.isEntry_of_isFilter hfilter) (hunsat hmem) row hrow

/-- Where the demand set is empty, so is all that the clauses after it let through. -/
theorem supports_unsatisfied
    (hfrom : supportsFrom query true 0 [] (.member params set :: rest) = .ok cs)
    (plain : ∀ c ∈ rest, c.Plain) (linked : rest.isLinked params = true)
    (entries : ∀ s ∈ kept, s.isEntry = true →
      (∀ v, s.target ≠ tagName query v) ∧ s.spec.join ≠ [])
    (empty : ∀ row, ¬ facts set row) : ∀ s ∈ kept, s.Unsatisfied facts := by
  suffices hall : ∀ s ∈ cs, s ∈ kept → s.Unsatisfied facts from
    fun s hs => hall s (pruned.sublist.subset hs) hs
  refine supportsFrom_induction hfrom ?_ ?_
  · intro pre c post guard _ hguard _ htags s hs hkept
    exact guard_unsatisfied pruned stored (guardOf_guards hguard s hs) hkept (entries s hkept) htags
  · intro pre c post guard v hj hguard hcs _ hguards hv hkept
    cases pre with
    | nil =>
      cases hj
      have hnone : guard = none := by
        unfold guardOf at hguard
        simpa using hguard.symm
      subst hnone
      intro env holds
      obtain ⟨row, _, hrow⟩ := holds _ (List.mem_singleton_self _)
      exact empty row hrow
    | cons b pre =>
      obtain ⟨rfl, hrest⟩ := List.cons.inj hj
      have hplain : c.Plain := plain c (by simp [hrest])
      have hfilter : ∀ rel, c = .member c.lhs rel ∨ (∃ n, c = .mapMember c.lhs rel n) →
          (tagOf query (pre.length + 1) (tagSource c guard) v).Unsatisfied facts := by
        intro rel hc
        obtain ⟨g, hg, hisfilter⟩ := guardOf_linked linked hrest hc hguard
        cases hg
        exact tag_unsatisfied_of_filter pruned stored (guardOf_guards hguard g rfl) hisfilter
          (hcs g rfl) (hguards g rfl) hkept
      cases c with
      | member lhs rel => exact hfilter rel (.inl rfl)
      | mapMember lhs rel n => exact hfilter rel (.inr ⟨n, rfl⟩)
      | demand inner subquery args =>
        obtain ⟨_, rfl⟩ := guardOf_demand hguard
        intro env holds
        refine hguards _ rfl (pruned.entries _ (hcs _ rfl) rfl) env fun d hd => ?_
        exact holds d (List.mem_append_left _ hd)
      | singleton | cond => cases (mem_newTags.mp hv).1
      | delta | without | withExtra => cases hplain

end Unsatisfied

theorem apply_unsatisfied (hfrom : supportsFrom query true 0 [] (.member params set :: rest) = .ok cs)
    (pruned : Pruned cs selected kept) (empty : ∀ row, ¬ facts set row) (env : Env) :
    ¬ (apply (.member params set :: rest) kept selected).Holds facts env := by
  intro holds
  obtain ⟨d, hd, rfl | ⟨f, hf, hfilter, hclause, _⟩⟩ :=
    (mem_apply (j := .member params set :: rest) kept selected).2 0 _ rfl
  · obtain ⟨row, _, hrow⟩ := holds _ hd
    exact empty row hrow
  · obtain ⟨pre, c, post, guard, _, hguard, hmade | ⟨v, _, rfl⟩⟩ :=
      mem_supportsFrom hfrom (pruned.sublist.subset hf)
    · cases guardOf_guards hguard f hmade with
      | entry => cases hfilter
      | filter _ hpos =>
        simp only at hclause
        omega
    · cases hfilter

end Vacancy

end Demand

def Program.entriesBut (p : Program) (name set : String) : List Support :=
  ((p.queries.filter (·.name ≠ name)).flatMap (·.entries)).filter fun e => e.target = set

theorem Program.sum_entriesBut {p : Program} {name set : String} {m : Support → ℕ∞}
    (h : ∀ q ∈ p.queries, q.name = name → ∀ e ∈ q.entries, m e = 0) :
    ((p.entries set).map m).sum = ((p.entriesBut name set).map m).sum := by
  unfold entries entriesBut
  generalize p.queries = qs at h
  induction qs with
  | nil => rfl
  | cons q qs ih =>
    obtain ⟨hq, hqs⟩ := List.forall_mem_cons.mp h
    by_cases hname : q.name = name
    · have hzero : ((q.entries.filter fun e => e.target = set).map m).sum = 0 :=
        List.sum_eq_zero fun x hx => by
          obtain ⟨e, he, rfl⟩ := List.mem_map.mp hx
          exact hq hname e (List.mem_filter.mp he).1
      rw [List.flatMap_cons, List.filter_append, List.map_append, List.sum_append, hzero, zero_add,
        ih hqs, List.filter_cons_of_neg (by simp [hname])]
    · rw [List.filter_cons_of_pos (by simp [hname]), List.flatMap_cons, List.flatMap_cons,
        List.filter_append, List.filter_append, List.map_append, List.map_append, List.sum_append,
        List.sum_append, ih hqs]

namespace Session

variable {o : Compile.Options} {d : Declarations} {p : Program} {s : Session} {q : CompiledQuery}

/-- A query that takes no part: its tags and filters are empty, its entries derive nothing, and
demand sets have what the user and the entries of other queries ask for. -/
structure Idle (s : Session) (q : CompiledQuery) : Prop where
  supports : ∀ t ∈ q.supports, t.isEntry = false → s.store.Vacant t.target
  entries : ∀ e ∈ q.entries, ∀ params, e.spec.multiplicity s.store.Has params = 0
  sets : ∀ r ∈ s.program.queries, ∀ set, r.demandSet = some set → ∀ params,
    (s.store.count set params : ℕ∞) = s.demandCount r.name params +
      ((s.program.entriesBut q.name set).map fun e => e.spec.multiplicity s.store.Has params).sum

theorem Exact.vacant_own (h : s.Exact d p) (formed : s.Formed p) (built : Compile.Built o d p)
    (sound : d.Sound) (hq : q ∈ p.queries) {v : View} (hv : v ∈ q.ownViews) (exact : v.Exact)
    (unsatisfied : ∀ env, ¬ v.spec.join.Holds s.store.Has env) : s.store.Vacant v.target := by
  intro row
  have hcount := h.count_eq (built.own_tracked sound hq hv exact) row
  rw [formed.program, need_own built sound formed.program hq hv, Comprehension.keeps,
    Comprehension.multiplicity_eq_zero unsatisfied, ite_self] at hcount
  exact_mod_cast hcount

theorem Exact.idle (h : s.Exact d p) (formed : s.Formed p) (built : Compile.Built o d p)
    (sound : d.Sound) (hq : q ∈ p.queries) (hmode : q.mode = .dem)
    (hfilters : q.settings.filters = true) (linked : q.spec.join.isLinked q.params = true)
    (empty : s.store.Vacant (Demand.setName q.name)) :
    s.Idle q ∧ ∀ c, q.maintained = some c →
      (⟨q.name, c, q.settings.selfJoin⟩ : View).Exact → s.store.Vacant q.name := by
  obtain ⟨earlier, later, hsplit, decl, _, _, hcompiled⟩ := built.mem_compiled hq
  have hdem : q.settings.mode = .dem := hmode
  obtain ⟨cs, selected, hplain, hfrom, pruned, hmaintained, _⟩ :=
    built.planned sound hsplit (by simp [hdem])
  have hsource : q.source = .member q.params (Demand.setName q.name) :: q.spec.join := by
    rw [CompiledQuery.source, if_pos hdem, hcompiled.params]
    rfl
  rw [hsource] at hplain hfrom hmaintained
  rw [hdem, hfilters, decide_eq_true rfl, Bool.and_self] at hfrom
  have hnone : ∀ row, ¬ s.store.Has (Demand.setName q.name) row :=
    formed.sound.not_has_of_vacant empty
  have hvacant : ∀ t ∈ q.supports, t.isEntry = false →
      t.Unsatisfied s.store.Has → s.store.Vacant t.target :=
    fun t ht hentry => h.vacant_own formed built sound hq
      (CompiledQuery.support_mem_ownViews ht hentry) (built.support_exact sound hq ht _)
  have hunsatisfied := Demand.supports_unsatisfied pruned
    (fun t ht hentry hunsat => formed.sound.not_has_of_vacant (hvacant t ht hentry hunsat))
    hfrom (fun c hc => (hplain c (List.mem_cons_of_mem _ hc)).1) linked (fun t ht hentry => ?_)
    hnone
  · have hentries : ∀ e ∈ q.entries, ∀ params, e.spec.multiplicity s.store.Has params = 0 :=
      fun e he => Comprehension.multiplicity_eq_zero (hunsatisfied e (List.mem_filter.mp he).1)
    refine ⟨⟨fun t ht hentry => hvacant t ht hentry (hunsatisfied t ht), hentries, ?_⟩, ?_⟩
    · intro r hr set hset params
      rw [formed.program] at hr
      have hcount := h.count_eq (built.set_tracked sound hr hset) params
      rw [formed.program, need_set built sound formed.program hr hset, wanted] at hcount
      rw [hcount, Program.sum_entriesBut]
      intro r' hr' hname e he
      have hsame : r' = q :=
        List.inj_on_of_nodup_map built.nodup_queries (formed.program ▸ hr') hq hname
      exact hentries e (hsame ▸ he) params
    · intro c hc exact
      refine h.vacant_own formed built sound hq (CompiledQuery.maintained_mem_ownViews hc) exact ?_
      cases hc.symm.trans hmaintained
      exact Demand.apply_unsatisfied hfrom pruned hnone
  · obtain ⟨_, _, _, _, _, params, hne, hspec⟩ := built.entry sound hsplit ht hentry
    refine ⟨built.entry_apart sound hsplit ht hentry, fun hnil => hne ?_⟩
    rw [hspec] at hnil
    have herase : params.eraseDups = [] := List.map_eq_nil_iff.mp hnil
    exact List.eq_nil_iff_forall_not_mem.mpr fun v hv => by
      have := List.mem_eraseDups.mpr hv
      rw [herase] at this
      cases this

def pairText : String :=
  "relation R(1); query Q(x) = \x7bx : x in R, x in R\x7d " ++
  "with selfjoin = assume_disjoint, rc = yes;"

def pairOps : List Op := [.demand "Q" [.int 1], .add "R" [.int 1], .undemand "Q" [.int 1]]

set_option maxRecDepth 10000 in
/-- An assumption can leave rows behind that nobody demands. -/
theorem undemanded_pair_remains : ∃ p, Program.ofText? ⟨.default, .silent⟩ pairText = some p ∧
    ((ofProgram p).after pairOps).poisoned = false ∧
    ∃ q ∈ p.queries, q.mode = .dem ∧ q.settings.filters = true ∧
      q.spec.join.isLinked q.params = true ∧
      (∃ set, q.demandSet = some set ∧ ((ofProgram p).after pairOps).store.Vacant set) ∧
      ∃ result, q.result = some result ∧
        ((ofProgram p).after pairOps).store.count result [.int 1, .int 1] = 1 := by
  obtain ⟨p, hp, healthy, q, hq, hmode, hfilters, hlinked, ⟨set, hset, hempty⟩, hresult⟩ : ∃ p,
      Program.ofText? ⟨.default, .silent⟩ pairText = some p ∧
      ((ofProgram p).after pairOps).poisoned = false ∧
      ∃ q ∈ p.queries, q.mode = .dem ∧ q.settings.filters = true ∧
        q.spec.join.isLinked q.params = true ∧
        (∃ set, q.demandSet = some set ∧
          (((ofProgram p).after pairOps).store.get? set).all (·.toList.isEmpty) = true) ∧
        ∃ result, q.result = some result ∧
          ((ofProgram p).after pairOps).store.count result [.int 1, .int 1] = 1 := by
    decide +kernel
  exact ⟨p, hp, healthy, q, hq, hmode, hfilters, hlinked,
    ⟨set, hset, Store.vacant_of_toList hempty⟩, hresult⟩

/-- While the demand set of a linked query with filters is empty, the query takes no part, whatever
was done before. Its result is empty as well if it makes no assumption, or none about a relation
that it reads twice. -/
theorem undemanded_idle {o : Compile.Options} {text : String} {p : Program}
    (compiles : Program.ofText? o text = some p) (ops : List Op)
    (healthy : ((ofProgram p).after ops).poisoned = false) {q : CompiledQuery}
    (hq : q ∈ p.queries) (hmode : q.mode = .dem) (hfilters : q.settings.filters = true)
    (linked : q.spec.join.isLinked q.params = true) {set : String}
    (hset : q.demandSet = some set) (empty : ((ofProgram p).after ops).store.Vacant set) :
    ((ofProgram p).after ops).Idle q ∧
      ∃ result, q.result = some result ∧
        ((q.settings.selfJoin ≠ .assumeDisjoint ∨ ∀ c, q.maintained = some c →
            ∀ rel, (c.join.occurrences rel).length ≤ 1) →
          ((ofProgram p).after ops).store.Vacant result) := by
  obtain ⟨d, sound, built⟩ := Program.built_of_text compiles
  obtain ⟨formed, hexact⟩ := (after_exact built sound ops).resolve_left (by simp [healthy])
  rw [built.demandSet_eq hq hset] at empty
  obtain ⟨idle, hresult⟩ := hexact.idle formed built sound hq hmode hfilters linked empty
  obtain ⟨_, _, _, _, _, _, hcompiled⟩ := built.mem_compiled hq
  rcases hcompiled.kept with unkept | ⟨plan, kept⟩
  · rw [unkept.demandSet] at hset
    cases hset
  · refine ⟨idle, q.name, kept.result, fun hassume => hresult _ kept.maintained ?_⟩
    exact hassume.imp_right fun honce => honce _ kept.maintained

def relayText : String :=
  "relation R(2); query S(a) = \x7bb : (a, b) in R\x7d; " ++
  "query Q(x) = \x7bz : (x, y) in R, z in S(y)\x7d;"

def relayOps : List Op :=
  [.add "R" [.int 1, .int 2], .demand "Q" [.int 1], .demand "S" [.int 3], .add "R" [.int 2, .int 3],
    .undemand "Q" [.int 1]]

set_option maxRecDepth 10000 in
theorem undemanded_idle_relay : ∃ p, Program.ofText? ⟨.default, .silent⟩ relayText = some p ∧
    ∃ q ∈ p.queries, q.name = "Q" ∧ ((ofProgram p).after relayOps).Idle q ∧
      ∃ result, q.result = some result ∧ ((ofProgram p).after relayOps).store.Vacant result := by
  obtain ⟨p, hp, healthy, q, hq, hname, hmode, hfilters, hlinked, hsub, set, hset, hempty⟩ : ∃ p,
      Program.ofText? ⟨.default, .silent⟩ relayText = some p ∧
      ((ofProgram p).after relayOps).poisoned = false ∧
      ∃ q ∈ p.queries, q.name = "Q" ∧ q.mode = .dem ∧ q.settings.filters = true ∧
        q.spec.join.isLinked q.params = true ∧ q.settings.selfJoin = .sub ∧
        ∃ set, q.demandSet = some set ∧
          (((ofProgram p).after relayOps).store.get? set).all (·.toList.isEmpty) = true := by
    decide +kernel
  obtain ⟨idle, result, hresult, hvacant⟩ := undemanded_idle hp relayOps healthy hq hmode hfilters
    hlinked hset (Store.vacant_of_toList hempty)
  exact ⟨p, hp, q, hq, hname, idle, result, hresult, hvacant (.inl (by simp [hsub]))⟩

end Session

end ViewUpkeep
