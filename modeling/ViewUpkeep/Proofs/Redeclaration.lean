import ViewUpkeep.Proofs.Consoles
import ViewUpkeep.Proofs.Exactness
import ViewUpkeep.Proofs.Faults

/-!
Declarations preserve what was there. A session that replays another one under more declarations has
the same base rows and demands. What a query kept by exact strategies makes of them does not depend
on the queries declared after it: these can demand more of it, but for what was demanded before it
has the same rows with the same counts.
-/
namespace ViewUpkeep

theorem CompiledQuery.Alike.stores {q q' : CompiledQuery} (alike : q.Alike q') {stored : Facts}
    (stores : q'.Stores stored) : q.Stores stored := by
  have hstores : q'.outline.Stores stored := ⟨stores.supports, stores.result, stores.entries⟩
  rw [alike.outline] at hstores
  exact ⟨hstores.supports, hstores.result, hstores.entries⟩

namespace Session

variable {o : Compile.Options} {d d' : Declarations} {p p' : Program} {s t : Session}
  {q : CompiledQuery}

/-! ### Exact queries -/

/-- A session of a program of sound declarations that is not poisoned: its rows fit, its demands are
noted, and its tracked relations count what they should. -/
structure Settled (o : Compile.Options) (d : Declarations) (p : Program) (s : Session) : Prop where
  built : Compile.Built o d p
  sound : d.Sound
  healthy : s.poisoned = false
  fitted : s.Fitted p
  noted : s.Noted
  exact : s.Exact d p

theorem Settled.formed (settled : s.Settled o d p) : s.Formed p := settled.fitted.toFormed

theorem after_settled (built : Compile.Built o d p) (sound : d.Sound) {ops : List Op}
    (hs : s = (ofProgram p).after ops) (healthy : s.poisoned = false) : s.Settled o d p := by
  subst hs
  have hopen : ¬ ((ofProgram p).after ops).poisoned = true := by simp [healthy]
  exact ⟨built, sound, healthy, (after_fitted built sound ops).resolve_left hopen,
    after_noted (built.nodup_catalog sound) healthy,
    ((after_exact built sound ops).resolve_left hopen).2⟩

theorem Settled.count_own (settled : s.Settled o d p) (hq : q ∈ p.queries) {v : View}
    (hv : v ∈ q.ownViews) (hexact : v.Exact) (row : Row) :
    (s.store.count v.target row : ℕ∞) = v.spec.keeps s.store.Has row := by
  have hprogram := settled.formed.program
  rw [settled.exact.count_eq (settled.built.own_tracked settled.sound hq hv hexact), hprogram,
    need_own settled.built settled.sound hprogram hq hv]

theorem Settled.count_result (settled : s.Settled o d p) (hq : q ∈ p.queries)
    (strategy : q.settings.selfJoin ≠ .assumeDisjoint) {c : Comprehension}
    (hc : q.maintained = some c) (row : Row) :
    (s.store.count q.name row : ℕ∞) = c.keeps s.store.Has row :=
  settled.count_own hq (CompiledQuery.maintained_mem_ownViews hc) (.inl strategy) row

theorem Settled.count_set (settled : s.Settled o d p) (hq : q ∈ p.queries) {u : String}
    (hu : q.demandSet = some u) (params : Row) :
    (s.store.count u params : ℕ∞) = s.wanted q u params := by
  have hprogram := settled.formed.program
  rw [settled.exact.count_eq (settled.built.set_tracked settled.sound hq hu), hprogram,
    need_set settled.built settled.sound hprogram hq hu]

/-- Around an exact query everything is stored as it should be, whatever its neighbours do. -/
theorem Settled.stores (settled : s.Settled o d p) (hq : q ∈ p.queries)
    (strategy : q.maintained.isSome → q.settings.selfJoin ≠ .assumeDisjoint) :
    q.Stores s.store.Has := by
  have hpresent := settled.formed.sound.present_count
  rw [← hpresent]
  have hsets : ∀ r ∈ p.queries, ∀ u, r.demandSet = some u → ∀ row, (s.store.count u row : ℕ∞) =
      s.demandCount r.name row +
        ((p.entries u).map fun e => e.spec.multiplicity (present s.store.count) row).sum := by
    intro r hr u hu row
    rw [hpresent, settled.count_set hr hu, wanted, settled.formed.program]
  refine settled.built.stores_of settled.sound hq ?_ ?_ hsets
  · intro t ht hentry row
    rw [hpresent]
    exact settled.count_own hq (CompiledQuery.support_mem_ownViews ht hentry)
      (settled.built.support_exact settled.sound hq ht _) row
  · intro c hc row
    rw [hpresent]
    exact settled.count_result hq (strategy (by simp [hc])) hc row

/-! ### Rows for parameters -/

theorem keptRows_eq (sound : s.store.Sound)
    (lengths : ∀ row, s.store.Has q.name row → row.length = q.arity) {params : Row}
    (hlength : q.params.length = params.length) :
    s.keptRows q params = Row.suffixes (s.sortedRows q.name) params := by
  unfold keptRows sortedRows
  cases hget : s.store.get? q.name with
  | none => rfl
  | some r =>
    have hsound := sound.get? hget
    have hrows : ∀ row ∈ r.toList, row.length = q.arity :=
      fun row hrow => lengths row ((Store.has_iff hget row).mpr hrow)
    dsimp only
    split
    · rename_i hempty
      rw [List.isEmpty_iff.mp hempty]
      simp [Row.suffixes, Relation.sortedRows]
    · have hmem : ∀ row, row ∈ r.lookup q.paramMask params ↔
          row ∈ r.toList ∧ row.take params.length = params := by
        intro row
        rw [← hlength]
        exact Relation.mem_lookup_first hsound hrows _ _ row
      have hnodup : ((r.lookup q.paramMask params).map (·.drop params.length)).Nodup := by
        refine List.Nodup.map_on ?_ ?_
        · intro a ha b hb hab
          rw [← Row.append_drop_of_take ((hmem a).mp ha).2,
            ← Row.append_drop_of_take ((hmem b).mp hb).2, hab]
        · exact (hsound.lookup_perm _ _).nodup_iff.mpr (hsound.nodup.filter _)
      refine (Row.sort_ascending hnodup).ext
        ((Row.sort_ascending hsound.nodup).suffixes params) fun row => ?_
      rw [Row.mem_sort, Row.mem_suffixes, List.mem_map, Relation.sortedRows, Row.mem_sort]
      constructor
      · rintro ⟨x, hx, rfl⟩
        obtain ⟨hin, htake⟩ := (hmem x).mp hx
        rwa [Row.append_drop_of_take htake]
      · exact fun hin => ⟨params ++ row, (hmem _).mpr ⟨hin, by simp⟩, by simp⟩

theorem Fitted.result_length (fitted : s.Fitted p) (built : Compile.Built o d p) (sound : d.Sound)
    (hq : q ∈ p.queries) (hresult : q.result = some q.name) {row : Row}
    (h : s.store.Has q.name row) : row.length = q.arity := by
  obtain ⟨info, hinfo, hname, hlength⟩ := fitted.rows q.name row h
  have hmem : RelationInfo.derived q.name q.arity (.result q.name) q.counted ∈ p.catalog := by
    refine built.query_relations_subset sound hq ?_
    simp [CompiledQuery.relations, hresult]
  have heq := List.inj_on_of_nodup_map (built.nodup_catalog sound) hinfo hmem hname
  rw [← hlength, heq]
  rfl

/-! ### Queries among more queries -/

section Extended

variable (settled : s.Settled o d p) (settled' : t.Settled o d' p') (extend : p.Extends p')
  (strategies : ∀ q ∈ p.queries, q.maintained.isSome → q.settings.selfJoin ≠ .assumeDisjoint)

include settled' extend strategies

theorem stores_of_extends : ∀ q ∈ p.queries, q.Stores t.store.Has := by
  intro q hq
  obtain ⟨q', hq', alike⟩ := extend q hq
  refine alike.stores (settled'.stores hq' ?_)
  rw [alike.maintained, alike.settings]
  exact strategies q hq

include settled

theorem set_of_extends
    (base : ∀ rel ∈ d.relations.map (·.name), ∀ row, s.store.Has rel row → t.store.Has rel row)
    (demands : ∀ query params, s.demandCount query params ≤ t.demandCount query params)
    (hq : q ∈ p.queries) (hdem : q.settings.mode = .dem) {row : Row}
    (h : s.store.Has (Demand.setName q.name) row) : t.store.Has (Demand.setName q.name) row := by
  have hstores : ∀ r ∈ p.queries, r.Stores s.store.Has :=
    fun r hr => settled.stores hr (strategies r hr)
  refine (settled.built.demand_le settled.sound hstores
    (stores_of_extends settled' extend strategies) base ?_
    (List.nil_append _).symm q hq).2 hdem row h
  intro r hr hrdem row hrow
  have hset := settled.built.demandSet_of_dem hr hrdem
  have hcount := settled.count_set hr hset row
  rw [wanted, settled.formed.program] at hcount
  have hpos := (settled.formed.sound.count_pos_iff _ row).mpr hrow
  refine (Compile.Built.demanded_cases hcount hpos).imp_left fun hasked => ?_
  obtain ⟨r', hr', alike⟩ := extend r hr
  have hle : (t.demandCount r'.name row : ℕ∞) ≤ t.store.count (Demand.setName r.name) row :=
    settled'.count_set hr' (alike.demandSet.trans hset) row ▸ le_self_add
  rw [alike.name] at hle
  exact (settled'.formed.sound.count_pos_iff _ row).mp
    (hasked.trans_le ((demands r.name row).trans (by exact_mod_cast hle)))

theorem count_of_extends
    (base : ∀ rel ∈ d.relations.map (·.name), ∀ row, s.store.Has rel row ↔ t.store.Has rel row)
    (demands : ∀ query params, s.demandCount query params = t.demandCount query params)
    (hq : q ∈ p.queries) (hmode : q.settings.mode ≠ .batch) {row : Row}
    (demanded : q.settings.mode = .dem →
      s.store.Has (Demand.setName q.name) (row.take q.params.length)) :
    t.store.count q.name row = s.store.count q.name row := by
  have hstores : ∀ r ∈ p.queries, r.Stores s.store.Has :=
    fun r hr => settled.stores hr (strategies r hr)
  obtain ⟨earlier, later, hsplit, _⟩ := settled.built.mem_compiled hq
  obtain ⟨_, _, _, _, _, hmaintained, _⟩ := settled.built.planned settled.sound hsplit hmode
  obtain ⟨q', hq', alike⟩ := extend q hq
  have hstrategy := strategies q hq (by simp [hmaintained])
  have hcount := settled.count_result hq hstrategy hmaintained row
  have hcount' := settled'.count_result hq' (by rwa [alike.settings])
    (alike.maintained.trans hmaintained) row
  have hboth : q.settings.mode = .dem →
      (s.store.Has (Demand.setName q.name) (row.take q.params.length) ↔
        t.store.Has (Demand.setName q.name) (row.take q.params.length)) := by
    intro hdem
    have hset := demanded hdem
    exact iff_of_true hset (set_of_extends settled settled' extend strategies
      (fun rel hrel row => (base rel hrel row).mp) (fun query params => (demands query params).le)
      hq hdem hset)
  rw [settled.built.keeps_same settled.sound hstores
    (stores_of_extends settled' extend strategies) base hq hmaintained hboth, ← hcount',
    alike.name] at hcount
  exact_mod_cast hcount.symm

end Extended

/-! ### Answers -/

theorem results_eq (settled : s.Settled o d p) (hq : q ∈ p.queries)
    (hresult : q.result = some q.name) : s.results q.name = .ok (s.sortedRows q.name) := by
  unfold results
  rw [settled.healthy, compiled_eq settled.built settled.formed.program hq]
  simp [bind, Except.bind, hresult, pure, Except.pure]

theorem query_eq (settled : s.Settled o d p) (hq : q ∈ p.queries)
    (hresult : q.result = some q.name) (hmode : q.settings.mode = .dem) {params : Row}
    (hlength : q.params.length = params.length)
    (hdemanded : s.isDemanded q.name params = .ok true) :
    s.query q.name params = (s, .ok (Row.suffixes (s.sortedRows q.name) params)) := by
  have hlengths : ∀ row, s.store.Has q.name row → row.length = q.arity :=
    fun row h => settled.fitted.result_length settled.built settled.sound hq hresult h
  rw [← keptRows_eq settled.formed.sound hlengths hlength]
  unfold Session.query
  rw [settled.healthy, compiled_eq settled.built settled.formed.program hq]
  simp [checkArity, hlength, CompiledQuery.mode, hmode, hdemanded]

/-- A session that goes on with what another one has: the base rows, the demands of the user, the
rows of the queries that are kept in full, and those that are demanded of the others. -/
structure Preserves (s t : Session) : Prop where
  base : ∀ info ∈ s.program.bases, t.sortedRows info.name = s.sortedRows info.name
  demands : t.userDemands = s.userDemands
  full : ∀ q ∈ s.program.queries, q.settings.mode = .inc →
    (∃ rows, s.results q.name = .ok rows ∧ t.results q.name = .ok rows) ∧
      ∀ row, t.store.count q.name row = s.store.count q.name row
  demanded : ∀ q ∈ s.program.queries, q.settings.mode = .dem → ∀ params,
    s.isDemanded q.name params = .ok true → t.isDemanded q.name params = .ok true ∧
      (∃ rows, s.query q.name params = (s, .ok rows) ∧ t.query q.name params = (t, .ok rows)) ∧
      ∀ row, t.store.count q.name (params ++ row) = s.store.count q.name (params ++ row)

theorem sortedRows_ext (sound : s.store.Sound) (sound' : t.store.Sound) {rel : String}
    (h : ∀ row, s.store.Has rel row ↔ t.store.Has rel row) :
    t.sortedRows rel = s.sortedRows rel := by
  refine (sortedRows_ascending sound' rel).ext (sortedRows_ascending sound rel) fun row => ?_
  rw [mem_sortedRows, mem_sortedRows, h]

theorem has_of_count (sound : s.store.Sound) (sound' : t.store.Sound) {rel : String} {row : Row}
    (h : t.store.count rel row = s.store.count rel row) :
    s.store.Has rel row ↔ t.store.Has rel row := by
  rw [← sound.count_pos_iff, ← sound'.count_pos_iff, h]

theorem Settled.result_eq (settled : s.Settled o d p) (hq : q ∈ p.queries)
    (hmode : q.settings.mode ≠ .batch) : q.result = some q.name := by
  obtain ⟨_, _, _, _, _, _, hcompiled⟩ := settled.built.mem_compiled hq
  rcases hcompiled.kept with unkept | ⟨plan, kept⟩
  · exact absurd unkept.mode hmode
  · exact kept.result

section Preserved

variable (settled : s.Settled o d p) (settled' : t.Settled o d' p') (extend : p.Extends p')
  (strategies : ∀ q ∈ p.queries, q.maintained.isSome → q.settings.selfJoin ≠ .assumeDisjoint)
  (base : ∀ rel ∈ d.relations.map (·.name), ∀ row, s.store.Has rel row ↔ t.store.Has rel row)
  (demands : ∀ query params, s.demandCount query params = t.demandCount query params)

include settled settled' extend strategies base demands

theorem full_preserved (hq : q ∈ p.queries) (hinc : q.settings.mode = .inc) :
    (∃ rows, s.results q.name = .ok rows ∧ t.results q.name = .ok rows) ∧
      ∀ row, t.store.count q.name row = s.store.count q.name row := by
  have hmode : q.settings.mode ≠ .batch := by simp [hinc]
  have hcount : ∀ row, t.store.count q.name row = s.store.count q.name row := by
    intro row
    refine count_of_extends settled settled' extend strategies base demands hq hmode fun hdem => ?_
    rw [hinc] at hdem
    cases hdem
  have hresult := settled.result_eq hq hmode
  refine ⟨⟨_, results_eq settled hq hresult, ?_⟩, hcount⟩
  obtain ⟨q', hq', alike⟩ := extend q hq
  have hanswer := results_eq settled' hq' (by rw [alike.result, hresult, alike.name])
  have hsame : t.sortedRows q.name = s.sortedRows q.name :=
    sortedRows_ext settled.formed.sound settled'.formed.sound fun row =>
      has_of_count settled.formed.sound settled'.formed.sound (hcount row)
  rwa [alike.name, hsame] at hanswer

theorem demanded_preserved (hq : q ∈ p.queries) (hdem : q.settings.mode = .dem) {params : Row}
    (hdemanded : s.isDemanded q.name params = .ok true) :
    t.isDemanded q.name params = .ok true ∧
      (∃ rows, s.query q.name params = (s, .ok rows) ∧ t.query q.name params = (t, .ok rows)) ∧
      ∀ row, t.store.count q.name (params ++ row) = s.store.count q.name (params ++ row) := by
  have hmode : q.settings.mode ≠ .batch := by simp [hdem]
  have hprogram := settled.formed.program
  have hset := settled.built.demandSet_of_dem hq hdem
  have hlength : q.params.length = params.length := by
    obtain ⟨_, htarget, _⟩ := bind_eq_ok.mp hdemanded
    obtain ⟨r, hr, hname, _, hlength⟩ := demandTarget_eq_ok htarget
    rw [hprogram] at hr
    rwa [← List.inj_on_of_nodup_map settled.built.nodup_queries hr hq hname]
  have hthere : s.store.Has (Demand.setName q.name) params := by
    rw [isDemanded_eq settled.built hprogram hq hset hlength] at hdemanded
    exact Except.ok.inj hdemanded
  have hthere' := set_of_extends settled settled' extend strategies
    (fun rel hrel row => (base rel hrel row).mp) (fun query params => (demands query params).le)
    hq hdem hthere
  obtain ⟨q', hq', alike⟩ := extend q hq
  have hlength' : q'.params.length = params.length := by rw [alike.params, hlength]
  have hdemanded' : t.isDemanded q'.name params = .ok true := by
    rw [isDemanded_eq settled'.built settled'.formed.program hq' (alike.demandSet.trans hset)
      hlength']
    exact congrArg Except.ok hthere'
  have hcount : ∀ row, t.store.count q.name (params ++ row) =
      s.store.count q.name (params ++ row) := by
    intro row
    refine count_of_extends settled settled' extend strategies base demands hq hmode fun _ => ?_
    rwa [hlength, List.take_left' rfl]
  have hresult := settled.result_eq hq hmode
  have hanswer := query_eq settled' hq' (by rw [alike.result, hresult, alike.name])
    (by rw [alike.settings, hdem]) hlength' hdemanded'
  have hsame : Row.suffixes (t.sortedRows q.name) params =
      Row.suffixes (s.sortedRows q.name) params := by
    refine ((sortedRows_ascending settled'.formed.sound q.name).suffixes params).ext
      ((sortedRows_ascending settled.formed.sound q.name).suffixes params) fun row => ?_
    rw [Row.mem_suffixes, Row.mem_suffixes, mem_sortedRows, mem_sortedRows,
      has_of_count settled.formed.sound settled'.formed.sound (hcount row)]
  rw [alike.name] at hdemanded' hanswer
  rw [hsame] at hanswer
  exact ⟨hdemanded', ⟨_, query_eq settled hq hresult hdem hlength hdemanded, hanswer⟩, hcount⟩

end Preserved

theorem replay_preserves (built : Compile.Built o d p) (built' : Compile.Built o d' p')
    (sound : d.Sound) (sound' : d'.Sound) (within : d.Within d') (extend : p.Extends p')
    (strategies : ∀ q ∈ p.queries, q.maintained.isSome → q.settings.selfJoin ≠ .assumeDisjoint)
    {ops : List Op} (hs : s = (ofProgram p).after ops) (healthy : s.poisoned = false)
    (h : (ofProgram p').attempt (replayOf s.baseRows s.asked) = .ok t) : s.Preserves t := by
  have settled := after_settled built sound hs healthy
  have settled' := after_settled built' sound' (after_of_attempt h) (attempt_poisoned h)
  have hbased := built.based sound
  have hmirrors : s.Mirrors p (Tables.after p.bases ops) := by
    rw [hs] at healthy ⊢
    exact (after_mirrors hbased ops).2 healthy
  have hbases : p.bases ⊆ p'.bases := by
    intro info hinfo
    rw [built.mem_bases sound] at hinfo
    rw [built'.mem_bases sound']
    exact within.relations hinfo
  have hrows := (replay_mirrors hbased (built'.based sound') settled.formed hmirrors hbases
    (List.Subset.refl _) h).2
  have base : ∀ rel ∈ d.relations.map (·.name), ∀ row,
      s.store.Has rel row ↔ t.store.Has rel row := by
    intro rel hrel row
    obtain ⟨info, hinfo, rfl⟩ := List.mem_map.mp hrel
    have hinfo := (built.mem_bases sound).mpr hinfo
    rw [hrows info (hbases hinfo), mem_baseRows settled.formed hbased.nodup]
    exact (and_iff_right (List.mem_map_of_mem hinfo)).symm
  have demands : ∀ query params, s.demandCount query params = t.demandCount query params := by
    intro query params
    rw [attempt_demandCount h, count_asked settled.noted]
    exact (Nat.zero_add _).symm
  refine ⟨?_, (userDemands_congr settled.noted settled'.noted demands).symm, ?_, ?_⟩
  · intro info hinfo
    rw [settled.formed.program, built.mem_bases sound] at hinfo
    exact sortedRows_ext settled.formed.sound settled'.formed.sound
      (base info.name (List.mem_map_of_mem hinfo))
  · intro q hq
    rw [settled.formed.program] at hq
    exact full_preserved settled settled' extend strategies base demands hq
  · intro q hq hdem params
    rw [settled.formed.program] at hq
    exact demanded_preserved settled settled' extend strategies base demands hq hdem

end Session

namespace Console

/-- A declaration preserves what a console has. If it fails, nothing changes; if it does not, the
new session goes on with what the old one has. -/
theorem declare_preserves {settings : Settings} {c : Console} (reachable : Reachable settings c)
    (healthy : c.session.poisoned = false)
    (strategies : c.session.program.KeptBy [.sub, .aug, .das]) {s : Spanned Statement}
    (written : Statement.Written s) {name : String} (declares : s.node.declares = some name)
    (kind : String) :
    (∀ e, (c.declare s kind name).2 = .error e → (c.declare s kind name).1 = c) ∧
    ∀ r, (c.declare s kind name).2 = .ok r →
      c.session.Preserves (c.declare s kind name).1.session := by
  refine ⟨fun e => declare_of_error, fun r hok => ?_⟩
  obtain ⟨p, ops, runs⟩ := reachable.runs
  obtain ⟨p', runs', hattempt, hdeclarations, hsettings⟩ := runs.declare written.wellNamed hok
  have named := runs'.named
  have compiles := runs'.compiles
  rw [hdeclarations] at named compiles
  rw [hsettings] at compiles
  obtain ⟨d, d', sound, sound', built, built', within, extend⟩ :=
    Compile.extends_of_concat named declares runs.compiles compiles
  rw [(Session.after_settled built sound runs.session healthy).formed.program] at strategies
  exact Session.replay_preserves built built' sound sound' within extend
    (strategies.exact (by decide)) runs.session healthy hattempt

def sampleConsole : Console :=
  ((start .default).execute (sampleText "" ++ " add R(1, 1); set M(1) = 5; demand S(1);")).1

def sampleDeclarations : String :=
  "query T = \x7b(x, z) : (x, y) in R, z in S(y)\x7d; relation R(3);"

set_option maxRecDepth 10000 in
theorem declare_preserves_sample : ∃ s s', Reachable .default sampleConsole ∧
    sampleConsole.session.poisoned = false ∧
    sampleConsole.session.program.KeptBy [.sub, .aug, .das] ∧
    Statement.Written s ∧ s.node.declares = some "T" ∧
    Statement.Written s' ∧ s'.node.declares = some "R" ∧
    (sampleConsole.declare s "query" "T").2 = .ok (.declared "query" "T") ∧
    sampleConsole.session.results "Q" = .ok [[.int 1, .int 5]] ∧
    sampleConsole.session.Preserves (sampleConsole.declare s "query" "T").1.session ∧
    (sampleConsole.declare s' "relation" "R").2 =
      .error (.compile (.duplicateDefinition "R")) ∧
    (sampleConsole.declare s' "relation" "R").1 = sampleConsole := by
  obtain ⟨script, hscript, ⟨s, hs, hT, hok⟩, ⟨s', hs', hR, herror⟩, healthy, strategies, hrows⟩ :
      ∃ script, Script.ofText sampleDeclarations = .ok script ∧
        (∃ s ∈ script, s.node.declares = some "T" ∧
          (sampleConsole.declare s "query" "T").2 = .ok (.declared "query" "T")) ∧
        (∃ s' ∈ script, s'.node.declares = some "R" ∧
          (sampleConsole.declare s' "relation" "R").2 =
            .error (.compile (.duplicateDefinition "R"))) ∧
        sampleConsole.session.poisoned = false ∧
        sampleConsole.session.program.KeptBy [.sub, .aug, .das] ∧
        sampleConsole.session.results "Q" = .ok [[.int 1, .int 5]] := by
    decide +kernel
  have written : ∀ t ∈ script, Statement.Written t := fun t ht => ⟨_, script, hscript, ht⟩
  have reachable : Reachable .default sampleConsole := Reachable.start.execute _
  exact ⟨s, s', reachable, healthy, strategies, written s hs, hT, written s' hs', hR, hok, hrows,
    (declare_preserves reachable healthy strategies (written s hs) hT "query").2 _ hok, herror,
    (declare_preserves reachable healthy strategies (written s' hs') hR "relation").1 _ herror⟩

end Console

end ViewUpkeep
