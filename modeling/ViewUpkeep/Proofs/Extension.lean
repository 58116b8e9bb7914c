import ViewUpkeep.Proofs.Reflection
import ViewUpkeep.Proofs.Strategies

/-!
More declarations. A query is lowered by what the names that it reads stand for, and declarations
that come later change none of that: they can move queries to other places in the order, but each
query is compiled with the same settings to the same relations and comprehensions.
-/
namespace ViewUpkeep

def Scope.AgreeOn (names : List String) (scope scope' : Scope) : Prop :=
  ∀ n ∈ names, scope.relation? n = scope'.relation? n ∧ scope.query? n = scope'.query? n

def Scope.Knows (scope : Scope) (name : String) : Prop :=
  (scope.relation? name).isSome = true ∨ (scope.query? name).isSome = true

/-! ### Clauses and the names that they read -/

namespace Lowering

variable {query : String} {mode : Mode} {scope scope' : Scope}

theorem clause_congr (n : Nat) {s : Spanned ClauseTerm}
    (h : scope.AgreeOn (QueryDecl.reads? s).toList scope') :
    clause ⟨query, mode, scope⟩ n s.node = clause ⟨query, mode, scope'⟩ n s.node := by
  unfold QueryDecl.reads? at h
  cases hnode : s.node with
  | cond t => rfl
  | member pattern range =>
    cases range with
    | singleton t => rfl
    | named name args =>
      rw [hnode] at h
      obtain ⟨hrelation, hquery⟩ := h name (List.mem_singleton_self name)
      cases args with
      | none =>
        have hnamed : named ⟨query, mode, scope⟩ name = named ⟨query, mode, scope'⟩ name := by
          funext lhs
          simp only [named, hrelation, hquery, Context.checkArity]
        simp only [clause, Context.check, hnamed]
      | some args =>
        have happlied : applied ⟨query, mode, scope⟩ name args =
            applied ⟨query, mode, scope'⟩ name args := by
          funext lhs
          simp only [applied, hrelation, hquery, Context.check, Context.checkArity]
        simp only [clause, Context.check, happlied]

theorem clauses_congr (n : Nat) {ss : List (Spanned ClauseTerm)}
    (h : scope.AgreeOn (ss.filterMap QueryDecl.reads?) scope') :
    clauses ⟨query, mode, scope⟩ n ss = clauses ⟨query, mode, scope'⟩ n ss := by
  induction ss generalizing n with
  | nil => rfl
  | cons s ss ih =>
    have hfirst : scope.AgreeOn (QueryDecl.reads? s).toList scope' := by
      intro name hname
      exact h name (List.mem_filterMap.mpr ⟨s, List.mem_cons_self, Option.mem_toList.mp hname⟩)
    have hrest : scope.AgreeOn (ss.filterMap QueryDecl.reads?) scope' := by
      intro name hname
      obtain ⟨t, ht, hreads⟩ := List.mem_filterMap.mp hname
      exact h name (List.mem_filterMap.mpr ⟨t, List.mem_cons_of_mem s ht, hreads⟩)
    simp only [clauses, clause_congr n hfirst, fun m => ih m hrest]

theorem query_congr (decl : QueryDecl) (mode : Mode) (h : scope.AgreeOn decl.reads scope') :
    Lowering.query decl mode scope = Lowering.query decl mode scope' := by
  have hclauses : clauses ⟨decl.name, mode, scope⟩ 0 decl.clauses =
      clauses ⟨decl.name, mode, scope'⟩ 0 decl.clauses := by
    apply clauses_congr
    intro name hname
    exact h name (List.mem_eraseDups.mpr hname)
  unfold Lowering.query
  simp only [Context.check, hclauses]

theorem clause_knows {n : Nat} {s : Spanned ClauseTerm} {out : Clause × Nat} {name : String}
    (h : clause ⟨query, mode, scope⟩ n s.node = .ok out) (hname : QueryDecl.reads? s = some name) :
    scope.Knows name := by
  unfold QueryDecl.reads? at hname
  cases hnode : s.node with
  | cond t =>
    rw [hnode] at hname
    cases hname
  | member pattern range =>
    rw [hnode] at h hname
    obtain ⟨_, _, h⟩ := bind_eq_ok.mp h
    cases range with
    | singleton t => cases hname
    | named rel args =>
      cases hname
      by_contra hunknown
      obtain ⟨hrelation, hquery⟩ := not_or.mp hunknown
      rw [Bool.not_eq_true, Option.isSome_eq_false_iff, Option.isNone_iff_eq_none]
        at hrelation hquery
      cases args <;> simp [named, applied, hrelation, hquery, bind, Except.bind] at h

theorem clauses_know {n : Nat} {ss : List (Spanned ClauseTerm)} {cs : List Clause}
    (h : clauses ⟨query, mode, scope⟩ n ss = .ok cs) :
    ∀ name ∈ ss.filterMap QueryDecl.reads?, scope.Knows name := by
  induction ss generalizing n cs with
  | nil => simp
  | cons s ss ih =>
    intro name hname
    obtain ⟨_, hfirst, h⟩ := bind_eq_ok.mp h
    obtain ⟨_, hrest, _⟩ := bind_eq_ok.mp h
    obtain ⟨t, ht, hreads⟩ := List.mem_filterMap.mp hname
    rcases List.mem_cons.mp ht with rfl | ht
    · exact clause_knows hfirst hreads
    · exact ih hrest name (List.mem_filterMap.mpr ⟨t, ht, hreads⟩)

theorem query_knows {decl : QueryDecl} {spec : Comprehension}
    (h : Lowering.query decl mode scope = .ok spec) : ∀ name ∈ decl.reads, scope.Knows name := by
  unfold Lowering.query at h
  dsimp only at h
  split at h
  · cases h
  · obtain ⟨_, _, h⟩ := bind_eq_ok.mp h
    obtain ⟨_, hclauses, _⟩ := bind_eq_ok.mp h
    intro name hname
    exact clauses_know hclauses name (List.mem_eraseDups.mp hname)

end Lowering

/-! ### Declarations -/

namespace Declarations

structure Within (d d' : Declarations) : Prop where
  relations : d.relations ⊆ d'.relations
  queries : d.queries ⊆ d'.queries

theorem within_insert (d : Declarations) (s : Statement) : d.Within (d.insert s) := by
  cases s <;> constructor <;> simp [insert]

theorem collectFrom_append (d : Declarations) (script more : Script) :
    collectFrom d (script ++ more) = (collectFrom d script).bind (collectFrom · more) := by
  induction script generalizing d with
  | nil => rfl
  | cons s rest ih =>
    simp only [List.cons_append, collectFrom]
    split
    · exact ih d
    · split
      · rfl
      · split
        · rfl
        · exact ih _

theorem ofScript_concat {script : Script} {s : Spanned Statement} {name : String}
    (hname : s.node.declares = some name) {d d' : Declarations} (h : ofScript script = .ok d)
    (h' : ofScript (script ++ [s]) = .ok d') :
    d.declares name = false ∧ breach? s.node = none ∧ d' = d.insert s.node := by
  unfold ofScript at h h'
  rw [collectFrom_append, h] at h'
  simp only [Except.bind, collectFrom, hname] at h'
  split at h'
  · cases h'
  · rename_i hfresh
    split at h'
    · cases h'
    · rename_i hbreach
      exact ⟨by simpa using hfresh, hbreach, (Except.ok.inj h').symm⟩

theorem Sound.find_relation {d : Declarations} (sound : d.Sound) {n : String}
    {info : RelationInfo} :
    d.relations.find? (·.name = n) = some info ↔ info ∈ d.relations ∧ info.name = n :=
  find_eq_some_iff_of_nodup_map (List.nodup_append.mp sound.nodup).1

theorem Sound.find_relation_within {d d' : Declarations} (sound : d.Sound) (sound' : d'.Sound)
    (within : d.Within d') {n : String}
    (hn : n ∈ d.relations.map (·.name) ++ d.queries.map (·.name)) :
    d.relations.find? (·.name = n) = d'.relations.find? (·.name = n) := by
  refine Option.ext fun info => ?_
  rw [sound.find_relation, sound'.find_relation]
  constructor
  · exact fun ⟨hinfo, hname⟩ => ⟨within.relations hinfo, hname⟩
  · rintro ⟨hinfo, rfl⟩
    rcases List.mem_append.mp hn with hn | hn
    · obtain ⟨other, hother, hname⟩ := List.mem_map.mp hn
      have heq : other = info :=
        List.inj_on_of_nodup_map (List.nodup_append.mp sound'.nodup).1
          (within.relations hother) hinfo hname
      exact ⟨heq ▸ hother, rfl⟩
    · obtain ⟨q, hq, hname⟩ := List.mem_map.mp hn
      exact absurd rfl ((List.nodup_append.mp sound'.nodup).2.2 info.name
        (List.mem_map_of_mem hinfo) info.name (hname ▸ List.mem_map_of_mem (within.queries hq)))

end Declarations

/-! ### Programs -/

structure CompiledQuery.Alike (q q' : CompiledQuery) : Prop where
  outline : q'.outline = q.outline
  settings : q'.settings = q.settings

namespace CompiledQuery.Alike

variable {q q' : CompiledQuery} (h : q.Alike q')

include h

theorem name : q'.name = q.name := (congrArg CompiledQuery.name h.outline :)

theorem params : q'.params = q.params := (congrArg CompiledQuery.params h.outline :)

theorem maintained : q'.maintained = q.maintained :=
  (congrArg CompiledQuery.maintained h.outline :)

theorem result : q'.result = q.result := (congrArg CompiledQuery.result h.outline :)

theorem demandSet : q'.demandSet = q.demandSet := (congrArg CompiledQuery.demandSet h.outline :)

theorem signature : q'.signature = q.signature := by
  rw [← show q'.outline.signature = q'.signature from rfl,
    ← show q.outline.signature = q.signature from rfl, h.outline]

end CompiledQuery.Alike

def Program.Extends (p p' : Program) : Prop := ∀ q ∈ p.queries, ∃ q' ∈ p'.queries, q.Alike q'

namespace Compile

variable {o : Options} {d d' : Declarations} {p p' : Program}

theorem Compiled.settings_eq {decl : QueryDecl} {scope scope' : Scope}
    {catalog catalog' : List RelationInfo} {q q' : CompiledQuery}
    (h : Compiled o decl scope catalog q) (h' : Compiled o decl scope' catalog' q') :
    q.settings = q'.settings := by
  obtain ⟨overrides, hoverrides, hsettings⟩ := h.settings
  obtain ⟨overrides', hoverrides', hsettings'⟩ := h'.settings
  rw [hoverrides] at hoverrides'
  cases hoverrides'
  rw [hsettings, hsettings']

theorem Built.find_signature (built : Built o d p) {qs : List CompiledQuery}
    (hqs : qs.Sublist p.queries) {n : String} {sig : Signature} :
    (qs.map (·.signature)).find? (·.name = n) = some sig ↔
      ∃ q ∈ qs, q.name = n ∧ q.signature = sig := by
  have hnames : (qs.map (·.signature)).map (·.name) = qs.map (·.name) := by
    rw [List.map_map]
    rfl
  have hnodup : ((qs.map (·.signature)).map (·.name)).Nodup := by
    rw [hnames]
    exact built.nodup_queries.sublist (hqs.map _)
  rw [find_eq_some_iff_of_nodup_map hnodup, List.mem_map]
  constructor
  · rintro ⟨⟨q, hq, rfl⟩, rfl⟩
    exact ⟨q, hq, rfl, rfl⟩
  · rintro ⟨q, hq, rfl, rfl⟩
    exact ⟨⟨q, hq, rfl⟩, rfl⟩

theorem Built.name_declared (built : Built o d p) {q : CompiledQuery} (hq : q ∈ p.queries) :
    q.name ∈ d.queries.map (·.name) := by
  obtain ⟨_, _, _, decl, hdecl, _, hcompiled⟩ := built.mem_compiled hq
  rw [hcompiled.name]
  exact List.mem_map_of_mem hdecl

theorem relation?_eq_none {scope : Scope} {n : String}
    (h : n ∉ scope.relations.map (·.name)) : scope.relation? n = none := by
  refine List.find?_eq_none.mpr fun info hinfo hname => h ?_
  rw [← of_decide_eq_true hname]
  exact List.mem_map_of_mem hinfo

theorem Built.agreeOn (built : Built o d p) (built' : Built o d' p') (sound : d.Sound)
    (sound' : d'.Sound) (within : d.Within d') (extend : p.Extends p')
    {before : List CompiledQuery} (hbefore : before.Sublist p'.queries) {names : List String}
    (knows : ∀ n ∈ names, Scope.Knows ⟨d.relations, p.queries.map (·.signature)⟩ n)
    (knows' : ∀ n ∈ names, Scope.Knows ⟨d'.relations, before.map (·.signature)⟩ n) :
    Scope.AgreeOn names ⟨d.relations, p.queries.map (·.signature)⟩
      ⟨d'.relations, before.map (·.signature)⟩ := by
  intro n hn
  have hpartner : ∀ q ∈ p.queries, q.name = n → ∀ q' ∈ before, q'.name = n →
      q.signature = q'.signature := by
    intro q hq hname q' hq' hname'
    obtain ⟨r, hr, alike⟩ := extend q hq
    have hsame : r.name = q'.name := alike.name.trans (hname.trans hname'.symm)
    rw [← List.inj_on_of_nodup_map built'.nodup_queries hr (hbefore.subset hq') hsame,
      alike.signature]
  have hquery : ∀ {sig}, Scope.query? ⟨d.relations, p.queries.map (·.signature)⟩ n = some sig →
      ∃ q ∈ p.queries, q.name = n ∧ q.signature = sig :=
    (built.find_signature (List.Sublist.refl _)).mp
  have hquery' : ∀ {sig}, Scope.query? ⟨d'.relations, before.map (·.signature)⟩ n = some sig →
      ∃ q ∈ before, q.name = n ∧ q.signature = sig := (built'.find_signature hbefore).mp
  constructor
  · refine sound.find_relation_within sound' within ?_
    rcases knows n hn with hrelation | hsig
    · obtain ⟨info, hinfo⟩ := Option.isSome_iff_exists.mp hrelation
      obtain ⟨hmem, rfl⟩ := sound.find_relation.mp hinfo
      exact List.mem_append_left _ (List.mem_map_of_mem hmem)
    · obtain ⟨sig, hsig⟩ := Option.isSome_iff_exists.mp hsig
      obtain ⟨q, hq, rfl, _⟩ := hquery hsig
      exact List.mem_append_right _ (built.name_declared hq)
  · refine Option.ext fun sig => ⟨fun hsig => ?_, fun hsig => ?_⟩
    · obtain ⟨q, hq, hname, rfl⟩ := hquery hsig
      obtain ⟨r, hr, alike⟩ := extend q hq
      have hnone : Scope.relation? ⟨d'.relations, before.map (·.signature)⟩ n = none := by
        apply relation?_eq_none
        rw [← hname, ← alike.name]
        exact (built'.query_name sound' hr).2
      have hsome := (knows' n hn).resolve_left (by simp [hnone])
      obtain ⟨sig', hsig'⟩ := Option.isSome_iff_exists.mp hsome
      obtain ⟨q', hq', hname', rfl⟩ := hquery' hsig'
      rw [hsig', hpartner q hq hname q' hq' hname']
    · obtain ⟨q', hq', hname', rfl⟩ := hquery' hsig
      have hnone : Scope.relation? ⟨d.relations, p.queries.map (·.signature)⟩ n = none := by
        apply relation?_eq_none
        intro hbase
        refine (built'.query_name sound' (hbefore.subset hq')).2 ?_
        rw [hname']
        exact List.map_subset _ within.relations hbase
      have hsome := (knows n hn).resolve_left (by simp [hnone])
      obtain ⟨sig, hsig⟩ := Option.isSome_iff_exists.mp hsome
      obtain ⟨q, hq, hname, rfl⟩ := hquery hsig
      rw [hsig, hpartner q hq hname q' hq' hname']

/-- A program of more declarations extends one of fewer, in whatever order it was compiled. -/
theorem Built.extends (built : Built o d p) (built' : Built o d' p') (sound : d.Sound)
    (sound' : d'.Sound) (within : d.Within d')
    (complete : ∀ decl ∈ d'.queries, decl.name ∈ p'.queries.map (·.name)) : p.Extends p' := by
  induction built with
  | start =>
    intro q hq
    cases hq
  | @install p decl q built hdecl fresh hq ih =>
    intro r hr
    rcases List.mem_append.mp hr with hr | hr
    · exact ih r hr
    · cases List.mem_singleton.mp hr
      obtain ⟨q', hq', hname⟩ := List.mem_map.mp (complete decl (within.queries hdecl))
      obtain ⟨before, after, hsplit, decl', hdecl', catalog, hcompiled⟩ := built'.mem_compiled hq'
      have hsame : decl' = decl := by
        refine List.inj_on_of_nodup_map (List.nodup_append.mp sound'.nodup).2.1 hdecl'
          (within.queries hdecl) ?_
        rw [← hcompiled.name, hname]
      subst hsame
      have hsettings := hq.settings_eq hcompiled
      have hagree := built.agreeOn built' sound sound' within ih
        (show before.Sublist p'.queries by simp [hsplit]) (Lowering.query_knows hq.spec)
        (Lowering.query_knows hcompiled.spec)
      have hspec : q.spec = q'.spec := by
        have hlowered := hq.spec
        rw [Lowering.query_congr decl' _ hagree, hsettings, hcompiled.spec] at hlowered
        exact (Except.ok.inj hlowered).symm
      have houtline := hq.outline_eq_of_spec hcompiled rfl rfl hspec
      exact ⟨q', hq', houtline.symm, hsettings.symm⟩

theorem prepare_declarations {script : Script} {decls : List QueryDecl}
    (h : prepare script = .ok (d, decls)) : Declarations.ofScript script = .ok d := by
  obtain ⟨e, he, h⟩ := bind_eq_ok.mp h
  obtain ⟨_, _, h⟩ := bind_eq_ok.mp h
  cases h
  exact he

theorem extends_of_concat {script : Script} {s : Spanned Statement} {name : String}
    (named : ∀ t ∈ script ++ [s], t.node.WellNamed) (declares : s.node.declares = some name)
    (h : Program.ofScript o script = .ok p) (h' : Program.ofScript o (script ++ [s]) = .ok p') :
    ∃ d d', d.Sound ∧ d'.Sound ∧ Built o d p ∧ Built o d' p' ∧ d.Within d' ∧ p.Extends p' := by
  obtain ⟨d, decls, hprepare, sound, built, _⟩ :=
    ofScript_built (fun t ht => named t (List.mem_append_left _ ht)) h
  obtain ⟨d', decls', hprepare', sound', built', hnames⟩ := ofScript_built named h'
  have hinsert := (Declarations.ofScript_concat declares (prepare_declarations hprepare)
    (prepare_declarations hprepare')).2.2
  have within : d.Within d' := hinsert ▸ d.within_insert s.node
  refine ⟨d, d', sound, sound', built, built', within, ?_⟩
  refine built.extends built' sound sound' within fun decl hdecl => ?_
  rw [hnames]
  exact List.mem_map_of_mem ((prepare_ordered hprepare').perm.mem_iff.mpr hdecl)

/-! ### One relation more -/

section Wider

variable {info : RelationInfo} (fresh : d.declares info.name = false)

include fresh

end Wider

end Compile

end ViewUpkeep
