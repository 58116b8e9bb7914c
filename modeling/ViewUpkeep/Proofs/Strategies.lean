import ViewUpkeep.Proofs.Options

/-!
Outlines: what is left of scripts, settings and programs when nothing is said about relations that
stand several times in one join. Scripts of one outline are compiled to programs of one outline,
with the same relations, the same supports and the same comprehensions to keep.
-/
namespace ViewUpkeep

/-! ### Scripts -/

def QueryDecl.outline (q : QueryDecl) : QueryDecl :=
  { q with
    result := ⟨q.result.node, ⟨0, 0⟩⟩
    clauses := q.clauses.map fun c => ⟨c.node, ⟨0, 0⟩⟩
    options := q.options.filter fun option => option.1 ≠ "selfjoin" }

def Statement.outline : Statement → Statement
  | .query q => .query q.outline
  | s => s

def Script.outline (s : Script) : Script := s.map fun t => ⟨t.node.outline, ⟨0, 0⟩⟩

theorem Script.outline_eq (s : Script) : s.outline = s.without "selfjoin" := by
  have hstatement : ∀ t : Statement, t.outline = t.without "selfjoin" := by
    intro t
    cases t <;> rfl
  simp only [outline, without, hstatement]

def Declarations.outline (d : Declarations) : Declarations :=
  ⟨d.relations, d.queries.map QueryDecl.outline⟩

theorem Compile.prepare_outline {script : Script} {d : Declarations} {decls : List QueryDecl}
    (h : prepare script = .ok (d, decls)) :
    prepare script.outline = .ok (d.outline, decls.map QueryDecl.outline) := by
  rw [script.outline_eq]
  exact prepare_without h

/-! ### Settings -/

def Overrides.outline (o : Overrides) : Overrides := { o with selfJoin := none }

def Settings.outline (s : Settings) : Settings := { s with selfJoin := .sub }

def Compile.Options.outline (o : Compile.Options) : Compile.Options :=
  { o with settings := o.settings.outline }

theorem Overrides.outline_forgets : Forgets "selfjoin" outline := by
  constructor
  · intro o o' value h
    rw [set, if_pos rfl] at h
    obtain ⟨_, _, h⟩ := bind_eq_ok.mp h
    cases h
    rfl
  · intro o o' name value hname h
    unfold set at h ⊢
    rw [if_neg hname] at h ⊢
    split_ifs at h ⊢ with hrc himpl hfilters hinstrument
    · exact put_eq_ok h fun _ => rfl
    · exact put_eq_ok h fun _ => rfl
    · exact put_eq_ok h fun _ => rfl
    · exact put_eq_ok h fun _ => rfl

theorem Settings.resolve_outline (s : Settings) (o : Overrides) (hasParams : Bool) :
    (s.resolve o hasParams).outline = s.outline.resolve o.outline hasParams := by
  have hmode : (s.outline.override o.outline).mode = (s.override o).mode := rfl
  unfold resolve
  dsimp only
  rw [hmode]
  split <;> rfl

/-! ### Programs -/

/-- What of a compiled query does not depend on its strategy, as far as it is about stored rows. -/
def CompiledQuery.outline (q : CompiledQuery) : CompiledQuery :=
  { q with settings := q.settings.outline, handlers := [], lookups := [] }

def Program.outline (p : Program) : Program := ⟨p.catalog, [], p.queries.map CompiledQuery.outline⟩

namespace Compile

variable {o o' : Options} {decl decl' : QueryDecl} {scope scope' : Scope}
  {catalog catalog' : List RelationInfo} {q q' : CompiledQuery}

theorem Compiled.settings_outline (h : Compiled o decl scope catalog q) :
    ∃ overrides, Overrides.empty.setAll decl.outline.options = .ok overrides ∧
      q.settings.outline = o.outline.settings.resolve overrides (!decl.outline.params.isEmpty) := by
  obtain ⟨overrides, hoverrides, hsettings⟩ := h.settings
  refine ⟨overrides.outline, Overrides.outline_forgets.setAll hoverrides, ?_⟩
  rw [hsettings, Settings.resolve_outline]
  rfl

theorem Compiled.settings_same (h : Compiled o decl scope catalog q)
    (h' : Compiled o' decl' scope' catalog' q') (options : o.outline = o'.outline)
    (decls : decl.outline = decl'.outline) : q.settings.outline = q'.settings.outline := by
  obtain ⟨overrides, hoverrides, hsettings⟩ := h.settings_outline
  obtain ⟨overrides', hoverrides', hsettings'⟩ := h'.settings_outline
  rw [← decls, hoverrides] at hoverrides'
  cases hoverrides'
  rw [hsettings, options, decls, ← hsettings']

theorem Compiled.outline_eq_of_spec (h : Compiled o decl scope catalog q)
    (h' : Compiled o' decl' scope' catalog' q') (options : o.outline = o'.outline)
    (decls : decl.outline = decl'.outline) (spec : q.spec = q'.spec) : q.outline = q'.outline := by
  have hsettings := h.settings_same h' options decls
  have hmode : q.settings.mode = q'.settings.mode := (congrArg Settings.mode hsettings :)
  have hfilters : q.settings.filters = q'.settings.filters :=
    (congrArg Settings.filters hsettings :)
  have hcounting : q.settings.counting = q'.settings.counting :=
    (congrArg Settings.counting hsettings :)
  have hestimate : o.estimate = o'.estimate := (congrArg Options.estimate options :)
  have hdecl : decl.name = decl'.name := (congrArg QueryDecl.name decls :)
  have hname : q.name = q'.name := by rw [h.name, h'.name, hdecl]
  have hcounted : q.counted = q'.counted := by
    have hc := h.counted
    rw [hdecl, hcounting, spec, h'.counted] at hc
    exact (Except.ok.inj hc).symm
  have hparams : q.params = q'.params := by rw [h.params, h'.params, spec]
  have hsource : q.source = q'.source := by
    unfold CompiledQuery.source
    rw [hmode, spec, hname]
  unfold CompiledQuery.outline
  rw [hname, hparams, spec, hsettings, hcounted]
  rcases h.kept with unkept | ⟨plan, kept⟩
  · rcases h'.kept with unkept' | ⟨plan', kept'⟩
    · rw [unkept.maintained, unkept.result, unkept.demandSet, unkept.supports, unkept'.maintained,
        unkept'.result, unkept'.demandSet, unkept'.supports]
    · exact absurd (hmode ▸ unkept.mode) kept'.mode
  · rcases h'.kept with unkept' | ⟨plan', kept'⟩
    · exact absurd (hmode ▸ unkept'.mode) kept.mode
    · have hplan : plan = plan' := by
        have hp := kept.planned
        rw [hname, hsource, hmode, hfilters, hestimate, kept'.planned] at hp
        exact (Except.ok.inj hp).symm
      rw [kept.maintained, kept.result, kept.demandSet, kept.supports,
        kept'.maintained, kept'.result,
        kept'.demandSet, kept'.supports, hplan, hmode, hname, spec]

theorem Compiled.outline_eq (h : Compiled o decl scope catalog q)
    (h' : Compiled o' decl' scope catalog' q') (options : o.outline = o'.outline)
    (decls : decl.outline = decl'.outline) : q.outline = q'.outline := by
  have hmode : q.settings.mode = q'.settings.mode :=
    (congrArg Settings.mode (h.settings_same h' options decls) :)
  have hl := h.spec
  have hl' := h'.spec
  rw [← Lowering.query_without "selfjoin"] at hl hl'
  rw [show decl.without "selfjoin" = decl'.without "selfjoin" from decls, hmode, hl'] at hl
  exact h.outline_eq_of_spec h' options decls (Except.ok.inj hl).symm

theorem map_signature (qs : List CompiledQuery) :
    (qs.map CompiledQuery.outline).map (·.signature) = qs.map (·.signature) := by
  rw [List.map_map]
  rfl

/-- Declarations of one outline, compiled in one order, give programs of one outline. -/
theorem Built.queries_outline {d d' : Declarations} {p p' : Program} (built : Built o d p)
    (built' : Built o' d' p') (sound : d.Sound) (options : o.outline = o'.outline)
    (decls : d.outline = d'.outline)
    (names : p.queries.map (·.name) = p'.queries.map (·.name)) :
    p.queries.map CompiledQuery.outline = p'.queries.map CompiledQuery.outline := by
  have hrelations : d.relations = d'.relations := (congrArg Declarations.relations decls :)
  have hqueries : d.queries.map QueryDecl.outline = d'.queries.map QueryDecl.outline :=
    congrArg Declarations.queries decls
  induction built generalizing p' with
  | start =>
    have hnil : p'.queries = [] := by simpa using names.symm
    rw [hnil]
  | @install p decl q built hdecl fresh hq ih =>
    cases built' with
    | start => simp [Program.install] at names
    | @install p' decl' q' built' hdecl' fresh' hq' =>
      simp only [Program.install, List.map_append, List.map_singleton] at names ⊢
      obtain ⟨hnames, hlast⟩ := List.append_inj' names rfl
      have hearlier := ih built' hnames
      have hname : decl.name = decl'.name := by
        rw [← hq.name, ← hq'.name]
        exact List.singleton_inj.mp hlast
      have houtline : decl.outline = decl'.outline := by
        have hmem : decl'.outline ∈ d.queries.map QueryDecl.outline :=
          hqueries ▸ List.mem_map_of_mem hdecl'
        obtain ⟨e, he, heq⟩ := List.mem_map.mp hmem
        have hsame : e.name = decl.name := (congrArg QueryDecl.name heq).trans hname.symm
        rw [← heq, List.inj_on_of_nodup_map (List.nodup_append.mp sound.nodup).2.1 he hdecl hsame]
      rw [← map_signature p'.queries, ← hearlier, map_signature, ← hrelations] at hq'
      rw [hearlier, hq.outline_eq hq' options houtline]

theorem Built.outline_eq {d d' : Declarations} {p p' : Program} (built : Built o d p)
    (built' : Built o' d' p') (sound : d.Sound) (sound' : d'.Sound)
    (options : o.outline = o'.outline)
    (decls : d.outline = d'.outline)
    (names : p.queries.map (·.name) = p'.queries.map (·.name)) : p.outline = p'.outline := by
  have hqueries := built.queries_outline built' sound options decls names
  have hrelations : d.relations = d'.relations := (congrArg Declarations.relations decls :)
  have hflat : ∀ qs : List CompiledQuery,
      (qs.map CompiledQuery.outline).flatMap (·.relations) = qs.flatMap (·.relations) := by
    intro qs
    rw [List.flatMap_map]
    rfl
  unfold Program.outline
  rw [built.catalog_eq sound, built'.catalog_eq sound', hrelations, ← hflat, hqueries, hflat]

end Compile

end ViewUpkeep
