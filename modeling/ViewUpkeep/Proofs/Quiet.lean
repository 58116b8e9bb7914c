import ViewUpkeep.Proofs.History
import ViewUpkeep.Proofs.Options

/-!
Inspection switched off. A script is compiled to the same program whether its queries are inspected
or not, but for what is noted of that. A session does the same in both cases, as long as inspection
finds nothing wrong; where it does, the session is left in the state in which it was inspected, and
that is a state to which the session without inspection comes too.
-/
namespace ViewUpkeep

def Overrides.quiet (o : Overrides) : Overrides := { o with instrument := none }

def Settings.quiet (s : Settings) : Settings := { s with instrument := false }

def Compile.Options.quiet (o : Compile.Options) : Compile.Options :=
  { o with settings := o.settings.quiet }

def CompiledQuery.quiet (q : CompiledQuery) : CompiledQuery :=
  { q with settings := q.settings.quiet }

def Program.quiet (p : Program) : Program :=
  { p with queries := p.queries.map CompiledQuery.quiet }

def Compile.Progress.quiet (p : Compile.Progress) : Compile.Progress :=
  { p with program := p.program.quiet }

/-! ### Compilation -/

theorem Overrides.quiet_forgets : Forgets "instrument" quiet := by
  constructor
  · intro o o' value h
    obtain ⟨_, _, h⟩ := bind_eq_ok.mp h
    cases h
    rfl
  · intro o o' name value hname h
    unfold set at h ⊢
    split_ifs at h ⊢ with hselfJoin hrc himpl hfilters
    · exact put_eq_ok h fun _ => rfl
    · exact put_eq_ok h fun _ => rfl
    · exact put_eq_ok h fun _ => rfl
    · exact put_eq_ok h fun _ => rfl

theorem Settings.resolve_quiet (s : Settings) (o : Overrides) (hasParams : Bool) :
    s.quiet.resolve o.quiet hasParams = (s.resolve o hasParams).quiet := by
  have hmode : (s.quiet.override o.quiet).mode = (s.override o).mode := rfl
  unfold resolve
  dsimp only
  rw [hmode]
  split <;> rfl

theorem Program.map_signature_quiet (p : Program) :
    p.quiet.queries.map (·.signature) = p.queries.map (·.signature) := by
  unfold quiet
  rw [List.map_map]
  rfl

theorem Program.install_quiet (p : Program) (q : CompiledQuery) :
    p.quiet.install q.quiet = (p.install q).quiet := by
  unfold install quiet
  rw [List.map_append]
  rfl

theorem Program.eq_quiet {p : Program} (off : ∀ q ∈ p.queries, q.settings.instrument = false) :
    p.quiet = p := by
  have hqueries : p.queries.map CompiledQuery.quiet = p.queries := by
    conv_rhs => rw [← List.map_id p.queries]
    refine List.map_congr_left fun q hq => ?_
    have hsettings : q.settings.quiet = q.settings := by
      rw [Settings.quiet, ← off q hq]
    rw [CompiledQuery.quiet, hsettings]
    rfl
  rw [quiet, hqueries]

namespace Compile

variable {o : Options} {decl : QueryDecl} {scope : Scope} {catalog : List RelationInfo}
  {q : CompiledQuery}

theorem supportHandlers_quiet (name : String) (strategy : SelfJoin) (ss : List Support) :
    supportHandlers o.quiet name strategy catalog ss =
      supportHandlers o name strategy catalog ss := by
  induction ss with
  | nil => rfl
  | cons s ss ih =>
    simp only [supportHandlers, ih]
    rfl

theorem maintained_quiet {name : String} {spec : Comprehension} {s : Settings} {counted : Bool}
    (h : maintained o name spec s counted catalog = .ok q) :
    maintained o.quiet name spec s.quiet counted catalog = .ok q.quiet := by
  obtain ⟨plan, hplan, h⟩ := bind_eq_ok.mp h
  obtain ⟨hs, hhs, h⟩ := bind_eq_ok.mp h
  obtain ⟨own, hown, h⟩ := bind_eq_ok.mp h
  cases h
  refine bind_eq_ok.mpr ⟨plan, hplan, bind_eq_ok.mpr ⟨hs, ?_, bind_eq_ok.mpr ⟨own, hown, rfl⟩⟩⟩
  exact (supportHandlers_quiet ..).trans hhs

theorem query_quiet (h : query o decl scope catalog = .ok q) :
    query o.quiet (decl.without "instrument") scope catalog = .ok q.quiet := by
  unfold query at h ⊢
  dsimp only at h ⊢
  split at h
  · rename_i overrides hoverrides
    obtain ⟨_, hv, h⟩ := bind_eq_ok.mp h
    cases hv
    obtain ⟨spec, hspec, h⟩ := bind_eq_ok.mp h
    have hsettings : o.quiet.settings.resolve overrides.quiet (!decl.params.isEmpty) =
        (o.settings.resolve overrides (!decl.params.isEmpty)).quiet :=
      Settings.resolve_quiet o.settings overrides _
    have hoptions : Overrides.empty.setAll (decl.without "instrument").options =
        .ok overrides.quiet := Overrides.quiet_forgets.setAll hoverrides
    rw [hoptions]
    refine bind_eq_ok.mpr ⟨_, rfl, ?_⟩
    rw [show (decl.without "instrument").params = decl.params from rfl, hsettings]
    refine bind_eq_ok.mpr ⟨spec, (Lowering.query_without ..).trans hspec, ?_⟩
    split at h
    · cases h
    · obtain ⟨counted, hcounted, h⟩ := bind_eq_ok.mp h
      refine bind_eq_ok.mpr ⟨counted, hcounted, ?_⟩
      split at h
      · rename_i hmode
        obtain ⟨_, hordered, h⟩ := bind_eq_ok.mp h
        cases h
        refine (if_pos hmode).trans ?_
        exact bind_eq_ok.mpr ⟨_, hordered, rfl⟩
      · rename_i hmode
        exact (if_neg hmode).trans (maintained_quiet h)
  · cases h

theorem step_quiet {d : Declarations} {P P' : Progress} (h : step o d P decl = .ok P') :
    step o.quiet (d.without "instrument") P.quiet (decl.without "instrument") = .ok P'.quiet := by
  unfold step at h ⊢
  rw [Declarations.reads_without, show P.quiet.failed = P.failed from rfl]
  split at h
  · rename_i hfailed
    cases h
    rw [if_pos hfailed]
    rfl
  · rename_i hfailed
    obtain ⟨q, hq, h⟩ := bind_eq_ok.mp h
    cases h
    rw [if_neg hfailed]
    refine bind_eq_ok.mpr ⟨q.quiet, ?_, ?_⟩
    · rw [show P.quiet.program = P.program.quiet from rfl, Program.map_signature_quiet]
      exact query_quiet hq
    · rw [show P.quiet.program = P.program.quiet from rfl, Program.install_quiet]
      rfl

theorem strictSteps_quiet {d : Declarations} {P P' : Progress} {decls : List QueryDecl}
    (h : strictSteps o d P decls = .ok P') :
    strictSteps o.quiet (d.without "instrument") P.quiet (decls.map (·.without "instrument")) =
      .ok P'.quiet := by
  induction decls generalizing P with
  | nil =>
    cases h
    rfl
  | cons decl decls ih =>
    obtain ⟨P₁, hP₁, h⟩ := bind_eq_ok.mp h
    exact bind_eq_ok.mpr ⟨_, step_quiet hP₁, ih h⟩

end Compile

namespace Program

theorem ofScript_quiet {o : Compile.Options} {script : Script} {p : Program}
    (h : ofScript o script = .ok p) :
    ofScript o.quiet (script.without "instrument") = .ok p.quiet := by
  obtain ⟨⟨d, decls⟩, hprepare, h⟩ := bind_eq_ok.mp h
  obtain ⟨P, hsteps, h⟩ := bind_eq_ok.mp h
  cases h
  exact bind_eq_ok.mpr ⟨_, Compile.prepare_without hprepare,
    bind_eq_ok.mpr ⟨_, Compile.strictSteps_quiet hsteps, rfl⟩⟩

theorem quiet_of_text {o o' : Compile.Options} {text text' : String} {p p' : Program}
    (options : o.quiet = o'.quiet)
    (scripts : (Script.ofText text).map (Script.without "instrument") =
      (Script.ofText text').map (Script.without "instrument"))
    (compiles : ofText? o text = some p) (compiles' : ofText? o' text' = some p') :
    p.quiet = p'.quiet := by
  have hquiet : ∀ {o : Compile.Options} {text : String} {p : Program}, ofText? o text = some p →
      ∃ script, Script.ofText text = .ok script ∧
        ofScript o.quiet (script.without "instrument") = .ok p.quiet := by
    intro o text p h
    unfold ofText? at h
    split at h
    · cases h
    · rename_i script hscript
      split at h
      · cases h
      · rename_i hp
        cases h
        exact ⟨script, hscript, ofScript_quiet hp⟩
  obtain ⟨script, hscript, hp⟩ := hquiet compiles
  obtain ⟨script', hscript', hp'⟩ := hquiet compiles'
  rw [hscript, hscript'] at scripts
  have hsame : script.without "instrument" = script'.without "instrument" := Except.ok.inj scripts
  rw [hsame, options, hp'] at hp
  exact (Except.ok.inj hp).symm

/-! ### Evaluation and look-ups -/

theorem handlers_quiet (p : Program) : p.quiet.handlers = p.handlers := by
  unfold handlers quiet
  rw [List.flatMap_map]
  rfl

theorem query?_quiet (p : Program) (name : String) :
    p.quiet.query? name = (p.query? name).map CompiledQuery.quiet := List.find?_map

end Program

theorem Batch.ask_quiet (store : Store) (qs : List CompiledQuery) (question : Question) :
    ask store (qs.map CompiledQuery.quiet) question = ask store qs question := by
  induction qs generalizing question with
  | nil => rfl
  | cons q qs ih =>
    have hnames : (qs.map CompiledQuery.quiet).map (·.name) = qs.map (·.name) := by
      rw [List.map_map]
      rfl
    simp only [List.map_cons, ask, funext ih, hnames]
    rfl

theorem Batch.run_quiet (p : Program) (store : Store) : run p.quiet store = run p store := by
  funext question memo
  unfold run Program.quiet
  rw [← List.map_reverse, ask_quiet]

namespace Session

/-! ### Changes -/

def recast (p : Program) (b : Bool) (s : Session) : Session :=
  { s with program := p, poisoned := b }

def quiet (s : Session) : Session := { s with program := s.program.quiet }

section Recast

variable {p : Program} {s : Session} (b : Bool)

theorem follow_recast (row : Row) (hs : List Handler) :
    (s.recast p b).follow row hs = ((s.follow row hs).1.recast p b, (s.follow row hs).2) := by
  unfold follow
  rw [show (s.recast p b).store = s.store from rfl]
  split <;> rfl

theorem put_recast (r : Relation) (u : Update) :
    (s.recast p b).put r u = ((s.put r u).1.recast p b, (s.put r u).2) := by
  unfold put
  split <;> rfl

theorem handlersOf_recast (h : p.handlers = s.program.handlers) (u : Update) (place : Placement) :
    (s.recast p b).handlersOf u place = s.handlersOf u place := by
  unfold handlersOf Program.handlersFor
  rw [show (s.recast p b).program = p from rfl, h]

theorem program_follow (row : Row) (hs : List Handler) :
    (s.follow row hs).1.program = s.program := by
  unfold follow
  split <;> rfl

theorem program_put (r : Relation) (u : Update) : (s.put r u).1.program = s.program := by
  unfold put
  split <;> rfl

theorem applyTransition_recast (h : p.handlers = s.program.handlers) (r : Relation) (u : Update) :
    (s.recast p b).applyTransition r u =
      ((s.applyTransition r u).1.recast p b, (s.applyTransition r u).2) := by
  unfold applyTransition
  rw [handlersOf_recast b h, follow_recast]
  have hfollow := program_follow (s := s) u.row (s.handlersOf u .before)
  rcases hbefore : s.follow u.row (s.handlersOf u .before) with ⟨t, e | us⟩
  · rfl
  · rw [hbefore] at hfollow
    dsimp only at hfollow ⊢
    rw [put_recast]
    have hput := program_put (s := t) r u
    rcases hchanged : t.put r u with ⟨t', e | _⟩
    · rfl
    · rw [hchanged] at hput
      dsimp only at hput ⊢
      rw [handlersOf_recast b (by rw [hput, hfollow, h]), follow_recast]
      rcases t'.follow u.row (t'.handlersOf u .after) with ⟨t'', e | vs⟩ <;> rfl

theorem apply_recast (h : p.handlers = s.program.handlers) (u : Update) :
    (s.recast p b).apply u = ((s.apply u).1.recast p b, (s.apply u).2) := by
  unfold apply
  rw [show (s.recast p b).store = s.store from rfl]
  split
  · rfl
  · split
    · rfl
    · dsimp only
      split
      · exact applyTransition_recast (s := s.countChange) b h _ u
      · rename_i r _ _ _ _
        rw [show (s.recast p b).countChange = s.countChange.recast p b from rfl, put_recast]
        rcases s.countChange.put r u with ⟨t, e | _⟩ <;> rfl

theorem propagate_recast (h : p.handlers = s.program.handlers) (n : Nat) (us : List Update) :
    propagate n (s.recast p b) us = ((propagate n s us).1.recast p b, (propagate n s us).2) := by
  induction n generalizing s us with
  | zero => cases us <;> rfl
  | succ n ih =>
    cases us with
    | nil => rfl
    | cons u rest =>
      simp only [propagate]
      rw [apply_recast b h]
      have hprogram : (s.apply u).1.program = s.program :=
        congrArg (fun out => out.1.program) (apply_recast (p := s.program) s.poisoned rfl u)
      rcases hstep : s.apply u with ⟨t, e | vs⟩
      · rfl
      · rw [hstep] at hprogram
        exact ih (by rw [h, ← hprogram]) (vs ++ rest)

end Recast

theorem propagate_fixed (n : Nat) (s : Session) (us : List Update) :
    (propagate n s us).1.program = s.program ∧ (propagate n s us).1.poisoned = s.poisoned := by
  have hsame := propagate_recast (p := s.program) (s := s) s.poisoned rfl n us
  exact ⟨congrArg (fun out => out.1.program) hsame, congrArg (fun out => out.1.poisoned) hsame⟩

theorem propagate_quiet (n : Nat) (s : Session) (us : List Update) :
    propagate n s.quiet us = ((propagate n s us).1.quiet, (propagate n s us).2) := by
  have hquiet : (propagate n s us).1.quiet =
      (propagate n s us).1.recast s.program.quiet s.poisoned := by
    obtain ⟨hprogram, hpoisoned⟩ := propagate_fixed n s us
    rw [← hprogram, ← hpoisoned]
    rfl
  rw [hquiet]
  exact propagate_recast s.poisoned s.program.handlers_quiet n us

theorem inspectAll_quiet (s : Session) (qs : List CompiledQuery) :
    s.inspectAll (qs.map CompiledQuery.quiet) = .ok () := by
  induction qs with
  | nil => rfl
  | cons q qs ih =>
    have hinspect : s.inspect q.quiet = .ok () := by
      unfold inspect
      split <;> rfl
    rw [List.map_cons, inspectAll, hinspect]
    exact ih

/-! ### Operations -/

variable {α β : Type}

def hush (out : Outcome α) : Outcome α := (out.1.quiet, out.2)

/-- A state that a session can come to, and in which inspection fails. -/
structure Faults (s t : Session) (e : RuntimeError) : Prop where
  program : t.program = s.program
  poisoned : t.poisoned = s.poisoned
  fails : t.inspectAll t.program.queries = .error e

/-- What is done with inspection and without: the same, or inspection fails in the state to which
this leads without it. -/
inductive Watched (s : Session) (on off : Outcome α) : Prop where
  | same (h : off = hush on)
  | cut (t : Session) (e : RuntimeError) (a : α) (faults : s.Faults t e)
    (hon : on = (t.poison, .error e)) (hoff : off = (t.quiet, .ok a))

theorem settle_fixed (s : Session) (us : List Update) :
    (s.settle us).1.program = s.program ∧ (s.settle us).1.poisoned = s.poisoned := by
  obtain ⟨n, hn⟩ := s.exists_settle_eq us
  rw [hn]
  exact propagate_fixed n s us

theorem settle_quiet (s : Session) (us : List Update) :
    s.quiet.settle us = ((s.settle us).1.quiet, (s.settle us).2) := by
  rcases s.settle_cases us with ⟨n, hn, hs⟩ | ⟨hall, hs⟩
  · rw [hs, ← propagate_quiet]
    exact settle_eq (by rwa [propagate_quiet])
  · rcases s.quiet.settle_cases us with ⟨n, hn, _⟩ | ⟨_, hq⟩
    · rw [propagate_quiet] at hn
      exact absurd (hall n) hn
    · rw [hs, hq]

theorem change_watched (s : Session) (u : Update) : s.Watched (s.change u) (s.quiet.change u) := by
  unfold change
  obtain ⟨hprogram, hpoisoned⟩ := s.settle_fixed [u]
  rw [settle_quiet]
  rcases hrun : s.settle [u] with ⟨t, e | _⟩
  · exact .same rfl
  · rw [hrun] at hprogram hpoisoned
    dsimp only at hprogram hpoisoned ⊢
    rw [show t.quiet.program.queries = t.program.queries.map CompiledQuery.quiet from rfl,
      inspectAll_quiet]
    cases hinspect : t.inspectAll t.program.queries with
    | ok _ => exact .same rfl
    | error e => exact .cut t e () ⟨hprogram, hpoisoned, hinspect⟩ rfl rfl

theorem change_fixed {s t : Session} {u : Update} (h : s.change u = (t, .ok ())) :
    t.program = s.program ∧ t.poisoned = s.poisoned := by
  obtain ⟨n, hrun⟩ := propagate_of_change h
  have hfixed := propagate_fixed n s [u]
  rwa [hrun] at hfixed

def answered (out : Outcome Unit) (a : α) : Outcome α :=
  match out with
  | (s, .error e) => (s, .error e)
  | (s, .ok ()) => (s, .ok a)

theorem change_answered (s : Session) (u : Update) (a : α) :
    s.Watched (answered (s.change u) a) (answered (s.quiet.change u) a) := by
  rcases s.change_watched u with h | ⟨t, e, _, faults, hon, hoff⟩
  · rw [h]
    rcases s.change u with ⟨t, e | _⟩ <;> exact .same rfl
  · rw [hon, hoff]
    exact .cut t e a faults rfl rfl

theorem Watched.of_fixed {s t : Session} {on off : Outcome α} (h : t.Watched on off)
    (fixed : t.program = s.program ∧ t.poisoned = s.poisoned) : s.Watched on off := by
  rcases h with h | ⟨r, e, a, faults, hon, hoff⟩
  · exact .same h
  · exact .cut r e a ⟨faults.program.trans fixed.1, faults.poisoned.trans fixed.2, faults.fails⟩
      hon hoff

theorem baseInfo_quiet (s : Session) (rel : String) (arity : Nat) :
    s.quiet.baseInfo rel arity = s.baseInfo rel arity := by
  unfold baseInfo
  rw [show s.quiet.program = s.program.quiet from rfl, Program.query?_quiet]
  rw [show s.program.quiet.relation? rel = s.program.relation? rel from rfl]
  cases s.program.relation? rel with
  | some info => rfl
  | none => cases s.program.query? rel <;> rfl

theorem checkMap_quiet (s : Session) (map : String) (length : Nat) :
    s.quiet.checkMap map length = s.checkMap map length := by
  unfold checkMap
  rw [baseInfo_quiet]

theorem compiled_quiet (s : Session) (name : String) :
    s.quiet.compiled name = (s.compiled name).map CompiledQuery.quiet := by
  unfold compiled
  rw [show s.quiet.program = s.program.quiet from rfl, Program.query?_quiet]
  cases s.program.query? name <;> rfl

theorem demandTarget_quiet (s : Session) (query : String) (params : Row) :
    s.quiet.demandTarget query params = s.demandTarget query params := by
  unfold demandTarget
  rw [compiled_quiet]
  cases s.compiled query <;> rfl

theorem isDemanded_quiet (s : Session) (query : String) (params : Row) :
    s.quiet.isDemanded query params = s.isDemanded query params := by
  unfold isDemanded
  rw [demandTarget_quiet]
  rfl

theorem evaluate_quiet (s : Session) (query : String) (params : Row) :
    s.quiet.evaluate query params = s.evaluate query params := by
  unfold Session.evaluate Program.evaluate
  rw [compiled_quiet, show s.quiet.program = s.program.quiet from rfl, Batch.run_quiet]
  cases s.compiled query <;> rfl

theorem results_quiet (s : Session) (query : String) :
    s.quiet.results query = s.results query := by
  unfold results
  rw [compiled_quiet, evaluate_quiet]
  cases s.compiled query <;> rfl

theorem addRow_watched (s : Session) (rel : String) (row : Row) :
    s.Watched (s.addRow rel row) (s.quiet.addRow rel row) := by
  unfold addRow
  rw [show s.quiet.store = s.store from rfl]
  split
  · exact .same rfl
  · exact s.change_answered ⟨rel, .add, row⟩ true

theorem add_watched (s : Session) (rel : String) (row : Row) :
    s.Watched (s.add rel row) (s.quiet.add rel row) := by
  unfold add
  rw [baseInfo_quiet, show s.quiet.poisoned = s.poisoned from rfl]
  split
  · exact .same rfl
  · split
    · exact .same rfl
    · split
      · exact addRow_watched s rel row
      · rw [show s.quiet.mapValue = s.mapValue from rfl]
        split
        · exact addRow_watched s rel row
        · split <;> exact .same rfl

theorem remove_watched (s : Session) (rel : String) (row : Row) :
    s.Watched (s.remove rel row) (s.quiet.remove rel row) := by
  unfold remove
  rw [baseInfo_quiet, show s.quiet.poisoned = s.poisoned from rfl,
    show s.quiet.store = s.store from rfl]
  split
  · exact .same rfl
  · split
    · exact .same rfl
    · split
      · exact s.change_answered ⟨rel, .remove, row⟩ true
      · exact .same rfl

theorem unassign_watched (s : Session) (map : String) (key : Row) :
    s.Watched (s.unassign map key) (s.quiet.unassign map key) := by
  unfold unassign
  rw [checkMap_quiet, show s.quiet.poisoned = s.poisoned from rfl,
    show s.quiet.mapValue = s.mapValue from rfl]
  split
  · exact .same rfl
  · split
    · exact .same rfl
    · split
      · exact .same rfl
      · rename_i old _
        exact s.change_answered ⟨map, .remove, key ++ [old]⟩ true

/-- Where a value takes the place of another, inspection can also fail between the two changes, in
the state to which taking the old value away leads. -/
theorem assign_watched (s : Session) (map : String) (key : Row) (value : Value) :
    s.Watched (s.assign map key value) (s.quiet.assign map key value) ∨
      ∃ t e, s.Faults t e ∧ s.assign map key value = (t.poison, .error e) ∧
        s.quiet.unassign map key = (t.quiet, .ok true) := by
  unfold assign unassign
  rw [checkMap_quiet, show s.quiet.poisoned = s.poisoned from rfl,
    show s.quiet.mapValue = s.mapValue from rfl]
  split
  · exact .inl (.same rfl)
  · split
    · exact .inl (.same rfl)
    · split
      · exact .inl (s.change_answered ⟨map, .add, key ++ [value]⟩ true)
      · rename_i old _
        split
        · exact .inl (.same rfl)
        · rcases s.change_watched ⟨map, .remove, key ++ [old]⟩ with h | ⟨t, e, _, faults, hon, hoff⟩
          · left
            rw [h]
            rcases hretract : s.change ⟨map, .remove, key ++ [old]⟩ with ⟨r, e | _⟩
            · exact .same rfl
            · exact (r.change_answered ⟨map, .add, key ++ [value]⟩ true).of_fixed
                (change_fixed hretract)
          · right
            rw [hon, hoff]
            exact ⟨t, e, faults, rfl, rfl⟩

theorem demand_watched (s : Session) (query : String) (params : Row) :
    s.Watched (s.demand query params) (s.quiet.demand query params) := by
  unfold demand
  rw [demandTarget_quiet, show s.quiet.poisoned = s.poisoned from rfl]
  split
  · exact .same rfl
  · split
    · exact .same rfl
    · rename_i u _
      exact ((s.setDemand query params (s.demandCount query params + 1)).change_watched
        ⟨u, .add, params⟩).of_fixed ⟨rfl, rfl⟩

theorem undemand_watched (s : Session) (query : String) (params : Row) :
    s.Watched (s.undemand query params) (s.quiet.undemand query params) := by
  unfold undemand
  rw [demandTarget_quiet, show s.quiet.poisoned = s.poisoned from rfl,
    show s.quiet.demandCount query params = s.demandCount query params from rfl]
  split
  · exact .same rfl
  · split
    · exact .same rfl
    · rename_i u _
      split
      · exact .same rfl
      · rename_i n _
        exact ((s.setDemand query params n).change_watched ⟨u, .remove, params⟩).of_fixed ⟨rfl, rfl⟩

theorem query_watched (s : Session) (name : String) (params : Row) :
    s.Watched (s.query name params) (s.quiet.query name params) := by
  unfold query
  rw [compiled_quiet, evaluate_quiet, isDemanded_quiet,
    show s.quiet.poisoned = s.poisoned from rfl]
  split
  · exact .same rfl
  · cases s.compiled name with
    | error e => exact .same rfl
    | ok q =>
      dsimp only [Except.map]
      rw [show q.quiet.params = q.params from rfl, show q.quiet.mode = q.mode from rfl]
      split
      · exact .same rfl
      · split
        · exact .same rfl
        · exact .same rfl
        · split
          · exact .same rfl
          · exact .same rfl
          · rcases s.demand_watched name params with h | ⟨t, e, _, faults, hon, hoff⟩
            · rw [h]
              rcases s.demand name params with ⟨t, e | _⟩ <;> exact .same rfl
            · rw [hon, hoff]
              exact .cut t e _ faults rfl rfl

end Session

end ViewUpkeep
