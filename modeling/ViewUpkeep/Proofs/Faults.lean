import ViewUpkeep.Proofs.Acceptance
import ViewUpkeep.Proofs.Answerable
import ViewUpkeep.Proofs.Requests

/-!
Maintenance never goes wrong by itself. The rows of a store, and those of pending changes, have the
lengths that the catalog gives. So a changed row falls apart by the patterns of every handler, all
relations that a handler reads are there, and inspection asks answerable questions. If an operation
fails on the way, values are to blame.
-/
namespace ViewUpkeep

/-! ### Lengths of rows -/

theorem Lists.unique {catalog : List RelationInfo} (nodup : (catalog.map (·.name)).Nodup)
    {rel : String} {n m : Nat} (h : Lists catalog rel n) (k : Lists catalog rel m) : n = m := by
  obtain ⟨info, hinfo, hname, rfl⟩ := h
  obtain ⟨other, hother, hname', rfl⟩ := k
  rw [List.inj_on_of_nodup_map nodup hinfo hother (hname.trans hname'.symm)]

theorem Store.get?_isSome {store : Store} {catalog : List RelationInfo}
    (infos : store.infos = catalog) {rel : String} {n : Nat} (h : Lists catalog rel n) :
    (store.get? rel).isSome := by
  obtain ⟨info, hinfo, hname, _⟩ := h
  have hfind : (store.infos.find? (·.name = rel)).isSome := by
    rw [infos, List.find?_isSome]
    exact ⟨info, hinfo, by simp [hname]⟩
  rwa [← Store.info_get?, Option.isSome_map] at hfind

theorem Expr.evalAll_length {env : Env} {es : List Expr} {row : Row}
    (h : evalAll env es = .ok row) : row.length = es.length := by
  induction es generalizing row with
  | nil =>
    cases h
    rfl
  | cons e es ih =>
    rw [evalAll] at h
    obtain ⟨x, _, h⟩ := bind_eq_ok.mp h
    obtain ⟨xs, hxs, h⟩ := bind_eq_ok.mp h
    cases h
    simp [ih hxs]

theorem Comprehension.Yields.length {c : Comprehension} {facts : Facts} {row : Row}
    (h : c.Yields facts row) : row.length = c.arity := by
  obtain ⟨env, _, hout⟩ := h
  rw [output, Expr.evalRow_tuple] at hout
  rw [Expr.evalAll_length hout]
  simp [arity]

namespace Compile.Built

variable {o : Options} {d : Declarations} {p : Program} {q : CompiledQuery}

/-! ### Handlers -/

theorem handler_fails (built : Built o d p) (sound : d.Sound) {h : Handler} (hh : h ∈ p.handlers)
    {store : Store} (infos : store.infos = p.catalog) (row : Row) :
    FailsOnly (·.isOfValues = true) (h.code.run store row) := by
  obtain ⟨v, hv, hread, hmake⟩ := built.handler_made hh
  have hlive : v.isLive = true := by
    rw [View.isLive, Bool.not_eq_true', List.isEmpty_eq_false_iff]
    exact List.ne_nil_of_mem hread
  have hclosed : v.spec.Closed := by
    obtain ⟨q, hq, hvq⟩ := List.mem_flatMap.mp hv
    obtain ⟨_, _, _, decl, hdecl, _, hcompiled⟩ := built.mem_compiled hq
    exact hcompiled.views_closed (sound.queries decl hdecl) v hvq hlive
  have hknown : ∀ c ∈ v.spec.join, ∀ rel, c.rel? = some rel → (store.get? rel).isSome :=
    fun c hc rel hrel =>
      Store.get?_isSome infos ((built.views_fit sound v hv).clauses c hc rel hrel)
  have hsound := Handler.make_sound (built.views_proper sound v hv) hclosed hknown hmake
  exact hsound.run (fun rel h => h) row

theorem handler_patterns (built : Built o d p) (sound : d.Sound) {h : Handler}
    (hh : h ∈ p.handlers) {row : Row} (hrow : Lists p.catalog h.rel row.length) :
    ∀ pattern ∈ h.code.changedPatterns,
      (Value.tuple row).itemsOf pattern.length = .ok row := by
  intro pattern hpattern
  obtain ⟨v, hv, _, hmake⟩ := built.handler_made hh
  have hlength : pattern.length = row.length := by
    refine Handler.make_changedPatterns (built.views_proper sound v hv) (fun c hc hrel => ?_)
      hmake pattern hpattern
    exact ((built.views_fit sound v hv).clauses c hc h.rel hrel).unique
      (built.nodup_catalog sound) hrow
  rw [Value.itemsOf, if_pos hlength.symm]

theorem lists_set (built : Built o d p) (sound : d.Sound) (hq : q ∈ p.queries) {set : String}
    (hset : q.demandSet = some set) : Lists p.catalog set q.params.length := by
  obtain ⟨_, _, _, decl, hdecl, _, hcompiled⟩ := built.mem_compiled hq
  have hdem : q.settings.mode = .dem := by
    by_contra hmode
    cases hset.symm.trans (built.demandSet_of_not_dem hq hmode)
  rw [built.demandSet_eq hq hset]
  exact (hcompiled.lists_demandSet hdem).mono (built.query_relations_subset sound hq)

/-! ### Queries that are kept -/

theorem comesTo_kept (built : Built o d p) (sound : d.Sound) (hq : q ∈ p.queries)
    (hmode : q.mode ≠ .batch) {r : CompiledQuery} (h : p.ComesTo q r) :
    r ∈ p.queries ∧ r.mode ≠ .batch := by
  induction h with
  | self => exact ⟨hq, hmode⟩
  | @read r b c _ hc hb hrel ih =>
    refine ⟨hb, ?_⟩
    obtain ⟨hr, hkept⟩ := ih
    obtain ⟨earlier, later, hsplit, decl, hdecl, catalog, hcompiled⟩ := built.mem_compiled hr
    have hname : ∀ x ∈ earlier, x.name = b.name → x = b := fun x hx hn =>
      List.inj_on_of_nodup_map built.nodup_queries (by simp [hsplit, hx]) hb hn
    have lowered := Lowering.query_lowered (sound.queries decl hdecl) hcompiled.spec
    rcases (lowered.inScope c hc).cases_kept hkept with ⟨lhs, rel, hform, hread⟩ |
      ⟨x, hx, hdem, params, lhs, _, rfl⟩ | ⟨_, _, rfl⟩ | ⟨_, rfl⟩
    · have hrel' : rel = b.name := by
        rcases hform with rfl | ⟨n, rfl⟩ <;> simpa [Clause.rel?] using hrel
      rcases hread with hbase | ⟨x, hx, hinc, hn⟩
      · exact absurd (hrel' ▸ List.mem_map_of_mem hb) (built.base_notMem_queries sound hbase)
      · rw [← hname x hx (hn.trans hrel'), CompiledQuery.mode, hinc]
        simp
    · have hn : x.name = b.name := by simpa [Clause.rel?] using hrel
      rw [← hname x hx hn, CompiledQuery.mode, hdem]
      simp
    · cases hrel
    · cases hrel

theorem troubles_kept (built : Built o d p) (sound : d.Sound) (hq : q ∈ p.queries)
    (hmode : q.mode ≠ .batch) {e : ExecError} (h : p.Troubles q e) : e.isOfValues = true := by
  rcases h with hvalues | ⟨r, b, lhs, hr, hbatch, _⟩
  · exact hvalues
  · exact absurd hbatch (built.comesTo_kept sound hq hmode hr).2

end Compile.Built

namespace Session

/-- A session of a program whose rows have the lengths that the catalog gives. -/
structure Fitted (p : Program) (s : Session) : Prop extends Formed p s where
  rows : ∀ rel row, s.store.Has rel row → Lists p.catalog rel row.length

structure Pends (p : Program) (s : Session) (us : List Update) : Prop where
  fitted : s.Fitted p
  pending : ∀ u ∈ us, Lists p.catalog u.rel u.row.length

variable {o : Compile.Options} {d : Declarations} {p : Program} {s s' t : Session} {u : Update}
  {us : List Update}

theorem ofProgram_fitted (nodup : (p.catalog.map (·.name)).Nodup) : (ofProgram p).Fitted p := by
  obtain ⟨hsound, _, hcount⟩ := Store.declared nodup p.indices
  refine ⟨ofProgram_formed nodup, fun rel row hrow => ?_⟩
  have hpos := (hsound.count_pos_iff rel row).mpr hrow
  rw [hcount] at hpos
  cases hpos

section Propagation

variable (built : Compile.Built o d p) (sound : d.Sound)

include built sound

/-! ### Propagation -/

theorem Pends.step {rest : List Update} (h : s.Pends p (u :: rest))
    (happly : s.apply u = (s', .ok us)) : s'.Pends p (us ++ rest) := by
  obtain ⟨fitted, pending⟩ := h
  obtain ⟨hu, hrest⟩ := List.forall_mem_cons.mp pending
  have step := apply_step fitted.sound (fitted.nodup (built.nodup_catalog sound)) happly
  refine ⟨⟨step.formed fitted.toFormed, fun rel row hrow => ?_⟩,
    List.forall_mem_append.mpr ⟨fun w hw => ?_, hrest⟩⟩
  · have hcount := (step.changed.sound.count_pos_iff rel row).mpr hrow
    by_cases hself : rel = u.rel ∧ row = u.row
    · rw [hself.1, hself.2]
      exact hu
    · refine fitted.rows rel row ((fitted.sound.count_pos_iff rel row).mp ?_)
      cases hchange : u.change with
      | add => simpa [step.changed.added hchange, hself] using hcount
      | remove =>
        rw [step.changed.removed hchange, if_neg hself]
        exact hcount
  · obtain ⟨_, v, hv, htarget, facts, hyields, _⟩ :=
      step.recorded_yields built sound fitted.program fitted.sound hw
    rw [hyields.length, ← htarget]
    exact (built.views_fit sound v hv).target

theorem Pends.works {vs : List Update} (h : s.Pends p us) (hworks : s.Works us t vs) :
    t.Pends p vs := by
  induction hworks with
  | start => exact h
  | step _ happly ih => exact ih.step built sound happly

omit built sound in
theorem follow_error {row : Row} {hs : List Handler} {e : RuntimeError}
    (h : s.follow row hs = (s', .error e)) :
    ∃ g ∈ hs, ∃ x, g.code.run s.store row = .error x ∧ e = .exec x := by
  have hrun : ∀ {n x}, runHandlers s.store row hs = (n, .error x) →
      ∃ g ∈ hs, g.code.run s.store row = .error x := by
    clear h
    induction hs with
    | nil =>
      intro n x h
      cases h
    | cons g hs ih =>
      intro n x h
      unfold runHandlers at h
      split at h
      · rename_i hg
        cases h
        exact ⟨g, List.mem_cons_self, hg⟩
      · rcases hrest : runHandlers s.store row hs with ⟨m, y | vs⟩ <;> rw [hrest] at h <;> cases h
        obtain ⟨g', hg', hx⟩ := ih hrest
        exact ⟨g', List.mem_cons_of_mem g hg', hx⟩
  unfold follow at h
  split at h
  · cases h
  · rename_i hhandlers
    cases h
    obtain ⟨g, hg, hx⟩ := hrun hhandlers
    exact ⟨g, hg, _, hx, rfl⟩

theorem follow_fails (hprogram : s.program = p) (infos : t.store.infos = p.catalog)
    {placement : Placement} {e : ExecError}
    (h : t.follow u.row (s.handlersOf u placement) = (s', .error (.exec e))) :
    e.isOfValues = true := by
  obtain ⟨g, hg, x, hx, he⟩ := follow_error h
  cases he
  have hmem : g ∈ p.handlers := hprogram ▸ (mem_handlersOf.mp hg).1
  exact built.handler_fails sound hmem infos u.row e hx

theorem Pends.apply_fails {rest : List Update} (h : s.Pends p (u :: rest)) {e : ExecError}
    (happly : s.apply u = (s', .error (.exec e))) : e.isOfValues = true := by
  obtain ⟨fitted, pending⟩ := h
  have hnodup := fitted.nodup (built.nodup_catalog sound)
  have hput : ∀ {t t' : Session} {r : Relation}, t.put r u ≠ (t', .error (.exec e)) := by
    intro t t' r hp
    unfold put at hp
    split at hp <;> cases hp
  unfold apply at happly
  split at happly
  · rename_i hnone
    have hsome := Store.get?_isSome fitted.infos (pending u List.mem_cons_self)
    rw [hnone] at hsome
    cases hsome
  · rename_i r hr
    split at happly
    · cases happly
    · dsimp only at happly
      split at happly
      · unfold applyTransition at happly
        split at happly
        · rename_i hbefore
          cases happly
          exact follow_fails (s := s.countChange) (t := s.countChange) built sound fitted.program
            fitted.infos hbefore
        · rename_i t₁ _ hbefore
          obtain ⟨n, _, rfl⟩ := follow_eq_ok hbefore
          split at happly
          · rename_i hfail
            cases happly
            exact absurd hfail hput
          · rename_i hdone
            obtain ⟨r', hr', rfl⟩ := put_eq_ok hdone
            have hinfos := (changed_replace fitted.sound hnodup hr hr').infos
            split at happly
            · rename_i hafter
              cases happly
              exact follow_fails (s := { s.countChange.countRuns n with
                store := s.store.replace r' }) built sound fitted.program
                (hinfos.trans fitted.infos) hafter
            · cases happly
      · split at happly
        · rename_i hfail
          cases happly
          exact absurd hfail hput
        · cases happly

theorem Pends.propagate {n : Nat} (h : s.Pends p us) :
    (∀ e, (propagate n s us).2 = .error (.exec e) → e.isOfValues = true) ∧
      ((propagate n s us).2 = .ok () → (propagate n s us).1.Fitted p) := by
  induction n generalizing s us with
  | zero =>
    cases us with
    | nil =>
      refine ⟨fun e he => ?_, fun _ => h.fitted⟩
      cases he
    | cons u rest => exact ⟨by simp [Session.propagate], by simp [Session.propagate]⟩
  | succ n ih =>
    cases us with
    | nil =>
      refine ⟨fun e he => ?_, fun _ => h.fitted⟩
      cases he
    | cons u rest =>
      rw [Session.propagate]
      split
      · rename_i s' e happly
        refine ⟨fun x hx => ?_, by simp⟩
        cases hx
        exact h.apply_fails built sound happly
      · rename_i happly
        exact ih (h.step built sound happly)

/-! ### Inspection -/

theorem Formed.base_isSome (formed : s.Formed p) :
    ∀ rel ∈ d.relations.map (·.name), (s.store.get? rel).isSome := by
  intro rel hrel
  obtain ⟨info, hinfo, rfl⟩ := List.mem_map.mp hrel
  exact Store.get?_isSome formed.infos ⟨info, built.relations_subset sound hinfo, rfl, rfl⟩

theorem Fitted.demandedRows_fails (fitted : s.Fitted p) {q : CompiledQuery} (hq : q ∈ p.queries)
    (hmode : q.mode ≠ .batch) {rows : List Row}
    (hrows : ∀ row ∈ rows, row.length = q.params.length) (memo : Batch.Memo) :
    FailsOnly (·.isOfValues = true) (s.demandedRows q.name rows memo) := by
  have hstore := fitted.base_isSome built sound
  induction rows generalizing memo with
  | nil => exact .ok []
  | cons row rows ih =>
    obtain ⟨hrow, hrows⟩ := List.forall_mem_cons.mp hrows
    have hask := (built.ask_fails sound hstore q hq).1 row hrow memo
    unfold demandedRows
    rw [fitted.program]
    split
    · rename_i e _ hrun
      intro e' he'
      cases he'
      exact built.troubles_kept sound hq hmode (hask e (congrArg Prod.fst hrun))
    · exact (ih hrows _).bind fun more _ => .ok _

theorem Fitted.expectedRows_fails (fitted : s.Fitted p) {q : CompiledQuery} (hq : q ∈ p.queries)
    (hmode : q.mode ≠ .batch) : FailsOnly (·.isOfValues = true) (s.expectedRows q) := by
  have hstore := fitted.base_isSome built sound
  unfold expectedRows
  split
  · rename_i hset
    have hdem : q.mode ≠ .dem := by
      intro hdem
      rw [built.demandSet_of_dem hq hdem] at hset
      cases hset
    intro e he
    rw [fitted.program] at he
    rcases (built.ask_fails sound hstore q hq).2 hdem (fun hm => absurd hm hmode) [] e he with
      htrouble | hlist
    · exact built.troubles_kept sound hq hmode htrouble
    · exact absurd hlist.mode hmode
  · rename_i set hset
    refine (fitted.demandedRows_fails built sound hq hmode (fun row hrow => ?_) []).bind
      fun rows _ => .ok _
    exact (fitted.rows set row ((mem_sortedRows s set row).mp hrow)).unique
      (built.nodup_catalog sound) (built.lists_set sound hq hset)

theorem Fitted.inspectAll_fails (fitted : s.Fitted p) {qs : List CompiledQuery}
    (hqs : ∀ q ∈ qs, q ∈ p.queries) {e : ExecError}
    (h : s.inspectAll qs = .error (.exec e)) : e.isOfValues = true := by
  induction qs with
  | nil => cases h
  | cons q qs ih =>
    obtain ⟨hq, hqs⟩ := List.forall_mem_cons.mp hqs
    rw [inspectAll] at h
    cases hinspect : s.inspect q with
    | ok _ =>
      rw [hinspect] at h
      exact ih hqs h
    | error x =>
      rw [hinspect] at h
      cases h
      unfold inspect at hinspect
      split at hinspect
      · cases hinspect
      · rename_i result hresult
        have hmode : q.mode ≠ .batch := built.mode_of_result hq hresult
        split at hinspect
        · split at hinspect
          · rename_i hexpected
            cases hinspect
            exact fitted.expectedRows_fails built sound hq hmode e hexpected
          · dsimp only at hinspect
            split at hinspect <;> cases hinspect
        · cases hinspect

/-! ### Operations -/

theorem Pends.change (h : s.Pends p [u]) :
    (∀ e, (s.change u).2 = .error (.exec e) → e.isOfValues = true) ∧
      ((s.change u).2 = .ok () → (s.change u).1.Fitted p) := by
  obtain ⟨n, hn⟩ := s.exists_settle_eq [u]
  obtain ⟨hfails, hfitted⟩ := h.propagate (n := n) built sound
  rw [← hn] at hfails hfitted
  unfold Session.change
  split
  · rename_i hrun
    rw [hrun] at hfails
    exact ⟨hfails, nofun⟩
  · rename_i t hrun
    rw [hrun] at hfitted
    have fitted : t.Fitted p := hfitted rfl
    split
    · rename_i e hinspect
      refine ⟨fun x hx => ?_, nofun⟩
      cases hx
      rw [fitted.program] at hinspect
      exact fitted.inspectAll_fails built sound (fun q hq => hq) hinspect
    · exact ⟨nofun, fun _ => fitted⟩

theorem Fitted.pends (fitted : s.Fitted p) (h : s.Asks t u) : t.Pends p [u] := by
  have hdemand : ∀ {query set : String} {params : Row}, s.demandTarget query params = .ok set →
      Lists p.catalog set params.length := by
    intro query set params htarget
    obtain ⟨q, hq, _, hset, hlength⟩ := demandTarget_eq_ok htarget
    rw [fitted.program] at hq
    exact hlength ▸ built.lists_set sound hq hset
  refine ⟨⟨fitted.toFormed.of_asks h, ?_⟩, List.forall_mem_singleton.mpr ?_⟩
  · cases h with
    | base | demand | undemand => exact fitted.rows
  · cases h with
    | base hbase =>
      obtain ⟨⟨hinfo, _⟩, hname, harity⟩ := baseInfo_eq_ok hbase
      exact ⟨_, fitted.program ▸ hinfo, hname, harity⟩
    | demand htarget | undemand htarget => exact hdemand htarget

theorem fitted_keptByChanges : KeptByChanges p fun s => s.Fitted p := by
  intro s t t' u _ fitted hasks hchange
  have hfitted := ((fitted.pends built sound hasks).change built sound).2
  rw [hchange] at hfitted
  exact hfitted rfl

theorem Fitted.makes (fitted : s.Fitted p) {op : Op} (h : s.Makes op t u) : t.Pends p [u] := by
  obtain ⟨r, _, fitted', hasks⟩ := (fitted_keptByChanges built sound).makes
    (built.nodup_catalog sound) fitted.toFormed fitted h
  exact fitted'.pends built sound hasks

theorem Fitted.perform_fails (fitted : s.Fitted p) {op : Op} (hop : op.isQuery = false)
    {e : ExecError} (h : (s.perform op).2 = .error (.exec e)) : e.isOfValues = true := by
  rcases perform_turns s op with ⟨r, hout, hrefuses⟩ | ⟨_, t, u, hmakes, hout⟩
  · rw [hout] at h
    have hrefusal := hrefuses hop _ h
    cases hrefusal
  · rw [hout] at h
    exact ((fitted.makes built sound hmakes).change built sound).1 e h

theorem after_fitted (ops : List Op) :
    ((ofProgram p).after ops).poisoned = true ∨ ((ofProgram p).after ops).Fitted p := by
  have nodup := built.nodup_catalog sound
  exact ((fitted_keptByChanges built sound).after nodup (ofProgram_fitted nodup) ops).imp_right
    (·.2)

end Propagation

/-- In every history an operation that changes something fails because of values only, and every
changed row on the way falls apart by the patterns of its handlers. -/
theorem after_sound (built : Compile.Built o d p) (sound : d.Sound) (ops : List Op) {op : Op}
    (hop : op.isQuery = false) :
    (∀ e, (((ofProgram p).after ops).perform op).2 = .error (.exec e) →
      e.isInternal = false ∧ ∀ v, e ≠ .eval (.unbound v)) ∧
    (((ofProgram p).after ops).poisoned = false →
      ∀ t u, ((ofProgram p).after ops).Makes op t u → ∀ t' w rest, t.Works [u] t' (w :: rest) →
        ∀ h ∈ p.handlersFor w.rel, ∀ pattern ∈ h.code.changedPatterns,
          (Value.tuple w.row).itemsOf pattern.length = .ok w.row) := by
  rcases after_fitted built sound ops with hp | fitted
  · refine ⟨fun e he => ?_, fun healthy => ?_⟩
    · rw [perform_poisoned hp] at he
      cases he
    · rw [hp] at healthy
      cases healthy
  · refine ⟨fun e he => ExecError.isOfValues_iff.mp (fitted.perform_fails built sound hop he),
      fun _ t u hmakes t' w rest hworks h hh => ?_⟩
    obtain ⟨hmem, hrel⟩ := List.mem_filter.mp hh
    have hpends := (fitted.makes built sound hmakes).works built sound hworks
    have hrow := hpends.pending w List.mem_cons_self
    rw [← of_decide_eq_true hrel] at hrow
    exact built.handler_patterns sound hmem hrow

end Session

/-- Maintenance never goes wrong by itself. A query whose own clauses can be ordered is compiled,
unless an argument of a subquery has no tag; and no operation on a compiled program, with failed
queries left out or without, fails internally, for want of a binding or by a changed row that does
not fit. -/
theorem Compile.maintenance_sound {text : String} {script : Script}
    (parsed : Script.ofText text = .ok script) (o : Compile.Options) :
    (∀ d decls, Compile.prepare script = .ok (d, decls) →
      ∀ done decl rest, decls = done ++ decl :: rest → ∀ P, Compile.Reached o d done P →
        ∀ s spec counted,
          Compile.Accepted o decl ⟨d.relations, P.program.queries.map (·.signature)⟩ s spec counted →
          FailsOnly (fun e => ∃ subquery param, e = .ungroundedArgument decl.name subquery param)
            (Compile.query o decl ⟨d.relations, P.program.queries.map (·.signature)⟩
              P.program.catalog)) ∧
    ∀ p, Program.ofScript o script = .ok p ∨ (Program.ofScriptLenient o script).1 = p →
      ∀ (ops : List Session.Op) (op : Session.Op), op.isQuery = false →
        (∀ e, (((Session.ofProgram p).after ops).perform op).2 = .error (.exec e) →
          e.isInternal = false ∧ ∀ v, e ≠ .eval (.unbound v)) ∧
        (((Session.ofProgram p).after ops).poisoned = false →
          ∀ t u, ((Session.ofProgram p).after ops).Makes op t u →
            ∀ t' w rest, t.Works [u] t' (w :: rest) →
              ∀ h ∈ p.handlersFor w.rel, ∀ pattern ∈ h.code.changedPatterns,
                (Value.tuple w.row).itemsOf pattern.length = .ok w.row) := by
  have named := Script.ofText_wellNamed parsed
  refine ⟨?_, fun p hp ops op hop => ?_⟩
  · intro d decls hprepare done decl rest hdecls P hreached s spec counted accepted
    obtain ⟨sound, hqueries, hnodup⟩ := prepare_sound named hprepare
    rw [hdecls] at hqueries hnodup
    have hdecl : decl ∈ d.queries := hqueries decl (by simp)
    exact query_accepted (hreached.built (decl :: rest) hqueries hnodup)
      (sound.queries decl hdecl) accepted
  · have hbuilt : ∃ d : Declarations, d.Sound ∧ Built o d p := by
      rcases hp with hp | rfl
      · obtain ⟨d, _, _, sound, built, _⟩ := ofScript_built named hp
        exact ⟨d, sound, built⟩
      · exact ofScriptLenient_built named
    obtain ⟨d, sound, built⟩ := hbuilt
    exact Session.after_sound built sound ops hop

theorem Compile.strictSteps_first {o : Compile.Options} {d : Declarations} {decl : QueryDecl}
    {rest : List QueryDecl} {P : Compile.Progress}
    (h : Compile.strictSteps o d (Compile.start d) (decl :: rest) = .ok P) :
    ∃ q, Compile.query o decl ⟨d.relations, []⟩ d.relations = .ok q := by
  obtain ⟨P', hstep, _⟩ := bind_eq_ok.mp h
  unfold Compile.step at hstep
  rw [if_neg (by simp [Compile.start])] at hstep
  obtain ⟨q, hq, _⟩ := bind_eq_ok.mp hstep
  exact ⟨q, hq⟩

set_option maxRecDepth 10000 in
theorem Compile.maintenance_sound_sample : ∃ script p,
    Script.ofText (sampleText "") = .ok script ∧
    Program.ofScript ⟨.default, .silent⟩ script = .ok p ∧
    (∃ d decl rest, Compile.prepare script = .ok (d, decl :: rest) ∧
      (∃ s spec counted, Compile.Accepted ⟨.default, .silent⟩ decl ⟨d.relations, []⟩ s spec counted) ∧
      FailsOnly (fun e => ∃ subquery param, e = .ungroundedArgument decl.name subquery param)
        (Compile.query ⟨.default, .silent⟩ decl ⟨d.relations, []⟩ d.relations)) ∧
    ∃ s, s = (Session.ofProgram p).after Session.sampleOps ∧ s.poisoned = false ∧
      s.Makes (.add "R" [.int 3, .int 4]) s ⟨"R", .add, [.int 3, .int 4]⟩ ∧
      (∀ e, (s.perform (.add "R" [.int 3, .int 4])).2 = .error (.exec e) →
        e.isInternal = false ∧ ∀ v, e ≠ .eval (.unbound v)) ∧
      ∃ h ∈ p.handlersFor "R", h.code.changedPatterns ≠ [] ∧
        ∀ pattern ∈ h.code.changedPatterns,
          (Value.tuple [.int 3, .int 4]).itemsOf pattern.length = .ok [.int 3, .int 4] := by
  obtain ⟨p, hp, hqueries, healthy, ⟨info, hinfo, _⟩, habsent, g, hg, hpatterns⟩ : ∃ p,
      Program.ofText? ⟨.default, .silent⟩ (sampleText "") = some p ∧ p.queries ≠ [] ∧
      ((Session.ofProgram p).after Session.sampleOps).poisoned = false ∧
      (∃ info, ((Session.ofProgram p).after Session.sampleOps).baseInfo "R" 2 = .ok info ∧
        info.name = "R") ∧
      ((Session.ofProgram p).after Session.sampleOps).store.contains "R" [.int 3, .int 4] = false ∧
      ∃ h ∈ p.handlersFor "R", h.code.changedPatterns ≠ [] := by
    decide +kernel
  obtain ⟨script, hscript, hof⟩ := Program.exists_script_of_text hp
  obtain ⟨⟨d, decls⟩, hprepare, hsteps⟩ := bind_eq_ok.mp hof
  obtain ⟨P, hsteps, _⟩ := bind_eq_ok.mp hsteps
  obtain ⟨_, _, hprepare', _, _, hnames⟩ :=
    Compile.ofScript_built (Script.ofText_wellNamed hscript) hof
  cases hprepare.symm.trans hprepare'
  cases decls with
  | nil =>
    rw [List.map_nil, List.map_eq_nil_iff] at hnames
    exact absurd hnames hqueries
  | cons decl rest =>
    obtain ⟨q, hq⟩ := Compile.strictSteps_first hsteps
    have haccepted := Compile.query_ok_accepted hq
    have hreached : Compile.Reached ⟨.default, .silent⟩ d [] (Compile.start d) := .inr rfl
    have hmain := Compile.maintenance_sound hscript ⟨.default, .silent⟩
    have hmakes : ((Session.ofProgram p).after Session.sampleOps).Makes
        (.add "R" [.int 3, .int 4]) _ _ := .add hinfo habsent
    obtain ⟨hfaults, hapart⟩ :=
      hmain.2 p (.inl hof) Session.sampleOps (.add "R" [.int 3, .int 4]) rfl
    refine ⟨script, p, hscript, hof, ⟨d, decl, rest, hprepare, ⟨_, _, _, haccepted⟩, ?_⟩, _, rfl,
      healthy, hmakes, hfaults, g, hg, hpatterns, ?_⟩
    · exact hmain.1 d _ hprepare [] decl rest rfl _ hreached _ _ _ haccepted
    · exact hapart healthy _ _ hmakes _ _ _ .start g hg

end ViewUpkeep
