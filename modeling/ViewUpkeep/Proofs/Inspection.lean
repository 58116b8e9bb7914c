import ViewUpkeep.Proofs.Equivalence
import ViewUpkeep.Proofs.Faults
import ViewUpkeep.Proofs.Quiet

/-!
What inspection does to a session. In good order the rows kept for a query are those that it should
have, so inspection fails only where evaluation does. Until then a session that is inspected serves
every request as one that is not. The first evaluation that fails poisons it, though: an order of
clauses by which a query is evaluated can meet values that no change was ever joined with.
-/
namespace ViewUpkeep

theorem Row.nodup_gather {starts : List Row} {found : Row → List Row} {n : Nat}
    (nodup : starts.Nodup) (lengths : ∀ start ∈ starts, start.length = n)
    (nodups : ∀ start ∈ starts, (found start).Nodup) :
    (starts.flatMap fun start => (found start).map (start ++ ·)).Nodup := by
  refine List.nodup_flatMap.mpr ⟨fun start hstart => ?_, ?_⟩
  · exact (nodups start hstart).map (List.append_right_injective start)
  · refine nodup.imp_of_mem fun ha hb hne row hrow hrow' => ?_
    obtain ⟨x, _, rfl⟩ := List.mem_map.mp hrow
    obtain ⟨y, _, hxy⟩ := List.mem_map.mp hrow'
    exact hne (List.append_inj hxy ((lengths _ hb).trans (lengths _ ha).symm)).1.symm

theorem Row.Ascending.gather {rows starts : List Row} {n : Nat} (h : Ascending rows)
    (nodup : starts.Nodup) (lengths : ∀ start ∈ starts, start.length = n)
    (covered : ∀ row ∈ rows, row.take n ∈ starts) :
    rows = sort (starts.flatMap fun start => (Row.suffixes rows start).map (start ++ ·)) := by
  refine h.ext (sort_ascending (nodup_gather nodup lengths fun start _ => (h.suffixes start).1))
    fun row => ?_
  rw [mem_sort, List.mem_flatMap]
  constructor
  · intro hrow
    refine ⟨row.take n, covered row hrow, List.mem_map.mpr ⟨row.drop n, ?_, ?_⟩⟩
    · rwa [mem_suffixes, List.take_append_drop]
    · exact List.take_append_drop n row
  · rintro ⟨start, _, hrow⟩
    obtain ⟨x, hx, rfl⟩ := List.mem_map.mp hrow
    exact mem_suffixes.mp hx

theorem Program.KeptBy.quiet {p : Program} {strategies : List SelfJoin}
    (h : p.KeptBy strategies) : p.quiet.KeptBy strategies := List.forall_mem_map.mpr h

namespace Session

variable {o : Compile.Options} {d : Declarations} {p : Program} {s t : Session} {q : CompiledQuery}

/-! ### The rows that a query should have -/

theorem demandedRows_eq_ok (nodup : (s.program.queries.map (·.name)).Nodup) {name : String}
    {asked : List Batch.Question} {ps rows : List Row}
    (h : s.demandedRows name ps (Batch.memoAfter s.program s.store asked) = .ok rows) :
    ∃ found : Row → List Row,
      (∀ params ∈ ps, s.program.evaluate s.store name params = .ok (found params)) ∧
      rows = ps.flatMap fun params => (found params).map (params ++ ·) := by
  refine ⟨fun params => ((s.program.evaluate s.store name params).toOption).getD [], ?_⟩
  induction ps generalizing asked rows with
  | nil =>
    cases h
    exact ⟨by simp, rfl⟩
  | cons params ps ih =>
    unfold demandedRows at h
    have hfresh := Batch.run_memoAfter nodup s.store asked (name, some params)
    rcases hrun : Batch.run s.program s.store (name, some params)
      (Batch.memoAfter s.program s.store asked) with ⟨e | first, memo⟩
    · rw [hrun] at h
      cases h
    · rw [hrun] at h hfresh
      obtain ⟨more, hmore, h⟩ := bind_eq_ok.mp h
      cases h
      have hmemo : memo =
          Batch.memoAfter s.program s.store (asked ++ [(name, some params)]) := by
        rw [Batch.memoAfter, List.foldl_append]
        exact (congrArg Prod.snd hrun).symm
      rw [hmemo] at hmore
      obtain ⟨hfound, rfl⟩ := ih hmore
      have hfirst : s.program.evaluate s.store name params = .ok first := hfresh.symm
      refine ⟨List.forall_mem_cons.mpr ⟨?_, hfound⟩, ?_⟩
      · simp only [hfirst]
        rfl
      · simp only [List.flatMap_cons, hfirst]
        rfl

theorem Fitted.length_result (fitted : s.Fitted p) (built : Compile.Built o d p) (sound : d.Sound)
    (hq : q ∈ p.queries) (hmode : q.mode ≠ .batch) {row : Row} (h : row ∈ s.sortedRows q.name) :
    q.params.length ≤ row.length := by
  obtain ⟨_, _, _, _, _, _, hcompiled⟩ := built.mem_compiled hq
  have hlists := (hcompiled.lists_result hmode).mono (built.query_relations_subset sound hq)
  have hlength := (fitted.rows _ row ((mem_sortedRows s q.name row).mp h)).unique
    (built.nodup_catalog sound) hlists
  rw [hlength, hcompiled.params]
  exact Nat.le_add_right _ _

theorem Agrees.expected_demanded (agrees : s.Agrees) (fitted : s.Fitted p)
    (built : Compile.Built o d p) (sound : d.Sound) (hq : q ∈ p.queries) (hdem : q.mode = .dem)
    {rows : List Row} (h : s.expectedRows q = .ok rows) : s.sortedRows q.name = rows := by
  have hmode : q.mode ≠ .batch := by simp [hdem]
  have hset := built.demandSet_of_dem hq hdem
  obtain ⟨_, set, hsome, hset', hrows⟩ := agrees.demanded q (fitted.program ▸ hq) hdem
  cases (built.result_eq hq hmode).symm.trans hsome
  cases hset.symm.trans hset'
  unfold expectedRows at h
  rw [hset] at h
  obtain ⟨gathered, hgathered, h⟩ := bind_eq_ok.mp h
  cases h
  have hnodup : (s.program.queries.map (·.name)).Nodup := fitted.program ▸ built.nodup_queries
  have hfresh : s.demandedRows q.name (s.sortedRows (Demand.setName q.name))
      (Batch.memoAfter s.program s.store []) = .ok gathered := hgathered
  obtain ⟨found, hfound, rfl⟩ := demandedRows_eq_ok hnodup hfresh
  have hlength : ∀ params ∈ s.sortedRows (Demand.setName q.name),
      params.length = q.params.length := fun params hparams =>
    (fitted.rows _ params ((mem_sortedRows s _ params).mp hparams)).unique
      (built.nodup_catalog sound) (built.lists_set sound hq hset)
  have hsuffixes : ∀ params ∈ s.sortedRows (Demand.setName q.name),
      (found params).map (params ++ ·) =
        (Row.suffixes (s.sortedRows q.name) params).map (params ++ ·) := by
    intro params hparams
    rw [(hrows params (hlength params hparams)).1 ((mem_sortedRows s _ params).mp hparams) _
      (hfound params hparams)]
  rw [List.flatMap_congr hsuffixes]
  refine (sortedRows_ascending fitted.sound q.name).gather
    (sortedRows_ascending fitted.sound _).1 hlength fun row hrow => ?_
  have htake : (row.take q.params.length).length = q.params.length :=
    List.length_take_of_le (fitted.length_result built sound hq hmode hrow)
  rw [mem_sortedRows]
  by_contra habsent
  refine (hrows _ htake).2 (by simpa [Store.Has] using habsent) row hrow ?_
  rw [htake]

theorem Agrees.expected (agrees : s.Agrees) (fitted : s.Fitted p) (built : Compile.Built o d p)
    (sound : d.Sound) (hq : q ∈ p.queries) (hmode : q.mode ≠ .batch) {rows : List Row}
    (h : s.expectedRows q = .ok rows) : s.sortedRows q.name = rows := by
  by_cases hdem : q.mode = .dem
  · exact agrees.expected_demanded fitted built sound hq hdem h
  · obtain ⟨_, hsome, hrows⟩ := agrees.full q (fitted.program ▸ hq) (Mode.eq_inc hdem hmode)
    cases (built.result_eq hq hmode).symm.trans hsome
    refine hrows rows ?_
    unfold expectedRows at h
    split at h
    · exact h
    · rename_i set hset
      cases hset.symm.trans (built.demandSet_of_not_dem hq hdem)

theorem demandedRows_quiet (s : Session) (name : String) (ps : List Row) (memo : Batch.Memo) :
    s.quiet.demandedRows name ps memo = s.demandedRows name ps memo := by
  induction ps generalizing memo with
  | nil => rfl
  | cons params ps ih =>
    simp only [demandedRows, ih, show s.quiet.program = s.program.quiet from rfl, Batch.run_quiet]
    rfl

theorem expectedRows_quiet (s : Session) (q : CompiledQuery) :
    s.quiet.expectedRows q.quiet = s.expectedRows q := by
  unfold expectedRows Program.evaluateAll
  rw [show s.quiet.program = s.program.quiet from rfl, Batch.run_quiet]
  simp only [demandedRows_quiet]
  rfl

/-! ### Inspection that fails -/

theorem inspectAll_error {qs : List CompiledQuery} {e : RuntimeError}
    (h : s.inspectAll qs = .error e) : ∃ q ∈ qs, s.inspect q = .error e := by
  induction qs with
  | nil => cases h
  | cons q qs ih =>
    rw [inspectAll] at h
    cases hinspect : s.inspect q with
    | ok _ =>
      rw [hinspect] at h
      obtain ⟨r, hr, hfails⟩ := ih h
      exact ⟨r, List.mem_cons_of_mem q hr, hfails⟩
    | error x =>
      rw [hinspect] at h
      cases h
      exact ⟨q, List.mem_cons_self, hinspect⟩

theorem inspect_error {e : RuntimeError} (h : s.inspect q = .error e) :
    ∃ result, q.result = some result ∧ q.settings.instrument = true ∧
      ((∃ x, s.expectedRows q = .error x ∧ e = .exec x) ∨
        ∃ rows, s.expectedRows q = .ok rows ∧ s.sortedRows result ≠ rows ∧
          e = .instrumentationMismatch q.name rows (s.sortedRows result)) := by
  unfold inspect at h
  split at h
  · cases h
  · rename_i result hresult
    split at h
    · rename_i hinstrument
      refine ⟨result, hresult, hinstrument, ?_⟩
      split at h
      · rename_i x hexpected
        cases h
        exact .inl ⟨x, hexpected, rfl⟩
      · rename_i rows hexpected
        dsimp only at h
        split at h
        · cases h
        · rename_i hne
          cases h
          exact .inr ⟨rows, hexpected, hne, rfl⟩
    · cases h

theorem Faults.evaluation {e : RuntimeError} (faults : s.Faults t e) (built : Compile.Built o d p)
    (sound : d.Sound) (fitted : t.quiet.Fitted p) (agrees : t.quiet.Agrees) :
    ∃ q ∈ s.program.queries, q.settings.instrument = true ∧ ∃ x, e = .exec x ∧
      t.quiet.expectedRows q = .error x ∧ x.isOfValues = true := by
  obtain ⟨q, hq, hinspect⟩ := inspectAll_error faults.fails
  obtain ⟨result, hresult, hinstrument, hwrong⟩ := inspect_error hinspect
  have hquiet : q.quiet ∈ p.queries := by
    rw [← fitted.program]
    exact List.mem_map_of_mem hq
  have hmode : q.quiet.mode ≠ .batch := built.mode_of_result hquiet hresult
  refine ⟨q, faults.program ▸ hq, hinstrument, ?_⟩
  rcases hwrong with ⟨x, hexpected, rfl⟩ | ⟨rows, hexpected, hne, _⟩
  · rw [← expectedRows_quiet] at hexpected
    exact ⟨x, rfl, hexpected, fitted.expectedRows_fails built sound hquiet hmode x hexpected⟩
  · rw [← expectedRows_quiet] at hexpected
    have hname := built.result_eq hquiet hmode
    cases hresult.symm.trans hname
    exact absurd (agrees.expected fitted built sound hquiet hmode hexpected) hne

/-! ### Calls -/

inductive Reply where
  | done
  | flag (b : Bool)
  | rows (rows : List Row)
  | demands (demands : List ((String × Row) × Nat))
  | stats (stats : Stats)
deriving DecidableEq

def reply {α : Type} (f : α → Reply) (out : Outcome α) : Outcome Reply := (out.1, out.2.map f)

def respond (s : Session) : Op → Outcome Reply
  | .add rel row => reply .flag (s.add rel row)
  | .remove rel row => reply .flag (s.remove rel row)
  | .assign map key value => reply .flag (s.assign map key value)
  | .unassign map key => reply .flag (s.unassign map key)
  | .demand query params => reply (fun _ => .done) (s.demand query params)
  | .undemand query params => reply (fun _ => .done) (s.undemand query params)
  | .query name params => reply .rows (s.query name params)

inductive Call where
  | operate (op : Op)
  | isDemanded (query : String) (params : Row)
  | evaluate (query : String) (params : Row)
  | results (query : String)
  | userDemands
  | stats

def serve (s : Session) : Call → Outcome Reply
  | .operate op => s.respond op
  | .isDemanded query params => (s, (s.isDemanded query params).map .flag)
  | .evaluate query params => (s, (s.evaluate query params).map .rows)
  | .results query => (s, (s.results query).map .rows)
  | .userDemands => (s, .ok (.demands s.userDemands))
  | .stats => (s, .ok (.stats s.stats))

def served (s : Session) (rs : List Call) : Session := rs.foldl (fun s r => (s.serve r).1) s

def replies (s : Session) : List Call → List (Except RuntimeError Reply)
  | [] => []
  | r :: rs => (s.serve r).2 :: (s.serve r).1.replies rs

def Call.op? : Call → Option Op
  | .operate op => some op
  | _ => none

theorem unanswered_reply {α : Type} (f : α → Reply) (out : Outcome α) :
    unanswered (reply f out) = unanswered out := by
  obtain ⟨t, r⟩ := out
  cases r <;> rfl

theorem unanswered_unit (out : Outcome Unit) : unanswered out = out := by
  obtain ⟨t, e | _⟩ := out <;> rfl

theorem unanswered_respond (s : Session) (op : Op) : unanswered (s.respond op) = s.perform op := by
  cases op <;> simp only [respond, perform, unanswered_reply, unanswered_unit]

theorem served_eq_after (s : Session) (rs : List Call) :
    s.served rs = s.after (rs.filterMap Call.op?) := by
  induction rs generalizing s with
  | nil => rfl
  | cons r rs ih =>
    cases r with
    | operate op =>
      have hstep : (s.respond op).1 = (s.perform op).1 :=
        congrArg Prod.fst (unanswered_respond s op)
      show (s.respond op).1.served rs = _
      rw [hstep, ih]
      rfl
    | _ => exact ih s

theorem served_poisoned (h : s.poisoned = true) (rs : List Call) :
    (s.served rs).poisoned = true := by
  rw [served_eq_after]
  induction rs.filterMap Call.op? with
  | nil => exact h
  | cons op ops ih =>
    rw [after, List.foldl_cons, perform_poisoned h]
    exact ih

theorem Watched.reply {α : Type} {on off : Outcome α} (h : s.Watched on off) (f : α → Reply) :
    s.Watched (reply f on) (reply f off) := by
  rcases h with rfl | ⟨t, e, a, faults, rfl, rfl⟩
  · exact .same rfl
  · exact .cut t e (f a) faults rfl rfl

/-- An operation that comes first in another: to give a key another value, the old one is taken
away. -/
def Op.Begins (first op : Op) : Prop :=
  first = op ∨ ∃ map key value, op = .assign map key value ∧ first = .unassign map key

def CutShort (s : Session) (op : Op) : Prop :=
  ∃ first t e, first.Begins op ∧ s.Faults t e ∧ s.quiet.perform first = (t.quiet, .ok ()) ∧
    s.respond op = (t.poison, .error e)

theorem respond_watched (s : Session) (op : Op) :
    s.quiet.respond op = hush (s.respond op) ∨ s.CutShort op := by
  have hwatched : s.Watched (s.respond op) (s.quiet.respond op) →
      s.quiet.respond op = hush (s.respond op) ∨ s.CutShort op := by
    rintro (h | ⟨t, e, a, faults, hon, hoff⟩)
    · exact .inl h
    · refine .inr ⟨op, t, e, .inl rfl, faults, ?_, hon⟩
      rw [← unanswered_respond, hoff]
      rfl
  cases op with
  | add rel row => exact hwatched ((s.add_watched rel row).reply _)
  | remove rel row => exact hwatched ((s.remove_watched rel row).reply _)
  | unassign map key => exact hwatched ((s.unassign_watched map key).reply _)
  | demand query params => exact hwatched ((s.demand_watched query params).reply _)
  | undemand query params => exact hwatched ((s.undemand_watched query params).reply _)
  | query name params => exact hwatched ((s.query_watched name params).reply _)
  | assign map key value =>
    rcases s.assign_watched map key value with h | ⟨t, e, faults, hon, hoff⟩
    · exact hwatched (h.reply _)
    · refine .inr ⟨.unassign map key, t, e, .inr ⟨map, key, value, rfl, rfl⟩, faults, ?_, ?_⟩
      · simp only [perform, hoff]
        rfl
      · simp only [respond, hon]
        rfl

/-- A call is served alike with inspection and without, unless inspection fails. -/
theorem serve_watched (s : Session) (r : Call) :
    s.quiet.serve r = hush (s.serve r) ∨ ∃ op, r = .operate op ∧ s.CutShort op := by
  cases r with
  | operate op => exact (s.respond_watched op).imp_right fun h => ⟨op, rfl, h⟩
  | isDemanded query params => exact .inl (by simp only [serve, isDemanded_quiet, hush])
  | evaluate query params => exact .inl (by simp only [serve, evaluate_quiet, hush])
  | results query => exact .inl (by simp only [serve, results_quiet, hush])
  | userDemands | stats => exact .inl rfl

structure Unmoved (s : Session) (rs : List Call) : Prop where
  replies : s.quiet.replies rs = s.replies rs
  served : s.quiet.served rs = (s.served rs).quiet

theorem Unmoved.cons {r : Call} {rs : List Call} (h : s.quiet.serve r = hush (s.serve r))
    (rest : (s.serve r).1.Unmoved rs) : s.Unmoved (r :: rs) := by
  have hstate : (s.quiet.serve r).1 = (s.serve r).1.quiet := by rw [h, hush]
  have hreply : (s.quiet.serve r).2 = (s.serve r).2 := by rw [h, hush]
  refine ⟨?_, ?_⟩
  · simp only [Session.replies, hstate, hreply, rest.replies]
  · simp only [Session.served, List.foldl_cons, hstate]
    exact rest.served

theorem served_watched (s : Session) (rs : List Call) :
    s.Unmoved rs ∨ ∃ pre op post, rs = pre ++ .operate op :: post ∧ s.Unmoved pre ∧
      (s.served pre).CutShort op := by
  induction rs generalizing s with
  | nil => exact .inl ⟨rfl, rfl⟩
  | cons r rs ih =>
    rcases s.serve_watched r with h | ⟨op, rfl, hcut⟩
    · rcases ih (s.serve r).1 with hrest | ⟨pre, op, post, rfl, hpre, hcut⟩
      · exact .inl (.cons h hrest)
      · exact .inr ⟨r :: pre, op, post, rfl, .cons h hpre, hcut⟩
    · exact .inr ⟨[], op, rs, rfl, ⟨rfl, rfl⟩, hcut⟩

/-! ### Sessions with inspection and without -/

structure ServeAlike (s s' : Session) (rs : List Call) : Prop where
  replies : s.replies rs = s'.replies rs
  store : (s.served rs).store = (s'.served rs).store
  poisoned : (s.served rs).poisoned = (s'.served rs).poisoned
  demands : (s.served rs).demands = (s'.served rs).demands
  stats : (s.served rs).stats = (s'.served rs).stats

/-- Calls by which a session is poisoned and another need not be: up to an operation they serve them
alike; this operation, or its beginning, leads the other session to a state in which the evaluation
of an inspected query fails because of values. The poisoned session answers with that error and has
the store of that state. -/
def StoppedBy (s s' : Session) (rs : List Call) : Prop :=
  (s.served rs).poisoned = true ∧
  ∃ pre op post, rs = pre ++ .operate op :: post ∧ s.ServeAlike s' pre ∧
    ∃ first t, first.Begins op ∧ (s'.served pre).perform first = (t, .ok ()) ∧
      ∃ q ∈ s.program.queries, q.settings.instrument = true ∧ ∃ e, t.expectedRows q = .error e ∧
        (e.isInternal = false ∧ ∀ v, e ≠ .eval (.unbound v)) ∧
        ((s.served pre).respond op).2 = .error (.exec e) ∧
        ((s.served pre).respond op).1.poisoned = true ∧
        ((s.served pre).respond op).1.store = t.store

theorem Unmoved.serveAlike {rs : List Call} (h : s.Unmoved rs) : s.ServeAlike s.quiet rs := by
  refine ⟨h.replies.symm, ?_, ?_, ?_, ?_⟩ <;> rw [h.served] <;> rfl

theorem after_fitted_agrees (built : Compile.Built o d p) (sound : d.Sound)
    (strategies : p.KeptBy [.sub, .aug, .das])
    (reading : ∀ q ∈ p.queries, ∀ c, q.maintained = some c → c.join.rels ≠ [])
    {ops : List Op} (healthy : ((ofProgram p).after ops).poisoned = false) :
    ((ofProgram p).after ops).Fitted p ∧ ((ofProgram p).after ops).Agrees := by
  have follows := built.follows sound (strategies.exact (by decide))
  obtain ⟨base, order⟩ := (after_keeps built sound follows ops).resolve_left (by simp [healthy])
  refine ⟨(after_fitted built sound ops).resolve_left (by simp [healthy]),
    order.agrees built sound fun q hq => CompiledQuery.isAlive_iff.mpr (reading q hq)⟩

theorem CutShort.healthy {op : Op} (cut : s.CutShort op) : s.poisoned = false := by
  obtain ⟨first, t, e, _, _, hoff, _⟩ := cut
  by_contra hp
  have hpoisoned : s.quiet.poisoned = true := (Bool.not_eq_false _).mp hp
  rw [perform_poisoned hpoisoned] at hoff
  cases congrArg Prod.snd hoff

theorem CutShort.stoppedBy {o' : Compile.Options} {d' : Declarations} (built : Compile.Built o d p)
    (sound : d.Sound) (built' : Compile.Built o' d' p.quiet) (sound' : d'.Sound)
    (strategies : p.KeptBy [.sub, .aug, .das])
    (reading : ∀ q ∈ p.queries, ∀ c, q.maintained = some c → c.join.rels ≠ []) {pre : List Call}
    {op : Op} (unmoved : (ofProgram p).Unmoved pre) (cut : ((ofProgram p).served pre).CutShort op)
    (post : List Call) :
    (ofProgram p).StoppedBy (ofProgram p.quiet) (pre ++ .operate op :: post) := by
  have healthy := cut.healthy
  obtain ⟨first, t, e, hbegins, faults, hoff, hon⟩ := cut
  have hprogram : ((ofProgram p).served pre).program = p := by
    rw [served_eq_after] at healthy ⊢
    exact ((after_formed (built.nodup_catalog sound) _).resolve_left (by simp [healthy])).program
  rw [← unmoved.served] at hoff
  have hafter : t.quiet = (ofProgram p.quiet).after (pre.filterMap Call.op? ++ [first]) := by
    rw [after_concat, ← served_eq_after]
    exact (congrArg Prod.fst hoff).symm
  have hthere : ((ofProgram p.quiet).after (pre.filterMap Call.op? ++ [first])).poisoned = false := by
    rw [← hafter]
    exact faults.poisoned.trans healthy
  obtain ⟨fitted, agrees⟩ := after_fitted_agrees built' sound' strategies.quiet
    (List.forall_mem_map.mpr reading) hthere
  rw [← hafter] at fitted agrees
  obtain ⟨q, hq, hinstrument, x, rfl, hexpected, hvalues⟩ :=
    faults.evaluation built' sound' fitted agrees
  rw [hprogram] at hq
  refine ⟨?_, pre, op, post, rfl, unmoved.serveAlike, first, t.quiet, hbegins, hoff, q, hq,
    hinstrument, x, hexpected, ExecError.isOfValues_iff.mp hvalues, ?_⟩
  · rw [served, List.foldl_append, List.foldl_cons]
    refine served_poisoned ?_ post
    show (((ofProgram p).served pre).respond op).1.poisoned = true
    rw [hon]
    rfl
  · rw [hon]
    exact ⟨rfl, rfl, rfl⟩

def joinText (options : String) : String :=
  "relation X(1); relation C(2); relation A(2); relation B(2); " ++
  "query Q = \x7b(v, u) : v in X, (w, u) in C, (v, y) in A, (y, w) in B, v < w\x7d" ++
    options ++ ";"

def joinCalls : List Call :=
  [.operate (.add "X" [.str "a"]), .operate (.add "A" [.str "a", .int 1]),
    .operate (.add "B" [.int 1, .int 2])]

set_option maxRecDepth 10000 in
/-- Nothing is joined with the last row while `C` is empty; evaluation compares it before that. -/
theorem served_opaque : ∃ p p',
    Program.ofText? ⟨.default, .silent⟩ (joinText " with instrument = on") = some p ∧
    Program.ofText? ⟨.default, .silent⟩ (joinText "") = some p' ∧
    (∀ q ∈ p'.queries, q.settings.instrument = false) ∧ p.KeptBy [.sub, .aug, .das] ∧
    (∀ q ∈ p.queries, ∀ c, q.maintained = some c → c.join.rels ≠ []) ∧
    (ofProgram p).replies joinCalls = [.ok (.flag true), .ok (.flag true),
      .error (.exec (.eval (.typeMismatch .lt (.str "a") (.int 2))))] ∧
    (ofProgram p').replies joinCalls = [.ok (.flag true), .ok (.flag true), .ok (.flag true)] ∧
    ((ofProgram p).served joinCalls).poisoned = true ∧
    ((ofProgram p').served joinCalls).poisoned = false := by
  obtain ⟨p, hp, p', hp', h⟩ : ∃ p,
      Program.ofText? ⟨.default, .silent⟩ (joinText " with instrument = on") = some p ∧
      ∃ p', Program.ofText? ⟨.default, .silent⟩ (joinText "") = some p' ∧
        (∀ q ∈ p'.queries, q.settings.instrument = false) ∧ p.KeptBy [.sub, .aug, .das] ∧
        (∀ q ∈ p.queries, ∀ c, q.maintained = some c → c.join.rels ≠ []) ∧
        (ofProgram p).replies joinCalls = [.ok (.flag true), .ok (.flag true),
          .error (.exec (.eval (.typeMismatch .lt (.str "a") (.int 2))))] ∧
        (ofProgram p').replies joinCalls =
          [.ok (.flag true), .ok (.flag true), .ok (.flag true)] ∧
        ((ofProgram p).served joinCalls).poisoned = true ∧
        ((ofProgram p').served joinCalls).poisoned = false := by
    decide +kernel
  exact ⟨p, p', hp, hp', h⟩

/-- Inspection is transparent until an evaluation fails: a session serves all calls as does the one
of the same program in which nothing is inspected, or is stopped by a query whose evaluation fails
because of values. It never finds rows that are wrong. -/
theorem served_transparent {o o' : Compile.Options} {text text' : String} {p p' : Program}
    (options : o.quiet = o'.quiet)
    (scripts : (Script.ofText text).map (Script.without "instrument") =
      (Script.ofText text').map (Script.without "instrument"))
    (compiles : Program.ofText? o text = some p) (compiles' : Program.ofText? o' text' = some p')
    (off : ∀ q ∈ p'.queries, q.settings.instrument = false)
    (strategies : p.KeptBy [.sub, .aug, .das])
    (reading : ∀ q ∈ p.queries, ∀ c, q.maintained = some c → c.join.rels ≠ [])
    (rs : List Call) :
    (ofProgram p).ServeAlike (ofProgram p') rs ∨ (ofProgram p).StoppedBy (ofProgram p') rs := by
  have hquiet : p' = p.quiet := by
    rw [Program.quiet_of_text options scripts compiles compiles', Program.eq_quiet off]
  subst hquiet
  obtain ⟨d, sound, built⟩ := Program.built_of_text compiles
  obtain ⟨d', sound', built'⟩ := Program.built_of_text compiles'
  rcases (ofProgram p).served_watched rs with h | ⟨pre, op, post, rfl, hpre, hcut⟩
  · exact .inl h.serveAlike
  · exact .inr (hcut.stoppedBy built sound built' sound' strategies reading hpre post)

def inspectingOptions : Compile.Options := ⟨{ Settings.default with instrument := true }, .silent⟩

def aboveText : String := "relation R(2); query Q(x) = \x7by : (x, y) in R, x < y\x7d;"

def aboveCalls : List Call :=
  [.operate (.demand "Q" [.int 1]), .operate (.add "R" [.int 1, .int 2]), .results "Q"]

set_option maxRecDepth 10000 in
theorem served_transparent_above : ∃ p p',
    Program.ofText? inspectingOptions aboveText = some p ∧
    Program.ofText? ⟨.default, .silent⟩ aboveText = some p' ∧
    (ofProgram p).replies aboveCalls =
      [.ok .done, .ok (.flag true), .ok (.rows [[.int 1, .int 2]])] ∧
    (ofProgram p).ServeAlike (ofProgram p') aboveCalls := by
  obtain ⟨p, hp, p', hp', hoff, hkept, reading, healthy, hreplies⟩ : ∃ p,
      Program.ofText? inspectingOptions aboveText = some p ∧
      ∃ p', Program.ofText? ⟨.default, .silent⟩ aboveText = some p' ∧
        (∀ q ∈ p'.queries, q.settings.instrument = false) ∧ p.KeptBy [.sub, .aug, .das] ∧
        (∀ q ∈ p.queries, ∀ c, q.maintained = some c → c.join.rels ≠ []) ∧
        ((ofProgram p).served aboveCalls).poisoned = false ∧
        (ofProgram p).replies aboveCalls =
          [.ok .done, .ok (.flag true), .ok (.rows [[.int 1, .int 2]])] := by
    decide +kernel
  have hoptions : inspectingOptions.quiet = (⟨.default, .silent⟩ : Compile.Options).quiet := rfl
  refine ⟨p, p', hp, hp', hreplies, ?_⟩
  refine (served_transparent hoptions rfl hp hp' hoff hkept reading aboveCalls).resolve_right ?_
  rintro ⟨hpoisoned, _⟩
  rw [healthy] at hpoisoned
  cases hpoisoned

end Session

end ViewUpkeep
