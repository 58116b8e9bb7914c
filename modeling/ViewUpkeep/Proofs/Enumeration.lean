import ViewUpkeep.Proofs.Increments
import ViewUpkeep.Proofs.Orderable

/-!
Plans do not matter to what is recorded. Around a leaf that records a change, the code of a join
records one for each binding that extends the present environment and satisfies every clause. The
bindings are described by the join and the rows of its relations alone, so that the code of another
plan, from other estimates, records the same changes in another order.
-/
namespace ViewUpkeep

namespace Clause

def source? : Clause → Option String
  | .member _ rel | .mapMember _ rel _ => some rel
  | .without inner _ | .demand inner _ _ => inner.source?
  | .singleton .. | .delta .. | .withExtra .. | .cond _ => none

theorem Holds.of_source {facts : Facts} {env : Env} {c : Clause} (h : c.Holds facts env)
    {rel : String} (hrel : c.source? = some rel) : ∃ row, env.Reads c.lhs row ∧ facts rel row := by
  induction c with
  | member lhs r | mapMember lhs r n =>
    cases hrel
    exact h
  | without inner value ih => exact ih h.1 hrel
  | demand inner query params ih => exact ih h hrel
  | singleton | delta | withExtra | cond => cases hrel

/-- A clause whose extra rows are known at the start and new to its relation. The rows that a clause
leaves out or is narrowed to are under no such condition. -/
def GivesNew (facts : Facts) (bound : List Var) (start : Env) : Clause → Prop
  | .without inner _ | .demand inner _ _ => inner.GivesNew facts bound start
  | .withExtra inner value =>
    inner.GivesNew facts bound start ∧ value.mentions ⊆ bound ∧ ∃ rel, inner.source? = some rel ∧
      ∀ row, value.eval start = .ok (.tuple row) → ¬ facts rel row
  | .member .. | .mapMember .. | .singleton .. | .delta .. | .cond _ => True

theorem GivesNew.code_runs {store : Store} (sound : store.Sound) {sink : Option (List Var)}
    {bound : List Var} {start env : Env} (hbinds : start.Binds bound) (hw : start.Within env)
    {c : Clause} (new : c.GivesNew store.Has bound start) {before : List Var} {body code : Code}
    (h : c.code before body = .ok code) : Runs store sink env c body code := by
  induction c generalizing body code with
  | member lhs rel => exact Plain.code_runs (c := .member lhs rel) trivial sound h
  | mapMember lhs rel n => exact Plain.code_runs (c := .mapMember lhs rel n) trivial sound h
  | singleton lhs expr => exact Plain.code_runs (c := .singleton lhs expr) trivial sound h
  | cond expr => exact Plain.code_runs (c := .cond expr) trivial sound h
  | delta lhs rel value =>
    cases h
    exact fun hf => bind_runs body hf
  | without inner value ih => exact without_runs (ih new h)
  | demand inner query params ih =>
    obtain ⟨_, _, h⟩ := bind_eq_ok.mp h
    exact ih new h
  | withExtra inner value ih =>
    obtain ⟨hinner, hvars, rel, hrel, habsent⟩ := new
    obtain ⟨present, hpresent, h⟩ := bind_eq_ok.mp h
    cases h
    apply withExtra_runs (ih hinner hpresent)
    rintro other ho holds ⟨row, hrow, hvalue⟩
    have hsame : ∀ v ∈ value.mentions, start.get? v = other.get? v := by
      intro v hv
      obtain ⟨x, hx⟩ := Option.isSome_iff_exists.mp (hbinds v (hvars hv))
      rw [hx, (hw.trans ho) v x hx]
    obtain ⟨found, hfound, hfact⟩ := holds.of_source hrel
    rw [hfound.unique hrow] at hfact
    apply habsent row _ hfact
    rw [Expr.eval_congr value hsame]
    exact hvalue

end Clause

namespace Join

theorem nodup_enumVars (j : Join) : j.enumVars.Nodup := nodup_eraseDups _

def extend (j : Join) (env : Env) (b : Row) : Env := j.enumVars.zip b ++ env

/-- The values of the variables that the clauses bind under which every clause holds and each
variable that was bound before keeps its value. -/
def solutions (j : Join) (facts : Facts) (env : Env) : Set Row :=
  { b | b.length = j.enumVars.length ∧ env.Within (j.extend env b) ∧ j.Holds facts (j.extend env b) }

def Enumerates (j : Join) (facts : Facts) (env : Env) (target : String) (change : Change)
    (expr : Expr) (us : List Update) : Prop :=
  ∃ (hfin : (j.solutions facts env).Finite) (out : Row → Row),
    (∀ b ∈ j.solutions facts env, expr.evalRow (j.extend env b) = .ok (out b)) ∧
      (us : Multiset Update) = hfin.toFinset.val.map fun b => ⟨target, change, out b⟩

theorem Enumerates.perm {j : Join} {facts : Facts} {env : Env} {target : String} {change : Change}
    {expr : Expr} {us us' : List Update} (h : j.Enumerates facts env target change expr us)
    (h' : j.Enumerates facts env target change expr us') : us.Perm us' := by
  obtain ⟨hfin, out, hout, hus⟩ := h
  obtain ⟨_, out', hout', hus'⟩ := h'
  rw [← Multiset.coe_eq_coe, hus, hus']
  apply Multiset.map_congr rfl
  intro b hb
  have hsol := hfin.mem_toFinset.mp hb
  have hrow := (hout b hsol).symm.trans (hout' b hsol)
  rw [Except.ok.inj hrow]

end Join

namespace Plan

variable {store : Store} {sink : Option (List Var)} {j : Join} {bound : List Var} {env : Env}
  {estimate : Estimator} {steps : List Step}

theorem complete_enumVars (h : (ofJoin j bound estimate).complete = .ok steps) (v : Var) :
    v ∈ j.enumVars ↔ v ∈ steps.flatMap (·.clause.lhs) := by
  rw [complete_lhs h]
  simp [Join.enumVars, Clause.enumVars]

theorem code_enumerates_of (sound : store.Sound) (hbinds : env.Binds bound)
    (new : ∀ c ∈ j, c.GivesNew store.Has bound env)
    (h : (ofJoin j bound estimate).complete = .ok steps) {target : String} {change : Change}
    {expr : Expr} {code : Code}
    (hcode : Plan.code steps (.update target change expr) = .ok code)
    (hf : (code.exec store sink env).fault = none) :
    j.Enumerates store.Has env target change expr (code.exec store sink env).updates := by
  have hruns : ∀ s ∈ steps, ∀ e body code, env.Within e → s.clause.code s.bound body = .ok code →
      s.clause.Runs store sink e body code := by
    intro s hs e body code hw hc
    exact ((complete_forall h).mpr new s hs).code_runs sound hbinds hw hc
  obtain ⟨found, hs, hj⟩ := code_runs_of (.refl env) hruns hcode hf
  obtain ⟨row, hnodup, hmem, hsame⟩ := hs.exists_bindings (fun a b hw ha s hs => (ha s hs).mono hw)
    j.nodup_enumVars (complete_enumVars h)
  have hsol : ∀ b, b ∈ found.map row ↔ b ∈ j.solutions store.Has env := by
    intro b
    rw [hmem, complete_forall h]
    rfl
  have hleaf : ∀ e ∈ found, ∃ r, expr.evalRow (j.extend env (row e)) = .ok r ∧
      ((Code.update target change expr).exec store sink e).updates = [⟨target, change, r⟩] := by
    intro e he
    have hcongr := Expr.evalRow_congr expr fun v _ => hsame e he v
    rw [Join.extend, ← hcongr]
    exact Code.update_faultless (hj.faultless _ (List.mem_map_of_mem he))
  have hrow : ∀ b ∈ j.solutions store.Has env, ∃ r, expr.evalRow (j.extend env b) = .ok r := by
    intro b hb
    obtain ⟨e, he, rfl⟩ := List.mem_map.mp ((hsol b).mpr hb)
    obtain ⟨r, hr, _⟩ := hleaf e he
    exact ⟨r, hr⟩
  choose! out hout using hrow
  have hone : ∀ e ∈ found, ((Code.update target change expr).exec store sink e).updates =
      [⟨target, change, out (row e)⟩] := by
    intro e he
    obtain ⟨r, hr, hupdates⟩ := hleaf e he
    have heq := hr.symm.trans (hout (row e) ((hsol _).mp (List.mem_map_of_mem he)))
    rw [hupdates, Except.ok.inj heq]
  obtain ⟨hfin, hval⟩ := exists_finite_val hnodup hsol
  refine ⟨hfin, out, hout, ?_⟩
  rw [hval, Multiset.map_coe, Multiset.coe_eq_coe, List.map_map]
  apply hj.updates.trans
  rw [Handler.flatMap_map_singleton hone]
  exact .refl _

/-- Two plans of a join, from whatever estimates: both have code, each records one change for each
solution if it ends without a fault, and if both do they record the same changes. -/
theorem code_enumerates (built : store.Built) (hbinds : env.Binds bound)
    (new : ∀ c ∈ j, c.GivesNew store.Has bound env) {estimate estimate' : Estimator}
    {steps steps' : List Step} (h : (ofJoin j bound estimate).complete = .ok steps)
    (h' : (ofJoin j bound estimate').complete = .ok steps') (target : String) (change : Change)
    (expr : Expr) :
    ∃ code code', Plan.code steps (.update target change expr) = .ok code ∧
      Plan.code steps' (.update target change expr) = .ok code' ∧
      ((code.exec store sink env).fault = none →
        j.Enumerates store.Has env target change expr (code.exec store sink env).updates) ∧
      ((code'.exec store sink env).fault = none →
        j.Enumerates store.Has env target change expr (code'.exec store sink env).updates) ∧
      ((code.exec store sink env).fault = none → (code'.exec store sink env).fault = none →
        (code.exec store sink env).updates.Perm (code'.exec store sink env).updates) := by
  obtain ⟨code, hcode⟩ := (complete_chained h).exists_code (.update target change expr)
  obtain ⟨code', hcode'⟩ := (complete_chained h').exists_code (.update target change expr)
  refine ⟨code, code', hcode, hcode', code_enumerates_of built.sound hbinds new h hcode,
    code_enumerates_of built.sound hbinds new h' hcode', fun hf hf' => ?_⟩
  have hus := code_enumerates_of built.sound hbinds new h hcode hf
  exact hus.perm (code_enumerates_of built.sound hbinds new h' hcode' hf')

def besideEdge : Join :=
  [.withExtra (.member [⟨"x"⟩, ⟨"y"⟩] "edge") (.var Var.delta),
    .without (.member [⟨"y"⟩, ⟨"z"⟩] "edge") (.var Var.delta)]

def preferWithout : Estimator
  | .without .., _ => some 0
  | _, _ => some 1

def backEdge : Env := [(Var.delta, .tuple [.int 2, .int 1])]

theorem code_enumerates_besideEdge :
    ∃ (steps steps' : List Step) (code code' : Code),
      (ofJoin besideEdge [Var.delta] .silent).complete = .ok steps ∧
      (ofJoin besideEdge [Var.delta] preferWithout).complete = .ok steps' ∧
      steps.map (·.index) = [0, 1] ∧ steps'.map (·.index) = [1, 0] ∧
      (code.exec Handler.loopStore none backEdge).updates.map Update.row =
        [[.int 1, .int 2], [.int 2, .int 2], [.int 2, .int 2]] ∧
      (code'.exec Handler.loopStore none backEdge).updates.map Update.row =
        [[.int 2, .int 2], [.int 1, .int 2], [.int 2, .int 2]] ∧
      besideEdge.Enumerates Handler.loopStore.Has backEdge "far" .add
        (.tuple [.var ⟨"x"⟩, .var ⟨"z"⟩]) (code.exec Handler.loopStore none backEdge).updates ∧
      (code.exec Handler.loopStore none backEdge).updates.Perm
        (code'.exec Handler.loopStore none backEdge).updates := by
  have hbinds : backEdge.Binds [Var.delta] := by
    intro v hv
    rw [List.mem_singleton.mp hv]
    rfl
  have hnew : ∀ c ∈ besideEdge, c.GivesNew Handler.loopStore.Has [Var.delta] backEdge := by
    intro c hc
    rcases List.mem_pair.mp hc with rfl | rfl
    · refine ⟨trivial, List.Subset.refl _, "edge", rfl, ?_⟩
      intro row hrow
      cases hrow
      exact Bool.false_ne_true
    · trivial
  obtain ⟨steps, hsteps⟩ : ∃ steps,
      (ofJoin besideEdge [Var.delta] .silent).complete = .ok steps := ⟨_, rfl⟩
  obtain ⟨steps', hsteps'⟩ : ∃ steps,
      (ofJoin besideEdge [Var.delta] preferWithout).complete = .ok steps := ⟨_, rfl⟩
  obtain ⟨code, code', hcode, hcode', hall, _, hperm⟩ :=
    code_enumerates Handler.loopStore_built hbinds hnew hsteps hsteps' "far" .add (.tuple [.var ⟨"x"⟩, .var ⟨"z"⟩])
  cases hsteps
  cases hsteps'
  cases hcode
  cases hcode'
  exact ⟨_, _, _, _, rfl, rfl, rfl, rfl, rfl, rfl, hall rfl, hperm rfl rfl⟩

end Plan

end ViewUpkeep
