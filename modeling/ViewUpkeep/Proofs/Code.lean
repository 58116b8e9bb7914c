import ViewUpkeep.Plan
import ViewUpkeep.Proofs.Solutions
import ViewUpkeep.Proofs.Store

/-!
What generated code does. The code of a clause runs its body once for each solution of the clause,
so that its trace, if no fault ends it, is made of the traces of the body; only their order depends
on the plan and on the indices.
-/
namespace ViewUpkeep

theorem flatMap_ite_singleton {α β : Type} (p : α → Bool) (f : α → β) (l : List α) :
    (l.flatMap fun a => if p a then [f a] else []) = (l.filter p).map f := by
  induction l with
  | nil => rfl
  | cons a l ih => by_cases h : p a <;> simp [h, ih]

namespace Trace

/-- A trace without a fault that consists of others, in whatever order. -/
structure Joins (t : Trace) (parts : List Trace) : Prop where
  faultless : ∀ u ∈ parts, u.fault = none
  updates : t.updates.Perm (parts.flatMap updates)
  collected : t.collected.Perm (parts.flatMap collected)

theorem append_faultless {t u : Trace} (h : (t.append u).fault = none) :
    t.fault = none ∧ u.fault = none ∧ (t.append u).updates = t.updates ++ u.updates ∧
      (t.append u).collected = t.collected ++ u.collected := by
  unfold append at h ⊢
  cases ht : t.fault with
  | some e => simp [ht] at h
  | none => simpa [ht] using h

theorem append_joins {t u : Trace} {parts : List Trace} (h : (t.append u).fault = none)
    (k : u.fault = none → u.Joins parts) : (t.append u).Joins (t :: parts) := by
  obtain ⟨ht, hu, hupdates, hcollected⟩ := append_faultless h
  have hj := k hu
  refine ⟨?_, ?_, ?_⟩
  · exact List.forall_mem_cons.mpr ⟨ht, hj.faultless⟩
  · rw [hupdates, List.flatMap_cons]
    exact hj.updates.append_left _
  · rw [hcollected, List.flatMap_cons]
    exact hj.collected.append_left _

theorem concat_joins {parts : List Trace} (h : (concat parts).fault = none) :
    (concat parts).Joins parts := by
  induction parts with
  | nil => exact ⟨by simp, .refl _, .refl _⟩
  | cons t ts ih => exact append_joins h ih

theorem branches_joins {verify : Bool} {seen : List Row} {parts : List Trace}
    (h : (branches verify seen parts).fault = none) : (branches verify seen parts).Joins parts := by
  induction parts generalizing seen with
  | nil => exact ⟨by simp, .refl _, .refl _⟩
  | cons t ts ih =>
    rw [branches] at h ⊢
    split at h
    · simp [failed] at h
    · exact append_joins h ih

theorem Joins.perm {t : Trace} {parts parts' : List Trace} (h : t.Joins parts)
    (p : parts.Perm parts') : t.Joins parts' :=
  ⟨fun u hu => h.faultless u (p.mem_iff.mpr hu), h.updates.trans (p.flatMap_right _),
    h.collected.trans (p.flatMap_right _)⟩

theorem joins_singleton {t : Trace} (h : t.fault = none) : t.Joins [t] :=
  ⟨by simpa using h, by simp, by simp⟩

theorem empty_joins : empty.Joins [] := ⟨by simp, .refl _, .refl _⟩

theorem Joins.flatMap {ι : Type} {t : Trace} {is : List ι} {part : ι → Trace}
    {pieces : ι → List Trace} (h : t.Joins (is.map part))
    (k : ∀ i ∈ is, (part i).fault = none → (part i).Joins (pieces i)) :
    t.Joins (is.flatMap pieces) := by
  have hk : ∀ i ∈ is, (part i).Joins (pieces i) :=
    fun i hi => k i hi (h.faultless _ (List.mem_map_of_mem hi))
  refine ⟨?_, ?_, ?_⟩
  · intro u hu
    obtain ⟨i, hi, hu⟩ := List.mem_flatMap.mp hu
    exact (hk i hi).faultless u hu
  · refine h.updates.trans ?_
    rw [List.flatMap_map, List.flatMap_assoc]
    exact List.Perm.flatMap_left is fun i hi => (hk i hi).updates
  · refine h.collected.trans ?_
    rw [List.flatMap_map, List.flatMap_assoc]
    exact List.Perm.flatMap_left is fun i hi => (hk i hi).collected

theorem after_faultless {α : Type} {r : Except ExecError α} {f : α → Trace}
    (h : (after r f).fault = none) : ∃ a, r = .ok a ∧ after r f = f a := by
  cases r with
  | error e => simp [after, failed] at h
  | ok a => exact ⟨a, rfl, rfl⟩

theorem concat_pattern_joins {rows : List Row} {env : Env} {lhs : List Var} {run : Env → Trace}
    (h : (concat (rows.map fun row =>
      match env.extend? lhs row with
      | some env' => run env'
      | none => empty)).fault = none) :
    (concat (rows.map fun row =>
      match env.extend? lhs row with
      | some env' => run env'
      | none => empty)).Joins ((rows.filterMap (env.extend? lhs)).map run) := by
  have hpieces : (rows.filterMap (env.extend? lhs)).map run =
      rows.flatMap fun row => ((env.extend? lhs row).toList.map run) := by
    rw [List.filterMap_eq_flatMap_toList, List.map_flatMap]
  rw [hpieces]
  refine (concat_joins h).flatMap ?_
  intro row _ hf
  cases hx : env.extend? lhs row with
  | none => exact empty_joins
  | some e =>
    rw [hx] at hf
    exact joins_singleton hf

end Trace

namespace Code

theorem execAll_eq_map (store : Store) (cs : List Code) (sink : Option (List Var)) (env : Env) :
    execAll store cs sink env = cs.map fun c => c.exec store sink env := by
  induction cs with
  | nil => rfl
  | cons c cs ih => rw [execAll, ih, List.map_cons]

theorem ofList_joins {store : Store} {cs : List Code} {sink : Option (List Var)} {env : Env}
    (h : ((ofList cs).exec store sink env).fault = none) :
    ((ofList cs).exec store sink env).Joins (cs.map fun c => c.exec store sink env) := by
  unfold ofList at h ⊢
  split at h
  · exact Trace.joins_singleton h
  · rw [exec, execAll_eq_map] at h ⊢
    exact Trace.concat_joins h

end Code

theorem ExecError.lift_eq_ok {α : Type} {r : Except EvalError α} {a : α} :
    lift r = .ok a ↔ r = .ok a := by
  cases r <;> simp [lift]

theorem Code.update_faultless {store : Store} {sink : Option (List Var)} {env : Env}
    {target : String} {change : Change} {expr : Expr}
    (hf : ((Code.update target change expr).exec store sink env).fault = none) :
    ∃ row, expr.evalRow env = .ok row ∧
      ((Code.update target change expr).exec store sink env).updates = [⟨target, change, row⟩] := by
  rw [Code.exec] at hf ⊢
  obtain ⟨row, hrow, he⟩ := Trace.after_faultless hf
  exact ⟨row, ExecError.lift_eq_ok.mp hrow, by rw [he]⟩

theorem Value.itemsOf_eq_ok {v : Value} {n : Nat} {items : Row} (h : v.itemsOf n = .ok items) :
    v = .tuple items := by
  unfold itemsOf at h
  split at h
  · split at h
    · cases h
      rfl
    · cases h
  · cases h

namespace Mask

theorem select_reads {env : Env} (mask : Mask) {vs : List Var} {row : Row} (h : env.Reads vs row) :
    env.Reads (mask.select vs) (mask.select row) := by
  obtain ⟨bits⟩ := mask
  unfold select
  induction bits generalizing vs row with
  | nil => simp
  | cons b bits ih =>
    cases vs with
    | nil => simp [(Env.reads_nil ..).mp h]
    | cons v vs =>
      cases row with
      | nil => simp at h
      | cons x row =>
        obtain ⟨hx, hr⟩ := (Env.reads_cons ..).mp h
        cases b with
        | false => simpa using ih hr
        | true => simpa [hx] using ih hr

end Mask

namespace Clause

/-- The body of a clause, run for each of its solutions. -/
def Runs (store : Store) (sink : Option (List Var)) (env : Env) (c : Clause) (body code : Code) :
    Prop :=
  (code.exec store sink env).fault = none →
    ∃ found, Solutions (c.Holds store.Has) c.lhs env found ∧
      (code.exec store sink env).Joins (found.map (body.exec store sink))

variable {store : Store} {sink : Option (List Var)} {env : Env}

theorem memberCode_runs (sound : store.Sound) (bound lhs : List Var) (rel : String) (body : Code) :
    Runs store sink env (.member lhs rel) body (memberCode bound lhs rel body) := by
  intro hf
  unfold memberCode at hf ⊢
  dsimp only at hf ⊢
  by_cases hall : (Mask.ofPattern lhs bound).allBound = true
  · rw [if_pos hall] at hf ⊢
    rw [Code.exec] at hf ⊢
    obtain ⟨r, hr, he⟩ := Trace.after_faultless hf
    rw [he] at hf ⊢
    obtain ⟨row, hrow, he⟩ := Trace.after_faultless hf
    rw [he] at hf ⊢
    have hreads := (Env.valuesOf_eq_ok_iff ..).mp hrow
    have hhas := Store.has_iff (Store.relation_eq_ok.mp hr)
    refine ⟨if r.contains row = true then [env] else [], ?_, ?_⟩
    · refine (Solutions.test ?_).of_vars ?_
      · intro other hw
        constructor
        · rintro ⟨row', hr', hin⟩
          rw [(hreads.mono hw).unique hr', Relation.contains_iff]
          exact (hhas row').mp hin
        · intro hin
          exact ⟨row, hreads.mono hw, (hhas row).mpr ((r.contains_iff row).mp hin)⟩
      · intro v hv
        have hnot : v ∉ lhs := fun hm => hv (hreads.binds v hm)
        simpa [Clause.lhs] using hnot
    · by_cases hin : r.contains row = true
      · rw [if_pos hin] at hf ⊢
        rw [if_pos hin]
        exact Trace.joins_singleton hf
      · rw [if_neg hin, if_neg hin]
        exact Trace.empty_joins
  · rw [if_neg hall] at hf ⊢
    by_cases hnone : (Mask.ofPattern lhs bound).allUnbound = true
    · rw [if_pos hnone] at hf ⊢
      rw [Code.exec] at hf ⊢
      obtain ⟨r, hr, he⟩ := Trace.after_faultless hf
      rw [he] at hf ⊢
      have hget := Store.relation_eq_ok.mp hr
      refine ⟨r.toList.filterMap (env.extend? lhs), ?_, Trace.concat_pattern_joins hf⟩
      refine (Solutions.pattern (sound.get? hget).nodup lhs env).congr ?_
      intro e _
      exact exists_congr fun row => and_congr_right fun _ => (Store.has_iff hget row).symm
    · rw [if_neg hnone] at hf ⊢
      rw [Code.exec] at hf ⊢
      obtain ⟨r, hr, he⟩ := Trace.after_faultless hf
      rw [he] at hf ⊢
      obtain ⟨key, hkey, he⟩ := Trace.after_faultless hf
      rw [he] at hf ⊢
      have hget := Store.relation_eq_ok.mp hr
      have hreads := (Env.valuesOf_eq_ok_iff ..).mp hkey
      refine ⟨_, ?_, Trace.concat_pattern_joins hf⟩
      have hperm := (sound.get? hget).lookup_perm (Mask.ofPattern lhs bound) key
      refine (Solutions.pattern_of_perm (sound.get? hget).nodup hperm ?_).congr ?_
      · intro other row hw hrow
        have hsel := Mask.select_reads (Mask.ofPattern lhs bound) hrow
        simpa using hsel.unique (hreads.mono hw)
      · intro e _
        exact exists_congr fun row => and_congr_right fun _ => (Store.has_iff hget row).symm

theorem bind_runs {lhs : List Var} {expr : Expr} (body : Code)
    (hf : ((Code.bind lhs expr body).exec store sink env).fault = none) :
    ∃ found,
      Solutions (fun e => ∃ row, e.Reads lhs row ∧ expr.eval e = .ok (.tuple row)) lhs env found ∧
      ((Code.bind lhs expr body).exec store sink env).Joins (found.map (body.exec store sink)) := by
  rw [Code.exec] at hf ⊢
  obtain ⟨v, hv, he⟩ := Trace.after_faultless hf
  rw [he] at hf ⊢
  obtain ⟨items, hitems, he⟩ := Trace.after_faultless hf
  rw [he] at hf ⊢
  have heval : expr.eval env = .ok (.tuple items) := by
    rw [ExecError.lift_eq_ok.mp hv, Value.itemsOf_eq_ok hitems]
  refine ⟨(env.extend? lhs items).toList, Solutions.bind heval lhs, ?_⟩
  cases hx : env.extend? lhs items with
  | none => exact Trace.empty_joins
  | some e =>
    rw [hx] at hf
    exact Trace.joins_singleton hf

theorem test_runs {expr : Expr} (body : Code)
    (hf : ((Code.test expr body).exec store sink env).fault = none) :
    ∃ b : Bool, (∀ other, env.Within other → (expr.eval other = .ok (.bool true) ↔ b = true)) ∧
      ((Code.test expr body).exec store sink env).Joins
        (if b then [body.exec store sink env] else []) := by
  rw [Code.exec] at hf ⊢
  obtain ⟨b, hb, he⟩ := Trace.after_faultless hf
  rw [he] at hf ⊢
  have heval := (expr.holds_eq_ok env b).mp (ExecError.lift_eq_ok.mp hb)
  refine ⟨b, ?_, ?_⟩
  · intro other hw
    rw [Expr.eval_mono hw expr heval]
    simp
  · cases b with
    | false => exact Trace.empty_joins
    | true => exact Trace.joins_singleton (by simpa using hf)

theorem Plain.code_runs {c : Clause} (plain : c.Plain) (sound : store.Sound) {bound : List Var}
    {body code : Code} (h : c.code bound body = .ok code) : Runs store sink env c body code := by
  cases c with
  | member lhs rel =>
    cases h
    exact memberCode_runs sound bound lhs rel body
  | mapMember lhs rel n =>
    cases h
    exact memberCode_runs sound bound lhs rel body
  | singleton lhs expr =>
    obtain ⟨_, _, h⟩ := bind_eq_ok.mp h
    cases h
    intro hf
    exact bind_runs body hf
  | cond expr =>
    obtain ⟨_, _, h⟩ := bind_eq_ok.mp h
    cases h
    intro hf
    obtain ⟨b, hb, hj⟩ := test_runs body hf
    refine ⟨if b = true then [env] else [], Solutions.test hb, ?_⟩
    cases b <;> simpa using hj
  | demand inner query params =>
    cases inner with
    | member lhs rel =>
      obtain ⟨_, _, h⟩ := bind_eq_ok.mp h
      cases h
      exact memberCode_runs sound bound lhs rel body
    | _ => cases plain
  | _ => cases plain

theorem eval_ne_tupleOf (env : Env) (vs : List Var) (value : Expr) :
    (Expr.binary .ne (.tupleOf vs) value).eval env = .ok (.bool true) ↔
      ∃ row x, env.Reads vs row ∧ value.eval env = .ok x ∧ x ≠ .tuple row := by
  rw [Expr.eval.eq_def]
  dsimp only
  constructor
  · intro h
    obtain ⟨a, ha, h⟩ := bind_eq_ok.mp h
    obtain ⟨x, hx, h⟩ := bind_eq_ok.mp h
    have htuple : ∃ row, a = .tuple row := by
      unfold Expr.tupleOf Expr.eval at ha
      obtain ⟨row, _, ha⟩ := bind_eq_ok.mp ha
      cases ha
      exact ⟨row, rfl⟩
    obtain ⟨row, rfl⟩ := htuple
    refine ⟨row, x, (Expr.eval_tupleOf ..).mp ha, hx, ?_⟩
    simp only [Operator.apply, Except.ok.injEq, Value.bool.injEq, decide_eq_true_eq] at h
    exact Ne.symm h
  · rintro ⟨row, x, hr, hx, hne⟩
    refine bind_eq_ok.mpr ⟨.tuple row, (Expr.eval_tupleOf ..).mpr hr, bind_eq_ok.mpr ⟨x, hx, ?_⟩⟩
    simp [Operator.apply, Ne.symm hne]

/-- The code of a clause that leaves one row out: the row is tested after it was found. -/
theorem without_runs {inner : Clause} {value : Expr} {body code : Code}
    (h : Runs store sink env inner (.test (.binary .ne (.tupleOf inner.lhs) value) body) code) :
    Runs store sink env (.without inner value) body code := by
  intro hf
  obtain ⟨found, hs, hj⟩ := h hf
  let differs := Expr.binary .ne (.tupleOf inner.lhs) value
  have hstep : ∀ e ∈ found,
      (∀ other, e.Within other → (differs.eval other = .ok (.bool true) ↔
        decide (differs.eval e = .ok (.bool true)) = true)) ∧
      ((Code.test differs body).exec store sink e).Joins
        (if decide (differs.eval e = .ok (.bool true)) then [body.exec store sink e] else []) := by
    intro e he
    obtain ⟨b, hb, hjoin⟩ := test_runs body (hj.faultless _ (List.mem_map_of_mem he))
    have hbe : decide (differs.eval e = .ok (.bool true)) = b := by
      rw [Bool.eq_iff_iff, decide_eq_true_eq]
      exact hb e (.refl e)
    exact ⟨fun other hw => by rw [hbe]; exact hb other hw, by rw [hbe]; exact hjoin⟩
  refine ⟨found.filter fun e => decide (differs.eval e = .ok (.bool true)), ?_, ?_⟩
  · refine hs.filter _ ?_
    intro e he other hw
    rw [← eval_ne_tupleOf]
    exact (hstep e he).1 other hw
  · have hpieces := hj.flatMap fun e he _ => (hstep e he).2
    exact hpieces.perm (.of_eq (flatMap_ite_singleton ..))

theorem withExtra_runs {inner : Clause} {value : Expr} {body present : Code}
    (h : Runs store sink env inner body present)
    (fresh : ∀ other, env.Within other → inner.Holds store.Has other →
      ¬ ∃ row, other.Reads inner.lhs row ∧ value.eval other = .ok (.tuple row)) :
    Runs store sink env (.withExtra inner value) body
      (.block [present, .bind inner.lhs value body]) := by
  intro hf
  rw [Code.exec] at hf ⊢
  simp only [Code.execAll] at hf ⊢
  have hj := Trace.concat_joins hf
  obtain ⟨found, hs, hpresent⟩ := h (hj.faultless _ (by simp))
  obtain ⟨found', hs', hextra⟩ :=
    bind_runs body (hj.faultless ((Code.bind inner.lhs value body).exec store sink env) (by simp))
  refine ⟨found ++ found', hs.either hs' (fun a b hw => Holds.mono hw) ?_ fresh, ?_⟩
  · rintro a b hw ⟨row, hr, he⟩
    exact ⟨row, hr.mono hw, Expr.eval_mono hw value he⟩
  · refine ⟨?_, ?_, ?_⟩
    · intro u hu
      rw [List.map_append, List.mem_append] at hu
      exact hu.elim (hpresent.faultless u) (hextra.faultless u)
    · refine hj.updates.trans ?_
      simpa using hpresent.updates.append hextra.updates
    · refine hj.collected.trans ?_
      simpa using hpresent.collected.append hextra.collected

inductive Staged (facts : Facts) (start : Env) : Clause → Prop where
  | plain {c : Clause} : c.Plain → Staged facts start c
  | delta {lhs : List Var} {rel : String} {value : Expr} : Staged facts start (.delta lhs rel value)
  | without {inner : Clause} {value : Expr} : inner.Plain →
    Staged facts start (.without inner value)
  | withExtra {inner : Clause} {value : Expr} : inner.Plain →
    (∀ other, start.Within other → inner.Holds facts other →
      ¬ ∃ row, other.Reads inner.lhs row ∧ value.eval other = .ok (.tuple row)) →
    Staged facts start (.withExtra inner value)

theorem Staged.code_runs {start : Env} {c : Clause} (staged : c.Staged store.Has start)
    (hw : start.Within env) (sound : store.Sound) {bound : List Var} {body code : Code}
    (h : c.code bound body = .ok code) : Runs store sink env c body code := by
  cases staged with
  | plain plain => exact plain.code_runs sound h
  | delta =>
    cases h
    exact fun hf => bind_runs body hf
  | without plain => exact without_runs (plain.code_runs sound h)
  | withExtra plain fresh =>
    obtain ⟨present, hp, h⟩ := bind_eq_ok.mp h
    cases h
    exact withExtra_runs (plain.code_runs sound hp) fun other ho => fresh other (hw.trans ho)

end Clause

namespace Plan

/-- Nested code runs its leaf once for each way to satisfy all clauses, if the code of each clause
runs its body once for each solution of that clause. -/
theorem code_runs_of {store : Store} {sink : Option (List Var)} {start env : Env}
    (hw : start.Within env) {steps : List Step}
    (runs : ∀ s ∈ steps, ∀ e body code, start.Within e → s.clause.code s.bound body = .ok code →
      s.clause.Runs store sink e body code) {leaf code : Code}
    (h : Plan.code steps leaf = .ok code) (hf : (code.exec store sink env).fault = none) :
    ∃ found, Solutions (fun e => ∀ s ∈ steps, s.clause.Holds store.Has e)
        (steps.flatMap (·.clause.lhs)) env found ∧
      (code.exec store sink env).Joins (found.map (leaf.exec store sink)) := by
  induction steps generalizing env code with
  | nil =>
    cases h
    exact ⟨[env], (Solutions.none env).congr (by simp), Trace.joins_singleton hf⟩
  | cons s rest ih =>
    obtain ⟨inner, hinner, h⟩ := bind_eq_ok.mp h
    obtain ⟨hruns, hrest⟩ := List.forall_mem_cons.mp runs
    obtain ⟨found, hs, hj⟩ := hruns env inner code hw h hf
    have hnext : ∀ e ∈ found, ∃ more,
        Solutions (fun e => ∀ s ∈ rest, s.clause.Holds store.Has e)
          (rest.flatMap (·.clause.lhs)) e more ∧
        (inner.exec store sink e).Joins (more.map (leaf.exec store sink)) := by
      intro e he
      exact ih (hw.trans (hs.within e he)) hrest hinner (hj.faultless _ (List.mem_map_of_mem he))
    choose! next hnext using hnext
    refine ⟨found.flatMap next, ?_, ?_⟩
    · refine (hs.andThen (fun a b hin => Clause.Holds.mono hin) fun e he => (hnext e he).1).congr ?_
      intro e _
      simp
    · rw [List.map_flatMap]
      exact hj.flatMap fun e he _ => (hnext e he).2

theorem code_runs {store : Store} (sound : store.Sound) {sink : Option (List Var)}
    {start env : Env} (hw : start.Within env) {steps : List Step}
    (staged : ∀ s ∈ steps, s.clause.Staged store.Has start) {leaf code : Code}
    (h : Plan.code steps leaf = .ok code) (hf : (code.exec store sink env).fault = none) :
    ∃ found, Solutions (fun e => ∀ s ∈ steps, s.clause.Holds store.Has e)
        (steps.flatMap (·.clause.lhs)) env found ∧
      (code.exec store sink env).Joins (found.map (leaf.exec store sink)) :=
  code_runs_of hw (fun s hs _ _ _ he hcode => (staged s hs).code_runs he sound hcode) h hf

end Plan

end ViewUpkeep
