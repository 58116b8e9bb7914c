import ViewUpkeep.Proofs.Code
import ViewUpkeep.Proofs.Orderable

/-!
Sound code. Code is sound if it reads relations that exist, uses variables that are bound by then and
collects inside a union only. Sound code does not go wrong by itself: if a run ends in a fault, the
values of rows are to blame.
-/
namespace ViewUpkeep

/-! ### Errors -/

def EvalError.isOfValues : EvalError → Bool
  | .unbound _ => false
  | _ => true

/-- An error that values give rise to, and not code that does not fit its store or its variables. -/
def ExecError.isOfValues : ExecError → Bool
  | .eval e => e.isOfValues
  | .overlap _ => true
  | _ => false

theorem ExecError.isOfValues_iff {e : ExecError} :
    e.isOfValues = true ↔ e.isInternal = false ∧ ∀ v, e ≠ .eval (.unbound v) := by
  cases e with
  | eval e => cases e <;> simp [isOfValues, EvalError.isOfValues, isInternal]
  | _ => simp [isOfValues, isInternal]

def FailsOnly {ε α : Type} (P : ε → Prop) (r : Except ε α) : Prop := ∀ e, r = .error e → P e

namespace FailsOnly

variable {ε α β : Type} {P : ε → Prop}

theorem ok (a : α) : FailsOnly P (.ok a : Except ε α) := by
  intro e h
  cases h

theorem bind {x : Except ε α} {f : α → Except ε β} (hx : FailsOnly P x)
    (hf : ∀ a, x = .ok a → FailsOnly P (f a)) : FailsOnly P (x >>= f) := by
  intro e h
  cases hr : x with
  | error cause =>
    rw [hr] at h
    cases h
    exact hx e hr
  | ok a =>
    rw [hr] at h
    exact hf a hr e h

end FailsOnly

theorem Value.condition_fails (x : Value) : FailsOnly (·.isOfValues = true) x.condition := by
  cases x <;> rintro e ⟨⟩ <;> rfl

theorem Value.negate_fails (x : Value) : FailsOnly (·.isOfValues = true) x.negate := by
  intro e h
  unfold negate at h
  split at h
  · split at h <;> cases h
    rfl
  · cases h
    rfl

theorem Operator.apply_fails (op : Operator) (l r : Value) :
    FailsOnly (·.isOfValues = true) (op.apply l r) := by
  cases op with
  | and | or =>
    refine l.condition_fails.bind fun b _ => ?_
    cases b with
    | true => exact r.condition_fails.bind fun c _ => .ok _
    | false => exact .ok _
  | _ =>
    intro e h
    dsimp only [apply] at h
    repeat' split at h
    all_goals cases h
    all_goals rfl

namespace Expr

variable {env : Env}

mutual

theorem eval_fails (e : Expr) (h : env.Binds e.mentions) :
    FailsOnly (·.isOfValues = true) (e.eval env) := by
  match e with
  | .var v =>
    obtain ⟨x, hx⟩ := Option.isSome_iff_exists.mp (h v (List.mem_singleton_self v))
    rw [(eval_var env v x).mpr hx]
    exact .ok x
  | .const c => exact .ok c
  | .tuple items =>
    unfold eval
    exact (evalAll_fails items h).bind fun row _ => .ok _
  | .not e =>
    unfold eval
    exact (eval_fails e h).bind fun x _ => x.condition_fails.bind fun b _ => .ok _
  | .neg e =>
    unfold eval
    exact (eval_fails e h).bind fun x _ => x.negate_fails
  | .binary .and l r =>
    obtain ⟨hl, hr⟩ := List.forall_mem_append.mp h
    simp only [eval]
    refine (eval_fails l hl).bind fun x _ => x.condition_fails.bind fun b _ => ?_
    cases b with
    | false => exact .ok _
    | true => exact (eval_fails r hr).bind fun y _ => y.condition_fails.bind fun c _ => .ok _
  | .binary .or l r =>
    obtain ⟨hl, hr⟩ := List.forall_mem_append.mp h
    simp only [eval]
    refine (eval_fails l hl).bind fun x _ => x.condition_fails.bind fun b _ => ?_
    cases b with
    | true => exact .ok _
    | false => exact (eval_fails r hr).bind fun y _ => y.condition_fails.bind fun c _ => .ok _
  | .binary .eq l r | .binary .ne l r | .binary .lt l r | .binary .le l r | .binary .gt l r
  | .binary .ge l r | .binary .add l r | .binary .sub l r | .binary .mul l r =>
    obtain ⟨hl, hr⟩ := List.forall_mem_append.mp h
    simp only [eval]
    exact (eval_fails l hl).bind fun x _ => (eval_fails r hr).bind fun y _ =>
      Operator.apply_fails _ x y

theorem evalAll_fails (es : List Expr) (h : env.Binds (mentionsAll es)) :
    FailsOnly (·.isOfValues = true) (evalAll env es) := by
  match es with
  | [] => exact .ok []
  | e :: es =>
    obtain ⟨he, hes⟩ := List.forall_mem_append.mp h
    unfold evalAll
    exact (eval_fails e he).bind fun x _ => (evalAll_fails es hes).bind fun row _ => .ok _

end

theorem holds_fails {e : Expr} (h : env.Binds e.mentions) :
    FailsOnly (·.isOfValues = true) (e.holds env) :=
  (e.eval_fails h).bind fun x _ => x.condition_fails

theorem evalRow_fails {e : Expr} (h : env.Binds e.mentions) :
    FailsOnly (·.isOfValues = true) (e.evalRow env) :=
  (e.eval_fails h).bind fun _ _ => .ok _

end Expr

theorem ExecError.lift_fails {α : Type} {r : Except EvalError α}
    (h : FailsOnly (·.isOfValues = true) r) : FailsOnly (·.isOfValues = true) (lift r) := by
  intro e he
  cases r with
  | ok a => cases he
  | error err =>
    cases he
    exact h err rfl

theorem Value.itemsOf_fails (x : Value) (n : Nat) :
    FailsOnly (·.isOfValues = true) (x.itemsOf n) := by
  intro e h
  unfold itemsOf at h
  split at h
  · split at h <;> cases h
    rfl
  · cases h
    rfl

/-! ### Sound code -/

namespace Code

mutual

/-- Code that reads known relations, uses bound variables and collects inside a union. -/
def Sound (known : String → Prop) : Option (List Var) → List Var → Code → Prop
  | sink, bound, .block items => SoundAll known sink bound items
  | sink, bound, .scan rel pattern body => known rel ∧ body.Sound known sink (bound ++ pattern)
  | sink, bound, .lookup rel mask pattern body =>
    known rel ∧ mask.select pattern ⊆ bound ∧ body.Sound known sink (bound ++ pattern)
  | sink, bound, .member rel pattern body => known rel ∧ pattern ⊆ bound ∧ body.Sound known sink bound
  | sink, bound, .bind pattern expr body =>
    expr.mentions ⊆ bound ∧ body.Sound known sink (bound ++ pattern)
  | sink, bound, .test cond body => cond.mentions ⊆ bound ∧ body.Sound known sink bound
  | _, bound, .update _ _ expr => expr.mentions ⊆ bound
  | sink, bound, .union vars _ branches body =>
    SoundAll known (some vars) bound branches ∧ body.Sound known sink (bound ++ vars)
  | sink, bound, .collect => ∃ vars, sink = some vars ∧ vars ⊆ bound

def SoundAll (known : String → Prop) : Option (List Var) → List Var → List Code → Prop
  | _, _, [] => True
  | sink, bound, c :: cs => c.Sound known sink bound ∧ SoundAll known sink bound cs

end

theorem soundAll_iff {known : String → Prop} {sink : Option (List Var)} {bound : List Var}
    {cs : List Code} : SoundAll known sink bound cs ↔ ∀ c ∈ cs, c.Sound known sink bound := by
  induction cs with
  | nil => simp [SoundAll]
  | cons c cs ih => rw [SoundAll, ih, List.forall_mem_cons]

variable {known : String → Prop}

mutual

theorem Sound.mono {c : Code} {sink : Option (List Var)} {bound bound' : List Var}
    (hsub : bound ⊆ bound') (h : c.Sound known sink bound) : c.Sound known sink bound' := by
  match c with
  | .block items => exact SoundAll.mono hsub h
  | .scan rel pattern body => exact ⟨h.1, h.2.mono (append_subset_append_right hsub pattern)⟩
  | .lookup rel mask pattern body =>
    exact ⟨h.1, List.Subset.trans h.2.1 hsub, h.2.2.mono (append_subset_append_right hsub pattern)⟩
  | .member rel pattern body => exact ⟨h.1, List.Subset.trans h.2.1 hsub, h.2.2.mono hsub⟩
  | .bind pattern expr body =>
    exact ⟨List.Subset.trans h.1 hsub, h.2.mono (append_subset_append_right hsub pattern)⟩
  | .test cond body => exact ⟨List.Subset.trans h.1 hsub, h.2.mono hsub⟩
  | .update rel change expr => exact List.Subset.trans h hsub
  | .union vars verify branches body =>
    exact ⟨SoundAll.mono hsub h.1, h.2.mono (append_subset_append_right hsub vars)⟩
  | .collect =>
    obtain ⟨vars, hsink, hvars⟩ := h
    exact ⟨vars, hsink, List.Subset.trans hvars hsub⟩

theorem SoundAll.mono {cs : List Code} {sink : Option (List Var)} {bound bound' : List Var}
    (hsub : bound ⊆ bound') (h : SoundAll known sink bound cs) : SoundAll known sink bound' cs := by
  match cs with
  | [] => trivial
  | c :: cs => exact ⟨h.1.mono hsub, SoundAll.mono hsub h.2⟩

end

end Code

/-! ### Runs of sound code -/

namespace Trace

structure Keeps (E : ExecError → Prop) (R : Row → Prop) (t : Trace) : Prop where
  fault : ∀ e, t.fault = some e → E e
  collected : ∀ row ∈ t.collected, R row

section Keeps

variable {E : ExecError → Prop} {R : Row → Prop} {t u : Trace}

theorem empty_keeps : empty.Keeps E R := ⟨by simp [empty], by simp [empty]⟩

theorem failed_keeps {e : ExecError} (h : E e) : (failed e).Keeps E R := by
  refine ⟨fun e' he => ?_, by simp [failed]⟩
  cases he
  exact h

theorem append_keeps (ht : t.Keeps E R) (hu : u.Keeps E R) : (t.append u).Keeps E R := by
  unfold append
  cases hf : t.fault with
  | some e => exact ht
  | none => exact ⟨hu.fault, List.forall_mem_append.mpr ⟨ht.collected, hu.collected⟩⟩

theorem concat_keeps {ts : List Trace} (h : ∀ t ∈ ts, t.Keeps E R) : (concat ts).Keeps E R := by
  induction ts with
  | nil => exact empty_keeps
  | cons t ts ih =>
    obtain ⟨ht, hts⟩ := List.forall_mem_cons.mp h
    exact append_keeps ht (ih hts)

theorem after_keeps {α : Type} {r : Except ExecError α} {f : α → Trace} (hr : FailsOnly E r)
    (hf : ∀ a, r = .ok a → (f a).Keeps E R) : (after r f).Keeps E R := by
  cases r with
  | error e => exact failed_keeps (hr e rfl)
  | ok a => exact hf a rfl

theorem rows_keep {rows : List Row} {env : Env} {pattern : List Var} {run : Env → Trace}
    (h : ∀ row ∈ rows, ∀ e, env.extend? pattern row = some e → (run e).Keeps E R) :
    (concat (rows.map fun row =>
      match env.extend? pattern row with
      | some e => run e
      | none => empty)).Keeps E R := by
  apply concat_keeps
  intro t ht
  obtain ⟨row, hrow, rfl⟩ := List.mem_map.mp ht
  split
  · rename_i hx
    exact h row hrow _ hx
  · exact empty_keeps

end Keeps

structure Sane (sink : Option (List Var)) (t : Trace) : Prop where
  fault : ∀ e, t.fault = some e → e.isOfValues = true
  collected : ∀ vars, sink = some vars → ∀ row ∈ t.collected, row.length = vars.length

variable {sink : Option (List Var)} {t u : Trace}

theorem sane_iff : t.Sane sink ↔ t.Keeps (·.isOfValues = true) fun row =>
    ∀ vars, sink = some vars → row.length = vars.length :=
  ⟨fun h => ⟨h.fault, fun row hrow vars hvars => h.collected vars hvars row hrow⟩,
    fun h => ⟨h.fault, fun vars hvars row hrow => h.collected row hrow vars hvars⟩⟩

theorem empty_sane : empty.Sane sink := sane_iff.mpr empty_keeps

theorem failed_sane {e : ExecError} (h : e.isOfValues = true) : (failed e).Sane sink :=
  sane_iff.mpr (failed_keeps h)

theorem append_sane (ht : t.Sane sink) (hu : u.Sane sink) : (t.append u).Sane sink :=
  sane_iff.mpr (append_keeps (sane_iff.mp ht) (sane_iff.mp hu))

theorem concat_sane {ts : List Trace} (h : ∀ t ∈ ts, t.Sane sink) : (concat ts).Sane sink :=
  sane_iff.mpr (concat_keeps fun t ht => sane_iff.mp (h t ht))

theorem branches_sane (verify : Bool) (seen : List Row) {ts : List Trace}
    (h : ∀ t ∈ ts, t.Sane sink) : (branches verify seen ts).Sane sink := by
  induction ts generalizing seen with
  | nil => exact empty_sane
  | cons t ts ih =>
    rw [branches]
    split
    · exact failed_sane rfl
    · exact append_sane (h t List.mem_cons_self) (ih _ fun u hu => h u (List.mem_cons_of_mem t hu))

theorem after_sane {α : Type} {r : Except ExecError α} {f : α → Trace}
    (hr : FailsOnly (·.isOfValues = true) r) (hf : ∀ a, r = .ok a → (f a).Sane sink) :
    (after r f).Sane sink :=
  sane_iff.mpr (after_keeps hr fun a ha => sane_iff.mp (hf a ha))

end Trace

theorem Store.relation_fails {store : Store} {rel : String} (h : (store.get? rel).isSome) :
    FailsOnly (·.isOfValues = true) (store.relation rel) := by
  obtain ⟨r, hr⟩ := Option.isSome_iff_exists.mp h
  rw [relation_eq_ok.mpr hr]
  exact .ok r

namespace Env

variable {env : Env}

theorem Binds.mono {vs ws : List Var} (h : env.Binds ws) (hsub : vs ⊆ ws) : env.Binds vs :=
  fun v hv => h v (hsub hv)

theorem valuesOf_fails {vs : List Var} (h : env.Binds vs) :
    FailsOnly (·.isOfValues = true) (env.valuesOf vs) := by
  obtain ⟨row, hrow⟩ := h.exists_reads
  rw [(valuesOf_eq_ok_iff env vs row).mpr hrow]
  exact .ok row

theorem Binds.extend? {bound pattern : List Var} {row : Row} {env' : Env} (h : env.Binds bound)
    (hx : env.extend? pattern row = some env') : env'.Binds (bound ++ pattern) := by
  intro v hv
  rw [(extend?_eq_some hx).2.2]
  rcases List.mem_append.mp hv with hv | hv
  · exact .inl (h v hv)
  · exact .inr hv

theorem Binds.shadow {bound vars : List Var} {row : Row} (h : env.Binds bound)
    (hlen : row.length = vars.length) : (env.shadow vars row).Binds (bound ++ vars) := by
  intro v hv
  unfold Env.shadow
  rw [get?_append, Option.isSome_or, Bool.or_eq_true]
  rcases List.mem_append.mp hv with hv | hv
  · exact .inr (h v hv)
  · left
    obtain ⟨i, hi, rfl⟩ := List.mem_iff_getElem.mp hv
    have hmem : (vars[i], row[i]) ∈ (vars.zip row).reverse := by
      rw [List.mem_reverse]
      exact List.mem_iff_getElem.mpr ⟨i, by simp [hlen, hi], by simp⟩
    unfold Env.get?
    rw [Option.isSome_map, List.find?_isSome]
    exact ⟨_, hmem, by simp⟩

end Env

namespace Code

variable {known : String → Prop} {store : Store}

theorem rows_sane {sink : Option (List Var)} {bound pattern : List Var} {env : Env}
    (hbinds : env.Binds bound) {body : Code}
    (hbody : ∀ env' : Env, env'.Binds (bound ++ pattern) → (body.exec store sink env').Sane sink)
    (rows : List Row) :
    (Trace.concat (rows.map fun row =>
      match env.extend? pattern row with
      | some env' => body.exec store sink env'
      | none => .empty)).Sane sink := by
  apply Trace.sane_iff.mpr
  apply Trace.rows_keep
  exact fun row _ e he => Trace.sane_iff.mp (hbody e (hbinds.extend? he))

mutual

/-- Sound code, run where its variables are bound and its relations exist. -/
theorem Sound.exec (hknown : ∀ rel, known rel → (store.get? rel).isSome) {c : Code}
    {sink : Option (List Var)} {bound : List Var} (h : c.Sound known sink bound) {env : Env}
    (hbinds : env.Binds bound) : (c.exec store sink env).Sane sink := by
  match c with
  | .block items =>
    rw [Code.exec, execAll_eq_map]
    exact Trace.concat_sane (SoundAll.exec hknown h hbinds)
  | .scan rel pattern body =>
    rw [Code.exec]
    refine Trace.after_sane (Store.relation_fails (hknown rel h.1)) fun r _ => ?_
    exact rows_sane hbinds (fun env' h' => Sound.exec hknown h.2 h') _
  | .lookup rel mask pattern body =>
    rw [Code.exec]
    refine Trace.after_sane (Store.relation_fails (hknown rel h.1)) fun r _ => ?_
    refine Trace.after_sane (Env.valuesOf_fails (hbinds.mono h.2.1)) fun key _ => ?_
    exact rows_sane hbinds (fun env' h' => Sound.exec hknown h.2.2 h') _
  | .member rel pattern body =>
    rw [Code.exec]
    refine Trace.after_sane (Store.relation_fails (hknown rel h.1)) fun r _ => ?_
    refine Trace.after_sane (Env.valuesOf_fails (hbinds.mono h.2.1)) fun row _ => ?_
    split
    · exact Sound.exec hknown h.2.2 hbinds
    · exact Trace.empty_sane
  | .bind pattern expr body =>
    rw [Code.exec]
    refine Trace.after_sane (ExecError.lift_fails (expr.eval_fails (hbinds.mono h.1))) fun x _ => ?_
    refine Trace.after_sane (x.itemsOf_fails _) fun items _ => ?_
    split
    · rename_i hx
      exact Sound.exec hknown h.2 (hbinds.extend? hx)
    · exact Trace.empty_sane
  | .test cond body =>
    rw [Code.exec]
    refine Trace.after_sane (ExecError.lift_fails (Expr.holds_fails (hbinds.mono h.1))) fun b _ => ?_
    split
    · exact Sound.exec hknown h.2 hbinds
    · exact Trace.empty_sane
  | .update rel change expr =>
    rw [Code.exec]
    refine Trace.after_sane (ExecError.lift_fails (Expr.evalRow_fails (hbinds.mono h))) fun row _ => ?_
    exact ⟨by simp, by simp⟩
  | .union vars verify branches body =>
    rw [Code.exec, execAll_eq_map]
    have hbranches := Trace.branches_sane verify [] (SoundAll.exec hknown h.1 hbinds)
    refine Trace.append_sane ⟨hbranches.fault, by simp⟩ (Trace.concat_sane fun t ht => ?_)
    obtain ⟨row, hrow, rfl⟩ := List.mem_map.mp ht
    have hlen := hbranches.collected vars rfl row (List.mem_eraseDups.mp hrow)
    exact Sound.exec hknown h.2 (hbinds.shadow hlen)
  | .collect =>
    obtain ⟨vars, rfl, hvars⟩ := h
    rw [Code.exec]
    refine Trace.after_sane (Env.valuesOf_fails (hbinds.mono hvars)) fun row hrow => ?_
    refine ⟨by simp, fun ws hws => ?_⟩
    cases hws
    simpa using ((Env.valuesOf_eq_ok_iff ..).mp hrow).length

theorem SoundAll.exec (hknown : ∀ rel, known rel → (store.get? rel).isSome) {cs : List Code}
    {sink : Option (List Var)} {bound : List Var} (h : SoundAll known sink bound cs) {env : Env}
    (hbinds : env.Binds bound) : ∀ t ∈ cs.map fun c => c.exec store sink env, t.Sane sink := by
  match cs with
  | [] => simp
  | c :: cs =>
    exact List.forall_mem_cons.mpr ⟨Sound.exec hknown h.1 hbinds, SoundAll.exec hknown h.2 hbinds⟩

end

theorem Sound.run (hknown : ∀ rel, known rel → (store.get? rel).isSome) {c : Code}
    (h : c.Sound known none [Var.delta]) (row : Row) :
    FailsOnly (·.isOfValues = true) (c.run store row) := by
  have hbinds : Env.Binds [(Var.delta, .tuple row)] [Var.delta] := by simp [Env.Binds]
  intro e he
  unfold Code.run at he
  dsimp only at he
  split at he
  · rename_i hfault
    cases he
    exact (h.exec hknown hbinds).fault e hfault
  · cases he

end Code

end ViewUpkeep
