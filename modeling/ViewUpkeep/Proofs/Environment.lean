import Mathlib.Data.List.Nodup
import ViewUpkeep.Code.Run

/-!
Bindings as partial valuations. What matters of an environment is the value that it gives to each
variable: an environment lies within another if that one has all its bindings. Evaluation depends
only on the variables that an expression mentions, and a value once found stays when more variables
are bound.
-/
namespace ViewUpkeep

theorem bind_eq_ok {ε α β : Type} {x : Except ε α} {f : α → Except ε β} {b : β} :
    (x >>= f) = .ok b ↔ ∃ a, x = .ok a ∧ f a = .ok b := by
  cases x with
  | error e => simp [bind, Except.bind]
  | ok a => simp [bind, Except.bind]

/-! What is said of the outcome of a computation is decided by running it. -/

section Outcomes

variable {ε α : Type} {P : α → Prop} [DecidablePred P]

instance decidableExistsSome (o : Option α) : Decidable (∃ a, o = some a ∧ P a) :=
  inferInstanceAs (Decidable (∃ a ∈ o, P a))

instance decidableForallSome (o : Option α) : Decidable (∀ a, o = some a → P a) :=
  inferInstanceAs (Decidable (∀ a ∈ o, P a))

instance decidableExistsOk (x : Except ε α) : Decidable (∃ a, x = .ok a ∧ P a) :=
  match x with
  | .ok a => decidable_of_iff (P a) (by simp)
  | .error _ => .isFalse (by simp)

end Outcomes

theorem nodup_eraseDups {α : Type} [BEq α] [LawfulBEq α] (l : List α) : l.eraseDups.Nodup := by
  match l with
  | [] => exact List.nodup_nil
  | a :: as =>
    rw [List.eraseDups_cons, List.nodup_cons, List.mem_eraseDups]
    exact ⟨by simp, nodup_eraseDups (as.filter fun b => !b == a)⟩
termination_by l.length
decreasing_by exact Nat.lt_succ_of_le (List.length_filter_le _ _)

namespace Env

def Reads (env : Env) (vs : List Var) (row : Row) : Prop := vs.map env.get? = row.map some

def Within (env other : Env) : Prop := ∀ v x, env.get? v = some x → other.get? v = some x

def Binds (env : Env) (vs : List Var) : Prop := ∀ v ∈ vs, (env.get? v).isSome

@[simp] theorem get?_nil (v : Var) : get? [] v = none := rfl

@[simp] theorem get?_cons (v w : Var) (x : Value) (env : Env) :
    get? ((v, x) :: env) w = if v = w then some x else env.get? w := by
  unfold get?
  rw [List.find?_cons]
  by_cases h : v = w <;> simp [h]

theorem get?_append (env other : Env) (v : Var) :
    get? (env ++ other) v = (env.get? v).or (other.get? v) := by
  unfold get?
  rw [List.find?_append]
  cases env.find? (fun b => b.1 = v) <;> simp

theorem Within.refl (env : Env) : env.Within env := fun _ _ h => h

theorem Within.trans {a b c : Env} (h : a.Within b) (k : b.Within c) : a.Within c :=
  fun v x hv => k v x (h v x hv)

/-! ### Reading a pattern -/

@[simp] theorem reads_nil (env : Env) (row : Row) : env.Reads [] row ↔ row = [] := by
  cases row <;> simp [Reads]

@[simp] theorem reads_cons (env : Env) (v : Var) (vs : List Var) (x : Value) (row : Row) :
    env.Reads (v :: vs) (x :: row) ↔ env.get? v = some x ∧ env.Reads vs row := by
  simp [Reads]

@[simp] theorem not_reads_cons_nil (env : Env) (v : Var) (vs : List Var) :
    ¬ env.Reads (v :: vs) [] := by
  simp [Reads]

theorem Reads.length {env : Env} {vs : List Var} {row : Row} (h : env.Reads vs row) :
    row.length = vs.length := by
  have := congrArg List.length h
  simpa using this.symm

theorem Reads.unique {env : Env} {vs : List Var} {row row' : Row} (h : env.Reads vs row)
    (k : env.Reads vs row') : row = row' :=
  List.map_injective_iff.mpr (fun _ _ => Option.some.inj) (h.symm.trans k)

theorem Reads.mono {a b : Env} (h : a.Within b) {vs : List Var} {row : Row} (hr : a.Reads vs row) :
    b.Reads vs row := by
  induction vs generalizing row with
  | nil => simpa using hr
  | cons v vs ih =>
    cases row with
    | nil => simp at hr
    | cons x row =>
      rw [reads_cons] at hr ⊢
      exact ⟨h v x hr.1, ih hr.2⟩

theorem Reads.congr {a b : Env} {vs : List Var} (h : ∀ v ∈ vs, a.get? v = b.get? v) (row : Row) :
    a.Reads vs row ↔ b.Reads vs row := by
  unfold Reads
  rw [List.map_congr_left h]

theorem Reads.get? {env : Env} {vs : List Var} {row : Row} (h : env.Reads vs row) {v : Var}
    (hv : v ∈ vs) : ∃ x ∈ row, env.get? v = some x := by
  have hm : env.get? v ∈ row.map some := h ▸ List.mem_map_of_mem hv
  obtain ⟨x, hx, he⟩ := List.mem_map.mp hm
  exact ⟨x, hx, he.symm⟩

theorem Reads.binds {env : Env} {vs : List Var} {row : Row} (h : env.Reads vs row) :
    env.Binds vs := by
  intro v hv
  obtain ⟨x, _, hx⟩ := h.get? hv
  rw [hx]
  rfl

theorem reads_append {env : Env} {vs ws : List Var} {row other : Row} (h : row.length = vs.length) :
    env.Reads (vs ++ ws) (row ++ other) ↔ env.Reads vs row ∧ env.Reads ws other := by
  unfold Reads
  rw [List.map_append, List.map_append]
  constructor
  · intro he
    exact List.append_inj he (by simp [h])
  · rintro ⟨hv, hw⟩
    rw [hv, hw]

theorem Reads.exists_append {env : Env} {vs ws : List Var} {row : Row}
    (h : env.Reads (vs ++ ws) row) :
    ∃ a b, row = a ++ b ∧ env.Reads vs a ∧ env.Reads ws b := by
  have hsplit := List.take_append_drop vs.length row
  have hlen : (row.take vs.length).length = vs.length := by
    have hlength := h.length
    rw [List.length_append] at hlength
    simp
    omega
  rw [← hsplit, reads_append hlen] at h
  exact ⟨_, _, hsplit.symm, h⟩

theorem Binds.exists_reads {env : Env} {vs : List Var} (h : env.Binds vs) :
    ∃ row, env.Reads vs row := by
  induction vs with
  | nil => exact ⟨[], by simp⟩
  | cons v vs ih =>
    obtain ⟨x, hx⟩ := Option.isSome_iff_exists.mp (h v List.mem_cons_self)
    obtain ⟨row, hrow⟩ := ih fun w hw => h w (List.mem_cons_of_mem v hw)
    exact ⟨x :: row, (reads_cons ..).mpr ⟨hx, hrow⟩⟩

theorem Reads.get?_eq {a b : Env} {vs : List Var} {row : Row} (h : a.Reads vs row)
    (k : b.Reads vs row) {v : Var} (hv : v ∈ vs) : a.get? v = b.get? v := by
  have hm : vs.map a.get? = vs.map b.get? := h.trans k.symm
  exact List.map_inj_left.mp hm v hv

theorem valuesOf_eq_ok_iff (env : Env) (vs : List Var) (row : Row) :
    env.valuesOf vs = .ok row ↔ env.Reads vs row := by
  induction vs generalizing row with
  | nil => simp [valuesOf, eq_comm]
  | cons v vs ih =>
    unfold valuesOf
    cases hv : env.get? v with
    | none =>
      cases row <;> simp [hv]
    | some x =>
      cases hr : env.valuesOf vs with
      | error e =>
        have hno : ∀ r, ¬ env.Reads vs r := fun r hrr => by simp [(ih r).mpr hrr] at hr
        cases row <;> simp [bind, Except.bind, hno]
      | ok xs =>
        cases row with
        | nil => simp [bind, Except.bind]
        | cons y ys =>
          have := ih ys
          rw [hr] at this
          simp [bind, Except.bind, hv, ← this]

/-! ### Extending by a pattern -/

theorem extend?_eq_some {env env' : Env} {vs : List Var} {row : Row}
    (h : env.extend? vs row = some env') :
    env.Within env' ∧ env'.Reads vs row ∧
      ∀ v, (env'.get? v).isSome = true ↔ (env.get? v).isSome = true ∨ v ∈ vs := by
  fun_induction extend? env vs row with
  | case1 env =>
    cases h
    exact ⟨.refl _, by simp, by simp⟩
  | case2 env v vs xs y hy ih =>
    obtain ⟨hw, hr, hb⟩ := ih h
    refine ⟨hw, (reads_cons ..).mpr ⟨hw v y hy, hr⟩, ?_⟩
    intro w
    rw [hb w, List.mem_cons]
    constructor
    · rintro (hw | hw)
      · exact .inl hw
      · exact .inr (.inr hw)
    · rintro (hw | rfl | hw)
      · exact .inl hw
      · exact .inl (by rw [hy]; rfl)
      · exact .inr hw
  | case3 env v vs x xs y hy hne => cases h
  | case4 env v vs x xs hv ih =>
    obtain ⟨hw, hr, hb⟩ := ih h
    have hin : env.Within ((v, x) :: env) := by
      intro w y hwy
      have hne : v ≠ w := by
        rintro rfl
        rw [hv] at hwy
        cases hwy
      rw [get?_cons, if_neg hne, hwy]
    refine ⟨hin.trans hw, (reads_cons ..).mpr ⟨hw v x (by simp), hr⟩, ?_⟩
    intro w
    rw [hb w, get?_cons, List.mem_cons]
    by_cases hvw : v = w
    · simp [hvw]
    · simp [hvw, Ne.symm hvw]
  | case5 => cases h

theorem exists_extend? {env other : Env} {vs : List Var} {row : Row} (hw : env.Within other)
    (hr : other.Reads vs row) : ∃ env', env.extend? vs row = some env' ∧ env'.Within other := by
  induction vs generalizing env row with
  | nil =>
    rw [(reads_nil ..).mp hr]
    exact ⟨env, rfl, hw⟩
  | cons v vs ih =>
    cases row with
    | nil => simp at hr
    | cons x row =>
      obtain ⟨hx, hr⟩ := (reads_cons ..).mp hr
      unfold extend?
      cases hv : env.get? v with
      | some y =>
        have hyx : y = x := Option.some.inj ((hw v y hv).symm.trans hx)
        simpa [hyx] using ih hw hr
      | none =>
        apply ih ?_ hr
        intro w y hwy
        rw [get?_cons] at hwy
        by_cases hvw : v = w
        · rw [if_pos hvw] at hwy
          rw [← hvw, hx, hwy]
        · rw [if_neg hvw] at hwy
          exact hw w y hwy

/-! ### Bindings of a list of variables -/

theorem get?_zip_append {vs : List Var} {row : Row} {env : Env} {v : Var} (hv : v ∉ vs) :
    get? (vs.zip row ++ env) v = env.get? v := by
  induction vs generalizing row with
  | nil => simp
  | cons w vs ih =>
    cases row with
    | nil => simp
    | cons x row =>
      rw [List.mem_cons, not_or] at hv
      rw [List.zip_cons_cons, List.cons_append, get?_cons, if_neg (Ne.symm hv.1), ih hv.2]

theorem reads_zip_append {vs : List Var} (nodup : vs.Nodup) {row : Row}
    (h : row.length = vs.length) (env : Env) : Reads (vs.zip row ++ env) vs row := by
  induction vs generalizing row with
  | nil => simpa using h
  | cons v vs ih =>
    cases row with
    | nil => simp at h
    | cons x row =>
      rw [List.nodup_cons] at nodup
      rw [List.zip_cons_cons, List.cons_append, reads_cons, get?_cons, if_pos rfl]
      refine ⟨rfl, (Reads.congr ?_ row).mp (ih nodup.2 (by simpa using h))⟩
      intro w hw
      have hne : v ≠ w := fun he => nodup.1 (he ▸ hw)
      rw [get?_cons, if_neg hne]

theorem reads_zip {vs : List Var} (nodup : vs.Nodup) {row : Row} (h : row.length = vs.length) :
    Reads (vs.zip row) vs row := by
  simpa using reads_zip_append nodup h []

theorem get?_shadow {vs : List Var} (nodup : vs.Nodup) (row : Row) (env : Env) (v : Var) :
    (env.shadow vs row).get? v = get? (vs.zip row ++ env) v := by
  unfold shadow
  induction vs generalizing row env with
  | nil => rfl
  | cons w vs ih =>
    cases row with
    | nil => rfl
    | cons x row =>
      rw [List.nodup_cons] at nodup
      rw [List.zip_cons_cons, List.reverse_cons, List.append_assoc, ih nodup.2, List.cons_append,
        List.cons_append, get?_cons]
      by_cases hwv : w = v
      · rw [if_pos hwv, get?_zip_append (hwv ▸ nodup.1)]
        simp [hwv]
      · rw [if_neg hwv, get?_append, get?_append, List.nil_append, get?_cons, if_neg hwv]

theorem shadow_within_iff {vs : List Var} (nodup : vs.Nodup) {row : Row}
    (h : row.length = vs.length)
    (env : Env) : (shadow [] vs row).Within env ↔ env.Reads vs row := by
  have hget : ∀ v, (shadow [] vs row).get? v = get? (vs.zip row) v := fun v => by
    rw [get?_shadow nodup, List.append_nil]
  have hzip : Reads (vs.zip row) vs row := reads_zip nodup h
  constructor
  · intro hw
    exact hzip.mono fun v x hv => hw v x ((hget v).trans hv)
  · intro hr v x hv
    rw [hget] at hv
    by_cases hm : v ∈ vs
    · rw [← hv]
      exact hr.get?_eq hzip hm
    · have hnone : get? (vs.zip row ++ []) v = get? [] v := get?_zip_append hm
      rw [List.append_nil, hv] at hnone
      cases hnone

end Env

/-! ### Evaluation -/

namespace Expr

variable {env other : Env}

mutual

theorem eval_congr (e : Expr) (h : ∀ v ∈ e.mentions, env.get? v = other.get? v) :
    e.eval env = e.eval other := by
  match e with
  | .var v =>
    unfold eval
    rw [h v (by simp [mentions])]
  | .const c => rfl
  | .tuple items =>
    unfold eval
    rw [evalAll_congr items fun v hv => h v (by simpa [mentions] using hv)]
  | .not e =>
    unfold eval
    rw [eval_congr e fun v hv => h v (by simpa [mentions] using hv)]
  | .neg e =>
    unfold eval
    rw [eval_congr e fun v hv => h v (by simpa [mentions] using hv)]
  | .binary op l r =>
    have hl := eval_congr l fun v hv => h v (by simp [mentions, hv])
    have hr := eval_congr r fun v hv => h v (by simp [mentions, hv])
    cases op <;> simp only [eval, hl, hr]

theorem evalAll_congr (es : List Expr) (h : ∀ v ∈ mentionsAll es, env.get? v = other.get? v) :
    evalAll env es = evalAll other es := by
  match es with
  | [] => rfl
  | e :: es =>
    unfold evalAll
    rw [eval_congr e fun v hv => h v (by simp [mentionsAll, hv]),
      evalAll_congr es fun v hv => h v (by simp [mentionsAll, hv])]

end

mutual

theorem eval_mono (hw : env.Within other) (e : Expr) {x : Value} (h : e.eval env = .ok x) :
    e.eval other = .ok x := by
  match e with
  | .var v =>
    unfold eval at h ⊢
    cases hv : env.get? v with
    | none => simp [hv] at h
    | some y =>
      rw [hv] at h
      rw [hw v y hv]
      exact h
  | .const c => exact h
  | .tuple items =>
    unfold eval at h ⊢
    obtain ⟨vs, hvs, h⟩ := bind_eq_ok.mp h
    rw [evalAll_mono hw items hvs]
    exact h
  | .not e =>
    unfold eval at h ⊢
    obtain ⟨a, ha, h⟩ := bind_eq_ok.mp h
    rw [eval_mono hw e ha]
    exact h
  | .neg e =>
    unfold eval at h ⊢
    obtain ⟨a, ha, h⟩ := bind_eq_ok.mp h
    rw [eval_mono hw e ha]
    exact h
  | .binary .and l r =>
    simp only [eval] at h ⊢
    obtain ⟨a, ha, h⟩ := bind_eq_ok.mp h
    obtain ⟨b, hb, h⟩ := bind_eq_ok.mp h
    rw [eval_mono hw l ha]
    refine bind_eq_ok.mpr ⟨a, rfl, bind_eq_ok.mpr ⟨b, hb, ?_⟩⟩
    cases b with
    | false => exact h
    | true =>
      obtain ⟨c, hc, h⟩ := bind_eq_ok.mp h
      exact bind_eq_ok.mpr ⟨c, eval_mono hw r hc, h⟩
  | .binary .or l r =>
    simp only [eval] at h ⊢
    obtain ⟨a, ha, h⟩ := bind_eq_ok.mp h
    obtain ⟨b, hb, h⟩ := bind_eq_ok.mp h
    rw [eval_mono hw l ha]
    refine bind_eq_ok.mpr ⟨a, rfl, bind_eq_ok.mpr ⟨b, hb, ?_⟩⟩
    cases b with
    | true => exact h
    | false =>
      obtain ⟨c, hc, h⟩ := bind_eq_ok.mp h
      exact bind_eq_ok.mpr ⟨c, eval_mono hw r hc, h⟩
  | .binary .eq l r | .binary .ne l r | .binary .lt l r | .binary .le l r | .binary .gt l r
  | .binary .ge l r | .binary .add l r | .binary .sub l r | .binary .mul l r =>
    simp only [eval] at h ⊢
    obtain ⟨a, ha, h⟩ := bind_eq_ok.mp h
    obtain ⟨b, hb, h⟩ := bind_eq_ok.mp h
    rw [eval_mono hw l ha]
    exact bind_eq_ok.mpr ⟨a, rfl, bind_eq_ok.mpr ⟨b, eval_mono hw r hb, h⟩⟩

theorem evalAll_mono (hw : env.Within other) (es : List Expr) {row : Row}
    (h : evalAll env es = .ok row) : evalAll other es = .ok row := by
  match es with
  | [] => exact h
  | e :: es =>
    unfold evalAll at h ⊢
    obtain ⟨x, hx, h⟩ := bind_eq_ok.mp h
    obtain ⟨xs, hxs, h⟩ := bind_eq_ok.mp h
    rw [eval_mono hw e hx]
    exact bind_eq_ok.mpr ⟨x, rfl, bind_eq_ok.mpr ⟨xs, evalAll_mono hw es hxs, h⟩⟩

end

mutual

theorem get?_eq_of_eval_eq (e : Expr) (inj : e.isInjective = true) {x : Value}
    (h : e.eval env = .ok x) (k : e.eval other = .ok x) :
    ∀ v ∈ e.mentions, env.get? v = other.get? v := by
  match e with
  | .var v =>
    unfold eval at h k
    intro w hw
    rw [mentions, List.mem_singleton] at hw
    subst hw
    cases he : env.get? w with
    | none => simp [he] at h
    | some y =>
      cases ho : other.get? w with
      | none => simp [ho] at k
      | some z =>
        rw [he] at h
        rw [ho] at k
        cases h
        cases k
        rfl
  | .const c => simp [mentions]
  | .tuple items =>
    unfold eval at h k
    obtain ⟨vs, hvs, h⟩ := bind_eq_ok.mp h
    obtain ⟨ws, hws, k⟩ := bind_eq_ok.mp k
    cases h
    cases k
    rw [mentions]
    exact get?_eq_of_evalAll_eq items (by simpa [isInjective] using inj) hvs hws
  | .not _ | .neg _ | .binary .. => simp [isInjective] at inj

theorem get?_eq_of_evalAll_eq (es : List Expr) (inj : allInjective es = true) {row : Row}
    (h : evalAll env es = .ok row) (k : evalAll other es = .ok row) :
    ∀ v ∈ mentionsAll es, env.get? v = other.get? v := by
  match es with
  | [] => simp [mentionsAll]
  | e :: es =>
    unfold evalAll at h k
    obtain ⟨x, hx, h⟩ := bind_eq_ok.mp h
    obtain ⟨xs, hxs, h⟩ := bind_eq_ok.mp h
    obtain ⟨y, hy, k⟩ := bind_eq_ok.mp k
    obtain ⟨ys, hys, k⟩ := bind_eq_ok.mp k
    cases h
    cases k
    rw [allInjective, Bool.and_eq_true] at inj
    intro v hv
    rw [mentionsAll, List.mem_append] at hv
    rcases hv with hv | hv
    · exact get?_eq_of_eval_eq e inj.1 hx hy v hv
    · exact get?_eq_of_evalAll_eq es inj.2 hxs hys v hv

end

@[simp] theorem mem_vars (e : Expr) (v : Var) : v ∈ e.vars ↔ v ∈ e.mentions := by
  simp [vars]

theorem evalRow_congr (e : Expr) (h : ∀ v ∈ e.mentions, env.get? v = other.get? v) :
    e.evalRow env = e.evalRow other := by
  unfold evalRow
  rw [eval_congr e h]

theorem holds_eq_ok (e : Expr) (env : Env) (b : Bool) :
    e.holds env = .ok b ↔ e.eval env = .ok (.bool b) := by
  unfold holds
  rw [bind_eq_ok]
  constructor
  · rintro ⟨x, hx, hc⟩
    cases x with
    | bool b =>
      cases hc
      exact hx
    | int | str | tuple => cases hc
  · intro h
    exact ⟨_, h, rfl⟩

end Expr

end ViewUpkeep
