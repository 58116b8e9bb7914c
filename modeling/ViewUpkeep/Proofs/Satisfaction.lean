import Mathlib.Data.Set.Card
import ViewUpkeep.Comprehension
import ViewUpkeep.Proofs.Environment

/-!
What clauses and comprehensions mean. A clause holds of an environment over given facts, that is
over the rows that each relation has; no plan, no index and no order of the clauses plays a part. A
witness of a comprehension is a row of values for its variables under which every clause holds. The
rows of a comprehension are the outputs of its witnesses, each as often as there are witnesses.
-/
namespace ViewUpkeep

abbrev Facts := String → Row → Prop

namespace Expr

theorem evalAll_vars (env : Env) (vs : List Var) (row : Row) :
    evalAll env (vs.map .var) = .ok row ↔ env.Reads vs row := by
  induction vs generalizing row with
  | nil => simp [evalAll, eq_comm]
  | cons v vs ih =>
    rw [List.map_cons, evalAll, bind_eq_ok]
    constructor
    · rintro ⟨x, hx, h⟩
      obtain ⟨xs, hxs, h⟩ := bind_eq_ok.mp h
      cases h
      refine (Env.reads_cons ..).mpr ⟨?_, (ih xs).mp hxs⟩
      unfold eval at hx
      cases hv : env.get? v with
      | none => simp [hv] at hx
      | some y =>
        rw [hv] at hx
        cases hx
        rfl
    · intro h
      cases row with
      | nil => simp at h
      | cons x xs =>
        obtain ⟨hx, hxs⟩ := (Env.reads_cons ..).mp h
        exact ⟨x, by simp [eval, hx], bind_eq_ok.mpr ⟨xs, (ih xs).mpr hxs, rfl⟩⟩

theorem eval_tupleOf (env : Env) (vs : List Var) (row : Row) :
    (tupleOf vs).eval env = .ok (.tuple row) ↔ env.Reads vs row := by
  unfold tupleOf eval
  rw [← evalAll_vars, bind_eq_ok]
  constructor
  · rintro ⟨r, hr, h⟩
    cases h
    exact hr
  · intro h
    exact ⟨row, h, rfl⟩

theorem evalRow_tuple (env : Env) (items : List Expr) :
    (tuple items).evalRow env = evalAll env items := by
  unfold evalRow eval
  cases evalAll env items <;> rfl

theorem eval_var (env : Env) (v : Var) (x : Value) :
    (var v).eval env = .ok x ↔ env.get? v = some x := by
  unfold eval
  cases env.get? v <;> simp

theorem mentionsAll_append (es fs : List Expr) :
    mentionsAll (es ++ fs) = mentionsAll es ++ mentionsAll fs := by
  induction es with
  | nil => rfl
  | cons e es ih => simp [mentionsAll, ih]

theorem mentionsAll_vars (vs : List Var) : mentionsAll (vs.map .var) = vs := by
  induction vs with
  | nil => rfl
  | cons v vs ih => simp [mentionsAll, mentions, ih]

theorem mentionsAll_components (e : Expr) : mentionsAll e.components = e.mentions := by
  cases e <;> simp [components, mentions, mentionsAll]

theorem allInjective_components (e : Expr) : allInjective e.components = e.isInjective := by
  cases e <;> simp [components, isInjective, allInjective]

theorem evalAll_append (env : Env) (es fs : List Expr) (row : Row) :
    evalAll env (es ++ fs) = .ok row ↔
      ∃ a b, evalAll env es = .ok a ∧ evalAll env fs = .ok b ∧ row = a ++ b := by
  induction es generalizing row with
  | nil => simp [evalAll, eq_comm]
  | cons e es ih =>
    rw [List.cons_append, evalAll, bind_eq_ok, evalAll]
    constructor
    · rintro ⟨x, hx, h⟩
      obtain ⟨xs, hxs, h⟩ := bind_eq_ok.mp h
      obtain ⟨a, b, ha, hb, rfl⟩ := (ih xs).mp hxs
      cases h
      exact ⟨x :: a, b, bind_eq_ok.mpr ⟨x, hx, bind_eq_ok.mpr ⟨a, ha, rfl⟩⟩, hb, rfl⟩
    · rintro ⟨a, b, ha, hb, rfl⟩
      obtain ⟨x, hx, h⟩ := bind_eq_ok.mp ha
      obtain ⟨xs, hxs, h⟩ := bind_eq_ok.mp h
      cases h
      exact ⟨x, hx, bind_eq_ok.mpr ⟨xs ++ b, (ih _).mpr ⟨xs, b, hxs, hb, rfl⟩, rfl⟩⟩

end Expr

namespace Clause

def Holds (facts : Facts) (env : Env) : Clause → Prop
  | .member lhs rel | .mapMember lhs rel _ => ∃ row, env.Reads lhs row ∧ facts rel row
  | .singleton lhs expr | .delta lhs _ expr =>
    ∃ row, env.Reads lhs row ∧ expr.eval env = .ok (.tuple row)
  | .without inner value =>
    inner.Holds facts env ∧
      ∃ row x, env.Reads inner.lhs row ∧ value.eval env = .ok x ∧ x ≠ .tuple row
  | .withExtra inner value =>
    inner.Holds facts env ∨ ∃ row, env.Reads inner.lhs row ∧ value.eval env = .ok (.tuple row)
  | .demand inner _ _ => inner.Holds facts env
  | .cond expr => expr.eval env = .ok (.bool true)

def mentions : Clause → List Var
  | .member lhs _ | .mapMember lhs _ _ => lhs
  | .singleton lhs expr | .delta lhs _ expr => lhs ++ expr.mentions
  | .without inner value | .withExtra inner value => inner.mentions ++ value.mentions
  | .demand inner _ _ => inner.mentions
  | .cond expr => expr.mentions

theorem lhs_subset_mentions (c : Clause) : c.lhs ⊆ c.mentions := by
  induction c with
  | member | mapMember | singleton | delta => simp [lhs, mentions]
  | without inner value ih | withExtra inner value ih =>
    exact List.subset_append_of_subset_left _ ih
  | demand inner query params ih => exact ih
  | cond => simp [lhs]

theorem Holds.mono {facts : Facts} {env other : Env} (hw : env.Within other) {c : Clause}
    (h : c.Holds facts env) : c.Holds facts other := by
  induction c with
  | member lhs rel | mapMember lhs rel n =>
    obtain ⟨row, hr, hf⟩ := h
    exact ⟨row, hr.mono hw, hf⟩
  | singleton lhs expr | delta lhs rel expr =>
    obtain ⟨row, hr, he⟩ := h
    exact ⟨row, hr.mono hw, Expr.eval_mono hw expr he⟩
  | without inner value ih =>
    obtain ⟨hi, row, x, hr, hx, hne⟩ := h
    exact ⟨ih hi, row, x, hr.mono hw, Expr.eval_mono hw value hx, hne⟩
  | withExtra inner value ih =>
    rcases h with hi | ⟨row, hr, he⟩
    · exact .inl (ih hi)
    · exact .inr ⟨row, hr.mono hw, Expr.eval_mono hw value he⟩
  | demand inner query params ih => exact ih h
  | cond expr => exact Expr.eval_mono hw expr h

theorem holds_congr {facts : Facts} {env other : Env} {c : Clause}
    (h : ∀ v ∈ c.mentions, env.get? v = other.get? v) :
    c.Holds facts env ↔ c.Holds facts other := by
  induction c with
  | member lhs rel | mapMember lhs rel n =>
    exact exists_congr fun row => and_congr_left' (Env.Reads.congr h row)
  | singleton lhs expr | delta lhs rel expr =>
    unfold Holds
    simp only [Env.Reads.congr fun v hv => h v (List.mem_append_left _ hv),
      Expr.eval_congr expr fun v hv => h v (List.mem_append_right _ hv)]
  | without inner value ih =>
    unfold Holds
    have hin : ∀ v ∈ inner.lhs, env.get? v = other.get? v :=
      fun v hv => h v (List.mem_append_left _ (inner.lhs_subset_mentions hv))
    simp only [ih fun v hv => h v (List.mem_append_left _ hv), Env.Reads.congr hin,
      Expr.eval_congr value fun v hv => h v (List.mem_append_right _ hv)]
  | withExtra inner value ih =>
    unfold Holds
    have hin : ∀ v ∈ inner.lhs, env.get? v = other.get? v :=
      fun v hv => h v (List.mem_append_left _ (inner.lhs_subset_mentions hv))
    simp only [ih fun v hv => h v (List.mem_append_left _ hv), Env.Reads.congr hin,
      Expr.eval_congr value fun v hv => h v (List.mem_append_right _ hv)]
  | demand inner query params ih => exact ih h
  | cond expr =>
    unfold Holds
    rw [Expr.eval_congr expr h]

theorem Holds.of_facts {facts facts' : Facts} {env : Env} {c : Clause}
    (h : ∀ rel, c.rel? = some rel → ∀ row, env.Reads c.lhs row → facts rel row → facts' rel row)
    (holds : c.Holds facts env) : c.Holds facts' env := by
  induction c with
  | member lhs rel | mapMember lhs rel n =>
    obtain ⟨row, hrow, hfact⟩ := holds
    exact ⟨row, hrow, h rel rfl row hrow hfact⟩
  | singleton | delta | cond => exact holds
  | without inner value ih => exact ⟨ih h holds.1, holds.2⟩
  | withExtra inner value ih => exact holds.imp_left (ih h)
  | demand inner query params ih => exact ih h holds

theorem holds_facts_congr {facts facts' : Facts} {env : Env} {c : Clause}
    (h : ∀ rel, c.rel? = some rel → ∀ row, env.Reads c.lhs row → (facts rel row ↔ facts' rel row)) :
    c.Holds facts env ↔ c.Holds facts' env :=
  ⟨Holds.of_facts fun rel hrel row hrow => (h rel hrel row hrow).mp,
    Holds.of_facts fun rel hrel row hrow => (h rel hrel row hrow).mpr⟩

/-- A clause as it stands in a query: no clause about a changed row, and over a demanded query a
membership. -/
def Plain : Clause → Prop
  | .member .. | .mapMember .. | .singleton .. | .cond _ | .demand (.member ..) _ _ => True
  | _ => False

theorem Plain.holds_iff {c : Clause} (plain : c.Plain) {rel : String} (h : c.rel? = some rel)
    (facts : Facts) (env : Env) :
    c.Holds facts env ↔ ∃ row, env.Reads c.lhs row ∧ facts rel row := by
  cases c with
  | member lhs r | mapMember lhs r n =>
    cases h
    exact Iff.rfl
  | demand inner query params =>
    cases inner with
    | member lhs r =>
      cases h
      exact Iff.rfl
    | _ => cases plain
  | singleton | cond => cases h
  | _ => cases plain

end Clause

namespace Join

def Holds (facts : Facts) (env : Env) (j : Join) : Prop := ∀ c ∈ j, c.Holds facts env

theorem nodup_vars (j : Join) : j.vars.Nodup := nodup_eraseDups _

theorem holds_congr {facts : Facts} {env other : Env} {j : Join}
    (h : ∀ c ∈ j, ∀ v ∈ c.mentions, env.get? v = other.get? v) :
    j.Holds facts env ↔ j.Holds facts other :=
  forall₂_congr fun c hc => Clause.holds_congr (h c hc)

end Join

namespace Comprehension

def bindings (c : Comprehension) (b : Row) : Env := c.join.vars.zip b

/-- Values of all variables, wildcards included, under which every clause holds. -/
def Witness (c : Comprehension) (facts : Facts) (b : Row) : Prop :=
  b.length = c.join.vars.length ∧ c.join.Holds facts (c.bindings b)

def witnesses (c : Comprehension) (facts : Facts) (row : Row) : Set Row :=
  { b | c.Witness facts b ∧ c.output.evalRow (c.bindings b) = .ok row }

noncomputable def multiplicity (c : Comprehension) (facts : Facts) (row : Row) : ℕ∞ :=
  (c.witnesses facts row).encard

end Comprehension

end ViewUpkeep
