import ViewUpkeep.Proofs.Lowering
import ViewUpkeep.Proofs.Printing
import ViewUpkeep.Term.Constant

/-!
Terms mean the same in queries and in commands. Both are translated to expressions by the same
rules, up to three points: commands have no variables, a wildcard is another error, and queries
compute minus before a constant at once. The last point does not change what an expression
evaluates to, since a constant without a negative keeps its minus and fails when it is evaluated.
-/
namespace ViewUpkeep

/-! ### Expressions with the same outcome -/

def Expr.Equivalent (a b : Expr) : Prop := ∀ env, a.eval env = b.eval env

namespace Expr.Equivalent

variable {a b c d : Expr}

protected theorem refl (a : Expr) : a.Equivalent a := fun _ => rfl

protected theorem trans (h : a.Equivalent b) (k : b.Equivalent c) : a.Equivalent c :=
  fun env => (h env).trans (k env)

protected theorem not (h : a.Equivalent b) : (Expr.not a).Equivalent (.not b) := by
  intro env
  simp only [eval, h env]

protected theorem neg (h : a.Equivalent b) : (Expr.neg a).Equivalent (.neg b) := by
  intro env
  simp only [eval, h env]

protected theorem binary (op : Operator) (h : a.Equivalent b) (k : c.Equivalent d) :
    (Expr.binary op a c).Equivalent (.binary op b d) := by
  intro env
  cases op <;> simp only [eval, h env, k env]

theorem evalAll {as bs : List Expr} (h : List.Forall₂ Equivalent as bs) (env : Env) :
    Expr.evalAll env as = Expr.evalAll env bs := by
  induction h with
  | nil => rfl
  | cons h _ ih => simp only [Expr.evalAll, h env, ih]

protected theorem tuple {as bs : List Expr} (h : List.Forall₂ Equivalent as bs) :
    (Expr.tuple as).Equivalent (.tuple bs) := by
  intro env
  simp only [eval, evalAll h env]

end Expr.Equivalent

/-- Minus computed at once gives what its evaluation would give. -/
theorem Term.equivalent_minus (e : Expr) : (minus e).Equivalent (.neg e) := by
  intro env
  unfold minus
  split
  next n =>
    split
    next m hm => simp only [Expr.eval, bind, Except.bind, Value.negate, hm]
    -- The least integer keeps its minus, and evaluation reports the overflow.
    next => rfl
  next => rfl

/-! ### Translations -/

def Term.isNoWildcard : Term → Bool
  | .wildcard => false
  | _ => true

/-- What a translation of terms makes of a variable, of a wildcard, and of minus before an
expression. -/
structure Translation (ε : Type) where
  var : String → Except ε Expr
  wildcard : ε
  minus : Expr → Expr

namespace Translation

mutual

def term {ε : Type} (f : Translation ε) : Term → Except ε Expr
  | .var name => f.var name
  | .wildcard => .error f.wildcard
  | .int n => .ok (.const (.int n))
  | .str s => .ok (.const (.str s))
  | .bool b => .ok (.const (.bool b))
  | .tuple items => do return .tuple (← f.terms items)
  | .not t => do return .not (← f.term t)
  | .neg t => do return f.minus (← f.term t)
  | .binary op l r => do
    let a ← f.term l
    let b ← f.term r
    return .binary op a b

def terms {ε : Type} (f : Translation ε) : List Term → Except ε (List Expr)
  | [] => .ok []
  | t :: ts => do
    let e ← f.term t
    let es ← f.terms ts
    return e :: es

end

def ofQueries : Translation Malformed where
  var name := .ok (.var ⟨name⟩)
  wildcard := .wildcardOutsidePattern
  minus := Term.minus

def ofCommands : Translation ConstantError where
  var name := .error (.var name)
  wildcard := .wildcard
  minus := .neg

def unfolded : Translation Malformed := { ofQueries with minus := .neg }

mutual

theorem term_ofQueries (t : Term) : ofQueries.term t = t.toExpr := by
  match t with
  | .var _ | .wildcard | .int _ | .str _ | .bool _ => rfl
  | .tuple items => simp only [term, Term.toExpr, terms_ofQueries items]
  | .not t => simp only [term, Term.toExpr, term_ofQueries t]
  | .neg t =>
    simp only [term, Term.toExpr, term_ofQueries t]
    rfl
  | .binary op l r => simp only [term, Term.toExpr, term_ofQueries l, term_ofQueries r]

theorem terms_ofQueries (ts : List Term) : ofQueries.terms ts = Term.toExprs ts := by
  match ts with
  | [] => rfl
  | t :: ts => simp only [terms, Term.toExprs, term_ofQueries t, terms_ofQueries ts]

end

mutual

theorem term_ofCommands (t : Term) : ofCommands.term t = t.closed := by
  match t with
  | .var _ | .wildcard | .int _ | .str _ | .bool _ => rfl
  | .tuple items => simp only [term, Term.closed, terms_ofCommands items]
  | .not t => simp only [term, Term.closed, term_ofCommands t]
  | .neg t =>
    simp only [term, Term.closed, term_ofCommands t]
    rfl
  | .binary op l r => simp only [term, Term.closed, term_ofCommands l, term_ofCommands r]

theorem terms_ofCommands (ts : List Term) : ofCommands.terms ts = Term.closeds ts := by
  match ts with
  | [] => rfl
  | t :: ts => simp only [terms, Term.closeds, term_ofCommands t, terms_ofCommands ts]

end

def Agrees {ε δ : Type} (f : Translation ε) (g : Translation δ) : Prop :=
  ∀ a b : Expr, a.Equivalent b → (f.minus a).Equivalent (g.minus b)

theorem ofQueries_agrees {δ : Type} {g : Translation δ} (hneg : g.minus = .neg) :
    ofQueries.Agrees g := by
  intro a b h
  rw [hneg]
  exact (Term.equivalent_minus a).trans h.neg

def Keeps {ε : Type} (f : Translation ε) (name : String) : Prop := f.var name = .ok (.var ⟨name⟩)

variable {ε δ : Type} {f : Translation ε} {g : Translation δ}

mutual

theorem Agrees.term (agrees : f.Agrees g) (t : Term)
    (valued : t.everywhere Term.isNoWildcard = true)
    (keeps : ∀ name ∈ t.names, f.Keeps name ∧ g.Keeps name) :
    ∃ a b, f.term t = .ok a ∧ g.term t = .ok b ∧ a.Equivalent b := by
  match t with
  | .var name =>
    obtain ⟨hf, hg⟩ := keeps name (by simp [Term.names])
    exact ⟨_, _, hf, hg, .refl _⟩
  | .wildcard => cases valued
  | .int _ | .str _ | .bool _ => exact ⟨_, _, rfl, rfl, .refl _⟩
  | .tuple items =>
    rw [Term.everywhere, Bool.and_eq_true] at valued
    obtain ⟨as, bs, hf, hg, h⟩ := agrees.terms items valued.2 (by simpa [Term.names] using keeps)
    exact ⟨_, _, bind_eq_ok.mpr ⟨as, hf, rfl⟩, bind_eq_ok.mpr ⟨bs, hg, rfl⟩, .tuple h⟩
  | .not t =>
    rw [Term.everywhere, Bool.and_eq_true] at valued
    obtain ⟨a, b, hf, hg, h⟩ := agrees.term t valued.2 (by simpa [Term.names] using keeps)
    exact ⟨_, _, bind_eq_ok.mpr ⟨a, hf, rfl⟩, bind_eq_ok.mpr ⟨b, hg, rfl⟩, h.not⟩
  | .neg t =>
    rw [Term.everywhere, Bool.and_eq_true] at valued
    obtain ⟨a, b, hf, hg, h⟩ := agrees.term t valued.2 (by simpa [Term.names] using keeps)
    exact ⟨_, _, bind_eq_ok.mpr ⟨a, hf, rfl⟩, bind_eq_ok.mpr ⟨b, hg, rfl⟩, agrees a b h⟩
  | .binary op l r =>
    rw [Term.everywhere, Bool.and_eq_true, Bool.and_eq_true] at valued
    rw [Term.names, List.forall_mem_append] at keeps
    obtain ⟨a, b, hfl, hgl, hl⟩ := agrees.term l valued.1.2 keeps.1
    obtain ⟨c, d, hfr, hgr, hr⟩ := agrees.term r valued.2 keeps.2
    exact ⟨_, _, bind_eq_ok.mpr ⟨a, hfl, bind_eq_ok.mpr ⟨c, hfr, rfl⟩⟩,
      bind_eq_ok.mpr ⟨b, hgl, bind_eq_ok.mpr ⟨d, hgr, rfl⟩⟩, hl.binary op hr⟩

theorem Agrees.terms (agrees : f.Agrees g) (ts : List Term)
    (valued : Term.allEverywhere Term.isNoWildcard ts = true)
    (keeps : ∀ name ∈ Term.namesAll ts, f.Keeps name ∧ g.Keeps name) :
    ∃ as bs, f.terms ts = .ok as ∧ g.terms ts = .ok bs ∧ List.Forall₂ Expr.Equivalent as bs := by
  match ts with
  | [] => exact ⟨[], [], rfl, rfl, .nil⟩
  | t :: ts =>
    rw [Term.allEverywhere, Bool.and_eq_true] at valued
    rw [Term.namesAll, List.forall_mem_append] at keeps
    obtain ⟨a, b, hf, hg, h⟩ := agrees.term t valued.1 keeps.1
    obtain ⟨as, bs, hfs, hgs, hs⟩ := agrees.terms ts valued.2 keeps.2
    exact ⟨_, _, bind_eq_ok.mpr ⟨a, hf, bind_eq_ok.mpr ⟨as, hfs, rfl⟩⟩,
      bind_eq_ok.mpr ⟨b, hg, bind_eq_ok.mpr ⟨bs, hgs, rfl⟩⟩, .cons h hs⟩

end

end Translation

/-! ### Constants -/

namespace Term

theorem constant_of_closed {t : Term} {e : Expr} (h : t.closed = .ok e) :
    t.constant = (e.eval []).mapError .eval := by
  rw [constant, h]
  cases he : e.eval [] with
  | ok v => simp only [bind, Except.bind, he]; rfl
  | error _ => simp only [bind, Except.bind, he]; rfl

theorem eval_of_names_eq_nil {t : Term} (constant : t.names = []) {e : Expr}
    (h : t.toExpr = .ok e) (env other : Env) : e.eval env = e.eval other := by
  refine Expr.eval_congr e fun v hv => ?_
  have hname := mentions_toExpr t h v hv
  simp [constant] at hname

/-- Computing minus at once changes neither the value nor the error of a term without wildcards.
Without variables too, the term means the same in a query as in a command: the two translations are
equivalent, and the command's outcome is the one in the query, whatever is bound there. -/
theorem translations_agree {t : Term} (valued : t.everywhere isNoWildcard = true) :
    (∃ e plain, t.toExpr = .ok e ∧ Translation.unfolded.term t = .ok plain ∧
      ∀ env, e.eval env = plain.eval env) ∧
    (t.names = [] → ∃ e command, t.toExpr = .ok e ∧ t.closed = .ok command ∧
      ∀ env, e.eval env = command.eval env ∧ t.constant = (e.eval env).mapError .eval) := by
  refine ⟨?_, fun constant => ?_⟩
  · obtain ⟨e, plain, he, hplain, h⟩ :=
      (Translation.ofQueries_agrees (g := .unfolded) rfl).term t valued fun _ _ => ⟨rfl, rfl⟩
    rw [Translation.term_ofQueries] at he
    exact ⟨e, plain, he, hplain, h⟩
  · obtain ⟨e, command, he, hcommand, h⟩ :=
      (Translation.ofQueries_agrees (g := .ofCommands) rfl).term t valued (by simp [constant])
    rw [Translation.term_ofQueries] at he
    rw [Translation.term_ofCommands] at hcommand
    refine ⟨e, command, he, hcommand, fun env => ⟨h env, ?_⟩⟩
    rw [constant_of_closed hcommand, ← h, eval_of_names_eq_nil constant he [] env]

def leastPair : Term :=
  .tuple [.binary .or (.bool true) (.neg (.int Int64.minValue)),
    .neg (.neg (.int Int64.minValue))]

def lessFive : Term := .binary .sub (.var "x") (.neg (.neg (.int 5)))

theorem translations_agree_edge :
    (leastPair.constant = .error (.eval (.overflow .sub 0 Int64.minValue)) ∧
      ∃ e, leastPair.toExpr = .ok e ∧
        ∀ env, e.eval env = .error (.overflow .sub 0 Int64.minValue)) ∧
    ∀ env, (Expr.binary .sub (.var ⟨"x"⟩) (.const (.int 5))).eval env =
      (Expr.binary .sub (.var ⟨"x"⟩) (.neg (.neg (.const (.int 5))))).eval env := by
  have hpair : leastPair.everywhere isNoWildcard = true := by decide
  have hless : lessFive.everywhere isNoWildcard = true := by decide
  have hread : lessFive.toExpr = .ok (.binary .sub (.var ⟨"x"⟩) (.const (.int 5))) := by rfl
  obtain ⟨e, command, he, hcommand, h⟩ := (translations_agree hpair).2 rfl
  obtain ⟨folded, plain, hfolded, hplain, hsame⟩ := (translations_agree hless).1
  have hfails : ∀ env, e.eval env = .error (.overflow .sub 0 Int64.minValue) := by
    cases hcommand
    exact fun env => (h env).1
  refine ⟨⟨?_, e, he, hfails⟩, ?_⟩
  · rw [(h []).2, hfails]
    rfl
  · cases hread.symm.trans hfolded
    cases hplain
    exact hsame

end Term

end ViewUpkeep
