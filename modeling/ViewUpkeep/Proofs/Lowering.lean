import ViewUpkeep.Lowering
import ViewUpkeep.Proofs.Handler
import ViewUpkeep.Proofs.Names

/-!
Comprehensions of queries as written. Their clauses are plain and range over relations and queries
in scope; the variable of the changed row is not among their variables, since no identifier spells
it.
-/
namespace ViewUpkeep

namespace Term

theorem mentions_minus (e : Expr) : (minus e).mentions ⊆ e.mentions := by
  unfold minus
  split
  · split <;> simp [Expr.mentions]
  · simp [Expr.mentions]

mutual

theorem mentions_toExpr (t : Term) {e : Expr} (h : t.toExpr = .ok e) :
    ∀ v ∈ e.mentions, v.name ∈ t.names := by
  match t with
  | .var name =>
    cases h
    simp [Expr.mentions, names]
  | .wildcard => cases h
  | .int _ | .str _ | .bool _ =>
    cases h
    simp [Expr.mentions]
  | .tuple items =>
    obtain ⟨es, hes, h⟩ := bind_eq_ok.mp h
    cases h
    intro v hv
    exact mentions_toExprs items hes v (by simpa [Expr.mentions] using hv)
  | .not t =>
    obtain ⟨a, ha, h⟩ := bind_eq_ok.mp h
    cases h
    intro v hv
    exact mentions_toExpr t ha v (by simpa [Expr.mentions] using hv)
  | .neg t =>
    obtain ⟨a, ha, h⟩ := bind_eq_ok.mp h
    cases h
    intro v hv
    exact mentions_toExpr t ha v (mentions_minus a hv)
  | .binary op l r =>
    obtain ⟨a, ha, h⟩ := bind_eq_ok.mp h
    obtain ⟨b, hb, h⟩ := bind_eq_ok.mp h
    cases h
    intro v hv
    rw [Expr.mentions, List.mem_append] at hv
    rw [names, List.mem_append]
    exact hv.imp (mentions_toExpr l ha v) (mentions_toExpr r hb v)

theorem mentions_toExprs (ts : List Term) {es : List Expr} (h : toExprs ts = .ok es) :
    ∀ v ∈ Expr.mentionsAll es, v.name ∈ namesAll ts := by
  match ts with
  | [] =>
    cases h
    simp [Expr.mentionsAll]
  | t :: ts =>
    obtain ⟨a, ha, h⟩ := bind_eq_ok.mp h
    obtain ⟨as, has, h⟩ := bind_eq_ok.mp h
    cases h
    intro v hv
    rw [Expr.mentionsAll, List.mem_append] at hv
    rw [namesAll, List.mem_append]
    exact hv.imp (mentions_toExpr t ha v) (mentions_toExprs ts has v)

end

theorem WellNamed.delta_notMem {t : Term} (named : t.WellNamed) {e : Expr} (h : t.toExpr = .ok e) :
    Var.delta ∉ e.mentions :=
  fun hv => Var.ne_delta_of_identifier (named _ (mentions_toExpr t h _ hv)) rfl

theorem patternVar_ne_delta {t : Term} (named : t.WellNamed) {n m : Nat} {v : Var}
    (h : t.patternVar n = .ok (v, m)) : v ≠ Var.delta := by
  cases t with
  | var name =>
    cases h
    exact Var.ne_delta_of_identifier (named name (by simp [names]))
  | wildcard =>
    cases h
    exact Var.anonymous_ne_delta n
  | _ => cases h

theorem patternVars_delta_notMem {ts : List Term} (named : ∀ t ∈ ts, t.WellNamed) {n m : Nat}
    {vs : List Var} (h : patternVars n ts = .ok (vs, m)) : Var.delta ∉ vs := by
  induction ts generalizing n vs with
  | nil =>
    cases h
    simp
  | cons t ts ih =>
    obtain ⟨⟨v, k⟩, hv, h⟩ := bind_eq_ok.mp h
    obtain ⟨⟨ws, l⟩, hws, h⟩ := bind_eq_ok.mp h
    cases h
    have hne := patternVar_ne_delta (named t List.mem_cons_self) hv
    have hrest := ih (fun u hu => named u (List.mem_cons_of_mem t hu)) hws
    simp [Ne.symm hne, hrest]

theorem pattern_delta_notMem {t : Term} (named : t.WellNamed) {n m : Nat} {vs : List Var}
    (h : t.pattern n = .ok (vs, m)) : Var.delta ∉ vs := by
  cases t with
  | tuple items =>
    refine patternVars_delta_notMem ?_ h
    intro u hu v hv
    exact named v (by rw [names]; exact mem_namesAll.mpr ⟨u, hu, hv⟩)
  | _ =>
    obtain ⟨⟨v, k⟩, hv, h⟩ := bind_eq_ok.mp h
    cases h
    simpa using (patternVar_ne_delta named hv).symm

theorem arguments_delta_notMem {ts : List Term} (named : ∀ t ∈ ts, t.WellNamed) {query : String}
    {vs : List Var} (h : arguments query ts = .ok vs) : Var.delta ∉ vs := by
  induction ts generalizing vs with
  | nil =>
    cases h
    simp
  | cons t ts ih =>
    obtain ⟨v, hv, h⟩ := bind_eq_ok.mp h
    obtain ⟨ws, hws, h⟩ := bind_eq_ok.mp h
    cases h
    have hne : v ≠ Var.delta := by
      cases t with
      | var name =>
        cases hv
        exact Var.ne_delta_of_identifier (named _ List.mem_cons_self name (by simp [names]))
      | _ => cases hv
    have hrest := ih (fun u hu => named u (List.mem_cons_of_mem t hu)) hws
    simp [Ne.symm hne, hrest]

end Term

/-- A clause over what is in scope, for a query that is answered in a given mode. Its pattern has
the length of the rows, and all rows of a query are asked for only if they can be listed. -/
inductive Clause.Scoped (scope : Scope) (mode : Mode) : Clause → Prop where
  | relation {c : Clause} {lhs : List Var} {rel : String} {info : RelationInfo} :
    scope.relation? rel = some info → c = .member lhs rel ∨ (∃ n, c = .mapMember lhs rel n) →
    lhs.length = info.arity → (∀ n, c = .mapMember lhs rel n → info.kind = .map n) →
    Scoped scope mode c
  | rows {lhs : List Var} {rel : String} {sig : Signature} :
    scope.relation? rel = none → scope.query? rel = some sig → sig.mode ≠ .dem →
    (sig.mode = .batch → mode = .batch) → (sig.params ≤ sig.arity → lhs.length = sig.arity) →
    (sig.mode = .batch → sig.enumerable = true) → Scoped scope mode (.member lhs rel)
  | applied {params lhs : List Var} {rel : String} {sig : Signature} :
    scope.relation? rel = none → scope.query? rel = some sig → sig.mode ≠ .inc →
    (sig.mode = .batch → mode = .batch) → params.length = sig.params →
    (sig.params ≤ sig.arity → (params ++ lhs).length = sig.arity) →
    Scoped scope mode (.demand (.member (params ++ lhs) rel) rel params)
  | singleton {lhs : List Var} {expr : Expr} : Scoped scope mode (.singleton lhs expr)
  | cond {expr : Expr} : Scoped scope mode (.cond expr)

theorem Mode.eq_inc {mode : Mode} (hdem : mode ≠ .dem) (hbatch : mode ≠ .batch) : mode = .inc := by
  cases mode with
  | inc => rfl
  | dem => exact absurd rfl hdem
  | batch => exact absurd rfl hbatch

theorem Clause.Scoped.plain {scope : Scope} {mode : Mode} {c : Clause} (h : c.Scoped scope mode) :
    c.Plain := by
  cases h with
  | relation _ hc =>
    rcases hc with rfl | ⟨n, rfl⟩ <;> trivial
  | _ => trivial

namespace Lowering

variable {c : Context}

theorem check_eq_ok {α : Type} {r : Except Malformed α} {a : α} (h : c.check r = .ok a) :
    r = .ok a := by
  unfold Context.check at h
  split at h
  · cases h
    rfl
  · cases h

theorem checkArity_eq_ok {name : String} {expected found : Nat}
    (h : c.checkArity name expected found = .ok ()) : found = expected := by
  unfold Context.checkArity at h
  split at h
  · assumption
  · cases h

theorem named_spec {name : String} {lhs : List Var} {cl : Clause} (h : named c name lhs = .ok cl) :
    cl.Scoped c.scope c.mode ∧ cl.mentions = lhs := by
  unfold named at h
  split at h
  · rename_i info hinfo
    obtain ⟨_, harity, h⟩ := bind_eq_ok.mp h
    have hlen := checkArity_eq_ok harity
    split at h
    · cases h
      exact ⟨.relation hinfo (.inl rfl) hlen (by simp), rfl⟩
    · rename_i hkind
      cases h
      refine ⟨.relation hinfo (.inr ⟨_, rfl⟩) hlen ?_, rfl⟩
      rintro n ⟨⟩
      exact hkind
  · rename_i hnone
    split at h
    · cases h
    · rename_i sig hsig
      split at h
      · cases h
      · rename_i hdem
        split at h
        · cases h
        · rename_i hbatch
          split at h
          · cases h
          · rename_i henum
            obtain ⟨_, harity, h⟩ := bind_eq_ok.mp h
            cases h
            exact ⟨.rows hnone hsig hdem (by simpa using hbatch) (fun _ => checkArity_eq_ok harity)
              (by simpa using henum), rfl⟩

theorem applied_spec {name : String} {args : List Term} {lhs : List Var} {cl : Clause}
    (h : applied c name args lhs = .ok cl) :
    cl.Scoped c.scope c.mode ∧
      ((∀ t ∈ args, t.WellNamed) → Var.delta ∉ lhs → Var.delta ∉ cl.mentions) := by
  unfold applied at h
  split at h
  · cases h
  · rename_i hnone
    have hnone : c.scope.relation? name = none := by simpa using hnone
    split at h
    · cases h
    · rename_i sig hsig
      obtain ⟨params, hparams, h⟩ := bind_eq_ok.mp h
      obtain ⟨_, hcount, h⟩ := bind_eq_ok.mp h
      obtain ⟨_, harity, h⟩ := bind_eq_ok.mp h
      have hlen : params.length = sig.params := checkArity_eq_ok hcount
      have hrow : sig.params ≤ sig.arity → (params ++ lhs).length = sig.arity := by
        have hrest := checkArity_eq_ok harity
        rw [List.length_append]
        omega
      have hmentions : (∀ t ∈ args, t.WellNamed) → Var.delta ∉ lhs → Var.delta ∉ params ++ lhs := by
        intro named hlhs
        simp [Term.arguments_delta_notMem named (check_eq_ok hparams), hlhs]
      dsimp only at h
      split at h
      · rename_i hmode
        cases h
        exact ⟨.applied hnone hsig (by simp [hmode]) (by simp [hmode]) hlen hrow, hmentions⟩
      · rename_i hmode
        cases h
        exact ⟨.rows hnone hsig (by simp [hmode]) (by simp [hmode]) hrow (by simp [hmode]), hmentions⟩
      · rename_i hmode
        split at h
        · rename_i hbatch
          cases h
          exact ⟨.applied hnone hsig (by simp [hmode]) (fun _ => hbatch) hlen hrow, hmentions⟩
        · cases h

theorem clause_spec {n m : Nat} {t : ClauseTerm} {cl : Clause} (h : clause c n t = .ok (cl, m)) :
    cl.Scoped c.scope c.mode ∧ (t.WellNamed → Var.delta ∉ cl.mentions) := by
  unfold clause at h
  split at h
  · rename_i t
    obtain ⟨e, he, h⟩ := bind_eq_ok.mp h
    cases h
    exact ⟨.cond, fun named => Term.WellNamed.delta_notMem named (check_eq_ok he)⟩
  · rename_i p range
    obtain ⟨⟨lhs, k⟩, hp, h⟩ := bind_eq_ok.mp h
    have hlhs : p.WellNamed → Var.delta ∉ lhs := fun named =>
      Term.pattern_delta_notMem named (check_eq_ok hp)
    dsimp only at h
    split at h
    · obtain ⟨e, he, h⟩ := bind_eq_ok.mp h
      cases h
      refine ⟨.singleton, fun named => ?_⟩
      have hdelta := Term.WellNamed.delta_notMem named.2 (check_eq_ok he)
      have hexpr : Var.delta ∉ (if p.isTuple = true then e else .tuple [e]).mentions := by
        split
        · exact hdelta
        · simpa [Expr.mentions, Expr.mentionsAll] using hdelta
      simp only [Clause.mentions, List.mem_append, not_or]
      exact ⟨hlhs named.1, hexpr⟩
    · obtain ⟨d, hd, h⟩ := bind_eq_ok.mp h
      cases h
      obtain ⟨hs, hm⟩ := named_spec hd
      exact ⟨hs, fun named => by rw [hm]; exact hlhs named.1⟩
    · obtain ⟨d, hd, h⟩ := bind_eq_ok.mp h
      cases h
      obtain ⟨hs, hdelta⟩ := applied_spec hd
      exact ⟨hs, fun named => hdelta (named.2 _ rfl) (hlhs named.1)⟩

theorem clauses_spec {n : Nat} {ts : List (Spanned ClauseTerm)} {cls : List Clause}
    (h : clauses c n ts = .ok cls) :
    ∀ cl ∈ cls, cl.Scoped c.scope c.mode ∧
      ((∀ t ∈ ts, t.node.WellNamed) → Var.delta ∉ cl.mentions) := by
  induction ts generalizing n cls with
  | nil =>
    cases h
    simp
  | cons t ts ih =>
    obtain ⟨⟨cl, m⟩, hcl, h⟩ := bind_eq_ok.mp h
    obtain ⟨rest, hrest, h⟩ := bind_eq_ok.mp h
    cases h
    simp only [List.forall_mem_cons]
    exact ⟨(clause_spec hcl).imp_right fun hd named => hd named.1,
      fun d hd => (ih hrest d hd).imp_right fun hd named => hd named.2⟩

theorem query_scoped {decl : QueryDecl} {mode : Mode} {scope : Scope} {spec : Comprehension}
    (h : Lowering.query decl mode scope = .ok spec) : ∀ c ∈ spec.join, c.Scoped scope mode := by
  unfold Lowering.query at h
  dsimp only at h
  split at h
  · cases h
  · obtain ⟨_, _, h⟩ := bind_eq_ok.mp h
    obtain ⟨join, hjoin, h⟩ := bind_eq_ok.mp h
    cases h
    exact fun c hc => (clauses_spec hjoin c hc).1

theorem nodup_of_firstRepeated {seen names : List String} (h : firstRepeated seen names = none) :
    names.Nodup ∧ ∀ n ∈ names, n ∉ seen := by
  induction names generalizing seen with
  | nil => simp
  | cons p ps ih =>
    unfold firstRepeated at h
    split at h
    · cases h
    · rename_i hp
      obtain ⟨hn, hs⟩ := ih h
      simp only [List.contains_eq_mem, decide_eq_true_eq] at hp
      refine ⟨List.nodup_cons.mpr ⟨fun hm => hs p hm List.mem_cons_self, hn⟩, ?_⟩
      exact List.forall_mem_cons.mpr ⟨hp, fun n hn hm => hs n hn (List.mem_cons_of_mem p hm)⟩

structure Lowered (decl : QueryDecl) (mode : Mode) (scope : Scope)
    (spec : Comprehension) : Prop where
  params : spec.params = decl.params.map (⟨·⟩)
  nodup : spec.params.Nodup
  proper : spec.Proper
  params_delta : Var.delta ∉ spec.params
  inScope : ∀ c ∈ spec.join, c.Scoped scope mode

theorem query_lowered {decl : QueryDecl} (named : decl.WellNamed) {mode : Mode} {scope : Scope}
    {spec : Comprehension} (h : Lowering.query decl mode scope = .ok spec) :
    Lowered decl mode scope spec := by
  have hscoped := query_scoped h
  unfold Lowering.query at h
  dsimp only at h
  split at h
  · cases h
  · rename_i hparams
    obtain ⟨result, hresult, h⟩ := bind_eq_ok.mp h
    obtain ⟨join, hjoin, h⟩ := bind_eq_ok.mp h
    cases h
    have hdelta : Var.delta ∉ decl.params.map (fun p => (⟨p⟩ : Var)) := by
      intro hm
      obtain ⟨p, hp, he⟩ := List.mem_map.mp hm
      exact Var.ne_delta_of_identifier (named.params p hp) he
    refine ⟨rfl, ?_, ⟨fun d hd => (hscoped d hd).plain,
      fun d hd => (clauses_spec hjoin d hd).2 named.clauses, ?_⟩, hdelta, hscoped⟩
    · refine (nodup_of_firstRepeated hparams).1.map ?_
      intro a b hab
      exact congrArg Var.name hab
    · have hres := named.result.delta_notMem (check_eq_ok hresult)
      have hcomp : Var.delta ∉ Expr.mentionsAll result.components := by
        rwa [Expr.mentionsAll_components]
      simp only [Comprehension.output, Expr.mentions, Expr.mentionsAll_append,
        Expr.mentionsAll_vars, List.mem_append, not_or]
      exact ⟨hdelta, hcomp⟩

end Lowering

end ViewUpkeep
