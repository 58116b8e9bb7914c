import Mathlib.Data.Set.Finite.Lattice
import ViewUpkeep.Proofs.Coverage
import ViewUpkeep.Proofs.Orderable

/-!
Joins with finitely many rows. A clause may range over infinitely many rows, as one that computes
its row from other variables does, and a clause over a demanded query that has rows for all
arguments. What a planner checks is enough to rule that out: once the variables that a clause waits
for are known, it leaves finitely many rows, and so a join whose clauses can be ordered has finitely
many outputs. So have the supports of a join, from its first clause to its last.
-/
namespace ViewUpkeep

def Env.Same (vs : List Var) (env other : Env) : Prop := ∀ v ∈ vs, env.get? v = other.get? v

namespace Clause

def Finitary (facts : Facts) (bound : List Var) (c : Clause) : Prop :=
  ∀ env : Env, {row | ∃ other : Env,
    env.Same bound other ∧ other.Reads c.lhs row ∧ c.Holds facts other}.Finite

variable {facts : Facts} {bound bound' : List Var} {c : Clause} {rel : String}

theorem Finitary.mono (h : c.Finitary facts bound) (hsub : bound ⊆ bound') :
    c.Finitary facts bound' :=
  fun env => (h env).subset fun _ ⟨other, hsame, hrest⟩ =>
    ⟨other, fun v hv => hsame v (hsub hv), hrest⟩

theorem Plain.finitary_of_finite (plain : c.Plain) (hrel : c.rel? = some rel)
    (finite : {row | facts rel row}.Finite) : c.Finitary facts bound := by
  refine fun env => finite.subset ?_
  rintro row ⟨other, _, hreads, hholds⟩
  obtain ⟨found, hfound, hfact⟩ := (plain.holds_iff hrel facts other).mp hholds
  exact hreads.unique hfound ▸ hfact

theorem finitary_of_sections {params lhs : List Var} (hparams : params ⊆ bound)
    (finite : ∀ args : Row, args.length = params.length →
      {rest | facts rel (args ++ rest)}.Finite) :
    (member (params ++ lhs) rel).Finitary facts bound := by
  intro env
  by_cases hread : ∃ args, env.Reads params args
  · obtain ⟨args, hargs⟩ := hread
    refine ((finite args hargs.length).image (args ++ ·)).subset ?_
    rintro row ⟨other, hsame, hreads, found, hfound, hfact⟩
    obtain ⟨a, b, rfl, ha, _⟩ := hfound.exists_append
    have hother := (Env.Reads.congr (fun v hv => hsame v (hparams hv)) args).mp hargs
    rw [ha.unique hother] at hfound hfact
    exact ⟨b, hfact, hfound.unique hreads⟩
  · refine Set.finite_empty.subset ?_
    rintro row ⟨other, hsame, hreads, _⟩
    obtain ⟨a, b, _, ha, _⟩ := Env.Reads.exists_append hreads
    exact hread ⟨a, (Env.Reads.congr (fun v hv => hsame v (hparams hv)) a).mpr ha⟩

theorem finitary_singleton {lhs : List Var} {expr : Expr} (hvars : expr.vars ⊆ bound) :
    (singleton lhs expr).Finitary facts bound := by
  intro env
  refine Set.Subsingleton.finite ?_
  rintro row ⟨other, hsame, hreads, found, hfound, heval⟩ row' ⟨other', hsame', hreads', found',
    hfound', heval'⟩
  have hvars : ∀ v ∈ expr.mentions, other.get? v = other'.get? v := by
    intro v hv
    have hv := hvars ((expr.mem_vars v).mpr hv)
    exact (hsame v hv).symm.trans (hsame' v hv)
  rw [Expr.eval_congr expr hvars, heval'] at heval
  cases heval
  exact (hreads.unique hfound).trans (hfound'.unique hreads')

theorem finitary_cond {expr : Expr} : (cond expr).Finitary facts bound := by
  intro env
  refine (Set.finite_singleton []).subset ?_
  rintro row ⟨other, _, hreads, _⟩
  exact (Env.reads_nil ..).mp hreads

/-- A clause that leaves finitely many rows whenever a planner would let it run. -/
def Tame (facts : Facts) (c : Clause) : Prop :=
  ∀ bound, c.rate bound ≠ .unrunnable → c.Finitary facts bound

theorem Plain.tame_of_finite (plain : c.Plain) (hrel : c.rel? = some rel)
    (finite : {row | facts rel row}.Finite) : c.Tame facts :=
  fun _ _ => plain.finitary_of_finite hrel finite

theorem tame_demand {params lhs : List Var} {query : String}
    (finite : ∀ args : Row, args.length = params.length →
      {rest | facts rel (args ++ rest)}.Finite) :
    (demand (.member (params ++ lhs) rel) query params).Tame facts :=
  fun _ hrate => finitary_of_sections (rate_demand.mp hrate) finite

theorem tame_singleton {lhs : List Var} {expr : Expr} : (singleton lhs expr).Tame facts :=
  fun _ hrate => finitary_singleton (bound_of_rate hrate)

theorem tame_cond {expr : Expr} : (cond expr).Tame facts := fun _ _ => finitary_cond

end Clause

namespace Join

def Finitary (facts : Facts) : List Var → Join → Prop
  | _, [] => True
  | bound, c :: rest => c.Finitary facts bound ∧ Finitary facts (bound ++ c.enumVars) rest

variable {facts : Facts} {bound bound' : List Var} {j k : Join}

theorem Finitary.mono (h : j.Finitary facts bound) (hsub : bound ⊆ bound') :
    j.Finitary facts bound' := by
  induction j generalizing bound bound' with
  | nil => trivial
  | cons c rest ih =>
    refine ⟨h.1.mono hsub, ih h.2 fun v hv => ?_⟩
    exact List.mem_append.mpr ((List.mem_append.mp hv).imp_left fun hv => hsub hv)

theorem finitary_append : Finitary facts bound (j ++ k) ↔
    j.Finitary facts bound ∧ k.Finitary facts (bound ++ j.flatMap (·.enumVars)) := by
  induction j generalizing bound with
  | nil => simp [Finitary]
  | cons c rest ih =>
    rw [List.cons_append, Finitary, Finitary, ih, List.flatMap_cons, List.append_assoc, and_assoc]

theorem Finitary.finite (h : j.Finitary facts bound) (plain : ∀ c ∈ j, c.Plain) {output : Expr}
    (hout : ∀ v ∈ output.mentions, v ∈ bound ∨ ∃ c ∈ j, v ∈ c.lhs) (env : Env) :
    {row | ∃ other : Env, env.Same bound other ∧ j.Holds facts other ∧
      output.evalRow other = .ok row}.Finite := by
  induction j generalizing bound env with
  | nil =>
    refine Set.Subsingleton.finite ?_
    rintro row ⟨other, hsame, _, hrow⟩ row' ⟨other', hsame', _, hrow'⟩
    have hget : ∀ v ∈ output.mentions, other.get? v = other'.get? v := by
      intro v hv
      have hv : v ∈ bound := by simpa using hout v hv
      exact (hsame v hv).symm.trans (hsame' v hv)
    rw [Expr.evalRow_congr output hget, hrow'] at hrow
    exact (Except.ok.inj hrow).symm
  | cons c rest ih =>
    obtain ⟨hc, hrest⟩ := h
    obtain ⟨hplain, plain⟩ := List.forall_mem_cons.mp plain
    have hout' : ∀ v ∈ output.mentions, v ∈ bound ++ c.enumVars ∨ ∃ d ∈ rest, v ∈ d.lhs := by
      intro v hv
      rcases hout v hv with hb | ⟨d, hd, hvd⟩
      · exact .inl (List.mem_append_left _ hb)
      · rcases List.mem_cons.mp hd with rfl | hd
        · exact .inl (List.mem_append_right _ (List.mem_eraseDups.mpr hvd))
        · exact .inr ⟨d, hd, hvd⟩
    -- for each row of the clause, one environment stands for all that read it
    refine Set.Finite.subset (Set.Finite.biUnion' (hc env) fun row hrow =>
      ih hrest plain hout' hrow.choose) ?_
    rintro out ⟨other, hsame, hholds, hrow⟩
    obtain ⟨hcholds, hholds⟩ := List.forall_mem_cons.mp hholds
    obtain ⟨found, hfound⟩ := Env.Binds.exists_reads (hplain.binds_lhs hcholds)
    have hmem : found ∈ {row | ∃ other : Env, env.Same bound other ∧ other.Reads c.lhs row ∧
        c.Holds facts other} := ⟨other, hsame, hfound, hcholds⟩
    refine Set.mem_iUnion₂.mpr ⟨found, hmem, other, ?_, hholds, hrow⟩
    obtain ⟨hchosen, hreads, _⟩ := hmem.choose_spec
    intro v hv
    rcases List.mem_append.mp hv with hv | hv
    · exact (hchosen v hv).symm.trans (hsame v hv)
    · exact hreads.get?_eq hfound (List.mem_eraseDups.mp hv)

end Join

namespace Plan

variable {facts : Facts}

theorem extend_finitary (estimate : Estimator) (n : Nat) (bound : List Var)
    {remaining : List (Clause × Nat)} (tame : ∀ p ∈ remaining, p.1.Tame facts) :
    Join.Finitary facts bound ((extend estimate n bound remaining).steps.map (·.clause)) := by
  induction n generalizing bound remaining with
  | zero => trivial
  | succ n ih =>
    unfold extend
    cases hp : pick estimate bound remaining with
    | none => trivial
    | some c =>
      obtain ⟨hmem, hrate⟩ := pick_mem hp
      exact ⟨tame _ hmem bound hrate, ih _ fun p hp => tame p (List.mem_of_mem_eraseP hp)⟩

/-- A join with a complete plan has finitely many outputs when the variables known from the start
have given values. -/
theorem complete_finitary {j : Join} {bound : List Var} {estimate : Estimator} {steps : List Step}
    (h : (ofJoin j bound estimate).complete = .ok steps) (tame : ∀ c ∈ j, c.Tame facts) :
    Join.Finitary facts bound (steps.map (·.clause)) := by
  obtain ⟨_, rfl⟩ := complete_eq_ok.mp h
  refine extend_finitary estimate j.length bound fun p hp => tame p.1 ?_
  exact List.mem_of_getElem? (List.mem_zipIdx_iff_getElem?.mp hp)

end Plan

theorem Comprehension.finite_yields {c : Comprehension} {facts : Facts}
    (h : c.join.Finitary facts []) (plain : ∀ d ∈ c.join, d.Plain)
    (hout : ∀ v ∈ c.output.mentions, ∃ d ∈ c.join, v ∈ d.lhs) :
    {row | c.Yields facts row}.Finite := by
  refine (h.finite plain (fun v hv => .inr (hout v hv)) []).subset ?_
  rintro row ⟨env, hholds, hrow⟩
  exact ⟨env, List.forall_mem_nil _, hholds, hrow⟩

namespace Demand

variable {query : String} {filters : Bool} {facts : Facts} {tagged : List Var} {i : Nat}
  {c : Clause} {guard : Option Support}

def FiniteTags (query : String) (facts : Facts) (tagged : List Var) : Prop :=
  ∀ v ∈ tagged, {row | facts (tagName query v) row}.Finite

theorem FiniteTags.tagClauses (htags : FiniteTags query facts tagged) {vs : List Var}
    (hvs : ∀ v ∈ vs, v ∈ tagged) (bound : List Var) :
    Join.Finitary facts bound (tagClauses query vs) := by
  induction vs generalizing bound with
  | nil => trivial
  | cons v vs ih =>
    obtain ⟨hv, hvs⟩ := List.forall_mem_cons.mp hvs
    have plain : (Clause.member [v] (tagName query v)).Plain := trivial
    exact ⟨plain.finitary_of_finite rfl (htags v hv), ih hvs _⟩

theorem tagClauses_enumVars {vs : List Var} {v : Var} (hv : v ∈ vs) :
    v ∈ (tagClauses query vs).flatMap (·.enumVars) :=
  List.mem_flatMap.mpr
    ⟨_, List.mem_map_of_mem hv, List.mem_eraseDups.mpr (List.mem_singleton_self v)⟩

theorem guard_finitary (htags : FiniteTags query facts tagged) (tame : c.Tame facts)
    (hguard : guardOf query filters tagged i c = .ok guard) {s : Support} (hs : s ∈ guard) :
    s.spec.join.Finitary facts [] := by
  cases guardOf_guards hguard s hs with
  | entry hparams => exact htags.tagClauses (fun v hv => hparams v (List.mem_eraseDups.mp hv)) []
  | filter _ _ hrel =>
    refine Join.finitary_append.mpr ⟨htags.tagClauses (fun v hv => ?_) [], ?_, trivial⟩
    · simpa using (List.mem_filter.mp hv).2
    · exact tame _ (Clause.rate_ne_of_member hrel _)

theorem tagSource_finitary (htags : FiniteTags query facts tagged) (plain : c.Plain)
    (tame : c.Tame facts) (hguard : guardOf query filters tagged i c = .ok guard)
    (hstored : ∀ s ∈ guard, s.isFilter = true → {row | facts s.target row}.Finite) {v : Var}
    (hv : v ∈ c.tagsOut) : (tagSource c guard).Finitary facts [] := by
  have hrelation : ∀ rel, (c = .member c.lhs rel ∨ ∃ n, c = .mapMember c.lhs rel n) →
      (tagSource c guard).Finitary facts [] := by
    intro rel hrel
    cases guard with
    | none =>
      have hsource : tagSource c none = [c] := by
        rcases hrel with h | ⟨n, h⟩ <;> rw [h] <;> rfl
      rw [hsource]
      exact ⟨tame [] (Clause.rate_ne_of_member hrel []), trivial⟩
    | some g =>
      have hsource : tagSource c (some g) = [c.onRelation g.target] := by
        rcases hrel with h | ⟨n, h⟩ <;> rw [h] <;> rfl
      have hfilter : g.isFilter = true := by
        cases guardOf_guards hguard g rfl with
        | entry => simp at hrel
        | filter => rfl
      have hplain : (c.onRelation g.target).Plain := trivial
      rw [hsource]
      exact ⟨hplain.finitary_of_finite rfl (hstored g rfl hfilter), trivial⟩
  cases c with
  | member lhs rel => exact hrelation rel (.inl rfl)
  | mapMember lhs rel n => exact hrelation rel (.inr ⟨n, rfl⟩)
  | demand inner subquery params =>
    obtain ⟨hparams, rfl⟩ := guardOf_demand hguard
    cases inner with
    | member lhs rel =>
      refine Join.finitary_append.mpr ⟨guard_finitary htags tame hguard rfl, ?_, trivial⟩
      refine tame _ (Clause.rate_demand.mpr fun p hp => ?_)
      exact tagClauses_enumVars (List.mem_eraseDups.mpr hp)
    | _ => cases plain
  | singleton | cond => cases hv
  | _ => cases plain

/-- From the first clause to the last, supports yield finitely many rows: a clause that leaves
finitely many rows for known arguments gets them from tags with finitely many values. -/
theorem supportsFrom_finite {j : Join} (plain : ∀ c ∈ j, c.Plain) (tame : ∀ c ∈ j, c.Tame facts)
    {later : List Support} (h : supportsFrom query filters i tagged j = .ok later)
    (hplain : ∀ s ∈ later, ∀ d ∈ s.spec.join, d.Plain)
    (hout : ∀ s ∈ later, ∀ v ∈ s.spec.output.mentions, ∃ d ∈ s.spec.join, v ∈ d.lhs)
    (hstored : ∀ s ∈ later, s.isEntry = false → {row | s.spec.Yields facts row}.Finite →
      {row | facts s.target row}.Finite)
    (htags : FiniteTags query facts tagged) :
    ∀ s ∈ later, {row | s.spec.Yields facts row}.Finite := by
  induction j generalizing i tagged later with
  | nil =>
    cases h
    simp
  | cons c rest ih =>
    obtain ⟨guard, after, hguard, hafter, rfl⟩ := supportsFrom_cons h
    obtain ⟨hc, plain⟩ := List.forall_mem_cons.mp plain
    obtain ⟨hctame, tame⟩ := List.forall_mem_cons.mp tame
    have hleft : ∀ {s}, s ∈ guard → s ∈ guard.toList ++
        (newTags tagged c).map (tagOf query i (tagSource c guard)) ++ after :=
      fun hs => List.mem_append_left _ (List.mem_append_left _ (Option.mem_toList.mpr hs))
    have hmiddle : ∀ {v}, v ∈ newTags tagged c → tagOf query i (tagSource c guard) v ∈
        guard.toList ++ (newTags tagged c).map (tagOf query i (tagSource c guard)) ++ after :=
      fun hv => List.mem_append_left _ (List.mem_append_right _ (List.mem_map_of_mem hv))
    have hguarded : ∀ s ∈ guard, {row | s.spec.Yields facts row}.Finite := fun s hs =>
      Comprehension.finite_yields (guard_finitary htags hctame hguard hs) (hplain s (hleft hs))
        (hout s (hleft hs))
    have hsource : ∀ v ∈ newTags tagged c, (tagSource c guard).Finitary facts [] := by
      intro v hv
      exact tagSource_finitary htags hc hctame hguard
        (fun s hs hfilter => hstored s (hleft hs) (s.isEntry_of_isFilter hfilter) (hguarded s hs))
        (mem_newTags.mp hv).1
    have htag : ∀ v ∈ newTags tagged c,
        {row | (tagOf query i (tagSource c guard) v).spec.Yields facts row}.Finite := fun v hv =>
      Comprehension.finite_yields (hsource v hv) (hplain _ (hmiddle hv)) (hout _ (hmiddle hv))
    have htags' : FiniteTags query facts (tagged ++ newTags tagged c) := by
      intro v hv
      rcases List.mem_append.mp hv with hv | hv
      · exact htags v hv
      · exact hstored _ (hmiddle hv) rfl (htag v hv)
    have hrest := ih plain tame hafter (fun s hs => hplain s (List.mem_append_right _ hs))
      (fun s hs => hout s (List.mem_append_right _ hs))
      (fun s hs => hstored s (List.mem_append_right _ hs)) htags'
    intro s hs
    rcases List.mem_append.mp hs with hs | hs
    · rcases List.mem_append.mp hs with hs | hs
      · exact hguarded s (Option.mem_toList.mp hs)
      · obtain ⟨v, hv, rfl⟩ := List.mem_map.mp hs
        exact htag v hv
    · exact hrest s hs

end Demand

end ViewUpkeep
