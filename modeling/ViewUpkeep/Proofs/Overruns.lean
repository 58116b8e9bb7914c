import ViewUpkeep.Overrun
import ViewUpkeep.Proofs.Fitting

/-!
No overruns. What is looked at in planning is what the steps of a plan are picked from, so that the
breaches of planning are those of the planner. Clauses that fit meet none, in planning, in handlers
and in demand plans; and the clauses of a query as written fit.
-/
namespace ViewUpkeep

namespace Clause

variable {c : Clause}

theorem printBreach?_eq_none (h : c.Fits) : c.printBreach? = none := by
  induction c with
  | without inner _ ih | withExtra inner _ ih => exact ih h
  | demand inner _ params _ => simp [printBreach?, h.1]
  | _ => rfl

theorem rateBreach?_eq_none (h : c.Fits) (bound : List Var) : c.rateBreach? bound = none := by
  induction c with
  | mapMember lhs _ keyArity => exact if_pos h
  | without inner _ ih | withExtra inner _ ih => exact ih h
  | demand inner _ params ih => simp [rateBreach?, ih h.2]
  | _ => rfl

end Clause

def Join.Fits (j : Join) : Prop := ∀ c ∈ j, c.Fits

namespace Join

variable {j : Join}

theorem Fits.printBreach?_eq_none (h : j.Fits) : j.printBreach? = none :=
  List.findSome?_eq_none_iff.mpr fun c hc => Clause.printBreach?_eq_none (h c hc)

theorem Fits.append {k : Join} (h : j.Fits) (hk : k.Fits) : (j ++ k).Fits :=
  List.forall_mem_append.mpr ⟨h, hk⟩

theorem Fits.deltas (h : j.Fits) {rel : String} {value : Expr} {strategy : SelfJoin}
    {k : Nat × Join} (hk : k ∈ j.deltas rel value strategy) : k.2.Fits := by
  obtain ⟨i, _, rfl⟩ := List.mem_map.mp hk
  intro c hc
  obtain ⟨p, hp, rfl⟩ := List.mem_map.mp hc
  have hfits := h p.1 (List.fst_mem_of_mem_zipIdx hp)
  split
  · trivial
  · split
    · cases strategy <;> exact hfits
    · exact hfits

end Join

namespace Plan

variable {estimate : Estimator} {bound : List Var} {remaining : List (Clause × Nat)}

def stepAt (estimate : Estimator) (look : List Var × List (Clause × Nat)) : Option Step :=
  (pick estimate look.1 look.2).map fun c => ⟨c.index, c.clause, look.1⟩

/-- The steps of a plan are those that its looks lead to. -/
theorem extend_looks {n : Nat} (enough : remaining.length ≤ n) :
    (extend estimate n bound remaining).steps =
      (looks bound remaining (extend estimate n bound remaining).steps).filterMap
        (stepAt estimate) := by
  induction n generalizing bound remaining with
  | zero =>
    obtain rfl : remaining = [] := by simpa using enough
    rfl
  | succ n ih =>
    unfold extend
    split
    · rename_i hpick
      simp [looks, stepAt, hpick]
    · rename_i c hpick
      have hshorter : (remaining.eraseP fun p => p.2 = c.index).length ≤ n := by
        rw [List.length_eraseP_of_mem (pick_mem hpick).1 (by simp)]
        omega
      have hstep : stepAt estimate (bound, remaining) = some ⟨c.index, c.clause, bound⟩ := by
        simp [stepAt, hpick]
      rw [looks, List.filterMap_cons_some hstep]
      exact congrArg _ (ih hshorter)

theorem ofJoin_looks (j : Join) : (ofJoin j bound estimate).steps =
    (looks bound j.zipIdx (ofJoin j bound estimate).steps).filterMap (stepAt estimate) :=
  extend_looks (Nat.le_of_eq List.length_zipIdx)

theorem looks_subset {steps : List Step} {look : List Var × List (Clause × Nat)}
    (h : look ∈ looks bound remaining steps) : look.2 ⊆ remaining := by
  induction steps generalizing bound remaining with
  | nil =>
    cases List.mem_singleton.mp h
    exact List.Subset.refl _
  | cons s rest ih =>
    rcases List.mem_cons.mp h with rfl | h
    · exact List.Subset.refl _
    · exact fun p hp => List.mem_of_mem_eraseP (ih h hp)

theorem breach?_eq_none {j : Join} (h : j.Fits) : breach? j bound estimate = none := by
  refine List.findSome?_eq_none_iff.mpr fun look hlook => List.findSome?_eq_none_iff.mpr ?_
  intro p hp
  exact Clause.rateBreach?_eq_none (h p.1 (List.fst_mem_of_mem_zipIdx (looks_subset hlook hp))) _

theorem stuck_subset (j : Join) : (ofJoin j bound estimate).stuck ⊆ j := by
  obtain ⟨left, hstuck, hsub, _⟩ := extend_split estimate j.length bound (nodup_places j)
  intro c hc
  rw [ofJoin, hstuck] at hc
  obtain ⟨p, hp, rfl⟩ := List.mem_map.mp hc
  exact List.fst_mem_of_mem_zipIdx (hsub.subset hp)

end Plan

namespace Handler

theorem planBreach?_eq_none {estimate : Estimator} {js : List (Nat × Join)}
    (h : ∀ j ∈ js, j.2.Fits) : planBreach? estimate js = none := by
  induction js with
  | nil => rfl
  | cons j js ih =>
    rw [List.forall_mem_cons] at h
    have hstuck : Join.printBreach? (Plan.ofJoin j.2 [Var.delta] estimate).stuck = none :=
      Join.Fits.printBreach?_eq_none fun c hc => h.1 c (Plan.stuck_subset j.2 hc)
    rw [planBreach?, Plan.breach?_eq_none h.1]
    cases hcomplete : (Plan.ofJoin j.2 [Var.delta] estimate).complete with
    | ok steps => exact ih h.2
    | error stuck =>
      obtain ⟨_, rfl⟩ := Plan.complete_eq_error.mp hcomplete
      exact hstuck

theorem planBreach?_deltas {j : Join} (h : j.Fits) (strategy : SelfJoin) (estimate : Estimator) :
    planBreach? estimate (j.rels.flatMap fun rel => j.deltas rel (.var Var.delta) strategy) =
      none := by
  refine planBreach?_eq_none fun k hk => ?_
  obtain ⟨rel, _, hk⟩ := List.mem_flatMap.mp hk
  exact h.deltas hk

end Handler

namespace Demand

variable {query : String} {filters : Bool} {c : Clause} {guard : Option Support}

theorem fits_tagClauses (query : String) (vs : List Var) : Join.Fits (tagClauses query vs) := by
  intro c hc
  obtain ⟨v, _, rfl⟩ := List.mem_map.mp hc
  trivial

theorem fits_guardOf {tagged : List Var} {i : Nat} (fits : c.Fits)
    (h : guardOf query filters tagged i c = .ok guard) : ∀ g ∈ guard, g.spec.join.Fits := by
  intro g hg
  cases guardOf_guards h g hg with
  | entry => exact fits_tagClauses query _
  | filter => exact (fits_tagClauses query _).append (List.forall_mem_singleton.mpr fits)

theorem fits_tagSource (fits : c.Fits) (h : ∀ g ∈ guard, g.spec.join.Fits) :
    (tagSource c guard).Fits := by
  unfold tagSource
  split
  · exact (h _ rfl).append (List.forall_mem_singleton.mpr fits.2)
  · exact List.forall_mem_singleton.mpr trivial
  · exact List.forall_mem_singleton.mpr fits.2
  · exact List.forall_mem_singleton.mpr fits

theorem fits_candidates {j : Join} (fits : j.Fits) {cs : List Support}
    (h : candidates query j filters = .ok cs) : ∀ s ∈ cs, s.spec.join.Fits := by
  intro s hs
  obtain ⟨pre, c, post, guard, rfl, hguard, hmade⟩ := mem_supportsFrom h hs
  have hc : c.Fits := fits c (by simp)
  have hguards := fits_guardOf hc hguard
  rcases hmade with hs | ⟨v, _, rfl⟩
  · exact hguards s hs
  · exact fits_tagSource hc hguards

theorem fits_apply {j : Join} (fits : j.Fits) (supports : List Support) (selected : List Nat) :
    (apply j supports selected).Fits := by
  intro c hc
  obtain ⟨p, hp, rfl⟩ := List.mem_map.mp hc
  split
  · trivial
  · exact fits p.1 (List.fst_mem_of_mem_zipIdx hp)

theorem fits_ofJoin {j : Join} (fits : j.Fits) {estimate : Estimator} {plan : DemandPlan}
    (h : DemandPlan.ofJoin query j filters estimate = .ok plan) :
    plan.join.Fits ∧ ∀ s ∈ plan.supports, s.spec.join.Fits := by
  obtain ⟨cs, hcs, h⟩ := bind_eq_ok.mp h
  obtain ⟨selected, _, h⟩ := bind_eq_ok.mp h
  cases h
  exact ⟨fits_apply fits _ _, fun s hs =>
    fits_candidates fits hcs s ((prune_pruned cs selected).sublist.subset hs)⟩

theorem breach?_eq_none {j : Join} (fits : j.Fits) (query : String) (filters : Bool)
    (estimate : Estimator) : breach? query j filters estimate = none := by
  unfold breach?
  split
  · rfl
  · rename_i cs hcs
    have hcandidates : candidateBreach? cs = none := List.findSome?_eq_none_iff.mpr
      fun s hs => (fits_candidates fits hcs s hs).printBreach?_eq_none
    rw [hcandidates, Handler.planBreach?_deltas fits]
    split
    · rfl
    · rename_i plan hplan
      exact (fits_ofJoin fits hplan).1.printBreach?_eq_none

end Demand

theorem Clause.Scoped.fits {scope : Scope} {mode : Mode} {c : Clause} (h : c.Scoped scope mode)
    (declared : ∀ info ∈ scope.relations, info.Declared) : c.Fits := by
  cases h with
  | relation hinfo hc hlen hkind =>
    rcases hc with rfl | ⟨n, rfl⟩
    · trivial
    · have hkey := (declared _ (List.mem_of_find?_eq_some hinfo)).key n (hkind n rfl)
      show n ≤ _
      omega
  | rows | singleton | cond => trivial
  | applied => exact ⟨by simp [Clause.lhs], trivial⟩

/-- The compilation of a query meets no overrun: not when its join is planned, nor its demand, nor
the handlers of what is kept for it. -/
theorem Compile.Built.no_overrun {o : Options} {d : Declarations} {p : Program} {q : CompiledQuery}
    (built : Built o d p) (sound : d.Sound) (hq : q ∈ p.queries) :
    (∀ bound, Plan.breach? q.spec.join bound o.estimate = none) ∧
      (∀ filters, Demand.breach? q.name q.source filters o.estimate = none) ∧
      (∀ c, q.maintained = some c → c.breach? q.settings.selfJoin o.estimate = none) ∧
      ∀ s ∈ q.supports, s.spec.breach? q.settings.selfJoin o.estimate = none := by
  obtain ⟨earlier, later, _, decl, _, catalog, hcompiled⟩ := built.mem_compiled hq
  have fits : q.spec.join.Fits := fun c hc =>
    (Lowering.query_scoped hcompiled.spec c hc).fits sound.relations
  have hsource : q.source.Fits := by
    intro c hc
    rcases mem_source hc with hc | ⟨_, rfl⟩
    · exact fits c hc
    · trivial
  have hspec : ∀ {spec : Comprehension}, spec.join.Fits →
      spec.breach? q.settings.selfJoin o.estimate = none := by
    intro spec hfits
    rw [Comprehension.breach?, Handler.breach?, hfits.printBreach?_eq_none,
      Handler.planBreach?_deltas hfits]
    rfl
  refine ⟨fun bound => Plan.breach?_eq_none fits,
    fun filters => Demand.breach?_eq_none hsource _ filters _, ?_⟩
  rcases hcompiled.kept with unkept | ⟨plan, kept⟩
  · rw [unkept.maintained, unkept.supports]
    exact ⟨nofun, nofun⟩
  · obtain ⟨hjoin, hsupports⟩ := Demand.fits_ofJoin hsource kept.planned
    rw [kept.maintained, kept.supports]
    refine ⟨fun c hc => ?_, fun s hs => hspec (hsupports s hs)⟩
    cases hc
    exact hspec hjoin

end ViewUpkeep
