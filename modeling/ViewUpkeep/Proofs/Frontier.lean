import ViewUpkeep.Proofs.DemandPlan
import ViewUpkeep.Proofs.Greedy

/-!
What changes range over when a query is demanded. Filters are chosen by the plans of the join as it
is written, and handlers follow the plans of the join with the filters in it. A clause that a handler
reaches without knowing its inputs therefore ranges over its filter if a plan of the join as written
reaches it so; if filters replace no maps and have the estimates of what they replace, both joins are
planned alike and there is no other clause of this kind.
-/
namespace ViewUpkeep

/-- Clauses that a planner and a choice of filters cannot tell apart. -/
structure Clause.Alike (c d : Clause) : Prop where
  lhs : c.lhs = d.lhs
  rate : ∀ bound, c.rate bound = d.rate bound
  needs : ∀ bound, c.needsFiltering bound = d.needsFiltering bound

/-- Estimates that do not tell a clause from another one in its place, be it adjusted for a changed
row or narrowed to it. -/
structure Estimator.Indifferent (estimate : Estimator) (c d : Clause) : Prop where
  adjusted : ∀ strategy bound,
    estimate c bound = estimate (Join.adjust strategy (.var Var.delta) d) bound
  changed : ∀ bound, estimate (c.singletonize (.var Var.delta)) bound =
    estimate (d.singletonize (.var Var.delta)) bound

namespace Clause

variable {c d : Clause}

theorem Alike.refl (c : Clause) : c.Alike c := ⟨rfl, fun _ => rfl, fun _ => rfl⟩

theorem Alike.trans {e : Clause} (h : c.Alike d) (k : d.Alike e) : c.Alike e :=
  ⟨h.lhs.trans k.lhs, fun bound => (h.rate bound).trans (k.rate bound),
    fun bound => (h.needs bound).trans (k.needs bound)⟩

theorem alike_adjust (strategy : SelfJoin) (value : Expr) (c : Clause) :
    c.Alike (Join.adjust strategy value c) := by
  cases strategy <;> exact ⟨rfl, fun _ => rfl, fun _ => rfl⟩

theorem alike_singletonize (h : c.lhs = d.lhs) (value : Expr) :
    (c.singletonize value).Alike (d.singletonize value) :=
  ⟨h, fun _ => rfl, fun _ => rfl⟩

theorem alike_onRelation {rel : String} (h : c = .member c.lhs rel) (target : String) :
    c.Alike (c.onRelation target) := by
  rw [h]
  exact ⟨rfl, fun _ => rfl, fun _ => rfl⟩

@[simp] theorem rel?_adjust (strategy : SelfJoin) (value : Expr) (c : Clause) :
    (Join.adjust strategy value c).rel? = c.rel? := by
  cases strategy <;> rfl

end Clause

/-! ### Plans of clauses that look alike -/

namespace Plan

variable {estimate : Estimator} {bound : List Var}

structure Candidate.Alike (a b : Candidate) : Prop where
  index : a.index = b.index
  clause : a.clause.Alike b.clause
  rate : a.rate = b.rate
  cost : a.cost = b.cost

structure Step.Alike (s t : Step) : Prop where
  index : s.index = t.index
  clause : s.clause.Alike t.clause
  bound : s.bound = t.bound

structure AlikeAt (estimate : Estimator) (p q : Clause × Nat) : Prop where
  clause : p.1.Alike q.1
  cost : ∀ bound, estimate p.1 bound = estimate q.1 bound
  index : p.2 = q.2

theorem candidate_alike (bound : List Var) {p q : Clause × Nat} (h : AlikeAt estimate p q) :
    (candidate estimate bound p).Alike (candidate estimate bound q) := by
  refine ⟨h.index, h.clause, h.clause.rate bound, ?_⟩
  simp only [candidate, h.clause.rate bound, h.cost bound]

theorem best_alike {a b : Candidate} {as bs : List Candidate} (h : a.Alike b)
    (hs : List.Forall₂ Candidate.Alike as bs) :
    (Candidate.best a as).Alike (Candidate.best b bs) := by
  induction hs generalizing a b with
  | nil => exact h
  | @cons c d cs ds hc _ ih =>
    have hbeats : c.beats a = d.beats b := by
      simp only [Candidate.beats, hc.rate, hc.cost, h.rate, h.cost]
    simp only [Candidate.best, List.foldl_cons, hbeats] at ih ⊢
    split
    · exact ih hc
    · exact ih h

theorem pick_alike {ps qs : List (Clause × Nat)} (h : List.Forall₂ (AlikeAt estimate) ps qs) :
    Option.Rel Candidate.Alike (pick estimate bound ps) (pick estimate bound qs) := by
  cases h with
  | nil => exact .none
  | @cons p q ps qs hp hps =>
    have hrest : List.Forall₂ Candidate.Alike (ps.map (candidate estimate bound))
        (qs.map (candidate estimate bound)) := by
      rw [List.forall₂_map_left_iff, List.forall₂_map_right_iff]
      exact hps.imp fun _ _ => candidate_alike bound
    have hbest := best_alike (candidate_alike bound hp) hrest
    simp only [pick, List.map_cons, hbest.rate]
    split
    · exact .none
    · exact .some hbest

theorem eraseP_alike {ps qs : List (Clause × Nat)} (h : List.Forall₂ (AlikeAt estimate) ps qs)
    (i : Nat) : List.Forall₂ (AlikeAt estimate) (ps.eraseP fun p => p.2 = i)
      (qs.eraseP fun q => q.2 = i) := by
  induction h with
  | nil => exact .nil
  | @cons p q ps qs hp hps ih =>
    rw [List.eraseP_cons, List.eraseP_cons, hp.index]
    cases decide (q.2 = i) with
    | true => exact hps
    | false => exact .cons hp ih

theorem extend_alike (n : Nat) {ps qs : List (Clause × Nat)}
    (h : List.Forall₂ (AlikeAt estimate) ps qs) :
    List.Forall₂ Step.Alike (extend estimate n bound ps).steps (extend estimate n bound qs).steps := by
  induction n generalizing bound ps qs with
  | zero => exact .nil
  | succ n ih =>
    have hpick : Option.Rel Candidate.Alike (pick estimate bound ps) (pick estimate bound qs) :=
      pick_alike h
    unfold extend
    cases hp : pick estimate bound ps with
    | none =>
      cases hq : pick estimate bound qs with
      | none => exact .nil
      | some d => rw [hp, hq] at hpick; cases hpick
    | some c =>
      cases hq : pick estimate bound qs with
      | none => rw [hp, hq] at hpick; cases hpick
      | some d =>
        rw [hp, hq] at hpick
        cases hpick with
        | some hcd =>
          have henum : c.clause.enumVars = d.clause.enumVars := by
            rw [Clause.enumVars, Clause.enumVars, hcd.clause.lhs]
          refine .cons ⟨hcd.index, hcd.clause, rfl⟩ ?_
          simp only [henum, hcd.index]
          exact ih (eraseP_alike h d.index)

theorem complete_alike {j k : Join} (h : List.Forall₂ (AlikeAt estimate) j.zipIdx k.zipIdx)
    {steps steps' : List Step} (hj : (ofJoin j bound estimate).complete = .ok steps)
    (hk : (ofJoin k bound estimate).complete = .ok steps') :
    List.Forall₂ Step.Alike steps steps' := by
  obtain ⟨_, rfl⟩ := complete_eq_ok.mp hj
  obtain ⟨_, rfl⟩ := complete_eq_ok.mp hk
  have hlen : j.length = k.length := by simpa using h.length_eq
  unfold ofJoin
  rw [hlen]
  exact extend_alike _ h

end Plan

/-! ### Joins of changes -/

namespace Join

variable {j : Join} {rel : String} {value : Expr} {strategy : SelfJoin} {place i : Nat}

theorem getElem?_deltaAt : (j.deltaAt rel value strategy place)[i]? = j[i]?.map fun c =>
    if i = place then c.singletonize value
    else if place < i && c.rel? = some rel then adjust strategy value c
    else c := by
  simp [deltaAt, List.getElem?_zipIdx, Option.map_map, Function.comp_def]

theorem mem_deltas {d : Join} : (place, d) ∈ j.deltas rel value strategy ↔
    place ∈ j.occurrences rel ∧ d = j.deltaAt rel value strategy place := by
  simp [deltas, and_comm, eq_comm]

theorem of_getElem?_deltaAt {e : Clause} (h : (j.deltaAt rel value strategy place)[i]? = some e)
    (hi : i ≠ place) : ∃ c, j[i]? = some c ∧ c.Alike e ∧ e.rel? = c.rel? := by
  rw [getElem?_deltaAt] at h
  obtain ⟨c, hc, rfl⟩ := Option.map_eq_some_iff.mp h
  refine ⟨c, hc, ?_⟩
  rw [if_neg hi]
  split
  · exact ⟨Clause.alike_adjust strategy value c, Clause.rel?_adjust strategy value c⟩
  · exact ⟨.refl c, rfl⟩

theorem deltaAt_alike {k : Join} {estimate : Estimator}
    (h : List.Forall₂ (fun c d => c.Alike d ∧ estimate.Indifferent c d) j k) (rel rel' : String)
    (strategy : SelfJoin) (place : Nat) :
    List.Forall₂ (Plan.AlikeAt estimate) (j.deltaAt rel (.var Var.delta) .das place).zipIdx
      (k.deltaAt rel' (.var Var.delta) strategy place).zipIdx := by
  obtain ⟨hlen, hget⟩ := List.forall₂_iff_get.mp h
  refine List.forall₂_iff_get.mpr ⟨by simpa [deltaAt] using hlen, fun i hi hi' => ?_⟩
  have hj : i < j.length := by simpa [deltaAt] using hi
  have hk : i < k.length := by simpa [deltaAt] using hi'
  obtain ⟨halike, hind⟩ := hget i hj hk
  simp only [List.get_eq_getElem] at halike hind
  simp only [deltaAt, List.get_eq_getElem, List.getElem_zipIdx, List.getElem_map, Nat.zero_add]
  split
  · exact ⟨Clause.alike_singletonize halike.lhs _, hind.changed, rfl⟩
  · simp only [adjust, ite_self]
    split
    · exact ⟨halike.trans (Clause.alike_adjust strategy _ _), hind.adjusted strategy, rfl⟩
    · exact ⟨halike, hind.adjusted .das, rfl⟩

end Join

theorem Handler.planDelta_eq_ok {owner : String} {j : Join} {estimate : Estimator}
    {steps : List Plan.Step} : planDelta owner j estimate = .ok steps ↔
      (Plan.ofJoin j [Var.delta] estimate).complete = .ok steps := by
  unfold planDelta
  split <;> simp_all

/-! ### The choice of filters -/

namespace Demand

variable {query : String} {j : Join} {estimate : Estimator} {strategy : SelfJoin}
  {cs : List Support} {selected : List Nat}

/-- A plan for a change of the join reaches a clause, other than the changed one, without knowing
its inputs. -/
structure Ranges (j : Join) (strategy : SelfJoin) (estimate : Estimator) (s : Plan.Step) : Prop where
  reached : ∃ rel place d steps, (place, d) ∈ j.deltas rel (.var Var.delta) strategy ∧
    (Plan.ofJoin d [Var.delta] estimate).complete = .ok steps ∧ s ∈ steps ∧ s.index ≠ place
  needs : s.clause.needsFiltering s.bound = true

theorem Ranges.clause {s : Plan.Step} (h : Ranges j strategy estimate s) :
    ∃ c, j[s.index]? = some c ∧ c.Alike s.clause ∧ s.clause.rel? = c.rel? := by
  obtain ⟨rel, place, d, steps, hd, hsteps, hs, hne⟩ := h.reached
  obtain ⟨_, rfl⟩ := Join.mem_deltas.mp hd
  have hplace := (Plan.complete_places hsteps).mem_iff.mp
    (List.mem_map_of_mem (f := fun s => (s.clause, s.index)) hs)
  exact Join.of_getElem?_deltaAt (List.mem_zipIdx_iff_getElem?.mp hplace) hne

theorem mem_unfiltered {place i : Nat} {steps : List Plan.Step} : i ∈ unfiltered place steps ↔
    ∃ s ∈ steps, s.index = i ∧ s.index ≠ place ∧ s.clause.needsFiltering s.bound = true := by
  simp only [unfiltered, List.mem_map, List.mem_filter, Bool.and_eq_true, decide_eq_true_eq]
  exact exists_congr fun s => by tauto

theorem unfilteredAll_eq_ok {js : List (Nat × Join)} {reached : List Nat}
    (h : unfilteredAll query estimate js = .ok reached) :
    (∀ p ∈ js, ∃ steps, (Plan.ofJoin p.2 [Var.delta] estimate).complete = .ok steps) ∧
    ∀ i, i ∈ reached ↔ ∃ p ∈ js, ∃ steps,
      (Plan.ofJoin p.2 [Var.delta] estimate).complete = .ok steps ∧ i ∈ unfiltered p.1 steps := by
  induction js generalizing reached with
  | nil =>
    cases h
    simp
  | cons p js ih =>
    obtain ⟨steps, hsteps, h⟩ := bind_eq_ok.mp h
    obtain ⟨more, hmore, h⟩ := bind_eq_ok.mp h
    cases h
    obtain ⟨hall, hmem⟩ := ih hmore
    have hsteps := Handler.planDelta_eq_ok.mp hsteps
    refine ⟨List.forall_mem_cons.mpr ⟨⟨steps, hsteps⟩, hall⟩, fun i => ?_⟩
    simp [hmem, hsteps]

/-- The selected clauses are those with a filter that a plan of the join as written reaches without
knowing their inputs. -/
theorem select_eq_ok (h : select query j cs estimate = .ok selected) :
    (∀ rel, ∀ place ∈ j.occurrences rel, ∃ steps, (Plan.ofJoin
      (j.deltaAt rel (.var Var.delta) .das place) [Var.delta] estimate).complete = .ok steps) ∧
    ∀ i, i ∈ selected ↔ (∃ s, Ranges j .das estimate s ∧ s.index = i) ∧
      ∃ f ∈ cs, f.isFilter = true ∧ f.clause = i := by
  obtain ⟨reached, hreached, h⟩ := bind_eq_ok.mp h
  cases h
  obtain ⟨hall, hmem⟩ := unfilteredAll_eq_ok hreached
  have hjoins : ∀ rel place d, (place, d) ∈ j.deltas rel (.var Var.delta) .das →
      (place, d) ∈ j.rels.flatMap fun rel => j.deltas rel (.var Var.delta) .das := by
    intro rel place d hd
    obtain ⟨c, hc, hrel⟩ := Join.mem_occurrences.mp (Join.mem_deltas.mp hd).1
    exact List.mem_flatMap.mpr ⟨rel, Join.mem_rels.mpr ⟨c, List.mem_of_getElem? hc, hrel⟩, hd⟩
  have hranges : ∀ i, i ∈ reached ↔ ∃ s, Ranges j .das estimate s ∧ s.index = i := by
    intro i
    rw [hmem]
    constructor
    · rintro ⟨⟨place, d⟩, hp, steps, hsteps, hi⟩
      obtain ⟨rel, _, hd⟩ := List.mem_flatMap.mp hp
      obtain ⟨s, hs, hindex, hne, hneeds⟩ := mem_unfiltered.mp hi
      exact ⟨s, ⟨⟨rel, place, d, steps, hd, hsteps, hs, hne⟩, hneeds⟩, hindex⟩
    · rintro ⟨s, ⟨⟨rel, place, d, steps, hd, hsteps, hs, hne⟩, hneeds⟩, hindex⟩
      exact ⟨(place, d), hjoins rel place d hd, steps, hsteps,
        mem_unfiltered.mpr ⟨s, hs, hindex, hne, hneeds⟩⟩
  refine ⟨fun rel place hplace => ?_, fun i => ?_⟩
  · exact hall _ (hjoins rel place _ (Join.mem_deltas.mpr ⟨hplace, rfl⟩))
  · have hlength : (∃ s, Ranges j .das estimate s ∧ s.index = i) → i < j.length := by
      rintro ⟨s, hs, rfl⟩
      obtain ⟨c, hc, _⟩ := hs.clause
      exact (List.getElem?_eq_some_iff.mp hc).1
    simp only [List.mem_filter, List.mem_range, Bool.and_eq_true, List.contains_iff_mem, hranges,
      List.any_eq_true, decide_eq_true_eq]
    exact ⟨fun h => h.2, fun h => ⟨hlength h.1, h⟩⟩

theorem filter_of_mem (h : supportsFrom query true 0 [] j = .ok cs) {f : Support} (hf : f ∈ cs)
    (hfilter : f.isFilter = true) : ∃ c rel, j[f.clause]? = some c ∧
      (c = .member c.lhs rel ∨ ∃ n, c = .mapMember c.lhs rel n) ∧
      f.target = filterName query f.clause rel := by
  obtain ⟨pre, c, post, guard, rfl, hguard, hs | ⟨v, _, rfl⟩⟩ := mem_supportsFrom h hf
  · cases guardOf_guards hguard f hs with
    | entry => cases hfilter
    | @filter _ rel _ _ hc _ => exact ⟨c, rel, by simp, hc, rfl⟩
  · cases hfilter

theorem rel?_of_member {c : Clause} {rel : String}
    (hc : c = .member c.lhs rel ∨ ∃ n, c = .mapMember c.lhs rel n) : c.rel? = some rel := by
  obtain hc | ⟨n, hc⟩ := hc <;> rw [hc] <;> rfl

theorem target_unique (h : supportsFrom query true 0 [] j = .ok cs) {f g : Support} (hf : f ∈ cs)
    (hg : g ∈ cs) (hf' : f.isFilter = true) (hg' : g.isFilter = true) (hclause : f.clause = g.clause) :
    f.target = g.target := by
  obtain ⟨c, rel, hc, hmember, htarget⟩ := filter_of_mem h hf hf'
  obtain ⟨d, rel', hd, hmember', htarget'⟩ := filter_of_mem h hg hg'
  rw [hclause] at hc
  cases hc.symm.trans hd
  cases (rel?_of_member hmember).symm.trans (rel?_of_member hmember')
  rw [htarget, htarget', hclause]

theorem of_getElem?_apply {kept : List Support} {i : Nat} {e : Clause}
    (h : (apply j kept selected)[i]? = some e) : ∃ c, j[i]? = some c ∧
      ((e = c ∧ ∀ f ∈ kept, f.isFilter = true → f.clause = i → i ∉ selected) ∨
        ∃ f ∈ kept, f.isFilter = true ∧ f.clause = i ∧ i ∈ selected ∧ e = c.onRelation f.target) := by
  simp only [apply, List.getElem?_map, List.getElem?_zipIdx, Option.map_map, Nat.zero_add,
    Option.map_eq_some_iff, Function.comp_apply] at h
  obtain ⟨c, hc, rfl⟩ := h
  refine ⟨c, hc, ?_⟩
  split
  case h_1 f hfind =>
    have hf := List.find?_some hfind
    simp only [Bool.and_eq_true, decide_eq_true_eq, List.contains_iff_mem] at hf
    exact .inr ⟨f, List.mem_of_find?_eq_some hfind, hf.1.1, hf.1.2, hf.2, rfl⟩
  case h_2 hfind =>
    refine .inl ⟨rfl, fun f hf hfilter hclause hmem => ?_⟩
    have hnot := List.find?_eq_none.mp hfind f hf
    simp [hfilter, hclause, hmem] at hnot

theorem filterName_ne (query : String) (i : Nat) (rel : String) : filterName query i rel ≠ rel := by
  intro heq
  have hlen := congrArg String.length heq
  have hpart : ".F".length = 2 := rfl
  simp only [filterName, String.length_append, hpart] at hlen
  omega

theorem rel?_apply_iff (h : supportsFrom query true 0 [] j = .ok cs) {f : Support} (hf : f ∈ cs)
    (hfilter : f.isFilter = true) {e : Clause}
    (he : (apply j (prune cs selected) selected)[f.clause]? = some e) :
    e.rel? = some f.target ↔ f.clause ∈ selected := by
  have pruned := prune_pruned cs selected
  obtain ⟨c, hc, ⟨rfl, hnone⟩ | ⟨g, hg, hgfilter, hgclause, hmem, rfl⟩⟩ := of_getElem?_apply he
  · obtain ⟨d, rel, hd, hmember, htarget⟩ := filter_of_mem h hf hfilter
    cases hc.symm.trans hd
    rw [rel?_of_member hmember, htarget, Option.some.injEq]
    refine ⟨fun heq => absurd heq.symm (filterName_ne query f.clause rel), fun hmem => ?_⟩
    exact absurd hmem (hnone f (pruned.filters f hf hfilter (.inl hmem)) hfilter rfl)
  · refine iff_of_true (congrArg some ?_) hmem
    exact target_unique h (pruned.sublist.subset hg) hf hgfilter hfilter hgclause

theorem alike_of_getElem?_apply (h : supportsFrom query true 0 [] j = .ok cs) {kept : List Support}
    (hsub : kept ⊆ cs) (maps : ∀ i ∈ selected, ∀ lhs rel n, j[i]? ≠ some (.mapMember lhs rel n))
    {i : Nat} {c e : Clause} (hc : j[i]? = some c) (he : (apply j kept selected)[i]? = some e) :
    c.Alike e := by
  obtain ⟨d, hd, hcases⟩ := of_getElem?_apply he
  cases hc.symm.trans hd
  obtain ⟨rfl, _⟩ | ⟨f, hf, hfilter, rfl, hmem, rfl⟩ := hcases
  · exact .refl _
  · obtain ⟨d, rel, hd, hmember, _⟩ := filter_of_mem h (hsub hf) hfilter
    cases hc.symm.trans hd
    obtain hmember | ⟨n, hmap⟩ := hmember
    · exact Clause.alike_onRelation hmember f.target
    · exact absurd (hc.trans (congrArg some hmap)) (maps _ hmem _ _ _)

end Demand

namespace DemandPlan

variable {query : String} {j : Join} {estimate : Estimator} {plan : DemandPlan}
  {strategy : SelfJoin} {s : Plan.Step}

/-- Where both joins are planned alike, what is reached in the rewritten one is reached in the other
too. -/
theorem ranges_of_alike (planned : DemandPlan.ofJoin query j true estimate = .ok plan)
    (alike : List.Forall₂ (fun c d => c.Alike d ∧ estimate.Indifferent c d) j plan.join)
    (hs : Demand.Ranges plan.join strategy estimate s) :
    ∃ s₀, Demand.Ranges j .das estimate s₀ ∧ s₀.index = s.index := by
  obtain ⟨rel, place, d, steps, hd, hsteps, hmem, hne⟩ := hs.reached
  obtain ⟨hplace, rfl⟩ := Join.mem_deltas.mp hd
  obtain ⟨cs, hcs, hselect, hsupports, hjoin⟩ := DemandPlan.ofJoin_eq_ok planned
  obtain ⟨rel₀, hplace₀⟩ : ∃ rel₀, place ∈ j.occurrences rel₀ := by
    obtain ⟨e, he, hrel⟩ := Join.mem_occurrences.mp hplace
    rw [hjoin, hsupports] at he
    obtain ⟨c, hc, ⟨rfl, _⟩ | ⟨f, hf, hfilter, rfl, _⟩⟩ := Demand.of_getElem?_apply he
    · exact ⟨rel, Join.mem_occurrences.mpr ⟨_, hc, hrel⟩⟩
    · have hf := (Demand.prune_pruned cs plan.selected).sublist.subset hf
      obtain ⟨d, rel₀, hd, hmember, _⟩ := Demand.filter_of_mem hcs hf hfilter
      exact ⟨rel₀, Join.mem_occurrences.mpr ⟨d, hd, Demand.rel?_of_member hmember⟩⟩
  obtain ⟨steps₀, hsteps₀⟩ := (Demand.select_eq_ok hselect).1 rel₀ place hplace₀
  have hsame := Plan.complete_alike (Join.deltaAt_alike alike rel₀ rel strategy place) hsteps₀ hsteps
  obtain ⟨i, hi, rfl⟩ := List.mem_iff_getElem.mp hmem
  have hi₀ : i < steps₀.length := hsame.length_eq ▸ hi
  have hlike : steps₀[i].Alike steps[i] := hsame.get hi₀ hi
  refine ⟨steps₀[i], ⟨⟨rel₀, place, _, steps₀, Join.mem_deltas.mpr ⟨hplace₀, rfl⟩, hsteps₀,
    List.getElem_mem hi₀, hlike.index ▸ hne⟩, ?_⟩, hlike.index⟩
  rw [hlike.clause.needs, hlike.bound]
  exact hs.needs

/-- A clause with a filter that a change of the rewritten join reaches without knowing its inputs
ranges over the filter exactly if a change of the join as written reaches it so. This is always the
case if no filter replaces a map and estimates do not tell the clauses of the two joins apart. -/
theorem stays_in_frontier (planned : DemandPlan.ofJoin query j true estimate = .ok plan)
    {cs : List Support} (candidates : Demand.candidates query j true = .ok cs) {f : Support}
    (hf : f ∈ cs) (hfilter : f.isFilter = true)
    (hs : Demand.Ranges plan.join strategy estimate s) (hclause : f.clause = s.index) :
    (s.clause.rel? = some f.target ↔
      ∃ s₀, Demand.Ranges j .das estimate s₀ ∧ s₀.index = s.index) ∧
    ((∀ i ∈ plan.selected, ∀ lhs rel n, j[i]? ≠ some (.mapMember lhs rel n)) →
      List.Forall₂ estimate.Indifferent j plan.join → s.clause.rel? = some f.target) := by
  obtain ⟨cs', hcs, hselect, hsupports, hjoin⟩ := DemandPlan.ofJoin_eq_ok planned
  obtain rfl : cs' = cs := Except.ok.inj (hcs.symm.trans candidates)
  have hiff : s.clause.rel? = some f.target ↔
      ∃ s₀, Demand.Ranges j .das estimate s₀ ∧ s₀.index = s.index := by
    obtain ⟨e, he, _, hrel⟩ := hs.clause
    rw [hjoin, hsupports, ← hclause] at he
    rw [hrel, Demand.rel?_apply_iff hcs hf hfilter he, (Demand.select_eq_ok hselect).2, hclause]
    exact and_iff_left ⟨f, hf, hfilter, hclause⟩
  refine ⟨hiff, fun maps indifferent => hiff.mpr (ranges_of_alike planned ?_ hs)⟩
  obtain ⟨hlen, hget⟩ := List.forall₂_iff_get.mp indifferent
  refine List.forall₂_iff_get.mpr ⟨hlen, fun i hi hi' => ⟨?_, hget i hi hi'⟩⟩
  refine Demand.alike_of_getElem?_apply hcs (Demand.prune_pruned cs' plan.selected).sublist.subset
    maps (List.getElem?_eq_getElem hi) ?_
  rw [← hsupports, ← hjoin]
  exact List.getElem?_eq_getElem hi'

def pathJoin : Join :=
  [.member [⟨"x"⟩] "Q.U", .member [⟨"x"⟩, ⟨"y"⟩] "E", .member [⟨"y"⟩, ⟨"z"⟩] "E"]

def pathSizes : Estimator := .ofSizes [("E", 100), ("Q.F1_E", 100), ("Q.F2_E", 100)]

theorem stays_in_frontier_path : ∃ plan cs s f,
    DemandPlan.ofJoin "Q" pathJoin true pathSizes = .ok plan ∧
    Demand.candidates "Q" pathJoin true = .ok cs ∧ f ∈ cs ∧ f.isFilter = true ∧
    f.target = "Q.F2_E" ∧ Demand.Ranges plan.join .sub pathSizes s ∧ f.clause = s.index ∧
    s.bound = [Var.delta, ⟨"x"⟩, ⟨"x"⟩, ⟨"y"⟩] ∧ s.clause.rel? = some "Q.F2_E" := by
  obtain ⟨plan, planned, hplan⟩ : ∃ plan, DemandPlan.ofJoin "Q" pathJoin true pathSizes = .ok plan ∧
      plan.selected = [1, 2] ∧ plan.join = [.member [⟨"x"⟩] "Q.U",
        .member [⟨"x"⟩, ⟨"y"⟩] "Q.F1_E", .member [⟨"y"⟩, ⟨"z"⟩] "Q.F2_E"] := ⟨_, rfl, rfl, rfl⟩
  obtain ⟨cs, hcs, f, hf, hfilter, hclause, htarget⟩ : ∃ cs,
      Demand.candidates "Q" pathJoin true = .ok cs ∧ ∃ f ∈ cs, f.isFilter = true ∧ f.clause = 2 ∧
        f.target = "Q.F2_E" :=
    ⟨_, rfl, _, List.mem_of_getElem? (i := 3) rfl, rfl, rfl, rfl⟩
  have hs : Demand.Ranges plan.join .sub pathSizes
      ⟨2, .member [⟨"y"⟩, ⟨"z"⟩] "Q.F2_E", [Var.delta, ⟨"x"⟩, ⟨"x"⟩, ⟨"y"⟩]⟩ := by
    rw [hplan.2]
    exact ⟨⟨"Q.U", 0, _, _, Join.mem_deltas.mpr ⟨by decide, rfl⟩, rfl,
      List.mem_of_getElem? (i := 2) rfl, by decide⟩, rfl⟩
  have maps : ∀ i ∈ plan.selected, ∀ lhs rel n, pathJoin[i]? ≠ some (.mapMember lhs rel n) := by
    rw [hplan.1]
    simp [pathJoin]
  have indifferent : List.Forall₂ pathSizes.Indifferent pathJoin plan.join := by
    rw [hplan.2]
    refine .cons ⟨?_, fun _ => rfl⟩ (.cons ⟨?_, fun _ => rfl⟩ (.cons ⟨?_, fun _ => rfl⟩ .nil)) <;>
      intro strategy bound <;> cases strategy <;> rfl
  have hrel := (stays_in_frontier planned hcs hf hfilter hs hclause).2 maps indifferent
  rw [htarget] at hrel
  exact ⟨plan, cs, _, f, planned, hcs, hf, hfilter, htarget, hs, hclause, rfl, hrel⟩

def Strays (query : String) (j : Join) (estimate : Estimator) (rel : String) : Prop :=
  ∃ plan cs s f, DemandPlan.ofJoin query j true estimate = .ok plan ∧
    Demand.candidates query j true = .ok cs ∧ f ∈ cs ∧ f.isFilter = true ∧ f.clause = s.index ∧
    Demand.Ranges plan.join .sub estimate s ∧ s.clause.rel? = some rel

/-- A map whose key a change of `D` gives, and over a filter gives no longer. -/
def keyedJoin : Join :=
  [.member [⟨"p"⟩] "Q.U", .member [⟨"p"⟩, ⟨"t"⟩] "R", .member [⟨"t"⟩, ⟨"x"⟩] "C",
    .mapMember [⟨"x"⟩, ⟨"y"⟩, ⟨"t"⟩] "M" 2, .mapMember [⟨"t"⟩, ⟨"x"⟩] "S" 1,
    .member [⟨"x"⟩, ⟨"y"⟩] "D"]

def apartJoin : Join :=
  [.member [⟨"p"⟩] "Q.U", .member [⟨"x"⟩, ⟨"y"⟩] "A", .member [⟨"p"⟩] "B", .member [⟨"p"⟩] "C"]

def apartSizes : Estimator := .ofSizes [("Q.U", 1000), ("A", 10), ("B", 10), ("C", 10)]

/-- A filter in the place of a map, or one without an estimate, comes later in a plan than what it
replaces, and another clause is reached before it. -/
theorem strays_from_frontier :
    Strays "Q" keyedJoin .silent "C" ∧ Strays "Q" apartJoin apartSizes "C" := by
  constructor
  · refine ⟨_, _, ⟨2, .member [⟨"t"⟩, ⟨"x"⟩] "C", [Var.delta, ⟨"x"⟩, ⟨"y"⟩]⟩, _, rfl, rfl,
      List.mem_of_getElem? (i := 3) rfl, rfl, rfl, ⟨?_, rfl⟩, rfl⟩
    exact ⟨"D", 5, _, _, Join.mem_deltas.mpr ⟨by decide, rfl⟩, rfl,
      List.mem_of_getElem? (i := 1) rfl, by decide⟩
  · refine ⟨_, _, ⟨3, .member [⟨"p"⟩] "C", [Var.delta, ⟨"x"⟩, ⟨"y"⟩]⟩, _, rfl, rfl,
      List.mem_of_getElem? (i := 4) rfl, rfl, rfl, ⟨?_, rfl⟩, rfl⟩
    exact ⟨"A", 1, _, _, Join.mem_deltas.mpr ⟨by decide, rfl⟩, rfl,
      List.mem_of_getElem? (i := 1) rfl, by decide⟩

end DemandPlan

end ViewUpkeep
