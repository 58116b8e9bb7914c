import ViewUpkeep.Proofs.Orderable

/-!
Greedy planning is complete. What a planner that takes no step back can place is all that any
sequence of clauses can make runnable, since a clause that can run at some time can run at every
later one. So estimates decide the order of a plan, but neither whether there is one nor which
clauses are left over.
-/
namespace ViewUpkeep

namespace Join

variable {bound bound' : List Var} {j k : Join} {c : Clause}

/-- Clauses of the join that can run one after the other and after which the given one can. -/
def Reachable (bound : List Var) (j : Join) (c : Clause) : Prop :=
  ∃ k : Join, k ⊆ j ∧ Runnable bound (k ++ [c])

theorem runnable_append :
    Runnable bound (j ++ k) ↔ j.Runnable bound ∧ k.Runnable (bound ++ j.flatMap Clause.enumVars) := by
  induction j generalizing bound with
  | nil => simp [Runnable]
  | cons c rest ih =>
    simp only [List.cons_append, Runnable, ih, List.flatMap_cons, List.append_assoc, and_assoc]

theorem Runnable.binds_subset (h : k.Runnable bound) (hsub : bound ⊆ bound')
    (closed : ∀ c ∈ k, c.rate bound' ≠ .unrunnable → c.enumVars ⊆ bound') :
    bound ++ k.flatMap Clause.enumVars ⊆ bound' := by
  induction k generalizing bound with
  | nil => simpa using hsub
  | cons c rest ih =>
    obtain ⟨hc, hrest⟩ := List.forall_mem_cons.mp closed
    rw [List.flatMap_cons, ← List.append_assoc]
    apply ih h.2 ?_ hrest
    exact List.append_subset.mpr ⟨hsub, hc (Clause.rate_mono hsub h.1)⟩

end Join

theorem eq_filter_of_sublist {α : Type} {p : α → Bool} {l part rest : List α}
    (hsub : part.Sublist l) (hperm : (rest ++ part).Perm l) (hpart : ∀ a ∈ part, p a = true)
    (hrest : ∀ a ∈ rest, p a = false) : part = l.filter p := by
  have hself : part.filter p = part := List.filter_eq_self.mpr hpart
  have hnone : rest.filter p = [] := by
    apply List.filter_eq_nil_iff.mpr
    intro a ha
    simp [hrest a ha]
  have hfilter := hperm.filter p
  rw [List.filter_append, hself, hnone, List.nil_append] at hfilter
  have hkept := hsub.filter p
  rw [hself] at hkept
  exact hkept.eq_of_length hfilter.length_eq

namespace Plan

variable {estimate : Estimator} {bound : List Var}

def boundAfter (bound : List Var) (steps : List Step) : List Var :=
  bound ++ steps.flatMap (·.clause.enumVars)

theorem extend_stuck_rate {n : Nat} {remaining : List (Clause × Nat)}
    (nodup : (remaining.map Prod.snd).Nodup) (hlength : remaining.length ≤ n) :
    ∀ c ∈ (extend estimate n bound remaining).stuck,
      c.rate (boundAfter bound (extend estimate n bound remaining).steps) = .unrunnable := by
  induction n generalizing bound remaining with
  | zero =>
    rw [List.length_eq_zero_iff.mp (Nat.le_zero.mp hlength)]
    simp [extend]
  | succ n ih =>
    unfold extend
    cases hp : pick estimate bound remaining with
    | none =>
      intro c hc
      obtain ⟨p, hmem, rfl⟩ := List.mem_map.mp hc
      simpa [boundAfter] using rate_of_pick_none hp hmem
    | some d =>
      have hlen := (perm_cons_eraseP_index nodup (pick_mem hp).1).length_eq
      rw [List.length_cons] at hlen
      have hfewer : (remaining.eraseP fun q => q.2 = d.index).length ≤ n := by
        dsimp only at hlen
        omega
      have hn : ((remaining.eraseP fun q => q.2 = d.index).map Prod.snd).Nodup :=
        nodup.sublist (List.eraseP_sublist.map Prod.snd)
      intro c hc
      have hrest := ih hn hfewer c hc
      rw [boundAfter, List.append_assoc] at hrest
      exact hrest

theorem Chained.append {before after : List Step} (h : Chained bound (before ++ after)) :
    Chained bound before ∧ Chained (boundAfter bound before) after := by
  induction before generalizing bound with
  | nil => exact ⟨trivial, by simpa [boundAfter] using h⟩
  | cons s rest ih =>
    obtain ⟨hbound, hrate, hrest⟩ := h
    obtain ⟨hbefore, hafter⟩ := ih hrest
    refine ⟨⟨hbound, hrate, hbefore⟩, ?_⟩
    simpa [boundAfter] using hafter

theorem Chained.reachable {steps : List Step} (h : Chained bound steps) {j : Join}
    (hsub : steps.map (·.clause) ⊆ j) {s : Step} (hs : s ∈ steps) :
    j.Reachable bound s.clause := by
  obtain ⟨before, after, rfl⟩ := List.append_of_mem hs
  refine ⟨before.map (·.clause), ?_, ?_⟩
  · intro c hc
    apply hsub
    rw [List.map_append]
    exact List.mem_append_left _ hc
  · have hrun := h.runnable
    rw [List.map_append, List.map_cons, Join.runnable_append] at hrun
    exact Join.runnable_append.mpr ⟨hrun.1, hrun.2.1, trivial⟩

/-- What is left over cannot be reached, since the steps bind all that can be bound. -/
theorem not_reachable_of_stuck {j : Join} {c : Clause}
    (hc : c ∈ (ofJoin j bound estimate).stuck) : ¬ j.Reachable bound c := by
  rintro ⟨k, hk, hrun⟩
  have hstuck : ∀ d ∈ (ofJoin j bound estimate).stuck,
      d.rate (boundAfter bound (ofJoin j bound estimate).steps) = .unrunnable :=
    extend_stuck_rate (nodup_places j) (Nat.le_of_eq List.length_zipIdx)
  have hperm := extend_perm estimate j.length bound (nodup_places j)
  rw [List.zipIdx_map_fst] at hperm
  -- A clause that can run in the end is not left over, so it is placed and its variables are bound.
  have hclosed : ∀ d ∈ k, d.rate (boundAfter bound (ofJoin j bound estimate).steps) ≠ .unrunnable →
      d.enumVars ⊆ boundAfter bound (ofJoin j bound estimate).steps := by
    intro d hd hrate v hv
    rcases List.mem_append.mp (hperm.mem_iff.mpr (hk hd)) with hplaced | hleft
    · obtain ⟨s, hs, rfl⟩ := List.mem_map.mp hplaced
      exact List.mem_append_right _ (List.mem_flatMap.mpr ⟨s, hs, hv⟩)
    · exact absurd (hstuck d hleft) hrate
  obtain ⟨hrun, hlast, _⟩ := Join.runnable_append.mp hrun
  have hsub := hrun.binds_subset (List.subset_append_left ..) hclosed
  exact Clause.rate_mono hsub hlast (hstuck c hc)

open Classical in
theorem stuck_eq_filter (j : Join) (bound : List Var) (estimate : Estimator) :
    (ofJoin j bound estimate).stuck = j.filter fun c => ¬ j.Reachable bound c := by
  obtain ⟨left, hstuck, hsub, hperm⟩ := extend_split estimate j.length bound (nodup_places j)
  have hall := extend_perm estimate j.length bound (nodup_places j)
  rw [List.zipIdx_map_fst] at hall
  refine eq_filter_of_sublist ?_ hall ?_ ?_
  · have hmap := hsub.map Prod.fst
    rwa [← hstuck, List.zipIdx_map_fst] at hmap
  · intro c hc
    simpa using not_reachable_of_stuck hc
  · intro c hc
    obtain ⟨s, hs, rfl⟩ := List.mem_map.mp hc
    have hin : (ofJoin j bound estimate).steps.map (·.clause) ⊆ j :=
      fun d hd => hall.mem_iff.mp (List.mem_append_left _ hd)
    simpa using (extend_chained estimate j.length bound j.zipIdx).reachable hin hs

theorem mem_boundAfter {steps : List Step} {v : Var} :
    v ∈ boundAfter bound steps ↔ v ∈ bound ∨ ∃ s ∈ steps, v ∈ s.clause.lhs := by
  simp [boundAfter, Clause.enumVars]

theorem complete_places {j : Join} {steps : List Step}
    (h : (ofJoin j bound estimate).complete = .ok steps) :
    (steps.map fun s => (s.clause, s.index)).Perm j.zipIdx := by
  obtain ⟨hstuck, rfl⟩ := complete_eq_ok.mp h
  obtain ⟨left, hleft, _, hperm⟩ := extend_split estimate j.length bound (nodup_places j)
  have hnil : left = [] := List.map_eq_nil_iff.mp (hleft.symm.trans hstuck)
  rwa [hnil, List.append_nil] at hperm

open Classical in
/-- What the planner does, for any estimates: it succeeds if some order of the clauses lets each run
in its turn, and then gives such an order; otherwise it names the clauses that no sequence of others
can make runnable. -/
theorem complete_decides (j : Join) (bound : List Var) (estimate : Estimator) :
    ((∃ steps, (ofJoin j bound estimate).complete = .ok steps) ↔ j.Orderable bound) ∧
      (∀ steps, (ofJoin j bound estimate).complete = .ok steps →
        (steps.map fun s => (s.clause, s.index)).Perm j.zipIdx ∧
        ∀ before s after, steps = before ++ s :: after →
          s.clause.rate s.bound ≠ .unrunnable ∧
          ∀ v, v ∈ s.bound ↔ v ∈ bound ∨ ∃ t ∈ before, v ∈ t.clause.lhs) ∧
      ∀ stuck, (ofJoin j bound estimate).complete = .error stuck ↔
        ¬ j.Orderable bound ∧ stuck = j.filter fun c => ¬ j.Reachable bound c := by
  have hok : (∃ steps, (ofJoin j bound estimate).complete = .ok steps) ↔ j.Orderable bound :=
    complete_iff
  refine ⟨hok, ?_, ?_⟩
  · intro steps h
    refine ⟨complete_places h, ?_⟩
    rintro before s after rfl
    obtain ⟨_, hbound, hrate, _⟩ := (complete_chained h).append
    rw [hbound]
    exact ⟨hrate, fun v => mem_boundAfter⟩
  · intro stuck
    have hfails : ¬ j.Orderable bound ↔ (ofJoin j bound estimate).stuck ≠ [] := by
      rw [← hok]
      simp [complete_eq_ok]
    rw [complete_eq_error, hfails, stuck_eq_filter]
    exact and_congr_right fun _ => eq_comm

end Plan

end ViewUpkeep
