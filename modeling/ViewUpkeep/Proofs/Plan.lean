import Mathlib.Data.List.Nodup
import ViewUpkeep.Plan

/-!
Plans place each clause once. Whatever the ratings and estimates, the steps of a plan and the
clauses that it could not place are together the clauses of the join. What a clause reads is bound
when its turn comes.
-/
namespace ViewUpkeep

theorem Clause.bound_of_rate {c : Clause} {bound : List Var} (h : c.rate bound ≠ .unrunnable) :
    ∀ v ∈ c.readVars, v ∈ bound := by
  cases c with
  | singleton lhs expr | cond expr =>
    intro v hv
    unfold rate at h
    split at h
    · rename_i hall
      have hm := List.all_eq_true.mp hall v hv
      simpa using hm
    · exact absurd rfl h
  | _ => simp [readVars]

namespace Plan

theorem Candidate.best_mem (b : Candidate) (cs : List Candidate) :
    Candidate.best b cs ∈ b :: cs := by
  unfold Candidate.best
  induction cs generalizing b with
  | nil => exact List.mem_singleton.mpr rfl
  | cons c cs ih =>
    rw [List.foldl_cons]
    by_cases h : c.beats b
    · rw [if_pos h]
      exact List.mem_cons_of_mem b (ih c)
    · rw [if_neg h]
      rcases List.mem_cons.mp (ih b) with hb | hb
      · rw [hb]
        exact List.mem_cons_self
      · exact List.mem_cons_of_mem b (List.mem_cons_of_mem c hb)

theorem pick_mem {estimate : Estimator} {bound : List Var} {remaining : List (Clause × Nat)}
    {c : Candidate} (h : pick estimate bound remaining = some c) :
    (c.clause, c.index) ∈ remaining ∧ c.clause.rate bound ≠ .unrunnable := by
  unfold pick at h
  cases hm : remaining.map (candidate estimate bound) with
  | nil => simp [hm] at h
  | cons d ds =>
    rw [hm] at h
    dsimp only at h
    split at h
    · cases h
    · rename_i hrate
      cases h
      have hb := Candidate.best_mem d ds
      rw [← hm] at hb
      obtain ⟨p, hp, hc⟩ := List.mem_map.mp hb
      rw [← hc] at hrate ⊢
      exact ⟨hp, hrate⟩

theorem perm_cons_eraseP_index {remaining : List (Clause × Nat)}
    (nodup : (remaining.map Prod.snd).Nodup)
    {p : Clause × Nat} (h : p ∈ remaining) :
    (p :: remaining.eraseP fun q => q.2 = p.2).Perm remaining := by
  induction remaining with
  | nil => cases h
  | cons q qs ih =>
    rw [List.map_cons, List.nodup_cons] at nodup
    rcases List.mem_cons.mp h with rfl | hmem
    · rw [List.eraseP_cons_of_pos (by simp)]
    · have hne : ¬ q.2 = p.2 := fun he => nodup.1 (he ▸ List.mem_map_of_mem hmem)
      rw [List.eraseP_cons_of_neg (by simpa using hne)]
      exact (List.Perm.swap q p _).trans ((ih nodup.2 hmem).cons q)

/-- The steps taken and the clauses left over make up what was there, each with its place; those left
over stay in their order. -/
theorem extend_split (estimate : Estimator) (n : Nat) (bound : List Var)
    {remaining : List (Clause × Nat)} (nodup : (remaining.map Prod.snd).Nodup) :
    ∃ left, (extend estimate n bound remaining).stuck = left.map Prod.fst ∧
      left.Sublist remaining ∧
      ((extend estimate n bound remaining).steps.map (fun s => (s.clause, s.index)) ++ left).Perm
        remaining := by
  induction n generalizing bound remaining with
  | zero => exact ⟨remaining, rfl, .refl _, by simp [extend]⟩
  | succ n ih =>
    unfold extend
    cases hp : pick estimate bound remaining with
    | none => exact ⟨remaining, rfl, .refl _, by simp⟩
    | some c =>
      have hperm := perm_cons_eraseP_index nodup (pick_mem hp).1
      have hn : ((remaining.eraseP fun q => q.2 = c.index).map Prod.snd).Nodup :=
        nodup.sublist (List.eraseP_sublist.map Prod.snd)
      obtain ⟨left, hstuck, hsub, hrest⟩ := ih (bound ++ c.clause.enumVars) hn
      exact ⟨left, hstuck, hsub.trans List.eraseP_sublist, (hrest.cons (c.clause, c.index)).trans hperm⟩

theorem extend_perm (estimate : Estimator) (n : Nat) (bound : List Var)
    {remaining : List (Clause × Nat)} (nodup : (remaining.map Prod.snd).Nodup) :
    ((extend estimate n bound remaining).steps.map (·.clause) ++
      (extend estimate n bound remaining).stuck).Perm (remaining.map Prod.fst) := by
  obtain ⟨left, hstuck, _, hperm⟩ := extend_split estimate n bound nodup
  have hfst := hperm.map Prod.fst
  rw [List.map_append, List.map_map] at hfst
  rw [hstuck]
  exact hfst

theorem nodup_places (j : Join) : (j.zipIdx.map Prod.snd).Nodup := by
  rw [List.zipIdx_map_snd]
  exact List.nodup_range'

theorem complete_eq_ok {p : Plan} {steps : List Step} :
    p.complete = .ok steps ↔ p.stuck = [] ∧ p.steps = steps := by
  unfold complete
  split <;> simp_all

theorem complete_eq_error {p : Plan} {stuck : List Clause} :
    p.complete = .error stuck ↔ p.stuck ≠ [] ∧ p.stuck = stuck := by
  unfold complete
  split <;> simp_all

theorem complete_perm {j : Join} {bound : List Var} {estimate : Estimator} {steps : List Step}
    (h : (ofJoin j bound estimate).complete = .ok steps) : (steps.map (·.clause)).Perm j := by
  obtain ⟨hstuck, rfl⟩ := complete_eq_ok.mp h
  have hperm := extend_perm estimate j.length bound (nodup_places j)
  unfold ofJoin at hstuck ⊢
  rwa [hstuck, List.append_nil, List.zipIdx_map_fst] at hperm

theorem complete_forall {j : Join} {bound : List Var} {estimate : Estimator} {steps : List Step}
    (h : (ofJoin j bound estimate).complete = .ok steps) {P : Clause → Prop} :
    (∀ s ∈ steps, P s.clause) ↔ ∀ c ∈ j, P c := by
  rw [← List.forall_mem_map (f := fun s : Step => s.clause)]
  exact forall_congr' fun c => by rw [(complete_perm h).mem_iff]

theorem complete_lhs {j : Join} {bound : List Var} {estimate : Estimator} {steps : List Step}
    (h : (ofJoin j bound estimate).complete = .ok steps) (v : Var) :
    v ∈ steps.flatMap (·.clause.lhs) ↔ ∃ c ∈ j, v ∈ c.lhs := by
  rw [← List.mem_flatMap, ← ((complete_perm h).flatMap_right Clause.lhs).mem_iff, List.flatMap_map]

theorem extend_bound (estimate : Estimator) (n : Nat) (bound : List Var)
    (remaining : List (Clause × Nat)) :
    ∀ s ∈ (extend estimate n bound remaining).steps, ∀ v ∈ s.clause.readVars,
      v ∈ bound ∨ ∃ t ∈ (extend estimate n bound remaining).steps, v ∈ t.clause.lhs := by
  induction n generalizing bound remaining with
  | zero => simp [extend]
  | succ n ih =>
    unfold extend
    cases hp : pick estimate bound remaining with
    | none => simp
    | some c =>
      intro s hs v hv
      rcases List.mem_cons.mp hs with rfl | hs
      · exact .inl (Clause.bound_of_rate (pick_mem hp).2 v hv)
      · rcases ih _ _ s hs v hv with hb | ⟨t, ht, hv⟩
        · rcases List.mem_append.mp hb with hb | hb
          · exact .inl hb
          · exact .inr ⟨_, List.mem_cons_self, List.mem_eraseDups.mp hb⟩
        · exact .inr ⟨t, List.mem_cons_of_mem _ ht, hv⟩

theorem complete_bound {j : Join} {bound : List Var} {estimate : Estimator} {steps : List Step}
    (h : (ofJoin j bound estimate).complete = .ok steps) {c : Clause} (hc : c ∈ j) {v : Var}
    (hv : v ∈ c.readVars) : v ∈ bound ∨ ∃ d ∈ j, v ∈ d.lhs := by
  have hperm := complete_perm h
  obtain ⟨_, rfl⟩ := complete_eq_ok.mp h
  obtain ⟨s, hs, rfl⟩ := List.mem_map.mp (hperm.mem_iff.mpr hc)
  rcases extend_bound estimate j.length bound j.zipIdx s hs v hv with hb | ⟨t, ht, hv⟩
  · exact .inl hb
  · exact .inr ⟨t.clause, hperm.mem_iff.mp (List.mem_map_of_mem ht), hv⟩

end Plan

end ViewUpkeep
