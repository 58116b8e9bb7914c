import Mathlib.Data.List.Perm.Basic
import ViewUpkeep.Proofs.Plan

/-!
Joins that can be ordered. A clause that can run still can when more variables are bound, so that a
planner which never takes a step back finds an order whenever there is one. Estimates therefore
decide which order is found and not whether one is. An order also serves for a join whose clauses
bind the same variables and ask for no more, as those around a changed row do.
-/
namespace ViewUpkeep

theorem Rate.eq_unrunnable {r : Rate} (h : Rate.unrunnable.rank ≤ r.rank) : r = .unrunnable := by
  cases r <;> simp [Rate.rank] at h ⊢

namespace Clause

variable {c d : Clause} {bound bound' : List Var}

theorem areBound_iff {vs : List Var} : areBound bound vs = true ↔ vs ⊆ bound := by
  unfold areBound
  rw [List.all_eq_true]
  simp only [List.contains_iff_mem]
  rfl

theorem memberRate_ne (lhs bound : List Var) : memberRate lhs bound ≠ .unrunnable := by
  unfold memberRate
  split
  · simp
  · split <;> simp

theorem rate_mapMember_ne (lhs : List Var) (rel : String) (n : Nat) (bound : List Var) :
    (mapMember lhs rel n).rate bound ≠ .unrunnable := by
  unfold rate
  split
  · split <;> simp
  · exact memberRate_ne lhs bound

theorem rate_ne_of_member {rel : String} (h : c = .member c.lhs rel ∨ ∃ n, c = .mapMember c.lhs rel n)
    (bound : List Var) : c.rate bound ≠ .unrunnable := by
  rcases h with h | ⟨n, h⟩
  · rw [h]
    exact memberRate_ne c.lhs bound
  · rw [h]
    exact rate_mapMember_ne c.lhs rel n bound

theorem rate_singleton {lhs : List Var} {expr : Expr} :
    (singleton lhs expr).rate bound ≠ .unrunnable ↔ expr.vars ⊆ bound := by
  unfold rate
  rw [← areBound_iff]
  split <;> simp_all

theorem rate_cond {expr : Expr} : (cond expr).rate bound ≠ .unrunnable ↔ expr.vars ⊆ bound := by
  unfold rate
  rw [← areBound_iff]
  split <;> simp_all

theorem rate_demand_iff {inner : Clause} {query : String} {params : List Var} :
    (demand inner query params).rate bound ≠ .unrunnable ↔
      params ⊆ bound ∧ inner.rate bound ≠ .unrunnable := by
  rw [← areBound_iff]
  show (if areBound bound params = true then inner.rate bound else .unrunnable) ≠ .unrunnable ↔ _
  split <;> simp_all

theorem rate_demand {lhs params : List Var} {rel query : String} :
    (demand (.member lhs rel) query params).rate bound ≠ .unrunnable ↔ params ⊆ bound :=
  rate_demand_iff.trans (and_iff_left (memberRate_ne lhs bound))

theorem rate_mono (hsub : bound ⊆ bound') (h : c.rate bound ≠ .unrunnable) :
    c.rate bound' ≠ .unrunnable := by
  induction c with
  | member lhs rel => exact memberRate_ne lhs bound'
  | mapMember lhs rel n => exact rate_mapMember_ne lhs rel n bound'
  | singleton lhs expr => exact rate_singleton.mpr (List.Subset.trans (rate_singleton.mp h) hsub)
  | delta lhs rel value => simp [rate]
  | without inner value ih | withExtra inner value ih => exact ih h
  | demand inner query params ih =>
    obtain ⟨hparams, hinner⟩ := rate_demand_iff.mp h
    exact rate_demand_iff.mpr ⟨List.Subset.trans hparams hsub, ih hinner⟩
  | cond expr => exact rate_cond.mpr (List.Subset.trans (rate_cond.mp h) hsub)

/-- A clause that binds the same variables as another and can run whenever that one can. -/
structure Eases (c d : Clause) : Prop where
  lhs : d.lhs = c.lhs
  rate : ∀ bound, c.rate bound ≠ .unrunnable → d.rate bound ≠ .unrunnable

theorem Eases.refl (c : Clause) : c.Eases c := ⟨rfl, fun _ h => h⟩

theorem Eases.enumVars (h : c.Eases d) : d.enumVars = c.enumVars := by
  unfold Clause.enumVars
  rw [h.lhs]

theorem eases_singletonize (c : Clause) (value : Expr) : c.Eases (c.singletonize value) :=
  ⟨rfl, fun _ _ => by simp [singletonize, Clause.rate]⟩

theorem eases_adjust (strategy : SelfJoin) (value : Expr) (c : Clause) :
    c.Eases (Join.adjust strategy value c) := by
  cases strategy <;> exact ⟨rfl, fun _ h => h⟩

theorem eases_onRelation (c : Clause) (rel : String) : c.Eases (c.onRelation rel) :=
  ⟨rfl, fun bound _ => memberRate_ne c.lhs bound⟩

theorem require_eq_ok {vs : List Var} (h : vs ⊆ bound) : c.require bound vs = .ok () := by
  unfold require
  have hnone : vs.find? (fun v => !bound.contains v && v ≠ Var.delta) = none :=
    List.find?_eq_none.mpr fun v hv => by simp [h hv]
  rw [hnone]

theorem exists_code (h : c.rate bound ≠ .unrunnable) (body : Code) :
    ∃ code, c.code bound body = .ok code := by
  induction c generalizing body with
  | member lhs rel | mapMember lhs rel n | delta lhs rel value => exact ⟨_, rfl⟩
  | singleton lhs expr =>
    exact ⟨.bind lhs expr body, by rw [code, require_eq_ok (rate_singleton.mp h)]; rfl⟩
  | without inner value ih => exact ih h _
  | withExtra inner value ih =>
    obtain ⟨present, hpresent⟩ := ih h body
    exact ⟨_, by rw [code, hpresent]; rfl⟩
  | demand inner query params ih =>
    obtain ⟨hparams, hinner⟩ := rate_demand_iff.mp h
    obtain ⟨found, hfound⟩ := ih hinner body
    exact ⟨found, by rw [code, require_eq_ok hparams]; exact hfound⟩
  | cond expr => exact ⟨.test expr body, by rw [code, require_eq_ok (rate_cond.mp h)]; rfl⟩

end Clause

theorem append_subset_append_right {bound bound' : List Var} (hsub : bound ⊆ bound')
    (vs : List Var) : bound ++ vs ⊆ bound' ++ vs :=
  List.append_subset.mpr
    ⟨List.Subset.trans hsub (List.subset_append_left ..), List.subset_append_right ..⟩

namespace Join

def Runnable : List Var → Join → Prop
  | _, [] => True
  | bound, c :: rest => c.rate bound ≠ .unrunnable ∧ Runnable (bound ++ c.enumVars) rest

def Orderable (bound : List Var) (j : Join) : Prop := ∃ k : Join, k.Perm j ∧ k.Runnable bound

variable {bound bound' : List Var} {j k : Join} {c : Clause}

theorem Runnable.mono (hsub : bound ⊆ bound') (h : j.Runnable bound) : j.Runnable bound' := by
  induction j generalizing bound bound' with
  | nil => trivial
  | cons c rest ih =>
    exact ⟨Clause.rate_mono hsub h.1, ih (append_subset_append_right hsub _) h.2⟩

theorem Runnable.erase (h : j.Runnable bound) (hc : c ∈ j) :
    Runnable (bound ++ c.enumVars) (j.erase c) := by
  induction j generalizing bound with
  | nil => cases hc
  | cons d rest ih =>
    by_cases hd : d = c
    · subst hd
      rw [List.erase_cons_head]
      exact h.2
    · rw [List.erase_cons_tail (by rwa [beq_iff_eq])]
      have hrest := ih h.2 ((List.mem_cons.mp hc).resolve_left (Ne.symm hd))
      refine ⟨Clause.rate_mono (List.subset_append_left ..) h.1, hrest.mono ?_⟩
      intro v hv
      simp only [List.mem_append] at hv ⊢
      tauto

theorem Runnable.ease (h : j.Runnable bound) (hease : List.Forall₂ Clause.Eases j k) :
    k.Runnable bound := by
  induction hease generalizing bound with
  | nil => trivial
  | cons hcd _ ih => exact ⟨hcd.rate bound h.1, hcd.enumVars ▸ ih h.2⟩

theorem Orderable.mono (hsub : bound ⊆ bound') (h : j.Orderable bound) : j.Orderable bound' := by
  obtain ⟨k, hperm, hrun⟩ := h
  exact ⟨k, hperm, hrun.mono hsub⟩

theorem Orderable.erase (h : j.Orderable bound) (hperm : (c :: k).Perm j) :
    k.Orderable (bound ++ c.enumVars) := by
  obtain ⟨l, hl, hrun⟩ := h
  have hc : c ∈ l := hl.mem_iff.mpr (hperm.mem_iff.mp List.mem_cons_self)
  refine ⟨l.erase c, ?_, hrun.erase hc⟩
  exact ((List.perm_cons_erase hc).symm.trans (hl.trans hperm.symm)).cons_inv

theorem Orderable.cons (hrate : c.rate bound ≠ .unrunnable)
    (h : j.Orderable (bound ++ c.enumVars)) : Orderable bound (c :: j) := by
  obtain ⟨k, hperm, hrun⟩ := h
  exact ⟨c :: k, hperm.cons c, hrate, hrun⟩

theorem Orderable.ease (h : j.Orderable bound) (hease : List.Forall₂ Clause.Eases j k) :
    k.Orderable bound := by
  obtain ⟨l, hperm, hrun⟩ := h
  obtain ⟨l', heases, hperm'⟩ := List.perm_comp_forall₂ hperm hease
  exact ⟨l', hperm', hrun.ease heases⟩

theorem orderable_of_forall (h : ∀ c ∈ j, ∀ bound, c.rate bound ≠ .unrunnable) (bound : List Var) :
    j.Orderable bound := by
  induction j generalizing bound with
  | nil => exact ⟨[], .nil, trivial⟩
  | cons c rest ih =>
    exact Orderable.cons (h c List.mem_cons_self bound)
      (ih (fun d hd => h d (List.mem_cons_of_mem c hd)) _)

theorem forall₂_zipIdx_map {R : Clause → Clause → Prop} {f : Clause × Nat → Clause} (j : Join)
    (h : ∀ c i, R c (f (c, i))) : List.Forall₂ R j (j.zipIdx.map f) := by
  suffices hall : ∀ start, List.Forall₂ R j ((j.zipIdx start).map f) from hall 0
  induction j with
  | nil => exact fun _ => .nil
  | cons c rest ih =>
    intro start
    rw [List.zipIdx_cons, List.map_cons]
    exact .cons (h c start) (ih (start + 1))

theorem Orderable.deltaAt (h : j.Orderable bound) (rel : String) (value : Expr)
    (strategy : SelfJoin) (place : Nat) :
    (j.deltaAt rel value strategy place).Orderable bound := by
  refine h.ease (forall₂_zipIdx_map j fun c i => ?_)
  dsimp only
  split
  · exact c.eases_singletonize value
  · split
    · exact Clause.eases_adjust strategy value c
    · exact .refl c

end Join

namespace Plan

variable {estimate : Estimator} {bound : List Var} {remaining : List (Clause × Nat)}

/-- Steps in a row: each has bound what those before it bind, and can run with that. -/
def Chained : List Var → List Step → Prop
  | _, [] => True
  | bound, s :: rest =>
    s.bound = bound ∧ s.clause.rate bound ≠ .unrunnable ∧ Chained (bound ++ s.clause.enumVars) rest

theorem extend_chained (estimate : Estimator) (n : Nat) (bound : List Var)
    (remaining : List (Clause × Nat)) : Chained bound (extend estimate n bound remaining).steps := by
  induction n generalizing bound remaining with
  | zero => trivial
  | succ n ih =>
    unfold extend
    cases hp : pick estimate bound remaining with
    | none => trivial
    | some c => exact ⟨rfl, (pick_mem hp).2, ih _ _⟩

theorem complete_chained {j : Join} {steps : List Step}
    (h : (ofJoin j bound estimate).complete = .ok steps) : Chained bound steps := by
  obtain ⟨_, rfl⟩ := complete_eq_ok.mp h
  exact extend_chained ..

theorem Chained.runnable {steps : List Step} (h : Chained bound steps) :
    Join.Runnable bound (steps.map (·.clause)) := by
  induction steps generalizing bound with
  | nil => trivial
  | cons s rest ih => exact ⟨h.2.1, ih h.2.2⟩

theorem Candidate.rank_le_of_not_beats {a b : Candidate} (h : ¬ a.beats b = true) :
    b.rate.rank ≤ a.rate.rank := by
  unfold beats at h
  simp only [Bool.or_eq_true, decide_eq_true_eq, not_or, Nat.not_lt] at h
  exact h.1

theorem Candidate.rank_le_of_beats {a b : Candidate} (h : a.beats b = true) :
    a.rate.rank ≤ b.rate.rank := by
  unfold beats at h
  simp only [Bool.or_eq_true, Bool.and_eq_true, decide_eq_true_eq] at h
  rcases h with h | ⟨h, _⟩
  · exact Nat.le_of_lt h
  · exact Nat.le_of_eq (congrArg Rate.rank h)

theorem Candidate.best_rank_le (b : Candidate) (cs : List Candidate) :
    ∀ c ∈ b :: cs, (best b cs).rate.rank ≤ c.rate.rank := by
  unfold best
  induction cs generalizing b with
  | nil => simp
  | cons d cs ih =>
    rw [List.foldl_cons]
    intro c hc
    by_cases hbeats : d.beats b
    · rw [if_pos hbeats]
      rcases List.mem_cons.mp hc with rfl | hc
      · exact Nat.le_trans (ih d d List.mem_cons_self) (rank_le_of_beats hbeats)
      · exact ih d c hc
    · rw [if_neg hbeats]
      rcases List.mem_cons.mp hc with rfl | hc
      · exact ih c c List.mem_cons_self
      · rcases List.mem_cons.mp hc with rfl | hc
        · exact Nat.le_trans (ih b b List.mem_cons_self) (rank_le_of_not_beats hbeats)
        · exact ih b c (List.mem_cons_of_mem b hc)

theorem rate_of_pick_none (h : pick estimate bound remaining = none) {p : Clause × Nat}
    (hp : p ∈ remaining) : p.1.rate bound = .unrunnable := by
  unfold pick at h
  have hin := List.mem_map_of_mem (f := candidate estimate bound) hp
  cases hm : remaining.map (candidate estimate bound) with
  | nil =>
    rw [hm] at hin
    cases hin
  | cons d ds =>
    rw [hm] at h hin
    dsimp only at h
    split at h
    · rename_i hrate
      have hle := Candidate.best_rank_le d ds _ hin
      rw [hrate] at hle
      exact Rate.eq_unrunnable hle
    · cases h

theorem extend_stuck {n : Nat} (nodup : (remaining.map Prod.snd).Nodup)
    (hlength : remaining.length ≤ n) (h : Join.Orderable bound (remaining.map Prod.fst)) :
    (extend estimate n bound remaining).stuck = [] := by
  induction n generalizing bound remaining with
  | zero =>
    have hnil : remaining = [] := List.length_eq_zero_iff.mp (Nat.le_zero.mp hlength)
    rw [hnil]
    rfl
  | succ n ih =>
    unfold extend
    cases hp : pick estimate bound remaining with
    | none =>
      obtain ⟨k, hperm, hrun⟩ := h
      cases k with
      | nil => exact hperm.nil_eq.symm
      | cons c rest =>
        obtain ⟨p, hmem, rfl⟩ := List.mem_map.mp (hperm.mem_iff.mp List.mem_cons_self)
        exact absurd (rate_of_pick_none hp hmem) hrun.1
    | some c =>
      have hperm := perm_cons_eraseP_index nodup (pick_mem hp).1
      refine ih (nodup.sublist (List.eraseP_sublist.map Prod.snd)) ?_ (h.erase (hperm.map Prod.fst))
      have hlen := hperm.length_eq
      rw [List.length_cons] at hlen
      dsimp only at hlen
      omega

/-- A plan is complete exactly if the clauses can be ordered, whatever the estimates. -/
theorem complete_iff {j : Join} :
    (∃ steps, (ofJoin j bound estimate).complete = .ok steps) ↔ j.Orderable bound := by
  constructor
  · rintro ⟨steps, h⟩
    exact ⟨_, complete_perm h, (complete_chained h).runnable⟩
  · intro h
    have hstuck : (ofJoin j bound estimate).stuck = [] :=
      extend_stuck (nodup_places j) (Nat.le_of_eq List.length_zipIdx) (by rwa [List.zipIdx_map_fst])
    exact ⟨_, complete_eq_ok.mpr ⟨hstuck, rfl⟩⟩

theorem not_orderable {j : Join} {stuck : List Clause}
    (h : (ofJoin j bound estimate).complete = .error stuck) : ¬ j.Orderable bound := by
  rw [← complete_iff, h]
  rintro ⟨steps, hsteps⟩
  cases hsteps

theorem Chained.exists_code {steps : List Step} (h : Chained bound steps) (leaf : Code) :
    ∃ code, Plan.code steps leaf = .ok code := by
  induction steps generalizing bound with
  | nil => exact ⟨leaf, rfl⟩
  | cons s rest ih =>
    obtain ⟨inner, hinner⟩ := ih h.2.2
    obtain ⟨code, hcode⟩ := Clause.exists_code (h.1 ▸ h.2.1) inner
    exact ⟨code, by rw [Plan.code, hinner]; exact hcode⟩

end Plan

end ViewUpkeep
