import ViewUpkeep.Session
import ViewUpkeep.Proofs.View

/-!
Propagation keeps the books. While changes of one sign are pending, the counts in the store and the
pending changes together are what the views need over the rows of the store as it is. A step applies
one change and adds those that its handlers record; it keeps this balance, and so a run that ends
leaves counts that are exactly the needs. In this balance a row that is to be removed is there.
-/
namespace ViewUpkeep.Session

def recorded (store : Store) (row : Row) (h : Handler) : List Update :=
  ((h.code.run store row).toOption).getD []

theorem runHandlers_eq_ok {store : Store} {row : Row} {hs : List Handler} {n : Nat}
    {us : List Update} (h : runHandlers store row hs = (n, .ok us)) :
    (∀ d ∈ hs, d.code.run store row = .ok (recorded store row d)) ∧
      us = hs.flatMap (recorded store row) := by
  induction hs generalizing n us with
  | nil =>
    cases h
    simp
  | cons d ds ih =>
    unfold runHandlers at h
    cases hd : d.code.run store row with
    | error e => simp [hd] at h
    | ok vs =>
      rw [hd] at h
      rcases hrest : runHandlers store row ds with ⟨m, e | ws⟩
      · simp [hrest, Except.map] at h
      · rw [hrest] at h
        cases h
        obtain ⟨hall, rfl⟩ := ih hrest
        have hvs : recorded store row d = vs := by simp [recorded, hd, Except.toOption]
        refine ⟨List.forall_mem_cons.mpr ⟨by rw [hd, hvs], hall⟩, ?_⟩
        rw [List.flatMap_cons, hvs]

structure Changed (u : Update) (store store' : Store) : Prop where
  sound : store'.Sound
  infos : store'.infos = store.infos
  added : u.change = .add → ∀ rel row, store'.count rel row =
    store.count rel row + if rel = u.rel ∧ row = u.row then 1 else 0
  removed : u.change = .remove → ∀ rel row, store.count rel row =
    store'.count rel row + if rel = u.rel ∧ row = u.row then 1 else 0

theorem changed_replace {store : Store} (sound : store.Sound)
    (nodup : (store.infos.map (·.name)).Nodup) {u : Update} {r r' : Relation}
    (hget : store.get? u.rel = some r) (h : changed r u = .ok r') :
    Changed u store (store.replace r') := by
  have hname := Store.name_of_get? hget
  have hr := sound.get? hget
  rw [← hname] at hget
  unfold changed at h
  cases hu : u.change with
  | add =>
    rw [hu] at h
    cases h
    have hinfo := r.info_insert u.row
    refine ⟨sound.replace (hr.insert u.row), Store.infos_replace nodup hget hinfo, ?_, by simp [hu]⟩
    intro _ rel row
    rw [Store.count_replace hget hinfo, hr.count_insert]
    by_cases hrel : rel = r.name
    · subst hrel
      rw [if_pos rfl, Store.count_eq hget, hname]
      by_cases hrow : row = u.row <;> simp [hrow]
    · have hne : rel ≠ u.rel := fun he => hrel (he.trans hname.symm)
      simp [hrel, hne]
  | remove =>
    rw [hu] at h
    dsimp only at h
    split at h
    · rename_i s gone hs
      cases h
      obtain ⟨hsound, hinfo, hpos, hcount⟩ := hr.erase? hs
      refine ⟨sound.replace hsound, Store.infos_replace nodup hget hinfo, by simp [hu], ?_⟩
      intro _ rel row
      rw [Store.count_replace hget hinfo, hcount]
      by_cases hrel : rel = r.name
      · subst hrel
        rw [if_pos rfl, Store.count_eq hget, hname]
        by_cases hrow : row = u.row
        · subst hrow
          simp only [and_self, if_true]
          omega
        · simp [hrow]
      · have hne : rel ≠ u.rel := fun he => hrel (he.trans hname.symm)
        simp [hrel, hne]
    · cases h

def storeAt (s s' : Session) : Placement → Store
  | .before => s.store
  | .after => s'.store

structure Step (s : Session) (u : Update) (s' : Session) (us : List Update) : Prop where
  program : s'.program = s.program
  demands : s'.demands = s.demands
  poisoned : s'.poisoned = s.poisoned
  changed : Changed u s.store s'.store
  follows :
    (us = [] ∧ (u.change = .add → 0 < s.store.count u.rel u.row) ∧
      (u.change = .remove → 1 < s.store.count u.rel u.row)) ∨
    (us = (s.handlersOf u .before).flatMap (recorded s.store u.row) ++
        (s.handlersOf u .after).flatMap (recorded s'.store u.row) ∧
      (∀ p, ∀ h ∈ s.handlersOf u p,
        h.code.run (storeAt s s' p) u.row = .ok (recorded (storeAt s s' p) u.row h)) ∧
      (u.change = .add → s.store.count u.rel u.row = 0) ∧
      (u.change = .remove → s.store.count u.rel u.row = 1))

theorem follow_eq_ok {s s' : Session} {row : Row} {hs : List Handler} {us : List Update}
    (h : s.follow row hs = (s', .ok us)) :
    ∃ n, runHandlers s.store row hs = (n, .ok us) ∧ s' = s.countRuns n := by
  unfold follow at h
  split at h
  · rename_i hr
    cases h
    exact ⟨_, hr, rfl⟩
  · cases h

theorem put_eq_ok {s s' : Session} {r : Relation} {u : Update} (h : s.put r u = (s', .ok ())) :
    ∃ r', Session.changed r u = .ok r' ∧ s' = { s with store := s.store.replace r' } := by
  unfold put at h
  split at h
  · rename_i r' hr
    cases h
    exact ⟨r', hr, rfl⟩
  · cases h

theorem applyTransition_eq_ok {s s' : Session} {r : Relation} {u : Update} {us : List Update}
    (h : s.applyTransition r u = (s', .ok us)) :
    ∃ n m r' bs cs, Session.changed r u = .ok r' ∧
      s' = { s.countRuns n with store := s.store.replace r' }.countRuns m ∧
      runHandlers s.store u.row (s.handlersOf u .before) = (n, .ok bs) ∧
      runHandlers s'.store u.row (s.handlersOf u .after) = (m, .ok cs) ∧ us = bs ++ cs := by
  unfold applyTransition at h
  split at h
  · cases h
  · rename_i s₁ bs hb
    obtain ⟨n, hn, rfl⟩ := follow_eq_ok hb
    split at h
    · cases h
    · rename_i s₂ hput
      obtain ⟨r', hr', rfl⟩ := put_eq_ok hput
      split at h
      · cases h
      · rename_i s₃ cs hc
        obtain ⟨m, hm, rfl⟩ := follow_eq_ok hc
        cases h
        exact ⟨n, m, r', bs, cs, hr', rfl, hn, hm, rfl⟩

theorem apply_step {s s' : Session} {u : Update} {us : List Update} (sound : s.store.Sound)
    (nodup : (s.store.infos.map (·.name)).Nodup) (h : s.apply u = (s', .ok us)) :
    Step s u s' us := by
  unfold apply at h
  split at h
  · cases h
  · rename_i r hget
    have hcount := Store.count_eq hget u.row
    split at h
    · cases h
    · rename_i hbreach
      dsimp only at h
      split at h
      · rename_i ht
        obtain ⟨n, m, r', bs, cs, hr', hs', hb, hc, rfl⟩ := applyTransition_eq_ok h
        obtain ⟨hball, rfl⟩ := runHandlers_eq_ok hb
        obtain ⟨hcall, rfl⟩ := runHandlers_eq_ok hc
        have hstore : s'.store = s.store.replace r' := by rw [hs']; rfl
        refine ⟨by rw [hs']; rfl, by rw [hs']; rfl, by rw [hs']; rfl, ?_, .inr ⟨rfl, ?_, ?_, ?_⟩⟩
        · rw [hstore]
          exact changed_replace sound nodup hget hr'
        · intro p
          cases p with
          | before => exact hball
          | after => exact hcall
        · intro hu
          rw [hcount]
          simpa [isTransition, hu] using ht
        · intro hu
          rw [hcount]
          simpa [isTransition, hu] using ht
      · rename_i ht
        split at h
        · cases h
        · rename_i s₁ hput
          obtain ⟨r', hr', rfl⟩ := put_eq_ok hput
          cases h
          have hchanged := changed_replace sound nodup hget hr'
          refine ⟨rfl, rfl, rfl, hchanged, .inl ⟨rfl, ?_, ?_⟩⟩
          · intro hu
            rw [hcount]
            have hne : r.count u.row ≠ 0 := by simpa [isTransition, hu] using ht
            omega
          · intro hu
            have hne : s.store.count u.rel u.row ≠ 1 := by
              rw [hcount]
              simpa [isTransition, hu] using ht
            have hpos := hchanged.removed hu u.rel u.row
            simp only [and_self, if_true] at hpos
            omega

theorem apply_breach {s s' : Session} {u : Update} {b : Breach}
    (h : s.apply u = (s', .error (.breach b))) :
    ∃ r, s.store.get? u.rel = some r ∧
      (breach? r u = some b ∨ Session.changed r u = .error b) := by
  obtain ⟨x, hx⟩ | ⟨b, r, hb, hr⟩ := apply_error h
  · cases hx
  · cases hb
    exact ⟨r, hr⟩

theorem settle_cases (s : Session) (us : List Update) :
    (∃ n, (propagate n s us).2 ≠ .error .exhausted ∧ s.settle us = propagate n s us) ∨
      (∀ n, (propagate n s us).2 = .error .exhausted) ∧ s.settle us = (s, .error .exhausted) := by
  by_cases hends : ∃ n, (propagate n s us).2 ≠ .error .exhausted
  · obtain ⟨n, hn⟩ := hends
    exact .inl ⟨n, hn, settle_eq hn⟩
  · rw [not_exists] at hends
    have hall : ∀ n, (propagate n s us).2 = .error .exhausted := fun n => not_not.mp (hends n)
    refine .inr ⟨hall, ?_⟩
    have hnone : (s.loop us).1 = none := by
      refine Option.eq_none_iff_forall_ne_some.mpr fun r hr => ?_
      obtain ⟨n, rfl, hn⟩ := (s.loop us).2.within r hr
      exact hn (hall n)
    unfold settle
    split
    · rw [hnone, Option.getD_none]
    · rename_i hnot
      exact (hnot _ (Prod.ext rfl (hall firstLimit))).elim

theorem mem_handlersOf {s : Session} {u : Update} {p : Placement} {h : Handler} :
    h ∈ s.handlersOf u p ↔ h ∈ s.program.handlers ∧ h.rel = u.rel ∧ h.change = u.change ∧
      h.placement = p := by
  unfold handlersOf Program.handlersFor
  cases p <;> simp only [List.mem_reverse, List.mem_filter, Bool.and_eq_true, decide_eq_true_eq] <;>
    tauto

theorem recorded_perm (s s' : Session) (u : Update) :
    ((s.handlersOf u .before).flatMap (recorded s.store u.row) ++
        (s.handlersOf u .after).flatMap (recorded s'.store u.row)).Perm
      ((s.program.handlers.filter fun h => h.rel = u.rel && h.change = u.change).flatMap
        fun h => recorded (storeAt s s' h.placement) u.row h) := by
  have hbefore : (s.handlersOf u .before).flatMap (recorded s.store u.row) =
      (s.handlersOf u .before).flatMap fun h => recorded (storeAt s s' h.placement) u.row h := by
    refine List.flatMap_congr fun h hh => ?_
    rw [(mem_handlersOf.mp hh).2.2.2]
    rfl
  have hafter : (s.handlersOf u .after).flatMap (recorded s'.store u.row) =
      (s.handlersOf u .after).flatMap fun h => recorded (storeAt s s' h.placement) u.row h := by
    refine List.flatMap_congr fun h hh => ?_
    rw [(mem_handlersOf.mp hh).2.2.2]
    rfl
  have hsplit : (s.handlersOf u .before ++ s.handlersOf u .after).Perm
      (s.program.handlers.filter fun h => h.rel = u.rel && h.change = u.change) := by
    unfold handlersOf Program.handlersFor
    dsimp only
    rw [List.filter_filter, List.filter_filter]
    have hperm := List.filter_append_perm (fun h : Handler => decide (h.placement = .before))
      (s.program.handlers.filter fun h => h.rel = u.rel && h.change = u.change)
    rw [List.filter_filter, List.filter_filter] at hperm
    refine (List.Perm.append (.of_eq ?_) ((List.reverse_perm _).trans (.of_eq ?_))).trans hperm
    · refine List.filter_congr fun h _ => ?_
      rw [Bool.eq_iff_iff]
      simp only [Bool.and_eq_true, decide_eq_true_eq]
      tauto
    · refine List.filter_congr fun h _ => ?_
      have hp : (h.placement = .after) ↔ ¬ h.placement = .before := by
        cases h.placement <;> simp
      rw [Bool.eq_iff_iff]
      simp only [Bool.and_eq_true, decide_eq_true_eq, hp, Bool.not_eq_true',
        decide_eq_false_iff_not]
      tauto
  rw [hbefore, hafter, ← List.flatMap_append]
  exact hsplit.flatMap_right _

/-- The books while changes of one sign are pending: counts and pending additions are what the views
need and the pending removals. -/
structure Balanced (s : Session) (outside : String → Row → Nat) (change : Change)
    (us : List Update) : Prop where
  signs : ∀ u ∈ us, u.change = change
  sums : ∀ rel row, (s.store.count rel row + us.count ⟨rel, .add, row⟩ : ℕ∞) =
    s.program.need s.store.Has outside rel row + us.count ⟨rel, .remove, row⟩

structure BalancedOn (E : String → Prop) (s : Session) (outside : String → Row → Nat)
    (change : Change) (us : List Update) : Prop where
  signs : ∀ u ∈ us, u.change = change
  sums : ∀ rel, E rel → ∀ row, (s.store.count rel row + us.count ⟨rel, .add, row⟩ : ℕ∞) =
    s.program.need s.store.Has outside rel row + us.count ⟨rel, .remove, row⟩

theorem balanced_iff {s : Session} {outside : String → Row → Nat} {change : Change}
    {us : List Update} :
    s.Balanced outside change us ↔ s.BalancedOn (fun _ => True) outside change us :=
  ⟨fun h => ⟨h.signs, fun rel _ => h.sums rel⟩, fun h => ⟨h.signs, fun rel => h.sums rel trivial⟩⟩

theorem has_congr {store store' : Store} (sound : store.Sound) (sound' : store'.Sound)
    (h : ∀ rel row, 0 < store.count rel row ↔ 0 < store'.count rel row) :
    store.Has = store'.Has := by
  funext rel row
  rw [← propext (sound.count_pos_iff rel row), ← propext (sound'.count_pos_iff rel row), h]

theorem has_insert {store store' : Store} (sound : store.Sound) (sound' : store'.Sound)
    {u : Update} (h : ∀ rel row, store'.count rel row =
      store.count rel row + if rel = u.rel ∧ row = u.row then 1 else 0) :
    store'.Has = store.Has.insert u.rel u.row := by
  funext rel row
  unfold Facts.insert
  rw [← propext (sound.count_pos_iff rel row), ← propext (sound'.count_pos_iff rel row), h]
  by_cases hu : rel = u.rel ∧ row = u.row
  · simp [hu]
  · simp [hu]

theorem Step.exists_small {s s' : Session} {u : Update} {us : List Update} (step : Step s u s' us)
    (sound : s.store.Sound) (hadd : u.change = .add → s.store.count u.rel u.row = 0)
    (hremove : u.change = .remove → s.store.count u.rel u.row = 1) :
    ∃ small : Facts, ¬ small u.rel u.row ∧
      (∀ strategy : SelfJoin, (storeAt s s' (strategy.placement u.change)).Has =
        strategy.facts small u.rel u.row) ∧
      (u.change = .add → s.store.Has = small ∧ s'.store.Has = small.insert u.rel u.row) ∧
      (u.change = .remove → s'.store.Has = small ∧ s.store.Has = small.insert u.rel u.row) := by
  have sound' := step.changed.sound
  cases hu : u.change with
  | add =>
    have hbig := has_insert sound sound' (step.changed.added hu)
    refine ⟨s.store.Has, ?_, ?_, fun _ => ⟨rfl, hbig⟩, by simp⟩
    · rw [← sound.count_pos_iff, hadd hu]
      exact Nat.lt_irrefl 0
    · intro strategy
      cases strategy <;> simp [SelfJoin.placement, SelfJoin.facts, storeAt, hbig]
  | remove =>
    have hbig := has_insert sound' sound (step.changed.removed hu)
    refine ⟨s'.store.Has, ?_, ?_, by simp, fun _ => ⟨rfl, hbig⟩⟩
    · have hcount := step.changed.removed hu u.rel u.row
      rw [hremove hu] at hcount
      simp only [and_self, if_true] at hcount
      rw [← sound'.count_pos_iff]
      omega
    · intro strategy
      cases strategy <;> simp [SelfJoin.placement, SelfJoin.facts, storeAt, hbig]

theorem count_cons_update (u : Update) (rest : List Update) (rel : String) (change : Change)
    (row : Row) : (u :: rest).count ⟨rel, change, row⟩ = rest.count ⟨rel, change, row⟩ +
      if u.change = change then (if rel = u.rel ∧ row = u.row then 1 else 0) else 0 := by
  rw [List.count_cons]
  congr 1
  obtain ⟨r, c, x⟩ := u
  by_cases hc : c = change
  · have heq : (⟨r, c, x⟩ : Update) = ⟨rel, change, row⟩ ↔ rel = r ∧ row = x := by
      rw [Update.mk.injEq, eq_comm (a := r), eq_comm (a := x)]
      exact ⟨fun h => ⟨h.1, h.2.2⟩, fun h => ⟨h.1, hc, h.2⟩⟩
    simp [hc, ← heq]
  · simp [hc]

/-- What a step records accounts for the difference that it makes to the needs of a relation whose
writers are exact. -/
theorem Step.count_recorded {s s' : Session} {u : Update} {us : List Update} {estimate : Estimator}
    (step : Step s u s' us) (handled : s.program.Handled estimate) (sound : s.store.Sound)
    (outside : String → Row → Nat) :
    (∀ v ∈ us, v.change = u.change) ∧
    (u.change = .add → ∀ rel, (∀ v ∈ s.program.writers rel, v.Exact) → ∀ row,
      us.count ⟨rel, .add, row⟩ + s.program.need s.store.Has outside rel row =
        s.program.need s'.store.Has outside rel row) ∧
    (u.change = .remove → ∀ rel, (∀ v ∈ s.program.writers rel, v.Exact) → ∀ row,
      us.count ⟨rel, .remove, row⟩ + s.program.need s'.store.Has outside rel row =
        s.program.need s.store.Has outside rel row) := by
  have sound' := step.changed.sound
  rcases step.follows with ⟨rfl, hadd, hremove⟩ | ⟨rfl, hrun, hadd, hremove⟩
  · refine ⟨by simp, ?_, ?_⟩
    · intro hu rel _ row
      have hsame : s.store.Has = s'.store.Has := by
        refine has_congr sound sound' fun rel row => ?_
        rw [step.changed.added hu rel row]
        have hpos := hadd hu
        by_cases hr : rel = u.rel ∧ row = u.row
        · rw [hr.1, hr.2]
          simp only [and_self, if_true]
          omega
        · simp [hr]
      rw [hsame]
      simp
    · intro hu rel _ row
      have hsame : s.store.Has = s'.store.Has := by
        refine has_congr sound sound' fun rel row => ?_
        have hcount := step.changed.removed hu rel row
        have hpos := hremove hu
        by_cases hr : rel = u.rel ∧ row = u.row
        · rw [hr.1, hr.2] at hcount ⊢
          simp only [and_self, if_true] at hcount
          omega
        · simp only [hr, if_false] at hcount
          omega
      rw [hsame]
      simp
  · obtain ⟨small, absent, hfacts, hgrow, hshrink⟩ := step.exists_small sound hadd hremove
    have hsound : ∀ p, (storeAt s s' p).Sound := by
      intro p
      cases p with
      | before => exact sound
      | after => exact sound'
    have hout : ∀ h ∈ s.program.handlers, h.rel = u.rel → h.change = u.change →
        h.code.run (storeAt s s' h.placement) u.row =
          .ok (recorded (storeAt s s' h.placement) u.row h) := by
      intro h hh hr hc
      exact hrun h.placement h (mem_handlersOf.mpr ⟨hh, hr, hc, rfl⟩)
    have hperm := recorded_perm s s' u
    refine ⟨?_, ?_, ?_⟩
    · intro v hv
      exact handled.change_emitted absent hsound hfacts hout v (hperm.mem_iff.mp hv)
    · intro hu rel exact row
      obtain ⟨hs, hs'⟩ := hgrow hu
      rw [hs, hs', ← handled.count_emitted absent hsound hfacts hout outside exact,
        hperm.count_eq, hu]
    · intro hu rel exact row
      obtain ⟨hs, hs'⟩ := hshrink hu
      rw [hs, hs', ← handled.count_emitted absent hsound hfacts hout outside exact,
        hperm.count_eq, hu]

theorem count_eq_zero_of_sign {us : List Update} {change : Change} (h : ∀ u ∈ us, u.change = change)
    {other : Change} (hne : change ≠ other) (rel : String) (row : Row) :
    us.count ⟨rel, other, row⟩ = 0 :=
  List.count_eq_zero.mpr fun hu => hne (h _ hu).symm

theorem Step.balancedOn {s s' : Session} {u : Update} {us rest : List Update} {estimate : Estimator}
    {E : String → Prop} {outside : String → Row → Nat} {change : Change} (step : Step s u s' us)
    (handled : s.program.Handled estimate)
    (exact : ∀ rel, E rel → ∀ v ∈ s.program.writers rel, v.Exact) (sound : s.store.Sound)
    (h : s.BalancedOn E outside change (u :: rest)) :
    s'.BalancedOn E outside change (us ++ rest) := by
  obtain ⟨hsigns, hadd, hremove⟩ := step.count_recorded handled sound outside
  have hu : u.change = change := h.signs u List.mem_cons_self
  refine ⟨?_, ?_⟩
  · intro v hv
    rcases List.mem_append.mp hv with hv | hv
    · rw [hsigns v hv, hu]
    · exact h.signs v (List.mem_cons_of_mem u hv)
  · intro rel hrel row
    have hsum := h.sums rel hrel row
    rw [count_cons_update, count_cons_update, hu] at hsum
    rw [List.count_append, List.count_append, step.program]
    cases change with
    | add =>
      have hnone : us.count ⟨rel, .remove, row⟩ = 0 :=
        count_eq_zero_of_sign hsigns (by simp [hu]) ..
      simp only [if_true, if_neg (show ¬ Change.add = .remove by simp), add_zero] at hsum
      rw [step.changed.added hu, hnone, ← hadd hu rel (exact rel hrel) row, zero_add]
      push_cast at hsum ⊢
      rw [add_assoc (us.count ⟨rel, .add, row⟩ : ℕ∞), ← hsum]
      ac_rfl
    | remove =>
      have hnone : us.count ⟨rel, .add, row⟩ = 0 := count_eq_zero_of_sign hsigns (by simp [hu]) ..
      simp only [if_true, if_neg (show ¬ Change.remove = .add by simp), add_zero] at hsum
      rw [step.changed.removed hu, ← hremove hu rel (exact rel hrel) row] at hsum
      rw [hnone, zero_add]
      push_cast at hsum ⊢
      have hfin : (if rel = u.rel ∧ row = u.row then 1 else 0 : ℕ∞) ≠ ⊤ := by split <;> simp
      generalize (if rel = u.rel ∧ row = u.row then 1 else 0 : ℕ∞) = one at hsum hfin
      refine ENat.add_left_injective_of_ne_top hfin ?_
      calc (s'.store.count rel row + rest.count ⟨rel, .add, row⟩ : ℕ∞) + one
          = s'.store.count rel row + one + rest.count ⟨rel, .add, row⟩ := by ac_rfl
        _ = us.count ⟨rel, .remove, row⟩ + s.program.need s'.store.Has outside rel row +
            (rest.count ⟨rel, .remove, row⟩ + one) := hsum
        _ = s.program.need s'.store.Has outside rel row +
            (us.count ⟨rel, .remove, row⟩ + rest.count ⟨rel, .remove, row⟩) + one := by ac_rfl

theorem Step.balanced {s s' : Session} {u : Update} {us rest : List Update} {estimate : Estimator}
    {outside : String → Row → Nat} {change : Change} (step : Step s u s' us)
    (follows : s.program.Follows estimate) (sound : s.store.Sound)
    (h : s.Balanced outside change (u :: rest)) : s'.Balanced outside change (us ++ rest) :=
  balanced_iff.mpr (step.balancedOn follows.handled (fun rel _ => follows.writers_exact rel) sound
    (balanced_iff.mp h))

structure Frame (s s' : Session) : Prop where
  program : s'.program = s.program
  demands : s'.demands = s.demands
  poisoned : s'.poisoned = s.poisoned
  infos : s'.store.infos = s.store.infos

theorem Frame.refl (s : Session) : Frame s s := ⟨rfl, rfl, rfl, rfl⟩

theorem Frame.trans {s t u : Session} (h : Frame s t) (k : Frame t u) : Frame s u :=
  ⟨k.program.trans h.program, k.demands.trans h.demands, k.poisoned.trans h.poisoned,
    k.infos.trans h.infos⟩

theorem Step.frame {s s' : Session} {u : Update} {us : List Update} (step : Step s u s' us) :
    Frame s s' :=
  ⟨step.program, step.demands, step.poisoned, step.changed.infos⟩

theorem propagate_balancedOn {estimate : Estimator} {E : String → Prop}
    {outside : String → Row → Nat} {change : Change} {n : Nat} {s s' : Session} {us : List Update}
    (handled : s.program.Handled estimate)
    (exact : ∀ rel, E rel → ∀ v ∈ s.program.writers rel, v.Exact) (sound : s.store.Sound)
    (nodup : (s.store.infos.map (·.name)).Nodup) (balanced : s.BalancedOn E outside change us)
    (h : propagate n s us = (s', .ok ())) :
    Frame s s' ∧ s'.store.Sound ∧ s'.BalancedOn E outside change [] := by
  induction n generalizing s us with
  | zero =>
    cases us with
    | nil =>
      cases h
      exact ⟨.refl _, sound, balanced⟩
    | cons u rest => cases h
  | succ n ih =>
    cases us with
    | nil =>
      cases h
      exact ⟨.refl _, sound, balanced⟩
    | cons u rest =>
      rw [propagate] at h
      split at h
      · cases h
      · rename_i s₁ vs happly
        have step := apply_step sound nodup happly
        have hnodup : (s₁.store.infos.map (·.name)).Nodup := by rwa [step.changed.infos]
        obtain ⟨hframe, hrest⟩ := ih (by rwa [step.program]) (by rwa [step.program])
          step.changed.sound hnodup (step.balancedOn handled exact sound balanced) h
        exact ⟨step.frame.trans hframe, hrest⟩

/-- A run that ends leaves the books balanced with nothing pending. -/
theorem propagate_balanced {estimate : Estimator} {outside : String → Row → Nat} {change : Change}
    {n : Nat} {s s' : Session} {us : List Update} (follows : s.program.Follows estimate)
    (sound : s.store.Sound) (nodup : (s.store.infos.map (·.name)).Nodup)
    (balanced : s.Balanced outside change us) (h : propagate n s us = (s', .ok ())) :
    Frame s s' ∧ s'.store.Sound ∧ s'.Balanced outside change [] := by
  rw [balanced_iff] at balanced ⊢
  exact propagate_balancedOn follows.handled (fun rel _ => follows.writers_exact rel) sound nodup
    balanced h

/-- Relations that do not count their rows never need a row twice. -/
def Plainly (p : Program) (infos : List RelationInfo) (outside : String → Row → Nat) : Prop :=
  ∀ facts, ∀ info ∈ infos, info.counted = false → ∀ row, p.need facts outside info.name row ≤ 1

theorem apply_ne_breach {outside : String → Row → Nat} {change : Change} {s s' : Session}
    {u : Update} {rest : List Update} (plain : Plainly s.program s.store.infos outside)
    (balanced : s.Balanced outside change (u :: rest)) (b : Breach) :
    s.apply u ≠ (s', .error (.breach b)) := by
  intro h
  obtain ⟨r, hget, hb⟩ := apply_breach h
  have hsum := balanced.sums u.rel u.row
  rw [Store.count_eq hget, count_cons_update, count_cons_update] at hsum
  have hu : u.change = change := balanced.signs u List.mem_cons_self
  have hrest : ∀ v ∈ rest, v.change = change :=
    fun v hv => balanced.signs v (List.mem_cons_of_mem u hv)
  cases change with
  | add =>
    -- The row is pending, so that the relation lacks it as far as it needs it.
    rcases hb with hb | hb
    · simp only [breach?, hu] at hb
      split at hb
      · cases hb
      · rename_i hcounted
        have hinfo : r.info ∈ s.store.infos := List.mem_map_of_mem (Store.mem_of_get? hget)
        have hone := plain s.store.Has r.info hinfo (by simpa using hcounted) u.row
        have hname : r.info.name = u.rel := Store.name_of_get? hget
        rw [hname] at hone
        rw [count_eq_zero_of_sign hrest (by simp : Change.add ≠ .remove)] at hsum
        simp only [hu, if_true, and_self, if_neg (show ¬ Change.add = .remove by simp), add_zero,
          Nat.cast_zero] at hsum
        rw [← hsum] at hone
        have hle : r.count u.row + (rest.count ⟨u.rel, .add, u.row⟩ + 1) ≤ 1 := by
          exact_mod_cast hone
        split at hb
        · omega
        · cases hb
    · simp [changed, hu] at hb
  | remove =>
    have hpos : 0 < r.count u.row := by
      rw [count_eq_zero_of_sign hrest (by simp : Change.remove ≠ .add)] at hsum
      simp only [hu, if_true, and_self, if_neg (show ¬ Change.remove = .add by simp), add_zero,
        Nat.cast_zero] at hsum
      have hle : ((rest.count ⟨u.rel, .remove, u.row⟩ + 1 : Nat) : ℕ∞) ≤ (r.count u.row : ℕ∞) := by
        rw [hsum]
        exact le_add_self
      have hle' : rest.count ⟨u.rel, .remove, u.row⟩ + 1 ≤ r.count u.row := by exact_mod_cast hle
      omega
    rcases hb with hb | hb
    · simp only [breach?, hu] at hb
      split at hb
      · cases hb
      · rw [if_neg (by omega)] at hb
        cases hb
    · simp only [changed, hu] at hb
      split at hb
      · cases hb
      · rename_i hnone
        have := (r.erase?_eq_none_iff u.row).mp hnone
        omega

theorem propagate_ne_breach {estimate : Estimator} {outside : String → Row → Nat} {change : Change}
    {n : Nat} {s s' : Session} {us : List Update} (follows : s.program.Follows estimate)
    (sound : s.store.Sound) (nodup : (s.store.infos.map (·.name)).Nodup)
    (plain : Plainly s.program s.store.infos outside) (balanced : s.Balanced outside change us)
    (b : Breach) : propagate n s us ≠ (s', .error (.breach b)) := by
  induction n generalizing s us with
  | zero => cases us <;> simp [propagate]
  | succ n ih =>
    cases us with
    | nil => simp
    | cons u rest =>
      rw [propagate]
      split
      · rename_i s₁ e happly
        rintro ⟨⟩
        exact apply_ne_breach plain balanced b happly
      · rename_i s₁ vs happly
        have step := apply_step sound nodup happly
        have hfollows : s₁.program.Follows estimate := by rwa [step.program]
        have hnodup : (s₁.store.infos.map (·.name)).Nodup := by rwa [step.changed.infos]
        have hplain : Plainly s₁.program s₁.store.infos outside := by
          rwa [step.program, step.changed.infos]
        exact ih hfollows step.changed.sound hnodup hplain (step.balanced follows sound balanced)

theorem settle_of_change {s t : Session} {u : Update} (h : s.change u = (t, .ok ())) :
    s.settle [u] = (t, .ok ()) := by
  unfold change at h
  split at h
  · cases h
  · rename_i hrun
    split at h <;> cases h
    exact hrun

theorem propagate_of_change {s t : Session} {u : Update} (h : s.change u = (t, .ok ())) :
    ∃ n, propagate n s [u] = (t, .ok ()) := by
  obtain ⟨n, hn⟩ := s.exists_settle_eq [u]
  exact ⟨n, hn.symm.trans (settle_of_change h)⟩

end ViewUpkeep.Session
