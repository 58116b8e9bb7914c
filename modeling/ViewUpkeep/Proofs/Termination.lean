import Mathlib.Algebra.BigOperators.Finprod
import ViewUpkeep.Proofs.Derivation

/-!
Propagation comes to an end. Removals take from the counts of the store with every step. Additions
either find their row present, and lead to nothing else, or add one of the finitely many rows that
can follow from the rows that there are. So the changes that an operation starts are worked off, or
an error stops them, after finitely many steps.
-/
namespace ViewUpkeep

/-! ### What handlers record -/

namespace Handler

variable {c : Comprehension} {small : Facts} {rel : String} {row : Row} {store : Store}
  {strategy : SelfJoin} {estimate : Estimator}

theorem make_recorded (proper : c.Proper) (absent : ¬ small rel row) (sound : store.Sound)
    (hfacts : store.Has = strategy.facts small rel row) {target : String} {change : Change}
    {h : Handler} (hmake : make c target rel change strategy estimate = .ok h) {us : List Update}
    (hrun : h.code.run store row = .ok us) :
    ∀ u ∈ us, u.rel = target ∧ u.change = change ∧ c.Yields (small.insert rel row) u.row := by
  obtain ⟨bs, hall, hrow, hperm⟩ := make_witnesses proper absent sound hfacts hmake hrun
  intro u hu
  obtain ⟨b, hb, rfl⟩ := List.mem_map.mp (hperm.mem_iff.mp hu)
  exact ⟨rfl, rfl, c.bindings b, (hall b hb).2, hrow b hb⟩

end Handler

namespace Session

variable {o : Compile.Options} {d : Declarations} {p : Program} {s s' : Session} {u : Update}
  {us : List Update}

theorem Step.recorded_yields (step : Step s u s' us) (built : Compile.Built o d p) (sound : d.Sound)
    (hprogram : s.program = p) (hstore : s.store.Sound) {w : Update} (hw : w ∈ us) :
    w.change = u.change ∧ ∃ v ∈ p.views, v.target = w.rel ∧ ∃ facts,
      v.spec.Yields facts w.row ∧ (u.change = .add → s'.store.Has = facts) := by
  have sound' := step.changed.sound
  rcases step.follows with ⟨rfl, _⟩ | ⟨rfl, hrun, hadd, hremove⟩
  · cases hw
  obtain ⟨small, absent, hfacts, hgrow, _⟩ := step.exists_small hstore hadd hremove
  obtain ⟨h, hh, hw⟩ := List.mem_flatMap.mp ((recorded_perm s s' u).mem_iff.mp hw)
  obtain ⟨hh, hkey⟩ := List.mem_filter.mp hh
  have hrel : h.rel = u.rel := by simpa using (Bool.and_eq_true_iff.mp hkey).1
  have hchange : h.change = u.change := by simpa using (Bool.and_eq_true_iff.mp hkey).2
  have hran := hrun h.placement h (mem_handlersOf.mpr ⟨hh, hrel, hchange, rfl⟩)
  obtain ⟨v, hv, _, hmake⟩ := built.handler_made (hprogram ▸ hh)
  rw [hrel, hchange] at hmake
  obtain ⟨_, _, _, hplacement, _⟩ := Handler.make_eq_ok hmake
  have hat : (storeAt s s' h.placement).Sound := by
    cases h.placement with
    | before => exact hstore
    | after => exact sound'
  obtain ⟨htarget, hsign, hyields⟩ := Handler.make_recorded (built.views_proper sound v hv)
    absent hat (hplacement ▸ hfacts v.strategy) hmake hran w hw
  exact ⟨hsign, v, hv, htarget.symm, _, hyields, fun hu => (hgrow hu).2⟩

theorem Step.recorded_views (step : Step s u s' us) (built : Compile.Built o d p) (sound : d.Sound)
    (hprogram : s.program = p) (hstore : s.store.Sound) :
    (∀ w ∈ us, w.change = u.change) ∧
      (u.change = .add → ∀ w ∈ us, ∃ v ∈ p.views, v.target = w.rel ∧
        v.spec.Yields s'.store.Has w.row) := by
  have hall := fun w (hw : w ∈ us) => step.recorded_yields built sound hprogram hstore hw
  refine ⟨fun w hw => (hall w hw).1, fun hu w hw => ?_⟩
  obtain ⟨_, v, hv, htarget, facts, hyields, hfacts⟩ := hall w hw
  exact ⟨v, hv, htarget, hfacts hu ▸ hyields⟩

/-! ### The state of a session between operations -/

structure Formed (p : Program) (s : Session) : Prop where
  program : s.program = p
  infos : s.store.infos = p.catalog
  sound : s.store.Sound

theorem ofProgram_formed (nodup : (p.catalog.map (·.name)).Nodup) : (ofProgram p).Formed p := by
  obtain ⟨hsound, hinfos, _⟩ := Store.declared nodup p.indices
  exact ⟨rfl, hinfos, hsound⟩

theorem Formed.nodup (formed : s.Formed p) (nodup : (p.catalog.map (·.name)).Nodup) :
    (s.store.infos.map (·.name)).Nodup := formed.infos ▸ nodup

theorem Step.formed (step : Step s u s' us) (formed : s.Formed p) : s'.Formed p :=
  ⟨step.program.trans formed.program, step.changed.infos.trans formed.infos, step.changed.sound⟩

theorem Formed.setDemand (formed : s.Formed p) (query : String) (params : Row) (n : Nat) :
    (s.setDemand query params n).Formed p := ⟨formed.program, formed.infos, formed.sound⟩

theorem Formed.propagate (nodup : (p.catalog.map (·.name)).Nodup) (formed : s.Formed p) {n : Nat}
    (h : propagate n s us = (s', .ok ())) : s'.Formed p := by
  induction n generalizing s us with
  | zero =>
    cases us with
    | nil =>
      cases h
      exact formed
    | cons u rest => cases h
  | succ n ih =>
    cases us with
    | nil =>
      cases h
      exact formed
    | cons u rest =>
      simp only [Session.propagate] at h
      split at h
      · cases h
      · rename_i happly
        exact ih ((apply_step formed.sound (formed.nodup nodup) happly).formed formed) h

/-! ### Changes that are worked off -/

def Halts (s : Session) (us : List Update) : Prop :=
  ∃ n, (propagate n s us).2 ≠ .error .exhausted

theorem halts_nil (s : Session) : s.Halts [] := ⟨0, by simp⟩

theorem halts_cons {rest : List Update}
    (h : ∀ s' us, s.apply u = (s', .ok us) → s'.Halts (us ++ rest)) : s.Halts (u :: rest) := by
  rcases happly : s.apply u with ⟨s', e | us⟩
  · refine ⟨1, ?_⟩
    simpa [propagate, happly] using ne_exhausted_of_apply happly
  · obtain ⟨n, hn⟩ := h s' us happly
    refine ⟨n + 1, ?_⟩
    simp only [propagate, happly]
    exact hn

end Session

/-! ### Removals -/

namespace Store

theorem has_finite (s : Store) : {x : String × Row | s.Has x.1 x.2}.Finite := by
  have hrows : {x : String × Row | ∃ r ∈ s.relations,
      x ∈ Prod.mk r.name '' {row | row ∈ r.toList}}.Finite :=
    finite_of_forall_mem fun r _ => (List.finite_toSet r.toList).image _
  refine hrows.subset ?_
  rintro ⟨rel, row⟩ hrow
  cases hget : s.get? rel with
  | none =>
    have hnone : s.contains rel row = true := hrow
    simp [contains, hget] at hnone
  | some r =>
    exact ⟨r, mem_of_get? hget, row, (has_iff hget row).mp hrow, by rw [name_of_get? hget]⟩

noncomputable def total (s : Store) : Nat := ∑ᶠ x : String × Row, s.count x.1 x.2

theorem total_of_removed {u : Update} {store store' : Store}
    (changed : Session.Changed u store store') (hu : u.change = .remove) :
    store.total = store'.total + 1 := by
  have hsupport : (Function.support fun x : String × Row => store'.count x.1 x.2).Finite := by
    refine store'.has_finite.subset fun x hx => ?_
    exact (changed.sound.count_pos_iff x.1 x.2).mp (Nat.pos_of_ne_zero hx)
  have hone : (Function.support fun x : String × Row =>
      if x.1 = u.rel ∧ x.2 = u.row then 1 else 0).Finite := by
    refine (Set.finite_singleton (u.rel, u.row)).subset fun x hx => ?_
    by_contra hne
    exact hx (if_neg fun h => hne (Prod.ext h.1 h.2))
  have hsum : ∑ᶠ x : String × Row, (if x.1 = u.rel ∧ x.2 = u.row then 1 else 0) = 1 := by
    rw [finsum_eq_single _ (u.rel, u.row) fun x hx => if_neg fun h => hx (Prod.ext h.1 h.2)]
    simp
  calc store.total
      = ∑ᶠ x : String × Row,
          (store'.count x.1 x.2 + if x.1 = u.rel ∧ x.2 = u.row then 1 else 0) :=
        finsum_congr fun x => changed.removed hu x.1 x.2
    _ = store'.total + 1 := by rw [finsum_add_distrib hsupport hone, hsum, total]

end Store

namespace Session

section Halting

variable {o : Compile.Options} {d : Declarations} {p : Program} {s s' : Session} {u : Update}
  {us : List Update} (built : Compile.Built o d p) (sound : d.Sound)

include built sound

theorem Formed.halts_removes (formed : s.Formed p) (hsign : ∀ u ∈ us, u.change = .remove) :
    s.Halts us := by
  induction hn : s.store.total using Nat.strong_induction_on generalizing s us with
  | _ n ih =>
    cases us with
    | nil => exact halts_nil s
    | cons u rest =>
      obtain ⟨hu, hrest⟩ := List.forall_mem_cons.mp hsign
      refine halts_cons fun s' vs happly => ?_
      have step := apply_step formed.sound (formed.nodup (built.nodup_catalog sound)) happly
      have htotal := Store.total_of_removed step.changed hu
      refine ih s'.store.total (by omega) (step.formed formed) ?_ rfl
      intro w hw
      rcases List.mem_append.mp hw with hw | hw
      · have hsigns := (step.recorded_views built sound formed.program formed.sound).1
        exact (hsigns w hw).trans hu
      · exact hrest w hw

/-! ### Additions -/

/-- Additions lead to no row outside a finite set that is closed under the views. Either a row is
new, and there are fewer left, or there is one pending change less. -/
theorem Formed.halts_adds (formed : s.Formed p) {facts : Facts}
    (finite : {x : String × Row | facts x.1 x.2}.Finite)
    (closed : ∀ v ∈ p.views, ∀ row, v.spec.Yields facts row → facts v.target row)
    (within : s.store.Has ≤ facts)
    (hpending : ∀ u ∈ us, u.change = .add ∧ facts u.rel u.row) : s.Halts us := by
  induction hn : {x : String × Row | facts x.1 x.2 ∧ ¬ s.store.Has x.1 x.2}.ncard
    using Nat.strong_induction_on generalizing s us with
  | _ n ih =>
    induction us generalizing s with
    | nil => exact halts_nil s
    | cons u rest ihrest =>
      obtain ⟨⟨hu, hfact⟩, hrest⟩ := List.forall_mem_cons.mp hpending
      refine halts_cons fun s' vs happly => ?_
      have step := apply_step formed.sound (formed.nodup (built.nodup_catalog sound)) happly
      obtain ⟨hsigns, hviews⟩ := step.recorded_views built sound formed.program formed.sound
      have hhas := has_insert formed.sound step.changed.sound (step.changed.added hu)
      have within' : s'.store.Has ≤ facts := by
        rw [hhas]
        rintro rel row (hrow | ⟨rfl, rfl⟩)
        · exact within rel row hrow
        · exact hfact
      have hpending' : ∀ w ∈ vs ++ rest, w.change = .add ∧ facts w.rel w.row := by
        intro w hw
        rcases List.mem_append.mp hw with hw | hw
        · obtain ⟨v, hv, htarget, hyields⟩ := hviews hu w hw
          refine ⟨(hsigns w hw).trans hu, ?_⟩
          rw [← htarget]
          exact closed v hv w.row (hyields.of_le within')
        · exact hrest w hw
      by_cases hpresent : s.store.Has u.rel u.row
      · have hsame : s'.store.Has = s.store.Has := by
          rw [hhas]
          funext rel row
          refine propext ⟨?_, .inl⟩
          rintro (hrow | ⟨rfl, rfl⟩)
          · exact hrow
          · exact hpresent
        have hnone : vs = [] := by
          rcases step.follows with ⟨hnil, _⟩ | ⟨_, _, hzero, _⟩
          · exact hnil
          · have hpos := (formed.sound.count_pos_iff u.rel u.row).mpr hpresent
            rw [hzero hu] at hpos
            cases hpos
        rw [hnone, List.nil_append] at hpending' ⊢
        exact ihrest (step.formed formed) within' hpending' (hsame ▸ hn)
      · have hfewer : {x : String × Row | facts x.1 x.2 ∧ ¬ s'.store.Has x.1 x.2} ⊂
            {x | facts x.1 x.2 ∧ ¬ s.store.Has x.1 x.2} := by
          rw [hhas]
          refine ⟨fun x hx => ⟨hx.1, fun hrow => hx.2 (.inl hrow)⟩, fun hsub => ?_⟩
          have hmem : (u.rel, u.row) ∈ {x : String × Row | facts x.1 x.2 ∧
              ¬ s.store.Has x.1 x.2} := ⟨hfact, hpresent⟩
          exact (hsub hmem).2 (.inr ⟨rfl, rfl⟩)
        have hcard := Set.ncard_lt_ncard hfewer (finite.subset fun x hx => hx.1)
        exact ih _ (hn ▸ hcard) (step.formed formed) within' hpending' rfl

theorem Formed.halts (formed : s.Formed p) (u : Update) : s.Halts [u] := by
  cases hu : u.change with
  | remove => exact formed.halts_removes built sound (by simp [hu])
  | add =>
    have finite : {x : String × Row | s.store.Has.insert u.rel u.row x.1 x.2}.Finite := by
      refine (s.store.has_finite.union (Set.finite_singleton (u.rel, u.row))).subset ?_
      rintro x (hx | ⟨hrel, hrow⟩)
      · exact .inl hx
      · exact .inr (Prod.ext hrel hrow)
    refine formed.halts_adds built sound (built.derived_finite sound finite)
      (fun v hv row => Program.derived_view hv) (fun rel row hrow => ?_) ?_
    · exact Program.derived_given (.inl hrow)
    · intro w hw
      cases List.mem_singleton.mp hw
      exact ⟨hu, Program.derived_given (.inr ⟨rfl, rfl⟩)⟩

end Halting

/-! ### Operations -/

inductive Starts (s : Session) : Op → Session → Update → Prop where
  | add {rel : String} {row : Row} : Starts s (.add rel row) s ⟨rel, .add, row⟩
  | remove {rel : String} {row : Row} : Starts s (.remove rel row) s ⟨rel, .remove, row⟩
  | assign {map : String} {key : Row} {value : Value} :
    Starts s (.assign map key value) s ⟨map, .add, key ++ [value]⟩
  /-- A value is taken away before another takes its place. -/
  | retract {map : String} {key : Row} {value old : Value} :
    Starts s (.assign map key value) s ⟨map, .remove, key ++ [old]⟩
  | reassign {map : String} {key : Row} {value old : Value} {t : Session} :
    s.change ⟨map, .remove, key ++ [old]⟩ = (t, .ok ()) →
    Starts s (.assign map key value) t ⟨map, .add, key ++ [value]⟩
  | unassign {map : String} {key : Row} {old : Value} :
    Starts s (.unassign map key) s ⟨map, .remove, key ++ [old]⟩
  | demand {query set : String} {params : Row} {n : Nat} :
    Starts s (.demand query params) (s.setDemand query params n) ⟨set, .add, params⟩
  | undemand {query set : String} {params : Row} {n : Nat} :
    Starts s (.undemand query params) (s.setDemand query params n) ⟨set, .remove, params⟩
  | query {name set : String} {params : Row} {n : Nat} :
    Starts s (.query name params) (s.setDemand name params n) ⟨set, .add, params⟩

/-- An outcome with the session as it was, or as a change leaves it that the operation starts. -/
def ComesOf {α : Type} (s : Session) (op : Op) (out : Outcome α) : Prop :=
  out.1 = s ∨ ∃ t u, s.Starts op t u ∧ out.1 = (t.change u).1

theorem add_comesOf (s : Session) (rel : String) (row : Row) :
    ComesOf s (.add rel row) (s.add rel row) := by
  have hrow : ComesOf s (.add rel row) (s.addRow rel row) := by
    unfold addRow
    split
    · exact .inl rfl
    · rcases h : s.change ⟨rel, .add, row⟩ with ⟨t, e | _⟩ <;> exact .inr ⟨s, _, .add, by rw [h]⟩
  unfold add
  split
  · exact .inl rfl
  · split
    · exact .inl rfl
    · split
      · exact hrow
      · split
        · exact hrow
        · split <;> exact .inl rfl

theorem remove_comesOf (s : Session) (rel : String) (row : Row) :
    ComesOf s (.remove rel row) (s.remove rel row) := by
  unfold remove
  split
  · exact .inl rfl
  · split
    · exact .inl rfl
    · split
      · rcases h : s.change ⟨rel, .remove, row⟩ with ⟨t, e | _⟩ <;>
          exact .inr ⟨s, _, .remove, by rw [h]⟩
      · exact .inl rfl

theorem assign_comesOf (s : Session) (map : String) (key : Row) (value : Value) :
    ComesOf s (.assign map key value) (s.assign map key value) := by
  unfold assign
  split
  · exact .inl rfl
  · split
    · exact .inl rfl
    · split
      · rcases h : s.change ⟨map, .add, key ++ [value]⟩ with ⟨t, e | _⟩ <;>
          exact .inr ⟨s, _, .assign, by rw [h]⟩
      · rename_i old _
        split
        · exact .inl rfl
        · rcases h : s.change ⟨map, .remove, key ++ [old]⟩ with ⟨t, e | _⟩
          · exact .inr ⟨s, _, .retract, by rw [h]⟩
          · dsimp only
            rcases h' : t.change ⟨map, .add, key ++ [value]⟩ with ⟨t', e | _⟩ <;>
              exact .inr ⟨t, _, .reassign h, by rw [h']⟩

theorem unassign_comesOf (s : Session) (map : String) (key : Row) :
    ComesOf s (.unassign map key) (s.unassign map key) := by
  unfold unassign
  split
  · exact .inl rfl
  · split
    · exact .inl rfl
    · split
      · exact .inl rfl
      · rename_i old _
        rcases h : s.change ⟨map, .remove, key ++ [old]⟩ with ⟨t, e | _⟩ <;>
          exact .inr ⟨s, _, .unassign, by rw [h]⟩

theorem demand_eq (s : Session) (query : String) (params : Row) :
    (s.demand query params).1 = s ∨ ∃ set n, s.demand query params =
      (s.setDemand query params n).change ⟨set, .add, params⟩ := by
  unfold demand
  split
  · exact .inl rfl
  · split
    · exact .inl rfl
    · exact .inr ⟨_, _, rfl⟩

theorem undemand_comesOf (s : Session) (query : String) (params : Row) :
    ComesOf s (.undemand query params) (s.undemand query params) := by
  unfold undemand
  split
  · exact .inl rfl
  · split
    · exact .inl rfl
    · split
      · exact .inl rfl
      · exact .inr ⟨_, _, .undemand, rfl⟩

theorem query_comesOf (s : Session) (name : String) (params : Row) :
    ComesOf s (.query name params) (s.query name params) := by
  have hdemand : ComesOf s (.query name params) (s.demand name params) := by
    rcases demand_eq s name params with hsame | ⟨set, n, hdemand⟩
    · exact .inl hsame
    · exact .inr ⟨_, _, .query, congrArg Prod.fst hdemand⟩
  unfold ComesOf at hdemand
  unfold Session.query
  split
  · exact .inl rfl
  · split
    · exact .inl rfl
    · split
      · exact .inl rfl
      · split
        · exact .inl rfl
        · exact .inl rfl
        · split
          · exact .inl rfl
          · exact .inl rfl
          · rcases h : s.demand name params with ⟨t, e | _⟩ <;> rw [h] at hdemand <;> exact hdemand

theorem perform_comesOf (s : Session) (op : Op) : ComesOf s op (s.perform op) := by
  cases op with
  | add rel row => exact add_comesOf s rel row
  | remove rel row => exact remove_comesOf s rel row
  | assign map key value => exact assign_comesOf s map key value
  | unassign map key => exact unassign_comesOf s map key
  | demand query params =>
    rcases demand_eq s query params with hsame | ⟨set, n, hdemand⟩
    · exact .inl hsame
    · exact .inr ⟨_, _, .demand, congrArg Prod.fst hdemand⟩
  | undemand query params => exact undemand_comesOf s query params
  | query name params => exact query_comesOf s name params

theorem poisoned_of_change {s t : Session} {u : Update} {e : RuntimeError}
    (h : s.change u = (t, .error e)) : t.poisoned = true := by
  unfold change at h
  split at h
  · cases h
    rfl
  · split at h
    · cases h
      rfl
    · cases h

section Histories

variable {p : Program} {s t : Session} {u : Update} (nodup : (p.catalog.map (·.name)).Nodup)

include nodup

theorem Formed.of_change (formed : s.Formed p) (h : s.change u = (t, .ok ())) : t.Formed p :=
  let ⟨_, hrun⟩ := propagate_of_change h
  formed.propagate nodup hrun

theorem Formed.change (formed : s.Formed p) (u : Update) :
    (s.change u).1.poisoned = true ∨ (s.change u).1.Formed p := by
  rcases h : s.change u with ⟨t, e | _⟩
  · exact .inl (poisoned_of_change h)
  · exact .inr (formed.of_change nodup h)

theorem Formed.of_starts (formed : s.Formed p) {op : Op} (h : s.Starts op t u) : t.Formed p := by
  cases h with
  | add | remove | assign | retract | unassign => exact formed
  | reassign hchange => exact formed.of_change nodup hchange
  | demand | undemand | query => exact formed.setDemand ..

theorem after_formed (ops : List Op) :
    ((ofProgram p).after ops).poisoned = true ∨ ((ofProgram p).after ops).Formed p := by
  suffices h : ∀ s : Session, (s.poisoned = true ∨ s.Formed p) →
      (s.after ops).poisoned = true ∨ (s.after ops).Formed p from
    h _ (.inr (ofProgram_formed nodup))
  induction ops with
  | nil => exact fun s h => h
  | cons op ops ih =>
    rintro s (hp | formed)
    · refine ih _ (.inl ?_)
      dsimp only
      rw [perform_poisoned hp]
      exact hp
    · refine ih _ ?_
      dsimp only
      rcases perform_comesOf s op with hsame | ⟨t, u, hstart, hout⟩
      · rw [hsame]
        exact .inr formed
      · rw [hout]
        exact (formed.of_starts nodup hstart).change nodup u

end Histories

/-- Whatever was done, in a session that is not poisoned every change that an operation starts is
worked off, or stopped by an error, after finitely many steps; more steps would make no
difference. -/
theorem perform_halts {o : Compile.Options} {text : String} {p : Program}
    (compiles : Program.ofText? o text = some p) (ops : List Op)
    (healthy : ((ofProgram p).after ops).poisoned = false) (op : Op) :
    ComesOf ((ofProgram p).after ops) op (((ofProgram p).after ops).perform op) ∧
      ∀ t u, ((ofProgram p).after ops).Starts op t u →
        ∃ n, (propagate n t [u]).2 ≠ .error .exhausted ∧
          ∀ m, n ≤ m → propagate m t [u] = propagate n t [u] := by
  obtain ⟨d, sound, built⟩ := Program.built_of_text compiles
  have nodup := built.nodup_catalog sound
  refine ⟨perform_comesOf _ op, fun t u hstart => ?_⟩
  rcases after_formed nodup ops with hp | formed
  · rw [healthy] at hp
    cases hp
  · obtain ⟨n, hn⟩ := (formed.of_starts nodup hstart).halts built sound u
    refine ⟨n, hn, fun m hm => ?_⟩
    obtain ⟨k, rfl⟩ := Nat.exists_eq_add_of_le hm
    exact propagate_add k hn

def chainText : String :=
  "relation R(2); query S(x) = \x7bz : (x, y) in R, z in \x7by + 1\x7d\x7d; " ++
    "query T(x) = \x7bz : y in S(x), z in S(y)\x7d with selfjoin = assume_disjoint; " ++
    "query Q = \x7b(x, z) : (x, y) in R, z in T(y)\x7d;"

def chainOps : List Op := [.add "R" [.int 1, .int 2], .add "R" [.int 2, .int 3]]

set_option maxRecDepth 10000 in
theorem perform_halts_chain : ∃ p, Program.ofText? ⟨.default, .silent⟩ chainText = some p ∧
    ∃ s, s = (ofProgram p).after chainOps ∧ s.poisoned = false ∧
      s.store.contains "S.U" [.int 4] = true ∧
      ∃ n, (propagate n s [⟨"R", .add, [.int 4, .int 5]⟩]).2 ≠ .error .exhausted ∧
        ∀ m, n ≤ m → propagate m s [⟨"R", .add, [.int 4, .int 5]⟩] =
          propagate n s [⟨"R", .add, [.int 4, .int 5]⟩] := by
  obtain ⟨p, hp, healthy, hrow⟩ : ∃ p,
      Program.ofText? ⟨.default, .silent⟩ chainText = some p ∧
      ((ofProgram p).after chainOps).poisoned = false ∧
      ((ofProgram p).after chainOps).store.contains "S.U" [.int 4] = true := by
    decide +kernel
  exact ⟨p, hp, _, rfl, healthy, hrow,
    (perform_halts hp chainOps healthy (.add "R" [.int 4, .int 5])).2 _ _ .add⟩

end Session

end ViewUpkeep
