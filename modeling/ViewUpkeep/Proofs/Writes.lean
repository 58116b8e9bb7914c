import ViewUpkeep.Proofs.Poisoning

/-!
What update code writes. Code records changes of the relations that its leaves name and of no
others, and the leaves of a handler name the relation that it keeps up to date. So a base relation
is changed by the user alone: whatever a change of another relation leads to, and whether or not it
comes to an end, the base relation stays as it is.
-/
namespace ViewUpkeep

namespace Code

mutual

def writes : Code → List String
  | .block items => writesAll items
  | .scan _ _ body | .lookup _ _ _ body | .member _ _ body | .bind _ _ body | .test _ body =>
    body.writes
  | .update rel _ _ => [rel]
  | .union _ _ branches body => writesAll branches ++ body.writes
  | .collect => []

def writesAll : List Code → List String
  | [] => []
  | c :: cs => c.writes ++ writesAll cs

end

theorem mem_writesAll {cs : List Code} {rel : String} :
    rel ∈ writesAll cs ↔ ∃ c ∈ cs, rel ∈ c.writes := by
  induction cs with
  | nil => simp [writesAll]
  | cons c cs ih => simp [writesAll, ih]

end Code

namespace Trace

def Within (rels : List String) (t : Trace) : Prop := ∀ u ∈ t.updates, u.rel ∈ rels

variable {rels : List String}

theorem empty_within : empty.Within rels := by simp [Within, empty]

theorem failed_within (e : ExecError) : (failed e).Within rels := by simp [Within, failed]

theorem Within.append {t u : Trace} (ht : t.Within rels) (hu : u.Within rels) :
    (t.append u).Within rels := by
  unfold Trace.append
  split
  · exact ht
  · exact fun w hw => (List.mem_append.mp hw).elim (ht w) (hu w)

theorem concat_within {ts : List Trace} (h : ∀ t ∈ ts, t.Within rels) :
    (concat ts).Within rels := by
  induction ts with
  | nil => exact empty_within
  | cons t ts ih =>
    obtain ⟨ht, hts⟩ := List.forall_mem_cons.mp h
    exact ht.append (ih hts)

theorem after_within {α : Type} {r : Except ExecError α} {f : α → Trace}
    (h : ∀ a, (f a).Within rels) : (after r f).Within rels := by
  unfold after
  split
  · exact h _
  · exact failed_within _

theorem branches_within {verify : Bool} {seen : List Row} {ts : List Trace}
    (h : ∀ t ∈ ts, t.Within rels) : (branches verify seen ts).Within rels := by
  induction ts generalizing seen with
  | nil => exact empty_within
  | cons t ts ih =>
    obtain ⟨ht, hts⟩ := List.forall_mem_cons.mp h
    rw [branches]
    split
    · exact failed_within _
    · exact ht.append (ih hts)

end Trace

namespace Code

theorem extend_within {rels : List String} {store : Store} {body : Code}
    (h : ∀ sink env, (body.exec store sink env).Within rels) (sink : Option (List Var)) (env : Env)
    (pattern : List Var) (row : Row) :
    (match env.extend? pattern row with
      | some env' => body.exec store sink env'
      | none => Trace.empty).Within rels := by
  split
  · exact h sink _
  · exact Trace.empty_within

mutual

theorem exec_within {rels : List String} (store : Store) : (c : Code) → c.writes ⊆ rels →
    ∀ (sink : Option (List Var)) (env : Env), (c.exec store sink env).Within rels
  | .block items, h, sink, env => Trace.concat_within (execAll_within store items h sink env)
  | .scan _ pattern body, h, sink, env => by
    refine Trace.after_within fun r => Trace.concat_within fun t ht => ?_
    obtain ⟨row, _, rfl⟩ := List.mem_map.mp ht
    exact extend_within (exec_within store body h) sink env pattern row
  | .lookup _ _ pattern body, h, sink, env => by
    refine Trace.after_within fun r => Trace.after_within fun key =>
      Trace.concat_within fun t ht => ?_
    obtain ⟨row, _, rfl⟩ := List.mem_map.mp ht
    exact extend_within (exec_within store body h) sink env pattern row
  | .member _ _ body, h, sink, env => by
    refine Trace.after_within fun r => Trace.after_within fun row => ?_
    split
    · exact exec_within store body h sink env
    · exact Trace.empty_within
  | .bind pattern _ body, h, sink, env =>
    Trace.after_within fun _ => Trace.after_within fun items =>
      extend_within (exec_within store body h) sink env pattern items
  | .test _ body, h, sink, env => by
    refine Trace.after_within fun b => ?_
    split
    · exact exec_within store body h sink env
    · exact Trace.empty_within
  | .update rel _ _, h, _, _ => by
    refine Trace.after_within fun row u hu => ?_
    rw [List.mem_singleton.mp hu]
    exact h (List.mem_singleton_self rel)
  | .union vars verify branches body, h, sink, env => by
    have hbranches := List.append_subset.mp h
    refine Trace.Within.append (fun u hu => ?_) (Trace.concat_within fun t ht => ?_)
    · exact Trace.branches_within (execAll_within store branches hbranches.1 (some vars) env) u hu
    · obtain ⟨row, _, rfl⟩ := List.mem_map.mp ht
      exact exec_within store body hbranches.2 sink _
  | .collect, _, sink, env => by
    cases sink with
    | none => exact Trace.failed_within _
    | some vars => exact Trace.after_within fun row u hu => by cases hu

theorem execAll_within {rels : List String} (store : Store) : (cs : List Code) →
    writesAll cs ⊆ rels → ∀ (sink : Option (List Var)) (env : Env),
      ∀ t ∈ execAll store cs sink env, t.Within rels
  | [], _, _, _ => by simp [execAll]
  | c :: cs, h, sink, env => by
    have hcs := List.append_subset.mp h
    rw [execAll]
    exact List.forall_mem_cons.mpr
      ⟨exec_within store c hcs.1 sink env, execAll_within store cs hcs.2 sink env⟩

end

theorem run_writes {c : Code} {store : Store} {row : Row} {us : List Update}
    (h : c.run store row = .ok us) : ∀ u ∈ us, u.rel ∈ c.writes := by
  unfold run at h
  dsimp only at h
  split at h
  · cases h
  · cases h
    exact exec_within store c (List.Subset.refl _) none _

end Code

/-! ### Generated code -/

theorem Clause.code_writes {c : Clause} {bound : List Var} {body code : Code}
    (h : c.code bound body = .ok code) : code.writes ⊆ body.writes := by
  induction c generalizing body code with
  | member lhs rel | mapMember lhs rel n =>
    cases h
    unfold memberCode
    dsimp only
    split
    · exact List.Subset.refl _
    · split <;> exact List.Subset.refl _
  | singleton lhs expr =>
    obtain ⟨_, _, h⟩ := bind_eq_ok.mp h
    cases h
    exact List.Subset.refl _
  | delta lhs rel value =>
    cases h
    exact List.Subset.refl _
  | without inner value ih =>
    have hinner := ih h
    exact hinner
  | withExtra inner value ih =>
    obtain ⟨present, hpresent, h⟩ := bind_eq_ok.mp h
    cases h
    simp only [Code.writes, Code.writesAll, List.append_nil]
    exact List.append_subset.mpr ⟨ih hpresent, List.Subset.refl _⟩
  | demand inner query params ih =>
    obtain ⟨_, _, h⟩ := bind_eq_ok.mp h
    exact ih h
  | cond expr =>
    obtain ⟨_, _, h⟩ := bind_eq_ok.mp h
    cases h
    exact List.Subset.refl _

theorem Plan.code_writes {steps : List Step} {leaf code : Code}
    (h : Plan.code steps leaf = .ok code) : code.writes ⊆ leaf.writes := by
  induction steps generalizing code with
  | nil =>
    cases h
    exact List.Subset.refl _
  | cons s rest ih =>
    obtain ⟨inner, hinner, h⟩ := bind_eq_ok.mp h
    exact List.Subset.trans (Clause.code_writes h) (ih hinner)

namespace Handler

variable {estimate : Estimator} {c : Comprehension} {target rel : String} {change : Change}
  {strategy : SelfJoin} {h : Handler}

theorem branches_writes {leaf : Code} {js : List (Nat × Join)} {cs : List Code}
    (hcs : branches target estimate leaf js = .ok cs) : Code.writesAll cs ⊆ leaf.writes := by
  intro w hw
  obtain ⟨code, hcode, hw⟩ := Code.mem_writesAll.mp hw
  obtain ⟨j, _, hbranch⟩ := mem_branches hcs code hcode
  obtain ⟨steps, _, hsteps⟩ := branch_eq_ok hbranch
  exact Plan.code_writes hsteps hw

theorem make_writes (hmake : make c target rel change strategy estimate = .ok h) :
    h.code.writes ⊆ [target] := by
  obtain ⟨_, _, _, _, ⟨_, cs, hcs, hcode⟩ | ⟨_, cs, hcs, hcode⟩⟩ := make_eq_ok hmake
  · rw [hcode]
    simp only [Code.writes]
    exact List.append_subset.mpr
      ⟨List.Subset.trans (branches_writes hcs) (List.nil_subset _), List.Subset.refl _⟩
  · rw [hcode]
    have hall : Code.writesAll cs ⊆ [target] := branches_writes hcs
    unfold Code.ofList
    split
    · simpa [Code.writesAll] using hall
    · exact hall

end Handler

def Program.Unwritten (p : Program) (rel : String) : Prop := ∀ h ∈ p.handlers, rel ∉ h.code.writes

theorem Compile.Built.base_unwritten {o : Options} {d : Declarations} {p : Program}
    (built : Built o d p) (sound : d.Sound) {rel : String} (hrel : rel ∈ d.relations.map (·.name)) :
    p.Unwritten rel := by
  intro h hh hw
  obtain ⟨v, hv, _, hmake⟩ := built.handler_made hh
  have htarget : rel = v.target := List.mem_singleton.mp (Handler.make_writes hmake hw)
  exact built.view_target_not_base sound hv (htarget ▸ hrel)

namespace Session

variable {s s' t : Session} {u : Update} {us : List Update} {rel : String}

/-! ### One change -/

/-- What a change does to the session, whether or not handlers fail on the way: nothing, or it is
applied to its relation. -/
structure Touches (s : Session) (u : Update) (s' : Session) : Prop where
  program : s'.program = s.program
  demands : s'.demands = s.demands
  store : s'.store = s.store ∨ ∃ r r', s.store.get? u.rel = some r ∧ changed r u = .ok r' ∧
    s'.store = s.store.replace r'

theorem follow_same (s : Session) (row : Row) (hs : List Handler) :
    ∃ n, (s.follow row hs).1 = s.countRuns n := by
  unfold follow
  split <;> exact ⟨_, rfl⟩

theorem put_touches (s' : Session) {r : Relation} (hget : s.store.get? u.rel = some r)
    (hsame : s'.store = s.store) (hprogram : s'.program = s.program)
    (hdemands : s'.demands = s.demands) : s.Touches u (s'.put r u).1 := by
  unfold put
  split
  · rename_i r' hr'
    exact ⟨hprogram, hdemands, .inr ⟨r, r', hget, hr', by rw [← hsame]⟩⟩
  · exact ⟨hprogram, hdemands, .inl hsame⟩

theorem applyTransition_touches {r : Relation} (hget : s.store.get? u.rel = some r)
    (hsame : s'.store = s.store) (hprogram : s'.program = s.program)
    (hdemands : s'.demands = s.demands) : s.Touches u (s'.applyTransition r u).1 := by
  obtain ⟨n, hbefore⟩ := follow_same s' u.row (s'.handlersOf u .before)
  unfold applyTransition
  split
  · rename_i t e hrun
    rw [hrun] at hbefore
    subst hbefore
    exact ⟨hprogram, hdemands, .inl hsame⟩
  · rename_i t bs hrun
    rw [hrun] at hbefore
    subst hbefore
    have hput := put_touches (s'.countRuns n) hget hsame hprogram hdemands
    split
    · rename_i t' e hfail
      rw [hfail] at hput
      exact hput
    · rename_i t' hdone
      rw [hdone] at hput
      obtain ⟨m, hafter⟩ := follow_same t' u.row (t'.handlersOf u .after)
      split <;> rename_i hrest <;> rw [hrest] at hafter <;> subst hafter <;>
        exact ⟨hput.program, hput.demands, hput.store⟩

theorem apply_touches (s : Session) (u : Update) : s.Touches u (s.apply u).1 := by
  unfold apply
  split
  · exact ⟨rfl, rfl, .inl rfl⟩
  · rename_i r hget
    split
    · exact ⟨rfl, rfl, .inl rfl⟩
    · dsimp only
      split
      · exact applyTransition_touches hget rfl rfl rfl
      · have hput := put_touches s.countChange hget rfl rfl rfl
        split <;> rename_i hrun <;> rw [hrun] at hput <;> exact hput

theorem apply_replaces (h : s.apply u = (s', .ok us)) :
    ∃ r r', s.store.get? u.rel = some r ∧ changed r u = .ok r' ∧
      s'.store = s.store.replace r' := by
  unfold apply at h
  split at h
  · cases h
  · rename_i r hget
    refine ⟨r, ?_⟩
    split at h
    · cases h
    · dsimp only at h
      split at h
      · obtain ⟨n, m, r', bs, cs, hr', rfl, _⟩ := applyTransition_eq_ok h
        exact ⟨r', hget, hr', rfl⟩
      · split at h
        · cases h
        · rename_i hput
          obtain ⟨r', hr', rfl⟩ := put_eq_ok hput
          cases h
          exact ⟨r', hget, hr', rfl⟩

theorem changed_info {r r' : Relation} (h : changed r u = .ok r') : r'.info = r.info := by
  unfold changed at h
  split at h
  · cases h
    exact r.info_insert u.row
  · split at h
    · rename_i herase
      cases h
      unfold Relation.erase? at herase
      split at herase <;> cases herase <;> rfl
    · cases h

theorem get?_replace_changed {r r' : Relation} (hget : s.store.get? u.rel = some r)
    (hchanged : changed r u = .ok r') (rel : String) :
    (s.store.replace r').get? rel = if rel = u.rel then some r' else s.store.get? rel := by
  have hname : r'.name = u.rel := by
    rw [← Store.name_of_get? hget]
    exact congrArg RelationInfo.name (changed_info hchanged)
  rw [Store.get?_replace, hname]
  split
  · rename_i hrel
    rw [hrel, hget]
    rfl
  · rfl

theorem Touches.get? (h : s.Touches u s') (hne : rel ≠ u.rel) :
    s'.store.get? rel = s.store.get? rel := by
  rcases h.store with hsame | ⟨r, r', hget, hchanged, hstore⟩
  · rw [hsame]
  · rw [hstore, get?_replace_changed hget hchanged, if_neg hne]

theorem recorded_writes {store : Store} {row : Row} {h : Handler} {w : Update}
    (hw : w ∈ recorded store row h) : w.rel ∈ h.code.writes := by
  unfold recorded at hw
  cases hrun : h.code.run store row with
  | error e => simp [hrun, Except.toOption] at hw
  | ok us =>
    rw [hrun] at hw
    exact Code.run_writes hrun w hw

theorem apply_records (h : s.apply u = (s', .ok us)) :
    ∀ w ∈ us, ∃ g ∈ s.program.handlers, w.rel ∈ g.code.writes := by
  unfold apply at h
  split at h
  · cases h
  · split at h
    · cases h
    · dsimp only at h
      split at h
      · obtain ⟨n, m, r', bs, cs, _, _, hbefore, hafter, rfl⟩ := applyTransition_eq_ok h
        obtain ⟨_, rfl⟩ := runHandlers_eq_ok hbefore
        obtain ⟨_, rfl⟩ := runHandlers_eq_ok hafter
        intro w hw
        rcases List.mem_append.mp hw with hw | hw <;> obtain ⟨g, hg, hw⟩ := List.mem_flatMap.mp hw <;>
          exact ⟨g, (mem_handlersOf.mp hg).1, recorded_writes hw⟩
      · split at h <;> cases h
        simp

/-! ### All that follows -/

theorem propagate_get? (unwritten : s.program.Unwritten rel) (n : Nat)
    (others : ∀ u ∈ us, rel ≠ u.rel) : (propagate n s us).1.store.get? rel = s.store.get? rel := by
  induction n generalizing s us with
  | zero => cases us <;> rfl
  | succ n ih =>
    cases us with
    | nil => rfl
    | cons u rest =>
      obtain ⟨hu, hrest⟩ := List.forall_mem_cons.mp others
      have htouches := apply_touches s u
      have hsame := htouches.get? hu
      rw [propagate]
      split
      · rename_i s₁ e happly
        rwa [happly] at hsame
      · rename_i s₁ vs happly
        rw [happly] at hsame htouches
        have hvs : ∀ w ∈ vs ++ rest, rel ≠ w.rel := by
          refine List.forall_mem_append.mpr ⟨fun w hw hrel => ?_, hrest⟩
          obtain ⟨g, hg, hwrites⟩ := apply_records happly w hw
          exact unwritten g hg (hrel ▸ hwrites)
        rw [ih (by rwa [htouches.program]) hvs, hsame]

theorem change_store (s : Session) (u : Update) :
    (s.change u).1.store = (s.settle [u]).1.store := by
  unfold change
  split
  · rename_i hrun
    rw [hrun]
    rfl
  · rename_i hrun
    rw [hrun]
    split <;> rfl

theorem change_program (s : Session) (u : Update) : (s.change u).1.program = s.program := by
  obtain ⟨n, hn⟩ := s.exists_settle_eq [u]
  have hfixed := (propagate_fixed n s [u]).1
  rw [← hn] at hfixed
  unfold change
  split
  · rename_i hrun
    rwa [hrun] at hfixed
  · rename_i hrun
    rw [hrun] at hfixed
    split <;> exact hfixed

theorem change_get? (unwritten : s.program.Unwritten rel) (hne : rel ≠ u.rel) :
    (s.change u).1.store.get? rel = s.store.get? rel := by
  obtain ⟨n, hn⟩ := s.exists_settle_eq [u]
  rw [change_store, hn]
  exact propagate_get? unwritten n (by simpa using hne)

/-- What is not written to takes a change of its own or stays as it is; it has taken the change if
that could be made. -/
theorem change_get?_self (unwritten : s.program.Unwritten u.rel) :
    ((s.change u).1.store.get? u.rel = s.store.get? u.rel ∧ ∃ e, (s.change u).2 = .error e) ∨
      ∃ r r', s.store.get? u.rel = some r ∧ changed r u = .ok r' ∧
        (s.change u).1.store.get? u.rel = some r' := by
  have htouches := apply_touches s u
  obtain ⟨n, hn⟩ := s.exists_settle_eq [u]
  cases n with
  | zero =>
    refine .inl ⟨?_, .exhausted, by rw [change, hn, propagate]⟩
    rw [change_store, hn, propagate]
  | succ n =>
    rcases happly : s.apply u with ⟨t, e | us⟩ <;> rw [happly] at htouches
    · have hrun : s.settle [u] = (t, .error e) := by rw [hn, propagate, happly]
      rcases htouches.store with hsame | ⟨r, r', hget, hchanged, hstore⟩
      · refine .inl ⟨?_, e, by rw [change, hrun]⟩
        rw [change_store, hrun, hsame]
      · refine .inr ⟨r, r', hget, hchanged, ?_⟩
        rw [change_store, hrun, hstore, get?_replace_changed hget hchanged, if_pos rfl]
    · obtain ⟨r, r', hget, hchanged, hstore⟩ := apply_replaces happly
      have hrun : s.settle [u] = propagate n t (us ++ []) := by rw [hn, propagate, happly]
      have hothers : ∀ w ∈ us ++ [], u.rel ≠ w.rel := by
        intro w hw hrel
        rw [List.append_nil] at hw
        obtain ⟨g, hg, hwrites⟩ := apply_records happly w hw
        exact unwritten g hg (hrel ▸ hwrites)
      refine .inr ⟨r, r', hget, hchanged, ?_⟩
      rw [change_store, hrun, propagate_get? (by rwa [htouches.program]) n hothers, hstore,
        get?_replace_changed hget hchanged, if_pos rfl]

end Session

end ViewUpkeep
