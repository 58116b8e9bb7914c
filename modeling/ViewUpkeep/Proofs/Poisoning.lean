import ViewUpkeep.Proofs.Inspection

/-!
Errors are atomic or poisoning. An operation fails before it has touched the session, or because a
change that it tries cannot be propagated or does not stand up to inspection; such an error is the
answer of the operation and poisons the session. A poisoned session refuses all that could change it
or rest on its store.
-/
namespace ViewUpkeep

def RuntimeError.isOfRun : RuntimeError → Bool
  | .exec _ | .breach _ | .exhausted => true
  | _ => false

theorem RuntimeError.not_refusal_of_isOfRun {e : RuntimeError} (h : e.isOfRun = true) :
    e.isRefusal = false := by
  cases e <;> first | rfl | cases h

namespace Session

def Call.isGuarded : Call → Bool
  | .operate _ | .results _ => true
  | _ => false

/-- What stands between an operation and its changes, apart from the checks of its arguments: the key
of a new row of a map must be free, a key that has the value is not assigned again, and only queries
on demand are demanded in order to be answered. -/
def Admits (s : Session) : Op → Prop
  | .add rel row => ∀ info keyArity, s.baseInfo rel row.length = .ok info →
      info.kind = .map keyArity → s.mapValue rel (row.take keyArity) = none
  | .assign map key value => s.mapValue map key ≠ some value
  | .query name _ => ∃ q, s.compiled name = .ok q ∧ q.mode = .dem
  | _ => True

structure Tries (s : Session) (op : Op) (t : Session) (u : Update) : Prop where
  healthy : s.poisoned = false
  admits : s.Admits op
  makes : s.Makes op t u

inductive Raises (s : Session) (u : Update) (e : RuntimeError) : Prop where
  | propagation {t : Session} : s.settle [u] = (t, .error e) → Raises s u e
  | inspection {t : Session} : s.settle [u] = (t, .ok ()) →
    t.inspectAll t.program.queries = .error e → Raises s u e

variable {s t : Session} {op : Op} {u : Update} {e : RuntimeError}

theorem raises_iff : s.Raises u e ↔ ∃ t, s.change u = (t, .error e) := by
  unfold change
  constructor
  · rintro (hrun | ⟨hrun, hinspect⟩)
    · exact ⟨_, by rw [hrun]⟩
    · rename_i t
      exact ⟨t.poison, by simp only [hrun, hinspect]⟩
  · rintro ⟨t, h⟩
    split at h
    · rename_i hrun
      cases h
      exact .propagation hrun
    · rename_i hrun
      split at h
      · rename_i hinspect
        cases h
        exact .inspection hrun hinspect
      · cases h

theorem apply_raises (h : s.apply u = (t, .error e)) : e.isOfRun = true := by
  obtain ⟨x, rfl⟩ | ⟨b, r, rfl, _⟩ := apply_error h
  · rfl
  · rfl

theorem propagate_raises {n : Nat} {us : List Update} (h : propagate n s us = (t, .error e)) :
    e.isOfRun = true := by
  induction n generalizing s us with
  | zero =>
    cases us with
    | nil => cases h
    | cons u rest =>
      cases h
      rfl
  | succ n ih =>
    cases us with
    | nil => cases h
    | cons u rest =>
      rw [propagate] at h
      split at h
      · rename_i happly
        cases h
        exact apply_raises happly
      · exact ih h

theorem settle_raises {us : List Update} (h : s.settle us = (t, .error e)) : e.isOfRun = true := by
  obtain ⟨n, hn⟩ := s.exists_settle_eq us
  exact propagate_raises (hn.symm.trans h)

theorem Raises.cases (h : s.Raises u e) :
    (∃ t, s.settle [u] = (t, .error e) ∧ e.isOfRun = true) ∨ (∃ x, e = .exec x) ∨
      ∃ name expected found, e = .instrumentationMismatch name expected found := by
  rcases h with hrun | ⟨_, hinspect⟩
  · exact .inl ⟨_, hrun, settle_raises hrun⟩
  · obtain ⟨q, _, hq⟩ := inspectAll_error hinspect
    obtain ⟨result, _, _, ⟨x, _, rfl⟩ | ⟨rows, _, _, rfl⟩⟩ := inspect_error hq
    · exact .inr (.inl ⟨x, rfl⟩)
    · exact .inr (.inr ⟨_, _, _, rfl⟩)

theorem Raises.not_refusal (h : s.Raises u e) : e.isRefusal = false := by
  obtain ⟨_, _, hrun⟩ | ⟨x, rfl⟩ | ⟨_, _, _, rfl⟩ := h.cases
  · exact RuntimeError.not_refusal_of_isOfRun hrun
  · rfl
  · rfl

theorem Makes.compiled {name : String} {params : Row} (h : s.Makes (.query name params) t u) :
    ∃ q set, s.compiled name = .ok q ∧ checkArity name q.params.length params.length = .ok () ∧
      s.demandTarget name params = .ok set ∧ s.store.contains set params = false ∧
      t = s.setDemand name params (s.demandCount name params + 1) ∧ u = ⟨set, .add, params⟩ := by
  cases h with
  | @query _ set _ htarget hcontains =>
    have hchecked := htarget
    unfold demandTarget at hchecked
    obtain ⟨q, hq, hset⟩ := bind_eq_ok.mp hchecked
    split at hset
    · cases hset
    · obtain ⟨_, harity, _⟩ := bind_eq_ok.mp hset
      exact ⟨q, set, hq, harity, htarget, hcontains, rfl, rfl⟩

theorem Tries.query_fails {name : String} {params : Row} {r : Session}
    (h : s.Tries (.query name params) t u) (hchange : t.change u = (r, .error e)) :
    s.query name params = (r, .error e) := by
  obtain ⟨q, set, hq, harity, htarget, hcontains, rfl, rfl⟩ := h.makes.compiled
  obtain ⟨q', hq', hmode⟩ := h.admits
  cases hq.symm.trans hq'
  have hdemanded : s.isDemanded name params = .ok false := by
    simp only [isDemanded, htarget, bind, Except.bind, hcontains, pure, Except.pure]
  have hdemand : s.demand name params = (r, .error e) := by
    simp only [demand, h.healthy, htarget, hchange, Bool.false_eq_true, if_false]
  simp only [Session.query, h.healthy, hq, harity, hmode, hdemanded, hdemand, Bool.false_eq_true,
    if_false]

theorem Tries.add_fails {rel : String} {row : Row} {r : Session}
    (h : s.Tries (.add rel row) t u) (hchange : t.change u = (r, .error e)) :
    s.add rel row = (r, .error e) := by
  obtain ⟨healthy, admits, makes⟩ := h
  cases makes with
  | @add _ _ info hbase hcontains =>
    have hadd : s.addRow rel row = (r, .error e) := by
      simp only [addRow, hcontains, hchange, Bool.false_eq_true, if_false]
    cases hkind : info.kind with
    | set => simp only [Session.add, healthy, hbase, hkind, hadd, Bool.false_eq_true, if_false]
    | map keyArity =>
      have hfree := admits info keyArity hbase hkind
      simp only [Session.add, healthy, hbase, hkind, hfree, hadd, Bool.false_eq_true, if_false]

theorem Tries.assign_fails {map : String} {key : Row} {value : Value} {r : Session}
    (h : s.Tries (.assign map key value) t u) (hchange : t.change u = (r, .error e)) :
    s.assign map key value = (r, .error e) := by
  obtain ⟨healthy, admits, makes⟩ := h
  cases makes with
  | assign hcheck hnone =>
    simp only [Session.assign, healthy, hcheck, hnone, hchange, Bool.false_eq_true, if_false]
  | @retract _ _ _ old hcheck hold =>
    have hne : old ≠ value := fun h => admits (h ▸ hold)
    simp only [Session.assign, healthy, hcheck, hold, hne, hchange, Bool.false_eq_true, if_false]
  | @reassign _ _ _ old _ hcheck hold hretract =>
    have hne : old ≠ value := fun h => admits (h ▸ hold)
    simp only [Session.assign, healthy, hcheck, hold, hne, hretract, hchange, Bool.false_eq_true,
      if_false]

theorem Tries.respond_fails {r : Session} (h : s.Tries op t u)
    (hchange : t.change u = (r, .error e)) : s.respond op = (r, .error e) := by
  cases op with
  | add rel row => rw [respond, reply, h.add_fails hchange]; rfl
  | remove rel row =>
    obtain ⟨healthy, -, ⟨⟩⟩ := h
    rename_i hbase hcontains
    simp only [respond, reply, remove, healthy, hbase, hcontains, hchange, Bool.false_eq_true,
      if_false, if_true, Except.map]
  | assign map key value => rw [respond, reply, h.assign_fails hchange]; rfl
  | unassign map key =>
    obtain ⟨healthy, -, ⟨⟩⟩ := h
    rename_i hcheck hold
    simp only [respond, reply, unassign, healthy, hcheck, hold, hchange, Bool.false_eq_true,
      if_false, Except.map]
  | demand query params =>
    obtain ⟨healthy, -, ⟨⟩⟩ := h
    rename_i htarget
    simp only [respond, reply, demand, healthy, htarget, hchange, Bool.false_eq_true, if_false,
      Except.map]
  | undemand query params =>
    obtain ⟨healthy, -, ⟨⟩⟩ := h
    rename_i htarget hcount
    simp only [respond, reply, undemand, healthy, htarget, hcount, hchange, Bool.false_eq_true,
      if_false, Except.map]
  | query name params => rw [respond, reply, h.query_fails hchange]; rfl

theorem respond_of_not_admits (h : ¬ s.Admits op) : (s.respond op).1 = s := by
  cases op with
  | add rel row =>
    simp only [Admits, not_forall] at h
    obtain ⟨info, keyArity, hbase, hkind, htaken⟩ := h
    obtain ⟨existing, hexisting⟩ := Option.ne_none_iff_exists'.mp htaken
    simp only [respond, reply, Session.add, hbase, hkind, hexisting]
    split
    · rfl
    · split <;> rfl
  | assign map key value =>
    simp only [Admits, not_not] at h
    simp only [respond, reply, Session.assign, h, if_true]
    split
    · rfl
    · split <;> rfl
  | query name params =>
    simp only [respond, reply, Session.query]
    split
    · rfl
    · split
      · rfl
      · rename_i q hq
        split
        · rfl
        · split
          · rfl
          · rfl
          · rename_i hmode
            exact absurd ⟨q, hq, hmode⟩ h
  | _ => exact absurd trivial h

/-- An operation leaves the session alone or ends with a change that it tries. -/
theorem respond_tries (s : Session) (op : Op) :
    (s.respond op).1 = s ∨ ∃ t u, s.Tries op t u ∧ unanswered (s.respond op) = t.change u := by
  by_cases admits : s.Admits op
  · rw [unanswered_respond, show (s.respond op).1 = (s.perform op).1 from
      congrArg Prod.fst (unanswered_respond s op)]
    rcases perform_turns s op with ⟨r, hout, _⟩ | ⟨healthy, t, u, makes, hout⟩
    · exact .inl (congrArg Prod.fst hout)
    · exact .inr ⟨t, u, ⟨healthy, admits, makes⟩, hout⟩
  · exact .inl (respond_of_not_admits admits)

theorem serve_fails {r : Call} (guarded : r.isGuarded = true) (h : (s.serve r).2 = .error e) :
    (s.serve r).1 = s ∨ ((s.serve r).1.poisoned = true ∧
      ∃ op t u, r = .operate op ∧ s.Tries op t u ∧ t.Raises u e) := by
  cases r with
  | results query => exact .inl rfl
  | isDemanded | evaluate | userDemands | stats => cases guarded
  | operate op =>
    change (s.respond op).2 = .error e at h
    refine (respond_tries s op).imp id ?_
    rintro ⟨t, u, tries, hout⟩
    have hchange : t.change u = ((s.respond op).1, .error e) := by
      rw [← hout, unanswered, h]
      rfl
    exact ⟨poisoned_of_change hchange, op, t, u, rfl, tries, raises_iff.mpr ⟨_, hchange⟩⟩

/-! ### Poison -/

theorem respond_poisoned (h : s.poisoned = true) (op : Op) :
    s.respond op = (s, .error .poisoned) := by
  have hperform := unanswered_respond s op
  rw [perform_poisoned h op] at hperform
  rcases hout : s.respond op with ⟨t, e | a⟩ <;> rw [hout] at hperform <;> cases hperform
  rfl

theorem serve_poisoned (h : s.poisoned = true) {r : Call} (guarded : r.isGuarded = true) :
    s.serve r = (s, .error .poisoned) := by
  cases r with
  | operate op => exact respond_poisoned h op
  | results query =>
    simp only [serve, results, h, if_true]
    rfl
  | isDemanded | evaluate | userDemands | stats => cases guarded

theorem absorbs (h : s.poisoned = true) (rs : List Call) (guarded : ∀ r ∈ rs, r.isGuarded = true) :
    s.replies rs = List.replicate rs.length (.error .poisoned) ∧ s.served rs = s := by
  induction rs with
  | nil => exact ⟨rfl, rfl⟩
  | cons r rs ih =>
    have hserve := serve_poisoned h (guarded r List.mem_cons_self)
    obtain ⟨hreplies, hserved⟩ := ih fun r hr => guarded r (List.mem_cons_of_mem _ hr)
    constructor
    · rw [replies, hserve, hreplies, List.length_cons, List.replicate_succ]
    · rw [served, List.foldl_cons, hserve]
      exact hserved

/-- In whatever state a session is: a failing operation has left all of it alone, or has poisoned it
with an error that one of its changes raised. An error that is raised by a change which an operation
tries, while it is propagated or by inspection, is always the answer and always poisons. A poisoned
session answers that it is poisoned, however often it is asked and whatever it is asked, and stays
as it is. -/
theorem errors_atomic_or_poisoning (s : Session) :
    (∀ r : Call, r.isGuarded = true → ∀ e, (s.serve r).2 = .error e →
      (s.serve r).1 = s ∨ ((s.serve r).1.poisoned = true ∧
        ∃ op t u, r = .operate op ∧ s.Tries op t u ∧ t.Raises u e)) ∧
    (∀ op t u e, s.Tries op t u → t.Raises u e →
      (s.respond op).2 = .error e ∧ (s.respond op).1.poisoned = true) ∧
    (s.poisoned = true → ∀ rs : List Call, (∀ r ∈ rs, r.isGuarded = true) →
      s.replies rs = List.replicate rs.length (.error .poisoned) ∧ s.served rs = s) := by
  refine ⟨fun r guarded e h => serve_fails guarded h, ?_, absorbs⟩
  intro op t u e tries raises
  obtain ⟨r, hchange⟩ := raises_iff.mp raises
  rw [tries.respond_fails hchange]
  exact ⟨rfl, poisoned_of_change hchange⟩

end Session

end ViewUpkeep
