import ViewUpkeep.Proofs.Soundness
import ViewUpkeep.Proofs.Termination

/-!
What operations ask for. An operation is refused, and leaves the session as it is, or is carried out
by one change after another, each of which passed the checks: a row of the right length for a base
relation, or parameters of a query for its demand set, where the demand is noted first. On the way,
a change is applied to a session that earlier changes have left.
-/
namespace ViewUpkeep

def RuntimeError.isRefusal : RuntimeError → Bool
  | .exec _ | .instrumentationMismatch .. | .breach _ | .exhausted => false
  | _ => true

namespace Session

def Op.isQuery : Op → Bool
  | .query .. => true
  | _ => false

inductive Asks (s : Session) : Session → Update → Prop where
  | base {u : Update} {info : RelationInfo} : s.baseInfo u.rel u.row.length = .ok info → Asks s s u
  | demand {query set : String} {params : Row} : s.demandTarget query params = .ok set →
    Asks s (s.setDemand query params (s.demandCount query params + 1)) ⟨set, .add, params⟩
  | undemand {query set : String} {params : Row} {n : Nat} :
    s.demandTarget query params = .ok set → s.demandCount query params = n + 1 →
    Asks s (s.setDemand query params n) ⟨set, .remove, params⟩

/-- The changes by which an operation is carried out, each with the session in which it is applied. -/
inductive Makes (s : Session) : Op → Session → Update → Prop where
  | add {rel : String} {row : Row} {info : RelationInfo} : s.baseInfo rel row.length = .ok info →
    s.store.contains rel row = false → Makes s (.add rel row) s ⟨rel, .add, row⟩
  | remove {rel : String} {row : Row} {info : RelationInfo} : s.baseInfo rel row.length = .ok info →
    s.store.contains rel row = true → Makes s (.remove rel row) s ⟨rel, .remove, row⟩
  | assign {map : String} {key : Row} {value : Value} : s.checkMap map key.length = .ok () →
    s.mapValue map key = none → Makes s (.assign map key value) s ⟨map, .add, key ++ [value]⟩
  /-- A value is taken away before another takes its place. -/
  | retract {map : String} {key : Row} {value old : Value} : s.checkMap map key.length = .ok () →
    s.mapValue map key = some old → Makes s (.assign map key value) s ⟨map, .remove, key ++ [old]⟩
  | reassign {map : String} {key : Row} {value old : Value} {t : Session} :
    s.checkMap map key.length = .ok () → s.mapValue map key = some old →
    s.change ⟨map, .remove, key ++ [old]⟩ = (t, .ok ()) →
    Makes s (.assign map key value) t ⟨map, .add, key ++ [value]⟩
  | unassign {map : String} {key : Row} {old : Value} : s.checkMap map key.length = .ok () →
    s.mapValue map key = some old → Makes s (.unassign map key) s ⟨map, .remove, key ++ [old]⟩
  | demand {query set : String} {params : Row} : s.demandTarget query params = .ok set →
    Makes s (.demand query params) (s.setDemand query params (s.demandCount query params + 1))
      ⟨set, .add, params⟩
  | undemand {query set : String} {params : Row} {n : Nat} :
    s.demandTarget query params = .ok set → s.demandCount query params = n + 1 →
    Makes s (.undemand query params) (s.setDemand query params n) ⟨set, .remove, params⟩
  | query {name set : String} {params : Row} : s.demandTarget name params = .ok set →
    s.store.contains set params = false →
    Makes s (.query name params) (s.setDemand name params (s.demandCount name params + 1))
      ⟨set, .add, params⟩

variable {s t : Session} {op : Op} {u : Update}

/-! ### Checks -/

theorem baseInfo_refuses (s : Session) (rel : String) (arity : Nat) :
    FailsOnly (·.isRefusal = true) (s.baseInfo rel arity) := by
  intro e h
  unfold baseInfo at h
  repeat' split at h
  all_goals cases h <;> rfl

theorem checkMap_refuses (s : Session) (map : String) (length : Nat) :
    FailsOnly (·.isRefusal = true) (s.checkMap map length) := by
  intro e h
  unfold checkMap at h
  split at h
  · cases h
    rfl
  · rename_i hbase
    cases h
    exact baseInfo_refuses s map (length + 1) _ hbase
  · split at h <;> cases h
    rfl

theorem demandTarget_refuses (s : Session) (query : String) (params : Row) :
    FailsOnly (·.isRefusal = true) (s.demandTarget query params) := by
  intro e h
  unfold demandTarget compiled checkArity at h
  split at h
  · simp only [bind, Except.bind] at h
    split at h
    · cases h
      rfl
    · split at h
      · rename_i harity
        cases h
        split at harity <;> cases harity
        rfl
      · cases h
  · cases h
    rfl

theorem checkMap_baseInfo {map : String} {key : Row} (h : s.checkMap map key.length = .ok ())
    (value : Value) : ∃ info, s.baseInfo map (key ++ [value]).length = .ok info := by
  obtain ⟨info, _, hinfo, _⟩ := checkMap_eq_ok h
  exact ⟨info, by simpa using hinfo⟩

/-! ### Operations -/

def Turns (s : Session) (op : Op) (out : Outcome Unit) : Prop :=
  (∃ r, out = (s, r) ∧ (op.isQuery = false → FailsOnly (·.isRefusal = true) r)) ∨
    (s.poisoned = false ∧ ∃ t u, s.Makes op t u ∧ out = t.change u)

theorem Turns.refused {r : Except RuntimeError Unit} (h : FailsOnly (·.isRefusal = true) r) :
    s.Turns op (s, r) := .inl ⟨r, rfl, fun _ => h⟩

theorem Turns.error {e : RuntimeError} (h : e.isRefusal = true) : s.Turns op (s, .error e) := by
  apply Turns.refused
  intro e' he
  cases he
  exact h

theorem addRow_turns (healthy : s.poisoned = false) {rel : String} {row : Row}
    {info : RelationInfo} (h : s.baseInfo rel row.length = .ok info) :
    s.Turns (.add rel row) (unanswered (s.addRow rel row)) := by
  unfold addRow
  split
  · exact .refused (.ok ())
  · rename_i hcontains
    have hmakes := Makes.add h (by simpa using hcontains)
    rcases hchange : s.change ⟨rel, .add, row⟩ with ⟨t, e | _⟩ <;>
      exact .inr ⟨healthy, s, _, hmakes, hchange.symm⟩

theorem add_turns (s : Session) (rel : String) (row : Row) :
    s.Turns (.add rel row) (unanswered (s.add rel row)) := by
  unfold add
  split
  · exact .error rfl
  · rename_i hpoisoned
    have healthy : s.poisoned = false := by simpa using hpoisoned
    split
    · rename_i hbase
      exact .error (baseInfo_refuses s rel row.length _ hbase)
    · rename_i info hbase
      split
      · exact addRow_turns healthy hbase
      · split
        · exact addRow_turns healthy hbase
        · split
          · exact .refused (.ok ())
          · exact .error rfl

theorem remove_turns (s : Session) (rel : String) (row : Row) :
    s.Turns (.remove rel row) (unanswered (s.remove rel row)) := by
  unfold remove
  split
  · exact .error rfl
  · rename_i hpoisoned
    split
    · rename_i hbase
      exact .error (baseInfo_refuses s rel row.length _ hbase)
    · rename_i hbase
      split
      · rename_i hcontains
        rcases hchange : s.change ⟨rel, .remove, row⟩ with ⟨t, e | _⟩ <;>
          exact .inr ⟨by simpa using hpoisoned, s, _, .remove hbase hcontains, hchange.symm⟩
      · exact .refused (.ok ())

theorem assign_turns (s : Session) (map : String) (key : Row) (value : Value) :
    s.Turns (.assign map key value) (unanswered (s.assign map key value)) := by
  unfold assign
  split
  · exact .error rfl
  · rename_i hpoisoned
    have healthy : s.poisoned = false := by simpa using hpoisoned
    split
    · rename_i hcheck
      exact .error (checkMap_refuses s map key.length _ hcheck)
    · rename_i hcheck
      split
      · rename_i hnone
        rcases hchange : s.change ⟨map, .add, key ++ [value]⟩ with ⟨t, e | _⟩ <;>
          exact .inr ⟨healthy, s, _, .assign hcheck hnone, hchange.symm⟩
      · rename_i old hold
        split
        · exact .refused (.ok ())
        · rcases hretract : s.change ⟨map, .remove, key ++ [old]⟩ with ⟨t, e | _⟩
          · exact .inr ⟨healthy, s, _, .retract hcheck hold, hretract.symm⟩
          · dsimp only
            rcases hchange : t.change ⟨map, .add, key ++ [value]⟩ with ⟨t', e | _⟩ <;>
              exact .inr ⟨healthy, t, _, .reassign hcheck hold hretract, hchange.symm⟩

theorem unassign_turns (s : Session) (map : String) (key : Row) :
    s.Turns (.unassign map key) (unanswered (s.unassign map key)) := by
  unfold unassign
  split
  · exact .error rfl
  · rename_i hpoisoned
    split
    · rename_i hcheck
      exact .error (checkMap_refuses s map key.length _ hcheck)
    · rename_i hcheck
      split
      · exact .refused (.ok ())
      · rename_i old hold
        rcases hchange : s.change ⟨map, .remove, key ++ [old]⟩ with ⟨t, e | _⟩ <;>
          exact .inr ⟨by simpa using hpoisoned, s, _, .unassign hcheck hold, hchange.symm⟩

theorem demand_turns (s : Session) (query : String) (params : Row) :
    s.Turns (.demand query params) (s.demand query params) := by
  unfold demand
  split
  · exact .error rfl
  · rename_i hpoisoned
    split
    · rename_i htarget
      exact .error (demandTarget_refuses s query params _ htarget)
    · rename_i htarget
      exact .inr ⟨by simpa using hpoisoned, _, _, .demand htarget, rfl⟩

theorem undemand_turns (s : Session) (query : String) (params : Row) :
    s.Turns (.undemand query params) (s.undemand query params) := by
  unfold undemand
  split
  · exact .error rfl
  · rename_i hpoisoned
    split
    · rename_i htarget
      exact .error (demandTarget_refuses s query params _ htarget)
    · rename_i htarget
      split
      · exact .error rfl
      · rename_i n hcount
        exact .inr ⟨by simpa using hpoisoned, _, _, .undemand htarget hcount, rfl⟩

theorem query_turns (s : Session) (name : String) (params : Row) :
    s.Turns (.query name params) (unanswered (s.query name params)) := by
  have hstay : ∀ r, s.Turns (.query name params) (s, r) := fun r => .inl ⟨r, rfl, nofun⟩
  unfold Session.query
  split
  · exact hstay _
  · rename_i hpoisoned
    split
    · exact hstay _
    · split
      · exact hstay _
      · split
        · exact hstay _
        · exact hstay _
        · split
          · exact hstay _
          · exact hstay _
          · rename_i hdemanded
            obtain ⟨set, htarget, hcontains⟩ := bind_eq_ok.mp hdemanded
            have hmakes := Makes.query htarget (by simpa [pure, Except.pure] using hcontains)
            unfold demand
            rw [if_neg hpoisoned, htarget]
            dsimp only
            rcases hchange : (s.setDemand name params (s.demandCount name params + 1)).change
              ⟨set, .add, params⟩ with ⟨t, e | _⟩ <;>
              exact .inr ⟨by simpa using hpoisoned, _, _, hmakes, hchange.symm⟩

/-- An operation is refused or is as good as the last change that it makes. -/
theorem perform_turns (s : Session) (op : Op) : s.Turns op (s.perform op) := by
  cases op with
  | add rel row => exact add_turns s rel row
  | remove rel row => exact remove_turns s rel row
  | assign map key value => exact assign_turns s map key value
  | unassign map key => exact unassign_turns s map key
  | demand query params => exact demand_turns s query params
  | undemand query params => exact undemand_turns s query params
  | query name params => exact query_turns s name params

theorem Makes.asks (h : s.Makes op t u) :
    s.Asks t u ∨ ∃ v r, s.Asks s v ∧ s.change v = (r, .ok ()) ∧
      (r.program = s.program → r.Asks t u) := by
  cases h with
  | add hbase | remove hbase => exact .inl (.base hbase)
  | assign hcheck =>
    obtain ⟨info, hinfo⟩ := checkMap_baseInfo hcheck _
    exact .inl (.base hinfo)
  | retract hcheck | unassign hcheck =>
    obtain ⟨info, hinfo⟩ := checkMap_baseInfo hcheck _
    exact .inl (.base hinfo)
  | @reassign map key value old t hcheck hold hchange =>
    obtain ⟨info, hinfo⟩ := checkMap_baseInfo hcheck old
    obtain ⟨info', hinfo'⟩ := checkMap_baseInfo hcheck value
    refine .inr ⟨_, t, .base hinfo, hchange, fun hprogram => ?_⟩
    have hsame : t.baseInfo map (key ++ [value]).length = .ok info' := by
      rw [← hinfo']
      unfold baseInfo
      rw [hprogram]
    exact .base hsame
  | demand htarget | query htarget => exact .inl (.demand htarget)
  | undemand htarget hcount => exact .inl (.undemand htarget hcount)

theorem Formed.of_asks {p : Program} (formed : s.Formed p) (h : s.Asks t u) : t.Formed p := by
  cases h with
  | base => exact formed
  | demand | undemand => exact formed.setDemand ..

/-! ### Invariants -/

def KeptByChanges (p : Program) (I : Session → Prop) : Prop :=
  ∀ s t t' u, s.Formed p → I s → s.Asks t u → t.change u = (t', .ok ()) → I t'

theorem KeptByChanges.makes {p : Program} {I : Session → Prop} (kept : KeptByChanges p I)
    (nodup : (p.catalog.map (·.name)).Nodup) (formed : s.Formed p) (hs : I s)
    (h : s.Makes op t u) : ∃ r, r.Formed p ∧ I r ∧ r.Asks t u := by
  rcases h.asks with hasks | ⟨v, r, hv, hchange, hasks⟩
  · exact ⟨s, formed, hs, hasks⟩
  · have formed' := formed.of_change nodup hchange
    exact ⟨r, formed', kept s s r v formed hs hv hchange,
      hasks (formed'.program.trans formed.program.symm)⟩

/-- What all changes keep holds after every history, until the session is poisoned. -/
theorem KeptByChanges.after {p : Program} {I : Session → Prop} (kept : KeptByChanges p I)
    (nodup : (p.catalog.map (·.name)).Nodup) (start : I (ofProgram p)) (ops : List Op) :
    ((ofProgram p).after ops).poisoned = true ∨
      (((ofProgram p).after ops).Formed p ∧ I ((ofProgram p).after ops)) := by
  suffices h : ∀ s : Session, (s.poisoned = true ∨ (s.Formed p ∧ I s)) →
      (s.after ops).poisoned = true ∨ ((s.after ops).Formed p ∧ I (s.after ops)) from
    h _ (.inr ⟨ofProgram_formed nodup, start⟩)
  induction ops with
  | nil => exact fun s h => h
  | cons op ops ih =>
    rintro s (hp | ⟨formed, hs⟩)
    · refine ih _ (.inl ?_)
      dsimp only
      rw [perform_poisoned hp]
      exact hp
    · refine ih _ ?_
      dsimp only
      rcases perform_turns s op with ⟨r, hout, _⟩ | ⟨_, t, u, hmakes, hout⟩
      · rw [hout]
        exact .inr ⟨formed, hs⟩
      · obtain ⟨r, formed', hr, hasks⟩ := kept.makes nodup formed hs hmakes
        rw [hout]
        rcases hchange : t.change u with ⟨t', e | _⟩
        · exact .inl (poisoned_of_change hchange)
        · exact .inr ⟨(formed'.of_asks hasks).of_change nodup hchange,
            kept r t t' u formed' hr hasks hchange⟩

/-! ### Pending changes -/

inductive Works (s : Session) (us : List Update) : Session → List Update → Prop where
  | start : Works s us s us
  | step {t t' : Session} {u : Update} {vs rest : List Update} : Works s us t (u :: rest) →
    t.apply u = (t', .ok vs) → Works s us t' (vs ++ rest)

end Session

end ViewUpkeep
