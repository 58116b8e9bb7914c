import ViewUpkeep.Proofs.Extension
import ViewUpkeep.Proofs.Replay

/-!
Consoles. A statement declares something or performs at most one operation, and a console that it
leads to goes on with a session of the program of its declarations. A declaration that fails leaves
the console alone; one that does not starts a session that replays the one before.
-/
namespace ViewUpkeep

def Statement.Written (s : Spanned Statement) : Prop :=
  ∃ text script, Script.ofText text = .ok script ∧ s ∈ script

theorem Statement.Written.wellNamed {s : Spanned Statement} (h : Written s) :
    s.node.WellNamed := by
  obtain ⟨_, _, hscript, hs⟩ := h
  exact Script.ofText_wellNamed hscript s hs

namespace Console

variable {c : Console} {s : Spanned Statement} {kind name : String}

/-! ### Statements -/

theorem declare_of_error {e : Failure} (h : (c.declare s kind name).2 = .error e) :
    (c.declare s kind name).1 = c := by
  unfold declare at h ⊢
  dsimp only at h ⊢
  repeat' split
  all_goals first | rfl | simp_all

theorem declare_of_ok {r : Result} (h : (c.declare s kind name).2 = .ok r) :
    ∃ p session, Program.ofScript ⟨c.settings, .silent⟩ (c.declarations ++ [s]) = .ok p ∧
      p.breach? = none ∧ carryOver p c.session = .ok session ∧ (c.declare s kind name).1 =
        { c with declarations := c.declarations ++ [s], session } := by
  unfold declare at h ⊢
  dsimp only at h ⊢
  split at h
  · cases h
  · rename_i p hp
    split at h
    · cases h
    · rename_i hbreach
      split at h
      · cases h
      · rename_i session hsession
        exact ⟨p, session, hp, hbreach, hsession, rfl⟩

/-- A statement that performs an operation, and does not fail unless the operation does. -/
def Performs (c : Console) (op : Session.Op) (out : Console × Except Failure Result) : Prop :=
  out.1 = { c with session := (c.session.perform op).1 } ∧
    ∀ r, out.2 = .ok r → (c.session.perform op).2 = .ok ()

theorem conclude_performs {α : Type} {op : Session.Op} {out : Session.Outcome α}
    (h : c.session.perform op = Session.unanswered out) (say : α → Result) :
    c.Performs op (c.conclude out say) := by
  unfold Performs
  rw [h]
  refine ⟨rfl, fun r hr => ?_⟩
  obtain ⟨t, e | a⟩ := out
  · cases hr
  · rfl

/-- A statement declares something, performs an operation, or leaves the console as it is. -/
theorem executeStatement_cases (c : Console) (s : Spanned Statement) :
    (∃ kind name, s.node.declares = some name ∧ c.executeStatement s = c.declare s kind name) ∨
    (∃ op, c.Performs op (c.executeStatement s)) ∨ (c.executeStatement s).1 = c := by
  have hconstants : ∀ ts k, (∀ row, ∃ op, c.Performs op (k row)) →
      (∃ op, c.Performs op (c.withConstants ts k)) ∨ (c.withConstants ts k).1 = c := by
    intro ts k hk
    unfold withConstants
    split
    · exact .inr rfl
    · exact .inl (hk _)
  unfold executeStatement
  split
  · rename_i hs
    exact .inl ⟨_, _, by rw [hs]; rfl, rfl⟩
  · rename_i hs
    exact .inl ⟨_, _, by rw [hs]; rfl, rfl⟩
  · rename_i hs
    exact .inl ⟨_, _, by rw [hs]; rfl, rfl⟩
  · rename_i rel args _
    exact .inr (hconstants _ _ fun row => ⟨.add rel row, conclude_performs rfl _⟩)
  · rename_i rel args _
    exact .inr (hconstants _ _ fun row => ⟨.remove rel row, conclude_performs rfl _⟩)
  · rename_i map keys t _
    cases t.constant with
    | error e =>
      right
      right
      unfold withConstants
      split <;> rfl
    | ok value =>
      exact .inr (hconstants _ _ fun key => ⟨.assign map key value, conclude_performs rfl _⟩)
  · rename_i map keys _
    exact .inr (hconstants _ _ fun key => ⟨.unassign map key, conclude_performs rfl _⟩)
  · rename_i query args _
    exact .inr (hconstants _ _ fun row =>
      ⟨.demand query row, conclude_performs (Session.unanswered_unit _).symm _⟩)
  · rename_i query args _
    exact .inr (hconstants _ _ fun row =>
      ⟨.undemand query row, conclude_performs (Session.unanswered_unit _).symm _⟩)
  · exact .inr (.inr rfl)
  · rename_i name args _
    exact .inr (hconstants _ _ fun row => ⟨.query name row, conclude_performs rfl _⟩)

/-! ### Consoles and their sessions -/

/-- The consoles that statements lead to, failed ones included. -/
inductive Reachable (settings : Settings) : Console → Prop where
  | start : Reachable settings (start settings)
  | step {c : Console} {s : Spanned Statement} : Reachable settings c → Statement.Written s →
    Reachable settings (c.executeStatement s).1

/-- A console whose session is of the program of its declarations, after some operations. -/
structure Runs (c : Console) (p : Program) (ops : List Session.Op) : Prop where
  named : ∀ s ∈ c.declarations, s.node.WellNamed
  compiles : Program.ofScript ⟨c.settings, .silent⟩ c.declarations = .ok p
  breach : p.breach? = none
  session : c.session = (Session.ofProgram p).after ops

theorem start_runs (settings : Settings) : (start settings).Runs .empty [] :=
  ⟨by simp [start], rfl, rfl, rfl⟩

theorem Runs.perform {p : Program} {ops : List Session.Op} (runs : c.Runs p ops)
    (op : Session.Op) :
    ({ c with session := (c.session.perform op).1 } : Console).Runs p (ops ++ [op]) := by
  refine ⟨runs.named, runs.compiles, runs.breach, ?_⟩
  rw [Session.after_concat, ← runs.session]

theorem Runs.declare {p : Program} {ops : List Session.Op} (runs : c.Runs p ops)
    (hs : s.node.WellNamed) {r : Result} (h : (c.declare s kind name).2 = .ok r) :
    ∃ p', (c.declare s kind name).1.Runs p'
        (Session.replayOf c.session.baseRows c.session.asked) ∧
      (Session.ofProgram p').attempt (Session.replayOf c.session.baseRows c.session.asked) =
        .ok (c.declare s kind name).1.session ∧
      (c.declare s kind name).1.declarations = c.declarations ++ [s] ∧
      (c.declare s kind name).1.settings = c.settings := by
  obtain ⟨p', session, hp, hbreach, hsession, hout⟩ := declare_of_ok h
  rw [Session.carryOver_eq] at hsession
  rw [hout]
  refine ⟨p', ⟨?_, hp, hbreach, Session.after_of_attempt hsession⟩, hsession, rfl, rfl⟩
  intro t ht
  rcases List.mem_append.mp ht with ht | ht
  · exact runs.named t ht
  · rw [List.mem_singleton.mp ht]
    exact hs

theorem Reachable.runs {settings : Settings} (h : Reachable settings c) :
    ∃ p ops, c.Runs p ops := by
  induction h with
  | start => exact ⟨_, _, start_runs settings⟩
  | @step c s _ written ih =>
    obtain ⟨p, ops, runs⟩ := ih
    rcases c.executeStatement_cases s with ⟨kind, name, _, hout⟩ | ⟨op, hout, _⟩ | hout
    · rw [hout]
      cases hresult : (c.declare s kind name).2 with
      | error e =>
        rw [declare_of_error hresult]
        exact ⟨p, ops, runs⟩
      | ok r =>
        obtain ⟨p', runs', _⟩ := runs.declare written.wellNamed hresult
        exact ⟨p', _, runs'⟩
    · rw [hout]
      exact ⟨p, ops ++ [op], runs.perform op⟩
    · rw [hout]
      exact ⟨p, ops, runs⟩

theorem Reachable.execute {settings : Settings} (h : Reachable settings c) (text : String) :
    Reachable settings (c.execute text).1 := by
  have hall : ∀ (script : Script) (c : Console), Reachable settings c →
      (∀ s ∈ script, Statement.Written s) → Reachable settings (c.executeAll script).1 := by
    intro script
    induction script with
    | nil => exact fun c h _ => h
    | cons s rest ih =>
      intro c h written
      obtain ⟨hs, hrest⟩ := List.forall_mem_cons.mp written
      have hstep := h.step hs
      unfold executeAll
      rcases hout : c.executeStatement s with ⟨c', e | r⟩ <;> rw [hout] at hstep
      · exact hstep
      · exact ih c' hstep hrest
  unfold Console.execute
  split
  · exact h
  · rename_i script hscript
    exact hall script c h fun s hs => ⟨text, script, hscript, hs⟩

end Console

end ViewUpkeep
