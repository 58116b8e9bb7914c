import ViewUpkeep.Proofs.Mishaps

/-!
Smooth consoles. Where every statement so far has succeeded, the session is not poisoned and has
passed inspection in its present state, if there is anything in it to inspect. Another base relation
of a new name then always compiles, with the same queries as before, and the console can only fail
to declare it by a mishap on replaying the rows and demands that it has.
-/
namespace ViewUpkeep

namespace Session

variable {p : Program} {s t : Session} {op : Op} {ops : List Op} {u : Update}

theorem Mishap.ofRuntime {e : RuntimeError} (h : Mishap p e) :
    Console.Failure.ofRuntime e = .runtime e := by
  cases h <;> rfl

/-- A session that has nothing to replay, or has passed inspection as it is now. -/
def Checked (s : Session) : Prop :=
  (s.baseRows = [] ∧ s.asked = []) ∨ s.inspectAll s.program.queries = .ok ()

theorem ofProgram_checked (nodup : (p.catalog.map (·.name)).Nodup) : (ofProgram p).Checked := by
  obtain ⟨hsound, _, hcount⟩ := Store.declared nodup p.indices
  refine .inl ⟨List.eq_nil_iff_forall_not_mem.mpr fun r hr => ?_,
    by simp [asked, userDemands, ofProgram]⟩
  have hhas := ((mem_baseRows (ofProgram_formed nodup) nodup).mp hr).2
  have hpos := (hsound.count_pos_iff r.1 r.2).mpr hhas
  rw [hcount] at hpos
  cases hpos

theorem inspectAll_of_change (h : s.change u = (t, .ok ())) :
    t.inspectAll t.program.queries = .ok () := by
  unfold change at h
  split at h
  · cases h
  · split at h
    · cases h
    · rename_i hinspect
      cases h
      exact hinspect

theorem Checked.perform (checked : s.Checked) (h : (s.perform op).2 = .ok ()) :
    (s.perform op).1.Checked := by
  rcases perform_turns s op with ⟨r, hout, _⟩ | ⟨_, t, u, _, hout⟩
  · rw [hout]
    exact checked
  · rw [hout] at h ⊢
    exact .inr (inspectAll_of_change (Prod.ext rfl h))

theorem Checked.attempt (checked : s.Checked) (h : s.attempt ops = .ok t) : t.Checked := by
  induction ops generalizing s with
  | nil =>
    cases h
    exact checked
  | cons op ops ih =>
    obtain ⟨r, hperform, h⟩ := attempt_cons h
    have hchecked := checked.perform (congrArg Prod.snd hperform)
    rw [hperform] at hchecked
    exact ih hchecked h

end Session

namespace Console

variable {settings : Settings} {c : Console} {s : Spanned Statement}

inductive Smooth (settings : Settings) : Console → Prop where
  | start : Smooth settings (start settings)
  | step {c c' : Console} {s : Spanned Statement} {r : Result} : Smooth settings c →
    Statement.Written s → c.executeStatement s = (c', .ok r) → Smooth settings c'

theorem Smooth.execute (h : Smooth settings c) {text : String} {results : List Result}
    (hok : (c.execute text).2 = .ok results) : Smooth settings (c.execute text).1 := by
  have hall : ∀ (script : Script) (c : Console) (results : List Result), Smooth settings c →
      (∀ s ∈ script, Statement.Written s) → (c.executeAll script).2 = .ok results →
      Smooth settings (c.executeAll script).1 := by
    intro script
    induction script with
    | nil => exact fun c _ h _ _ => h
    | cons s rest ih =>
      intro c results h written hok
      obtain ⟨hs, hrest⟩ := List.forall_mem_cons.mp written
      unfold executeAll at hok ⊢
      rcases hout : c.executeStatement s with ⟨c', e | r⟩ <;> rw [hout] at hok
      · cases hok
      · cases hmore : (c'.executeAll rest).2 with
        | error e =>
          simp only [hmore] at hok
          cases hok
        | ok more => exact ih c' more (h.step hs hout) hrest hmore
  unfold Console.execute at hok ⊢
  split at hok
  · cases hok
  · rename_i script hscript
    exact hall script c results h (fun s hs => ⟨text, script, hscript, hs⟩) hok

theorem Smooth.runs (h : Smooth settings c) :
    ∃ p ops, c.Runs p ops ∧ c.session.poisoned = false ∧ c.session.Checked := by
  induction h with
  | start => exact ⟨_, _, start_runs settings, rfl, Session.ofProgram_checked List.nodup_nil⟩
  | @step c c' s r _ written hout ih =>
    obtain ⟨p, ops, runs, healthy, checked⟩ := ih
    have hc' : (c.executeStatement s).1 = c' := by rw [hout]
    have hok : (c.executeStatement s).2 = .ok r := by rw [hout]
    rw [← hc']
    rcases c.executeStatement_cases s with ⟨kind, name, _, hdeclare⟩ | ⟨op, hperform, hdone⟩ | hsame
    · rw [hdeclare] at hok ⊢
      obtain ⟨p', runs', hattempt, _⟩ := runs.declare written.wellNamed hok
      obtain ⟨d, _, _, sound, built, _⟩ := Compile.ofScript_built runs'.named runs'.compiles
      exact ⟨p', _, runs', Session.attempt_poisoned hattempt,
        (Session.ofProgram_checked (built.nodup_catalog sound)).attempt hattempt⟩
    · rw [hperform]
      have hop := hdone r hok
      exact ⟨p, ops ++ [op], runs.perform op, (Session.perform_poisoned_eq hop).trans healthy,
        checked.perform hop⟩
    · rw [hsame]
      exact ⟨p, ops, runs, healthy, checked⟩

def executeTexts (c : Console) : List String → Option Console
  | [] => some c
  | text :: rest =>
    match c.execute text with
    | (c, .ok _) => c.executeTexts rest
    | (_, .error _) => none

theorem Smooth.executeTexts (h : Smooth settings c) {texts : List String} {c' : Console}
    (hsome : c.executeTexts texts = some c') : Smooth settings c' := by
  induction texts generalizing c with
  | nil =>
    cases hsome
    exact h
  | cons text rest ih =>
    unfold Console.executeTexts at hsome
    split at hsome
    · rename_i hout
      refine ih ?_ hsome
      have hsmooth := h.execute (congrArg Prod.snd hout)
      rwa [hout] at hsmooth
    · cases hsome

end Console

end ViewUpkeep
