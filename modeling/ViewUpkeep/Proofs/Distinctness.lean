import ViewUpkeep.Proofs.Handler

/-!
Duplicate safety is sound. The row of a duplicate-safe comprehension determines the values of every
variable that a pattern or a parameter binds, so that no row is derived in two ways.
-/
namespace ViewUpkeep.Comprehension

/-- The variables that a binding has: those of the patterns, wildcards included, and the
parameters. -/
def boundVars (c : Comprehension) : List Var := (c.join.enumVars ++ c.params).eraseDups

theorem mem_boundVars {c : Comprehension} {v : Var} :
    v ∈ c.boundVars ↔ v ∈ c.join.enumVars ∨ v ∈ c.params := by
  simp [boundVars]

def derivations (c : Comprehension) (facts : Facts) (row : Row) : Set Row :=
  { b | b.length = c.boundVars.length ∧ c.join.Holds facts (c.boundVars.zip b) ∧
    c.output.evalRow (c.boundVars.zip b) = .ok row }

/-- Two bindings with the same row agree on every variable of a pattern and on every parameter.
Hence a row has at most one derivation, and one witness at most if the conditions and expressions of
the join read no other variables. -/
theorem isDuplicateSafe_determines {c : Comprehension} (safe : c.isDuplicateSafe = true) :
    (∀ (env other : Env) (row : Row), c.output.evalRow env = .ok row →
      c.output.evalRow other = .ok row → ∀ v ∈ c.boundVars, env.get? v = other.get? v) ∧
    (∀ facts row, (c.derivations facts row).Subsingleton) ∧
    (c.join.vars ⊆ c.boundVars → ∀ facts row, c.multiplicity facts row ≤ 1) := by
  refine ⟨fun env other row h k v hv => ?_, fun facts row => ?_, fun closed facts row => ?_⟩
  · exact get?_eq_of_output safe h k (mem_boundVars.mp hv)
  · rintro b ⟨hlen, _, hout⟩ b' ⟨hlen', _, hout'⟩
    exact eq_of_output safe (nodup_eraseDups _) (fun _ => mem_boundVars.mp) hlen hlen' hout hout'
  · exact multiplicity_le_one (fun v hv => mem_boundVars.mp (closed hv)) safe facts row

/-- Routes from a place by way of one that the query does not name: `{((y, 7), _) : (x, _) in leg,
(_, y) in leg}` with the parameter `x`. -/
def routes : Comprehension where
  join := [.member [⟨"x"⟩, Var.anonymous 0] "leg", .member [Var.anonymous 0, ⟨"y"⟩] "leg"]
  result := .tuple [.tuple [.var ⟨"y"⟩, .const (.int 7)], .var (Var.anonymous 0)]
  params := [⟨"x"⟩]

def legs : Facts := fun rel row =>
  rel = "leg" ∧ row ∈ [[.int 1, .int 2], [.int 1, .int 3], [.int 2, .int 4], [.int 3, .int 4]]

theorem isDuplicateSafe_determines_routes :
    routes.isDuplicateSafe = true ∧
      routes.derivations legs [.int 1, .tuple [.int 4, .int 7], .int 2] =
        {[.int 1, .int 2, .int 4]} ∧
      routes.multiplicity legs [.int 1, .tuple [.int 4, .int 7], .int 2] ≤ 1 := by
  have safe : routes.isDuplicateSafe = true := by decide
  obtain ⟨_, hsingle, hle⟩ := isDuplicateSafe_determines safe
  refine ⟨safe, (hsingle legs _).eq_singleton_of_mem ⟨rfl, ?_, rfl⟩, hle (by decide) legs _⟩
  simp only [Join.Holds, routes, List.forall_mem_cons]
  refine ⟨⟨[.int 1, .int 2], rfl, rfl, by simp⟩, ⟨[.int 2, .int 4], rfl, rfl, by simp⟩, by simp⟩

end ViewUpkeep.Comprehension
