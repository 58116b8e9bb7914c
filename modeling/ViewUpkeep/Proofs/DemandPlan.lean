import ViewUpkeep.Proofs.Coverage

/-!
What the plan of a demanded query says. A plan puts filters in the place of clauses, and demands
other queries by entries. Over tags and filters that hold what they derive, the join of the plan
says what the join says that it was made from, and its entries derive every argument for which that
join asks another query. What the entries demand makes no difference to this.
-/
namespace ViewUpkeep

/-- A clause as a join may be planned with: over a demanded query, a membership whose pattern
starts with the arguments. -/
def Clause.Plannable : Clause → Prop
  | .member .. | .mapMember .. | .singleton .. | .cond _ => True
  | .demand inner _ params => ∃ lhs rel, inner = .member (params ++ lhs) rel
  | .delta .. | .without .. | .withExtra .. => False

namespace Clause.Plannable

variable {c : Clause}

theorem plain (h : c.Plannable) : c.Plain := by
  cases c with
  | demand inner subquery params =>
    obtain ⟨lhs, rel, rfl⟩ := h
    trivial
  | member | mapMember | singleton | cond => trivial
  | delta | without | withExtra => cases h

theorem args_subset (h : c.Plannable) :
    ∀ inner subquery params, c = .demand inner subquery params → params ⊆ c.lhs := by
  rintro inner subquery params rfl
  obtain ⟨lhs, rel, rfl⟩ := h
  exact List.subset_append_left _ _

end Clause.Plannable

namespace Demand

variable {query : String} {filters : Bool} {j : Join} {cs kept : List Support}
  {selected : List Nat} {facts : Facts} {env : Env}

theorem apart_of_args (h : supportsFrom query filters 0 [] j = .ok cs)
    (names : ∀ inner subquery params, .demand inner subquery params ∈ j → ∀ v ∈ params,
      setName subquery ≠ tagName query v) : Apart query cs := by
  intro s hs hentry v hread
  obtain ⟨pre, c, post, guard, rfl, hguard, hs | ⟨_, _, rfl⟩⟩ := mem_supportsFrom h hs
  · cases guardOf_guards hguard s hs with
    | filter => cases hentry
    | @entry inner subquery params =>
      have hrels : tagName query v ∈ Join.rels (tagClauses query params.eraseDups) := by
        simpa [Support.reads] using hread
      obtain ⟨d, hd, hrel⟩ := Join.mem_rels.mp hrels
      obtain ⟨w, hw, rfl⟩ := List.mem_map.mp hd
      have hv : w = v := tagName_inj (Option.some.inj hrel)
      exact names inner subquery params (by simp) v (hv ▸ List.mem_eraseDups.mp hw)
  · cases hentry

end Demand

namespace DemandPlan

/-- The demand set of `Q.T_x` is named like the tag of `x.U`. -/
def clashingJoin : Join :=
  [.member [⟨"x.U"⟩] "R", .demand (.member [⟨"x.U"⟩] "S") "Q.T_x" [⟨"x.U"⟩]]

def clashingEnv : Env := [(⟨"x.U"⟩, .int 1)]

def clashingFacts : Facts := fun rel row => (rel, row) ∈ [("R", [Value.int 1]), ("S", [.int 1])]

/-- Where a demand set has the name of a tag that its entry reads, this tag is pruned: the join
holds, and the entry derives nothing. -/
theorem entry_without_tag : ∃ plan, DemandPlan.ofJoin "Q" clashingJoin true .silent = .ok plan ∧
    (∀ c ∈ clashingJoin, c.Plannable) ∧ clashingJoin.rels = ["R", "S"] ∧
    (∀ s ∈ plan.supports, s.isEntry = false →
      ∀ row, clashingFacts s.target row ↔ s.spec.Yields clashingFacts row) ∧
    clashingJoin.Holds clashingFacts clashingEnv ∧
    plan.supports.map (·.kind) = [.entry "Q.T_x"] ∧
    ∀ s ∈ plan.supports, ∀ row, ¬ s.spec.Yields clashingFacts row := by
  refine ⟨⟨[⟨.entry "Q.T_x", 1, "Q.T_x.U",
    ⟨[.member [⟨"x.U"⟩] "Q.T_x.U"], .tupleOf [⟨"x.U"⟩], []⟩⟩], [], clashingJoin⟩, rfl, ?_, rfl, ?_, ?_,
    rfl, ?_⟩
  · simp [clashingJoin, Clause.Plannable]
  · rintro s hs hentry
    cases List.mem_singleton.mp hs
    cases hentry
  · simp only [clashingJoin, Join.Holds, List.forall_mem_cons, Clause.Holds]
    exact ⟨⟨[.int 1], rfl, by simp [clashingFacts]⟩, ⟨[.int 1], rfl, by simp [clashingFacts]⟩,
      by simp⟩
  · rintro s hs row ⟨env, hholds, _⟩
    cases List.mem_singleton.mp hs
    obtain ⟨tuple, _, hfact⟩ := hholds _ List.mem_cons_self
    simp [clashingFacts] at hfact

end DemandPlan

end ViewUpkeep
