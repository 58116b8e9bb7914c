import ViewUpkeep.Proofs.Coverage
import ViewUpkeep.Proofs.Soundness

/-!
The code of plans and handlers. The code of a plan is sound, because each clause has its turn when
the variables that it needs are bound, and so is the code of every handler. In it the changed row is
taken apart by the patterns of clauses over its relation.
-/
namespace ViewUpkeep

/-! ### The code of clauses and plans -/

namespace Mask

theorem subset_of_allBound {pattern bound : List Var}
    (h : (ofPattern pattern bound).allBound = true) : pattern ⊆ bound := by
  intro v hv
  have hall := List.all_eq_true.mp h _ (List.mem_map_of_mem hv)
  simpa using hall

theorem select_subset (pattern bound : List Var) : (ofPattern pattern bound).select pattern ⊆ bound := by
  unfold ofPattern select
  induction pattern with
  | nil => simp
  | cons v vs ih =>
    by_cases hv : v ∈ bound
    · simpa [hv] using ih
    · simpa [hv] using ih

end Mask

namespace Clause

variable {known : String → Prop} {sink : Option (List Var)} {bound : List Var}

def valueVars : Clause → List Var
  | .delta _ _ value => value.mentions
  | .without inner value | .withExtra inner value => inner.valueVars ++ value.mentions
  | .demand inner _ _ => inner.valueVars
  | _ => []

theorem Plain.valueVars_eq_nil {c : Clause} (plain : c.Plain) : c.valueVars = [] := by
  cases c with
  | demand inner => cases inner <;> first | rfl | cases plain
  | delta | without | withExtra => cases plain
  | _ => rfl

theorem memberCode_sound {lhs : List Var} {rel : String} {body : Code} (hrel : known rel)
    (hbody : body.Sound known sink (bound ++ lhs)) :
    (memberCode bound lhs rel body).Sound known sink bound := by
  unfold memberCode
  dsimp only
  split
  · rename_i hall
    have hsub := Mask.subset_of_allBound hall
    exact ⟨hrel, hsub, hbody.mono (List.append_subset.mpr ⟨List.Subset.refl bound, hsub⟩)⟩
  · split
    · exact ⟨hrel, hbody⟩
    · exact ⟨hrel, Mask.select_subset lhs bound, hbody⟩

theorem code_sound {c : Clause} {body code : Code} (h : c.code bound body = .ok code)
    (hrate : c.rate bound ≠ .unrunnable) (hrel : ∀ rel, c.rel? = some rel → known rel)
    (hvalue : c.valueVars ⊆ bound) (hbody : body.Sound known sink (bound ++ c.lhs)) :
    code.Sound known sink bound := by
  induction c generalizing body code with
  | member lhs rel | mapMember lhs rel n =>
    cases h
    exact memberCode_sound (hrel rel rfl) hbody
  | singleton lhs expr =>
    obtain ⟨_, _, h⟩ := bind_eq_ok.mp h
    cases h
    exact ⟨fun v hv => rate_singleton.mp hrate ((expr.mem_vars v).mpr hv), hbody⟩
  | delta lhs rel value =>
    cases h
    exact ⟨hvalue, hbody⟩
  | without inner value ih =>
    obtain ⟨hinner, hgiven⟩ := List.append_subset.mp hvalue
    refine ih h hrate hrel hinner ⟨?_, hbody⟩
    intro v hv
    rcases List.mem_append.mp hv with hv | hv
    · refine List.mem_append_right _ ?_
      rwa [Expr.tupleOf, Expr.mentions, Expr.mentionsAll_vars] at hv
    · exact List.mem_append_left _ (hgiven hv)
  | withExtra inner value ih =>
    obtain ⟨hinner, hgiven⟩ := List.append_subset.mp hvalue
    obtain ⟨present, hpresent, h⟩ := bind_eq_ok.mp h
    cases h
    exact ⟨ih hpresent hrate hrel hinner hbody, ⟨hgiven, hbody⟩, trivial⟩
  | demand inner query params ih =>
    obtain ⟨_, _, h⟩ := bind_eq_ok.mp h
    exact ih h (rate_demand_iff.mp hrate).2 hrel hvalue hbody
  | cond expr =>
    obtain ⟨_, _, h⟩ := bind_eq_ok.mp h
    cases h
    refine ⟨fun v hv => rate_cond.mp hrate ((expr.mem_vars v).mpr hv), hbody.mono ?_⟩
    exact List.append_subset.mpr ⟨List.Subset.refl bound, List.nil_subset bound⟩

end Clause

theorem Plan.Chained.code_sound {known : String → Prop} {sink : Option (List Var)}
    {bound : List Var} {steps : List Step} (h : Chained bound steps) {leaf code : Code}
    (hcode : Plan.code steps leaf = .ok code)
    (hrel : ∀ s ∈ steps, ∀ rel, s.clause.rel? = some rel → known rel)
    (hvalue : ∀ s ∈ steps, s.clause.valueVars ⊆ bound)
    (hleaf : leaf.Sound known sink (bound ++ steps.flatMap (·.clause.lhs))) :
    code.Sound known sink bound := by
  induction steps generalizing bound code with
  | nil =>
    cases hcode
    exact hleaf.mono (by simp)
  | cons s rest ih =>
    obtain ⟨rfl, hrate, hrest⟩ := h
    obtain ⟨inner, hinner, hcode⟩ := bind_eq_ok.mp hcode
    obtain ⟨hsrel, hrel⟩ := List.forall_mem_cons.mp hrel
    obtain ⟨hsvalue, hvalue⟩ := List.forall_mem_cons.mp hvalue
    have henum : s.clause.enumVars ⊆ s.clause.lhs := fun v hv => List.mem_eraseDups.mp hv
    have hlhs : s.clause.lhs ⊆ s.clause.enumVars := fun v hv => List.mem_eraseDups.mpr hv
    have hsound : inner.Sound known sink (s.bound ++ s.clause.enumVars) := by
      apply ih hrest hinner hrel
      · exact fun t ht => List.Subset.trans (hvalue t ht) (List.subset_append_left ..)
      · apply hleaf.mono
        rw [List.flatMap_cons, ← List.append_assoc]
        apply append_subset_append_right
        exact List.append_subset.mpr ⟨List.subset_append_left ..,
          List.Subset.trans hlhs (List.subset_append_right ..)⟩
    refine Clause.code_sound hcode hrate hsrel hsvalue (hsound.mono ?_)
    exact List.append_subset.mpr ⟨List.subset_append_left ..,
      List.Subset.trans henum (List.subset_append_right ..)⟩

/-! ### The code of handlers -/

theorem Join.mem_deltaAt {j : Join} {rel : String} {value : Expr} {strategy : SelfJoin} {i : Nat}
    {d : Clause} (h : d ∈ j.deltaAt rel value strategy i) : ∃ c ∈ j,
      (j[i]? = some c ∧ d = c.singletonize value) ∨
      (c.rel? = some rel ∧ d = adjust strategy value c) ∨ d = c := by
  obtain ⟨⟨c, k⟩, hk, rfl⟩ := List.mem_map.mp h
  have hget := List.mem_zipIdx_iff_getElem?.mp hk
  refine ⟨c, List.mem_of_getElem? hget, ?_⟩
  dsimp only
  split
  · rename_i hki
    exact .inl ⟨hki ▸ hget, rfl⟩
  · split
    · rename_i hlater
      exact .inr (.inl ⟨by simpa using (Bool.and_eq_true_iff.mp hlater).2, rfl⟩)
    · exact .inr (.inr rfl)

namespace Handler

variable {known : String → Prop} {sink : Option (List Var)} {owner : String} {estimate : Estimator}
  {leaf : Code} {c : Comprehension} {rel : String} {strategy : SelfJoin}

theorem mem_branches {js : List (Nat × Join)} {cs : List Code}
    (h : branches owner estimate leaf js = .ok cs) :
    ∀ code ∈ cs, ∃ j ∈ js, branch owner estimate leaf j.2 = .ok code :=
  fun _ hcode => exists_of_forall₂ (branches_forall₂ h).flip hcode

theorem branch_sound (plain : ∀ d ∈ c.join, d.Plain)
    (hknown : ∀ d ∈ c.join, ∀ r, d.rel? = some r → known r) {i : Nat} {code : Code}
    (h : branch owner estimate leaf (c.join.deltaAt rel (.var Var.delta) strategy i) = .ok code)
    (hleaf : leaf.Sound known sink ([Var.delta] ++ c.join.flatMap (·.lhs))) :
    code.Sound known sink [Var.delta] := by
  obtain ⟨steps, hsteps, hcode⟩ := branch_eq_ok h
  have hperm := Plan.complete_perm hsteps
  have hclause : ∀ s ∈ steps, (∀ r, s.clause.rel? = some r → known r) ∧
      s.clause.valueVars ⊆ [Var.delta] := by
    intro s hs
    obtain ⟨d, hd, ⟨_, he⟩ | ⟨_, he⟩ | he⟩ :=
      Join.mem_deltaAt (hperm.mem_iff.mp (List.mem_map_of_mem hs)) <;> rw [he]
    · exact ⟨nofun, List.Subset.refl _⟩
    · have hnone := (plain d hd).valueVars_eq_nil
      cases strategy <;> refine ⟨hknown d hd, ?_⟩ <;>
        simp [Join.adjust, Clause.valueVars, hnone, Expr.mentions]
    · exact ⟨hknown d hd, by simp [(plain d hd).valueVars_eq_nil]⟩
  apply (Plan.complete_chained hsteps).code_sound hcode
  · exact fun s hs => (hclause s hs).1
  · exact fun s hs => (hclause s hs).2
  · apply hleaf.mono
    refine List.append_subset.mpr ⟨List.subset_append_left .., fun v hv => ?_⟩
    apply List.mem_append_right
    rw [Plan.complete_lhs hsteps, Join.exists_lhs_deltaAt]
    exact List.mem_flatMap.mp hv

theorem ofList_sound {bound : List Var} {cs : List Code}
    (h : ∀ code ∈ cs, code.Sound known sink bound) : (Code.ofList cs).Sound known sink bound := by
  unfold Code.ofList
  split
  · exact h _ (List.mem_singleton_self _)
  · exact Code.soundAll_iff.mpr h

/-- The code of a handler is sound. -/
theorem make_sound (proper : c.Proper) (closed : c.Closed)
    (hknown : ∀ d ∈ c.join, ∀ r, d.rel? = some r → known r) {target : String} {change : Change}
    {h : Handler} (hmake : make c target rel change strategy estimate = .ok h) :
    h.code.Sound known none [Var.delta] := by
  have hbranch : ∀ {leaf sink cs},
      branches target estimate leaf (c.join.deltas rel (.var Var.delta) strategy) = .ok cs →
      leaf.Sound known sink ([Var.delta] ++ c.join.flatMap (·.lhs)) →
      ∀ code ∈ cs, code.Sound known sink [Var.delta] := by
    intro leaf sink cs hcs hleaf code hcode
    obtain ⟨j, hj, hcode⟩ := mem_branches hcs code hcode
    obtain ⟨i, _, rfl⟩ := List.mem_map.mp hj
    exact branch_sound proper.plain hknown hcode hleaf
  have hoccurs : ∀ {v}, (∃ d ∈ c.join, v ∈ d.lhs) → v ∈ [Var.delta] ++ c.join.flatMap (·.lhs) :=
    fun hv => List.mem_append_right _ (List.mem_flatMap.mpr hv)
  obtain ⟨_, _, _, _, ⟨_, cs, hcs, hcode⟩ | ⟨_, cs, hcs, hcode⟩⟩ := make_eq_ok hmake
  · rw [hcode]
    refine ⟨Code.soundAll_iff.mpr (hbranch hcs ⟨_, rfl, fun v hv => hoccurs (closed.vars v hv)⟩), ?_⟩
    intro v hv
    obtain ⟨d, hd, hvd⟩ := closed.output v hv
    refine List.mem_append_right _ (Join.mem_vars.mpr ⟨d, hd, .inl hvd, ?_⟩)
    rintro rfl
    exact proper.output_delta hv
  · rw [hcode]
    exact ofList_sound (hbranch hcs fun v hv => hoccurs (closed.output v hv))

end Handler

/-! ### Patterns of the changed row -/

namespace Code

mutual

def changedPatterns : Code → List (List Var)
  | .block items => changedPatternsAll items
  | .scan _ _ body | .lookup _ _ _ body | .member _ _ body | .test _ body => body.changedPatterns
  | .bind pattern expr body =>
    (if expr = .var Var.delta then [pattern] else []) ++ body.changedPatterns
  | .union _ _ branches body => changedPatternsAll branches ++ body.changedPatterns
  | .update .. | .collect => []

def changedPatternsAll : List Code → List (List Var)
  | [] => []
  | c :: cs => c.changedPatterns ++ changedPatternsAll cs

end

theorem mem_changedPatternsAll {cs : List Code} {pattern : List Var} :
    pattern ∈ changedPatternsAll cs ↔ ∃ c ∈ cs, pattern ∈ c.changedPatterns := by
  induction cs with
  | nil => simp [changedPatternsAll]
  | cons c cs ih => simp [changedPatternsAll, ih]

end Code

namespace Clause

/-- A clause that takes the changed row apart into a given number of items, if it does so at all. -/
def TakesApart (n : Nat) : Clause → Prop
  | .singleton _ expr => expr ≠ .var Var.delta
  | .delta lhs _ _ => lhs.length = n
  | .without inner _ | .demand inner _ _ => inner.TakesApart n
  | .withExtra inner _ => inner.lhs.length = n ∧ inner.TakesApart n
  | _ => True

theorem Plain.takesApart {c : Clause} (plain : c.Plain) (hdelta : Var.delta ∉ c.mentions) (n : Nat) :
    c.TakesApart n := by
  cases c with
  | singleton lhs expr =>
    rintro rfl
    exact hdelta (List.mem_append_right _ (List.mem_singleton_self _))
  | demand inner => cases inner <;> trivial
  | delta | without | withExtra => cases plain
  | _ => trivial

theorem code_changedPatterns {n : Nat} {c : Clause} {bound : List Var} {body code : Code}
    (h : c.code bound body = .ok code) (hc : c.TakesApart n)
    (hbody : ∀ pattern ∈ body.changedPatterns, pattern.length = n) :
    ∀ pattern ∈ code.changedPatterns, pattern.length = n := by
  induction c generalizing body code with
  | member lhs rel | mapMember lhs rel n =>
    cases h
    unfold memberCode
    dsimp only
    split
    · exact hbody
    · split <;> exact hbody
  | singleton lhs expr =>
    obtain ⟨_, _, h⟩ := bind_eq_ok.mp h
    cases h
    rw [Code.changedPatterns, if_neg hc]
    exact hbody
  | delta lhs rel value =>
    cases h
    rw [Code.changedPatterns]
    refine List.forall_mem_append.mpr ⟨fun pattern hp => ?_, hbody⟩
    split at hp
    · cases List.mem_singleton.mp hp
      exact hc
    · cases hp
  | without inner value ih => exact ih h hc hbody
  | withExtra inner value ih =>
    obtain ⟨present, hpresent, h⟩ := bind_eq_ok.mp h
    cases h
    simp only [Code.changedPatterns, Code.changedPatternsAll, List.append_nil]
    refine List.forall_mem_append.mpr ⟨ih hpresent hc.2 hbody, ?_⟩
    refine List.forall_mem_append.mpr ⟨fun pattern hp => ?_, hbody⟩
    split at hp
    · cases List.mem_singleton.mp hp
      exact hc.1
    · cases hp
  | demand inner query params ih =>
    obtain ⟨_, _, h⟩ := bind_eq_ok.mp h
    exact ih h hc hbody
  | cond expr =>
    obtain ⟨_, _, h⟩ := bind_eq_ok.mp h
    cases h
    exact hbody

end Clause

theorem Plan.code_changedPatterns {n : Nat} {steps : List Step} {leaf code : Code}
    (h : Plan.code steps leaf = .ok code) (hsteps : ∀ s ∈ steps, s.clause.TakesApart n)
    (hleaf : ∀ pattern ∈ leaf.changedPatterns, pattern.length = n) :
    ∀ pattern ∈ code.changedPatterns, pattern.length = n := by
  induction steps generalizing code with
  | nil =>
    cases h
    exact hleaf
  | cons s rest ih =>
    obtain ⟨inner, hinner, h⟩ := bind_eq_ok.mp h
    obtain ⟨hs, hrest⟩ := List.forall_mem_cons.mp hsteps
    exact Clause.code_changedPatterns h hs (ih hinner hrest)

namespace Handler

variable {owner : String} {estimate : Estimator} {c : Comprehension} {rel : String}
  {strategy : SelfJoin} {n : Nat}

theorem branch_changedPatterns (proper : c.Proper)
    (hlength : ∀ d ∈ c.join, d.rel? = some rel → d.lhs.length = n) {i : Nat}
    (hi : i ∈ c.join.occurrences rel) {leaf code : Code}
    (h : branch owner estimate leaf (c.join.deltaAt rel (.var Var.delta) strategy i) = .ok code)
    (hleaf : leaf.changedPatterns = []) : ∀ pattern ∈ code.changedPatterns, pattern.length = n := by
  obtain ⟨steps, hsteps, hcode⟩ := branch_eq_ok h
  have hperm := Plan.complete_perm hsteps
  refine Plan.code_changedPatterns hcode (fun s hs => ?_) (by simp [hleaf])
  obtain ⟨d, hd, hcase⟩ := Join.mem_deltaAt (hperm.mem_iff.mp (List.mem_map_of_mem hs))
  have hplain := (proper.plain d hd).takesApart (proper.join_delta d hd) n
  rcases hcase with ⟨hget, he⟩ | ⟨hrel, he⟩ | he <;> rw [he]
  · obtain ⟨e, he, hrel⟩ := Join.mem_occurrences.mp hi
    rw [hget] at he
    cases he
    exact hlength d hd hrel
  · cases strategy with
    | sub => exact hplain
    | aug => exact ⟨hlength d hd hrel, hplain⟩
    | das | assumeDisjoint | assumeDisjointVerify => exact hplain
  · exact hplain

theorem make_changedPatterns (proper : c.Proper)
    (hlength : ∀ d ∈ c.join, d.rel? = some rel → d.lhs.length = n) {target : String}
    {change : Change} {h : Handler} (hmake : make c target rel change strategy estimate = .ok h) :
    ∀ pattern ∈ h.code.changedPatterns, pattern.length = n := by
  have hbranch : ∀ {leaf cs},
      branches target estimate leaf (c.join.deltas rel (.var Var.delta) strategy) = .ok cs →
      leaf.changedPatterns = [] → ∀ pattern ∈ Code.changedPatternsAll cs, pattern.length = n := by
    intro leaf cs hcs hleaf pattern hp
    obtain ⟨code, hcode, hp⟩ := Code.mem_changedPatternsAll.mp hp
    obtain ⟨j, hj, hmade⟩ := mem_branches hcs code hcode
    obtain ⟨i, hi, rfl⟩ := List.mem_map.mp hj
    exact branch_changedPatterns proper hlength hi hmade hleaf pattern hp
  obtain ⟨_, _, _, _, ⟨_, cs, hcs, hcode⟩ | ⟨_, cs, hcs, hcode⟩⟩ := make_eq_ok hmake
  · rw [hcode]
    simp only [Code.changedPatterns, List.append_nil]
    exact hbranch hcs rfl
  · rw [hcode]
    have hall := hbranch hcs rfl
    unfold Code.ofList
    split
    · simpa [Code.changedPatternsAll] using hall
    · exact hall

end Handler

end ViewUpkeep
