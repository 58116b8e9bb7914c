import ViewUpkeep.Proofs.Handler

/-!
One change, over any store. The handlers of a comprehension for a relation, run on the store at
their placement, record the rows of exactly those bindings that satisfy the join with the changed
row and not without it, each once: for an added and for a removed row, and whichever of the exact
strategies divides the bindings among the occurrences of the relation.
-/
namespace ViewUpkeep

namespace Store

inductive Built : Store → Prop where
  | empty : Built .empty
  | declare {s : Store} (info : RelationInfo) : Built s → Built (s.declare info)
  | addIndex {s : Store} (name : String) (mask : Mask) : Built s → Built (s.addIndex name mask)
  | insert {s : Store} {rel : String} {r : Relation} (row : Row) :
    Built s → s.get? rel = some r → Built (s.replace (r.insert row).1)
  | erase {s : Store} {rel : String} {r r' : Relation} {row : Row} {gone : Bool} :
    Built s → s.get? rel = some r → r.erase? row = some (r', gone) → Built (s.replace r')

theorem Sound.declare {s : Store} (sound : s.Sound) (info : RelationInfo) :
    (s.declare info).Sound := by
  unfold Store.declare
  split
  · intro r hr
    obtain ⟨q, hq, rfl⟩ := List.mem_map.mp hr
    split
    · exact Relation.empty_sound info
    · exact sound q hq
  · intro r hr
    obtain hr | hr := List.mem_append.mp hr
    · exact sound r hr
    · rw [List.mem_singleton.mp hr]
      exact Relation.empty_sound info

theorem Sound.addIndex {s : Store} (sound : s.Sound) (name : String) (mask : Mask) :
    (s.addIndex name mask).Sound := by
  unfold Store.addIndex
  split
  · rename_i r hget
    exact sound.replace ((sound.get? hget).addIndex mask)
  · exact sound

theorem Built.sound {s : Store} (h : s.Built) : s.Sound := by
  induction h with
  | empty => exact fun r hr => by cases hr
  | declare info _ ih => exact ih.declare info
  | addIndex name mask _ ih => exact ih.addIndex name mask
  | insert row _ hget ih => exact ih.replace ((ih.get? hget).insert row)
  | erase _ hget herase ih => exact ih.replace ((ih.get? hget).erase? herase).1

theorem has_replace_insert {s : Store} {rel : String} {r : Relation} (hget : s.get? rel = some r)
    (row : Row) : (s.replace (r.insert row).1).Has = s.Has.insert rel row := by
  have hname : (r.insert row).1.name = rel :=
    (congrArg RelationInfo.name (r.info_insert row)).trans (name_of_get? hget)
  funext other x
  apply propext
  by_cases hother : other = rel
  · subst hother
    have hnew : (s.replace (r.insert row).1).get? other = some (r.insert row).1 := by
      rw [get?_replace, if_pos hname.symm, hget]
      rfl
    rw [has_iff hnew, Relation.toList, Relation.rows_insert, Bag.toList_insert]
    unfold Facts.insert
    rw [has_iff hget]
    split
    · rename_i hrow
      constructor
      · exact .inl
      · rintro (hx | ⟨_, rfl⟩)
        · exact hx
        · exact hrow
    · simp [Relation.toList]
  · unfold Facts.insert Has contains
    rw [get?_replace, if_neg (by rw [hname]; exact hother)]
    simp [hother]

end Store

/-- The store that a handler runs on, given the one without the changed row and the one with it. The
row is absent before it is added and after it is removed. -/
def Placement.storeFor (p : Placement) (change : Change) (without present : Store) : Store :=
  match p, change with
  | .before, .add | .after, .remove => without
  | .after, .add | .before, .remove => present

namespace SelfJoin

theorem storeFor_placement (strategy : SelfJoin) (change : Change) (without present : Store) :
    (strategy.placement change).storeFor change without present =
      if strategy = .aug then without else present := by
  cases strategy <;> cases change <;> rfl

theorem has_storeFor_placement (strategy : SelfJoin) (change : Change) {without present : Store}
    {rel : String} {row : Row} (h : present.Has = without.Has.insert rel row) :
    ((strategy.placement change).storeFor change without present).Has =
      strategy.facts without.Has rel row := by
  rw [storeFor_placement, facts]
  split
  · rfl
  · exact h

theorem sound_storeFor_placement (strategy : SelfJoin) (change : Change) {without present : Store}
    (hw : without.Sound) (hp : present.Sound) :
    ((strategy.placement change).storeFor change without present).Sound := by
  rw [storeFor_placement]
  split
  · exact hw
  · exact hp

end SelfJoin

namespace Handler

variable {c : Comprehension} {target : String} {change : Change}

theorem Emits.about {P : Row → Prop} {us : List Update} (h : Emits c target change P us) :
    ∀ u ∈ us, u.rel = target ∧ u.change = change := by
  obtain ⟨bs, _, _, _, hperm⟩ := h
  intro u hu
  obtain ⟨b, _, rfl⟩ := List.mem_map.mp (hperm.mem_iff.mp hu)
  exact ⟨rfl, rfl⟩

theorem Emits.rows_eq {P : Row → Prop} {us : List Update} (h : Emits c target change P us) :
    ∃ hfin : {b | P b}.Finite,
      (∀ b ∈ hfin.toFinset, c.output.evalRow (c.bindings b) = .ok (c.rowOf b)) ∧
      (us.map Update.row : Multiset Row) = hfin.toFinset.val.map c.rowOf := by
  obtain ⟨bs, hnodup, hmem, hrow, hperm⟩ := h
  obtain ⟨hfin, hval⟩ := exists_finite_val hnodup hmem
  refine ⟨hfin, ?_, ?_⟩
  · intro b hb
    apply hrow b
    rw [hmem]
    exact hfin.mem_toFinset.mp hb
  · rw [hval, Multiset.map_coe, Multiset.coe_eq_coe]
    have hrows : (bs.map (updateOf c target change)).map Update.row = bs.map c.rowOf := by
      rw [List.map_map]
      rfl
    rw [← hrows]
    exact hperm.map Update.row

/-- What a handler records for one change of a row that the first store does not have. The strategy
and the sign matter to the choice of the store only: the multiset is the same for all. -/
theorem make_exact (proper : c.Proper) {s : Store} (built : s.Built) {rel : String} {r : Relation}
    (hget : s.get? rel = some r) {row : Row} (absent : r.contains row = false)
    {strategy : SelfJoin} (hs : strategy = .sub ∨ strategy = .aug ∨ strategy = .das)
    {estimate : Estimator} {h : Handler}
    (hmake : make c target rel change strategy estimate = .ok h) {us : List Update}
    (hrun : h.code.run (h.placement.storeFor change s (s.replace (r.insert row).1)) row =
      .ok us) :
    h.placement.storeFor change s (s.replace (r.insert row).1) =
        (if strategy = .aug then s else s.replace (r.insert row).1) ∧
      (∀ u ∈ us, u.rel = target ∧ u.change = change) ∧
      ∃ hfin : {b | c.Witness (s.replace (r.insert row).1).Has b ∧ ¬ c.Witness s.Has b}.Finite,
        (∀ b ∈ hfin.toFinset, c.output.evalRow (c.bindings b) = .ok (c.rowOf b)) ∧
        (us.map Update.row : Multiset Row) = hfin.toFinset.val.map c.rowOf := by
  have hhas := Store.has_replace_insert hget row
  have hnot : ¬ s.Has rel row := by
    rw [Store.has_iff hget, ← Relation.contains_iff, absent]
    exact Bool.false_ne_true
  have hexact : strategy ≠ .assumeDisjoint := by
    rintro rfl
    simp at hs
  -- At the handler's placement the store has just the facts that its strategy is made for.
  obtain ⟨_, _, _, hplacement, _⟩ := make_eq_ok hmake
  rw [hplacement] at hrun ⊢
  have hsound := strategy.sound_storeFor_placement change built.sound (built.insert row hget).sound
  have hemits := make_emits proper hnot hsound (strategy.has_storeFor_placement change hhas)
    (.inl hexact) hmake hrun
  rw [← hhas] at hemits
  exact ⟨strategy.storeFor_placement .., hemits.about, hemits.rows_eq⟩

def twoSteps : Comprehension where
  join := [.member [⟨"x"⟩, ⟨"y"⟩] "edge", .member [⟨"y"⟩, ⟨"z"⟩] "edge"]
  result := .tuple [.var ⟨"x"⟩, .var ⟨"z"⟩]
  params := []

theorem twoSteps_proper : twoSteps.Proper where
  plain := by simp [twoSteps, Clause.Plain]
  join_delta := by decide
  output_delta := by decide

def edges : Relation := ((Relation.empty (.base "edge" 2 .set)).insert [.int 1, .int 2]).1

def edgeStore : Store := (Store.empty.declare (.base "edge" 2 .set)).replace edges

def loopStore : Store := edgeStore.replace (edges.insert [.int 2, .int 2]).1

theorem loopStore_built : loopStore.Built := by
  have hdeclared : (Store.empty.declare (.base "edge" 2 .set)).get? "edge" =
      some (Relation.empty (.base "edge" 2 .set)) := rfl
  have hedges : edgeStore.get? "edge" = some edges := rfl
  have hbuilt : edgeStore.Built := (Store.Built.empty.declare _).insert [.int 1, .int 2] hdeclared
  exact hbuilt.insert [.int 2, .int 2] hedges

/-- The loop is removed. The binding that goes around it twice reads the changed row in both
clauses, and is counted once. -/
theorem make_exact_loop :
    ∃ h us, make twoSteps "far" "edge" .remove .das .silent = .ok h ∧
      h.code.run (h.placement.storeFor .remove edgeStore loopStore) [.int 2, .int 2] = .ok us ∧
      us.map Update.row = [[.int 2, .int 2], [.int 1, .int 2]] ∧
      ∃ hfin : {b | twoSteps.Witness loopStore.Has b ∧ ¬ twoSteps.Witness edgeStore.Has b}.Finite,
        (us.map Update.row : Multiset Row) = hfin.toFinset.val.map twoSteps.rowOf := by
  have hdeclared : (Store.empty.declare (.base "edge" 2 .set)).get? "edge" =
      some (Relation.empty (.base "edge" 2 .set)) := rfl
  have hbuilt : edgeStore.Built := (Store.Built.empty.declare _).insert [.int 1, .int 2] hdeclared
  have hget : edgeStore.get? "edge" = some edges := rfl
  have habsent : edges.contains [.int 2, .int 2] = false := rfl
  obtain ⟨h, us, hmake, hrun, hrows⟩ : ∃ h us,
      make twoSteps "far" "edge" .remove .das .silent = .ok h ∧
      h.code.run (h.placement.storeFor .remove edgeStore loopStore) [.int 2, .int 2] = .ok us ∧
      us.map Update.row = [[.int 2, .int 2], [.int 1, .int 2]] :=
    ⟨_, _, rfl, rfl, rfl⟩
  obtain ⟨_, _, hfin, _, heq⟩ := make_exact twoSteps_proper hbuilt hget habsent (.inr (.inr rfl))
    hmake hrun
  exact ⟨h, us, hmake, hrun, hrows, hfin, heq⟩

end Handler

end ViewUpkeep
