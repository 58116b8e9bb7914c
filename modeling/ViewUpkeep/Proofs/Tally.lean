import Mathlib.Data.List.Induction
import ViewUpkeep.Proofs.Relation

/-!
Relations and plain counts. A relation is built by calls that add a row, take one away or ask for an
index, in any order. What it shows afterwards is what the calls alone tell: the count of a row is how
often it was added less how often it was taken away, and every lookup, through an index or not, finds
the rows with a positive count.
-/
namespace ViewUpkeep

namespace Index

def Dense (index : Index) : Prop := ∀ g ∈ index, g.2 ≠ []

theorem Dense.insert {index : Index} (dense : index.Dense) (key row : Row) :
    (index.insert key row).Dense := by
  unfold Index.insert
  split
  · intro g hg
    obtain ⟨h, hh, rfl⟩ := List.mem_map.mp hg
    split
    · simp
    · exact dense h hh
  · intro g hg
    rcases List.mem_append.mp hg with hg | hg
    · exact dense g hg
    · rw [List.mem_singleton.mp hg]
      simp

theorem erase_dense (index : Index) (key row : Row) : (index.erase key row).Dense := by
  intro g hg
  simpa using (List.mem_filter.mp hg).2

theorem ofRows_dense (mask : Mask) (rows : List Row) : (ofRows mask rows).Dense := by
  have hfold : ∀ index : Index, index.Dense →
      (rows.foldl (fun index row => index.insert (mask.select row) row) index).Dense := by
    induction rows with
    | nil => exact fun _ dense => dense
    | cons row rows ih => exact fun index dense => ih _ (dense.insert _ row)
  exact hfold [] (by simp [Dense])

end Index

namespace Relation

/-! ### Answers -/

theorem insert_flag (r : Relation) (row : Row) : (r.insert row).2 = !r.contains row := by
  unfold insert contains Bag.insert
  cases r.rows.contains row <;> rfl

theorem Sound.erase?_flag {r s : Relation} (sound : r.Sound) {row : Row} {gone : Bool}
    (h : r.erase? row = some (s, gone)) : gone = true ↔ r.count row = 1 := by
  unfold Relation.erase? at h
  split at h
  · cases h
  · rename_i hr
    cases h
    exact (Bag.erase?_eq_some sound.rows hr).2
  · rename_i hr
    cases h
    exact (Bag.erase?_eq_some sound.rows hr).2

@[simp] theorem count_addIndex (r : Relation) (mask : Mask) (row : Row) :
    (r.addIndex mask).count row = r.count row := by
  unfold count
  rw [rows_addIndex]

/-! ### Indices -/

def Dense (r : Relation) : Prop := ∀ i ∈ r.indices, i.2.Dense

theorem Dense.addIndex {r : Relation} (dense : r.Dense) (mask : Mask) : (r.addIndex mask).Dense := by
  unfold Relation.addIndex
  split
  · intro i hi
    rcases List.mem_append.mp hi with hi | hi
    · exact dense i hi
    · rw [List.mem_singleton.mp hi]
      exact Index.ofRows_dense mask r.rows.toList
  · exact dense

theorem empty_dense (info : RelationInfo) : (empty info).Dense := by
  have hbare : Dense ⟨info, .empty, []⟩ := by simp [Dense]
  unfold empty
  dsimp only
  split
  · exact hbare.addIndex _
  · exact hbare

theorem Dense.insert {r : Relation} (dense : r.Dense) (row : Row) : (r.insert row).1.Dense := by
  unfold Relation.insert
  dsimp only
  split
  · intro i hi
    obtain ⟨k, hk, rfl⟩ := List.mem_map.mp hi
    exact (dense k hk).insert _ row
  · exact dense

theorem Dense.erase? {r s : Relation} (dense : r.Dense) {row : Row} {gone : Bool}
    (h : r.erase? row = some (s, gone)) : s.Dense := by
  unfold Relation.erase? at h
  split at h
  · cases h
  · cases h
    intro i hi
    obtain ⟨k, _, rfl⟩ := List.mem_map.mp hi
    exact k.2.erase_dense _ row
  · cases h
    exact dense

/-! ### Calls -/

inductive Call where
  | insert (row : Row)
  | erase (row : Row)
  | addIndex (mask : Mask)
deriving DecidableEq

/-- The relation after a call, and whether the row of the call is new or gone. A row that is absent
cannot be taken away, and then the relation stays as it is. -/
def call (r : Relation) : Call → Relation × Except Breach (Option Bool)
  | .insert row => ((r.insert row).1, .ok (some (r.insert row).2))
  | .erase row =>
    match r.erase? row with
    | some (s, gone) => (s, .ok (some gone))
    | none => (r, .error (.underflow row r.name))
  | .addIndex mask => (r.addIndex mask, .ok none)

def after (r : Relation) (calls : List Call) : Relation := calls.foldl (fun r c => (r.call c).1) r

theorem after_concat (r : Relation) (calls : List Call) (c : Call) :
    r.after (calls ++ [c]) = ((r.after calls).call c).1 := by
  simp [after]

def tally (calls : List Call) (row : Row) : Int :=
  calls.count (.insert row) - calls.count (.erase row)

def Call.isMet (r : Relation) : Call → Bool
  | .erase row => r.contains row
  | .insert _ | .addIndex _ => true

def isLegal (r : Relation) : List Call → Bool
  | [] => true
  | c :: calls => c.isMet r && (r.call c).1.isLegal calls

theorem isLegal_concat (r : Relation) (calls : List Call) (c : Call) :
    r.isLegal (calls ++ [c]) = (r.isLegal calls && c.isMet (r.after calls)) := by
  induction calls generalizing r with
  | nil => simp [isLegal, after]
  | cons d calls ih => simp [isLegal, ih, after, Bool.and_assoc]

def Call.weight (row : Row) : Call → Int
  | .insert x => if x = row then 1 else 0
  | .erase x => if x = row then -1 else 0
  | .addIndex _ => 0

theorem tally_concat (calls : List Call) (c : Call) (row : Row) :
    tally (calls ++ [c]) row = tally calls row + c.weight row := by
  simp only [tally, List.count_append, List.count_singleton, beq_iff_eq]
  cases c with
  | insert x =>
    simp only [Call.weight, Call.insert.injEq, reduceCtorEq, if_false]
    split <;> omega
  | erase x =>
    simp only [Call.weight, Call.erase.injEq, reduceCtorEq, if_false]
    split <;> omega
  | addIndex mask => simp [Call.weight]

structure Follows (info : RelationInfo) (calls : List Call) (r : Relation) : Prop where
  info : r.info = info
  sound : r.Sound
  dense : r.Dense
  count : ∀ row, (r.count row : Int) = tally calls row

theorem empty_follows (info : RelationInfo) : Follows info [] (empty info) where
  info := info_empty info
  sound := empty_sound info
  dense := empty_dense info
  count row := by simp [tally, count, Bag.count, Bag.empty]

theorem Follows.call {info : RelationInfo} {calls : List Call} {r : Relation}
    (follows : Follows info calls r) {c : Call} (met : c.isMet r = true) :
    Follows info (calls ++ [c]) (r.call c).1 := by
  cases c with
  | insert row =>
    refine ⟨(r.info_insert row).trans follows.info, follows.sound.insert row,
      follows.dense.insert row, fun x => ?_⟩
    rw [tally_concat, ← follows.count x]
    simp only [Relation.call, follows.sound.count_insert row x, Call.weight]
    by_cases hx : x = row
    · simp [hx]
    · simp [hx, Ne.symm hx]
  | erase row =>
    have hpos := (follows.sound.count_pos_iff row).mpr met
    simp only [Relation.call]
    cases herase : r.erase? row with
    | none =>
      have hzero := (erase?_eq_none_iff r row).mp herase
      omega
    | some result =>
      obtain ⟨s, gone⟩ := result
      obtain ⟨hsound, hinfo, _, hcount⟩ := follows.sound.erase? herase
      refine ⟨hinfo.trans follows.info, hsound, follows.dense.erase? herase, fun x => ?_⟩
      rw [tally_concat, ← follows.count x, hcount x]
      by_cases hx : x = row
      · subst hx
        simp only [Call.weight, if_true]
        omega
      · simp [Call.weight, hx, Ne.symm hx]
  | addIndex mask =>
    refine ⟨(r.info_addIndex mask).trans follows.info, follows.sound.addIndex mask,
      follows.dense.addIndex mask, fun x => ?_⟩
    rw [tally_concat, ← follows.count x]
    simp [Relation.call, Call.weight]

theorem after_follows (info : RelationInfo) {calls : List Call}
    (legal : (empty info).isLegal calls = true) :
    Follows info calls ((empty info).after calls) := by
  induction calls using List.reverseRecOn with
  | nil => exact empty_follows info
  | append_singleton calls c ih =>
    rw [isLegal_concat, Bool.and_eq_true] at legal
    rw [after_concat]
    exact (ih legal.1).call legal.2

/-! ### What a relation shows -/

structure Shows (r : Relation) (counts : Row → Int) : Prop where
  count : ∀ row, (r.count row : Int) = counts row
  contains : ∀ row, r.contains row = true ↔ 0 < counts row
  nodup : ∀ mask key, (r.lookup mask key).Nodup
  finds : ∀ mask key row, row ∈ r.lookup mask key ↔ 0 < counts row ∧ mask.select row = key
  groups : ∀ mask index, (mask, index) ∈ r.indices → ∀ g ∈ index, g.2 ≠ []

theorem Follows.shows {info : RelationInfo} {calls : List Call} {r : Relation}
    (follows : Follows info calls r) : r.Shows (tally calls) := by
  have hcontains : ∀ row, r.contains row = true ↔ 0 < tally calls row := by
    intro row
    rw [← follows.sound.count_pos_iff, ← follows.count row]
    omega
  refine ⟨follows.count, hcontains, ?_, ?_, fun mask index => follows.dense (mask, index)⟩
  · intro mask key
    exact (follows.sound.lookup_perm mask key).nodup_iff.mpr (follows.sound.nodup.filter _)
  · intro mask key row
    rw [(follows.sound.lookup_perm mask key).mem_iff, List.mem_filter, ← contains_iff, hcontains]
    simp

theorem call_eq_error {r : Relation} {c : Call} {b : Breach} :
    (r.call c).2 = .error b ↔
      ∃ row, c = .erase row ∧ r.count row = 0 ∧ b = .underflow row r.name := by
  cases c with
  | insert row => simp [call]
  | addIndex mask => simp [call]
  | erase row =>
    simp only [call, Call.erase.injEq, exists_eq_left', ← erase?_eq_none_iff]
    cases r.erase? row <;> simp [eq_comm]

theorem Follows.call_insert {info : RelationInfo} {calls : List Call} {r : Relation}
    (follows : Follows info calls r) (row : Row) :
    (r.call (.insert row)).2 = .ok (some (decide (tally calls row = 0))) := by
  have hpos := follows.sound.count_pos_iff row
  simp only [Relation.call, insert_flag, ← follows.count row]
  cases hc : r.contains row <;> simp [hc] at hpos ⊢ <;> omega

theorem Follows.call_erase {info : RelationInfo} {calls : List Call} {r : Relation}
    (follows : Follows info calls r) {row : Row} (present : 0 < tally calls row) :
    (r.call (.erase row)).2 = .ok (some (decide (tally calls row = 1))) := by
  rw [← follows.count row] at present ⊢
  simp only [Relation.call]
  cases herase : r.erase? row with
  | none =>
    have hzero := (erase?_eq_none_iff r row).mp herase
    omega
  | some result =>
    obtain ⟨s, gone⟩ := result
    have hflag := follows.sound.erase?_flag herase
    simp only [Except.ok.injEq, Option.some.injEq]
    rw [Bool.eq_iff_iff, hflag, decide_eq_true_eq]
    omega

theorem call_unchanged {r : Relation} {c : Call} {b : Breach} (h : (r.call c).2 = .error b) :
    (r.call c).1 = r := by
  obtain ⟨row, rfl, hzero, _⟩ := call_eq_error.mp h
  simp only [call, (erase?_eq_none_iff r row).mpr hzero]

/-- A relation after any calls of which none takes away an absent row. It has the counts of the
calls, finds each row with a positive count once by any of its columns, and answers the next call by
whether a count leaves or reaches zero. To take away an absent row is the only call that fails, and
it changes nothing. -/
theorem after_shows (info : RelationInfo) {calls : List Call}
    (legal : (empty info).isLegal calls = true) :
    ((empty info).after calls).Shows (tally calls) ∧
      (∀ row, (((empty info).after calls).call (.insert row)).2 =
        .ok (some (decide (tally calls row = 0)))) ∧
      (∀ row, 0 < tally calls row → (((empty info).after calls).call (.erase row)).2 =
        .ok (some (decide (tally calls row = 1)))) ∧
      (∀ c b, (((empty info).after calls).call c).2 = .error b ↔
        ∃ row, c = .erase row ∧ tally calls row = 0 ∧ b = .underflow row info.name) ∧
      ∀ c b, (((empty info).after calls).call c).2 = .error b →
        (((empty info).after calls).call c).1 = (empty info).after calls := by
  have follows := after_follows info legal
  refine ⟨follows.shows, follows.call_insert, fun row => follows.call_erase, ?_, ?_⟩
  · intro c b
    have hname : ((empty info).after calls).name = info.name := congrArg _ follows.info
    rw [call_eq_error, hname]
    simp only [← follows.count, Int.natCast_eq_zero]
  · exact fun c b => call_unchanged

def sampleCalls : List Call :=
  [.insert [.int 1, .int 2], .insert [.int 1, .int 3], .insert [.int 1, .int 2],
    .addIndex ⟨[false, true]⟩, .erase [.int 1, .int 2], .erase [.int 1, .int 3],
    .insert [.int 2, .int 2]]

theorem after_shows_sample :
    (empty (.base "price" 2 (.map 1))).isLegal sampleCalls = true ∧
      ((empty (.base "price" 2 (.map 1))).after sampleCalls).Shows (tally sampleCalls) ∧
      ((empty (.base "price" 2 (.map 1))).after sampleCalls).lookup ⟨[false, true]⟩ [.int 2] =
        [[.int 1, .int 2], [.int 2, .int 2]] :=
  ⟨rfl, (after_shows (.base "price" 2 (.map 1)) rfl).1, rfl⟩

end Relation

end ViewUpkeep
