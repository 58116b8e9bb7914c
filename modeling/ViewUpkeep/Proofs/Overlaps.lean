import ViewUpkeep.Proofs.Generation
import ViewUpkeep.Proofs.Increments

/-!
Occurrences that are assumed not to overlap. A binding may have the changed row at several
occurrences of its relation. Handlers that assume this never happens record its output once for each
of them; handlers that verify the assumption fail exactly if it does happen, and otherwise do what
those do that unite the bindings of all occurrences.
-/
namespace ViewUpkeep

/-! ### Runs up to a fault -/

def ExecError.isOverlap : ExecError → Bool
  | .overlap _ => true
  | _ => false

theorem Store.relation_noOverlap (store : Store) (rel : String) :
    FailsOnly (·.isOverlap = false) (store.relation rel) := by
  intro e h
  unfold relation at h
  split at h <;> cases h
  rfl

theorem ExecError.lift_noOverlap {α : Type} (r : Except EvalError α) :
    FailsOnly (·.isOverlap = false) (lift r) := by
  intro e h
  cases r <;> cases h
  rfl

theorem Value.itemsOf_noOverlap (x : Value) (n : Nat) : FailsOnly (·.isOverlap = false) (x.itemsOf n) := by
  intro e h
  unfold itemsOf at h
  split at h
  · split at h <;> cases h
    rfl
  · cases h
    rfl

theorem Env.valuesOf_noOverlap (env : Env) (vs : List Var) :
    FailsOnly (·.isOverlap = false) (env.valuesOf vs) := by
  induction vs with
  | nil => exact .ok []
  | cons v vs ih =>
    unfold valuesOf
    split
    · rintro e ⟨⟩
      rfl
    · exact ih.bind fun xs _ => .ok _

/-- A trace, up to its fault if it has one, that collected rows with a property only and in which no
overlap was found. -/
abbrev Trace.Gathers (R : Row → Prop) (t : Trace) : Prop := t.Keeps (·.isOverlap = false) R

section Gathering

variable {store : Store} {sink : Option (List Var)} {R : Row → Prop} {env : Env}

namespace Clause

theorem memberCode_gathers (sound : store.Sound) (bound lhs : List Var) (rel : String) {body : Code}
    (hbody : ∀ e, env.Within e → (Clause.member lhs rel).Holds store.Has e →
      (body.exec store sink e).Gathers R) :
    ((memberCode bound lhs rel body).exec store sink env).Gathers R := by
  have hrows : ∀ r, store.get? rel = some r → ∀ row ∈ r.toList, ∀ e,
      env.extend? lhs row = some e → (body.exec store sink e).Gathers R := by
    intro r hr row hrow e he
    obtain ⟨hw, hreads, _⟩ := Env.extend?_eq_some he
    exact hbody e hw ⟨row, hreads, (Store.has_iff hr row).mpr hrow⟩
  unfold memberCode
  dsimp only
  split
  · rw [Code.exec]
    apply Trace.after_keeps (store.relation_noOverlap rel)
    intro r hr
    apply Trace.after_keeps (env.valuesOf_noOverlap lhs)
    intro row hrow
    split
    · rename_i hin
      have hhas := (Store.has_iff (Store.relation_eq_ok.mp hr) row).mpr ((r.contains_iff row).mp hin)
      exact hbody env (.refl env) ⟨row, (Env.valuesOf_eq_ok_iff ..).mp hrow, hhas⟩
    · exact Trace.empty_keeps
  · split
    · rw [Code.exec]
      apply Trace.after_keeps (store.relation_noOverlap rel)
      intro r hr
      exact Trace.rows_keep (hrows r (Store.relation_eq_ok.mp hr))
    · rw [Code.exec]
      apply Trace.after_keeps (store.relation_noOverlap rel)
      intro r hr
      apply Trace.after_keeps (env.valuesOf_noOverlap _)
      intro key _
      apply Trace.rows_keep
      intro row hrow
      have hget := Store.relation_eq_ok.mp hr
      rw [((sound.get? hget).lookup_perm _ key).mem_iff] at hrow
      exact hrows r hget row (List.mem_filter.mp hrow).1

theorem bind_gathers {lhs : List Var} {expr : Expr} {body : Code}
    (hbody : ∀ e, env.Within e → (∃ row, e.Reads lhs row ∧ expr.eval e = .ok (.tuple row)) →
      (body.exec store sink e).Gathers R) :
    ((Code.bind lhs expr body).exec store sink env).Gathers R := by
  rw [Code.exec]
  apply Trace.after_keeps (ExecError.lift_noOverlap _)
  intro v hv
  apply Trace.after_keeps (v.itemsOf_noOverlap _)
  intro items hitems
  split
  · rename_i e hx
    obtain ⟨hw, hreads, _⟩ := Env.extend?_eq_some hx
    have heval : expr.eval env = .ok (.tuple items) := by
      rw [ExecError.lift_eq_ok.mp hv, Value.itemsOf_eq_ok hitems]
    exact hbody e hw ⟨items, hreads, Expr.eval_mono hw expr heval⟩
  · exact Trace.empty_keeps

theorem test_gathers {expr : Expr} {body : Code}
    (hbody : expr.eval env = .ok (.bool true) → (body.exec store sink env).Gathers R) :
    ((Code.test expr body).exec store sink env).Gathers R := by
  rw [Code.exec]
  apply Trace.after_keeps (ExecError.lift_noOverlap _)
  intro b hb
  cases b with
  | false => exact Trace.empty_keeps
  | true => exact hbody ((expr.holds_eq_ok env true).mp (ExecError.lift_eq_ok.mp hb))

theorem code_gathers (sound : store.Sound) {c : Clause} {bound : List Var} {body code : Code}
    (h : c.code bound body = .ok code)
    (hbody : ∀ e, env.Within e → c.Holds store.Has e → (body.exec store sink e).Gathers R) :
    (code.exec store sink env).Gathers R := by
  induction c generalizing body code with
  | member lhs rel | mapMember lhs rel n =>
    cases h
    exact memberCode_gathers sound bound lhs rel hbody
  | singleton lhs expr =>
    obtain ⟨_, _, h⟩ := bind_eq_ok.mp h
    cases h
    exact bind_gathers hbody
  | delta lhs rel value =>
    cases h
    exact bind_gathers hbody
  | without inner value ih =>
    apply ih h
    intro e hw hinner
    apply test_gathers
    intro hne
    exact hbody e hw ⟨hinner, (eval_ne_tupleOf ..).mp hne⟩
  | withExtra inner value ih =>
    obtain ⟨present, hpresent, h⟩ := bind_eq_ok.mp h
    cases h
    rw [Code.exec, Code.execAll_eq_map]
    apply Trace.concat_keeps
    rw [List.forall_mem_map, List.forall_mem_cons, List.forall_mem_singleton]
    constructor
    · exact ih hpresent fun e hw hinner => hbody e hw (.inl hinner)
    · exact bind_gathers fun e hw hvalue => hbody e hw (.inr hvalue)
  | demand inner query params ih =>
    obtain ⟨_, _, h⟩ := bind_eq_ok.mp h
    exact ih h hbody
  | cond expr =>
    obtain ⟨_, _, h⟩ := bind_eq_ok.mp h
    cases h
    exact test_gathers (hbody env (.refl env))

end Clause

theorem Plan.code_gathers (sound : store.Sound) {steps : List Step} {leaf code : Code}
    (h : Plan.code steps leaf = .ok code)
    (hleaf : ∀ e, env.Within e → (∀ s ∈ steps, s.clause.Holds store.Has e) →
      (leaf.exec store sink e).Gathers R) : (code.exec store sink env).Gathers R := by
  induction steps generalizing env code with
  | nil =>
    cases h
    exact hleaf env (.refl env) (by simp)
  | cons s rest ih =>
    obtain ⟨inner, hinner, h⟩ := bind_eq_ok.mp h
    apply Clause.code_gathers sound h
    intro e hw hs
    apply ih hinner
    intro e' hw' hrest
    exact hleaf e' (hw.trans hw') (List.forall_mem_cons.mpr ⟨hs.mono hw', hrest⟩)

theorem Code.update_gathers (target : String) (change : Change) (expr : Expr) :
    ((Code.update target change expr).exec store sink env).Gathers R := by
  rw [Code.exec]
  apply Trace.after_keeps (ExecError.lift_noOverlap _)
  exact fun row _ => ⟨by simp, by simp⟩

end Gathering

/-! ### The check for overlaps -/

namespace Trace

variable {seen : List Row} {t : Trace} {ts : List Trace}

theorem overlap?_eq_none (h : overlap? seen t = none) (b : Row) :
    (if b ∈ seen then 1 else 0) + (if b ∈ t.collected then 1 else 0) =
      if b ∈ seen ++ t.collected then 1 else 0 := by
  have hapart : b ∈ t.collected → b ∉ seen := by
    intro hb hs
    have hfree := List.find?_eq_none.mp h b hb
    simp [hs] at hfree
  by_cases hb : b ∈ t.collected
  · simp [hb, hapart hb]
  · simp [hb]

theorem overlap_count {b : Row} (own : ∀ t ∈ ts, ∀ e, t.fault = some e → e.isOverlap = false)
    (h : (branches true seen ts).fault = some (.overlap b)) :
    2 ≤ (if b ∈ seen then 1 else 0) + ts.countP fun t => b ∈ t.collected := by
  induction ts generalizing seen with
  | nil => simp [branches, empty] at h
  | cons t ts ih =>
    obtain ⟨ht, hts⟩ := List.forall_mem_cons.mp own
    rw [branches, if_pos rfl] at h
    rw [List.countP_cons]
    cases hover : overlap? seen t with
    | some r =>
      rw [hover] at h
      cases h
      have hmem := List.mem_of_find?_eq_some hover
      have hseen : b ∈ seen := by simpa using List.find?_some hover
      rw [if_pos hseen, if_pos (decide_eq_true hmem)]
      omega
    | none =>
      rw [hover] at h
      have hrest : (branches true (seen ++ t.collected) ts).fault = some (.overlap b) := by
        unfold append at h
        cases hf : t.fault with
        | some e =>
          simp only [hf] at h
          have hown := ht e hf
          rw [Option.some.inj h] at hown
          cases hown
        | none => simpa only [hf] using h
      have htwo := ih hts hrest
      have hsum := overlap?_eq_none hover b
      simp only [decide_eq_true_eq]
      omega

theorem count_le_one (h : (branches true seen ts).fault = none) (b : Row) :
    (if b ∈ seen then 1 else 0) + (ts.countP fun t => b ∈ t.collected) ≤ 1 := by
  induction ts generalizing seen with
  | nil =>
    rw [List.countP_nil]
    split <;> omega
  | cons t ts ih =>
    rw [branches, if_pos rfl] at h
    rw [List.countP_cons]
    cases hover : overlap? seen t with
    | some r =>
      rw [hover] at h
      simp [failed] at h
    | none =>
      rw [hover] at h
      have hone := ih (append_faultless h).2.1
      have hsum := overlap?_eq_none hover b
      simp only [decide_eq_true_eq]
      omega

theorem branches_true_eq (h : ∀ b, (branches true seen ts).fault ≠ some (.overlap b)) :
    branches true seen ts = branches false seen ts := by
  induction ts generalizing seen with
  | nil => rfl
  | cons t ts ih =>
    rw [branches, if_pos rfl] at h ⊢
    rw [branches, if_neg Bool.false_ne_true]
    cases hover : overlap? seen t with
    | some r =>
      rw [hover] at h
      exact absurd rfl (h r)
    | none =>
      rw [hover] at h
      dsimp only at h ⊢
      unfold append at h ⊢
      cases hf : t.fault with
      | some e => rfl
      | none =>
        simp only [hf] at h ⊢
        rw [ih h]

end Trace

/-! ### How often the changed row stands in a binding -/

instance (env : Env) (vs : List Var) (row : Row) : Decidable (env.Reads vs row) :=
  inferInstanceAs (Decidable (vs.map env.get? = row.map some))

def Facts.erase (facts : Facts) (rel : String) (row : Row) : Facts :=
  fun r x => facts r x ∧ ¬ (r = rel ∧ x = row)

theorem Facts.insert_erase {facts : Facts} {rel : String} {row : Row} (h : facts rel row) :
    (facts.erase rel row).insert rel row = facts := by
  funext r x
  apply propext
  unfold Facts.insert Facts.erase
  by_cases hsame : r = rel ∧ x = row
  · obtain ⟨rfl, rfl⟩ := hsame
    simp [h]
  · simp [hsame]

theorem SelfJoin.facts_erase {strategy : SelfJoin} (hs : strategy ≠ .aug) {facts : Facts}
    {rel : String} {row : Row} (h : facts rel row) :
    strategy.facts (facts.erase rel row) rel row = facts := by
  rw [SelfJoin.facts, if_neg hs, Facts.insert_erase h]

theorem Facts.not_erase (facts : Facts) (rel : String) (row : Row) :
    ¬ facts.erase rel row rel row := fun h => h.2 ⟨rfl, rfl⟩

def Join.hits (j : Join) (rel : String) (row : Row) (env : Env) : Nat :=
  j.countP fun c => c.rel? = some rel ∧ env.Reads c.lhs row

open Classical in
theorem Join.countP_hit (j : Join) (rel : String) (row : Row) (env : Env) :
    ((j.occurrences rel).countP fun i => j.Hit rel row env i) = j.hits rel row env := by
  unfold occurrences hits
  rw [List.countP_map, List.countP_filter]
  conv_rhs => rw [← List.zipIdx_map_fst 0 j, List.countP_map]
  apply List.countP_congr
  rintro ⟨c, i⟩ hc
  have hget := List.mem_zipIdx_iff_getElem?.mp hc
  simp only [Function.comp, Hit, hget, Option.some.injEq, exists_eq_left', Bool.and_eq_true,
    decide_eq_true_eq]
  tauto

theorem Store.isSome_of_has {s : Store} {rel : String} {row : Row} (h : s.Has rel row) :
    (s.get? rel).isSome := by
  unfold Has contains at h
  cases hget : s.get? rel with
  | none => simp [hget] at h
  | some r => rfl

namespace Handler

variable {c : Comprehension} {small : Facts} {rel : String} {row : Row} {strategy : SelfJoin}
  {store : Store} {owner : String} {estimate : Estimator} {target : String} {change : Change}

open Classical in
theorem countP_share (hs : strategy ≠ .sub ∧ strategy ≠ .aug) {b : Row}
    (hb : c.Witness (small.insert rel row) b) :
    ((c.join.occurrences rel).countP fun i => Share c small rel row strategy i b) =
      c.join.hits rel row (c.bindings b) := by
  rw [← Join.countP_hit]
  apply List.countP_congr
  intro i _
  simp [Share, Join.Assigned, hb, hs]

theorem branch_gathers (proper : c.Proper) (absent : ¬ small rel row) (sound : store.Sound)
    (hfacts : store.Has = strategy.facts small rel row) {i : Nat} (hi : i ∈ c.join.occurrences rel)
    {code : Code}
    (h : branch owner estimate .collect (c.join.deltaAt rel (.var Var.delta) strategy i) = .ok code) :
    (code.exec store (some c.join.vars) [(Var.delta, .tuple row)]).Gathers
      (Share c small rel row strategy i) := by
  obtain ⟨steps, hplan, hcode⟩ := branch_eq_ok h
  apply Plan.code_gathers sound hcode
  intro e hw hsteps
  rw [Code.exec]
  apply Trace.after_keeps (e.valuesOf_noOverlap _)
  intro x hx
  refine ⟨by simp, ?_⟩
  rw [List.forall_mem_singleton]
  have hreads := (Env.valuesOf_eq_ok_iff ..).mp hx
  have hbind : (c.bindings x).Reads c.join.vars x := Env.reads_zip c.join.nodup_vars hreads.length
  refine (share_iff proper absent hi (hw _ _ (by simp)) ?_).mpr ⟨hreads.length, ?_⟩
  · intro d hd v hv
    exact hreads.get?_eq hbind (proper.mem_vars hd hv)
  · rw [← hfacts]
    exact (Plan.complete_forall hplan).mp hsteps

open Classical in
theorem branches_gather (proper : c.Proper) (absent : ¬ small rel row) (sound : store.Sound)
    (hfacts : store.Has = strategy.facts small rel row) {places : List Nat} {cs : List Code}
    (h : Branches c rel strategy owner estimate .collect places cs) :
    (∀ d ∈ cs, ∀ e, (d.exec store (some c.join.vars) [(Var.delta, .tuple row)]).fault = some e →
      e.isOverlap = false) ∧
    ∀ x, cs.countP (fun d =>
        x ∈ (d.exec store (some c.join.vars) [(Var.delta, .tuple row)]).collected) ≤
      places.countP fun i => Share c small rel row strategy i x := by
  induction h with
  | nil => simp
  | cons hbranch _ ih =>
    have hd := branch_gathers proper absent sound hfacts hbranch.1 hbranch.2
    refine ⟨List.forall_mem_cons.mpr ⟨hd.fault, ih.1⟩, ?_⟩
    intro x
    rw [List.countP_cons, List.countP_cons]
    apply Nat.add_le_add (ih.2 x)
    split
    · rename_i hx
      rw [if_pos]
      simpa using hd.collected x (by simpa using hx)
    · exact Nat.zero_le _

/-! ### Runs of handlers -/

theorem run_eq_error {code : Code} {e : ExecError} :
    code.run store row = .error e ↔
      (code.exec store none [(Var.delta, .tuple row)]).fault = some e := by
  unfold Code.run
  dsimp only
  split
  · rename_i hf
    rw [hf, Except.error.injEq, Option.some.injEq]
  · rename_i hf
    simp [hf]

theorem union_overlap {vars : List Var} {verify : Bool} {cs : List Code} {expr : Expr} {b : Row} :
    (Code.union vars verify cs (.update target change expr)).run store row = .error (.overlap b) ↔
      (Trace.branches verify [] (cs.map fun d =>
        d.exec store (some vars) [(Var.delta, .tuple row)])).fault = some (.overlap b) := by
  rw [run_eq_error, Code.exec, Code.execAll_eq_map]
  dsimp only [Trace.append]
  split
  · rfl
  · rename_i hf
    rw [hf]
    constructor
    · intro hbody
      have hgathers : (Trace.concat ((Trace.branches verify [] (cs.map fun d =>
          d.exec store (some vars) [(Var.delta, .tuple row)])).collected.eraseDups.map fun x =>
          (Code.update target change expr).exec store none
            (Env.shadow [(Var.delta, .tuple row)] vars x))).Gathers fun _ => True := by
        apply Trace.concat_keeps
        intro t ht
        obtain ⟨x, _, rfl⟩ := List.mem_map.mp ht
        exact Code.update_gathers target change expr
      cases hgathers.fault _ hbody
    · intro h
      cases h

theorem ofList_noOverlap {cs : List Code}
    (h : branches owner estimate (.update target change c.output)
      (c.join.deltas rel (.var Var.delta) strategy) = .ok cs) (sound : store.Sound) (b : Row) :
    (Code.ofList cs).run store row ≠ .error (.overlap b) := by
  intro herror
  have hbranch : ∀ d ∈ cs,
      (d.exec store none [(Var.delta, .tuple row)]).Gathers fun _ => True := by
    intro d hd
    obtain ⟨j, _, hj⟩ := mem_branches h d hd
    obtain ⟨steps, _, hcode⟩ := branch_eq_ok hj
    apply Plan.code_gathers sound hcode
    exact fun e _ _ => Code.update_gathers target change c.output
  have hall : ((Code.ofList cs).exec store none [(Var.delta, .tuple row)]).Gathers
      fun _ => True := by
    unfold Code.ofList
    split
    · exact hbranch _ (List.mem_singleton_self _)
    · rw [Code.exec, Code.execAll_eq_map]
      apply Trace.concat_keeps
      rw [List.forall_mem_map]
      exact hbranch
  cases hall.fault _ (run_eq_error.mp herror)

def EmitsHits (c : Comprehension) (target : String) (change : Change) (facts : Facts) (rel : String)
    (row : Row) (us : List Update) : Prop :=
  ∃ bs : List Row, (∀ b ∈ bs, c.Witness facts b) ∧
    (∀ b, c.Witness facts b → bs.count b = c.join.hits rel row (c.bindings b)) ∧
    (∀ b ∈ bs, c.output.evalRow (c.bindings b) = .ok (c.rowOf b)) ∧
    us.Perm (bs.map (updateOf c target change))

/-- A run that failed since the code does not fit its store, which satisfies no binding then. -/
def Misfits (c : Comprehension) (s : Store) (r : Except ExecError (List Update)) : Prop :=
  ∃ e, r = .error e ∧ e.isInternal = true ∧ ∀ b, ¬ c.Witness s.Has b

theorem assumed_emits (proper : c.Proper) (sound : store.Sound) (present : store.Has rel row)
    {h : Handler} (hmake : make c target rel change .assumeDisjoint estimate = .ok h)
    {us : List Update} (hrun : h.code.run store row = .ok us) :
    EmitsHits c target change store.Has rel row us := by
  obtain ⟨_, _, _, _, ⟨hunites, _⟩ | ⟨_, cs, hcs, hcode⟩⟩ := make_eq_ok hmake
  · cases hunites
  · rw [hcode] at hrun
    obtain ⟨hf, rfl⟩ := run_eq_ok hrun
    have hj := Code.ofList_joins hf
    obtain ⟨bs, hcount, hrow, hperm⟩ := branches_updates proper
      (Facts.not_erase store.Has rel row) sound
      (SelfJoin.facts_erase (by decide) present).symm (branches_deltas hcs)
      fun d hd => hj.faultless _ (List.mem_map_of_mem hd)
    refine ⟨bs, ?_, ?_, hrow, ?_⟩
    · intro b hb
      obtain ⟨i, _, hi⟩ := (exists_mem_iff_of_countP (hcount b)).mp ⟨b, hb, by simp⟩
      simp only [decide_eq_true_eq] at hi
      rw [← Facts.insert_erase present]
      exact hi.1
    · intro b hb
      rw [hcount]
      rw [← Facts.insert_erase present] at hb
      exact countP_share (by decide) hb
    · apply hj.updates.trans
      rw [List.flatMap_map]
      exact hperm

section Union

variable {cs : List Code} (proper : c.Proper) (sound : store.Sound) (present : store.Has rel row)
  (hcs : branches owner estimate .collect
    (c.join.deltas rel (.var Var.delta) .assumeDisjointVerify) = .ok cs)

include proper sound present hcs

/-- An overlap that is reported is a witness in which the changed row stands twice. -/
theorem union_overlap_hits {expr : Expr} {b : Row}
    (herror : (Code.union c.join.vars true cs (.update target change expr)).run store row =
      .error (.overlap b)) :
    c.Witness store.Has b ∧ 2 ≤ c.join.hits rel row (c.bindings b) := by
  obtain ⟨hplain, hle⟩ := branches_gather proper (Facts.not_erase store.Has rel row) sound
    (SelfJoin.facts_erase (by decide) present).symm (branches_deltas hcs)
  have hcount := Trace.overlap_count (List.forall_mem_map.mpr hplain) (union_overlap.mp herror)
  rw [List.countP_map] at hcount
  have htwo : 2 ≤ cs.countP fun d =>
      b ∈ (d.exec store (some c.join.vars) [(Var.delta, .tuple row)]).collected := by
    simpa [Function.comp_def] using hcount
  have hshares := Nat.le_trans htwo (hle b)
  obtain ⟨i, _, hi⟩ := List.countP_pos_iff.mp (Nat.lt_of_lt_of_le Nat.zero_lt_two hshares)
  simp only [decide_eq_true_eq] at hi
  rw [countP_share (by decide) hi.1] at hshares
  have hwitness := hi.1
  rw [Facts.insert_erase present] at hwitness
  exact ⟨hwitness, hshares⟩

theorem union_hits_le {expr : Expr} {us : List Update}
    (hrun : (Code.union c.join.vars true cs (.update target change expr)).run store row = .ok us)
    {b : Row} (hb : c.Witness store.Has b) : c.join.hits rel row (c.bindings b) ≤ 1 := by
  obtain ⟨hf, _⟩ := run_eq_ok hrun
  rw [Code.exec, Code.execAll_eq_map] at hf
  obtain ⟨hfault, _⟩ := Trace.append_faultless hf
  have hj := Trace.branches_joins hfault
  obtain ⟨_, hcount⟩ := branches_collected proper (Facts.not_erase store.Has rel row) sound
    (SelfJoin.facts_erase (by decide) present).symm (branches_deltas hcs)
    fun d hd => hj.faultless _ (List.mem_map_of_mem hd)
  have hone := Trace.count_le_one hfault b
  rw [List.countP_map] at hone
  rw [← Facts.insert_erase present] at hb
  have hhits := (hcount b).trans (countP_share (by decide) hb)
  rw [← hhits]
  simpa [Function.comp_def] using hone

end Union

theorem union_run_eq {vars : List Var} {cs : List Code} {expr : Expr}
    (h : ∀ b, (Code.union vars true cs (.update target change expr)).run store row ≠
      .error (.overlap b)) :
    (Code.union vars true cs (.update target change expr)).run store row =
      (Code.union vars false cs (.update target change expr)).run store row := by
  have htrace := Trace.branches_true_eq fun b hb => h b (union_overlap.mpr hb)
  have hexec : (Code.union vars true cs (.update target change expr)).exec store none
      [(Var.delta, .tuple row)] =
      (Code.union vars false cs (.update target change expr)).exec store none
        [(Var.delta, .tuple row)] := by
    rw [Code.exec, Code.exec, Code.execAll_eq_map, htrace]
  unfold Code.run
  rw [hexec]

theorem make_das_of_verify {h : Handler}
    (hmake : make c target rel change .assumeDisjointVerify estimate = .ok h) :
    ∃ d, make c target rel change .das estimate = .ok d ∧
      ((∃ cs, branches target estimate .collect
          (c.join.deltas rel (.var Var.delta) .assumeDisjointVerify) = .ok cs ∧
          h.code = .union c.join.vars true cs (.update target change c.output) ∧
          d.code = .union c.join.vars false cs (.update target change c.output)) ∨
        ((c.join.occurrences rel).length ≤ 1 ∧ d.code = h.code ∧ ∃ cs,
          branches target estimate (.update target change c.output)
            (c.join.deltas rel (.var Var.delta) .assumeDisjointVerify) = .ok cs ∧
          h.code = .ofList cs)) := by
  have hdeltas : c.join.deltas rel (.var Var.delta) .das =
      c.join.deltas rel (.var Var.delta) .assumeDisjointVerify := rfl
  have hunites : unites .das = unites .assumeDisjointVerify := rfl
  unfold make at hmake ⊢
  dsimp only at hmake ⊢
  rw [hdeltas, hunites]
  split at hmake
  · rename_i hmany
    obtain ⟨cs, hcs, hmake⟩ := bind_eq_ok.mp hmake
    cases hmake
    rw [if_pos hmany, hcs]
    exact ⟨_, rfl, .inl ⟨cs, rfl, rfl, rfl⟩⟩
  · rename_i hfew
    obtain ⟨cs, hcs, hmake⟩ := bind_eq_ok.mp hmake
    cases hmake
    rw [if_neg hfew, hcs]
    have hlen : ¬ 1 < (c.join.deltas rel (.var Var.delta) .assumeDisjointVerify).length := by
      simpa [unites] using hfew
    refine ⟨_, rfl, .inr ⟨?_, rfl, cs, rfl, rfl⟩⟩
    simpa [Join.deltas] using hlen

theorem run_fails (proper : c.Proper) (closed : c.Closed) {h : Handler}
    (hmake : make c target rel change strategy estimate = .ok h) {b : Row}
    (hb : c.Witness store.Has b) : FailsOnly (·.isOfValues = true) (h.code.run store row) := by
  have hknown : ∀ d ∈ c.join, ∀ r, d.rel? = some r → (store.get? r).isSome := by
    intro d hd r hr
    obtain ⟨x, _, hx⟩ := ((proper.plain d hd).holds_iff hr _ _).mp (hb.2 d hd)
    exact Store.isSome_of_has hx
  exact (make_sound proper closed hknown hmake).run (fun _ h => h) row

theorem ok_or_misfits (proper : c.Proper) (closed : c.Closed) {h : Handler}
    (hmake : make c target rel change strategy estimate = .ok h)
    (hvalues : ∀ e, h.code.run store row ≠ .error (.eval e))
    (hoverlap : ∀ b, h.code.run store row ≠ .error (.overlap b)) :
    (∃ us, h.code.run store row = .ok us) ∨ Misfits c store (h.code.run store row) := by
  cases hrun : h.code.run store row with
  | ok us => exact .inl ⟨us, rfl⟩
  | error e =>
    have hinternal : e.isInternal = true := by
      cases e with
      | eval cause => exact absurd hrun (hvalues cause)
      | overlap b => exact absurd hrun (hoverlap b)
      | _ => rfl
    refine .inr ⟨e, rfl, hinternal, fun b hb => ?_⟩
    have hvalue := (ExecError.isOfValues_iff.mp (run_fails proper closed hmake hb e hrun)).1
    rw [hinternal] at hvalue
    cases hvalue

theorem verified_overlap_iff (proper : c.Proper) (closed : c.Closed) (sound : store.Sound)
    (present : store.Has rel row) {h : Handler}
    (hmake : make c target rel change .assumeDisjointVerify estimate = .ok h)
    (hvalues : ∀ e, h.code.run store row ≠ .error (.eval e)) :
    (∃ b, h.code.run store row = .error (.overlap b)) ↔
      ∃ b, c.Witness store.Has b ∧ 2 ≤ c.join.hits rel row (c.bindings b) := by
  obtain ⟨_, _, ⟨cs, hcs, hcode, _⟩ | ⟨hfew, _, cs, hcs, hcode⟩⟩ := make_das_of_verify hmake
  · constructor
    · rintro ⟨b, hb⟩
      rw [hcode] at hb
      exact ⟨b, union_overlap_hits proper sound present hcs hb⟩
    · rintro ⟨b, hb, htwo⟩
      apply Classical.byContradiction
      intro hnone
      have hends := ok_or_misfits proper closed hmake hvalues fun x hx => hnone ⟨x, hx⟩
      rcases hends with ⟨us, hrun⟩ | ⟨_, _, _, hno⟩
      · rw [hcode] at hrun
        have hone := union_hits_le proper sound present hcs hrun hb
        omega
      · exact hno b hb
  · constructor
    · rintro ⟨b, hb⟩
      rw [hcode] at hb
      exact absurd hb (ofList_noOverlap hcs sound b)
    · rintro ⟨b, _, htwo⟩
      classical
      have hle : c.join.hits rel row (c.bindings b) ≤ (c.join.occurrences rel).length := by
        rw [← Join.countP_hit]
        exact List.countP_le_length
      omega

/-- What the strategies compute that assume that occurrences do not overlap, for a store that has
the changed row and a run without an evaluation error. -/
theorem make_assumed (proper : c.Proper) (hrel : rel ∈ c.join.rels)
    (houtput : ∀ v ∈ c.output.mentions, ∃ d ∈ c.join, v ∈ d.lhs) {s : Store} (built : s.Built)
    (present : s.Has rel row) (target : String) (change : Change) (estimate : Estimator) :
    (∀ h, make c target rel change .assumeDisjoint estimate = .ok h →
      (∀ e, h.code.run s row ≠ .error (.eval e)) →
      (∃ us, h.code.run s row = .ok us ∧ EmitsHits c target change s.Has rel row us) ∨
        Misfits c s (h.code.run s row)) ∧
    (∀ h, make c target rel change .assumeDisjointVerify estimate = .ok h →
      (∀ e, h.code.run s row ≠ .error (.eval e)) →
      ((∃ b, h.code.run s row = .error (.overlap b)) ↔
        ∃ b, c.Witness s.Has b ∧ 2 ≤ c.join.hits rel row (c.bindings b)) ∧
      ((∀ b, h.code.run s row ≠ .error (.overlap b)) →
        ((∃ us, h.code.run s row = .ok us) ∨ Misfits c s (h.code.run s row)) ∧
          ∃ d, make c target rel change .das estimate = .ok d ∧
            d.code.run s row = h.code.run s row)) := by
  constructor
  · intro h hmake hvalues
    have closed : c.Closed := ⟨make_closed proper hrel hmake, houtput⟩
    have hplain : ∀ b, h.code.run s row ≠ .error (.overlap b) := by
      obtain ⟨_, _, _, _, ⟨hunites, _⟩ | ⟨_, cs, hcs, hcode⟩⟩ := make_eq_ok hmake
      · cases hunites
      · rw [hcode]
        exact ofList_noOverlap hcs built.sound
    apply (ok_or_misfits proper closed hmake hvalues hplain).imp_left
    rintro ⟨us, hrun⟩
    exact ⟨us, hrun, assumed_emits proper built.sound present hmake hrun⟩
  · intro h hmake hvalues
    have closed : c.Closed := ⟨make_closed proper hrel hmake, houtput⟩
    refine ⟨verified_overlap_iff proper closed built.sound present hmake hvalues, fun hnone => ?_⟩
    refine ⟨ok_or_misfits proper closed hmake hvalues hnone, ?_⟩
    obtain ⟨d, hd, ⟨cs, _, hcode, hdcode⟩ | ⟨_, hdcode, _⟩⟩ := make_das_of_verify hmake
    · rw [hcode] at hnone ⊢
      exact ⟨d, hd, by rw [hdcode, union_run_eq hnone]⟩
    · exact ⟨d, hd, by rw [hdcode]⟩

/-- Around the loop twice: the output is recorded twice, and the binding is reported. With the other
edge nothing overlaps. -/
theorem make_assumed_loop :
    (∃ h us, make twoSteps "far" "edge" .add .assumeDisjoint .silent = .ok h ∧
      h.code.run loopStore [.int 2, .int 2] = .ok us ∧
      us.map Update.row = [[.int 2, .int 2], [.int 1, .int 2], [.int 2, .int 2]] ∧
      EmitsHits twoSteps "far" .add loopStore.Has "edge" [.int 2, .int 2] us) ∧
    (∃ h, make twoSteps "far" "edge" .add .assumeDisjointVerify .silent = .ok h ∧
      h.code.run loopStore [.int 2, .int 2] = .error (.overlap [.int 2, .int 2, .int 2]) ∧
      ∃ b, twoSteps.Witness loopStore.Has b ∧
        2 ≤ twoSteps.join.hits "edge" [.int 2, .int 2] (twoSteps.bindings b)) ∧
    ∃ h d us, make twoSteps "far" "edge" .add .assumeDisjointVerify .silent = .ok h ∧
      make twoSteps "far" "edge" .add .das .silent = .ok d ∧
      h.code.run loopStore [.int 1, .int 2] = .ok us ∧ d.code.run loopStore [.int 1, .int 2] = .ok us ∧
      us.map Update.row = [[.int 1, .int 2]] := by
  have hrel : "edge" ∈ twoSteps.join.rels := by decide
  have houtput : ∀ v ∈ twoSteps.output.mentions, ∃ d ∈ twoSteps.join, v ∈ d.lhs := by decide
  have hloop := make_assumed twoSteps_proper hrel houtput loopStore_built
    (show loopStore.Has "edge" [.int 2, .int 2] from rfl) "far" .add .silent
  have hedge := make_assumed twoSteps_proper hrel houtput loopStore_built
    (show loopStore.Has "edge" [.int 1, .int 2] from rfl) "far" .add .silent
  refine ⟨?_, ?_, ?_⟩
  · obtain ⟨us, hrun, hemits⟩ | ⟨e, he, _⟩ := hloop.1 _ rfl (by rintro e ⟨⟩)
    · cases hrun
      exact ⟨_, _, rfl, rfl, rfl, hemits⟩
    · cases he
  · exact ⟨_, rfl, rfl, (hloop.2 _ rfl (by rintro e ⟨⟩)).1.mp ⟨_, rfl⟩⟩
  · obtain ⟨_, d, hd, hrun⟩ := (hedge.2 _ rfl (by rintro e ⟨⟩)).2 (by rintro b ⟨⟩)
    exact ⟨_, d, _, rfl, hd, rfl, hrun, rfl⟩

end Handler

end ViewUpkeep
