import ViewUpkeep.Handler
import ViewUpkeep.Proofs.Code
import ViewUpkeep.Proofs.Delta
import ViewUpkeep.Proofs.Plan

/-!
Handlers are exact. The code of a handler, run for a changed row, records one change for each
witness that the comprehension has with the row and not without it, whichever strategy divides these
among the occurrences of the relation. Hence the number of recorded changes of an output row is the
difference of its multiplicities.
-/
namespace ViewUpkeep

structure Comprehension.Proper (c : Comprehension) : Prop where
  plain : ∀ d ∈ c.join, d.Plain
  join_delta : ∀ d ∈ c.join, Var.delta ∉ d.mentions
  output_delta : Var.delta ∉ c.output.mentions

namespace Join

theorem mem_vars {j : Join} {v : Var} :
    v ∈ j.vars ↔ ∃ c ∈ j, (v ∈ c.lhs ∨ v ∈ c.readVars) ∧ v ≠ Var.delta := by
  simp [vars, Clause.vars, Clause.enumVars, or_and_right]

theorem mem_enumVars {j : Join} {v : Var} : v ∈ j.enumVars ↔ ∃ c ∈ j, v ∈ c.lhs := by
  simp [enumVars, Clause.enumVars]

theorem delta_notMem_vars (j : Join) : Var.delta ∉ j.vars := by
  intro h
  obtain ⟨c, _, _, hne⟩ := mem_vars.mp h
  exact hne rfl

theorem map_lhs_deltaAt (j : Join) (rel : String) (value : Expr) (strategy : SelfJoin) (i : Nat) :
    (j.deltaAt rel value strategy i).map Clause.lhs = j.map Clause.lhs := by
  unfold deltaAt
  rw [List.map_map]
  conv_rhs => rw [← List.zipIdx_map_fst 0 j, List.map_map]
  refine List.map_congr_left fun p _ => ?_
  dsimp only [Function.comp]
  split
  · rfl
  · split
    · cases strategy <;> rfl
    · rfl

theorem exists_lhs_deltaAt {j : Join} {rel : String} {value : Expr} {strategy : SelfJoin} {i : Nat}
    {v : Var} : (∃ d ∈ j.deltaAt rel value strategy i, v ∈ d.lhs) ↔ ∃ d ∈ j, v ∈ d.lhs := by
  rw [← List.mem_flatMap, ← List.mem_flatMap, List.flatMap_def, map_lhs_deltaAt, ← List.flatMap_def]

theorem mem_deltaAt_of_rel?_none {j : Join} {rel : String} {i : Nat} (hi : i ∈ j.occurrences rel)
    {c : Clause} (hc : c ∈ j) (hrel : c.rel? = none) (value : Expr) (strategy : SelfJoin) :
    c ∈ j.deltaAt rel value strategy i := by
  obtain ⟨k, hk⟩ := List.mem_iff_getElem?.mp hc
  obtain ⟨ci, hci, hri⟩ := mem_occurrences.mp hi
  have hne : k ≠ i := by
    rintro rfl
    rw [hk] at hci
    cases hci
    rw [hrel] at hri
    cases hri
  refine List.mem_map.mpr ⟨(c, k), List.mem_zipIdx_iff_getElem?.mpr hk, ?_⟩
  simp [hne, hrel]

end Join

theorem Clause.Plain.readVars_eq_nil {c : Clause} (plain : c.Plain) {rel : String}
    (h : c.rel? = some rel) : c.readVars = [] := by
  cases c with
  | singleton | cond => cases h
  | _ => rfl

namespace Comprehension

def rowOf (c : Comprehension) (b : Row) : Row :=
  ((c.output.evalRow (c.bindings b)).toOption).getD []

theorem evalRow_eq_ok {c : Comprehension} {b row : Row}
    (h : c.output.evalRow (c.bindings b) = .ok row) : row = c.rowOf b := by
  simp [rowOf, h, Except.toOption]

theorem mem_vars_iff_of_plan {c : Comprehension} (proper : c.Proper) {rel : String} {i : Nat}
    (hi : i ∈ c.join.occurrences rel) {value : Expr} {strategy : SelfJoin} {estimate : Estimator}
    {steps : List Plan.Step}
    (h : (Plan.ofJoin (c.join.deltaAt rel value strategy i) [Var.delta] estimate).complete =
      .ok steps)
    (v : Var) : v ∈ c.join.vars ↔ v ∈ steps.flatMap (·.clause.lhs) := by
  rw [Plan.complete_lhs h, Join.exists_lhs_deltaAt, Join.mem_vars]
  constructor
  · rintro ⟨d, hd, hv | hv, hne⟩
    · exact ⟨d, hd, hv⟩
    · have hrel : d.rel? = none := by
        cases hr : d.rel? with
        | none => rfl
        | some r =>
          rw [(proper.plain d hd).readVars_eq_nil hr] at hv
          cases hv
      have hmem := Join.mem_deltaAt_of_rel?_none hi hd hrel value strategy
      rcases Plan.complete_bound h hmem hv with hb | hex
      · exact absurd (List.mem_singleton.mp hb) hne
      · exact Join.exists_lhs_deltaAt.mp hex
  · rintro ⟨d, hd, hv⟩
    refine ⟨d, hd, .inl hv, ?_⟩
    rintro rfl
    exact proper.join_delta d hd (d.lhs_subset_mentions hv)

theorem evalRow_output_congr {c : Comprehension} (proper : c.Proper) {b : Row}
    {x : Value} {env : Env}
    (h : ∀ v, env.get? v = Env.get? (c.join.vars.zip b ++ [(Var.delta, x)]) v) :
    c.output.evalRow env = c.output.evalRow (c.bindings b) := by
  refine Expr.evalRow_congr _ fun v hv => ?_
  have hne : Var.delta ≠ v := fun he => proper.output_delta (he ▸ hv)
  rw [h v, Env.get?_append]
  simp [bindings, hne]

end Comprehension

theorem Clause.Plain.staged_adjust {facts : Facts} {rel : String} {row : Row} {c : Clause}
    (plain : c.Plain) (h : c.rel? = some rel) (absent : ¬ facts rel row) (strategy : SelfJoin) :
    (Join.adjust strategy (.var Var.delta) c).Staged (strategy.facts facts rel row)
      [(Var.delta, .tuple row)] := by
  cases strategy with
  | sub => exact .without plain
  | aug =>
    refine .withExtra plain ?_
    rintro other hw holds ⟨x, hx, hvalue⟩
    have hd : other.get? Var.delta = some (.tuple row) := hw _ _ (by simp)
    rw [Expr.eval_var, hd] at hvalue
    cases hvalue
    exact plain.not_reads h absent holds hx
  | das | assumeDisjoint | assumeDisjointVerify => exact .plain plain

theorem Join.staged_deltaAt {facts : Facts} {rel : String} {row : Row} {j : Join}
    (plain : ∀ c ∈ j, c.Plain) (absent : ¬ facts rel row) (strategy : SelfJoin) (i : Nat) :
    ∀ c ∈ j.deltaAt rel (.var Var.delta) strategy i,
      c.Staged (strategy.facts facts rel row) [(Var.delta, .tuple row)] := by
  intro c hc
  obtain ⟨p, hp, rfl⟩ := List.mem_map.mp hc
  have hj : p.1 ∈ j := List.mem_of_getElem? (List.mem_zipIdx_iff_getElem?.mp hp)
  split
  · exact .delta
  · split
    · rename_i hlater
      have hrel : p.1.rel? = some rel := by simpa using (Bool.and_eq_true_iff.mp hlater).2
      exact (plain _ hj).staged_adjust hrel absent strategy
    · exact .plain (plain _ hj)

namespace Handler

/-- The witnesses that a strategy assigns to one occurrence. -/
def Share (c : Comprehension) (small : Facts) (rel : String) (row : Row) (strategy : SelfJoin)
    (i : Nat) (b : Row) : Prop :=
  c.Witness (small.insert rel row) b ∧ c.join.Hit rel row (c.bindings b) i ∧
    c.join.Assigned rel row (c.bindings b) strategy i

variable {c : Comprehension} {small : Facts} {rel : String} {row : Row} {strategy : SelfJoin}
  {store : Store} {sink : Option (List Var)} {owner : String} {estimate : Estimator} {leaf : Code}

theorem share_iff (proper : c.Proper) (absent : ¬ small rel row) {i : Nat}
    (hi : i ∈ c.join.occurrences rel) {x : Row} {env : Env}
    (hd : env.get? Var.delta = some (.tuple row))
    (hget : ∀ d ∈ c.join, ∀ v ∈ d.mentions, env.get? v = (c.bindings x).get? v) :
    Share c small rel row strategy i x ↔ x.length = c.join.vars.length ∧
      (c.join.deltaAt rel (.var Var.delta) strategy i).Holds (strategy.facts small rel row) env := by
  have hhit : ∀ k, c.join.Hit rel row env k ↔ c.join.Hit rel row (c.bindings x) k := by
    intro k
    refine exists_congr fun d => and_congr_right fun hk => and_congr_right fun _ => ?_
    have hd := List.mem_of_getElem? hk
    exact Env.Reads.congr (fun v hv => hget d hd v (d.lhs_subset_mentions hv)) row
  rw [Join.deltaAt_holds_iff proper.plain absent hd strategy hi, Join.holds_congr hget, hhit i]
  unfold Share Comprehension.Witness Join.Assigned
  simp only [hhit, and_assoc]

theorem branch_eq_ok {j : Join} {code : Code} (h : branch owner estimate leaf j = .ok code) :
    ∃ steps, (Plan.ofJoin j [Var.delta] estimate).complete = .ok steps ∧
      Plan.code steps leaf = .ok code := by
  obtain ⟨steps, hsteps, h⟩ := bind_eq_ok.mp h
  unfold planDelta at hsteps
  split at hsteps
  · rename_i hplan
    cases hsteps
    refine ⟨_, hplan, ?_⟩
    split at h
    · rename_i hcode
      cases h
      exact hcode
    · cases h
  · cases hsteps

/-- The code of one occurrence runs its leaf once for each witness in its share. -/
theorem branch_runs (proper : c.Proper) (absent : ¬ small rel row) (sound : store.Sound)
    (hfacts : store.Has = strategy.facts small rel row) {i : Nat} (hi : i ∈ c.join.occurrences rel)
    {code : Code}
    (h : branch owner estimate leaf (c.join.deltaAt rel (.var Var.delta) strategy i) = .ok code)
    (hf : (code.exec store sink [(Var.delta, .tuple row)]).fault = none) :
    ∃ (found : List Env) (b : Env → Row), (found.map b).Nodup ∧
      (∀ x, x ∈ found.map b ↔ Share c small rel row strategy i x) ∧
      (∀ e ∈ found, ∀ v,
        e.get? v = Env.get? (c.join.vars.zip (b e) ++ [(Var.delta, .tuple row)]) v) ∧
      (code.exec store sink [(Var.delta, .tuple row)]).Joins
      (found.map (leaf.exec store sink)) := by
  obtain ⟨steps, hplan, hcode⟩ := branch_eq_ok h
  have hstaged : ∀ s ∈ steps, s.clause.Staged store.Has [(Var.delta, .tuple row)] := by
    rw [Plan.complete_forall hplan, hfacts]
    exact Join.staged_deltaAt proper.plain absent strategy i
  obtain ⟨found, hs, hj⟩ := Plan.code_runs sound (.refl _) hstaged hcode hf
  have hall : ∀ e : Env, (∀ s ∈ steps, s.clause.Holds store.Has e) ↔
      (c.join.deltaAt rel (.var Var.delta) strategy i).Holds (strategy.facts small rel row) e := by
    intro e
    rw [hfacts]
    exact Plan.complete_forall hplan
  obtain ⟨b, hnodup, hmem, hsame⟩ := hs.exists_rows
    (fun a b hw ha s hs => (ha s hs).mono hw) c.join.nodup_vars
    (Comprehension.mem_vars_iff_of_plan proper hi hplan) (by
      intro v hv
      have hne : Var.delta ≠ v := fun he => c.join.delta_notMem_vars (he ▸ hv)
      simp [hne])
  refine ⟨found, b, hnodup, ?_, hsame, hj⟩
  intro x
  rw [hmem, hall]
  -- The changed row is bound in the environment of the code and not in that of the witness.
  have hd : Env.get? (c.join.vars.zip x ++ [(Var.delta, .tuple row)]) Var.delta =
      some (.tuple row) := by
    rw [Env.get?_zip_append c.join.delta_notMem_vars]
    simp
  refine (share_iff proper absent hi hd ?_).symm
  intro d hd v hv
  have hne : Var.delta ≠ v := fun he => proper.join_delta d hd (he ▸ hv)
  rw [Env.get?_append]
  simp [Comprehension.bindings, hne]

def updateOf (c : Comprehension) (target : String) (change : Change) (b : Row) : Update :=
  ⟨target, change, c.rowOf b⟩

theorem update_exec (proper : c.Proper) {target : String} {change : Change} {b : Row} {env : Env}
    {x : Value} (hsame : ∀ v, env.get? v = Env.get? (c.join.vars.zip b ++ [(Var.delta, x)]) v)
    (hf : ((Code.update target change c.output).exec store sink env).fault = none) :
    c.output.evalRow (c.bindings b) = .ok (c.rowOf b) ∧
      ((Code.update target change c.output).exec store sink env).updates =
        [updateOf c target change b] := by
  obtain ⟨r, hr, hupdates⟩ := Code.update_faultless hf
  rw [Comprehension.evalRow_output_congr proper hsame] at hr
  have hrow := Comprehension.evalRow_eq_ok hr
  rw [hrow] at hr hupdates
  exact ⟨hr, hupdates⟩

theorem collect_exec {ws : List Var} {b : Row} {env : Env} (hreads : env.Reads ws b) :
    Code.collect.exec store (some ws) env = ⟨[], [b], none⟩ := by
  rw [Code.exec, (Env.valuesOf_eq_ok_iff ..).mpr hreads]
  rfl

theorem flatMap_map_singleton {α β γ : Type} {found : List α} {f : α → γ} {g : γ → List β}
    {k : α → β} (h : ∀ a ∈ found, g (f a) = [k a]) : (found.map f).flatMap g = found.map k := by
  rw [List.flatMap_map, List.flatMap_congr h, ← List.map_eq_flatMap]

theorem branch_updates (proper : c.Proper) (absent : ¬ small rel row) (sound : store.Sound)
    (hfacts : store.Has = strategy.facts small rel row) {target : String}
    {change : Change} {i : Nat}
    (hi : i ∈ c.join.occurrences rel) {code : Code}
    (h : branch owner estimate (.update target change c.output)
      (c.join.deltaAt rel (.var Var.delta) strategy i) = .ok code)
    (hf : (code.exec store sink [(Var.delta, .tuple row)]).fault = none) :
    ∃ bs : List Row, bs.Nodup ∧ (∀ x, x ∈ bs ↔ Share c small rel row strategy i x) ∧
      (∀ b ∈ bs, c.output.evalRow (c.bindings b) = .ok (c.rowOf b)) ∧
      (code.exec store sink [(Var.delta, .tuple row)]).updates.Perm
        (bs.map (updateOf c target change)) := by
  obtain ⟨found, b, hn, hm, hsame, hj⟩ := branch_runs proper absent sound hfacts hi h hf
  have hleaf := fun e (he : e ∈ found) =>
    update_exec proper (hsame e he) (hj.faultless _ (List.mem_map_of_mem he))
  refine ⟨found.map b, hn, hm, ?_, ?_⟩
  · intro x hx
    obtain ⟨e, he, rfl⟩ := List.mem_map.mp hx
    exact (hleaf e he).1
  · refine hj.updates.trans (.of_eq ?_)
    rw [flatMap_map_singleton fun e he => (hleaf e he).2, List.map_map]
    rfl

theorem branch_collected (proper : c.Proper) (absent : ¬ small rel row) (sound : store.Sound)
    (hfacts : store.Has = strategy.facts small rel row) {i : Nat}
    (hi : i ∈ c.join.occurrences rel) {code : Code}
    (h : branch owner estimate .collect (c.join.deltaAt rel (.var Var.delta) strategy i) = .ok code)
    (hf : (code.exec store (some c.join.vars) [(Var.delta, .tuple row)]).fault = none) :
    (code.exec store (some c.join.vars) [(Var.delta, .tuple row)]).updates = [] ∧
    ∀ x, x ∈ (code.exec store (some c.join.vars) [(Var.delta, .tuple row)]).collected ↔
      Share c small rel row strategy i x := by
  obtain ⟨found, b, hn, hm, hsame, hj⟩ := branch_runs proper absent sound hfacts hi h hf
  have hleaf : ∀ e ∈ found, Code.collect.exec store (some c.join.vars) e = ⟨[], [b e], none⟩ := by
    intro e he
    refine collect_exec ?_
    have hlen : (b e).length = c.join.vars.length :=
      ((hm (b e)).mp (List.mem_map_of_mem he)).1.1
    exact (Env.Reads.congr (fun v _ => hsame e he v) _).mpr
      (Env.reads_zip_append c.join.nodup_vars hlen _)
  constructor
  · refine List.Perm.eq_nil (hj.updates.trans (.of_eq ?_))
    rw [List.flatMap_map, List.flatMap_eq_nil_iff]
    intro e he
    rw [hleaf e he]
  · intro x
    rw [hj.collected.mem_iff, flatMap_map_singleton (k := b) fun e he => by rw [hleaf e he]]
    exact hm x

theorem exists_of_forall₂ {α β : Type} {R : α → β → Prop} {l : List α} {l' : List β}
    (h : List.Forall₂ R l l') {a : α} (ha : a ∈ l) : ∃ b ∈ l', R a b := by
  induction h with
  | nil => cases ha
  | cons hab _ ih =>
    rcases List.mem_cons.mp ha with rfl | ha
    · exact ⟨_, List.mem_cons_self, hab⟩
    · obtain ⟨b, hb, hab⟩ := ih ha
      exact ⟨b, List.mem_cons_of_mem _ hb, hab⟩

theorem branches_forall₂ {js : List (Nat × Join)} {cs : List Code}
    (h : branches owner estimate leaf js = .ok cs) :
    List.Forall₂ (fun j code => branch owner estimate leaf j.2 = .ok code) js cs := by
  induction js generalizing cs with
  | nil =>
    cases h
    exact .nil
  | cons j js ih =>
    obtain ⟨code, hcode, h⟩ := bind_eq_ok.mp h
    obtain ⟨rest, hrest, h⟩ := bind_eq_ok.mp h
    cases h
    exact .cons hcode (ih hrest)

def Branches (c : Comprehension) (rel : String) (strategy : SelfJoin) (owner : String)
    (estimate : Estimator) (leaf : Code) (places : List Nat) (cs : List Code) : Prop :=
  List.Forall₂ (fun i code => i ∈ c.join.occurrences rel ∧
    branch owner estimate leaf (c.join.deltaAt rel (.var Var.delta) strategy i) = .ok code) places cs

theorem branches_deltas {cs : List Code}
    (h : branches owner estimate leaf (c.join.deltas rel (.var Var.delta) strategy) = .ok cs) :
    Branches c rel strategy owner estimate leaf (c.join.occurrences rel) cs := by
  have hall := List.forall₂_map_left_iff.mp (branches_forall₂ h)
  exact (List.forall₂_and_left ..).mpr ⟨fun i hi => hi, hall⟩

theorem exists_mem_iff_of_countP {α β : Type} {l : List α} {l' : List β} {p : α → Bool}
    {q : β → Bool} (h : l.countP p = l'.countP q) :
    (∃ a ∈ l, p a = true) ↔ ∃ b ∈ l', q b = true := by
  rw [← List.countP_pos_iff, h, List.countP_pos_iff]

theorem countP_le_one {α : Type} {l : List α} (nodup : l.Nodup) {p : α → Bool}
    (h : ∀ a ∈ l, ∀ b ∈ l, p a = true → p b = true → a = b) : l.countP p ≤ 1 := by
  induction l with
  | nil => simp
  | cons a l ih =>
    rw [List.nodup_cons] at nodup
    have htail := ih nodup.2 fun b hb c hc => h b (List.mem_cons_of_mem a hb) c (List.mem_cons_of_mem a hc)
    rw [List.countP_cons]
    split
    · rename_i ha
      have hnone : l.countP p = 0 := by
        rw [List.countP_eq_zero]
        intro b hb hpb
        rw [h a List.mem_cons_self b (List.mem_cons_of_mem a hb) ha hpb] at nodup
        exact nodup.1 hb
      omega
    · omega

open Classical in
theorem branches_updates (proper : c.Proper) (absent : ¬ small rel row) (sound : store.Sound)
    (hfacts : store.Has = strategy.facts small rel row) {target : String} {change : Change}
    {places : List Nat} {cs : List Code}
    (h : Branches c rel strategy owner estimate (.update target change c.output) places cs)
    (hf : ∀ d ∈ cs, (d.exec store sink [(Var.delta, .tuple row)]).fault = none) :
    ∃ bs : List Row,
      (∀ x, bs.count x = places.countP fun i => Share c small rel row strategy i x) ∧
      (∀ b ∈ bs, c.output.evalRow (c.bindings b) = .ok (c.rowOf b)) ∧
      (cs.flatMap fun d => (d.exec store sink [(Var.delta, .tuple row)]).updates).Perm
        (bs.map (updateOf c target change)) := by
  induction h with
  | nil => exact ⟨[], by simp, by simp, by simp⟩
  | cons hbranch _ ih =>
    obtain ⟨hd, htail⟩ := List.forall_mem_cons.mp hf
    obtain ⟨bs, hn, hm, hrow, hp⟩ :=
      branch_updates proper absent sound hfacts hbranch.1 hbranch.2 hd
    obtain ⟨ds, hcount, hrows, hps⟩ := ih htail
    refine ⟨bs ++ ds, ?_, ?_, ?_⟩
    · intro x
      rw [List.count_append, hcount, List.countP_cons, hn.count, Nat.add_comm]
      simp [hm]
    · exact List.forall_mem_append.mpr ⟨hrow, hrows⟩
    · rw [List.flatMap_cons, List.map_append]
      exact hp.append hps

open Classical in
theorem branches_collected (proper : c.Proper) (absent : ¬ small rel row) (sound : store.Sound)
    (hfacts : store.Has = strategy.facts small rel row)
    {places : List Nat} {cs : List Code}
    (h : Branches c rel strategy owner estimate .collect places cs)
    (hf : ∀ d ∈ cs, (d.exec store (some c.join.vars) [(Var.delta, .tuple row)]).fault = none) :
    (∀ d ∈ cs, (d.exec store (some c.join.vars) [(Var.delta, .tuple row)]).updates = []) ∧
    ∀ x, cs.countP (fun d =>
        x ∈ (d.exec store (some c.join.vars) [(Var.delta, .tuple row)]).collected) =
      places.countP fun i => Share c small rel row strategy i x := by
  induction h with
  | nil => simp
  | cons hbranch _ ih =>
    obtain ⟨hd, htail⟩ := List.forall_mem_cons.mp hf
    obtain ⟨hu, hm⟩ := branch_collected proper absent sound hfacts hbranch.1 hbranch.2 hd
    obtain ⟨hus, hcount⟩ := ih htail
    refine ⟨List.forall_mem_cons.mpr ⟨hu, hus⟩, ?_⟩
    intro x
    rw [List.countP_cons, List.countP_cons, hcount]
    simp [hm]

/-- The recorded changes are the outputs of some witnesses, each of which has one. -/
def Emits (c : Comprehension) (target : String) (change : Change) (P : Row → Prop)
    (us : List Update) : Prop :=
  ∃ bs : List Row, bs.Nodup ∧ (∀ b, b ∈ bs ↔ P b) ∧
    (∀ b ∈ bs, c.output.evalRow (c.bindings b) = .ok (c.rowOf b)) ∧
    us.Perm (bs.map (updateOf c target change))

theorem exists_share_iff (proper : c.Proper) (absent : ¬ small rel row) (b : Row) :
    (∃ i ∈ c.join.occurrences rel, Share c small rel row strategy i b) ↔
      c.Witness (small.insert rel row) b ∧ ¬ c.Witness small b := by
  have hgain := Join.gained_iff proper.plain absent (c.bindings b)
  constructor
  · rintro ⟨i, _, ⟨hlen, hbig⟩, hhit, _⟩
    have hnot := (hgain.mpr ⟨hbig, i, hhit⟩).2
    exact ⟨⟨hlen, hbig⟩, fun hw => hnot hw.2⟩
  · rintro ⟨⟨hlen, hbig⟩, hnot⟩
    obtain ⟨_, hex⟩ := hgain.mp ⟨hbig, fun hs => hnot ⟨hlen, hs⟩⟩
    obtain ⟨i, hhit, hassigned⟩ := Join.exists_assigned strategy hex
    exact ⟨i, hhit.mem_occurrences, ⟨hlen, hbig⟩, hhit, hassigned⟩

theorem run_eq_ok {code : Code} {us : List Update} (h : code.run store row = .ok us) :
    (code.exec store none [(Var.delta, .tuple row)]).fault = none ∧
      (code.exec store none [(Var.delta, .tuple row)]).updates = us := by
  unfold Code.run at h
  dsimp only at h
  split at h
  · cases h
  · rename_i hf
    cases h
    exact ⟨hf, rfl⟩

theorem ofList_emits (proper : c.Proper) (absent : ¬ small rel row) (sound : store.Sound)
    (hfacts : store.Has = strategy.facts small rel row) {target : String} {change : Change}
    {cs : List Code}
    (h : branches owner estimate (.update target change c.output)
      (c.join.deltas rel (.var Var.delta) strategy) = .ok cs)
    (hone : (strategy = .sub ∨ strategy = .aug) ∨ (c.join.occurrences rel).length ≤ 1)
    {us : List Update} (hrun : (Code.ofList cs).run store row = .ok us) :
    Emits c target change
      (fun b => c.Witness (small.insert rel row) b ∧ ¬ c.Witness small b) us := by
  obtain ⟨hf, rfl⟩ := run_eq_ok hrun
  have hj := Code.ofList_joins hf
  obtain ⟨bs, hcount, hrow, hp⟩ := branches_updates proper absent sound hfacts (branches_deltas h)
    fun d hd => hj.faultless _ (List.mem_map_of_mem hd)
  refine ⟨bs, ?_, ?_, hrow, ?_⟩
  · rw [List.nodup_iff_count_le_one]
    intro x
    rw [hcount]
    rcases hone with hs | hlen
    · apply countP_le_one (c.join.nodup_occurrences rel)
      intro i _ k _ hi hk
      simp only [decide_eq_true_eq] at hi hk
      exact Join.Assigned.unique hs hi.2.1 hi.2.2 hk.2.1 hk.2.2
    · exact Nat.le_trans List.countP_le_length hlen
  · intro b
    have hshare : b ∈ bs ↔ ∃ i ∈ c.join.occurrences rel, Share c small rel row strategy i b := by
      simpa using exists_mem_iff_of_countP (hcount b)
    exact hshare.trans (exists_share_iff proper absent b)
  · refine hj.updates.trans ?_
    rw [List.flatMap_map]
    exact hp

theorem union_emits (proper : c.Proper) (absent : ¬ small rel row) (sound : store.Sound)
    (hfacts : store.Has = strategy.facts small rel row) {target : String} {change : Change}
    {cs : List Code} {verify : Bool}
    (h : branches owner estimate .collect (c.join.deltas rel (.var Var.delta) strategy) = .ok cs)
    {us : List Update}
    (hrun : (Code.union c.join.vars verify cs (.update target change c.output)).run store row =
      .ok us) :
    Emits c target change
      (fun b => c.Witness (small.insert rel row) b ∧ ¬ c.Witness small b) us := by
  obtain ⟨hf, rfl⟩ := run_eq_ok hrun
  rw [Code.exec, Code.execAll_eq_map] at hf ⊢
  obtain ⟨hfault, hbody, hupdates, _⟩ := Trace.append_faultless hf
  have hj := Trace.branches_joins hfault
  have hjb := Trace.concat_joins hbody
  rw [hupdates]
  obtain ⟨hu, hcount⟩ := branches_collected proper absent sound hfacts (branches_deltas h)
    fun d hd => hj.faultless _ (List.mem_map_of_mem hd)
  have hnone := hj.updates
  rw [List.flatMap_map, List.flatMap_eq_nil_iff.mpr hu, List.perm_nil] at hnone
  rw [hnone, List.nil_append]
  have hmem : ∀ b, b ∈ (Trace.branches verify [] (cs.map fun d =>
      d.exec store (some c.join.vars) [(Var.delta, .tuple row)])).collected.eraseDups ↔
      c.Witness (small.insert rel row) b ∧ ¬ c.Witness small b := by
    intro b
    rw [List.mem_eraseDups, hj.collected.mem_iff, List.flatMap_map, List.mem_flatMap,
      ← exists_share_iff proper absent]
    simpa using exists_mem_iff_of_countP (hcount b)
  have hleaf := fun b (hb : b ∈ (Trace.branches verify [] (cs.map fun d =>
      d.exec store (some c.join.vars) [(Var.delta, .tuple row)])).collected.eraseDups) =>
    update_exec (b := b) proper (fun v => Env.get?_shadow c.join.nodup_vars b _ v)
      (hjb.faultless _ (List.mem_map_of_mem hb))
  refine ⟨_, nodup_eraseDups _, hmem, fun b hb => (hleaf b hb).1, ?_⟩
  refine hjb.updates.trans (.of_eq ?_)
  exact flatMap_map_singleton fun b hb => (hleaf b hb).2

theorem make_eq_ok {target : String} {change : Change} {h : Handler}
    (hmake : make c target rel change strategy estimate = .ok h) :
    h.target = target ∧ h.rel = rel ∧ h.change = change ∧
      h.placement = strategy.placement change ∧
      ((unites strategy = true ∧ ∃ cs,
          branches target estimate .collect (c.join.deltas rel (.var Var.delta) strategy) = .ok cs ∧
          h.code = .union c.join.vars (strategy = .assumeDisjointVerify) cs
            (.update target change c.output)) ∨
        ((unites strategy = false ∨ (c.join.occurrences rel).length ≤ 1) ∧ ∃ cs,
          branches target estimate (.update target change c.output)
            (c.join.deltas rel (.var Var.delta) strategy) = .ok cs ∧ h.code = .ofList cs)) := by
  unfold make at hmake
  dsimp only at hmake
  split at hmake
  · rename_i hu
    obtain ⟨cs, hcs, hmake⟩ := bind_eq_ok.mp hmake
    cases hmake
    exact ⟨rfl, rfl, rfl, rfl, .inl ⟨(Bool.and_eq_true_iff.mp hu).2, cs, hcs, rfl⟩⟩
  · rename_i hu
    obtain ⟨cs, hcs, hmake⟩ := bind_eq_ok.mp hmake
    cases hmake
    refine ⟨rfl, rfl, rfl, rfl, .inr ⟨?_, cs, hcs, rfl⟩⟩
    cases hs : unites strategy with
    | false => exact .inl rfl
    | true =>
      have hlen : ¬ 1 < (c.join.deltas rel (.var Var.delta) strategy).length := by
        simpa [hs] using hu
      exact .inr (by simpa [Join.deltas] using hlen)

/-- A handler records a change for each witness that the changed row adds or takes away, if it makes
no assumption or the relation occurs only once. -/
theorem make_emits (proper : c.Proper) (absent : ¬ small rel row) (sound : store.Sound)
    (hfacts : store.Has = strategy.facts small rel row) {target : String} {change : Change}
    (hs : strategy ≠ .assumeDisjoint ∨ (c.join.occurrences rel).length ≤ 1) {h : Handler}
    (hmake : make c target rel change strategy estimate = .ok h) {us : List Update}
    (hrun : h.code.run store row = .ok us) :
    Emits c target change
      (fun b => c.Witness (small.insert rel row) b ∧ ¬ c.Witness small b) us := by
  obtain ⟨_, _, _, _, ⟨_, cs, hcs, hcode⟩ | ⟨hone, cs, hcs, hcode⟩⟩ := make_eq_ok hmake
  · rw [hcode] at hrun
    exact union_emits proper absent sound hfacts hcs hrun
  · rw [hcode] at hrun
    refine ofList_emits proper absent sound hfacts hcs ?_ hrun
    rcases hone with hu | hlen
    · cases strategy with
      | sub => exact .inl (.inl rfl)
      | aug => exact .inl (.inr rfl)
      | assumeDisjoint => exact .inr (hs.resolve_left fun hne => hne rfl)
      | das | assumeDisjointVerify => cases hu
    · exact .inr hlen

/-- Whatever its strategy, a handler records outputs of witnesses with the changed row present. -/
theorem make_witnesses (proper : c.Proper) (absent : ¬ small rel row) (sound : store.Sound)
    (hfacts : store.Has = strategy.facts small rel row) {target : String} {change : Change}
    {h : Handler} (hmake : make c target rel change strategy estimate = .ok h) {us : List Update}
    (hrun : h.code.run store row = .ok us) :
    ∃ bs : List Row, (∀ b ∈ bs, c.Witness (small.insert rel row) b) ∧
      (∀ b ∈ bs, c.output.evalRow (c.bindings b) = .ok (c.rowOf b)) ∧
      us.Perm (bs.map (updateOf c target change)) := by
  obtain ⟨_, _, _, _, ⟨_, cs, hcs, hcode⟩ | ⟨_, cs, hcs, hcode⟩⟩ := make_eq_ok hmake
  · rw [hcode] at hrun
    obtain ⟨bs, _, hmem, hrow, hperm⟩ := union_emits proper absent sound hfacts hcs hrun
    exact ⟨bs, fun b hb => ((hmem b).mp hb).1, hrow, hperm⟩
  · rw [hcode] at hrun
    obtain ⟨hf, rfl⟩ := run_eq_ok hrun
    have hj := Code.ofList_joins hf
    obtain ⟨bs, hcount, hrow, hperm⟩ := branches_updates proper absent sound hfacts
      (branches_deltas hcs) fun d hd => hj.faultless _ (List.mem_map_of_mem hd)
    refine ⟨bs, fun b hb => ?_, hrow, ?_⟩
    · obtain ⟨i, _, hi⟩ := (exists_mem_iff_of_countP (hcount b)).mp ⟨b, hb, by simp⟩
      simp only [decide_eq_true_eq] at hi
      exact hi.1
    · refine hj.updates.trans ?_
      rw [List.flatMap_map]
      exact hperm

theorem Emits.encard {target : String} {change : Change} {P : Row → Prop} {us : List Update}
    (h : Emits c target change P us) (out : Row) :
    { b | P b ∧ c.output.evalRow (c.bindings b) = .ok out }.encard =
      us.count ⟨target, change, out⟩ := by
  obtain ⟨bs, hn, hm, hrow, hp⟩ := h
  have hset : { b | P b ∧ c.output.evalRow (c.bindings b) = .ok out } =
      ↑(bs.filter fun b => c.rowOf b = out).toFinset := by
    ext b
    rw [Finset.mem_coe, List.mem_toFinset, List.mem_filter, decide_eq_true_eq, hm,
      Set.mem_ofPred_eq]
    refine and_congr_right fun hb => ?_
    rw [hrow b ((hm b).mpr hb), Except.ok.injEq]
  rw [hset, Set.encard_coe_eq_coe_finsetCard, List.toFinset_card_of_nodup (hn.filter _),
    hp.count_eq, List.count_eq_countP, List.countP_map, List.countP_eq_length_filter]
  congr 2
  refine List.filter_congr fun b _ => ?_
  simp [updateOf, Bool.beq_eq_decide_eq]

theorem Emits.count_add_multiplicity {target : String} {change : Change} {us : List Update}
    (proper : c.Proper)
    (h : Emits c target change
      (fun b => c.Witness (small.insert rel row) b ∧ ¬ c.Witness small b) us) (out : Row) :
    us.count ⟨target, change, out⟩ + c.multiplicity small out =
      c.multiplicity (small.insert rel row) out := by
  have hmono : c.witnesses small out ⊆ c.witnesses (small.insert rel row) out := by
    rintro b ⟨⟨hlen, hb⟩, ho⟩
    refine ⟨⟨hlen, fun d hd => ?_⟩, ho⟩
    by_cases hrel : d.rel? = some rel
    · exact ((proper.plain d hd).holds_insert hrel).mpr (.inl (hb d hd))
    · exact (Clause.holds_insert_of_ne hrel).mpr (hb d hd)
  have hdiff : c.witnesses (small.insert rel row) out \ c.witnesses small out =
      { b | (c.Witness (small.insert rel row) b ∧ ¬ c.Witness small b) ∧
        c.output.evalRow (c.bindings b) = .ok out } := by
    ext b
    simp only [Comprehension.witnesses, Set.mem_sdiff, Set.mem_ofPred_eq]
    tauto
  rw [← h.encard out, ← hdiff]
  exact Set.encard_sdiff_add_encard_of_subset hmono

theorem make_closed (proper : c.Proper) (hrel : rel ∈ c.join.rels) {target : String}
    {change : Change} {h : Handler}
    (hmake : make c target rel change strategy estimate = .ok h) :
    ∀ v ∈ c.join.vars, ∃ d ∈ c.join, v ∈ d.lhs := by
  obtain ⟨d, hd, hr⟩ := List.mem_filterMap.mp (List.mem_eraseDups.mp hrel)
  obtain ⟨i, hi⟩ := List.mem_iff_getElem?.mp hd
  have hocc : i ∈ c.join.occurrences rel := Join.mem_occurrences.mpr ⟨d, hi, hr⟩
  have hbranch : ∃ leaf code, branch target estimate leaf
      (c.join.deltaAt rel (.var Var.delta) strategy i) = .ok code := by
    obtain ⟨_, _, _, _, ⟨_, cs, hcs, _⟩ | ⟨_, cs, hcs, _⟩⟩ := make_eq_ok hmake
    all_goals
      obtain ⟨code, _, _, hcode⟩ := exists_of_forall₂ (branches_deltas hcs) hocc
      exact ⟨_, code, hcode⟩
  obtain ⟨leaf, code, hcode⟩ := hbranch
  obtain ⟨steps, hsteps, _⟩ := branch_eq_ok hcode
  intro v hv
  have hmem := (Comprehension.mem_vars_iff_of_plan proper hocc hsteps v).mp hv
  exact Join.exists_lhs_deltaAt.mp ((Plan.complete_lhs hsteps v).mp hmem)

end Handler

namespace Comprehension

variable {c : Comprehension}

theorem output_evalRow {env : Env} {row : Row} :
    c.output.evalRow env = .ok row ↔ ∃ a b, env.Reads c.params a ∧
      Expr.evalAll env c.result.components = .ok b ∧ row = a ++ b := by
  rw [output, Expr.evalRow_tuple, Expr.evalAll_append]
  simp only [Expr.evalAll_vars]

theorem get?_eq_of_output (safe : c.isDuplicateSafe = true) {env other : Env} {row : Row}
    (h : c.output.evalRow env = .ok row) (k : c.output.evalRow other = .ok row) {v : Var}
    (hv : v ∈ c.join.enumVars ∨ v ∈ c.params) : env.get? v = other.get? v := by
  obtain ⟨hinj, hlocal⟩ := Bool.and_eq_true_iff.mp safe
  obtain ⟨a, x, ha, hx, rfl⟩ := output_evalRow.mp h
  obtain ⟨a', x', ha', hx', heq⟩ := output_evalRow.mp k
  obtain ⟨rfl, rfl⟩ := List.append_inj heq (ha.length.trans ha'.length.symm)
  by_cases hp : v ∈ c.params
  · exact ha.get?_eq ha' hp
  · have hlocals : v ∈ c.localVars :=
      List.mem_filter.mpr ⟨hv.resolve_right hp, by simpa using hp⟩
    have hresult := List.all_eq_true.mp hlocal v hlocals
    have hmention : v ∈ Expr.mentionsAll c.result.components := by
      rw [Expr.mentionsAll_components]
      exact List.mem_eraseDups.mp (by simpa [Expr.vars] using hresult)
    refine Expr.get?_eq_of_evalAll_eq _ ?_ hx hx' v hmention
    rw [Expr.allInjective_components]
    exact hinj

theorem eq_of_output (safe : c.isDuplicateSafe = true) {vs : List Var} (nodup : vs.Nodup)
    (hvs : ∀ v ∈ vs, v ∈ c.join.enumVars ∨ v ∈ c.params) {b b' row : Row}
    (hlen : b.length = vs.length) (hlen' : b'.length = vs.length)
    (h : c.output.evalRow (vs.zip b) = .ok row) (k : c.output.evalRow (vs.zip b') = .ok row) :
    b = b' := by
  have hget : ∀ v ∈ vs, Env.get? (vs.zip b) v = Env.get? (vs.zip b') v :=
    fun v hv => get?_eq_of_output safe h k (hvs v hv)
  exact ((Env.Reads.congr hget b).mp (Env.reads_zip nodup hlen)).unique (Env.reads_zip nodup hlen')

theorem multiplicity_le_one (closed : ∀ v ∈ c.join.vars, v ∈ c.join.enumVars ∨ v ∈ c.params)
    (safe : c.isDuplicateSafe = true) (facts : Facts) (row : Row) :
    c.multiplicity facts row ≤ 1 := by
  refine Set.encard_le_one_iff.mpr ?_
  rintro b b' ⟨⟨hlen, _⟩, hout⟩ ⟨⟨hlen', _⟩, hout'⟩
  exact eq_of_output safe c.join.nodup_vars closed hlen hlen' hout hout'

end Comprehension

end ViewUpkeep
