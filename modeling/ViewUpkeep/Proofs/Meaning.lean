import ViewUpkeep.Proofs.Equivalence
import ViewUpkeep.Proofs.Termination

/-!
Evaluation from scratch answers with what the queries mean, and what they mean is told without
evaluating anything: the rows of a query are those that its comprehension derives over the stored
rows and the rows of the other queries. As queries read only queries before them, this leaves one
meaning. Answers that are remembered from other questions make no difference.
-/
namespace ViewUpkeep

namespace Batch

/-! ### Remembered answers -/

def Faithful (fresh : Question → Except ExecError (List Row)) (memo : Memo) : Prop :=
  ∀ e ∈ memo, fresh e.1 = .ok e.2

theorem Faithful.get {fresh : Question → Except ExecError (List Row)} {memo : Memo}
    (h : Faithful fresh memo) {question : Question} {rows : List Row}
    (hget : Memo.get? memo question = some rows) : fresh question = .ok rows := by
  obtain ⟨e, he, rfl⟩ := Option.map_eq_some_iff.mp hget
  have hq : e.1 = question := by simpa using List.find?_some he
  exact hq ▸ h e (List.mem_of_find?_eq_some he)

/-- A computation that comes to a given result whatever is remembered, errors included. -/
def Settles {α : Type} (fresh : Question → Except ExecError (List Row)) (x : Eval α)
    (r : Except ExecError α) : Prop :=
  ∀ memo, Faithful fresh memo → (x.run memo).1 = r ∧ Faithful fresh (x.run memo).2

def Steady {α : Type} (fresh : Question → Except ExecError (List Row)) (x : Eval α) : Prop :=
  ∃ r, Settles fresh x r

namespace Steady

variable {α β : Type} {fresh : Question → Except ExecError (List Row)} {x : Eval α}

theorem pure (a : α) : Steady fresh (pure a) := ⟨.ok a, fun _ h => ⟨rfl, h⟩⟩

theorem throw (e : ExecError) : Steady fresh (throw e : Eval α) := ⟨.error e, fun _ h => ⟨rfl, h⟩⟩

theorem lift (r : Except ExecError α) : Steady fresh (lift r) := by
  unfold Batch.lift
  cases r with
  | ok a => exact .pure a
  | error e => exact .throw e

theorem bind {f : α → Eval β} (h : Steady fresh x) (k : ∀ a, Steady fresh (f a)) :
    Steady fresh (x >>= f) := by
  obtain ⟨r, hr⟩ := h
  cases r with
  | error e =>
    refine ⟨.error e, fun memo hm => ?_⟩
    obtain ⟨hx, hmemo⟩ := hr memo hm
    rw [run_bind, show x.run memo = (.error e, (x.run memo).2) from Prod.ext hx rfl]
    exact ⟨rfl, hmemo⟩
  | ok a =>
    obtain ⟨r, hf⟩ := k a
    refine ⟨r, fun memo hm => ?_⟩
    obtain ⟨hx, hmemo⟩ := hr memo hm
    rw [run_bind, show x.run memo = (.ok a, (x.run memo).2) from Prod.ext hx rfl]
    exact hf _ hmemo

theorem mapM {f : α → Eval β} (items : List α) (h : ∀ a, Steady fresh (f a)) :
    Steady fresh (items.mapM f) := by
  induction items with
  | nil => exact .pure []
  | cons a items ih =>
    rw [List.mapM_cons]
    exact (h a).bind fun b => ih.bind fun bs => .pure (b :: bs)

end Steady

section Reuse

variable {fresh : Question → Except ExecError (List Row)} {src : Source}

theorem Settles.remember {question : Question} {find : Eval (List Row)}
    (h : Settles fresh find (fresh question)) :
    Settles fresh (remember question find) (fresh question) := by
  intro memo hm
  unfold Batch.remember
  rw [run_bind]
  have hget : (get : Eval Memo).run memo = (.ok memo, memo) := rfl
  rw [hget]
  dsimp only
  cases hq : Memo.get? memo question with
  | some rows => exact ⟨(hm.get hq).symm, hm⟩
  | none =>
    dsimp only
    obtain ⟨hfind, hmemo⟩ := h memo hm
    rw [run_bind]
    cases hx : find.run memo with
    | mk r memo' =>
      rw [hx] at hfind hmemo
      dsimp only at hfind hmemo
      cases r with
      | error e => exact ⟨hfind, hmemo⟩
      | ok rows => exact ⟨hfind, List.forall_mem_cons.mpr ⟨hfind.symm, hmemo⟩⟩

theorem remember_nil (question : Question) (find : Eval (List Row)) :
    ((remember question find).run []).1 = (find.run []).1 := by
  unfold remember
  rw [run_bind]
  have hget : (get : Eval Memo).run [] = (.ok [], []) := rfl
  rw [hget]
  dsimp only [Memo.get?, List.find?_nil, Option.map_none]
  rw [run_bind]
  cases find.run [] with
  | mk r memo => cases r <;> rfl

theorem offers_steady (h : ∀ question, Steady fresh (src.ask question)) (s : Plan.Step)
    (env : Env) : Steady fresh (offers src s env) := by
  unfold offers
  cases s.clause with
  | member lhs rel | mapMember lhs rel n =>
    dsimp only
    split
    · exact h _
    · exact .lift _
  | demand inner query params =>
    exact (Steady.lift _).bind fun args => (h _).bind fun rows => .pure _
  | singleton | cond => exact .lift _
  | delta | without | withExtra => exact .throw _

theorem search_steady (h : ∀ question, Steady fresh (src.ask question)) (output : Expr)
    (steps : List Plan.Step) (env : Env) : Steady fresh (search src output steps env) := by
  induction steps generalizing env with
  | nil => exact (Steady.lift _).bind fun row => .pure [row]
  | cons s rest ih =>
    refine (offers_steady h s env).bind fun rows => ?_
    refine (Steady.mapM rows fun row => ?_).bind fun found => .pure found.flatten
    cases env.extend? s.clause.lhs row with
    | some env' => exact ih env'
    | none => exact .pure []

theorem answer_steady (h : ∀ question, Steady fresh (src.ask question)) (q : CompiledQuery)
    (args : Option Row) : Steady fresh (answer src q args) := by
  have hrows : ∀ j bound env output, Steady fresh (rowsOf src j bound env output) := by
    intro j bound env output
    unfold rowsOf
    split
    · exact .throw _
    · exact (search_steady h output _ env).bind fun rows => .pure _
  cases args with
  | none => exact hrows ..
  | some args =>
    simp only [answer]
    split
    · exact hrows ..
    · exact .throw _

theorem ask_append (store : Store) {later qs : List CompiledQuery} {question : Question}
    (h : question.1 ∉ later.map (·.name)) :
    ask store (later ++ qs) question = ask store qs question := by
  induction later with
  | nil => rfl
  | cons q later ih =>
    rw [List.map_cons, List.mem_cons, not_or] at h
    rw [List.cons_append, ask, if_neg (Ne.symm h.1), ih h.2]

/-- From the first query to the last: what a query answers does not depend on what is remembered,
since the queries before it answer so. -/
theorem ask_steady (store : Store) {later qs : List CompiledQuery}
    (nodup : ((later ++ qs).map (·.name)).Nodup) (question : Question) :
    Steady (fun question => ((ask store (later ++ qs) question).run []).1)
      (ask store qs question) := by
  induction qs generalizing later question with
  | nil => exact .throw _
  | cons q earlier ih =>
    have hsplit : later ++ q :: earlier = (later ++ [q]) ++ earlier := by simp
    have hask := fun question => hsplit ▸ ih (hsplit ▸ nodup) question
    by_cases hname : q.name = question.1
    · have hnot : question.1 ∉ later.map (·.name) := by
        rw [List.map_append, List.map_cons, List.nodup_middle, List.nodup_cons] at nodup
        exact hname ▸ fun h => nodup.1 (List.mem_append_left _ h)
      have hself : ask store (later ++ q :: earlier) question = ask store (q :: earlier) question :=
        ask_append store hnot
      obtain ⟨r, hr⟩ : Steady
          (fun question => ((ask store (later ++ q :: earlier) question).run []).1)
          (answer ⟨store, earlier.map (·.name), ask store earlier⟩ q question.2) :=
        answer_steady hask q question.2
      have hfresh : ((ask store (later ++ q :: earlier) question).run []).1 = r := by
        rw [hself, ask, if_pos hname, remember_nil]
        exact (hr [] (by simp [Faithful])).1
      refine ⟨r, ?_⟩
      rw [ask, if_pos hname, ← hfresh]
      exact Settles.remember (hfresh ▸ hr)
    · rw [ask, if_neg hname]
      exact hask question

def memoAfter (p : Program) (store : Store) (asked : List Question) : Memo :=
  asked.foldl (fun memo question => (run p store question memo).2) []

theorem run_memoAfter {p : Program} (nodup : (p.queries.map (·.name)).Nodup) (store : Store)
    (asked : List Question) (question : Question) :
    (run p store question (memoAfter p store asked)).1 = (run p store question []).1 := by
  have hnodup : ((([] : List CompiledQuery) ++ p.queries.reverse).map (·.name)).Nodup := by
    simpa using nodup
  have hsteady : ∀ question, Steady (fun question => (run p store question []).1)
      (ask store p.queries.reverse question) := ask_steady store hnodup
  have hfaithful : ∀ memo, Faithful (fun question => (run p store question []).1) memo →
      Faithful (fun question => (run p store question []).1)
        (asked.foldl (fun memo question => (run p store question memo).2) memo) := by
    induction asked with
    | nil => exact fun memo h => h
    | cons first asked ih =>
      intro memo h
      obtain ⟨r, hr⟩ := hsteady first
      exact ih _ (hr memo h).2
  obtain ⟨r, hr⟩ := hsteady question
  have hnil : Faithful (fun question => (run p store question []).1) [] := by simp [Faithful]
  exact (hr _ (hfaithful [] hnil)).1.trans (hr [] hnil).1.symm

end Reuse

end Batch

/-! ### What the queries of a program mean -/

/-- Rows for all relations and queries of a program: what is stored, and what each query derives
from all of them. -/
structure Program.Means (p : Program) (store : Store) (facts : Facts) : Prop where
  stored : ∀ rel, rel ∉ p.queries.map (·.name) → ∀ row, facts rel row ↔ store.Has rel row
  derived : ∀ q ∈ p.queries, ∀ row, facts q.name row ↔ q.spec.Yields facts row

theorem meaning_append_of_notMem {alive : CompiledQuery → Bool} {facts : Facts}
    {later qs : List CompiledQuery} {rel : String} (h : rel ∉ later.map (·.name)) (row : Row) :
    meaning alive facts (later ++ qs) rel row ↔ meaning alive facts qs rel row := by
  induction later with
  | nil => rfl
  | cons q later ih =>
    rw [List.map_cons, List.mem_cons, not_or] at h
    rw [List.cons_append, meaning_of_ne h.1, ih h.2]

namespace Compile.Built

variable {o : Options} {d : Declarations} {p : Program} {q : CompiledQuery}
  {earlier later : List CompiledQuery} {store : Store} {facts facts' : Facts}

theorem yields_same (built : Built o d p) (sound : d.Sound) (h : p.queries = earlier ++ q :: later)
    (same : ∀ rel, rel ∈ d.relations.map (·.name) ∨ rel ∈ earlier.map (·.name) →
      ∀ row, facts rel row ↔ facts' rel row) (row : Row) :
    q.spec.Yields facts row ↔ q.spec.Yields facts' row := by
  obtain ⟨decl, hdecl, _, hcompiled, _⟩ := built.compiled h
  have hscoped := (Lowering.query_lowered (sound.queries decl hdecl) hcompiled.spec).inScope
  refine Comprehension.yields_congr (fun env => ?_) row
  refine forall₂_congr fun c hc => Clause.holds_facts_congr fun rel hrel row _ => ?_
  exact same rel ((hscoped c hc).rel_mem hrel) row

theorem base_notMem_queries (built : Built o d p) (sound : d.Sound) {rel : String}
    (hrel : rel ∈ d.relations.map (·.name)) : rel ∉ p.queries.map (·.name) := by
  intro hm
  obtain ⟨q, hq, rfl⟩ := List.mem_map.mp hm
  exact (built.query_name sound hq).2 hrel

theorem reverse_queries (built : Built o d p) (h : p.queries = earlier ++ q :: later) :
    p.queries.reverse = later.reverse ++ q :: earlier.reverse ∧
      q.name ∉ later.reverse.map (·.name) := by
  have hnodup := built.nodup_queries
  rw [h, List.map_append, List.map_cons] at hnodup
  have hlater := (List.nodup_cons.mp (List.nodup_append.mp hnodup).2.1).1
  exact ⟨by simp [h], by simpa using hlater⟩

theorem means (built : Built o d p) (sound : d.Sound) (store : Store) :
    p.Means store (meaning (fun _ => true) store.Has p.queries.reverse) := by
  refine ⟨fun rel hrel row => meaning_of_notMem (by simpa using hrel) row, fun q hq row => ?_⟩
  obtain ⟨earlier, later, h⟩ := List.append_of_mem hq
  obtain ⟨hreverse, hlater⟩ := built.reverse_queries h
  have hnodup := built.nodup_queries
  rw [h, List.map_append, List.map_cons] at hnodup
  rw [hreverse, meaning_append_of_notMem hlater, meaning_self]
  refine (and_iff_right rfl).trans (built.yields_same sound h (fun rel hrel row => ?_) row)
  have hrest : rel ∉ (later.reverse ++ [q]).map (·.name) := by
    intro hm
    have hm : rel ∈ q.name :: later.map (·.name) := by simpa [or_comm] using hm
    rcases hrel with hrel | hrel
    · refine built.base_notMem_queries sound hrel ?_
      rw [h, List.map_append, List.map_cons]
      exact List.mem_append_right _ hm
    · exact (List.nodup_append.mp hnodup).2.2 rel hrel rel hm rfl
  rw [← List.singleton_append, ← List.append_assoc]
  exact (meaning_append_of_notMem hrest row).symm

theorem means_unique (built : Built o d p) (sound : d.Sound) (means : p.Means store facts)
    (means' : p.Means store facts') : facts = facts' := by
  have hbase : ∀ rel, rel ∉ p.queries.map (·.name) → ∀ row, facts rel row ↔ facts' rel row :=
    fun rel hrel row => (means.stored rel hrel row).trans (means'.stored rel hrel row).symm
  have hqueries : ∀ earlier later, p.queries = earlier ++ later →
      ∀ rel ∈ earlier.map (·.name), ∀ row, facts rel row ↔ facts' rel row := by
    intro earlier
    induction earlier using List.reverseRecOn with
    | nil => simp
    | append_singleton earlier q ih =>
      intro later h rel hrel row
      have h' : p.queries = earlier ++ q :: later := by simpa using h
      rw [List.map_append, List.mem_append, List.map_singleton, List.mem_singleton] at hrel
      rcases hrel with hrel | rfl
      · exact ih _ h' rel hrel row
      · have hq : q ∈ p.queries := by simp [h']
        rw [means.derived q hq, means'.derived q hq]
        refine built.yields_same sound h' (fun rel hrel row => ?_) row
        rcases hrel with hrel | hrel
        · exact hbase rel (built.base_notMem_queries sound hrel) row
        · exact ih _ h' rel hrel row
  funext rel row
  refine propext ?_
  by_cases hrel : rel ∈ p.queries.map (·.name)
  · exact hqueries p.queries [] (List.append_nil _).symm rel hrel row
  · exact hbase rel hrel row

end Compile.Built

/-! ### Answers -/

structure Program.AnswersBy (p : Program) (store : Store) (facts : Facts) : Prop where
  /-- For arguments: the results of all environments that satisfy the clauses and have the
  arguments as parameters. -/
  applied : ∀ q ∈ p.queries, ∀ args rows, p.evaluate store q.name args = .ok rows →
    Row.Ascending rows ∧ ∀ row, row ∈ rows ↔ ∃ env : Env, env.Reads q.spec.params args ∧
      q.spec.join.Holds facts env ∧ Expr.evalAll env q.spec.result.components = .ok row
  /-- In full: the same for all parameters, which stand in front. -/
  full : ∀ q ∈ p.queries, ∀ rows, p.evaluateAll store q.name = .ok rows →
    Row.Ascending rows ∧ ∀ row, row ∈ rows ↔ ∃ (env : Env) (args result : Row),
      env.Reads q.spec.params args ∧ q.spec.join.Holds facts env ∧
      Expr.evalAll env q.spec.result.components = .ok result ∧ row = args ++ result
  parts : ∀ query args rows all, p.evaluate store query args = .ok rows →
    p.evaluateAll store query = .ok all → rows = Row.suffixes all args
  reused : ∀ asked question, (Batch.run p store question (Batch.memoAfter p store asked)).1 =
    (Batch.run p store question []).1

theorem Compile.Built.evaluate_length {o : Compile.Options} {d : Declarations} {p : Program}
    (built : Compile.Built o d p) {q : CompiledQuery} (hq : q ∈ p.queries) {store : Store}
    {args : Row} {rows : List Row} (h : p.evaluate store q.name args = .ok rows) :
    args.length = q.spec.params.length := by
  obtain ⟨earlier, later, hsplit, _, _, _, hc⟩ := built.mem_compiled hq
  obtain ⟨hreverse, hlater⟩ := built.reverse_queries hsplit
  unfold Program.evaluate Batch.run at h
  rw [hreverse, Batch.ask_append store hlater, Batch.ask, if_pos rfl, Batch.remember_nil] at h
  simp only [Batch.answer] at h
  split at h
  · rename_i hlen
    rw [hlen, hc.params]
  · cases h

theorem Compile.Built.answersBy {o : Compile.Options} {d : Declarations} {p : Program}
    (built : Compile.Built o d p) (sound : d.Sound) {store : Store} (hstore : store.Sound) :
    p.AnswersBy store (meaning (fun _ => true) store.Has p.queries.reverse) := by
  have hanswers : ∀ {question rows}, (Batch.run p store question []).1 = .ok rows →
      Batch.Answers (meaning (fun _ => true) store.Has p.queries.reverse) question rows :=
    fun h => Program.run_answers hstore (built.askable sound) built.nodup_queries h
  have hderived := (built.means sound store).derived
  refine ⟨?_, ?_, ?_, fun asked question => Batch.run_memoAfter built.nodup_queries ..⟩
  · intro q hq args rows h
    obtain ⟨hascending, hmem⟩ := hanswers h
    refine ⟨hascending, fun row => ?_⟩
    have hlen := built.evaluate_length hq h
    rw [hmem row]
    dsimp only [Option.getD_some]
    rw [hderived q hq]
    refine exists_congr fun env => ?_
    rw [Comprehension.output_evalRow]
    constructor
    · rintro ⟨hj, a, b, ha, hb, heq⟩
      obtain ⟨rfl, rfl⟩ := List.append_inj heq (hlen.trans ha.length.symm)
      exact ⟨ha, hj, hb⟩
    · rintro ⟨ha, hj, hb⟩
      exact ⟨hj, args, row, ha, hb, rfl⟩
  · intro q hq rows h
    obtain ⟨hascending, hmem⟩ := hanswers h
    refine ⟨hascending, fun row => ?_⟩
    rw [hmem row]
    dsimp only [Option.getD_none, List.nil_append]
    rw [hderived q hq]
    refine exists_congr fun env => ?_
    rw [Comprehension.output_evalRow]
    constructor
    · rintro ⟨hj, a, b, ha, hb, heq⟩
      exact ⟨a, b, ha, hj, hb, heq⟩
    · rintro ⟨a, b, ha, hj, hb, heq⟩
      exact ⟨hj, a, b, ha, hb, heq⟩
  · intro query args rows all hrows hall
    obtain ⟨hascending, hmem⟩ := hanswers hrows
    obtain ⟨hascending', hmem'⟩ := hanswers hall
    refine hascending.ext (hascending'.suffixes args) fun row => ?_
    rw [Row.mem_suffixes, hmem row, hmem' (args ++ row)]
    rfl

/-- The relations and queries of a compiled program have one meaning over a store, and evaluation
answers by it. -/
theorem Program.evaluation_by_meaning {o : Compile.Options} {text : String} {p : Program}
    (compiles : Program.ofText? o text = some p) {store : Store} (sound : store.Sound) :
    (∃! facts, p.Means store facts) ∧ ∀ facts, p.Means store facts → p.AnswersBy store facts := by
  obtain ⟨d, declared, built⟩ := Program.built_of_text compiles
  have means := built.means declared store
  refine ⟨⟨_, means, fun facts h => built.means_unique declared h means⟩, fun facts h => ?_⟩
  rw [built.means_unique declared h means]
  exact built.answersBy declared sound

set_option maxRecDepth 10000 in
theorem Program.evaluation_by_meaning_sample : ∃ p,
    Program.ofText? ⟨.default, .silent⟩ (sampleText "") = some p ∧
    ∃ store, store = ((Session.ofProgram p).after Session.sampleOps).store ∧ store.Sound ∧
      p.evaluate store "S" [.int 2] = .ok [[.int 5]] ∧
      p.evaluateAll store "Q" = .ok [[.int 1, .int 5]] ∧
      (∃! facts, p.Means store facts) ∧
      ∀ facts, p.Means store facts → p.AnswersBy store facts := by
  obtain ⟨p, hp, healthy, hsome, hall⟩ : ∃ p,
      Program.ofText? ⟨.default, .silent⟩ (sampleText "") = some p ∧
      ((Session.ofProgram p).after Session.sampleOps).poisoned = false ∧
      p.evaluate ((Session.ofProgram p).after Session.sampleOps).store "S" [.int 2] =
        .ok [[.int 5]] ∧
      p.evaluateAll ((Session.ofProgram p).after Session.sampleOps).store "Q" =
        .ok [[.int 1, .int 5]] := by
    decide +kernel
  obtain ⟨d, declared, built⟩ := Program.built_of_text hp
  have nodup := built.nodup_catalog declared
  rcases Session.after_formed nodup Session.sampleOps with hpoisoned | formed
  · rw [healthy] at hpoisoned
    cases hpoisoned
  · exact ⟨p, hp, _, rfl, formed.sound, hsome, hall,
      Program.evaluation_by_meaning hp formed.sound⟩

end ViewUpkeep
