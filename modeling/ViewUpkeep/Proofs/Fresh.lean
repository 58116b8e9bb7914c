import ViewUpkeep.Proofs.Faults
import ViewUpkeep.Proofs.Independence
import ViewUpkeep.Proofs.Meaning

/-!
Sessions before anything has happened. Nothing is kept for any query yet, as rows come only from
changes. For a query that cannot derive a row without rows that are stored this is right. It is not
for a query of constants: evaluation from scratch finds its rows at once.
-/
namespace ViewUpkeep

/-- A query that ranges over a stored relation, or over a query that does. -/
inductive Program.Grounded (p : Program) : CompiledQuery → Prop where
  | relation {q : CompiledQuery} {c : Clause} {rel : String} :
    c ∈ q.spec.join → c.rel? = some rel → rel ∉ p.queries.map (·.name) → p.Grounded q
  | query {q r : CompiledQuery} {c : Clause} :
    c ∈ q.spec.join → c.rel? = some r.name → r ∈ p.queries → p.Grounded r → p.Grounded q

theorem Program.Grounded.not_means {p : Program} {q : CompiledQuery} (grounded : p.Grounded q)
    (hq : q ∈ p.queries) (plain : ∀ q ∈ p.queries, ∀ c ∈ q.spec.join, c.Plain) {store : Store}
    (bare : ∀ rel row, ¬ store.Has rel row) {facts : Facts} (means : p.Means store facts)
    (row : Row) : ¬ facts q.name row := by
  induction grounded generalizing row with
  | @relation q c rel hc hrel hnot =>
    rw [means.derived q hq]
    rintro ⟨env, holds, _⟩
    obtain ⟨found, _, hfact⟩ := ((plain q hq c hc).holds_iff hrel facts env).mp (holds c hc)
    exact bare rel found ((means.stored rel hnot found).mp hfact)
  | @query q r c hc hrel hr _ ih =>
    rw [means.derived q hq]
    rintro ⟨env, holds, _⟩
    obtain ⟨found, _, hfact⟩ := ((plain q hq c hc).holds_iff hrel facts env).mp (holds c hc)
    exact ih hr found hfact

namespace Session

/-- In a fresh session no rows are kept for a query, so that they are those of evaluation from
scratch just if there are none. There are none for a query that is grounded. -/
theorem ofProgram_agrees_iff {o : Compile.Options} {text : String} {p : Program}
    (compiles : Program.ofText? o text = some p) {q : CompiledQuery} (hq : q ∈ p.queries)
    (inc : q.mode = .inc) :
    ∃ result, q.result = some result ∧ ((ofProgram p).store.get? result).isSome = true ∧
      (ofProgram p).sortedRows result = [] ∧
      ∀ rows, p.evaluateAll (ofProgram p).store q.name = .ok rows →
        ((ofProgram p).sortedRows result = rows ↔ rows = []) ∧
        (p.Grounded q → (ofProgram p).sortedRows result = rows) := by
  obtain ⟨d, declared, built⟩ := Program.built_of_text compiles
  have hnone := sortedRows_ofProgram built declared
  have hmode : q.mode ≠ .batch := by simp [inc]
  obtain ⟨hsound, hinfos, _⟩ := Store.declared (built.nodup_catalog declared) p.indices
  obtain ⟨_, _, _, _, _, _, hcompiled⟩ := built.mem_compiled hq
  have hlists := (hcompiled.lists_result hmode).mono (built.query_relations_subset declared hq)
  refine ⟨q.name, built.result_eq hq hmode, Store.get?_isSome hinfos hlists, hnone q.name,
    fun rows hrows => ⟨?_, fun grounded => ?_⟩⟩
  · rw [hnone]
    exact eq_comm
  · have bare : ∀ rel row, ¬ (ofProgram p).store.Has rel row := by
      intro rel row
      rw [← mem_sortedRows, hnone]
      exact List.not_mem_nil
    obtain ⟨_, hmem⟩ :=
      Program.run_answers hsound (built.askable declared) built.nodup_queries hrows
    rw [hnone]
    refine (List.eq_nil_iff_forall_not_mem.mpr fun row hrow => ?_).symm
    exact grounded.not_means hq (built.queries_plain declared) bare (built.means declared _) row
      ((hmem row).mp hrow)

set_option maxRecDepth 10000 in
theorem ofProgram_agrees_iff_sample : ∃ p,
    Program.ofText? ⟨.default, .silent⟩ (sampleText "") = some p ∧
    ∃ q ∈ p.queries, q.name = "Q" ∧ q.mode = .inc ∧ p.Grounded q ∧
      p.evaluateAll (ofProgram p).store q.name = .ok [] ∧
      ∃ result, q.result = some result ∧ (ofProgram p).sortedRows result = [] := by
  obtain ⟨p, hp, hbase, q, hq, hname, hinc, hall, c, hc, hrel⟩ :
      ∃ p, Program.ofText? ⟨.default, .silent⟩ (sampleText "") = some p ∧
        "R" ∉ p.queries.map (·.name) ∧ ∃ q ∈ p.queries, q.name = "Q" ∧ q.mode = .inc ∧
          p.evaluateAll (ofProgram p).store q.name = .ok [] ∧
          ∃ c ∈ q.spec.join, c.rel? = some "R" := by
    decide +kernel
  have grounded : p.Grounded q := .relation hc hrel hbase
  obtain ⟨result, hresult, _, _, hrows⟩ := ofProgram_agrees_iff hp hq hinc
  exact ⟨p, hp, q, hq, hname, hinc, grounded, hall, result, hresult, (hrows [] hall).2 grounded⟩

/-- A query of constants is not kept from the start. -/
theorem ofProgram_disagrees : ∃ p,
    Program.ofText? ⟨.default, .silent⟩ "query Q = \x7bx : x in \x7b1\x7d\x7d;" = some p ∧
    (∃ q ∈ p.queries, q.name = "Q" ∧ q.mode = .inc ∧ q.result = some "Q") ∧
    (ofProgram p).sortedRows "Q" = [] ∧
    p.evaluateAll (ofProgram p).store "Q" = .ok [[.int 1]] := by
  decide +kernel

end Session

end ViewUpkeep
