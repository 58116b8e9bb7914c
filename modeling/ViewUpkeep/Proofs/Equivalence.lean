import ViewUpkeep.Proofs.Reflection

/-!
Kept rows and evaluation from scratch. In a session that is not poisoned, the rows kept for a query
are those that evaluation finds, in the same order: all of them, or, for a query that waits for
demand, those for each tuple of parameters that is demanded.
-/
namespace ViewUpkeep

theorem meaning_congr {alive alive' : CompiledQuery → Bool} {facts : Facts}
    {qs : List CompiledQuery}
    (h : ∀ q ∈ qs, alive q = alive' q) : meaning alive facts qs = meaning alive' facts qs := by
  induction qs with
  | nil => rfl
  | cons q qs ih =>
    obtain ⟨hq, hqs⟩ := List.forall_mem_cons.mp h
    simp only [meaning, hq, ih hqs]

theorem Compile.Built.askable {o : Compile.Options} {d : Declarations} {p : Program}
    (built : Compile.Built o d p) (sound : d.Sound) : ∀ q ∈ p.queries, Batch.Askable q := by
  intro q hq
  obtain ⟨_, _, _, decl, hdecl, _, hc⟩ := built.mem_compiled hq
  have lowered := Lowering.query_lowered (sound.queries decl hdecl) hc.spec
  exact ⟨hc.params, hc.params ▸ lowered.nodup, fun c hc => (lowered.inScope c hc).regular⟩

theorem Compile.Built.result_eq {o : Compile.Options} {d : Declarations} {p : Program}
    (built : Compile.Built o d p) {q : CompiledQuery} (hq : q ∈ p.queries)
    (hmode : q.mode ≠ .batch) :
    q.result = some q.name := by
  obtain ⟨_, _, _, _, _, _, hc⟩ := built.mem_compiled hq
  rcases hc.kept with unkept | ⟨plan, kept⟩
  · exact absurd unkept.mode hmode
  · exact kept.result

namespace Session

variable {o : Compile.Options} {d : Declarations} {p : Program} {base : String → Row → Nat}
  {s : Session} {q : CompiledQuery}

theorem mem_sortedRows (s : Session) (rel : String) (row : Row) :
    row ∈ s.sortedRows rel ↔ s.store.Has rel row := by
  unfold sortedRows
  cases h : s.store.get? rel with
  | none => simp [Store.Has, Store.contains, h]
  | some r => exact Row.mem_sort.trans (Store.has_iff h row).symm

theorem sortedRows_ascending (sound : s.store.Sound) (rel : String) :
    Row.Ascending (s.sortedRows rel) := by
  unfold sortedRows
  cases h : s.store.get? rel with
  | none => exact ⟨.nil, .nil⟩
  | some r => exact Row.sort_ascending (sound.get? h).nodup

structure Agrees (s : Session) : Prop where
  full : ∀ q ∈ s.program.queries, q.mode = .inc → ∃ result, q.result = some result ∧
    ∀ rows, s.program.evaluateAll s.store q.name = .ok rows → s.sortedRows result = rows
  demanded : ∀ q ∈ s.program.queries, q.mode = .dem →
    ∃ result set, q.result = some result ∧ q.demandSet = some set ∧
      ∀ params : Row, params.length = q.params.length →
        (s.store.contains set params = true →
          ∀ rows, s.program.evaluate s.store q.name params = .ok rows →
            Row.suffixes (s.sortedRows result) params = rows) ∧
        (s.store.contains set params = false →
          ∀ row ∈ s.sortedRows result, row.take params.length ≠ params)

theorem Orderly.agrees (order : s.Orderly d p base) (built : Compile.Built o d p) (sound : d.Sound)
    (alive : ∀ q ∈ p.queries, q.isAlive = true) : s.Agrees := by
  have hprogram := order.program
  have hmeaning : meaning (fun _ => true) s.store.Has p.queries.reverse =
      meaning CompiledQuery.isAlive s.store.Has p.queries.reverse :=
    meaning_congr fun q hq => (alive q (List.mem_reverse.mp hq)).symm
  have reflects := built.reflects sound (List.append_nil p.queries).symm
    fun q hq => built.stores sound (order.solved built sound) hq
  rw [order.sound.present_count] at reflects
  have hanswers : ∀ {question rows}, (Batch.run p s.store question []).1 = .ok rows →
      Batch.Answers (meaning CompiledQuery.isAlive s.store.Has p.queries.reverse)
        question rows := by
    intro question rows hrun
    rw [← hmeaning]
    exact Program.run_answers order.sound (built.askable sound) built.nodup_queries hrun
  rw [← hprogram] at reflects hanswers
  refine ⟨?_, ?_⟩
  · intro q hq hinc
    refine ⟨q.name, built.result_eq (hprogram ▸ hq) (by simp [hinc]), ?_⟩
    intro rows hrows
    obtain ⟨hascending, hmem⟩ := hanswers hrows
    refine (sortedRows_ascending order.sound q.name).ext hascending fun row => ?_
    rw [mem_sortedRows, hmem row]
    exact reflects.full q hq hinc row
  · intro q hq hdem
    have hq' : q ∈ p.queries := hprogram ▸ hq
    refine ⟨q.name, _, built.result_eq hq' (by simp [hdem]),
      built.demandSet_of_dem hq' hdem, fun params hlen => ⟨?_, ?_⟩⟩
    · intro hset rows hrows
      obtain ⟨hascending, hmem⟩ := hanswers hrows
      refine ((sortedRows_ascending order.sound q.name).suffixes params).ext hascending
        fun row => ?_
      rw [Row.mem_suffixes, mem_sortedRows, hmem row, reflects.demanded q hq hdem,
        List.take_left' hlen]
      exact and_iff_left hset
    · intro hset row hrow htake
      rw [mem_sortedRows, reflects.demanded q hq hdem, ← hlen, htake] at hrow
      have hthere : s.store.contains (Demand.setName q.name) params = true := hrow.2
      rw [hset] at hthere
      cases hthere

/-- Whatever was done, in a session that is not poisoned the kept rows are those that evaluation
from scratch gives, as far as there is demand for them. -/
theorem after_agrees {o : Compile.Options} {text : String} {p : Program}
    (compiles : Program.ofText? o text = some p) (strategies : p.KeptBy [.sub, .aug, .das])
    (reading : ∀ q ∈ p.queries, ∀ c, q.maintained = some c → c.join.rels ≠ [])
    (ops : List Op) (healthy : ((ofProgram p).after ops).poisoned = false) :
    ((ofProgram p).after ops).program = p ∧ ((ofProgram p).after ops).Agrees := by
  obtain ⟨d, sound, built⟩ := Program.built_of_text compiles
  have follows := built.follows sound (strategies.exact (by decide))
  rcases after_keeps built sound follows ops with hp | ⟨base, order⟩
  · rw [healthy] at hp
    cases hp
  · refine ⟨order.program, order.agrees built sound fun q hq => ?_⟩
    rw [CompiledQuery.isAlive, Option.all_eq_true]
    simpa using reading q hq

set_option maxRecDepth 10000 in
theorem after_agrees_sample : ∃ p,
    Program.ofText? ⟨.default, .silent⟩ (sampleText " with selfjoin = das") = some p ∧
    p.KeptBy [.sub, .aug, .das] ∧ (∀ q ∈ p.queries, ∀ c, q.maintained = some c → c.join.rels ≠ []) ∧
    ∃ s, s = (ofProgram p).after sampleOps ∧ s.poisoned = false ∧
      s.sortedRows "Q" = [[.int 1, .int 5]] ∧ s.program = p ∧ s.Agrees := by
  obtain ⟨p, hp, hkept, reading, healthy, hrows⟩ : ∃ p,
      Program.ofText? ⟨.default, .silent⟩ (sampleText " with selfjoin = das") = some p ∧
      p.KeptBy [.sub, .aug, .das] ∧
      (∀ q ∈ p.queries, ∀ c, q.maintained = some c → c.join.rels ≠ []) ∧
      ((ofProgram p).after sampleOps).poisoned = false ∧
      ((ofProgram p).after sampleOps).sortedRows "Q" = [[.int 1, .int 5]] := by
    decide +kernel
  exact ⟨p, hp, hkept, reading, _, rfl, healthy, hrows, after_agrees hp hkept reading _ healthy⟩

end Session

end ViewUpkeep
