import ViewUpkeep.Proofs.History

/-!
What the counts of a session mean. In a session that is not poisoned, a tag, a filter or a result
stores each row once for each witness of its comprehension, and a demand set stores parameters once
for each demand of the user and each witness of an entry.
-/
namespace ViewUpkeep

def present (count : String → Row → Nat) : Facts := fun rel row => 0 < count rel row

theorem Store.Sound.present_count {s : Store} (sound : s.Sound) : present s.count = s.Has := by
  funext rel row
  exact propext (sound.count_pos_iff rel row)

/-- How often a row is kept. What ranges over no relation is never brought up to date. -/
noncomputable def Comprehension.keeps (c : Comprehension) (facts : Facts) (row : Row) : ℕ∞ :=
  if c.join.rels = [] then 0 else c.multiplicity facts row

/-- Counts that solve the equations of a program for given demands of the user: tags, filters and
results are as their comprehensions say, and a demand set has what the user and the entries
ask for. -/
structure Program.Solved (p : Program) (asked count : String → Row → Nat) : Prop where
  supports : ∀ q ∈ p.queries, ∀ t ∈ q.supports, t.isEntry = false → ∀ row,
    (count t.target row : ℕ∞) = t.spec.keeps (present count) row
  results : ∀ q ∈ p.queries, ∀ c, q.maintained = some c → ∀ row,
    (count q.name row : ℕ∞) = c.keeps (present count) row
  sets : ∀ q ∈ p.queries, ∀ u, q.demandSet = some u → ∀ row, (count u row : ℕ∞) =
    asked q.name row + ((p.entries u).map fun e => e.spec.multiplicity (present count) row).sum

namespace Session

variable {o : Compile.Options} {d : Declarations} {p : Program} {base : String → Row → Nat}
  {s : Session} {q : CompiledQuery}

theorem Orderly.count_eq (order : s.Orderly d p base) (rel : String) (row : Row) :
    (s.store.count rel row : ℕ∞) = p.need s.store.Has (s.outside d base) rel row := by
  have hsum := order.balanced.sums rel row
  rw [order.program] at hsum
  simpa using hsum

theorem need_own (built : Compile.Built o d p) (sound : d.Sound) (hprogram : s.program = p)
    (hq : q ∈ p.queries) {v : View} (hv : v ∈ q.ownViews) (facts : Facts) (row : Row) :
    p.need facts (s.outside d base) v.target row = v.spec.keeps facts row := by
  obtain ⟨hbase, hset⟩ := built.own_target sound hq hv
  have hfind : p.queries.find? (·.demandSet = some v.target) = none := by
    refine List.find?_eq_none.mpr fun r hr hu => hset ?_
    exact List.mem_flatMap.mpr ⟨r, hr, by simp [of_decide_eq_true hu]⟩
  have hout : s.outside d base v.target row = 0 := by
    rw [outside, if_neg hbase, hprogram, hfind]
    rfl
  rw [Program.need, hout, built.own_writers sound hq hv, View.isLive, Comprehension.keeps]
  by_cases hrels : v.spec.join.rels = [] <;> simp [hrels]

theorem Orderly.count_own (order : s.Orderly d p base) (built : Compile.Built o d p)
    (sound : d.Sound) (hq : q ∈ p.queries) {v : View} (hv : v ∈ q.ownViews) (row : Row) :
    (s.store.count v.target row : ℕ∞) = v.spec.keeps s.store.Has row := by
  rw [order.count_eq, need_own built sound order.program hq hv]

noncomputable def wanted (s : Session) (q : CompiledQuery) (set : String) (params : Row) : ℕ∞ :=
  s.demandCount q.name params +
    ((s.program.entries set).map fun e => e.spec.multiplicity s.store.Has params).sum

theorem need_set (built : Compile.Built o d p) (sound : d.Sound) (hprogram : s.program = p)
    (hq : q ∈ p.queries) {u : String} (hu : q.demandSet = some u) (params : Row) :
    p.need s.store.Has (s.outside d base) u params = s.wanted q u params := by
  have hmem : u ∈ p.queries.flatMap (·.demandSet.toList) :=
    List.mem_flatMap.mpr ⟨q, hq, by simp [hu]⟩
  have hout : s.outside d base u params = s.demandCount q.name params := by
    rw [outside, if_neg (built.demandSet_not_base sound hq hu), hprogram,
      built.find_demandSet hq hu]
    rfl
  rw [Program.need, hout, built.set_writers sound hmem, wanted, hprogram]

theorem Orderly.count_set (order : s.Orderly d p base) (built : Compile.Built o d p)
    (sound : d.Sound) (hq : q ∈ p.queries) {u : String} (hu : q.demandSet = some u) (params : Row) :
    (s.store.count u params : ℕ∞) = s.wanted q u params := by
  rw [order.count_eq, need_set built sound order.program hq hu]

theorem Orderly.solved (order : s.Orderly d p base) (built : Compile.Built o d p)
    (sound : d.Sound) :
    p.Solved s.demandCount s.store.count := by
  refine ⟨?_, ?_, ?_⟩
  · intro q hq t ht hentry row
    rw [order.sound.present_count]
    exact order.count_own built sound hq (CompiledQuery.support_mem_ownViews ht hentry) row
  · intro q hq c hc row
    rw [order.sound.present_count]
    exact order.count_own built sound hq (CompiledQuery.maintained_mem_ownViews hc) row
  · intro q hq u hu row
    rw [order.sound.present_count, order.count_set built sound hq hu, wanted, order.program]

structure Counted (s : Session) : Prop where
  /-- Tags and filters. -/
  supports : ∀ q ∈ s.program.queries, ∀ t ∈ q.supports, t.isEntry = false → t.spec.join.rels ≠ [] →
    ∀ row, (s.store.count t.target row : ℕ∞) = t.spec.multiplicity s.store.Has row
  results : ∀ q ∈ s.program.queries, ∀ c, q.maintained = some c → c.join.rels ≠ [] →
    ∃ result, q.result = some result ∧
      ∀ row, (s.store.count result row : ℕ∞) = c.multiplicity s.store.Has row
  sets : ∀ q ∈ s.program.queries, ∀ u, q.demandSet = some u →
    ∀ params, (s.store.count u params : ℕ∞) = s.wanted q u params
  /-- A demand that was recorded can be taken back. -/
  release : ∀ q ∈ s.program.queries, ∀ u, q.demandSet = some u →
    ∀ params, 0 < s.demandCount q.name params →
      0 < s.store.count u params ∧ ∀ b, (s.undemand q.name params).2 ≠ .error (.breach b)
  demanded : ∀ q ∈ s.program.queries, ∀ u, q.demandSet = some u →
    ∀ params : Row, q.params.length = params.length →
      ∃ answer, s.isDemanded q.name params = .ok answer ∧ (answer = true ↔ 0 < s.wanted q u params)

theorem compiled_eq (built : Compile.Built o d p) (hprogram : s.program = p) (hq : q ∈ p.queries) :
    s.compiled q.name = .ok q := by
  have hfind : p.queries.find? (·.name = q.name) = some q :=
    (find_eq_some_iff_of_nodup_map built.nodup_queries).mpr ⟨hq, rfl⟩
  unfold compiled Program.query?
  rw [hprogram, hfind]

theorem isDemanded_eq (built : Compile.Built o d p) (hprogram : s.program = p) (hq : q ∈ p.queries)
    {u : String} (hu : q.demandSet = some u) {params : Row}
    (hlen : q.params.length = params.length) :
    s.isDemanded q.name params = .ok (s.store.contains u params) := by
  unfold isDemanded demandTarget checkArity
  rw [compiled_eq built hprogram hq]
  simp only [bind, Except.bind, hu, if_pos hlen]
  rfl

theorem Orderly.counted (order : s.Orderly d p base) (built : Compile.Built o d p) (sound : d.Sound)
    (follows : p.Follows o.estimate) : s.Counted := by
  have hprogram := order.program
  have solved := order.solved built sound
  have hset : ∀ q ∈ s.program.queries, ∀ u, q.demandSet = some u → ∀ params,
      (s.store.count u params : ℕ∞) = s.wanted q u params :=
    fun q hq u hu => order.count_set built sound (hprogram ▸ hq) hu
  have hkeeps : ∀ c : Comprehension, c.join.rels ≠ [] → ∀ row,
      c.keeps (present s.store.count) row = c.multiplicity s.store.Has row := by
    intro c hrels row
    rw [order.sound.present_count, Comprehension.keeps, if_neg hrels]
  refine ⟨?_, ?_, hset, ?_, ?_⟩
  · intro q hq t ht hentry hrels row
    rw [solved.supports q (hprogram ▸ hq) t ht hentry, hkeeps t.spec hrels]
  · intro q hq c hc hrels
    have hq : q ∈ p.queries := hprogram ▸ hq
    refine ⟨q.name, ?_, fun row => ?_⟩
    · obtain ⟨_, _, _, _, _, _, compiled⟩ := built.mem_compiled hq
      rcases compiled.kept with unkept | ⟨plan, kept⟩
      · rw [unkept.maintained] at hc
        cases hc
      · exact kept.result
    · rw [solved.results q hq c hc, hkeeps c hrels]
  · intro q hq u hu params hpos
    refine ⟨?_, (order.undemand_keeps built sound follows q.name params).safe⟩
    have hcount := hset q hq u hu params
    have hle : (s.demandCount q.name params : ℕ∞) ≤ s.store.count u params :=
      hcount ▸ le_self_add
    exact hpos.trans_le (by exact_mod_cast hle)
  · intro q hq u hu params hlen
    refine ⟨_, isDemanded_eq built hprogram (hprogram ▸ hq) hu hlen, ?_⟩
    rw [← hset q hq u hu params]
    have hhas : s.store.contains u params = true ↔ 0 < s.store.count u params :=
      (order.sound.count_pos_iff u params).symm
    rw [hhas]
    exact_mod_cast Iff.rfl

/-- Whatever was done, in a session that is not poisoned every stored count is a number of
witnesses. -/
theorem after_counted {o : Compile.Options} {text : String} {p : Program}
    (compiles : Program.ofText? o text = some p) (strategies : p.KeptBy [.sub, .aug, .das])
    (ops : List Op) (healthy : ((ofProgram p).after ops).poisoned = false) :
    ((ofProgram p).after ops).program = p ∧ ((ofProgram p).after ops).Counted := by
  obtain ⟨d, sound, built⟩ := Program.built_of_text compiles
  have follows := built.follows sound (strategies.exact (by decide))
  rcases after_keeps built sound follows ops with hp | ⟨base, order⟩
  · rw [healthy] at hp
    cases hp
  · exact ⟨order.program, order.counted built sound follows⟩

set_option maxRecDepth 10000 in
theorem after_counted_sample : ∃ p,
    Program.ofText? ⟨.default, .silent⟩ (sampleText " with selfjoin = das") = some p ∧
    p.KeptBy [.sub, .aug, .das] ∧ ∃ s, s = (ofProgram p).after sampleOps ∧
    s.poisoned = false ∧ s.store.count "S.U" [.int 2] = 3 ∧ s.program = p ∧ s.Counted := by
  obtain ⟨p, hp, hkept, healthy, hcount⟩ : ∃ p,
      Program.ofText? ⟨.default, .silent⟩ (sampleText " with selfjoin = das") = some p ∧
      p.KeptBy [.sub, .aug, .das] ∧ ((ofProgram p).after sampleOps).poisoned = false ∧
      ((ofProgram p).after sampleOps).store.count "S.U" [.int 2] = 3 := by
    decide +kernel
  exact ⟨p, hp, hkept, _, rfl, healthy, hcount, after_counted hp hkept _ healthy⟩

end Session

end ViewUpkeep
