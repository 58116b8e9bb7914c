import ViewUpkeep.Proofs.Satisfaction

/-!
What a changed row does to a join. The bindings that hold with the row and not without it are those
in which the row stands at some occurrence of its relation. Each strategy divides them among the
occurrences: by the last one at which the row stands, by the first one, or by any.
-/
namespace ViewUpkeep

def Facts.insert (facts : Facts) (rel : String) (row : Row) : Facts :=
  fun r x => facts r x ∨ r = rel ∧ x = row

/-- The facts that a strategy reads: without the changed row if later occurrences are given it as an
extra, with it otherwise. -/
def SelfJoin.facts (strategy : SelfJoin) (small : Facts) (rel : String) (row : Row) : Facts :=
  if strategy = .aug then small else small.insert rel row

namespace Clause

variable {facts : Facts} {rel : String} {row : Row} {env : Env}

theorem holds_insert_of_ne {c : Clause} (h : c.rel? ≠ some rel) :
    c.Holds (facts.insert rel row) env ↔ c.Holds facts env := by
  refine holds_facts_congr ?_
  intro r hr x _
  have hne : r ≠ rel := fun he => h (he ▸ hr)
  simp [Facts.insert, hne]

theorem Plain.holds_insert {c : Clause} (plain : c.Plain) (h : c.rel? = some rel) :
    c.Holds (facts.insert rel row) env ↔ c.Holds facts env ∨ env.Reads c.lhs row := by
  rw [plain.holds_iff h, plain.holds_iff h]
  constructor
  · rintro ⟨x, hx, hf | ⟨_, rfl⟩⟩
    · exact .inl ⟨x, hx, hf⟩
    · exact .inr hx
  · rintro (⟨x, hx, hf⟩ | hx)
    · exact ⟨x, hx, .inl hf⟩
    · exact ⟨row, hx, .inr ⟨rfl, rfl⟩⟩

theorem Plain.not_reads {c : Clause} (plain : c.Plain) (h : c.rel? = some rel)
    (absent : ¬ facts rel row) (holds : c.Holds facts env) : ¬ env.Reads c.lhs row := by
  intro hr
  obtain ⟨x, hx, hf⟩ := (plain.holds_iff h facts env).mp holds
  rw [hx.unique hr] at hf
  exact absent hf

theorem Plain.holds_facts_iff {c : Clause} (plain : c.Plain) (absent : ¬ facts rel row)
    (strategy : SelfJoin) :
    c.Holds (strategy.facts facts rel row) env ↔ c.Holds (facts.insert rel row) env ∧
      (strategy = .aug → c.rel? = some rel → ¬ env.Reads c.lhs row) := by
  unfold SelfJoin.facts
  by_cases haug : strategy = .aug
  · rw [if_pos haug]
    by_cases hrel : c.rel? = some rel
    · rw [plain.holds_insert hrel]
      constructor
      · intro h
        exact ⟨.inl h, fun _ _ => plain.not_reads hrel absent h⟩
      · rintro ⟨h | h, hnot⟩
        · exact h
        · exact absurd h (hnot haug hrel)
    · simp [holds_insert_of_ne hrel, hrel]
  · simp [haug]

theorem Plain.holds_adjust_iff {c : Clause} (plain : c.Plain) (hrel : c.rel? = some rel)
    (hd : env.get? Var.delta = some (.tuple row)) (strategy : SelfJoin) :
    (Join.adjust strategy (.var Var.delta) c).Holds (strategy.facts facts rel row) env ↔
      c.Holds (facts.insert rel row) env ∧ (strategy = .sub → ¬ env.Reads c.lhs row) := by
  have heval := (Expr.eval_var env Var.delta (.tuple row)).mpr hd
  cases strategy with
  | sub =>
    refine and_congr_right fun hbig => ?_
    obtain ⟨x, hx, _⟩ := (plain.holds_iff hrel _ _).mp hbig
    constructor
    · rintro ⟨y, z, hy, hz, hne⟩ _ hr
      rw [heval] at hz
      cases hz
      exact hne (congrArg Value.tuple (hr.unique hy))
    · intro hnot
      refine ⟨x, .tuple row, hx, heval, ?_⟩
      rintro ⟨⟩
      exact hnot rfl hx
  | aug =>
    simp only [Join.adjust, Holds, SelfJoin.facts, heval, plain.holds_insert hrel]
    simp
  | das | assumeDisjoint | assumeDisjointVerify => simp [Join.adjust, SelfJoin.facts]

theorem holds_singletonize_iff (c : Clause) (hd : env.get? Var.delta = some (.tuple row)) :
    (c.singletonize (.var Var.delta)).Holds facts env ↔ env.Reads c.lhs row := by
  have heval := (Expr.eval_var env Var.delta (.tuple row)).mpr hd
  simp [singletonize, Holds, heval]

end Clause

namespace Join

def Hit (j : Join) (rel : String) (row : Row) (env : Env) (place : Nat) : Prop :=
  ∃ c, j[place]? = some c ∧ c.rel? = some rel ∧ env.Reads c.lhs row

/-- The place to which a strategy assigns a binding, if it chooses one. -/
def Assigned (j : Join) (rel : String) (row : Row) (env : Env) (strategy : SelfJoin) (place : Nat) :
    Prop :=
  (strategy = .sub → ∀ k, place < k → ¬ j.Hit rel row env k) ∧
    (strategy = .aug → ∀ k, k < place → ¬ j.Hit rel row env k)

variable {j : Join} {rel : String} {row : Row} {env : Env} {small : Facts}

theorem mem_occurrences {i : Nat} :
    i ∈ j.occurrences rel ↔ ∃ c, j[i]? = some c ∧ c.rel? = some rel := by
  simp [occurrences, List.mem_zipIdx_iff_getElem?]

theorem nodup_occurrences (j : Join) (rel : String) : (j.occurrences rel).Nodup := by
  have hn : (j.zipIdx.map Prod.snd).Nodup := by
    rw [List.zipIdx_map_snd]
    exact List.nodup_range'
  exact hn.sublist (List.filter_sublist.map Prod.snd)

theorem Hit.mem_occurrences {i : Nat} (h : j.Hit rel row env i) : i ∈ j.occurrences rel := by
  obtain ⟨c, hc, hr, _⟩ := h
  exact Join.mem_occurrences.mpr ⟨c, hc, hr⟩

/-- A binding holds only with the row if the row stands somewhere in it. -/
theorem gained_iff (plain : ∀ c ∈ j, c.Plain) (absent : ¬ small rel row) (env : Env) :
    (j.Holds (small.insert rel row) env ∧ ¬ j.Holds small env) ↔
      j.Holds (small.insert rel row) env ∧ ∃ i, j.Hit rel row env i := by
  refine and_congr_right fun hbig => ?_
  constructor
  · intro hsmall
    obtain ⟨c, hc, hnot⟩ : ∃ c ∈ j, ¬ c.Holds small env := by simpa [Holds] using hsmall
    obtain ⟨i, hi⟩ := List.mem_iff_getElem?.mp hc
    by_cases hrel : c.rel? = some rel
    · rcases ((plain c hc).holds_insert hrel).mp (hbig c hc) with h | h
      · exact absurd h hnot
      · exact ⟨i, c, hi, hrel, h⟩
    · exact absurd ((Clause.holds_insert_of_ne hrel).mp (hbig c hc)) hnot
  · rintro ⟨i, c, hi, hrel, hr⟩ hsmall
    have hc := List.mem_of_getElem? hi
    exact (plain c hc).not_reads hrel absent (hsmall c hc) hr

theorem exists_assigned (strategy : SelfJoin) (h : ∃ i, j.Hit rel row env i) :
    ∃ i, j.Hit rel row env i ∧ j.Assigned rel row env strategy i := by
  classical
  obtain ⟨i, hi⟩ := h
  have hbound : ∀ k, j.Hit rel row env k → k ≤ j.length := by
    rintro k ⟨c, hc, _⟩
    exact (List.getElem?_eq_some_iff.mp hc).1.le
  by_cases hsub : strategy = .sub
  · refine ⟨_, Nat.findGreatest_spec (hbound i hi) hi, ?_, by simp [hsub]⟩
    intro _ k hk hit
    exact Nat.findGreatest_is_greatest hk (hbound k hit) hit
  · exact ⟨Nat.find ⟨i, hi⟩, Nat.find_spec ⟨i, hi⟩, fun h => absurd h hsub,
      fun _ k hk => Nat.find_min ⟨i, hi⟩ hk⟩

theorem Assigned.unique {strategy : SelfJoin} (hs : strategy = .sub ∨ strategy = .aug) {i k : Nat}
    (hi : j.Hit rel row env i) (ai : j.Assigned rel row env strategy i)
    (hk : j.Hit rel row env k) (ak : j.Assigned rel row env strategy k) : i = k := by
  rcases hs with hs | hs
  · exact Nat.le_antisymm (not_lt.mp fun h => ak.1 hs i h hi) (not_lt.mp fun h => ai.1 hs k h hk)
  · exact Nat.le_antisymm (not_lt.mp fun h => ai.2 hs k h hk) (not_lt.mp fun h => ak.2 hs i h hi)

theorem holds_deltaAt {facts : Facts} {value : Expr} {strategy : SelfJoin} {i : Nat} :
    (j.deltaAt rel value strategy i).Holds facts env ↔ ∀ k c, j[k]? = some c →
      Clause.Holds facts env (if k = i then c.singletonize value
        else if i < k && c.rel? = some rel then adjust strategy value c else c) := by
  simp only [Holds, deltaAt, List.forall_mem_map, Prod.forall, List.mem_zipIdx_iff_getElem?]
  exact forall_comm

/-- The join of one occurrence holds of the bindings that the strategy assigns to it. -/
theorem deltaAt_holds_iff (plain : ∀ c ∈ j, c.Plain) (absent : ¬ small rel row)
    (hd : env.get? Var.delta = some (.tuple row)) (strategy : SelfJoin) {i : Nat}
    (hi : i ∈ j.occurrences rel) :
    (j.deltaAt rel (.var Var.delta) strategy i).Holds (strategy.facts small rel row) env ↔
      j.Holds (small.insert rel row) env ∧ j.Hit rel row env i ∧
        j.Assigned rel row env strategy i := by
  rw [holds_deltaAt]
  constructor
  · intro h
    obtain ⟨ci, hci, hri⟩ := mem_occurrences.mp hi
    have hhit : env.Reads ci.lhs row := by
      have hc := h i ci hci
      rw [if_pos rfl] at hc
      exact (ci.holds_singletonize_iff hd).mp hc
    refine ⟨?_, ⟨ci, hci, hri, hhit⟩, ?_, ?_⟩
    · intro c hc
      obtain ⟨k, hk⟩ := List.mem_iff_getElem?.mp hc
      have hck := h k c hk
      split at hck
      · rename_i hki
        have hcc : ci = c := by simpa [hki, hci] using hk
        rw [hcc] at hri hhit
        exact ((plain c hc).holds_insert hri).mpr (.inr hhit)
      · split at hck
        · rename_i hlater
          have hrel : c.rel? = some rel := by simpa using (Bool.and_eq_true_iff.mp hlater).2
          exact (((plain c hc).holds_adjust_iff hrel hd strategy).mp hck).1
        · exact (((plain c hc).holds_facts_iff absent strategy).mp hck).1
    · rintro hsub k hk ⟨c, hc, hrel, hr⟩
      have hck := h k c hc
      rw [if_neg hk.ne', if_pos (by simp [hk, hrel])] at hck
      exact (((plain c (List.mem_of_getElem? hc)).holds_adjust_iff hrel hd strategy).mp hck).2
        hsub hr
    · rintro haug k hk ⟨c, hc, hrel, hr⟩
      have hck := h k c hc
      rw [if_neg hk.ne, if_neg (by simp [hk.le])] at hck
      exact (((plain c (List.mem_of_getElem? hc)).holds_facts_iff absent strategy).mp hck).2 haug
        hrel hr
  · rintro ⟨hbig, ⟨ci, hci, hri, hhit⟩, hsub, haug⟩ k c hk
    have hc := List.mem_of_getElem? hk
    split
    · rename_i hki
      have hcc : ci = c := by simpa [hki, hci] using hk
      rw [hcc] at hhit
      exact (c.holds_singletonize_iff hd).mpr hhit
    · rename_i hki
      split
      · rename_i hlater
        obtain ⟨hlt, hrel⟩ : i < k ∧ c.rel? = some rel := by simpa using hlater
        refine ((plain c hc).holds_adjust_iff hrel hd strategy).mpr ⟨hbig c hc, ?_⟩
        exact fun hs hr => hsub hs k hlt ⟨c, hk, hrel, hr⟩
      · rename_i hlater
        refine ((plain c hc).holds_facts_iff absent strategy).mpr ⟨hbig c hc, ?_⟩
        intro hs hrel hr
        have hlt : k < i := by
          have : ¬ i < k := by simpa [hrel] using hlater
          omega
        exact haug hs k hlt ⟨c, hk, hrel, hr⟩

end Join

end ViewUpkeep
