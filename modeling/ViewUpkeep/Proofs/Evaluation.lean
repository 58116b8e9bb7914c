import ViewUpkeep.Batch
import ViewUpkeep.Proofs.Handler
import ViewUpkeep.Proofs.Order

/-!
Evaluation from scratch. What a query means is told without plans, lookups or remembered answers:
a row is derived if some environment satisfies all clauses, over the stored relations and over what
the queries before it mean. Whenever evaluation gives an answer, it gives just these rows, each once
and in ascending order.
-/
namespace ViewUpkeep

def Comprehension.Yields (c : Comprehension) (facts : Facts) (row : Row) : Prop :=
  ∃ env, c.join.Holds facts env ∧ c.output.evalRow env = .ok row

/-- The rows of queries, the last one first, over given facts. A query that is not alive
has none. -/
def meaning (alive : CompiledQuery → Bool) (facts : Facts) : List CompiledQuery → Facts
  | [] => facts
  | q :: earlier => fun rel row =>
    if rel = q.name then alive q = true ∧ q.spec.Yields (meaning alive facts earlier) row
    else meaning alive facts earlier rel row

section Meaning

variable {alive : CompiledQuery → Bool} {facts : Facts} {q : CompiledQuery}
  {qs : List CompiledQuery} {rel : String}

theorem meaning_self (row : Row) : meaning alive facts (q :: qs) q.name row ↔
    alive q = true ∧ q.spec.Yields (meaning alive facts qs) row := by
  simp [meaning]

theorem meaning_of_ne (h : rel ≠ q.name) (row : Row) :
    meaning alive facts (q :: qs) rel row ↔ meaning alive facts qs rel row := by
  simp [meaning, h]

theorem meaning_of_notMem (h : rel ∉ qs.map (·.name)) (row : Row) :
    meaning alive facts qs rel row ↔ facts rel row := by
  induction qs with
  | nil => rfl
  | cons q qs ih =>
    rw [List.map_cons, List.mem_cons, not_or] at h
    rw [meaning_of_ne h.1, ih h.2]

end Meaning

namespace Batch

/-! ### Computations that keep an invariant of the remembered answers -/

def Gives {α : Type} (inv : Memo → Prop) (x : Eval α) (post : α → Prop) : Prop :=
  ∀ memo, inv memo → inv (x.run memo).2 ∧ ∀ a, (x.run memo).1 = .ok a → post a

theorem run_bind {α β : Type} (x : Eval α) (f : α → Eval β) (memo : Memo) :
    (x >>= f).run memo = match x.run memo with
      | (.ok a, memo') => (f a).run memo'
      | (.error e, memo') => (.error e, memo') := by
  cases hx : x.run memo with
  | mk r memo' =>
    have hx' : x memo = (r, memo') := hx
    simp only [bind, ExceptT.bind, ExceptT.mk, ExceptT.run, StateT.bind, hx']
    cases r <;> rfl

namespace Gives

variable {α β : Type} {inv : Memo → Prop} {x : Eval α} {post : α → Prop}

theorem pure {a : α} (h : post a) : Gives inv (pure a) post := by
  intro memo hinv
  refine ⟨hinv, fun b hb => ?_⟩
  cases hb
  exact h

theorem throw (e : ExecError) : Gives inv (throw e : Eval α) post := by
  intro memo hinv
  refine ⟨hinv, fun b hb => ?_⟩
  cases hb

theorem bind {f : α → Eval β} {next : β → Prop} (h : Gives inv x post)
    (k : ∀ a, post a → Gives inv (f a) next) : Gives inv (x >>= f) next := by
  intro memo hinv
  obtain ⟨hmid, hpost⟩ := h memo hinv
  rw [run_bind]
  cases hx : x.run memo with
  | mk r memo' =>
    rw [hx] at hmid hpost
    cases r with
    | error e => exact ⟨hmid, nofun⟩
    | ok a => exact k a (hpost a rfl) memo' hmid

theorem mono {next : α → Prop} (h : Gives inv x post) (k : ∀ a, post a → next a) :
    Gives inv x next :=
  fun memo hinv => ⟨(h memo hinv).1, fun a ha => k a ((h memo hinv).2 a ha)⟩

theorem lift {r : Except ExecError α} (h : ∀ a, r = .ok a → post a) : Gives inv (lift r) post := by
  unfold Batch.lift
  cases r with
  | ok a => exact .pure (h a rfl)
  | error e => exact .throw e

theorem mapM {f : α → Eval β} {post : α → β → Prop} (items : List α)
    (h : ∀ a ∈ items, Gives inv (f a) (post a)) :
    Gives inv (items.mapM f) fun results =>
      (∀ b ∈ results, ∃ a ∈ items, post a b) ∧ ∀ a ∈ items, ∃ b ∈ results, post a b := by
  induction items with
  | nil => exact .pure ⟨by simp, by simp⟩
  | cons a items ih =>
    rw [List.mapM_cons]
    refine (h a List.mem_cons_self).bind fun b hb => ?_
    refine (ih fun a ha => h a (List.mem_cons_of_mem _ ha)).bind fun bs hbs => .pure ⟨?_, ?_⟩
    · refine List.forall_mem_cons.mpr ⟨⟨a, List.mem_cons_self, hb⟩, fun x hx => ?_⟩
      obtain ⟨y, hy, hxy⟩ := hbs.1 x hx
      exact ⟨y, List.mem_cons_of_mem a hy, hxy⟩
    · refine List.forall_mem_cons.mpr ⟨⟨b, List.mem_cons_self, hb⟩, fun x hx => ?_⟩
      obtain ⟨y, hy, hxy⟩ := hbs.2 x hx
      exact ⟨y, List.mem_cons_of_mem b hy, hxy⟩

theorem remember {question : Question} {find : Eval (List Row)} {post : List Row → Prop}
    (h : Gives inv find post)
    (known : ∀ memo rows, inv memo → Memo.get? memo question = some rows → post rows)
    (note : ∀ memo rows, inv memo → post rows → inv ((question, rows) :: memo)) :
    Gives inv (remember question find) post := by
  intro memo hinv
  unfold Batch.remember
  rw [run_bind]
  have hget : (get : Eval Memo).run memo = (.ok memo, memo) := rfl
  rw [hget]
  dsimp only
  cases hm : Memo.get? memo question with
  | some rows =>
    refine ⟨hinv, fun b hb => ?_⟩
    cases hb
    exact known memo rows hinv hm
  | none =>
    dsimp only
    obtain ⟨hmid, hpost⟩ := h memo hinv
    rw [run_bind]
    cases hx : find.run memo with
    | mk r memo' =>
      rw [hx] at hmid hpost
      cases r with
      | error e => exact ⟨hmid, nofun⟩
      | ok rows =>
        refine ⟨note memo' rows hmid (hpost rows rfl), fun b hb => ?_⟩
        cases hb
        exact hpost rows rfl

end Gives

/-! ### What clauses offer -/

theorem valuesOf_eq_ok {env : Env} {vs : List Var} {row : Row} (h : valuesOf env vs = .ok row) :
    env.Reads vs row := by
  induction vs generalizing row with
  | nil =>
    cases h
    exact (Env.reads_nil ..).mpr rfl
  | cons v vs ih =>
    unfold valuesOf at h
    split at h
    · cases h
    · rename_i x hx
      obtain ⟨xs, hxs, h⟩ := bind_eq_ok.mp h
      cases h
      exact (Env.reads_cons ..).mpr ⟨hx, ih hxs⟩

def Offered (facts : Facts) (c : Clause) (env : Env) (rows : List Row) : Prop :=
  ∀ other, env.Within other → (c.Holds facts other ↔ ∃ row ∈ rows, other.Reads c.lhs row)

theorem stored_eq_ok {store : Store} (sound : store.Sound) {rel : String} {r : Relation}
    (hget : store.get? rel = some r) {lhs bound : List Var} {env : Env} {rows : List Row}
    (h : stored r lhs bound env = .ok rows) {other : Env} (hw : env.Within other) :
    (∃ row, other.Reads lhs row ∧ store.Has rel row) ↔ ∃ row ∈ rows, other.Reads lhs row := by
  have hhas := Store.has_iff hget
  unfold stored at h
  dsimp only at h
  split at h
  · cases h
    simp only [hhas]
    exact exists_congr fun row => and_comm
  · split at h
    · obtain ⟨known, hknown, h⟩ := bind_eq_ok.mp h
      cases h
      have hreads := (valuesOf_eq_ok hknown).mono hw
      constructor
      · rintro ⟨row, hrow, hin⟩
        have heq := hreads.unique hrow
        refine ⟨row, ?_, hrow⟩
        rw [heq, if_pos ((r.contains_iff row).mpr ((hhas row).mp hin))]
        exact List.mem_singleton_self row
      · rintro ⟨row, hrow, hr⟩
        split at hrow
        · rename_i hin
          exact ⟨known, hreads, (hhas known).mpr ((r.contains_iff known).mp hin)⟩
        · cases hrow
    · obtain ⟨key, hkey, h⟩ := bind_eq_ok.mp h
      cases h
      have hreads := (valuesOf_eq_ok hkey).mono hw
      refine exists_congr fun row => ?_
      rw [and_comm, and_congr_left_iff]
      intro hrow
      rw [((sound.get? hget).lookup_perm _ key).mem_iff, List.mem_filter, hhas]
      have hsel := Mask.select_reads (Mask.ofPattern lhs bound) hrow
      simp [hsel.unique hreads]

/-- What a source has to do with given facts: it knows the rows of the stored relations, and
whatever it is asked, it answers as the facts say. -/
structure Source.Tells (src : Source) (inv : Memo → Prop) (facts : Facts) : Prop where
  sound : src.store.Sound
  stored : ∀ rel, rel ∉ src.queries → ∀ row, facts rel row ↔ src.store.Has rel row
  all : ∀ rel, Gives inv (src.ask (rel, none)) fun rows => ∀ row, row ∈ rows ↔ facts rel row
  some : ∀ rel args, Gives inv (src.ask (rel, some args)) fun rows =>
    ∀ row, row ∈ rows ↔ facts rel (args ++ row)

def Regular : Clause → Prop
  | .demand inner query params => ∃ lhs, inner = .member (params ++ lhs) query
  | _ => True

theorem offers_gives {src : Source} {inv : Memo → Prop} {facts : Facts}
    (tells : src.Tells inv facts)
    (s : Plan.Step) (regular : Regular s.clause) (env : Env) :
    Gives inv (offers src s env) (Offered facts s.clause env) := by
  unfold offers
  cases hc : s.clause with
  | member lhs rel | mapMember lhs rel n =>
    dsimp only
    by_cases hq : src.queries.contains rel = true
    · rw [if_pos hq]
      refine (tells.all rel).mono fun rows hrows other hw => ?_
      simp only [Clause.Holds, Clause.lhs, hrows]
      exact exists_congr fun row => and_comm
    · rw [if_neg hq]
      refine .lift fun rows h => ?_
      obtain ⟨r, hr, h⟩ := bind_eq_ok.mp h
      intro other hw
      have hfacts := tells.stored rel (by simpa using hq)
      simp only [Clause.Holds, Clause.lhs, hfacts]
      exact stored_eq_ok tells.sound (Store.relation_eq_ok.mp hr) h hw
  | demand inner query params =>
    rw [hc] at regular
    obtain ⟨lhs, rfl⟩ := regular
    dsimp only
    refine (Gives.lift fun args h => valuesOf_eq_ok h).bind fun args hargs => ?_
    refine (tells.some query args).bind fun rows hrows => .pure ?_
    intro other hw
    have hlen := hargs.length
    simp only [Clause.Holds, Clause.lhs, List.mem_map]
    constructor
    · rintro ⟨row, hrow, hin⟩
      obtain ⟨a, b, rfl, ha⟩ : ∃ a b, row = a ++ b ∧ a.length = params.length :=
        ⟨row.take params.length, row.drop params.length, (List.take_append_drop _ _).symm, by
          have := hrow.length
          simp at this ⊢
          omega⟩
      have heq := ((Env.reads_append ha).mp hrow).1.unique (hargs.mono hw)
      subst heq
      exact ⟨_, ⟨b, (hrows b).mpr hin, rfl⟩, hrow⟩
    · rintro ⟨_, ⟨b, hb, rfl⟩, hrow⟩
      exact ⟨_, hrow, (hrows b).mp hb⟩
  | singleton lhs expr =>
    refine .lift fun rows h => ?_
    obtain ⟨v, hv, h⟩ := bind_eq_ok.mp h
    obtain ⟨items, hitems, h⟩ := bind_eq_ok.mp h
    cases h
    rw [ExecError.lift_eq_ok] at hv
    cases Value.itemsOf_eq_ok hitems
    intro other hw
    have heval := Expr.eval_mono hw expr hv
    simp only [Clause.Holds, Clause.lhs, heval, List.mem_singleton, exists_eq_left]
    constructor
    · rintro ⟨row, hrow, he⟩
      cases he
      exact hrow
    · exact fun hrow => ⟨items, hrow, rfl⟩
  | cond expr =>
    refine .lift fun rows h => ?_
    obtain ⟨b, hb, h⟩ := bind_eq_ok.mp h
    cases h
    rw [ExecError.lift_eq_ok, Expr.holds_eq_ok] at hb
    intro other hw
    have heval := Expr.eval_mono hw expr hb
    cases b <;> simp [Clause.Holds, Clause.lhs, heval]
  | delta | without | withExtra => exact .throw _

/-! ### Searching -/

/-- The rows found are the outputs of the environments that extend a given one and satisfy the
clauses. -/
def Found (facts : Facts) (cs : List Clause) (output : Expr) (env : Env) (rows : List Row) : Prop :=
  ∀ row, row ∈ rows ↔ ∃ other : Env, env.Within other ∧ (∀ c ∈ cs, c.Holds facts other) ∧
    output.evalRow other = .ok row

theorem evalRow_mono {env other : Env} (hw : env.Within other) {e : Expr} {row : Row}
    (h : e.evalRow env = .ok row) : e.evalRow other = .ok row := by
  obtain ⟨x, hx, h⟩ := bind_eq_ok.mp h
  exact bind_eq_ok.mpr ⟨x, Expr.eval_mono hw e hx, h⟩

theorem found_nil {facts : Facts} {output : Expr} {env : Env} {found : Row}
    (h : output.evalRow env = .ok found) : Found facts [] output env [found] := by
  intro row
  rw [List.mem_singleton]
  constructor
  · rintro rfl
    exact ⟨env, .refl env, by simp, h⟩
  · rintro ⟨other, hw, _, hrow⟩
    rw [evalRow_mono hw h] at hrow
    exact (Except.ok.inj hrow).symm

def FoundAfter (facts : Facts) (c : Clause) (cs : List Clause) (output : Expr)
    (env : Env) (row : Row)
    (rows : List Row) : Prop :=
  match env.extend? c.lhs row with
  | some env' => Found facts cs output env' rows
  | none => rows = []

theorem found_cons {facts : Facts} {c : Clause} {cs : List Clause} {output : Expr} {env : Env}
    {offered : List Row} (hoffered : Offered facts c env offered) {found : List (List Row)}
    (hfound : ∀ rows ∈ found, ∃ row ∈ offered, FoundAfter facts c cs output env row rows)
    (hall : ∀ row ∈ offered, ∃ rows ∈ found, FoundAfter facts c cs output env row rows) :
    Found facts (c :: cs) output env found.flatten := by
  unfold FoundAfter at hfound hall
  intro row
  rw [List.mem_flatten]
  constructor
  · rintro ⟨rows, hrows, hrow⟩
    obtain ⟨r, hr, hafter⟩ := hfound rows hrows
    split at hafter
    · rename_i env' henv
      obtain ⟨hw, hreads, _⟩ := Env.extend?_eq_some henv
      obtain ⟨other, hw', hcs, hout⟩ := (hafter row).mp hrow
      have hc : c.Holds facts other :=
        (hoffered other (hw.trans hw')).mpr ⟨r, hr, hreads.mono hw'⟩
      exact ⟨other, hw.trans hw', List.forall_mem_cons.mpr ⟨hc, hcs⟩, hout⟩
    · rw [hafter] at hrow
      cases hrow
  · rintro ⟨other, hw, hcs, hout⟩
    obtain ⟨hc, hcs⟩ := List.forall_mem_cons.mp hcs
    obtain ⟨r, hr, hreads⟩ := (hoffered other hw).mp hc
    obtain ⟨env', henv, hw'⟩ := Env.exists_extend? hw hreads
    obtain ⟨rows, hrows, hafter⟩ := hall r hr
    rw [henv] at hafter
    exact ⟨rows, hrows, (hafter row).mpr ⟨other, hw', hcs, hout⟩⟩

theorem search_gives {src : Source} {inv : Memo → Prop} {facts : Facts}
    (tells : src.Tells inv facts)
    (output : Expr) (steps : List Plan.Step) (regular : ∀ s ∈ steps, Regular s.clause) (env : Env) :
    Gives inv (search src output steps env) (Found facts (steps.map (·.clause)) output env) := by
  induction steps generalizing env with
  | nil =>
    refine (Gives.lift fun row h => ?_).bind fun row h => .pure (found_nil h)
    exact ExecError.lift_eq_ok.mp h
  | cons s rest ih =>
    obtain ⟨hs, hrest⟩ := List.forall_mem_cons.mp regular
    refine (offers_gives tells s hs env).bind fun offered hoffered => ?_
    refine (Gives.mapM offered fun row _ => ?_).bind fun found hfound =>
      .pure (found_cons hoffered hfound.1 hfound.2)
    unfold FoundAfter
    cases env.extend? s.clause.lhs row with
    | some env' => exact ih hrest env'
    | none => exact .pure rfl

theorem rowsOf_gives {src : Source} {inv : Memo → Prop} {facts : Facts}
    (tells : src.Tells inv facts)
    {j : Join} (regular : ∀ c ∈ j, Regular c) (bound : List Var) (env : Env) (output : Expr) :
    Gives inv (rowsOf src j bound env output) fun rows =>
      Row.Ascending rows ∧ Found facts j output env rows := by
  unfold rowsOf
  split
  · exact .throw _
  · rename_i steps hsteps
    have hperm := Plan.complete_perm hsteps
    have hregular : ∀ s ∈ steps, Regular s.clause :=
      fun s hs => regular _ (hperm.mem_iff.mp (List.mem_map_of_mem hs))
    refine (search_gives tells output steps hregular env).bind fun rows hrows => .pure ⟨?_, ?_⟩
    · exact Row.sortUnique_ascending rows
    · intro row
      rw [Row.mem_sortUnique, hrows row]
      simp only [hperm.mem_iff]

/-! ### Answers -/

def Answers (facts : Facts) (question : Question) (rows : List Row) : Prop :=
  Row.Ascending rows ∧ ∀ row, row ∈ rows ↔ facts question.1 (question.2.getD [] ++ row)

theorem answer_gives {src : Source} {inv : Memo → Prop} {facts : Facts}
    (tells : src.Tells inv facts)
    {q : CompiledQuery} (regular : ∀ c ∈ q.spec.join, Regular c)
    (hparams : q.params = q.spec.params)
    (nodup : q.params.Nodup) (args : Option Row) :
    Gives inv (answer src q args) fun rows =>
      Row.Ascending rows ∧ ∀ row, row ∈ rows ↔ q.spec.Yields facts (args.getD [] ++ row) := by
  cases args with
  | none =>
    refine (rowsOf_gives tells regular [] [] q.spec.output).mono fun rows h => ⟨h.1, fun row => ?_⟩
    rw [h.2 row]
    refine exists_congr fun env => ?_
    simp [Env.Within, Join.Holds]
  | some args =>
    simp only [answer]
    split
    · rename_i hlen
      refine (rowsOf_gives tells regular _ _ _).mono fun rows h => ⟨h.1, fun row => ?_⟩
      rw [h.2 row]
      refine exists_congr fun env => ?_
      rw [Env.shadow_within_iff nodup hlen, hparams, Expr.evalRow_tuple,
        Comprehension.output_evalRow]
      constructor
      · rintro ⟨hargs, hj, hrow⟩
        exact ⟨hj, args, row, hargs, hrow, rfl⟩
      · rintro ⟨hj, a, b, ha, hb, heq⟩
        have hlength : args.length = a.length := by rw [hlen, ha.length, hparams]
        obtain ⟨rfl, rfl⟩ := List.append_inj heq hlength
        exact ⟨ha, hj, hb⟩
    · exact .throw _

def Right (facts : Facts) (memo : Memo) : Prop := ∀ e ∈ memo, Answers facts e.1 e.2

theorem Right.get {facts : Facts} {memo : Memo} (h : Right facts memo) {question : Question}
    {rows : List Row} (hget : Memo.get? memo question = some rows) :
    Answers facts question rows := by
  obtain ⟨e, he, rfl⟩ := Option.map_eq_some_iff.mp hget
  have hq : e.1 = question := by simpa using List.find?_some he
  exact hq ▸ h e (List.mem_of_find?_eq_some he)

theorem Right.note {facts : Facts} {memo : Memo} (h : Right facts memo) {question : Question}
    {rows : List Row} (hrows : Answers facts question rows) :
    Right facts ((question, rows) :: memo) :=
  List.forall_mem_cons.mpr ⟨hrows, h⟩

structure Askable (q : CompiledQuery) : Prop where
  params : q.params = q.spec.params
  nodup : q.params.Nodup
  regular : ∀ c ∈ q.spec.join, Regular c

theorem ask_gives {store : Store} (sound : store.Sound) (facts : Facts) (qs : List CompiledQuery)
    (askable : ∀ q ∈ qs, Askable q) (nodup : (qs.map (·.name)).Nodup)
    (agrees : ∀ rel ∈ qs.map (·.name), ∀ row,
      facts rel row ↔ meaning (fun _ => true) store.Has qs rel row) (question : Question) :
    Gives (Right facts) (ask store qs question) fun rows =>
      question.1 ∈ qs.map (·.name) ∧ Answers facts question rows := by
  induction qs generalizing question with
  | nil => exact .throw _
  | cons q earlier ih =>
    obtain ⟨hq, hearlier⟩ := List.forall_mem_cons.mp askable
    rw [List.map_cons, List.nodup_cons] at nodup
    have hagrees : ∀ rel ∈ earlier.map (·.name), ∀ row,
        facts rel row ↔ meaning (fun _ => true) store.Has earlier rel row := by
      intro rel hrel row
      rw [agrees rel (List.mem_cons_of_mem _ hrel), meaning_of_ne]
      exact fun he => nodup.1 (he ▸ hrel)
    have hask := ih hearlier nodup.2 hagrees
    have tells : Source.Tells ⟨store, earlier.map (·.name), ask store earlier⟩ (Right facts)
        (meaning (fun _ => true) store.Has earlier) := by
      refine ⟨sound, fun rel hrel row => meaning_of_notMem hrel row, fun rel => ?_,
        fun rel args => ?_⟩
      · refine (hask (rel, none)).mono fun rows h row => ?_
        rw [h.2.2 row, hagrees rel h.1]
        rfl
      · refine (hask (rel, some args)).mono fun rows h row => ?_
        rw [h.2.2 row, hagrees rel h.1]
        rfl
    unfold ask
    split
    · rename_i hname
      have hanswer : Gives (Right facts)
          (answer ⟨store, earlier.map (·.name), ask store earlier⟩ q question.2)
          (Answers facts question) := by
        refine (answer_gives tells hq.regular hq.params hq.nodup question.2).mono fun rows h =>
          ⟨h.1, fun row => ?_⟩
        rw [h.2 row, ← hname, agrees q.name List.mem_cons_self, meaning_self]
        simp
      have hmem : question.1 ∈ (q :: earlier).map (·.name) := hname ▸ List.mem_cons_self
      exact (hanswer.remember (fun memo rows hm hget => hm.get hget)
        fun memo rows hm hrows => hm.note hrows).mono fun rows h => ⟨hmem, h⟩
    · exact (hask question).mono fun rows h => ⟨List.mem_cons_of_mem _ h.1, h.2⟩

end Batch

/-- What evaluation from scratch gives is what the queries mean. -/
theorem Program.run_answers {p : Program} {store : Store} (sound : store.Sound)
    (askable : ∀ q ∈ p.queries, Batch.Askable q) (nodup : (p.queries.map (·.name)).Nodup)
    {question : Batch.Question} {rows : List Row}
    (h : (Batch.run p store question []).1 = .ok rows) :
    Batch.Answers (meaning (fun _ => true) store.Has p.queries.reverse) question rows := by
  have hask := Batch.ask_gives sound (meaning (fun _ => true) store.Has p.queries.reverse)
    p.queries.reverse (by simpa using askable) (by simpa using nodup)
    (fun _ _ _ => Iff.rfl) question
  exact ((hask [] (by simp [Batch.Right])).2 rows h).2

end ViewUpkeep
