import ViewUpkeep.Proofs.Declarations

/-!
Scripts with fewer queries. If no query is left out that one of the others reads, the others keep
their order: a query is ready once all is taken that it reads, and what was left out makes none of
the others ready.
-/
namespace ViewUpkeep

def Statement.isKept (keep : QueryDecl → Bool) : Statement → Bool
  | .query q => keep q
  | _ => true

def Script.keeping (keep : QueryDecl → Bool) (s : Script) : Script :=
  s.filter (·.node.isKept keep)

namespace Declarations

variable {keep : QueryDecl → Bool} {queries : List QueryDecl} {name : String}
  {ready taken : List String} {ws left : List Pending}

def keeping (keep : QueryDecl → Bool) (d : Declarations) : Declarations :=
  ⟨d.relations, d.queries.filter keep⟩

theorem declares_keeping {d : Declarations} (h : ¬ d.declares name = true) :
    ¬ (d.keeping keep).declares name = true := by
  simp only [declares, keeping, Bool.or_eq_true, List.any_eq_true, List.mem_filter] at h ⊢
  rintro (hrelation | ⟨q, ⟨hq, _⟩, hname⟩)
  · exact h (.inl hrelation)
  · exact h (.inr ⟨q, hq, hname⟩)

theorem insert_keeping {s : Statement} (d : Declarations) :
    (d.insert s).keeping keep =
      if s.isKept keep then (d.keeping keep).insert s else d.keeping keep := by
  cases s with
  | query q => cases h : keep q <;> simp [Statement.isKept, keeping, insert, h]
  | _ => rfl

theorem collectFrom_keeping {d e : Declarations} {script : Script}
    (h : collectFrom d script = .ok e) :
    collectFrom (d.keeping keep) (script.keeping keep) = .ok (e.keeping keep) := by
  induction script generalizing d with
  | nil =>
    cases h
    rfl
  | cons s rest ih =>
    have hkeeping : Script.keeping keep (s :: rest) =
        if s.node.isKept keep then s :: Script.keeping keep rest else Script.keeping keep rest :=
      List.filter_cons
    rw [hkeeping]
    unfold collectFrom at h
    split at h
    · rename_i hname
      split
      · rw [collectFrom, hname]
        exact ih h
      · exact ih h
    · rename_i name hname
      split at h
      · cases h
      · rename_i fresh
        split at h
        · cases h
        · rename_i hbreach
          have hrest := ih h
          rw [insert_keeping] at hrest
          split at hrest
          · rename_i hkept
            rw [if_pos hkept, collectFrom, hname]
            simp only [hbreach, if_neg (declares_keeping fresh)]
            exact hrest
          · rename_i hkept
            rw [if_neg hkept]
            exact hrest

/-! ### The order of the queries that are kept -/

theorem free_filter (kept : String → Bool) :
    free name (ws.filter fun w => kept w.name) =
      (free name ws).filter fun w => kept w.name := by
  unfold free
  rw [List.filter_map]
  rfl

theorem freed_filter (kept : String → Bool) :
    freed name (ws.filter fun w => kept w.name) = (freed name ws).filter kept := by
  unfold freed
  rw [List.filter_map, List.filter_filter, List.filter_filter]
  congr 1
  exact List.filter_congr fun w _ => Bool.and_comm _ _

/-- Names that are not kept make no difference to those that are, if what these wait for is kept. -/
theorem Settles.filter (h : Settles ready ws taken left) (kept : String → Bool)
    (closed : ∀ w ∈ ws, kept w.name = true → ∀ m ∈ w.missing, kept m = true) :
    ∃ left', Settles (ready.filter kept) (ws.filter fun w => kept w.name) (taken.filter kept)
      left' := by
  induction h with
  | done => exact ⟨_, .done⟩
  | @take name ready taken ws left _ ih =>
    have hclosed : ∀ w ∈ free name ws, kept w.name = true → ∀ m ∈ w.missing,
        kept m = true := by
      intro v hv hkept m hm
      obtain ⟨w, hw, rfl⟩ := mem_free.mp hv
      exact closed w hw hkept m (List.mem_of_mem_erase hm)
    obtain ⟨left', hrest⟩ := ih hclosed
    rw [List.filter_append, ← freed_filter, ← free_filter] at hrest
    refine ⟨left', ?_⟩
    cases hname : kept name with
    | true =>
      rw [List.filter_cons_of_pos hname, List.filter_cons_of_pos hname]
      exact .take hrest
    | false =>
      have hmissing : ∀ w ∈ ws.filter fun w => kept w.name, name ∉ w.missing := by
        intro w hw hm
        obtain ⟨hw, hkept⟩ := List.mem_filter.mp hw
        rw [closed w hw hkept name hm] at hname
        cases hname
      have hfreed : freed name (ws.filter fun w => kept w.name) = [] := by
        rw [List.eq_nil_iff_forall_not_mem]
        intro x hx
        obtain ⟨w, hw, _, hm, _⟩ := mem_freed.mp hx
        exact hmissing w hw hm
      have hfree : free name (ws.filter fun w => kept w.name) =
          ws.filter fun w => kept w.name := by
        unfold free
        conv_rhs => rw [← List.map_id (ws.filter fun w => kept w.name)]
        refine List.map_congr_left fun w hw => ?_
        rw [List.erase_of_not_mem (hmissing w hw)]
        rfl
      rw [hfreed, hfree, List.append_nil] at hrest
      simpa [hname] using hrest

theorem Settles.unique {taken' : List String} {left' : List Pending}
    (h : Settles ready ws taken left) (h' : Settles ready ws taken' left') : taken = taken' := by
  induction h generalizing taken' with
  | done =>
    cases h'
    rfl
  | take _ ih =>
    cases h' with
    | take h' => rw [ih h']

def Closed (queries : List QueryDecl) (keep : QueryDecl → Bool) : Prop :=
  ∀ q r, Reads queries q r → keep q = true → keep r = true

def isKept (queries : List QueryDecl) (keep : QueryDecl → Bool) (name : String) : Bool :=
  (queries.filter keep).any (·.name = name)

theorem isKept_iff : isKept queries keep name = true ↔
    ∃ q ∈ queries, keep q = true ∧ q.name = name := by
  simp [isKept]

theorem isKept_name (nodup : (queries.map (·.name)).Nodup) {q : QueryDecl} (hq : q ∈ queries) :
    isKept queries keep q.name = keep q := by
  rw [Bool.eq_iff_iff, isKept_iff]
  constructor
  · rintro ⟨r, hr, hkeep, hname⟩
    rwa [← List.inj_on_of_nodup_map nodup hr hq hname]
  · exact fun hkeep => ⟨q, hq, hkeep, rfl⟩

theorem pending_filter (nodup : (queries.map (·.name)).Nodup) (closed : Closed queries keep) :
    pending (queries.filter keep) =
      (pending queries).filter fun w => isKept queries keep w.name := by
  unfold pending
  rw [List.filter_map]
  have hfilter : queries.filter keep = queries.filter
      ((fun w : Pending => isKept queries keep w.name) ∘
        fun q => ⟨q.name, q.reads.filter fun n => queries.any (·.name = n)⟩) :=
    List.filter_congr fun q hq => (isKept_name nodup hq).symm
  rw [← hfilter]
  refine List.map_congr_left fun q hq => ?_
  obtain ⟨hq, hkeep⟩ := List.mem_filter.mp hq
  congr 1
  refine List.filter_congr fun n hn => ?_
  rw [Bool.eq_iff_iff, List.any_eq_true]
  constructor
  · rintro ⟨r, hr, hname⟩
    exact List.any_eq_true.mpr ⟨r, (List.mem_filter.mp hr).1, hname⟩
  · intro hany
    obtain ⟨r, hr, hname⟩ := List.any_eq_true.mp hany
    rw [decide_eq_true_eq] at hname
    subst hname
    have hread : Reads queries q r := ⟨hq, hr, QueryDecl.mem_reads.mp hn⟩
    exact ⟨r, List.mem_filter.mpr ⟨hr, closed q r hread hkeep⟩, by simp⟩

theorem readyAtFirst_filter (nodup : (queries.map (·.name)).Nodup) (closed : Closed queries keep) :
    readyAtFirst (queries.filter keep) =
      (readyAtFirst queries).filter (isKept queries keep) := by
  unfold readyAtFirst
  rw [pending_filter nodup closed, List.filter_map, List.filter_filter, List.filter_filter]
  congr 1
  exact List.filter_congr fun w _ => Bool.and_comm _ _

theorem order_filter (nodup : (queries.map (·.name)).Nodup) (closed : Closed queries keep)
    {names : List String} (h : order queries = .ok names) :
    order (queries.filter keep) = .ok (names.filter (isKept queries keep)) := by
  have hclosed : ∀ w ∈ pending queries, isKept queries keep w.name = true → ∀ m ∈ w.missing,
      isKept queries keep m = true := by
    intro w hw hkept m hm
    obtain ⟨q, hq, rfl⟩ := mem_pending.mp hw
    obtain ⟨r, hread, rfl⟩ := (mem_missing hq).mp hm
    rw [isKept_name nodup hq] at hkept
    rw [isKept_name nodup hread.2.1]
    exact closed q r hread hkept
  have hnodup : ((queries.filter keep).map (·.name)).Nodup :=
    nodup.sublist (List.filter_sublist.map _)
  obtain ⟨_, left, hsettles⟩ := order_eq_ok nodup h
  obtain ⟨left', hfilter⟩ := hsettles.filter (isKept queries keep) hclosed
  rw [← readyAtFirst_filter nodup closed, ← pending_filter nodup closed] at hfilter
  obtain ⟨names', left'', hsettles', horder⟩ := order_settles hnodup
  rw [hsettles'.unique hfilter] at horder
  have hlength : (names.filter (isKept queries keep)).length = (queries.filter keep).length := by
    have hperm := (order_perm nodup h).filter (isKept queries keep)
    rw [hperm.length_eq, List.filter_map, List.length_map]
    congr 1
    exact List.filter_congr fun q hq => isKept_name nodup hq
  rw [horder, hlength, if_neg (Nat.lt_irrefl _)]

end Declarations

theorem Compile.prepare_keeping {script : Script} {d : Declarations} {decls : List QueryDecl}
    {keep : QueryDecl → Bool} (closed : Declarations.Closed d.queries keep)
    (h : prepare script = .ok (d, decls)) :
    prepare (script.keeping keep) = .ok (d.keeping keep, decls.filter keep) := by
  obtain ⟨e, he, h⟩ := bind_eq_ok.mp h
  obtain ⟨names, hnames, h⟩ := bind_eq_ok.mp h
  cases h
  have nodup := Declarations.ofScript_nodup he
  refine bind_eq_ok.mpr ⟨_, Declarations.collectFrom_keeping he, bind_eq_ok.mpr
    ⟨_, Declarations.order_filter nodup closed hnames, ?_⟩⟩
  refine congrArg (fun qs => Except.ok (d.keeping keep, qs)) ?_
  rw [List.filterMap_filter, List.filter_filterMap]
  refine List.filterMap_congr fun n _ => Option.ext fun q => ?_
  have hfind : (d.queries.filter keep).find? (·.name = n) = some q ↔
      q ∈ d.queries.filter keep ∧ q.name = n :=
    find_eq_some_iff_of_nodup_map (nodup.sublist (List.filter_sublist.map _))
  simp only [Declarations.keeping, Option.ite_none_right_eq_some, hfind, Option.filter_eq_some_iff,
    find_eq_some_iff_of_nodup_map nodup, List.mem_filter, Declarations.isKept_iff]
  constructor
  · rintro ⟨_, ⟨hq, hkeep⟩, hname⟩
    exact ⟨⟨hq, hname⟩, hkeep⟩
  · rintro ⟨⟨hq, hname⟩, hkeep⟩
    exact ⟨⟨q, hq, hkeep, hname⟩, ⟨hq, hkeep⟩, hname⟩

end ViewUpkeep
