import ViewUpkeep.Proofs.Lowering

/-!
The supports of a demanded query. Each belongs to one clause and is made from what the clauses
before it have tagged. Tags and filters have names of their own; entries write to the demand sets of
other queries. Pruning only drops supports.
-/
namespace ViewUpkeep

theorem Support.isEntry_of_isFilter (s : Support) (h : s.isFilter = true) : s.isEntry = false := by
  have hkind : s.kind = .filter := of_decide_eq_true h
  simp [isEntry, hkind]

namespace Demand

variable {query : String} {filters : Bool}

def tagOf (query : String) (i : Nat) (source : Join) (v : Var) : Support :=
  ⟨.tag v, i, tagName query v, ⟨source, .var v, []⟩⟩

theorem supportsFrom_cons {i : Nat} {tagged : List Var} {c : Clause} {rest : Join}
    {cs : List Support} (h : supportsFrom query filters i tagged (c :: rest) = .ok cs) :
    ∃ guard later, guardOf query filters tagged i c = .ok guard ∧
      supportsFrom query filters (i + 1) (tagged ++ newTags tagged c) rest = .ok later ∧
      cs = guard.toList ++ (newTags tagged c).map (tagOf query i (tagSource c guard)) ++ later := by
  obtain ⟨guard, hguard, h⟩ := bind_eq_ok.mp h
  obtain ⟨later, hlater, h⟩ := bind_eq_ok.mp h
  cases h
  exact ⟨guard, later, hguard, hlater, rfl⟩

/-- The guard of a clause: over a demanded query an entry, all of whose arguments are tagged, and
over a relation a filter by the variables that are tagged. -/
inductive Guards (query : String) (filters : Bool) (tagged : List Var) (i : Nat) :
    Clause → Support → Prop where
  | entry {inner : Clause} {subquery : String} {params : List Var} :
    (∀ p ∈ params, p ∈ tagged) →
    Guards query filters tagged i (.demand inner subquery params)
      ⟨.entry subquery, i, setName subquery,
        ⟨tagClauses query params.eraseDups, .tupleOf params, []⟩⟩
  | filter {c : Clause} {rel : String} :
    filters = true → 0 < i → (c = .member c.lhs rel ∨ ∃ n, c = .mapMember c.lhs rel n) →
    (∃ v ∈ c.lhs, v ∈ tagged) →
    Guards query filters tagged i c
      ⟨.filter, i, filterName query i rel,
        ⟨tagClauses query (c.lhs.eraseDups.filter fun v => tagged.contains v) ++ [c],
          .tupleOf c.lhs, []⟩⟩

theorem guardOf_member {tagged : List Var} {i : Nat} {c : Clause} {rel : String}
    (hc : c = .member c.lhs rel ∨ ∃ n, c = .mapMember c.lhs rel n) {guard : Option Support}
    (h : guardOf query filters tagged i c = .ok guard) :
    ∀ s ∈ guard, Guards query filters tagged i c s := by
  have hg : (if filters && 0 < i &&
        !(c.lhs.eraseDups.filter fun v => tagged.contains v).isEmpty then
      (.ok (some ⟨.filter, i, filterName query i rel,
        ⟨tagClauses query (c.lhs.eraseDups.filter fun v => tagged.contains v) ++ [c],
          .tupleOf c.lhs, []⟩⟩) : Except CompileError (Option Support))
      else .ok none) = .ok guard := by
    rcases hc with hc | ⟨n, hc⟩ <;> rw [hc] at h ⊢ <;> exact h
  intro s hs
  split at hg
  · rename_i hcond
    cases hg
    cases hs
    simp only [Bool.and_eq_true, decide_eq_true_eq, Bool.not_eq_true', List.isEmpty_eq_false_iff,
      ne_eq, List.filter_eq_nil_iff, not_forall, not_not, List.contains_eq_mem] at hcond
    obtain ⟨⟨hf, hi⟩, v, hv, htag⟩ := hcond
    exact .filter hf hi hc ⟨v, List.mem_eraseDups.mp hv, htag⟩
  · cases hg
    cases hs

theorem guardOf_guards {tagged : List Var} {i : Nat} {c : Clause} {guard : Option Support}
    (h : guardOf query filters tagged i c = .ok guard) :
    ∀ s ∈ guard, Guards query filters tagged i c s := by
  cases c with
  | demand inner subquery params =>
    unfold guardOf at h
    dsimp only at h
    split at h
    · cases h
    · rename_i hall
      cases h
      intro s hs
      cases hs
      exact .entry (by simpa using hall)
  | member lhs rel => exact guardOf_member (.inl rfl) h
  | mapMember lhs rel n => exact guardOf_member (.inr ⟨n, rfl⟩) h
  | singleton | delta | without | withExtra | cond =>
    cases h
    simp

theorem guardOf_demand {tagged : List Var} {i : Nat} {inner : Clause} {subquery : String}
    {params : List Var} {guard : Option Support}
    (h : guardOf query filters tagged i (.demand inner subquery params) = .ok guard) :
    (∀ p ∈ params, p ∈ tagged) ∧ guard = some ⟨.entry subquery, i, setName subquery,
      ⟨tagClauses query params.eraseDups, .tupleOf params, []⟩⟩ := by
  unfold guardOf at h
  dsimp only at h
  split at h
  · cases h
  · rename_i hall
    cases h
    exact ⟨by simpa using hall, rfl⟩

theorem mem_newTags {tagged : List Var} {c : Clause} {v : Var} :
    v ∈ newTags tagged c ↔ v ∈ c.tagsOut ∧ v.isAnonymous = false ∧ v ∉ tagged := by
  simp [newTags]

theorem tagsOut_subset_lhs (c : Clause) : c.tagsOut ⊆ c.lhs := by
  induction c with
  | member | mapMember => exact fun v hv => List.mem_eraseDups.mp hv
  | without inner value ih | withExtra inner value ih => exact ih
  | demand inner query params ih =>
    exact fun v hv => List.drop_subset _ _ (List.mem_eraseDups.mp hv)
  | singleton | delta | cond => simp [Clause.tagsOut]

theorem nodup_newTags (tagged : List Var) (c : Clause) : (newTags tagged c).Nodup := by
  refine List.Nodup.filter _ ?_
  induction c with
  | member | mapMember | demand => exact nodup_eraseDups _
  | without inner value ih | withExtra inner value ih => exact ih
  | singleton | delta | cond => exact List.nodup_nil

def taggedBy (tagged : List Var) : Join → List Var
  | [] => tagged
  | c :: rest => taggedBy (tagged ++ newTags tagged c) rest

theorem mem_taggedBy {tagged : List Var} {j : Join} {v : Var} (h : v ∈ taggedBy tagged j) :
    v ∈ tagged ∨ ∃ c ∈ j, v ∈ c.lhs := by
  induction j generalizing tagged with
  | nil => exact .inl h
  | cons c rest ih =>
    rcases ih h with h | ⟨d, hd, hv⟩
    · rcases List.mem_append.mp h with h | h
      · exact .inl h
      · exact .inr ⟨c, List.mem_cons_self, tagsOut_subset_lhs c (mem_newTags.mp h).1⟩
    · exact .inr ⟨d, List.mem_cons_of_mem c hd, hv⟩

theorem mem_supportsFrom {i : Nat} {tagged : List Var} {j : Join} {cs : List Support}
    (h : supportsFrom query filters i tagged j = .ok cs) {s : Support} (hs : s ∈ cs) :
    ∃ pre c post guard, j = pre ++ c :: post ∧
      guardOf query filters (taggedBy tagged pre) (i + pre.length) c = .ok guard ∧
      (s ∈ guard ∨ ∃ v ∈ newTags (taggedBy tagged pre) c,
        s = tagOf query (i + pre.length) (tagSource c guard) v) := by
  induction j generalizing i tagged cs with
  | nil =>
    cases h
    cases hs
  | cons c rest ih =>
    obtain ⟨guard, later, hguard, hlater, rfl⟩ := supportsFrom_cons h
    rcases List.mem_append.mp hs with hs | hs
    · refine ⟨[], c, rest, guard, rfl, hguard, ?_⟩
      rcases List.mem_append.mp hs with hs | hs
      · exact .inl (Option.mem_toList.mp hs)
      · obtain ⟨v, hv, rfl⟩ := List.mem_map.mp hs
        exact .inr ⟨v, hv, rfl⟩
    · obtain ⟨pre, d, post, g, hj, hg, hs⟩ := ih hlater hs
      refine ⟨c :: pre, d, post, g, by rw [hj]; rfl, ?_⟩
      rw [List.length_cons, Nat.add_comm pre.length 1, ← Nat.add_assoc]
      exact ⟨hg, hs⟩

theorem taggedBy_concat (tagged : List Var) (j : Join) (c : Clause) :
    taggedBy tagged (j ++ [c]) = taggedBy tagged j ++ newTags (taggedBy tagged j) c := by
  induction j generalizing tagged with
  | nil => rfl
  | cons d rest ih => exact ih _

def TagWith (query : String) (cs : List Support) (P : Support → Prop) (v : Var) : Prop :=
  ∃ i source, tagOf query i source v ∈ cs ∧ P (tagOf query i source v)

/-- Supports from the first clause to the last: a guard is made from the tags of the clauses before,
and tags from those and the guard. -/
theorem supportsFrom_induction {P : Support → Prop} {j : Join} {cs : List Support}
    (h : supportsFrom query filters 0 [] j = .ok cs)
    (guards : ∀ pre c post guard, j = pre ++ c :: post →
      guardOf query filters (taggedBy [] pre) pre.length c = .ok guard → (∀ s ∈ guard, s ∈ cs) →
      (∀ v ∈ taggedBy [] pre, TagWith query cs P v) → ∀ s ∈ guard, P s)
    (tags : ∀ pre c post guard v, j = pre ++ c :: post →
      guardOf query filters (taggedBy [] pre) pre.length c = .ok guard → (∀ s ∈ guard, s ∈ cs) →
      (∀ v ∈ taggedBy [] pre, TagWith query cs P v) → (∀ s ∈ guard, P s) →
      v ∈ newTags (taggedBy [] pre) c → P (tagOf query pre.length (tagSource c guard) v)) :
    ∀ s ∈ cs, P s := by
  suffices hfrom : ∀ rest pre later, j = pre ++ rest →
      supportsFrom query filters pre.length (taggedBy [] pre) rest = .ok later →
      (∀ s ∈ later, s ∈ cs) → (∀ v ∈ taggedBy [] pre, TagWith query cs P v) → ∀ s ∈ later, P s from
    hfrom j [] cs rfl h (fun s hs => hs) (by simp [taggedBy])
  intro rest
  induction rest with
  | nil =>
    intro pre later _ hlater
    cases hlater
    simp
  | cons c rest ih =>
    intro pre later hj hlater hcs htags
    obtain ⟨guard, after, hguard, hafter, rfl⟩ := supportsFrom_cons hlater
    have hmem : ∀ s ∈ guard, s ∈ cs := fun s hs => hcs s (by simp [Option.mem_toList.mpr hs])
    have hguards := guards pre c rest guard hj hguard hmem htags
    have htag : ∀ v ∈ newTags (taggedBy [] pre) c,
        P (tagOf query pre.length (tagSource c guard) v) := fun v hv =>
      tags pre c rest guard v hj hguard hmem htags hguards hv
    have hnext : ∀ s ∈ after, P s := by
      apply ih (pre ++ [c]) after (by simp [hj])
      · rwa [taggedBy_concat, List.length_append]
      · exact fun s hs => hcs s (List.mem_append_right _ hs)
      · intro v hv
        rw [taggedBy_concat] at hv
        rcases List.mem_append.mp hv with hv | hv
        · exact htags v hv
        · refine ⟨_, _, hcs _ ?_, htag v hv⟩
          exact List.mem_append_left _ (List.mem_append_right _ (List.mem_map_of_mem hv))
    intro s hs
    rcases List.mem_append.mp hs with hs | hs
    · rcases List.mem_append.mp hs with hs | hs
      · exact hguards s (Option.mem_toList.mp hs)
      · obtain ⟨v, hv, rfl⟩ := List.mem_map.mp hs
        exact htag v hv
    · exact hnext s hs

theorem supportsFrom_kinds {i : Nat} {tagged : List Var} {j : Join} {cs : List Support}
    (h : supportsFrom query filters i tagged j = .ok cs) {s : Support} (hs : s ∈ cs) :
    i ≤ s.clause ∧ s.spec.params = [] ∧
    ((∃ v, s.kind = .tag v ∧ s.target = tagName query v ∧ v ∉ tagged) ∨
      (s.kind = .filter ∧ ∃ rel, s.target = filterName query s.clause rel) ∨
      ∃ subquery, s.kind = .entry subquery ∧ s.target = setName subquery) := by
  induction j generalizing i tagged cs with
  | nil =>
    cases h
    cases hs
  | cons c rest ih =>
    obtain ⟨guard, later, hguard, hlater, rfl⟩ := supportsFrom_cons h
    rcases List.mem_append.mp hs with hs | hs
    · rcases List.mem_append.mp hs with hs | hs
      · cases guardOf_guards hguard s (Option.mem_toList.mp hs) with
        | entry => exact ⟨le_rfl, rfl, .inr (.inr ⟨_, rfl, rfl⟩)⟩
        | filter => exact ⟨le_rfl, rfl, .inr (.inl ⟨rfl, _, rfl⟩)⟩
      · obtain ⟨v, hv, rfl⟩ := List.mem_map.mp hs
        exact ⟨le_rfl, rfl, .inl ⟨v, rfl, rfl, (mem_newTags.mp hv).2.2⟩⟩
    · obtain ⟨hi, hp, hkind⟩ := ih hlater hs
      refine ⟨by omega, hp, hkind.imp_left ?_⟩
      rintro ⟨v, hk, ht, hv⟩
      exact ⟨v, hk, ht, fun hm => hv (List.mem_append_left _ hm)⟩

theorem supportsFrom_targets {i : Nat} {tagged : List Var} {j : Join} {cs : List Support}
    (h : supportsFrom query filters i tagged j = .ok cs) :
    cs.Pairwise fun s t => s.isEntry = false → t.isEntry = false → s.target ≠ t.target := by
  induction j generalizing i tagged cs with
  | nil =>
    cases h
    exact .nil
  | cons c rest ih =>
    obtain ⟨guard, later, hguard, hlater, rfl⟩ := supportsFrom_cons h
    have hguards := guardOf_guards hguard
    have htarget : ∀ s ∈ guard, s.isEntry = false → ∃ rel, s.target = filterName query i rel := by
      intro s hs he
      cases hguards s hs with
      | entry => cases he
      | filter => exact ⟨_, rfl⟩
    rw [List.append_assoc]
    refine List.pairwise_append.mpr ⟨?_, List.pairwise_append.mpr ⟨?_, ih hlater, ?_⟩, ?_⟩
    · cases guard with
      | none => exact .nil
      | some g => exact List.pairwise_singleton _ _
    · refine List.pairwise_map.mpr ((nodup_newTags tagged c).imp ?_)
      intro v w hne _ _ he
      exact hne (tagName_inj he)
    · intro s hs t ht _ het
      obtain ⟨v, hv, rfl⟩ := List.mem_map.mp hs
      obtain ⟨_, _, ⟨w, _, hw, hnot⟩ | ⟨_, rel, hrel⟩ | ⟨sub, hk, _⟩⟩ :=
        supportsFrom_kinds hlater ht
      · rw [hw]
        intro he
        exact hnot (List.mem_append_right _ (tagName_inj he ▸ hv))
      · rw [hrel]
        exact tagName_ne_filterName v _ rel
      · simp [Support.isEntry, hk] at het
    · intro s hs t ht hes het
      obtain ⟨rel, hrel⟩ := htarget s (Option.mem_toList.mp hs) hes
      rw [hrel]
      rcases List.mem_append.mp ht with ht | ht
      · obtain ⟨v, _, rfl⟩ := List.mem_map.mp ht
        exact (tagName_ne_filterName v i rel).symm
      · obtain ⟨hle, _, ⟨w, _, hw, _⟩ | ⟨_, other, hother⟩ | ⟨sub, hk, _⟩⟩ :=
          supportsFrom_kinds hlater ht
        · rw [hw]
          exact (tagName_ne_filterName w i rel).symm
        · rw [hother]
          intro he
          have := filterName_clause he
          omega
        · simp [Support.isEntry, hk] at het

theorem supportsFrom_nodup {i : Nat} {tagged : List Var} {j : Join} {cs : List Support}
    (h : supportsFrom query filters i tagged j = .ok cs) :
    ((cs.filter fun s => !s.isEntry).map (·.target)).Nodup := by
  refine List.pairwise_map.mpr
    (((supportsFrom_targets h).sublist List.filter_sublist).imp_of_mem ?_)
  intro s t hs ht hne
  exact hne (by simpa using (List.mem_filter.mp hs).2) (by simpa using (List.mem_filter.mp ht).2)

/-! ### Clauses of supports -/

theorem plain_tagClauses (query : String) (vs : List Var) : ∀ c ∈ tagClauses query vs, c.Plain := by
  intro c hc
  obtain ⟨v, _, rfl⟩ := List.mem_map.mp hc
  trivial

theorem mentions_tagClauses {vs : List Var} {c : Clause} (hc : c ∈ tagClauses query vs) :
    c.mentions ⊆ vs := by
  obtain ⟨v, hv, rfl⟩ := List.mem_map.mp hc
  simpa [Clause.mentions] using hv

theorem supportsFrom_proper {i : Nat} {j : Join} {cs : List Support}
    (plain : ∀ c ∈ j, c.Plain) (delta : ∀ c ∈ j, Var.delta ∉ c.mentions)
    (h : supportsFrom query filters i [] j = .ok cs) : ∀ s ∈ cs, s.spec.Proper := by
  intro s hs
  obtain ⟨pre, c, post, guard, rfl, hguard, hs⟩ := mem_supportsFrom h hs
  have hc : c.Plain := plain c (by simp)
  have hcd : Var.delta ∉ c.mentions := delta c (by simp)
  have hlhs : Var.delta ∉ c.lhs := fun hm => hcd (c.lhs_subset_mentions hm)
  have htagged : Var.delta ∉ taggedBy [] pre := by
    intro hm
    rcases mem_taggedBy hm with hm | ⟨d, hd, hm⟩
    · cases hm
    · exact delta d (by simp [hd]) (d.lhs_subset_mentions hm)
  have hguardProper : ∀ g ∈ guard, g.spec.Proper := by
    intro g hg
    cases guardOf_guards hguard g hg with
    | entry hparams =>
      rename_i inner sub params
      have hp : Var.delta ∉ params := fun hm => htagged (hparams _ hm)
      refine ⟨plain_tagClauses _ _, ?_, ?_⟩
      · intro d hd hm
        exact hp (List.mem_eraseDups.mp (mentions_tagClauses hd hm))
      · simpa [Comprehension.output, Expr.components, Expr.tupleOf, Expr.mentions,
          Expr.mentionsAll_vars] using hp
    | filter _ _ hrel _ =>
      refine ⟨?_, ?_, ?_⟩
      · intro d hd
        rcases List.mem_append.mp hd with hd | hd
        · exact plain_tagClauses _ _ d hd
        · rw [List.mem_singleton.mp hd]
          exact hc
      · intro d hd
        rcases List.mem_append.mp hd with hd | hd
        · intro hm
          have := (List.mem_filter.mp (mentions_tagClauses hd hm)).1
          exact hlhs (List.mem_eraseDups.mp this)
        · rw [List.mem_singleton.mp hd]
          exact hcd
      · simpa [Comprehension.output, Expr.components, Expr.tupleOf, Expr.mentions,
          Expr.mentionsAll_vars] using hlhs
  rcases hs with hs | ⟨v, hv, rfl⟩
  · exact hguardProper s hs
  · have hsource : ∀ d ∈ tagSource c guard, d.Plain ∧ Var.delta ∉ d.mentions := by
      unfold tagSource
      split
      · rename_i g inner sub params
        intro d hd
        rcases List.mem_append.mp hd with hd | hd
        · exact ⟨(hguardProper _ rfl).plain d hd, (hguardProper _ rfl).join_delta d hd⟩
        · rw [List.mem_singleton.mp hd]
          cases inner with
          | member => exact ⟨trivial, hcd⟩
          | _ => cases hc
      · intro d hd
        rw [List.mem_singleton.mp hd]
        exact ⟨trivial, hlhs⟩
      · rename_i inner sub params
        intro d hd
        rw [List.mem_singleton.mp hd]
        cases inner with
        | member => exact ⟨trivial, hcd⟩
        | _ => cases hc
      · intro d hd
        rw [List.mem_singleton.mp hd]
        exact ⟨hc, hcd⟩
    have hvl : v ∈ c.lhs := tagsOut_subset_lhs c (mem_newTags.mp hv).1
    have hvd : Var.delta ≠ v := fun he => hlhs (he ▸ hvl)
    refine ⟨fun d hd => (hsource d hd).1, fun d hd => (hsource d hd).2, ?_⟩
    simpa [tagOf, Comprehension.output, Expr.components, Expr.mentions, Expr.mentionsAll] using hvd

/-! ### Pruning -/

theorem pruneOnce_sublist (selected : List Nat) (cs : List Support) :
    (pruneOnce selected cs).Sublist cs :=
  List.filter_sublist.trans List.filter_sublist

/-- What pruning leaves, it leaves together with all that is read there. -/
structure Pruned (cs : List Support) (selected : List Nat) (kept : List Support) : Prop where
  sublist : kept.Sublist cs
  entries : ∀ s ∈ cs, s.isEntry = true → s ∈ kept
  filters : ∀ s ∈ cs, s.isFilter = true →
    (s.clause ∈ selected ∨ ∃ t ∈ kept, t.isTag = true ∧ t.reads s.target = true) → s ∈ kept
  tags : ∀ s ∈ cs, s.isTag = true →
    (∃ r ∈ kept, r.target ≠ s.target ∧ r.reads s.target = true) → s ∈ kept

theorem Pruned.once {cs kept : List Support} {selected : List Nat} (h : Pruned cs selected kept) :
    Pruned cs selected (pruneOnce selected kept) := by
  have hsub := pruneOnce_sublist selected kept
  refine ⟨hsub.trans h.sublist, ?_, ?_, ?_⟩
  · intro s hs hentry
    have hkinds : s.isFilter = false ∧ s.isTag = false := by
      unfold Support.isEntry at hentry
      split at hentry
      · rename_i hk
        simp [Support.isFilter, Support.isTag, hk]
      · cases hentry
    refine List.mem_filter.mpr ⟨List.mem_filter.mpr ⟨h.entries s hs hentry, ?_⟩, ?_⟩
    · simp [hkinds.1]
    · simp [hkinds.2]
  · intro s hs hfilter hneed
    have htag : s.isTag = false := by
      have hk : s.kind = .filter := of_decide_eq_true hfilter
      simp [Support.isTag, hk]
    have hkept : s.clause ∈ selected ∨ ∃ t ∈ kept, t.isTag = true ∧ t.reads s.target = true :=
      hneed.imp_right fun ⟨t, ht, hread⟩ => ⟨t, hsub.subset ht, hread⟩
    refine List.mem_filter.mpr ⟨List.mem_filter.mpr ⟨h.filters s hs hfilter hkept, ?_⟩, ?_⟩
    · rcases hkept with hsel | ⟨t, ht, hread⟩
      · simp [hsel]
      · have hany : (kept.any fun t => t.isTag && t.reads s.target) = true :=
          List.any_eq_true.mpr ⟨t, ht, by simp [hread]⟩
        simp [hany]
    · simp [htag]
  · intro s hs htag hneed
    have hfilter : s.isFilter = false := by
      unfold Support.isTag at htag
      split at htag
      · rename_i hk
        simp [Support.isFilter, hk]
      · cases htag
    obtain ⟨r, hr, hread⟩ := hneed
    refine List.mem_filter.mpr
      ⟨List.mem_filter.mpr ⟨h.tags s hs htag ⟨r, hsub.subset hr, hread⟩, ?_⟩, ?_⟩
    · simp [hfilter]
    · have hr1 := (List.mem_filter.mp hr).1
      refine Bool.or_eq_true_iff.mpr (.inr (List.any_eq_true.mpr ⟨r, hr1, ?_⟩))
      simpa using hread

theorem prune_pruned (cs : List Support) (selected : List Nat) :
    Pruned cs selected (prune cs selected) := by
  have hall : ∀ n kept, Pruned cs selected kept →
      Pruned cs selected (pruneUpTo selected n kept) := by
    intro n
    induction n with
    | zero => exact fun _ h => h
    | succ n ih =>
      intro kept h
      unfold pruneUpTo
      dsimp only
      split
      · exact h.once
      · exact ih _ h.once
  exact hall _ cs ⟨.refl cs, fun _ h _ => h, fun _ h _ _ => h, fun _ h _ _ => h⟩

theorem apply_proper {j : Join} (plain : ∀ c ∈ j, c.Plain) (delta : ∀ c ∈ j, Var.delta ∉ c.mentions)
    (cs : List Support) (selected : List Nat) :
    ∀ c ∈ apply j cs selected, c.Plain ∧ Var.delta ∉ c.mentions := by
  intro c hc
  obtain ⟨p, hp, rfl⟩ := List.mem_map.mp hc
  have hj : p.1 ∈ j := List.mem_of_getElem? (List.mem_zipIdx_iff_getElem?.mp hp)
  split
  · exact ⟨trivial, fun hm => delta _ hj (p.1.lhs_subset_mentions hm)⟩
  · exact ⟨plain _ hj, delta _ hj⟩

theorem map_lhs_apply (j : Join) (cs : List Support) (selected : List Nat) :
    (apply j cs selected).map Clause.lhs = j.map Clause.lhs := by
  unfold apply
  rw [List.map_map]
  conv_rhs => rw [← List.zipIdx_map_fst 0 j, List.map_map]
  refine List.map_congr_left fun p _ => ?_
  dsimp only [Function.comp]
  split <;> rfl

end Demand

theorem DemandPlan.ofJoin_eq_ok {query : String} {j : Join} {filters : Bool} {estimate : Estimator}
    {plan : DemandPlan} (h : DemandPlan.ofJoin query j filters estimate = .ok plan) :
    ∃ cs, Demand.supportsFrom query filters 0 [] j = .ok cs ∧
      Demand.select query j cs estimate = .ok plan.selected ∧
      plan.supports = Demand.prune cs plan.selected ∧
      plan.join = Demand.apply j plan.supports plan.selected := by
  obtain ⟨cs, hcs, h⟩ := bind_eq_ok.mp h
  obtain ⟨selected, hselected, h⟩ := bind_eq_ok.mp h
  cases h
  exact ⟨cs, hcs, hselected, rfl, rfl⟩

end ViewUpkeep
