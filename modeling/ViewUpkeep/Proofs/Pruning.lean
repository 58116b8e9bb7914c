import ViewUpkeep.Proofs.DemandPlan

/-!
What pruning leaves. Supports are there for entries and for the filters of selected clauses; the
others are there to be read. Pruning drops what nobody reads until nothing changes, which by itself
would leave supports that read each other in a circle. There is no such circle: a support reads tags
and filters that come before it. So exactly those are left that an entry or a selected filter reads,
directly or through others.
-/
namespace ViewUpkeep

namespace Support

theorem isFilter_or_isTag (s : Support) (h : s.isEntry = false) :
    s.isFilter = true ∨ s.isTag = true := by
  cases hkind : s.kind with
  | tag v => exact .inr (by simp [isTag, hkind])
  | filter => exact .inl (by simp [isFilter, hkind])
  | entry subquery => simp [isEntry, hkind] at h

theorem reads_iff {s : Support} {rel : String} :
    s.reads rel = true ↔ ∃ c ∈ s.spec.join, c.rel? = some rel := by
  rw [← Join.mem_rels]
  simp [reads]

end Support

namespace Demand

variable {query : String} {filters : Bool} {i : Nat} {tagged : List Var} {c : Clause} {j : Join}
  {guard : Option Support} {cs kept : List Support} {selected : List Nat} {s t : Support}

/-- A support that is needed: an entry, the filter of a selected clause, or what another needed
support reads. -/
inductive Live (cs : List Support) (selected : List Nat) : Support → Prop where
  | entry {s : Support} : s ∈ cs → s.isEntry = true → Live cs selected s
  | filter {s : Support} : s ∈ cs → s.isFilter = true → s.clause ∈ selected → Live cs selected s
  | read {s t : Support} : Live cs selected t → s ∈ cs → t.reads s.target = true →
    Live cs selected s

/-- Names without a dot, except that the first clause may range over the demand set of the query
itself. -/
structure Undotted (query : String) (j : Join) : Prop where
  owner : '.' ∉ query.toList
  subqueries : ∀ inner subquery params, .demand inner subquery params ∈ j → '.' ∉ subquery.toList
  rels : ∀ p ∈ j.zipIdx, ∀ rel ∈ p.1.rel?, '.' ∉ rel.toList ∨ p.2 = 0 ∧ rel = setName query

def Foreign (query rel : String) : Prop :=
  (∀ v, rel ≠ tagName query v) ∧ ∀ i other, rel ≠ filterName query i other

theorem foreign_of_notMem {rel : String} (h : '.' ∉ rel.toList) : Foreign query rel := by
  constructor
  · rintro v rfl
    exact h (by simp [toList_tagName])
  · rintro i other rfl
    exact h (by simp [toList_filterName])

theorem foreign_setName : Foreign query (setName query) :=
  ⟨setName_ne_tagName, setName_ne_filterName⟩

theorem Undotted.foreign (names : Undotted query j) :
    ∀ c ∈ j, ∀ rel ∈ c.rel?, Foreign query rel := by
  intro c hc rel hrel
  obtain ⟨i, hi⟩ := List.getElem?_of_mem hc
  rcases names.rels (c, i) (List.mem_zipIdx_iff_getElem?.mpr hi) rel hrel with hdot | ⟨_, rfl⟩
  · exact foreign_of_notMem hdot
  · exact foreign_setName

theorem setName_ne_tagName_of_notMem {subquery : String} (hs : '.' ∉ subquery.toList)
    (hq : '.' ∉ query.toList) (v : Var) : setName subquery ≠ tagName query v := by
  intro h
  have howned : Owned subquery (tagName query v) := h ▸ owned_setName subquery
  have hsame : subquery = query := String.toList_inj.mp
    ((takeWhile_owned hs howned).symm.trans (takeWhile_owned hq (owned_tagName query v)))
  exact setName_ne_tagName v (hsame ▸ h)

/-! ### What a support reads -/

def OfClause (query : String) (tagged : List Var) (i : Nat) (c : Clause) (guard : Option Support)
    (s : Support) : Prop :=
  s ∈ guard ∨ ∃ v ∈ newTags tagged c, s = tagOf query i (tagSource c guard) v

theorem rel_of_mem_tagClauses {vs : List Var} {d : Clause} {rel : String}
    (hd : d ∈ tagClauses query vs) (hrel : d.rel? = some rel) :
    ∃ v ∈ vs, rel = tagName query v := by
  obtain ⟨v, hv, rfl⟩ := List.mem_map.mp hd
  exact ⟨v, hv, (Option.some.inj hrel).symm⟩

theorem Guards.reads {g : Support} (h : Guards query filters tagged i c g) {rel : String}
    (hread : g.reads rel = true) : (∃ v ∈ tagged, rel = tagName query v) ∨ c.rel? = some rel := by
  obtain ⟨d, hd, hrel⟩ := Support.reads_iff.mp hread
  cases h with
  | entry hparams =>
    obtain ⟨v, hv, rfl⟩ := rel_of_mem_tagClauses hd hrel
    exact .inl ⟨v, hparams v (List.mem_eraseDups.mp hv), rfl⟩
  | filter =>
    rcases List.mem_append.mp hd with hd | hd
    · obtain ⟨v, hv, rfl⟩ := rel_of_mem_tagClauses hd hrel
      exact .inl ⟨v, by simpa using (List.mem_filter.mp hv).2, rfl⟩
    · exact .inr (List.mem_singleton.mp hd ▸ hrel)

theorem rel_of_mem_tagSource_none {d : Clause} (hd : d ∈ tagSource c none) : d.rel? = c.rel? := by
  cases c with
  | demand inner subquery params => rw [List.mem_singleton.mp hd, Clause.rel?]
  | _ => rw [List.mem_singleton.mp hd]

theorem rel_of_mem_tagSource (hguard : guardOf query filters tagged i c = .ok guard) {d : Clause}
    (hd : d ∈ tagSource c guard) {rel : String} (hrel : d.rel? = some rel) :
    (∃ v ∈ tagged, rel = tagName query v) ∨ (∃ other, rel = filterName query i other) ∨
      c.rel? = some rel := by
  cases guard with
  | none => exact .inr (.inr (rel_of_mem_tagSource_none hd ▸ hrel))
  | some g =>
    cases guardOf_guards hguard g rfl with
    | @entry inner subquery params hparams =>
      rcases List.mem_append.mp hd with hd | hd
      · obtain ⟨v, hv, rfl⟩ := rel_of_mem_tagClauses hd hrel
        exact .inl ⟨v, hparams v (List.mem_eraseDups.mp hv), rfl⟩
      · exact .inr (.inr (List.mem_singleton.mp hd ▸ hrel))
    | @filter _ other _ _ hc _ =>
      have hsource : tagSource c (some ⟨.filter, i, filterName query i other,
          ⟨tagClauses query (c.lhs.eraseDups.filter fun v => tagged.contains v) ++ [c],
            .tupleOf c.lhs, []⟩⟩) = [c.onRelation (filterName query i other)] := by
        rcases hc with hc | ⟨n, hc⟩ <;> rw [hc] <;> rfl
      rw [hsource] at hd
      rw [List.mem_singleton.mp hd] at hrel
      exact .inr (.inl ⟨other, (Option.some.inj hrel).symm⟩)

/-- A support reads no tag that comes with its clause or later, and only tags read filters, namely
that of their clause. -/
theorem OfClause.reads_eq_false (hs : OfClause query tagged i c guard s)
    (hguard : guardOf query filters tagged i c = .ok guard)
    (foreign : ∀ rel ∈ c.rel?, Foreign query rel) {target : String}
    (htarget : (∃ v, target = tagName query v ∧ v ∉ tagged) ∨
      ∃ k other, target = filterName query k other ∧ (s.isTag = true → k ≠ i)) :
    s.reads target = false := by
  refine Bool.eq_false_iff.mpr fun hread => ?_
  have hcases : (∃ v ∈ tagged, target = tagName query v) ∨
      (s.isTag = true ∧ ∃ other, target = filterName query i other) ∨ c.rel? = some target := by
    rcases hs with hs | ⟨v, _, rfl⟩
    · exact ((guardOf_guards hguard s hs).reads hread).imp_right .inr
    · obtain ⟨d, hd, hrel⟩ := Support.reads_iff.mp hread
      exact (rel_of_mem_tagSource hguard hd hrel).imp_right (Or.imp_left fun h => ⟨rfl, h⟩)
  rcases htarget with ⟨v, rfl, hv⟩ | ⟨k, other, rfl, hk⟩
  · rcases hcases with ⟨w, hw, he⟩ | ⟨_, other, he⟩ | hrel
    · exact hv (tagName_inj he ▸ hw)
    · exact tagName_ne_filterName v i other he
    · exact (foreign _ hrel).1 v rfl
  · rcases hcases with ⟨w, _, he⟩ | ⟨htag, _, he⟩ | hrel
    · exact tagName_ne_filterName w k other he.symm
    · exact hk htag (filterName_clause he)
    · exact (foreign _ hrel).2 k other rfl

theorem mem_ofClause
    (h : s ∈ guard.toList ++ (newTags tagged c).map (tagOf query i (tagSource c guard))) :
    OfClause query tagged i c guard s := by
  rcases List.mem_append.mp h with h | h
  · exact .inl (Option.mem_toList.mp h)
  · obtain ⟨v, hv, rfl⟩ := List.mem_map.mp h
    exact .inr ⟨v, hv, rfl⟩

theorem OfClause.reads_self (hs : OfClause query tagged i c guard s)
    (hguard : guardOf query filters tagged i c = .ok guard)
    (foreign : ∀ rel ∈ c.rel?, Foreign query rel) (hentry : s.isEntry = false) :
    s.reads s.target = false := by
  refine hs.reads_eq_false hguard foreign ?_
  rcases hs with hs | ⟨v, hv, rfl⟩
  · cases guardOf_guards hguard s hs with
    | entry => cases hentry
    | filter => exact .inr ⟨_, _, rfl, fun htag => by cases htag⟩
  · exact .inl ⟨v, rfl, (mem_newTags.mp hv).2.2⟩

theorem supportsFrom_reads_self (foreign : ∀ c ∈ j, ∀ rel ∈ c.rel?, Foreign query rel)
    (h : supportsFrom query filters i tagged j = .ok cs) :
    ∀ s ∈ cs, s.isEntry = false → s.reads s.target = false := by
  intro s hs
  obtain ⟨pre, c, post, guard, rfl, hguard, hs⟩ := mem_supportsFrom h hs
  exact OfClause.reads_self hs hguard (foreign c (by simp))

theorem supportsFrom_forward (foreign : ∀ c ∈ j, ∀ rel ∈ c.rel?, Foreign query rel)
    (h : supportsFrom query filters i tagged j = .ok cs) :
    cs.Pairwise fun s t => t.isEntry = false → s.reads t.target = false := by
  induction j generalizing i tagged cs with
  | nil =>
    cases h
    exact .nil
  | cons c rest ih =>
    obtain ⟨hc, hrest⟩ := List.forall_mem_cons.mp foreign
    obtain ⟨guard, later, hguard, hlater, rfl⟩ := supportsFrom_cons h
    have htags : ∀ s, OfClause query tagged i c guard s →
        ∀ t ∈ (newTags tagged c).map (tagOf query i (tagSource c guard)),
        t.isEntry = false → s.reads t.target = false := by
      intro s hs t ht _
      obtain ⟨v, hv, rfl⟩ := List.mem_map.mp ht
      exact hs.reads_eq_false hguard hc (.inl ⟨v, rfl, (mem_newTags.mp hv).2.2⟩)
    refine List.pairwise_append.mpr ⟨List.pairwise_append.mpr ⟨?_, ?_, ?_⟩, ih hrest hlater, ?_⟩
    · cases guard with
      | none => exact .nil
      | some g => exact List.pairwise_singleton _ _
    · refine List.pairwise_of_forall_mem_list fun s hs => ?_
      exact htags s (mem_ofClause (List.mem_append_right _ hs))
    · exact fun s hs => htags s (mem_ofClause (List.mem_append_left _ hs))
    · intro s hs t ht hentry
      refine (mem_ofClause hs).reads_eq_false hguard hc ?_
      obtain ⟨hle, _, ⟨v, _, hv, hnot⟩ | ⟨_, other, hother⟩ | ⟨subquery, hkind, _⟩⟩ :=
        supportsFrom_kinds hlater ht
      · exact .inl ⟨v, hv, fun hm => hnot (List.mem_append_left _ hm)⟩
      · exact .inr ⟨_, other, hother, fun _ => by omega⟩
      · simp [Support.isEntry, hkind] at hentry

theorem isTag_of_reads_filter (foreign : ∀ c ∈ j, ∀ rel ∈ c.rel?, Foreign query rel)
    (h : supportsFrom query filters i tagged j = .ok cs) (hs : s ∈ cs) (ht : t ∈ cs)
    (hfilter : s.isFilter = true) (hread : t.reads s.target = true) : t.isTag = true := by
  by_contra htag
  have hkind : s.kind = .filter := of_decide_eq_true hfilter
  obtain ⟨_, _, ⟨v, hv, _⟩ | ⟨_, other, hother⟩ | ⟨subquery, hk, _⟩⟩ := supportsFrom_kinds h hs
  · cases hkind.symm.trans hv
  · obtain ⟨pre, c, post, guard, rfl, hguard, ht⟩ := mem_supportsFrom h ht
    have hnot := OfClause.reads_eq_false ht hguard (foreign c (by simp))
      (.inr ⟨_, other, hother, fun h => absurd h htag⟩)
    exact Bool.eq_false_iff.mp hnot hread
  · cases hkind.symm.trans hk

theorem eq_of_target (h : supportsFrom query filters i tagged j = .ok cs) (hs : s ∈ cs)
    (ht : t ∈ cs) (hes : s.isEntry = false) (het : t.isEntry = false)
    (htarget : s.target = t.target) : s = t :=
  List.inj_on_of_nodup_map (supportsFrom_nodup h) (List.mem_filter.mpr ⟨hs, by simp [hes]⟩)
    (List.mem_filter.mpr ⟨ht, by simp [het]⟩) htarget

/-! ### The loop -/

theorem pruneUpTo_stable (selected : List Nat) (n : Nat) (cs : List Support)
    (hn : cs.length ≤ n) :
    pruneOnce selected (pruneUpTo selected n cs) = pruneUpTo selected n cs := by
  induction n generalizing cs with
  | zero =>
    rw [List.eq_nil_of_length_eq_zero (Nat.le_zero.mp hn)]
    rfl
  | succ n ih =>
    have hsub := pruneOnce_sublist selected cs
    unfold pruneUpTo
    dsimp only
    split
    · rename_i hlength
      rw [hsub.eq_of_length hlength, hsub.eq_of_length hlength]
    · rename_i hlength
      have := hsub.length_le
      exact ih _ (by omega)

theorem pruneOnce_prune (cs : List Support) (selected : List Nat) :
    pruneOnce selected (prune cs selected) = prune cs selected :=
  pruneUpTo_stable selected cs.length cs (Nat.le_refl _)

theorem exists_filter_prune (cs : List Support) (selected : List Nat) :
    ∃ p : Support → Bool, prune cs selected = cs.filter p := by
  have hall : ∀ n kept, (∃ p : Support → Bool, kept = cs.filter p) →
      ∃ p : Support → Bool, pruneUpTo selected n kept = cs.filter p := by
    intro n
    induction n with
    | zero => exact fun _ h => h
    | succ n ih =>
      rintro kept ⟨p, rfl⟩
      have honce : ∃ q : Support → Bool, pruneOnce selected (cs.filter p) = cs.filter q := by
        unfold pruneOnce
        simp only [List.filter_filter]
        exact ⟨_, rfl⟩
      unfold pruneUpTo
      dsimp only
      split
      · exact honce
      · exact ih _ honce
  exact hall cs.length cs ⟨fun _ => true, by simp⟩

theorem read_of_stable (h : pruneOnce selected kept = kept) (hs : s ∈ kept)
    (hentry : s.isEntry = false) :
    s.isFilter = true ∧ s.clause ∈ selected ∨ ∃ t ∈ kept, t.reads s.target = true := by
  unfold pruneOnce at h
  dsimp only at h
  have hfirst : (kept.filter fun s => !s.isFilter || selected.contains s.clause ||
      kept.any fun t => t.isTag && t.reads s.target) = kept := by
    refine List.filter_sublist.antisymm ?_
    nth_rewrite 1 [← h]
    exact List.filter_sublist
  rw [hfirst] at h
  rcases s.isFilter_or_isTag hentry with hfilter | htag
  · have hneed := List.filter_eq_self.mp hfirst s hs
    simp only [hfilter, Bool.not_true, Bool.false_or, Bool.or_eq_true, List.contains_iff_mem,
      List.any_eq_true, Bool.and_eq_true] at hneed
    exact hneed.imp (fun hsel => ⟨hfilter, hsel⟩) fun ⟨t, ht, _, hread⟩ => ⟨t, ht, hread⟩
  · have hneed := List.filter_eq_self.mp h s hs
    simp only [htag, Bool.not_true, Bool.false_or, List.any_eq_true, Bool.and_eq_true] at hneed
    obtain ⟨t, ht, _, hread⟩ := hneed
    exact .inr ⟨t, ht, hread⟩

/-! ### What is left -/

section

variable (foreign : ∀ c ∈ j, ∀ rel ∈ c.rel?, Foreign query rel)
  (h : supportsFrom query filters i tagged j = .ok cs)

include foreign h

/-- What is left where nothing more is dropped is needed. -/
theorem live_of_stable (hsub : kept.Sublist cs) (stable : pruneOnce selected kept = kept) :
    ∀ s ∈ kept, Live cs selected s := by
  have hforward := (supportsFrom_forward foreign h).sublist hsub
  -- From the last support to the first: whoever reads a support comes after it.
  suffices hfrom : ∀ post pre, kept = pre ++ post → ∀ s ∈ post, Live cs selected s from
    hfrom kept [] rfl
  intro post
  induction post with
  | nil => simp
  | cons s post ih =>
    intro pre hkept
    have hpost : ∀ t ∈ post, Live cs selected t := ih (pre ++ [s]) (by simp [hkept])
    refine List.forall_mem_cons.mpr ⟨?_, hpost⟩
    have hs : s ∈ kept := by simp [hkept]
    by_cases hentry : s.isEntry = true
    · exact .entry (hsub.subset hs) hentry
    · rw [Bool.not_eq_true] at hentry
      rcases read_of_stable stable hs hentry with ⟨hfilter, hsel⟩ | ⟨t, ht, hread⟩
      · exact .filter (hsub.subset hs) hfilter hsel
      · rw [hkept] at ht hforward
        rcases List.mem_append.mp ht with ht | ht
        · have hnot := (List.pairwise_append.mp hforward).2.2 t ht s List.mem_cons_self hentry
          exact absurd hread (Bool.eq_false_iff.mp hnot)
        · rcases List.mem_cons.mp ht with rfl | ht
          · have hnot := supportsFrom_reads_self foreign h t (hsub.subset hs) hentry
            exact absurd hread (Bool.eq_false_iff.mp hnot)
          · exact .read (hpost t ht) (hsub.subset hs) hread

theorem Pruned.mem_of_live (pruned : Pruned cs selected kept) (apart : Apart query cs)
    (live : Live cs selected s) : s ∈ kept := by
  induction live with
  | entry hs hentry => exact pruned.entries _ hs hentry
  | filter hs hfilter hsel => exact pruned.filters _ hs hfilter (.inl hsel)
  | @read s t _ hs hread ht =>
    have htcs := pruned.sublist.subset ht
    cases hentry : s.isEntry with
    | true => exact pruned.entries _ hs hentry
    | false =>
      rcases s.isFilter_or_isTag hentry with hfilter | htag
      · have htag := isTag_of_reads_filter foreign h hs htcs hfilter hread
        exact pruned.filters _ hs hfilter (.inr ⟨t, ht, htag, hread⟩)
      · refine pruned.tags _ hs htag ⟨t, ht, fun he => ?_, hread⟩
        cases hte : t.isEntry with
        | true =>
          obtain ⟨_, _, ⟨v, _, hv, _⟩ | ⟨hk, _⟩ | ⟨_, hk, _⟩⟩ := supportsFrom_kinds h hs
          · exact apart t htcs hte v (hv ▸ hread) (he.trans hv)
          · simp [Support.isTag, hk] at htag
          · simp [Support.isTag, hk] at htag
        | false =>
          have hsame := eq_of_target h htcs hs hte hentry he
          subst hsame
          exact Bool.eq_false_iff.mp (supportsFrom_reads_self foreign h t hs hentry) hread

theorem mem_of_apply_reads (hsub : kept.Sublist cs) (hs : s ∈ cs) (hentry : s.isEntry = false)
    (hread : s.target ∈ (apply j kept selected).rels) : s ∈ kept := by
  obtain ⟨d, hd, hrel⟩ := Join.mem_rels.mp hread
  obtain ⟨p, hp, rfl⟩ := List.mem_map.mp hd
  split at hrel
  · rename_i f hfind
    have hf := List.mem_of_find?_eq_some hfind
    have hfilter : f.isFilter = true := by
      have := List.find?_some hfind
      simp only [Bool.and_eq_true] at this
      exact this.1.1
    have hsame := eq_of_target h (hsub.subset hf) hs (f.isEntry_of_isFilter hfilter) hentry
      (Option.some.inj hrel)
    exact hsame ▸ hf
  · have hc : p.1 ∈ j := List.mem_of_getElem? (List.mem_zipIdx_iff_getElem?.mp hp)
    obtain ⟨htag, hfilter⟩ := foreign p.1 hc _ hrel
    obtain ⟨_, _, ⟨v, _, hv, _⟩ | ⟨_, other, hother⟩ | ⟨_, hk, _⟩⟩ := supportsFrom_kinds h hs
    · exact absurd hv (htag v)
    · exact absurd hother (hfilter _ other)
    · simp [Support.isEntry, hk] at hentry

end

theorem Undotted.apart (names : Undotted query j)
    (h : supportsFrom query filters 0 [] j = .ok cs) : Apart query cs :=
  apart_of_args h fun inner subquery params hc v _ =>
    setName_ne_tagName_of_notMem (names.subqueries inner subquery params hc) names.owner v

open Classical in
/-- Pruning leaves the supports that are needed, and no others, in their order; so every tag or
filter is left that a support that is left, or the join over the selected filters, reads. -/
theorem prune_eq_filter_live (names : Undotted query j) (h : candidates query j filters = .ok cs)
    (selected : List Nat) :
    prune cs selected = cs.filter (fun s => Live cs selected s) ∧
    ∀ s ∈ cs, s.isEntry = false →
      (∃ t ∈ prune cs selected, t.reads s.target = true) ∨
        s.target ∈ (apply j (prune cs selected) selected).rels →
      s ∈ prune cs selected := by
  have foreign := names.foreign
  have pruned := prune_pruned cs selected
  have hmem : ∀ s, s ∈ prune cs selected ↔ Live cs selected s := fun s =>
    ⟨live_of_stable foreign h pruned.sublist (pruneOnce_prune cs selected) s,
      pruned.mem_of_live foreign h (names.apart h)⟩
  constructor
  · obtain ⟨p, hp⟩ := exists_filter_prune cs selected
    rw [hp]
    refine List.filter_congr fun s hs => ?_
    rw [Bool.eq_iff_iff, decide_eq_true_eq, ← hmem s, hp, List.mem_filter]
    exact ⟨fun hps => ⟨hs, hps⟩, And.right⟩
  · rintro s hs hentry (⟨t, ht, hread⟩ | hread)
    · exact (hmem s).mpr (.read ((hmem t).mp ht) hs hread)
    · exact mem_of_apply_reads foreign h pruned.sublist hs hentry hread

def prunedSample : Join :=
  [.member [⟨"x"⟩, ⟨"y"⟩] "Q.U", .member [⟨"x"⟩, ⟨"z"⟩] "E", .mapMember [⟨"y"⟩, ⟨"w"⟩] "M" 1,
    .demand (.member [⟨"z"⟩, ⟨"k"⟩] "S") "S" [⟨"z"⟩]]

theorem prunedSample_undotted : Undotted "Q" prunedSample := by
  refine ⟨by decide, ?_, by decide⟩
  intro inner subquery params hc
  obtain rfl : subquery = "S" := by simp_all [prunedSample]
  decide

open Classical in
theorem prune_eq_filter_live_sample : Undotted "Q" prunedSample ∧
    ∃ cs, candidates "Q" prunedSample true = .ok cs ∧
      cs.map (·.target) =
        ["Q.T_x", "Q.T_y", "Q.F1_E", "Q.T_z", "Q.F2_M", "Q.T_w", "S.U", "Q.T_k"] ∧
      (prune cs [2]).map (·.target) = ["Q.T_x", "Q.T_y", "Q.F1_E", "Q.T_z", "Q.F2_M", "S.U"] ∧
      prune cs [2] = cs.filter (fun s => Live cs [2] s) := by
  have h : candidates "Q" prunedSample true = .ok _ := rfl
  exact ⟨prunedSample_undotted, _, h, rfl, rfl,
    (prune_eq_filter_live prunedSample_undotted h [2]).1⟩

end Demand

end ViewUpkeep
