import ViewUpkeep.Proofs.Relation
import ViewUpkeep.Proofs.Satisfaction

/-!
Searching for environments. Running code and evaluating a query from scratch both go through the
clauses one by one and extend an environment in every possible way. The result of such a search is
described once, whoever searches: the environments found satisfy the clauses, each way to satisfy
them is found, and no way is found twice.
-/
namespace ViewUpkeep

theorem exists_finite_val {α : Type} {P : α → Prop} {l : List α} (nodup : l.Nodup)
    (h : ∀ a, a ∈ l ↔ P a) : ∃ hfin : {a | P a}.Finite, hfin.toFinset.val = l := by
  have hfin : {a | P a}.Finite := l.finite_toSet.subset fun a ha => (h a).mpr ha
  refine ⟨hfin, ?_⟩
  apply (hfin.toFinset.nodup.ext (Multiset.coe_nodup.mpr nodup)).mpr
  intro a
  rw [Finset.mem_val, Set.Finite.mem_toFinset, Set.mem_ofPred_eq, Multiset.mem_coe, h]

/-- All ways to extend an environment by some variables so that a condition holds. -/
structure Solutions (P : Env → Prop) (vs : List Var) (env : Env) (found : List Env) : Prop where
  within : ∀ e ∈ found, env.Within e
  binds : ∀ e ∈ found, ∀ v, (e.get? v).isSome = true ↔ (env.get? v).isSome = true ∨ v ∈ vs
  holds : ∀ e ∈ found, P e
  covers : ∀ other, env.Within other → P other → ∃ e ∈ found, e.Within other
  apart : found.Pairwise fun a b => ∀ other, a.Within other → ¬ b.Within other

namespace Solutions

variable {P Q : Env → Prop} {vs ws : List Var} {env : Env} {found : List Env}

theorem congr (s : Solutions P vs env found) (h : ∀ e, env.Within e → (P e ↔ Q e)) :
    Solutions Q vs env found where
  within := s.within
  binds := s.binds
  holds e he := (h e (s.within e he)).mp (s.holds e he)
  covers other hw hq := s.covers other hw ((h other hw).mpr hq)
  apart := s.apart

theorem of_vars (s : Solutions P vs env found)
    (h : ∀ v, ¬ (env.get? v).isSome = true → (v ∈ vs ↔ v ∈ ws)) : Solutions P ws env found where
  within := s.within
  binds e he v := by rw [s.binds e he v, or_congr_right' (h v)]
  holds := s.holds
  covers := s.covers
  apart := s.apart

theorem none (env : Env) : Solutions (fun _ => True) [] env [env] where
  within e he := by rw [List.mem_singleton.mp he]; exact .refl _
  binds e he v := by rw [List.mem_singleton.mp he]; simp
  holds _ _ := trivial
  covers other hw _ := ⟨env, List.mem_singleton.mpr rfl, hw⟩
  apart := List.pairwise_singleton _ _

theorem test {b : Prop} [Decidable b] (h : ∀ other, env.Within other → (P other ↔ b)) :
    Solutions P [] env (if b then [env] else []) := by
  by_cases hb : b
  · rw [if_pos hb]
    exact (none env).congr fun e he => by simp [h e he, hb]
  · rw [if_neg hb]
    exact ⟨by simp, by simp, by simp, fun other hw hp => absurd ((h other hw).mp hp) hb, .nil⟩

theorem andThen {next : Env → List Env} (s : Solutions P vs env found)
    (mono : ∀ a b : Env, a.Within b → P a → P b)
    (t : ∀ e ∈ found, Solutions Q ws e (next e)) :
    Solutions (fun e => P e ∧ Q e) (vs ++ ws) env (found.flatMap next) where
  within e he := by
    obtain ⟨m, hm, he⟩ := List.mem_flatMap.mp he
    exact (s.within m hm).trans ((t m hm).within e he)
  binds e he v := by
    obtain ⟨m, hm, he⟩ := List.mem_flatMap.mp he
    rw [(t m hm).binds e he v, s.binds m hm v, List.mem_append, or_assoc]
  holds e he := by
    obtain ⟨m, hm, he⟩ := List.mem_flatMap.mp he
    exact ⟨mono m e ((t m hm).within e he) (s.holds m hm), (t m hm).holds e he⟩
  covers other hw hpq := by
    obtain ⟨m, hm, hin⟩ := s.covers other hw hpq.1
    obtain ⟨e, he, hin⟩ := (t m hm).covers other hin hpq.2
    exact ⟨e, List.mem_flatMap.mpr ⟨m, hm, he⟩, hin⟩
  apart := by
    rw [List.pairwise_flatMap]
    refine ⟨fun m hm => (t m hm).apart, ?_⟩
    refine s.apart.imp_of_mem ?_
    intro a b ha hb hab x hx y hy other hxo hyo
    exact hab other (((t a ha).within x hx).trans hxo) (((t b hb).within y hy).trans hyo)

theorem pattern {rows : List Row} (nodup : rows.Nodup) (lhs : List Var) (env : Env) :
    Solutions (fun e => ∃ row, e.Reads lhs row ∧ row ∈ rows) lhs env
      (rows.filterMap (env.extend? lhs)) where
  within e he := by
    obtain ⟨row, _, hx⟩ := List.mem_filterMap.mp he
    exact (Env.extend?_eq_some hx).1
  binds e he := by
    obtain ⟨row, _, hx⟩ := List.mem_filterMap.mp he
    exact (Env.extend?_eq_some hx).2.2
  holds e he := by
    obtain ⟨row, hrow, hx⟩ := List.mem_filterMap.mp he
    exact ⟨row, (Env.extend?_eq_some hx).2.1, hrow⟩
  covers other hw hp := by
    obtain ⟨row, hr, hrow⟩ := hp
    obtain ⟨e, he, hin⟩ := Env.exists_extend? hw hr
    exact ⟨e, List.mem_filterMap.mpr ⟨row, hrow, he⟩, hin⟩
  apart := by
    rw [List.pairwise_filterMap]
    refine nodup.imp ?_
    intro a b hab x hx y hy other hxo hyo
    have hxr := (Env.extend?_eq_some hx).2.1.mono hxo
    have hyr := (Env.extend?_eq_some hy).2.1.mono hyo
    exact hab (hxr.unique hyr)

theorem pattern_of_perm {rows some : List Row} (nodup : rows.Nodup) {lhs : List Var}
    {p : Row → Bool} (h : some.Perm (rows.filter p))
    (fits : ∀ other row, env.Within other → other.Reads lhs row → p row = true) :
    Solutions (fun e => ∃ row, e.Reads lhs row ∧ row ∈ rows) lhs env
      (some.filterMap (env.extend? lhs)) := by
  have hn : some.Nodup := h.nodup_iff.mpr (nodup.filter p)
  refine (pattern hn lhs env).congr ?_
  intro e hw
  refine exists_congr fun row => and_congr_right fun hr => ?_
  rw [h.mem_iff, List.mem_filter]
  exact and_iff_left (fits e row hw hr)

theorem bind {expr : Expr} {row : Row} (he : expr.eval env = .ok (.tuple row)) (lhs : List Var) :
    Solutions (fun e => ∃ row, e.Reads lhs row ∧ expr.eval e = .ok (.tuple row)) lhs env
      (env.extend? lhs row).toList := by
  have hs := pattern (List.nodup_singleton row) lhs env
  have hl : (env.extend? lhs row).toList = [row].filterMap (env.extend? lhs) := by
    cases hx : env.extend? lhs row <;> simp [hx]
  rw [hl]
  refine hs.congr ?_
  intro e hw
  refine exists_congr fun r => and_congr_right fun _ => ?_
  rw [Expr.eval_mono hw expr he, List.mem_singleton]
  simp [eq_comm]

theorem filter (s : Solutions P vs env found) (p : Env → Bool)
    (h : ∀ e ∈ found, ∀ other, e.Within other → (Q other ↔ p e = true)) :
    Solutions (fun e => P e ∧ Q e) vs env (found.filter p) where
  within e he := s.within e (List.mem_filter.mp he).1
  binds e he := s.binds e (List.mem_filter.mp he).1
  holds e he := by
    obtain ⟨hm, hp⟩ := List.mem_filter.mp he
    exact ⟨s.holds e hm, (h e hm e (.refl e)).mpr hp⟩
  covers other hw hpq := by
    obtain ⟨e, he, hin⟩ := s.covers other hw hpq.1
    exact ⟨e, List.mem_filter.mpr ⟨he, (h e he other hin).mp hpq.2⟩, hin⟩
  apart := s.apart.sublist List.filter_sublist

theorem either {found' : List Env} (s : Solutions P vs env found) (t : Solutions Q vs env found')
    (monoP : ∀ a b : Env, a.Within b → P a → P b) (monoQ : ∀ a b : Env, a.Within b → Q a → Q b)
    (disjoint : ∀ other, env.Within other → P other → ¬ Q other) :
    Solutions (fun e => P e ∨ Q e) vs env (found ++ found') where
  within e he := (List.mem_append.mp he).elim (s.within e) (t.within e)
  binds e he := (List.mem_append.mp he).elim (s.binds e) (t.binds e)
  holds e he := (List.mem_append.mp he).elim (fun h => .inl (s.holds e h)) fun h =>
    .inr (t.holds e h)
  covers other hw hpq := by
    rcases hpq with hp | hq
    · obtain ⟨e, he, hin⟩ := s.covers other hw hp
      exact ⟨e, List.mem_append_left _ he, hin⟩
    · obtain ⟨e, he, hin⟩ := t.covers other hw hq
      exact ⟨e, List.mem_append_right _ he, hin⟩
  apart := by
    refine List.pairwise_append.mpr ⟨s.apart, t.apart, ?_⟩
    intro a ha b hb other hao hbo
    exact disjoint other ((s.within a ha).trans hao) (monoP a other hao (s.holds a ha))
      (monoQ b other hbo (t.holds b hb))

/-- The environments found, as rows of values for the variables that they bind. A variable may have
been bound before; it then keeps its value. -/
theorem exists_bindings (s : Solutions P vs env found) (mono : ∀ a b : Env, a.Within b → P a → P b)
    (nodup : ws.Nodup) (hws : ∀ v, v ∈ ws ↔ v ∈ vs) :
    ∃ row : Env → Row, (found.map row).Nodup ∧
      (∀ b, b ∈ found.map row ↔
        b.length = ws.length ∧ env.Within (ws.zip b ++ env) ∧ P (ws.zip b ++ env)) ∧
      ∀ e ∈ found, ∀ v, e.get? v = Env.get? (ws.zip (row e) ++ env) v := by
  have hreads : ∀ e ∈ found, ∃ b, e.Reads ws b := by
    intro e he
    refine Env.Binds.exists_reads fun v hv => ?_
    exact (s.binds e he v).mpr (.inr ((hws v).mp hv))
  choose! row hrow using hreads
  have hsame : ∀ e ∈ found, ∀ v, e.get? v = Env.get? (ws.zip (row e) ++ env) v := by
    intro e he v
    by_cases hv : v ∈ ws
    · exact (hrow e he).get?_eq (Env.reads_zip_append nodup (hrow e he).length env) hv
    · rw [Env.get?_zip_append hv]
      cases hx : env.get? v with
      | some x => exact s.within e he v x hx
      | none =>
        rw [← Option.not_isSome_iff_eq_none, s.binds e he v, hx]
        simpa [← hws v] using hv
  have hwithin : ∀ e ∈ found, e.Within (ws.zip (row e) ++ env) :=
    fun e he v x hv => (hsame e he v).symm.trans hv
  refine ⟨row, ?_, ?_, hsame⟩
  · refine List.pairwise_map.mpr (s.apart.imp_of_mem ?_)
    intro a b ha hb hab heq
    exact hab (ws.zip (row a) ++ env) (hwithin a ha) (heq ▸ hwithin b hb)
  · intro b
    constructor
    · intro hb
      obtain ⟨e, he, rfl⟩ := List.mem_map.mp hb
      exact ⟨(hrow e he).length, (s.within e he).trans (hwithin e he),
        mono e _ (hwithin e he) (s.holds e he)⟩
    · rintro ⟨hlen, hw, hp⟩
      obtain ⟨e, he, hin⟩ := s.covers _ hw hp
      refine List.mem_map.mpr ⟨e, he, ?_⟩
      exact ((hrow e he).mono hin).unique (Env.reads_zip_append nodup hlen env)

theorem exists_rows (s : Solutions P vs env found) (mono : ∀ a b : Env, a.Within b → P a → P b)
    (nodup : ws.Nodup) (hws : ∀ v, v ∈ ws ↔ v ∈ vs) (free : ∀ v ∈ ws, env.get? v = Option.none) :
    ∃ row : Env → Row, (found.map row).Nodup ∧
      (∀ b, b ∈ found.map row ↔ b.length = ws.length ∧ P (ws.zip b ++ env)) ∧
      ∀ e ∈ found, ∀ v, e.get? v = Env.get? (ws.zip (row e) ++ env) v := by
  obtain ⟨row, hnodup, hmem, hsame⟩ := s.exists_bindings mono nodup hws
  have hw : ∀ b, env.Within (ws.zip b ++ env) := by
    intro b v x hv
    rw [Env.get?_zip_append]
    · exact hv
    · intro hm
      rw [free v hm] at hv
      cases hv
  refine ⟨row, hnodup, fun b => ?_, hsame⟩
  rw [hmem, and_iff_right (hw b)]

end Solutions

end ViewUpkeep
