import ViewUpkeep.Proofs.Requests

/-!
Exact relations. The assumption that occurrences of a relation contribute different rows can be
wrong, and the counts of a query that makes it with it. All other relations count what they should,
whatever their neighbours do: the results of queries that make no such assumption, and all demand
sets, tags and filters, since no support reads a relation twice.
-/
namespace ViewUpkeep

theorem Join.length_occurrences (j : Join) (rel : String) :
    (j.occurrences rel).length = (j.filterMap Clause.rel?).count rel := by
  unfold occurrences
  rw [List.length_map, List.count_filterMap, ← List.countP_eq_length_filter]
  have hmap : j.countP (fun c => c.rel? == some rel) =
      j.zipIdx.countP fun p => p.1.rel? == some rel := by
    conv_lhs => rw [← List.zipIdx_map_fst 0 j]
    rw [List.countP_map]
    rfl
  rw [hmap]
  exact List.countP_congr fun p _ => by simp

theorem Join.occurrences_le_one {j : Join} (h : (j.filterMap Clause.rel?).Nodup) (rel : String) :
    (j.occurrences rel).length ≤ 1 := by
  rw [length_occurrences]
  exact List.nodup_iff_count_le_one.mp h rel

namespace Demand

variable {query : String} {filters : Bool}

theorem rels_tagClauses (query : String) (vs : List Var) :
    (tagClauses query vs).filterMap Clause.rel? = vs.map (tagName query) := by
  induction vs with
  | nil => rfl
  | cons v vs ih =>
    rw [tagClauses, List.map_cons, List.map_cons, ← ih]
    rfl

theorem nodup_rels_tagClauses {vs : List Var} (h : vs.Nodup) :
    ((tagClauses query vs).filterMap Clause.rel?).Nodup := by
  rw [rels_tagClauses]
  exact h.map_on fun v _ w _ hvw => tagName_inj hvw

theorem nodup_rels_concat {vs : List Var} (h : vs.Nodup) {c : Clause}
    (hc : ∀ rel, c.rel? = some rel → ∀ v, rel ≠ tagName query v) :
    ((tagClauses query vs ++ [c]).filterMap Clause.rel?).Nodup := by
  rw [List.filterMap_append, List.nodup_append]
  refine ⟨nodup_rels_tagClauses h, ?_, ?_⟩
  · cases hrel : c.rel? <;> simp [hrel]
  · intro a ha b hb
    rw [rels_tagClauses] at ha
    obtain ⟨v, _, rfl⟩ := List.mem_map.mp ha
    obtain ⟨d, hd, hrel⟩ := List.mem_filterMap.mp hb
    rw [List.mem_singleton.mp hd] at hrel
    exact (hc b hrel v).symm

theorem supportsFrom_once {j : Join} {cs : List Support}
    (apart : ∀ c ∈ j, ∀ rel, c.rel? = some rel → ∀ v, rel ≠ tagName query v)
    (h : supportsFrom query filters 0 [] j = .ok cs) :
    ∀ s ∈ cs, (s.spec.join.filterMap Clause.rel?).Nodup := by
  intro s hs
  obtain ⟨pre, c, post, guard, hj, hguard, hmade⟩ := mem_supportsFrom h hs
  have hc := apart c (by simp [hj])
  have hsingle : ∀ d : Clause, ([d].filterMap Clause.rel?).Nodup := by
    intro d
    cases hrel : d.rel? <;> simp [hrel]
  rcases hmade with hmade | ⟨v, _, rfl⟩
  · cases guardOf_guards hguard s hmade with
    | entry => exact nodup_rels_tagClauses (nodup_eraseDups _)
    | filter => exact nodup_rels_concat ((nodup_eraseDups _).filter _) hc
  · show ((tagSource c guard).filterMap Clause.rel?).Nodup
    cases guard with
    | none =>
      cases c with
      | demand => cases (guardOf_demand hguard).2
      | _ => exact hsingle _
    | some g =>
      cases guardOf_guards hguard g rfl with
      | entry => exact nodup_rels_concat (nodup_eraseDups _) hc
      | filter _ _ hform =>
        rcases hform with hform | ⟨n, hform⟩ <;> rw [hform] <;> exact hsingle _

end Demand

namespace Compile.Built

variable {o : Options} {d : Declarations} {p : Program} {q : CompiledQuery}

theorem source_apart (built : Built o d p) (sound : d.Sound) (hq : q ∈ p.queries) :
    ∀ c ∈ q.source, ∀ rel, c.rel? = some rel → ∀ v, rel ≠ Demand.tagName q.name v := by
  intro c hc rel hrel v
  obtain ⟨earlier, later, hsplit, decl, hdecl, _, hcompiled⟩ := built.mem_compiled hq
  rcases mem_source hc with hc | ⟨_, rfl⟩
  · have hscoped := (Lowering.query_lowered (sound.queries decl hdecl) hcompiled.spec).inScope c hc
    have hident : IsIdentifier rel := by
      rcases hscoped.rel_mem hrel with hbase | hquery
      · exact sound.names rel (List.mem_append_left _ hbase)
      · obtain ⟨r, hr, rfl⟩ := List.mem_map.mp hquery
        exact (built.query_name sound (by simp [hsplit, hr])).1
    exact Demand.ne_of_owned_dot hident (Demand.toList_tagName q.name v)
  · cases hrel
    exact Demand.setName_ne_tagName v

theorem support_exact (built : Built o d p) (sound : d.Sound) (hq : q ∈ p.queries) {s : Support}
    (hs : s ∈ q.supports) (strategy : SelfJoin) : (s.view strategy).Exact := by
  right
  obtain ⟨_, _, _, _, _, _, hcompiled⟩ := built.mem_compiled hq
  rcases hcompiled.kept with unkept | ⟨plan, kept⟩
  · rw [unkept.supports] at hs
    cases hs
  · obtain ⟨cs, hcs, _, hsupports, _⟩ := DemandPlan.ofJoin_eq_ok kept.planned
    rw [kept.supports, hsupports] at hs
    exact Join.occurrences_le_one (Demand.supportsFrom_once (built.source_apart sound hq) hcs s
      ((Demand.prune_pruned cs _).sublist.subset hs))

end Compile.Built

/-- A derived relation to which only exact views write. -/
def Program.Tracked (p : Program) (d : Declarations) (rel : String) : Prop :=
  rel ∉ d.relations.map (·.name) ∧ ∀ v ∈ p.writers rel, v.Exact

namespace Compile.Built

variable {o : Options} {d : Declarations} {p : Program} {q : CompiledQuery}

theorem own_tracked (built : Built o d p) (sound : d.Sound) (hq : q ∈ p.queries) {v : View}
    (hv : v ∈ q.ownViews) (exact : v.Exact) : p.Tracked d v.target := by
  refine ⟨(built.own_target sound hq hv).1, fun w hw => ?_⟩
  rw [built.own_writers sound hq hv] at hw
  split at hw
  · rw [List.mem_singleton.mp hw]
    exact exact
  · cases hw

theorem set_tracked (built : Built o d p) (sound : d.Sound) (hq : q ∈ p.queries) {set : String}
    (hset : q.demandSet = some set) : p.Tracked d set := by
  refine ⟨built.demandSet_not_base sound hq hset, fun v hv => ?_⟩
  obtain ⟨hv, hcond⟩ := List.mem_filter.mp hv
  have htarget : v.target = set := by simpa using (Bool.and_eq_true_iff.mp hcond).1
  obtain ⟨r, hr, hvr⟩ := List.mem_flatMap.mp hv
  rcases List.mem_append.mp (r.views_perm.mem_iff.mp hvr) with hown | hentry
  · refine absurd ?_ (built.own_target sound hr hown).2
    rw [htarget]
    exact List.mem_flatMap.mpr ⟨q, hq, by simp [hset]⟩
  · obtain ⟨e, he, rfl⟩ := List.mem_map.mp hentry
    exact built.support_exact sound hr (List.mem_filter.mp he).1 _

end Compile.Built

namespace Session

variable {o : Compile.Options} {d : Declarations} {p : Program} {s t : Session} {u : Update}

def Exact (d : Declarations) (p : Program) (s : Session) : Prop :=
  s.BalancedOn (p.Tracked d) (s.outside d fun _ _ => 0) .add []

theorem ofProgram_exact (built : Compile.Built o d p) (sound : d.Sound) :
    (ofProgram p).Exact d p := by
  obtain ⟨hsound, _, hcount⟩ := Store.declared (built.nodup_catalog sound) p.indices
  have houtside : (ofProgram p).outside d (fun _ _ => 0) = fun _ _ => 0 := by
    funext rel row
    unfold outside
    split
    · rfl
    · cases List.find? _ _ <;> rfl
  have hempty : ∀ rel row, ¬ (ofProgram p).store.Has rel row := by
    intro rel row hhas
    have hpos := (hsound.count_pos_iff rel row).mpr hhas
    rw [hcount] at hpos
    cases hpos
  refine ⟨by simp, fun rel _ row => ?_⟩
  have hneed : (ofProgram p).program.need (ofProgram p).store.Has (fun _ _ => 0) rel row = 0 :=
    need_eq_zero (built.handled sound) hempty rel row
  rw [houtside, hneed]
  simp only [List.count_nil, Nat.cast_zero, add_zero]
  exact_mod_cast hcount rel row

/-- While what is asked for is pending, tracked relations still lack what it will bring. -/
theorem Exact.asks (h : s.Exact d p) (formed : s.Formed p) (built : Compile.Built o d p)
    (sound : d.Sound) (hasks : s.Asks t u) :
    t.BalancedOn (p.Tracked d) (t.outside d fun _ _ => 0) u.change [u] := by
  cases hasks with
  | base hbase =>
    obtain ⟨⟨hinfo, horigin⟩, hname, _⟩ := baseInfo_eq_ok hbase
    rw [formed.program] at hinfo
    have hrel : u.rel ∈ d.relations.map (·.name) :=
      hname ▸ List.mem_map_of_mem ((built.base_iff sound _).mp ⟨hinfo, horigin⟩)
    have hne : ∀ rel, p.Tracked d rel → ∀ row, ¬ (rel = u.rel ∧ row = u.row) :=
      fun rel htracked row h => htracked.1 (h.1 ▸ hrel)
    refine h.pending (fun _ rel htracked row => ?_) fun _ rel htracked row => ?_ <;>
      rw [if_neg (hne rel htracked row), Nat.add_zero]
  | @demand query set params htarget =>
    obtain ⟨q, hq, rfl, hset, _⟩ := demandTarget_eq_ok htarget
    rw [formed.program] at hq
    have shifts := shifts_setDemand (u := ⟨set, .add, params⟩) built sound formed.program
      (fun _ _ => 0) hq hset (fun _ => rfl) nofun
    have hpending := h.pending (fun hu rel _ => shifts.added hu rel)
      fun hu rel _ => shifts.removed hu rel
    exact ⟨hpending.signs, hpending.sums⟩
  | @undemand query set params n htarget hcount =>
    obtain ⟨q, hq, rfl, hset, _⟩ := demandTarget_eq_ok htarget
    rw [formed.program] at hq
    have shifts := shifts_setDemand (u := ⟨set, .remove, params⟩) built sound formed.program
      (fun _ _ => 0) hq hset nofun (fun _ => hcount)
    have hpending := h.pending (fun hu rel _ => shifts.added hu rel)
      fun hu rel _ => shifts.removed hu rel
    exact ⟨hpending.signs, hpending.sums⟩

theorem Exact.run (h : s.Exact d p) (formed : s.Formed p) (built : Compile.Built o d p)
    (sound : d.Sound) (hasks : s.Asks t u) {n : Nat} {t' : Session}
    (hrun : propagate n t [u] = (t', .ok ())) : Frame t t' ∧ t'.Exact d p := by
  have formed' := formed.of_asks hasks
  obtain ⟨frame, _, hbalanced⟩ := propagate_balancedOn (formed'.program ▸ built.handled sound)
    (fun rel htracked => formed'.program ▸ htracked.2) formed'.sound
    (formed'.nodup (built.nodup_catalog sound)) (h.asks formed built sound hasks) hrun
  exact ⟨frame, by simp, frame.outside_eq d _ ▸ hbalanced.sums⟩

theorem exact_keptByChanges (built : Compile.Built o d p) (sound : d.Sound) :
    KeptByChanges p (Exact d p) := by
  intro s t t' u formed hexact hasks hchange
  obtain ⟨n, hrun⟩ := propagate_of_change hchange
  exact (hexact.run formed built sound hasks hrun).2

/-- Whatever was done, tracked relations count what they should until the session is poisoned. -/
theorem after_exact (built : Compile.Built o d p) (sound : d.Sound) (ops : List Op) :
    ((ofProgram p).after ops).poisoned = true ∨
      ((ofProgram p).after ops).Formed p ∧ ((ofProgram p).after ops).Exact d p :=
  (exact_keptByChanges built sound).after (built.nodup_catalog sound)
    (ofProgram_exact built sound) ops

theorem Exact.count_eq (h : s.Exact d p) {rel : String} (htracked : p.Tracked d rel) (row : Row) :
    (s.store.count rel row : ℕ∞) =
      s.program.need s.store.Has (s.outside d fun _ _ => 0) rel row := by
  simpa using h.sums rel htracked row

end Session

end ViewUpkeep
