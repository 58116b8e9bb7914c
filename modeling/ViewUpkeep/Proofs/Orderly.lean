import ViewUpkeep.Proofs.Maps
import ViewUpkeep.Proofs.Propagation
import ViewUpkeep.Proofs.Writers

/-!
Sessions in good order. The rows of base relations and the demands of the user come from outside;
all other counts follow from them, because the books are balanced. A change that keeps the base
relations tidy, or a demand that is noted, leads from a session in good order to another one, unless
it leaves the session poisoned, and it breaks no promise of a relation on the way.
-/
namespace ViewUpkeep

namespace Compile.Built

variable {o : Options} {d : Declarations} {p : Program} {q : CompiledQuery}

theorem base_iff (built : Built o d p) (sound : d.Sound) (info : RelationInfo) :
    info ∈ p.catalog ∧ info.origin.isBase = true ↔ info ∈ d.relations := by
  rw [built.catalog_eq sound, List.mem_append]
  constructor
  · rintro ⟨hinfo | hinfo, hbase⟩
    · exact hinfo
    · obtain ⟨q, _, hinfo⟩ := List.mem_flatMap.mp hinfo
      unfold CompiledQuery.relations at hinfo
      simp only [List.mem_append, List.mem_map, List.mem_filterMap] at hinfo
      rcases hinfo with (⟨_, _, rfl⟩ | ⟨_, _, rfl⟩) | ⟨s, _, hs⟩
      · cases hbase
      · cases hbase
      · split at hs <;> cases hs <;> cases hbase
  · intro hinfo
    exact ⟨.inl hinfo, by rw [(sound.relations info hinfo).origin]; rfl⟩

theorem demandSet_eq (built : Built o d p) (hq : q ∈ p.queries) {u : String}
    (hu : q.demandSet = some u) : u = Demand.setName q.name := by
  by_cases hdem : q.settings.mode = .dem
  · exact Option.some.inj (hu.symm.trans (built.demandSet_of_dem hq hdem))
  · cases hu.symm.trans (built.demandSet_of_not_dem hq hdem)

theorem find_demandSet (built : Built o d p) (hq : q ∈ p.queries) {u : String}
    (hu : q.demandSet = some u) : p.queries.find? (·.demandSet = some u) = some q := by
  cases hfind : p.queries.find? (·.demandSet = some u) with
  | none =>
    have hnone := List.find?_eq_none.mp hfind q hq
    simp [hu] at hnone
  | some r =>
    have hr := List.mem_of_find?_eq_some hfind
    have hru : r.demandSet = some u := by simpa using List.find?_some hfind
    have hname : r.name = q.name :=
      Demand.setName_injective ((built.demandSet_eq hr hru).symm.trans (built.demandSet_eq hq hu))
    rw [List.inj_on_of_nodup_map built.nodup_queries hr hq hname]

theorem demandSet_not_base (built : Built o d p) (sound : d.Sound) (hq : q ∈ p.queries) {u : String}
    (hu : q.demandSet = some u) : u ∉ d.relations.map (·.name) := by
  intro hm
  refine (List.nodup_append.mp (built.nodup_targets sound)).2.2 u hm u ?_ rfl
  exact List.mem_append_right _ (List.mem_flatMap.mpr ⟨q, hq, by simp [hu]⟩)

end Compile.Built

structure Tidy (d : Declarations) (base : String → Row → Nat) : Prop where
  once : ∀ info ∈ d.relations, ∀ row, base info.name row ≤ 1
  width : ∀ info ∈ d.relations, ∀ row, 0 < base info.name row → row.length = info.arity
  keyed : ∀ info ∈ d.relations, ∀ n, info.kind = .map n → ∀ row other,
    0 < base info.name row → 0 < base info.name other → row.take n = other.take n → row = other

namespace Session

/-- What a session is told from outside: rows of base relations, and demands. -/
def outside (d : Declarations) (base : String → Row → Nat) (s : Session)
    (rel : String) (row : Row) :
    Nat :=
  if rel ∈ d.relations.map (·.name) then base rel row
  else ((s.program.queries.find? (·.demandSet = some rel)).map fun q =>
    s.demandCount q.name row).getD 0

theorem Frame.outside_eq {s t : Session} (frame : Frame s t) (d : Declarations)
    (base : String → Row → Nat) : t.outside d base = s.outside d base := by
  funext rel row
  unfold outside demandCount
  rw [frame.program, frame.demands]

structure Arranged (d : Declarations) (p : Program) (base : String → Row → Nat) (s : Session) :
    Prop where
  program : s.program = p
  infos : s.store.infos = p.catalog
  sound : s.store.Sound
  keys : (s.demands.map Prod.fst).Nodup
  tidy : Tidy d base

structure Orderly (d : Declarations) (p : Program) (base : String → Row → Nat) (s : Session) : Prop
    extends Arranged d p base s where
  balanced : s.Balanced (s.outside d base) .add []

variable {o : Compile.Options} {d : Declarations} {p : Program} {base base' : String → Row → Nat}
  {s s' : Session}

/-! ### The beginning -/

theorem need_eq_zero {estimate : Estimator} (handled : p.Handled estimate) {facts : Facts}
    (hfacts : ∀ rel row, ¬ facts rel row) (rel : String) (row : Row) :
    p.need facts (fun _ _ => 0) rel row = 0 := by
  have hzero : ∀ v ∈ p.writers rel, v.spec.multiplicity facts row = 0 := by
    intro v hv
    obtain ⟨hv, hcond⟩ := List.mem_filter.mp hv
    have hne : v.spec.join.rels ≠ [] := by
      simpa [View.isLive] using (Bool.and_eq_true_iff.mp hcond).2
    obtain ⟨r, hr⟩ := List.exists_mem_of_ne_nil _ hne
    obtain ⟨c, hc, hrel⟩ := Join.mem_rels.mp hr
    refine Set.encard_eq_zero.mpr (Set.eq_empty_of_forall_notMem ?_)
    rintro b ⟨⟨_, holds⟩, _⟩
    obtain ⟨x, _, hx⟩ := (((handled.proper v hv).plain c hc).holds_iff hrel _ _).mp (holds c hc)
    exact hfacts r x hx
  unfold Program.need
  rw [List.map_congr_left hzero]
  simp

theorem ofProgram_orderly (built : Compile.Built o d p) (sound : d.Sound)
    (follows : p.Follows o.estimate) : (ofProgram p).Orderly d p fun _ _ => 0 := by
  obtain ⟨hsound, hinfos, hcount⟩ := Store.declared (built.nodup_catalog sound) p.indices
  have houtside : (ofProgram p).outside d (fun _ _ => 0) = fun _ _ => 0 := by
    funext rel row
    unfold outside
    split
    · rfl
    · cases List.find? _ _ <;> rfl
  refine ⟨⟨rfl, hinfos, hsound, List.nodup_nil, ?_⟩, ?_, ?_⟩
  · exact ⟨by simp, by simp, by simp⟩
  · simp
  · intro rel row
    have hempty : ∀ rel row, ¬ (ofProgram p).store.Has rel row := by
      intro rel row hhas
      have := (hsound.count_pos_iff rel row).mpr hhas
      rw [hcount] at this
      omega
    have hneed : (ofProgram p).program.need (ofProgram p).store.Has (fun _ _ => 0) rel row = 0 :=
      need_eq_zero follows.handled hempty rel row
    rw [houtside, hneed]
    simp only [List.count_nil, Nat.cast_zero, add_zero]
    exact_mod_cast hcount rel row

/-! ### Changes -/

structure Shifts (u : Update) (old new : String → Row → Nat) : Prop where
  added : u.change = .add → ∀ rel row,
    new rel row = old rel row + if rel = u.rel ∧ row = u.row then 1 else 0
  removed : u.change = .remove → ∀ rel row,
    old rel row = new rel row + if rel = u.rel ∧ row = u.row then 1 else 0

theorem BalancedOn.pending {E : String → Prop} {old new : String → Row → Nat} {change : Change}
    {u : Update} (h : s.BalancedOn E old change [])
    (hadd : u.change = .add → ∀ rel, E rel → ∀ row,
      new rel row = old rel row + if rel = u.rel ∧ row = u.row then 1 else 0)
    (hremove : u.change = .remove → ∀ rel, E rel → ∀ row,
      old rel row = new rel row + if rel = u.rel ∧ row = u.row then 1 else 0) :
    s.BalancedOn E new u.change [u] := by
  refine ⟨by simp, fun rel hrel row => ?_⟩
  have hsum := h.sums rel hrel row
  simp only [List.count_nil, Nat.cast_zero, add_zero, Program.need] at hsum
  rw [count_cons_update, count_cons_update, List.count_nil, List.count_nil, hsum, Program.need]
  cases hu : u.change with
  | add =>
    rw [hadd hu rel hrel]
    simp only [if_true, reduceCtorEq, if_false]
    push_cast
    rw [zero_add, add_zero]
    ac_rfl
  | remove =>
    rw [hremove hu rel hrel]
    simp only [if_true, reduceCtorEq, if_false]
    push_cast
    rw [zero_add, add_zero]
    ac_rfl

theorem Balanced.pending {old new : String → Row → Nat} {change : Change} {u : Update}
    (h : s.Balanced old change []) (shifts : Shifts u old new) : s.Balanced new u.change [u] :=
  balanced_iff.mpr ((balanced_iff.mp h).pending (fun hu rel _ => shifts.added hu rel)
    fun hu rel _ => shifts.removed hu rel)

theorem Balanced.of_nil {outside : String → Row → Nat} {change other : Change}
    (h : s.Balanced outside change []) : s.Balanced outside other [] :=
  ⟨by simp, h.sums⟩

theorem Tidy.plainly (built : Compile.Built o d p) (sound : d.Sound) (tidy : Tidy d base)
    (hprogram : s.program = p) : Plainly p p.catalog (s.outside d base) := by
  intro facts info hinfo hplain row
  unfold Program.need outside
  rcases built.plain_writers sound hinfo hplain with ⟨hbase, hnone⟩ | ⟨⟨hbase, hset⟩, hone⟩
  · rw [if_pos (List.mem_map_of_mem hbase), hnone]
    simpa using tidy.once info hbase row
  · have hfind : s.program.queries.find? (·.demandSet = some info.name) = none := by
      rw [hprogram]
      refine List.find?_eq_none.mpr fun q hq hu => hset ?_
      exact List.mem_flatMap.mpr ⟨q, hq, by simp [of_decide_eq_true hu]⟩
    rw [if_neg hbase, hfind]
    simpa using hone facts row

theorem inspect_ne_breach (s : Session) (q : CompiledQuery) (b : Breach) :
    s.inspect q ≠ .error (.breach b) := by
  intro h
  unfold inspect at h
  split at h
  · cases h
  · split at h
    · split at h
      · cases h
      · dsimp only at h
        split at h <;> cases h
    · cases h

theorem inspectAll_ne_breach (s : Session) (qs : List CompiledQuery) (b : Breach) :
    s.inspectAll qs ≠ .error (.breach b) := by
  induction qs with
  | nil => simp [inspectAll]
  | cons q qs ih =>
    intro h
    unfold inspectAll at h
    cases hq : s.inspect q with
    | error e =>
      rw [hq] at h
      cases h
      exact inspect_ne_breach s q b hq
    | ok _ =>
      rw [hq] at h
      exact ih h

/-- What comes of a change: good order over new base relations, with the demands as they were noted,
or a poisoned session. -/
structure Leads (d : Declarations) (p : Program) (base : String → Row → Nat)
    (demands : List ((String × Row) × Nat)) (out : Outcome Unit) : Prop where
  safe : ∀ b, out.2 ≠ .error (.breach b)
  orderly : out.2 = .ok () → out.1.Orderly d p base ∧ out.1.demands = demands
  poisoned : out.2 ≠ .ok () → out.1.poisoned = true

/-- A change that is balanced while it is pending leads to good order or poisons the session. -/
theorem Arranged.change (built : Compile.Built o d p) (sound : d.Sound)
    (follows : p.Follows o.estimate) {u : Update} (arranged : s.Arranged d p base)
    (balanced : s.Balanced (s.outside d base) u.change [u]) :
    Leads d p base s.demands (s.change u) := by
  obtain ⟨rfl, hinfos, hsound, hkeys, htidy⟩ := arranged
  have hnodup : (s.store.infos.map (·.name)).Nodup := hinfos ▸ built.nodup_catalog sound
  have hplain : Plainly s.program s.store.infos (s.outside d base) :=
    hinfos ▸ Tidy.plainly built sound htidy rfl
  obtain ⟨n, hn⟩ := s.exists_settle_eq [u]
  unfold Session.change
  rw [hn]
  cases hrun : propagate n s [u] with
  | mk t r =>
    cases r with
    | error e =>
      refine ⟨?_, nofun, fun _ => rfl⟩
      rintro b h
      cases h
      exact propagate_ne_breach follows hsound hnodup hplain balanced b hrun
    | ok _ =>
      obtain ⟨frame, tsound, tbalanced⟩ := propagate_balanced follows hsound hnodup balanced hrun
      have horder : t.Orderly d s.program base :=
        ⟨⟨frame.program, frame.infos.trans hinfos, tsound, frame.demands ▸ hkeys, htidy⟩,
          frame.outside_eq d base ▸ tbalanced.of_nil⟩
      dsimp only
      cases hall : t.inspectAll t.program.queries with
      | error e =>
        refine ⟨?_, nofun, fun _ => rfl⟩
        rintro b h
        cases h
        exact inspectAll_ne_breach t _ b hall
      | ok _ => exact ⟨nofun, fun _ => ⟨horder, frame.demands⟩, fun h => absurd rfl h⟩

/-! ### Base relations -/

theorem Orderly.count_base (order : s.Orderly d p base) (built : Compile.Built o d p)
    (sound : d.Sound) {rel : String} (hrel : rel ∈ d.relations.map (·.name)) (row : Row) :
    s.store.count rel row = base rel row := by
  have hsum := order.balanced.sums rel row
  have hout : s.outside d base rel row = base rel row := if_pos hrel
  rw [Program.need, order.program, built.base_writers sound hrel, hout] at hsum
  simpa using hsum

theorem Orderly.has_base (order : s.Orderly d p base) (built : Compile.Built o d p)
    (sound : d.Sound) {rel : String} (hrel : rel ∈ d.relations.map (·.name)) (row : Row) :
    s.store.contains rel row = true ↔ 0 < base rel row := by
  rw [← order.count_base built sound hrel]
  exact (order.sound.count_pos_iff rel row).symm

theorem Orderly.change_base (order : s.Orderly d p base) (built : Compile.Built o d p)
    (sound : d.Sound) (follows : p.Follows o.estimate) {u : Update}
    (hrel : u.rel ∈ d.relations.map (·.name)) (shifts : Shifts u base base') (tidy : Tidy d base') :
    Leads d p base' s.demands (s.change u) := by
  have hbase : ∀ {rel row}, rel ∈ d.relations.map (·.name) →
      ∀ b, s.outside d b rel row = b rel row := fun hin _ => if_pos hin
  have hother : ∀ {rel row}, rel ∉ d.relations.map (·.name) →
      s.outside d base rel row = s.outside d base' rel row ∧ ¬ (rel = u.rel ∧ row = u.row) := by
    intro rel row hin
    refine ⟨?_, fun h => hin (h.1 ▸ hrel)⟩
    unfold outside
    rw [if_neg hin, if_neg hin]
  have hshifts : Shifts u (s.outside d base) (s.outside d base') := by
    refine ⟨fun hu rel row => ?_, fun hu rel row => ?_⟩
    · by_cases hin : rel ∈ d.relations.map (·.name)
      · rw [hbase hin, hbase hin, shifts.added hu]
      · rw [(hother hin).1, if_neg (hother hin).2, Nat.add_zero]
    · by_cases hin : rel ∈ d.relations.map (·.name)
      · rw [hbase hin, hbase hin, shifts.removed hu]
      · rw [(hother hin).1, if_neg (hother hin).2, Nat.add_zero]
  exact Arranged.change built sound follows { order.toArranged with tidy := tidy }
    (order.balanced.pending hshifts)

/-! ### Demands -/

theorem demandCount_setDemand (s : Session) (query other : String) (params row : Row) (n : Nat) :
    (s.setDemand query params n).demandCount other row =
      if other = query ∧ row = params then n else s.demandCount other row := by
  unfold setDemand demandCount
  dsimp only
  by_cases hkey : other = query ∧ row = params
  · obtain ⟨rfl, rfl⟩ := hkey
    have hnone : (s.demands.filter fun d => d.1 ≠ (other, row)).find?
        (fun d => d.1 = (other, row)) = none := by
      refine List.find?_eq_none.mpr fun d hd => ?_
      simpa using (List.mem_filter.mp hd).2
    by_cases hn : n = 0
    · simp only [hn, and_self, if_true, hnone]
      rfl
    · simp only [hn, and_self, if_true, if_false, List.find?_append, hnone]
      simp
  · have hne : (other, row) ≠ (query, params) := fun h => hkey (Prod.ext_iff.mp h)
    have hsame : (s.demands.filter fun d => d.1 ≠ (query, params)).find?
        (fun d => d.1 = (other, row)) = s.demands.find? fun d => d.1 = (other, row) := by
      rw [List.find?_filter]
      congr 1
      funext d
      by_cases hd : d.1 = (other, row)
      · simp [hd, hne]
      · simp [hd]
    rw [if_neg hkey]
    split
    · rw [hsame]
    · rw [List.find?_append, hsame]
      simp [hne.symm]

theorem nodup_setDemand (h : (s.demands.map Prod.fst).Nodup) (query : String) (params : Row)
    (n : Nat) : ((s.setDemand query params n).demands.map Prod.fst).Nodup := by
  have hothers := h.sublist ((List.filter_sublist (p := fun d => d.1 ≠ (query, params))).map
    Prod.fst)
  unfold setDemand
  dsimp only
  split
  · exact hothers
  · rw [List.map_append]
    refine hothers.append (List.nodup_singleton _) ?_
    intro k hk hm
    obtain ⟨d, hd, rfl⟩ := List.mem_map.mp hk
    have hne := (List.mem_filter.mp hd).2
    simp only [List.map_cons, List.map_nil, List.mem_singleton] at hm
    simp [hm] at hne

theorem outside_setDemand (built : Compile.Built o d p) (sound : d.Sound) (hprogram : s.program = p)
    {q : CompiledQuery} (hq : q ∈ p.queries) {u : String} (hu : q.demandSet = some u)
    (base : String → Row → Nat) (params : Row) (n : Nat) (rel : String) (row : Row) :
    (s.setDemand q.name params n).outside d base rel row =
      if rel = u ∧ row = params then n else s.outside d base rel row := by
  unfold outside
  have hsame : (s.setDemand q.name params n).program = p := hprogram
  rw [hsame, hprogram]
  by_cases hin : rel ∈ d.relations.map (·.name)
  · have hne : ¬ (rel = u ∧ row = params) :=
      fun h => built.demandSet_not_base sound hq hu (h.1 ▸ hin)
    rw [if_pos hin, if_pos hin, if_neg hne]
  · rw [if_neg hin, if_neg hin]
    by_cases hrel : rel = u
    · rw [hrel, built.find_demandSet hq hu]
      simp [demandCount_setDemand]
    · rw [if_neg fun h => hrel h.1]
      cases hfind : p.queries.find? (·.demandSet = some rel) with
      | none => rfl
      | some r =>
        have hr := List.mem_of_find?_eq_some hfind
        have hru : r.demandSet = some rel := by simpa using List.find?_some hfind
        have hname : r.name ≠ q.name := by
          intro h
          rw [List.inj_on_of_nodup_map built.nodup_queries hr hq h, hu] at hru
          exact hrel (Option.some.inj hru).symm
        simp [demandCount_setDemand, hname]

theorem shifts_setDemand (built : Compile.Built o d p) (sound : d.Sound) (hprogram : s.program = p)
    (base : String → Row → Nat) {q : CompiledQuery} (hq : q ∈ p.queries) {u : Update}
    (hu : q.demandSet = some u.rel) {n : Nat}
    (hadd : u.change = .add → n = s.demandCount q.name u.row + 1)
    (hremove : u.change = .remove → s.demandCount q.name u.row = n + 1) :
    Shifts u (s.outside d base) ((s.setDemand q.name u.row n).outside d base) := by
  have hcount : s.outside d base u.rel u.row = s.demandCount q.name u.row := by
    unfold outside
    rw [if_neg (built.demandSet_not_base sound hq hu), hprogram, built.find_demandSet hq hu]
    rfl
  have houtside := outside_setDemand built sound hprogram hq hu base u.row n
  refine ⟨fun hsign rel row => ?_, fun hsign rel row => ?_⟩
  · rw [houtside]
    by_cases hkey : rel = u.rel ∧ row = u.row
    · rw [if_pos hkey, if_pos hkey, hkey.1, hkey.2, hcount, hadd hsign]
    · rw [if_neg hkey, if_neg hkey, Nat.add_zero]
  · rw [houtside]
    by_cases hkey : rel = u.rel ∧ row = u.row
    · rw [if_pos hkey, if_pos hkey, hkey.1, hkey.2, hcount, hremove hsign]
    · rw [if_neg hkey, if_neg hkey, Nat.add_zero]

theorem Orderly.change_demand (order : s.Orderly d p base) (built : Compile.Built o d p)
    (sound : d.Sound) (follows : p.Follows o.estimate) {q : CompiledQuery} (hq : q ∈ p.queries)
    {u : Update} (hu : q.demandSet = some u.rel) {n : Nat}
    (hadd : u.change = .add → n = s.demandCount q.name u.row + 1)
    (hremove : u.change = .remove → s.demandCount q.name u.row = n + 1) :
    Leads d p base (s.setDemand q.name u.row n).demands
      ((s.setDemand q.name u.row n).change u) := by
  have hpending := order.balanced.pending
    (shifts_setDemand built sound order.program base hq hu hadd hremove)
  refine Arranged.change built sound follows ⟨order.program, order.infos, order.sound,
    ?_, order.tidy⟩
    ⟨hpending.signs, hpending.sums⟩
  exact nodup_setDemand order.keys q.name u.row n

end Session

end ViewUpkeep
