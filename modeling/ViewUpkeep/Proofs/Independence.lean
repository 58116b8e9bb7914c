import ViewUpkeep.Proofs.Equivalence
import ViewUpkeep.Proofs.Strategies
import ViewUpkeep.Proofs.Uniqueness

/-!
Independence of history and strategy. Two sessions of one script that have the same rows in their
base relations and the same demands of the user have the same rows, with the same counts, in all
derived relations, whatever was done before and whatever the strategies for relations that stand
several times in one join.
-/
namespace ViewUpkeep

namespace Program

theorem entries_outline (p : Program) (set : String) : p.outline.entries set = p.entries set := by
  unfold entries outline
  rw [List.flatMap_map]
  rfl

theorem solved_outline (p : Program) (asked count : String → Row → Nat) :
    p.outline.Solved asked count ↔ p.Solved asked count := by
  constructor
  · intro solved
    refine ⟨fun q hq => solved.supports q.outline (List.mem_map_of_mem hq),
      fun q hq => solved.results q.outline (List.mem_map_of_mem hq), fun q hq u hu row => ?_⟩
    rw [← p.entries_outline]
    exact solved.sets q.outline (List.mem_map_of_mem hq) u hu row
  · intro solved
    refine ⟨List.forall_mem_map.mpr solved.supports, List.forall_mem_map.mpr solved.results,
      List.forall_mem_map.mpr fun q hq u hu row => ?_⟩
    rw [p.entries_outline]
    exact solved.sets q hq u hu row

theorem outline_of_text {o o' : Compile.Options} {text text' : String} {p p' : Program}
    (options : o.outline = o'.outline)
    (scripts : (Script.ofText text).map Script.outline = (Script.ofText text').map Script.outline)
    (compiles : ofText? o text = some p) (compiles' : ofText? o' text' = some p') :
    p.outline = p'.outline := by
  obtain ⟨script, hscript, d, decls, hprepare, sound, built, hnames⟩ := script_of_text compiles
  obtain ⟨script', hscript', d', decls', hprepare', sound', built', hnames'⟩ :=
    script_of_text compiles'
  rw [hscript, hscript'] at scripts
  have hscripts : script.outline = script'.outline := Except.ok.inj scripts
  have hprepared := Compile.prepare_outline hprepare
  rw [hscripts, Compile.prepare_outline hprepare'] at hprepared
  obtain ⟨hd, hdecls⟩ := Prod.mk.inj (Except.ok.inj hprepared)
  refine built.outline_eq built' sound sound' options hd.symm ?_
  have hname : ∀ qs : List QueryDecl, (qs.map QueryDecl.outline).map (·.name) =
      qs.map (·.name) := by
    intro qs
    rw [List.map_map]
    rfl
  rw [hnames, hnames', ← hname decls, ← hdecls, hname]

end Program

namespace Session

variable {o o' : Compile.Options} {d d' : Declarations} {p p' : Program}
  {base base' : String → Row → Nat} {s s' : Session}

def SameBase (catalog : List RelationInfo) (s s' : Session) : Prop :=
  ∀ info ∈ catalog, info.origin.isBase = true → s.sortedRows info.name = s'.sortedRows info.name

instance (catalog : List RelationInfo) (s s' : Session) : Decidable (SameBase catalog s s') :=
  inferInstanceAs (Decidable (∀ info ∈ catalog, info.origin.isBase = true →
    s.sortedRows info.name = s'.sortedRows info.name))

/-- The same rows with the same counts in all derived relations: results, demand sets, tags and
filters. -/
def SameDerived (catalog : List RelationInfo) (s s' : Session) : Prop :=
  ∀ info ∈ catalog, info.origin.isBase = false →
    s.sortedRows info.name = s'.sortedRows info.name ∧
      ∀ row, s.store.count info.name row = s'.store.count info.name row

/-! ### Demands -/

theorem demandCount_of_demands (h : s.demands = s'.demands) (query : String) (params : Row) :
    s.demandCount query params = s'.demandCount query params := by
  unfold demandCount
  rw [h]

theorem userDemands_perm (s : Session) : s.userDemands.Perm s.demands := List.mergeSort_perm _ _

theorem demandCount_of_userDemands (keys : (s.demands.map Prod.fst).Nodup)
    (keys' : (s'.demands.map Prod.fst).Nodup) (h : s.userDemands = s'.userDemands) (query : String)
    (params : Row) : s.demandCount query params = s'.demandCount query params := by
  have hperm : s.demands.Perm s'.demands := s.userDemands_perm.symm.trans (h ▸ s'.userDemands_perm)
  have hfind : s.demands.find? (fun d => d.1 = (query, params)) =
      s'.demands.find? fun d => d.1 = (query, params) := by
    refine Option.ext fun entry => ?_
    rw [find_eq_some_iff_of_nodup_map keys, find_eq_some_iff_of_nodup_map keys', hperm.mem_iff]
  unfold demandCount
  rw [hfind]

theorem demandTarget_congr (h : s.program = s'.program) (query : String) (params : Row) :
    s.demandTarget query params = s'.demandTarget query params := by
  unfold demandTarget compiled
  rw [h]

theorem healthy_of_perform (op : Op) (h : (s.perform op).1.poisoned = false) :
    s.poisoned = false := by
  cases hs : s.poisoned with
  | false => rfl
  | true =>
    rw [perform_poisoned hs, hs] at h
    exact h

section Demands

variable (built : Compile.Built o d p) (sound : d.Sound) (follows : p.Follows o.estimate)

include built sound follows

theorem Orderly.demand_noted (order : s.Orderly d p base) {query : String}
    {params : Row} {u : String}
    (htarget : s.demandTarget query params = .ok u)
    (healthy : (s.demand query params).1.poisoned = false) :
    (s.demand query params).1.Orderly d p base ∧ (s.demand query params).1.demands =
      (s.setDemand query params (s.demandCount query params + 1)).demands := by
  have hopen := healthy_of_perform (.demand query params) healthy
  obtain ⟨q, hq, rfl, hset, _⟩ := demandTarget_eq_ok htarget
  rw [order.program] at hq
  have hdemand : s.demand q.name params =
      (s.setDemand q.name params (s.demandCount q.name params + 1)).change ⟨u, .add, params⟩ := by
    simp only [demand, hopen, htarget, Bool.false_eq_true, if_false]
  have leads := order.change_demand built sound follows hq (u := ⟨u, .add, params⟩) hset
    (fun _ => rfl) (by simp)
  rw [← hdemand] at leads
  rcases leads.cases with ⟨t, e, ht, hp, _⟩ | ⟨t, ht, hnoted⟩
  · rw [ht, hp] at healthy
    cases healthy
  · rw [ht]
    exact hnoted

theorem Orderly.demand_released (order : s.Orderly d p base) {query : String} {params : Row}
    {u : String} (htarget : s.demandTarget query params = .ok u) {n : Nat}
    (hcount : s.demandCount query params = n + 1)
    (healthy : (s.undemand query params).1.poisoned = false) :
    (s.undemand query params).1.Orderly d p base ∧
      (s.undemand query params).1.demands = (s.setDemand query params n).demands := by
  have hopen := healthy_of_perform (.undemand query params) healthy
  obtain ⟨q, hq, rfl, hset, _⟩ := demandTarget_eq_ok htarget
  rw [order.program] at hq
  have hundemand : s.undemand q.name params =
      (s.setDemand q.name params n).change ⟨u, .remove, params⟩ := by
    simp only [undemand, hopen, htarget, hcount, Bool.false_eq_true, if_false]
  have leads := order.change_demand built sound follows hq (u := ⟨u, .remove, params⟩)
    hset (by simp)
    fun _ => hcount
  rw [← hundemand] at leads
  rcases leads.cases with ⟨t, e, ht, hp, _⟩ | ⟨t, ht, hreleased⟩
  · rw [ht, hp] at healthy
    cases healthy
  · rw [ht]
    exact hreleased

theorem Orderly.demand_undemand (order : s.Orderly d p base) {query : String} {params : Row}
    (healthy : ((s.demand query params).1.undemand query params).1.poisoned = false) :
    ((s.demand query params).1.undemand query params).1.Orderly d p base ∧
      ∀ other row, s.demandCount other row =
        ((s.demand query params).1.undemand query params).1.demandCount other row := by
  have hdemanded := healthy_of_perform (.undemand query params) healthy
  have hopen := healthy_of_perform (.demand query params) hdemanded
  cases htarget : s.demandTarget query params with
  | error e =>
    have hdemand : s.demand query params = (s, .error e) := by
      simp only [demand, hopen, htarget, Bool.false_eq_true, if_false]
    have hundemand : s.undemand query params = (s, .error e) := by
      simp only [undemand, hopen, htarget, Bool.false_eq_true, if_false]
    rw [hdemand, hundemand]
    exact ⟨order, fun _ _ => rfl⟩
  | ok u =>
    obtain ⟨order₁, hnoted⟩ := order.demand_noted built sound follows htarget hdemanded
    have hcount := demandCount_of_demands hnoted
    have htarget₁ : (s.demand query params).1.demandTarget query params = .ok u := by
      rw [demandTarget_congr (order₁.program.trans order.program.symm), htarget]
    obtain ⟨order₂, hreleased⟩ := order₁.demand_released built sound follows htarget₁
      (by rw [hcount, demandCount_setDemand, if_pos ⟨rfl, rfl⟩]) healthy
    refine ⟨order₂, fun other row => ?_⟩
    rw [demandCount_of_demands hreleased, demandCount_setDemand, hcount, demandCount_setDemand]
    split
    · rename_i hkey
      rw [hkey.1, hkey.2]
    · rfl

end Demands

/-! ### Derived relations -/

theorem sortedRows_congr (sound : s.store.Sound) (sound' : s'.store.Sound) {rel : String}
    (h : ∀ row, s.store.count rel row = s'.store.count rel row) :
    s.sortedRows rel = s'.sortedRows rel := by
  refine (sortedRows_ascending sound rel).ext (sortedRows_ascending sound' rel) fun row => ?_
  rw [mem_sortedRows, mem_sortedRows, ← sound.count_pos_iff, ← sound'.count_pos_iff, h]

theorem Orderly.sameDerived (order : s.Orderly d p base) (order' : s'.Orderly d' p' base')
    (built : Compile.Built o d p) (built' : Compile.Built o' d' p') (sound : d.Sound)
    (sound' : d'.Sound) (outline : p.outline = p'.outline) (hbase : SameBase p.catalog s s')
    (hdemands : ∀ query params, s.demandCount query params = s'.demandCount query params) :
    SameDerived p.catalog s s' := by
  have solved := order.solved built sound
  have solved' : p.Solved s.demandCount s'.store.count := by
    have hsame : s.demandCount = s'.demandCount := funext₂ hdemands
    rw [hsame, ← p.solved_outline, outline, p'.solved_outline]
    exact order'.solved built' sound'
  have hpresent : ∀ rel ∈ d.relations.map (·.name), ∀ row,
      present s.store.count rel row ↔ present s'.store.count rel row := by
    intro rel hrel row
    obtain ⟨info, hinfo, rfl⟩ := List.mem_map.mp hrel
    obtain ⟨hcatalog, horigin⟩ := (built.base_iff sound info).mpr hinfo
    rw [order.sound.present_count, order'.sound.present_count, ← mem_sortedRows, ← mem_sortedRows,
      hbase info hcatalog horigin]
  intro info hinfo hderived
  have hcount := built.count_unique sound solved solved' hpresent hinfo hderived
  exact ⟨sortedRows_congr order.sound order'.sound hcount, hcount⟩

theorem sortedRows_ofProgram (built : Compile.Built o d p) (sound : d.Sound) (rel : String) :
    (ofProgram p).sortedRows rel = [] := by
  obtain ⟨hsound, _, hcount⟩ := Store.declared (built.nodup_catalog sound) p.indices
  refine List.eq_nil_iff_forall_not_mem.mpr fun row hrow => ?_
  have hpos := (hsound.count_pos_iff rel row).mpr ((mem_sortedRows _ rel row).mp hrow)
  rw [hcount] at hpos
  exact hpos.false

/-- Sessions of one script that are not poisoned and have the same base rows and demands have the
same derived rows and counts, whatever was done and by whatever strategies. So a demand that is
taken back leaves no trace, and without base rows and demands there are no rows. -/
theorem after_determined {o o' : Compile.Options} {text text' : String} {p p' : Program}
    (options : o.outline = o'.outline)
    (scripts : (Script.ofText text).map Script.outline = (Script.ofText text').map Script.outline)
    (compiles : Program.ofText? o text = some p) (compiles' : Program.ofText? o' text' = some p')
    (strategies : p.KeptBy [.sub, .aug, .das]) (strategies' : p'.KeptBy [.sub, .aug, .das]) :
    p.catalog = p'.catalog ∧
    (∀ ops ops', ((ofProgram p).after ops).poisoned = false →
      ((ofProgram p').after ops').poisoned = false →
      SameBase p.catalog ((ofProgram p).after ops) ((ofProgram p').after ops') →
      ((ofProgram p).after ops).userDemands = ((ofProgram p').after ops').userDemands →
      SameDerived p.catalog ((ofProgram p).after ops) ((ofProgram p').after ops')) ∧
    (∀ ops query params,
      ((ofProgram p).after (ops ++ [.demand query params, .undemand query params])).poisoned =
        false →
      SameDerived p.catalog ((ofProgram p).after ops)
        ((ofProgram p).after (ops ++ [.demand query params, .undemand query params]))) ∧
    ∀ ops, ((ofProgram p).after ops).poisoned = false →
      (∀ info ∈ p.catalog, info.origin.isBase = true →
        ((ofProgram p).after ops).sortedRows info.name = []) →
      ((ofProgram p).after ops).userDemands = [] →
      ∀ info ∈ p.catalog, ((ofProgram p).after ops).sortedRows info.name = [] := by
  obtain ⟨d, sound, built⟩ := Program.built_of_text compiles
  obtain ⟨d', sound', built'⟩ := Program.built_of_text compiles'
  have houtline := Program.outline_of_text options scripts compiles compiles'
  have follows := built.follows sound (strategies.exact (by decide))
  have follows' := built'.follows sound' (strategies'.exact (by decide))
  have horder : ∀ ops, ((ofProgram p).after ops).poisoned = false →
      ∃ base, ((ofProgram p).after ops).Orderly d p base :=
    fun ops healthy => (after_keeps built sound follows ops).resolve_left (by simp [healthy])
  have horder' : ∀ ops, ((ofProgram p').after ops).poisoned = false →
      ∃ base, ((ofProgram p').after ops).Orderly d' p' base :=
    fun ops healthy => (after_keeps built' sound' follows' ops).resolve_left (by simp [healthy])
  refine ⟨(congrArg Program.catalog houtline :), ?_, ?_, ?_⟩
  · intro ops ops' healthy healthy' hbase hdemands
    obtain ⟨base, order⟩ := horder ops healthy
    obtain ⟨base', order'⟩ := horder' ops' healthy'
    exact order.sameDerived order' built built' sound sound' houtline hbase
      (demandCount_of_userDemands order.keys order'.keys hdemands)
  · intro ops query params healthy
    have hafter : (ofProgram p).after (ops ++ [.demand query params, .undemand query params]) =
        ((((ofProgram p).after ops).demand query params).1.undemand query params).1 := by
      simp only [after, List.foldl_append, List.foldl_cons, List.foldl_nil, perform]
    rw [hafter] at healthy ⊢
    have hopen := healthy_of_perform (.demand query params)
      (healthy_of_perform (.undemand query params) healthy)
    obtain ⟨base, order⟩ := horder ops hopen
    obtain ⟨order', hdemands⟩ := order.demand_undemand built sound follows healthy
    refine order.sameDerived order' built built sound sound rfl
      (fun info hinfo hbase => ?_) hdemands
    have hrel : info.name ∈ d.relations.map (·.name) :=
      List.mem_map_of_mem ((built.base_iff sound info).mp ⟨hinfo, hbase⟩)
    refine sortedRows_congr order.sound order'.sound fun row => ?_
    rw [order.count_base built sound hrel, order'.count_base built sound hrel]
  · intro ops healthy hbase hdemands info hinfo
    obtain ⟨base, order⟩ := horder ops healthy
    have start := ofProgram_orderly built sound follows
    have hempty := sortedRows_ofProgram built sound
    have hnone : (ofProgram p).userDemands = [] := List.mergeSort_nil
    cases horigin : info.origin.isBase with
    | true => exact hbase info hinfo horigin
    | false =>
      rw [← hempty info.name]
      refine (order.sameDerived start built built sound sound rfl ?_ ?_ info hinfo horigin).1
      · exact fun other hother hb => (hbase other hother hb).trans (hempty other.name).symm
      · exact demandCount_of_userDemands order.keys start.keys (hdemands.trans hnone.symm)

def sampleOptions (strategy : SelfJoin) : Compile.Options :=
  ⟨{ Settings.default with selfJoin := strategy }, .silent⟩

def sampleWay : List Op :=
  [.add "R" [.int 1, .int 1], .assign "M" [.int 1] (.int 5), .demand "S" [.int 1],
    .demand "S" [.int 1]]

def sampleDetour : List Op :=
  [.demand "S" [.int 1], .assign "M" [.int 1] (.int 4), .add "R" [.int 2, .int 1],
    .add "R" [.int 1, .int 2], .query "Q" [], .demand "S" [.int 1], .add "R" [.int 1, .int 1],
    .assign "M" [.int 1] (.int 5), .remove "R" [.int 2, .int 1], .remove "R" [.int 1, .int 2]]

set_option maxRecDepth 10000 in
theorem after_determined_sample : ∃ p p',
    Program.ofText? (sampleOptions .aug) (sampleText "") = some p ∧
    Program.ofText? (sampleOptions .das) (sampleText "") = some p' ∧
    p.KeptBy [.sub, .aug, .das] ∧ p'.KeptBy [.sub, .aug, .das] ∧
    ∃ s s', s = (ofProgram p).after sampleWay ∧ s' = (ofProgram p').after sampleDetour ∧
      s.poisoned = false ∧ s'.poisoned = false ∧ SameBase p.catalog s s' ∧
      s.userDemands = s'.userDemands ∧ s.sortedRows "Q" = [[.int 1, .int 5]] ∧
      SameDerived p.catalog s s' := by
  obtain ⟨p, hp, p', hp', hkept, hkept', healthy, healthy', hbase, hdemands, hrows⟩ : ∃ p,
      Program.ofText? (sampleOptions .aug) (sampleText "") = some p ∧
      ∃ p', Program.ofText? (sampleOptions .das) (sampleText "") = some p' ∧
        p.KeptBy [.sub, .aug, .das] ∧ p'.KeptBy [.sub, .aug, .das] ∧
        ((ofProgram p).after sampleWay).poisoned = false ∧
        ((ofProgram p').after sampleDetour).poisoned = false ∧
        SameBase p.catalog ((ofProgram p).after sampleWay) ((ofProgram p').after sampleDetour) ∧
        ((ofProgram p).after sampleWay).userDemands =
          ((ofProgram p').after sampleDetour).userDemands ∧
        ((ofProgram p).after sampleWay).sortedRows "Q" = [[.int 1, .int 5]] := by
    decide +kernel
  have hoptions : (sampleOptions .aug).outline = (sampleOptions .das).outline := rfl
  exact ⟨p, p', hp, hp', hkept, hkept', _, _, rfl, rfl, healthy, healthy', hbase, hdemands, hrows,
    (after_determined hoptions rfl hp hp' hkept hkept').2.1 _ _ healthy healthy' hbase hdemands⟩

end Session

end ViewUpkeep
