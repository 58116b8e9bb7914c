import ViewUpkeep.Program
import ViewUpkeep.Proofs.Handler

/-!
Views: the comprehensions of a program whose rows some relation stores. Several views may share a
target, as do the entries of a demand set. What a relation needs to store of a row is what comes
from outside and the multiplicities of its views; a changed row changes this by what the handlers
record.
-/
namespace ViewUpkeep

structure View where
  target : String
  spec : Comprehension
  strategy : SelfJoin

/-- Only a view that reads some relation is kept up to date. -/
def View.isLive (v : View) : Bool := !v.spec.join.rels.isEmpty

/-- A view whose handlers record every witness once, because they make no assumption or have no
occasion for one. -/
def View.Exact (v : View) : Prop :=
  v.strategy ≠ .assumeDisjoint ∨ ∀ rel, (v.spec.join.occurrences rel).length ≤ 1

def Support.view (s : Support) (strategy : SelfJoin) : View := ⟨s.target, s.spec, strategy⟩

def CompiledQuery.views (q : CompiledQuery) : List View :=
  q.supports.map (·.view q.settings.selfJoin) ++
    q.maintained.toList.map fun c => ⟨q.name, c, q.settings.selfJoin⟩

namespace Program

def views (p : Program) : List View := p.queries.flatMap (·.views)

def writers (p : Program) (rel : String) : List View :=
  p.views.filter fun v => v.target = rel && v.isLive

/-- How often a relation needs to have a row: as often as is asked from outside, and once for each
witness of a view that writes to it. -/
noncomputable def need (p : Program) (facts : Facts) (outside : String → Row → Nat) (rel : String)
    (row : Row) : ℕ∞ :=
  outside rel row + ((p.writers rel).map fun v => v.spec.multiplicity facts row).sum

structure Follows (p : Program) (estimate : Estimator) : Prop where
  proper : ∀ v ∈ p.views, v.spec.Proper
  exact : ∀ v ∈ p.views, v.strategy ≠ .assumeDisjoint
  handlers : ∃ made : View → List Handler,
    (∀ v ∈ p.views, Handler.ofComprehension v.spec v.target v.strategy estimate = .ok (made v)) ∧
    p.handlers = p.views.flatMap made

structure Handled (p : Program) (estimate : Estimator) : Prop where
  proper : ∀ v ∈ p.views, v.spec.Proper
  handlers : ∃ made : View → List Handler,
    (∀ v ∈ p.views, Handler.ofComprehension v.spec v.target v.strategy estimate = .ok (made v)) ∧
    p.handlers = p.views.flatMap made

theorem Follows.handled {p : Program} {estimate : Estimator} (h : p.Follows estimate) :
    p.Handled estimate := ⟨h.proper, h.handlers⟩

theorem Follows.writers_exact {p : Program} {estimate : Estimator} (h : p.Follows estimate)
    (rel : String) : ∀ v ∈ p.writers rel, v.Exact :=
  fun v hv => .inl (h.exact v (List.mem_filter.mp hv).1)

end Program

namespace Handler

variable {c : Comprehension} {target : String} {strategy : SelfJoin} {estimate : Estimator}

theorem makeAll_filter {keys : List (String × Change)} {hs : List Handler}
    (h : makeAll c target strategy estimate keys = .ok hs) (nodup : keys.Nodup) (rel : String)
    (change : Change) :
    ((rel, change) ∉ keys → (hs.filter fun h => h.rel = rel && h.change = change) = []) ∧
    ((rel, change) ∈ keys → ∃ h, make c target rel change strategy estimate = .ok h ∧
      (hs.filter fun h => h.rel = rel && h.change = change) = [h]) := by
  induction keys generalizing hs with
  | nil =>
    cases h
    simp
  | cons key keys ih =>
    obtain ⟨d, hd, h⟩ := bind_eq_ok.mp h
    obtain ⟨ds, hds, h⟩ := bind_eq_ok.mp h
    cases h
    rw [List.nodup_cons] at nodup
    obtain ⟨ih1, ih2⟩ := ih hds nodup.2
    obtain ⟨_, hrel, hchange, _⟩ := make_eq_ok hd
    have hkey : (d.rel = rel && d.change = change : Bool) = decide ((rel, change) = key) := by
      rw [hrel, hchange, Bool.eq_iff_iff, Bool.and_eq_true_iff]
      simp only [decide_eq_true_eq, Prod.ext_iff]
      exact and_congr eq_comm eq_comm
    rw [List.filter_cons, hkey]
    by_cases he : (rel, change) = key
    · have hrest := ih1 (he ▸ nodup.1)
      subst he
      simp only [decide_true, if_true, hrest]
      exact ⟨fun hn => absurd List.mem_cons_self hn, fun _ => ⟨d, hd, rfl⟩⟩
    · rw [decide_eq_false he, if_neg (by simp)]
      constructor
      · exact fun hn => ih1 fun hm => hn (List.mem_cons_of_mem _ hm)
      · exact fun hm => ih2 ((List.mem_cons.mp hm).resolve_left he)

theorem nodup_keys (rels : List String) (nodup : rels.Nodup) :
    (rels.flatMap fun rel => [(rel, Change.add), (rel, Change.remove)]).Nodup := by
  rw [List.nodup_flatMap]
  refine ⟨by simp, ?_⟩
  refine nodup.imp ?_
  intro a b hab
  simp [Function.onFun, List.Disjoint, hab]

theorem ofComprehension_filter {hs : List Handler}
    (h : ofComprehension c target strategy estimate = .ok hs) (rel : String) (change : Change) :
    (rel ∉ c.join.rels → (hs.filter fun h => h.rel = rel && h.change = change) = []) ∧
    (rel ∈ c.join.rels → ∃ h, make c target rel change strategy estimate = .ok h ∧
      (hs.filter fun h => h.rel = rel && h.change = change) = [h]) := by
  have hmem : (rel, change) ∈ (c.join.rels.flatMap fun rel => [(rel, Change.add), (rel, .remove)]) ↔
      rel ∈ c.join.rels := by
    cases change <;> simp
  have hall := makeAll_filter h (nodup_keys _ (nodup_eraseDups _)) rel change
  rwa [hmem] at hall

end Handler

theorem Join.mem_rels {j : Join} {rel : String} : rel ∈ j.rels ↔ ∃ c ∈ j, c.rel? = some rel := by
  simp [Join.rels]

theorem Comprehension.multiplicity_insert_of_notMem {c : Comprehension} {rel : String}
    (h : rel ∉ c.join.rels) (facts : Facts) (row out : Row) :
    c.multiplicity (facts.insert rel row) out = c.multiplicity facts out := by
  unfold multiplicity witnesses Witness
  congr 1
  ext b
  refine and_congr_left fun _ => and_congr_right fun _ => ?_
  refine forall₂_congr fun d hd => Clause.holds_insert_of_ne ?_
  exact fun hr => h (Join.mem_rels.mpr ⟨d, hd, hr⟩)

namespace View

variable {v : View} {estimate : Estimator} {small : Facts} {rel : String} {row : Row}
  {change : Change} {storeAt : Placement → Store} {out : Handler → List Update}

theorem emitted_mem (proper : v.spec.Proper) {hs : List Handler}
    (hmade : Handler.ofComprehension v.spec v.target v.strategy estimate = .ok hs)
    (absent : ¬ small rel row) (sound : ∀ p, (storeAt p).Sound)
    (hfacts : ∀ strategy : SelfJoin,
      (storeAt (strategy.placement change)).Has = strategy.facts small rel row)
    (hout : ∀ h ∈ hs, h.rel = rel → h.change = change →
      h.code.run (storeAt h.placement) row = .ok (out h)) :
    ∀ u ∈ (hs.filter fun h => h.rel = rel && h.change = change).flatMap out,
      u.rel = v.target ∧ u.change = change ∧ v.isLive = true := by
  intro u hu
  obtain ⟨hnone, hone⟩ := Handler.ofComprehension_filter hmade rel change
  by_cases hrel : rel ∈ v.spec.join.rels
  · obtain ⟨h, hh, hfilter⟩ := hone hrel
    have hmem : h ∈ hs ∧ (h.rel = rel && h.change = change : Bool) = true := by
      have hin : h ∈ hs.filter fun h => h.rel = rel && h.change = change := by simp [hfilter]
      exact List.mem_filter.mp hin
    obtain ⟨_, hr, hc, hp, _⟩ := Handler.make_eq_ok hh
    have hrun := hout h hmem.1 hr hc
    rw [hp] at hrun
    obtain ⟨bs, _, _, hperm⟩ :=
      Handler.make_witnesses proper absent (sound _) (hfacts v.strategy) hh hrun
    rw [hfilter, List.flatMap_singleton] at hu
    obtain ⟨b, _, rfl⟩ := List.mem_map.mp (hperm.mem_iff.mp hu)
    refine ⟨rfl, rfl, ?_⟩
    rw [isLive, Bool.not_eq_true', List.isEmpty_eq_false_iff]
    exact List.ne_nil_of_mem hrel
  · simp [hnone hrel] at hu

theorem count_emitted (proper : v.spec.Proper) (exact : v.Exact) {hs : List Handler}
    (hmade : Handler.ofComprehension v.spec v.target v.strategy estimate = .ok hs)
    (absent : ¬ small rel row) (sound : ∀ p, (storeAt p).Sound)
    (hfacts : ∀ strategy : SelfJoin,
      (storeAt (strategy.placement change)).Has = strategy.facts small rel row)
    (hout : ∀ h ∈ hs, h.rel = rel → h.change = change →
      h.code.run (storeAt h.placement) row = .ok (out h)) (r : Row) :
    ((hs.filter fun h => h.rel = rel && h.change = change).flatMap out).count
        ⟨v.target, change, r⟩ + v.spec.multiplicity small r =
      v.spec.multiplicity (small.insert rel row) r := by
  obtain ⟨hnone, hone⟩ := Handler.ofComprehension_filter hmade rel change
  by_cases hrel : rel ∈ v.spec.join.rels
  · obtain ⟨h, hh, hfilter⟩ := hone hrel
    have hmem : h ∈ hs ∧ (h.rel = rel && h.change = change : Bool) = true := by
      have hin : h ∈ hs.filter fun h => h.rel = rel && h.change = change := by simp [hfilter]
      exact List.mem_filter.mp hin
    obtain ⟨_, hr, hc, hp, _⟩ := Handler.make_eq_ok hh
    have hrun := hout h hmem.1 hr hc
    rw [hp] at hrun
    have hemits := Handler.make_emits proper absent (sound _) (hfacts v.strategy)
      (exact.imp_right fun h => h rel) hh hrun
    rw [hfilter, List.flatMap_singleton]
    exact hemits.count_add_multiplicity proper r
  · rw [hnone hrel, Comprehension.multiplicity_insert_of_notMem hrel]
    simp

end View

namespace Program

variable {p : Program} {estimate : Estimator} {small : Facts} {rel : String} {row : Row}
  {change : Change} {storeAt : Placement → Store} {out : Handler → List Update}

theorem Handled.change_emitted (handled : p.Handled estimate) (absent : ¬ small rel row)
    (sound : ∀ p, (storeAt p).Sound)
    (hfacts : ∀ strategy : SelfJoin,
      (storeAt (strategy.placement change)).Has = strategy.facts small rel row)
    (hout : ∀ h ∈ p.handlers, h.rel = rel → h.change = change →
      h.code.run (storeAt h.placement) row = .ok (out h)) :
    ∀ u ∈ (p.handlers.filter fun h => h.rel = rel && h.change = change).flatMap out,
      u.change = change := by
  obtain ⟨made, hmade, hall⟩ := handled.handlers
  rw [hall, List.filter_flatMap, List.flatMap_assoc]
  intro u hu
  obtain ⟨v, hv, hu⟩ := List.mem_flatMap.mp hu
  exact (View.emitted_mem (handled.proper v hv) (hmade v hv) absent sound hfacts
    (fun h hh => hout h (hall ▸ List.mem_flatMap.mpr ⟨v, hv, hh⟩)) u hu).2.1

/-- What all handlers of a changed row record makes up the difference of the needs of a relation,
if the views are exact that write to it. -/
theorem Handled.count_emitted (handled : p.Handled estimate) (absent : ¬ small rel row)
    (sound : ∀ p, (storeAt p).Sound)
    (hfacts : ∀ strategy : SelfJoin,
      (storeAt (strategy.placement change)).Has = strategy.facts small rel row)
    (hout : ∀ h ∈ p.handlers, h.rel = rel → h.change = change →
      h.code.run (storeAt h.placement) row = .ok (out h))
    (outside : String → Row → Nat) {target : String} (exact : ∀ v ∈ p.writers target, v.Exact)
    (r : Row) :
    ((p.handlers.filter fun h => h.rel = rel && h.change = change).flatMap out).count
        ⟨target, change, r⟩ + p.need small outside target r =
      p.need (small.insert rel row) outside target r := by
  obtain ⟨made, hmade, hall⟩ := handled.handlers
  have hview : ∀ v ∈ p.views,
      let emitted := ((made v).filter fun h => h.rel = rel && h.change = change).flatMap out
      (¬ (v.target = target ∧ v.isLive = true) → emitted.count ⟨target, change, r⟩ = 0) ∧
      (v.target = target → v.isLive = true →
        emitted.count ⟨target, change, r⟩ + v.spec.multiplicity small r =
          v.spec.multiplicity (small.insert rel row) r) := by
    intro v hv
    have hout' : ∀ h ∈ made v, h.rel = rel → h.change = change →
        h.code.run (storeAt h.placement) row = .ok (out h) :=
      fun h hh => hout h (hall ▸ List.mem_flatMap.mpr ⟨v, hv, hh⟩)
    refine ⟨fun hnot => List.count_eq_zero.mpr fun hu => hnot ?_, fun htarget hlive => ?_⟩
    · have hmem := View.emitted_mem (handled.proper v hv) (hmade v hv) absent sound hfacts hout' _ hu
      exact ⟨hmem.1.symm, hmem.2.2⟩
    · have hwriter : v ∈ p.writers target := List.mem_filter.mpr ⟨hv, by simp [htarget, hlive]⟩
      subst htarget
      exact View.count_emitted (handled.proper v hv) (exact v hwriter) (hmade v hv) absent sound
        hfacts hout' r
  unfold need writers
  rw [hall, List.filter_flatMap, List.flatMap_assoc, ← add_assoc,
    add_comm (_ : ℕ∞) (outside target r : ℕ∞), add_assoc]
  congr 1
  clear hall hmade hout exact
  generalize p.views = views at hview ⊢
  induction views with
  | nil => simp
  | cons v vs ih =>
    have hrest := ih fun w hw => hview w (List.mem_cons_of_mem v hw)
    obtain ⟨hzero, hsum⟩ := hview v List.mem_cons_self
    rw [List.flatMap_cons, List.count_append, List.filter_cons]
    by_cases hv : (v.target = target && v.isLive : Bool) = true
    · have ht : v.target = target := by simpa using (Bool.and_eq_true_iff.mp hv).1
      rw [if_pos hv, List.map_cons, List.sum_cons, List.map_cons, List.sum_cons,
        ← hrest, ← hsum ht (Bool.and_eq_true_iff.mp hv).2]
      push_cast
      ac_rfl
    · rw [if_neg hv, hzero (by simpa using hv), Nat.zero_add, hrest]

end Program

end ViewUpkeep
