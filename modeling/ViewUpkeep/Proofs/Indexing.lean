import ViewUpkeep.Proofs.Faults
import ViewUpkeep.Proofs.Tracing
import ViewUpkeep.Proofs.Writes

/-!
Indices. A session starts with an index for each lookup of a handler's code and for each lookup by
which a query that is evaluated on every read goes through its own clauses, and no operation takes
one away. So no such lookup has to go through all rows of its relation.
-/
namespace ViewUpkeep

/-! ### The indices of a store -/

namespace Relation

variable {r : Relation} {row : Row} {mask : Mask}

theorem hasIndex_iff : r.hasIndex mask = true ↔ mask ∈ r.indices.map Prod.fst := by
  simp [hasIndex]

theorem hasIndex_addIndex_self (r : Relation) (h : mask.isPartial = true) :
    (r.addIndex mask).hasIndex mask = true := by
  unfold addIndex
  split
  · simp [hasIndex_iff]
  · rename_i hnot
    simpa [h] using hnot

theorem hasIndex_addIndex (h : r.hasIndex mask = true) (other : Mask) :
    (r.addIndex other).hasIndex mask = true := by
  unfold addIndex
  split
  · rw [hasIndex_iff] at h ⊢
    rw [List.map_append]
    exact List.mem_append_left _ h
  · exact h

theorem masks_insert (r : Relation) (row : Row) :
    (r.insert row).1.indices.map Prod.fst = r.indices.map Prod.fst := by
  unfold insert
  dsimp only
  split
  · simp [Function.comp_def]
  · rfl

theorem masks_erase? {r' : Relation} {gone : Bool} (h : r.erase? row = some (r', gone)) :
    r'.indices.map Prod.fst = r.indices.map Prod.fst := by
  unfold erase? at h
  split at h <;> cases h
  · simp [Function.comp_def]
  · rfl

end Relation

namespace Store

variable {s : Store} {rel : String} {mask : Mask}

def Indexed (s : Store) (rel : String) (mask : Mask) : Prop :=
  ∃ r, s.get? rel = some r ∧ r.hasIndex mask = true

instance : Decidable (s.Indexed rel mask) :=
  decidable_of_iff ((s.get? rel).any (·.hasIndex mask) = true) (Option.any_eq_true _ _)

theorem get?_replace_self {q r : Relation} (h : s.get? rel = some q) (info : r.info = q.info) :
    (s.replace r).get? rel = some r := by
  have hname : r.name = rel := (congrArg RelationInfo.name info).trans (name_of_get? h)
  rw [get?_replace, hname, if_pos rfl, h, Option.map_some]

theorem Indexed.replace {name : String} {q r : Relation} (h : s.Indexed rel mask)
    (hq : s.get? name = some q) (info : r.info = q.info)
    (hmask : q.hasIndex mask = true → r.hasIndex mask = true) : (s.replace r).Indexed rel mask := by
  obtain ⟨p, hp, hindex⟩ := h
  by_cases hrel : rel = name
  · subst hrel
    cases hp.symm.trans hq
    exact ⟨r, get?_replace_self hq info, hmask hindex⟩
  · have hname : r.name = name := (congrArg RelationInfo.name info).trans (name_of_get? hq)
    exact ⟨p, by rw [get?_replace, hname, if_neg hrel, hp], hindex⟩

theorem Indexed.addIndex (h : s.Indexed rel mask) (name : String) (other : Mask) :
    (s.addIndex name other).Indexed rel mask := by
  unfold Store.addIndex
  split
  · rename_i r hget
    exact h.replace hget (r.info_addIndex other) fun hmask => Relation.hasIndex_addIndex hmask other
  · exact h

theorem addIndex_indexed (hrel : (s.get? rel).isSome) (hmask : mask.isPartial = true) :
    (s.addIndex rel mask).Indexed rel mask := by
  obtain ⟨r, hget⟩ := Option.isSome_iff_exists.mp hrel
  refine ⟨r.addIndex mask, ?_, r.hasIndex_addIndex_self hmask⟩
  simp only [addIndex, hget]
  exact get?_replace_self hget (r.info_addIndex mask)

theorem isSome_get?_addIndex (h : (s.get? rel).isSome) (name : String) (mask : Mask) :
    ((s.addIndex name mask).get? rel).isSome := by
  unfold addIndex
  split
  · rw [get?_replace]
    split
    · rwa [Option.isSome_map]
    · exact h
  · exact h

theorem Indexed.foldl_addIndex (h : s.Indexed rel mask) (indices : List (String × Mask)) :
    (indices.foldl (fun s i => s.addIndex i.1 i.2) s).Indexed rel mask := by
  induction indices generalizing s with
  | nil => exact h
  | cons i indices ih => exact ih (h.addIndex i.1 i.2)

theorem foldl_addIndex_indexed {indices : List (String × Mask)} (h : (rel, mask) ∈ indices)
    (hrel : (s.get? rel).isSome) (hmask : mask.isPartial = true) :
    (indices.foldl (fun s i => s.addIndex i.1 i.2) s).Indexed rel mask := by
  induction indices generalizing s with
  | nil => cases h
  | cons i indices ih =>
    rcases List.mem_cons.mp h with rfl | h
    · exact (addIndex_indexed hrel hmask).foldl_addIndex indices
    · exact ih h (isSome_get?_addIndex hrel i.1 i.2)

end Store

/-! ### Operations keep indices -/

namespace Session

variable {s t r : Session} {u : Update} {op : Op}

theorem changed_hasIndex {r r' : Relation} {mask : Mask} (h : changed r u = .ok r') :
    r'.hasIndex mask = r.hasIndex mask := by
  have hmasks : r'.indices.map Prod.fst = r.indices.map Prod.fst := by
    unfold changed at h
    split at h
    · cases h
      exact r.masks_insert u.row
    · split at h
      · rename_i herase
        cases h
        exact Relation.masks_erase? herase
      · cases h
  rw [Bool.eq_iff_iff, Relation.hasIndex_iff, Relation.hasIndex_iff, hmasks]

structure Retains (s t : Session) : Prop where
  program : t.program = s.program
  indexed : ∀ {rel mask}, s.store.Indexed rel mask → t.store.Indexed rel mask

theorem Retains.refl (s : Session) : s.Retains s := ⟨rfl, id⟩

theorem Retains.trans (h : s.Retains t) (h' : t.Retains r) : s.Retains r :=
  ⟨h'.program.trans h.program, fun hs => h'.indexed (h.indexed hs)⟩

theorem Touches.retains (h : s.Touches u t) : s.Retains t := by
  refine ⟨h.program, fun {rel mask} hs => ?_⟩
  rcases h.store with hsame | ⟨r, r', hget, hchanged, hstore⟩
  · rwa [hsame]
  · rw [hstore]
    exact hs.replace hget (changed_info hchanged) fun hmask => by rwa [changed_hasIndex hchanged]

theorem propagate_retains (n : Nat) (s : Session) (us : List Update) :
    s.Retains (propagate n s us).1 := by
  induction n generalizing s us with
  | zero => cases us <;> exact .refl s
  | succ n ih =>
    cases us with
    | nil => exact .refl s
    | cons u rest =>
      have htouches := (apply_touches s u).retains
      rw [propagate]
      split
      · rename_i t e happly
        rwa [happly] at htouches
      · rename_i t vs happly
        rw [happly] at htouches
        exact htouches.trans (ih t (vs ++ rest))

theorem change_retains (s : Session) (u : Update) : s.Retains (s.change u).1 := by
  refine ⟨change_program s u, fun hs => ?_⟩
  obtain ⟨n, hn⟩ := s.exists_settle_eq [u]
  rw [change_store, hn]
  exact (propagate_retains n s [u]).indexed hs

theorem Makes.retains (h : s.Makes op t u) : s.Retains t := by
  cases h with
  | @reassign map key _ old t _ _ hchange =>
    have hretract := change_retains s ⟨map, .remove, key ++ [old]⟩
    rwa [hchange] at hretract
  | demand | undemand | query => exact ⟨rfl, id⟩
  | _ => exact .refl s

theorem perform_retains (s : Session) (op : Op) : s.Retains (s.perform op).1 := by
  rcases perform_turns s op with ⟨r, hout, _⟩ | ⟨_, t, u, hmakes, hout⟩ <;> rw [hout]
  · exact .refl s
  · exact hmakes.retains.trans (change_retains t u)

theorem after_retains (s : Session) (ops : List Op) : s.Retains (s.after ops) := by
  induction ops generalizing s with
  | nil => exact .refl s
  | cons op ops ih => exact (perform_retains s op).trans (ih (s.perform op).1)

end Session

/-! ### The lookups of code -/

namespace Code

inductive Inside (c : Code) : Code → Prop where
  | self : Inside c c
  | block {items : List Code} {item : Code} : item ∈ items → Inside c item → Inside c (.block items)
  | scan {rel : String} {pattern : List Var} {body : Code} : Inside c body →
    Inside c (.scan rel pattern body)
  | lookup {rel : String} {mask : Mask} {pattern : List Var} {body : Code} : Inside c body →
    Inside c (.lookup rel mask pattern body)
  | member {rel : String} {pattern : List Var} {body : Code} : Inside c body →
    Inside c (.member rel pattern body)
  | bind {pattern : List Var} {expr : Expr} {body : Code} : Inside c body →
    Inside c (.bind pattern expr body)
  | test {cond : Expr} {body : Code} : Inside c body → Inside c (.test cond body)
  | branch {vars : List Var} {verify : Bool} {branches : List Code} {b body : Code} :
    b ∈ branches → Inside c b → Inside c (.union vars verify branches body)
  | union {vars : List Var} {verify : Bool} {branches : List Code} {body : Code} :
    Inside c body → Inside c (.union vars verify branches body)

theorem mem_lookupNodesRev {cs : List Code} {l : String × Mask} :
    l ∈ lookupNodesRev cs ↔ ∃ c ∈ cs, l ∈ c.lookupNodes := by
  induction cs with
  | nil => simp [lookupNodesRev]
  | cons c cs ih => simp [lookupNodesRev, ih, or_comm]

theorem Inside.mem_lookupNodes {code : Code} {rel : String} {mask : Mask} {pattern : List Var}
    {body : Code} (h : (Code.lookup rel mask pattern body).Inside code) :
    (rel, mask) ∈ code.lookupNodes := by
  induction h with
  | self => exact List.mem_cons_self
  | block hitem _ ih => exact mem_lookupNodesRev.mpr ⟨_, hitem, ih⟩
  | scan _ ih | member _ ih | bind _ ih | test _ ih => exact ih
  | lookup _ ih => exact List.mem_cons_of_mem _ ih
  | branch hb _ ih => exact List.mem_append_right _ (mem_lookupNodesRev.mpr ⟨_, hb, ih⟩)
  | union _ ih => exact List.mem_append_left _ ih

mutual

theorem exists_inside {rel : String} {mask : Mask} : (code : Code) → (rel, mask) ∈ code.lookupNodes →
    ∃ pattern body, (Code.lookup rel mask pattern body).Inside code
  | .block items, h => by
    obtain ⟨item, hitem, pattern, body, hin⟩ := exists_inside_rev items h
    exact ⟨pattern, body, .block hitem hin⟩
  | .scan _ _ rest, h => by
    obtain ⟨pattern, body, hin⟩ := exists_inside rest h
    exact ⟨pattern, body, .scan hin⟩
  | .member _ _ rest, h => by
    obtain ⟨pattern, body, hin⟩ := exists_inside rest h
    exact ⟨pattern, body, .member hin⟩
  | .bind _ _ rest, h => by
    obtain ⟨pattern, body, hin⟩ := exists_inside rest h
    exact ⟨pattern, body, .bind hin⟩
  | .test _ rest, h => by
    obtain ⟨pattern, body, hin⟩ := exists_inside rest h
    exact ⟨pattern, body, .test hin⟩
  | .lookup _ _ pattern rest, h => by
    rcases List.mem_cons.mp h with h | h
    · cases h
      exact ⟨pattern, rest, .self⟩
    · obtain ⟨pattern, body, hin⟩ := exists_inside rest h
      exact ⟨pattern, body, .lookup hin⟩
  | .union _ _ branches rest, h => by
    rcases List.mem_append.mp h with h | h
    · obtain ⟨pattern, body, hin⟩ := exists_inside rest h
      exact ⟨pattern, body, .union hin⟩
    · obtain ⟨b, hb, pattern, body, hin⟩ := exists_inside_rev branches h
      exact ⟨pattern, body, .branch hb hin⟩

theorem exists_inside_rev {rel : String} {mask : Mask} : (cs : List Code) →
    (rel, mask) ∈ lookupNodesRev cs →
    ∃ c ∈ cs, ∃ pattern body, (Code.lookup rel mask pattern body).Inside c
  | c :: cs, h => by
    rcases List.mem_append.mp h with h | h
    · obtain ⟨b, hb, hin⟩ := exists_inside_rev cs h
      exact ⟨b, List.mem_cons_of_mem c hb, hin⟩
    · exact ⟨c, List.mem_cons_self, exists_inside c h⟩

end

/-- The walk over code lists its lookups: all of them and nothing else. -/
theorem mem_lookupNodes {code : Code} {rel : String} {mask : Mask} :
    (rel, mask) ∈ code.lookupNodes ↔
      ∃ pattern body, (Code.lookup rel mask pattern body).Inside code :=
  ⟨exists_inside code, fun ⟨_, _, hin⟩ => hin.mem_lookupNodes⟩

end Code

namespace Clause

variable {bound : List Var} {body code : Code}

theorem code_lookups {c : Clause} (h : c.code bound body = .ok code) {l : String × Mask}
    (hl : l ∈ code.lookupNodes) :
    l ∈ body.lookupNodes ∨ (c.rel? = some l.1 ∧ l.2.isPartial = true) := by
  induction c generalizing body code with
  | member lhs rel | mapMember lhs rel n =>
    cases h
    unfold memberCode at hl
    dsimp only at hl
    split at hl
    · exact .inl hl
    · split at hl
      · exact .inl hl
      · rename_i hbound hunbound
        rcases List.mem_cons.mp hl with rfl | hl
        · exact .inr ⟨rfl, by simp [Mask.isPartial, hbound, hunbound]⟩
        · exact .inl hl
  | singleton | cond =>
    obtain ⟨_, _, h⟩ := bind_eq_ok.mp h
    cases h
    exact .inl hl
  | delta =>
    cases h
    exact .inl hl
  | without inner value ih =>
    have hinner := ih h hl
    exact hinner
  | withExtra inner value ih =>
    obtain ⟨present, hpresent, h⟩ := bind_eq_ok.mp h
    cases h
    obtain ⟨item, hitem, hnode⟩ := Code.mem_lookupNodesRev.mp hl
    rcases List.mem_pair.mp hitem with rfl | rfl
    · exact ih hpresent hnode
    · exact .inl hnode
  | demand inner query params ih =>
    obtain ⟨_, _, h⟩ := bind_eq_ok.mp h
    exact ih h hl

end Clause

theorem Plan.code_lookups {steps : List Step} {leaf code : Code}
    (h : Plan.code steps leaf = .ok code) {l : String × Mask} (hl : l ∈ code.lookupNodes) :
    l ∈ leaf.lookupNodes ∨
      ((∃ s ∈ steps, s.clause.rel? = some l.1) ∧ l.2.isPartial = true) := by
  induction steps generalizing code with
  | nil =>
    cases h
    exact .inl hl
  | cons s rest ih =>
    obtain ⟨inner, hinner, h⟩ := bind_eq_ok.mp h
    rcases Clause.code_lookups h hl with hl | ⟨hrel, hpartial⟩
    · refine (ih hinner hl).imp_right fun ⟨⟨t, ht, hrel⟩, hpartial⟩ => ?_
      exact ⟨⟨t, List.mem_cons_of_mem s ht, hrel⟩, hpartial⟩
    · exact .inr ⟨⟨s, List.mem_cons_self, hrel⟩, hpartial⟩

theorem Join.rel?_of_mem_deltaAt {j : Join} {rel r : String} {value : Expr} {strategy : SelfJoin}
    {i : Nat} {d : Clause} (hd : d ∈ j.deltaAt rel value strategy i) (hrel : d.rel? = some r) :
    ∃ c ∈ j, c.rel? = some r := by
  obtain ⟨c, hc, ⟨_, rfl⟩ | ⟨_, rfl⟩ | rfl⟩ := Join.mem_deltaAt hd
  · cases hrel
  · refine ⟨c, hc, ?_⟩
    cases strategy <;> exact hrel
  · exact ⟨_, hc, hrel⟩

namespace Handler

variable {estimate : Estimator} {c : Comprehension} {target rel : String} {change : Change}
  {strategy : SelfJoin} {h : Handler} {l : String × Mask}

theorem branches_lookups {leaf : Code} {cs : List Code}
    (hcs : branches target estimate leaf (c.join.deltas rel (.var Var.delta) strategy) = .ok cs)
    (hleaf : leaf.lookupNodes = []) {code : Code} (hcode : code ∈ cs)
    (hl : l ∈ code.lookupNodes) : (∃ d ∈ c.join, d.rel? = some l.1) ∧ l.2.isPartial = true := by
  obtain ⟨j, hj, hbranch⟩ := mem_branches hcs code hcode
  obtain ⟨i, _, rfl⟩ := List.mem_map.mp hj
  obtain ⟨steps, hplan, hsteps⟩ := branch_eq_ok hbranch
  rcases Plan.code_lookups hsteps hl with hl | ⟨⟨s, hs, hrel⟩, hpartial⟩
  · rw [hleaf] at hl
    cases hl
  · have hmem := (Plan.complete_perm hplan).mem_iff.mp (List.mem_map_of_mem hs)
    exact ⟨Join.rel?_of_mem_deltaAt hmem hrel, hpartial⟩

theorem make_lookups (hmake : make c target rel change strategy estimate = .ok h)
    (hl : l ∈ h.code.lookupNodes) : (∃ d ∈ c.join, d.rel? = some l.1) ∧ l.2.isPartial = true := by
  obtain ⟨_, _, _, _, ⟨_, cs, hcs, hcode⟩ | ⟨_, cs, hcs, hcode⟩⟩ := make_eq_ok hmake <;>
    rw [hcode] at hl
  · rw [Code.lookupNodes, Code.lookupNodes, List.nil_append] at hl
    obtain ⟨code, hcode, hl⟩ := Code.mem_lookupNodesRev.mp hl
    exact branches_lookups hcs rfl hcode hl
  · obtain ⟨code, hcode, hl⟩ : ∃ code ∈ cs, l ∈ code.lookupNodes := by
      unfold Code.ofList at hl
      split at hl
      · exact ⟨_, List.mem_singleton_self _, hl⟩
      · exact Code.mem_lookupNodesRev.mp hl
    exact branches_lookups hcs rfl hcode hl

end Handler

/-! ### The lookups of a program -/

namespace Program

theorem subset_foldl_insertMask (indices more : List (String × Mask)) :
    indices ⊆ more.foldl insertMask indices ∧ more ⊆ more.foldl insertMask indices := by
  induction more generalizing indices with
  | nil => exact ⟨List.Subset.refl _, List.nil_subset _⟩
  | cons m more ih =>
    have hstep : indices ⊆ insertMask indices m ∧ m ∈ insertMask indices m := by
      unfold insertMask
      split
      · rename_i hm
        exact ⟨List.Subset.refl _, by simpa using hm⟩
      · exact ⟨List.subset_append_left .., by simp⟩
    obtain ⟨hold, hnew⟩ := ih (insertMask indices m)
    exact ⟨List.Subset.trans hstep.1 hold, List.cons_subset.mpr ⟨hold hstep.2, hnew⟩⟩

end Program

namespace Compile

variable {scope : Scope} {l : String × Mask}

theorem stepLookup_eq_some {s : Plan.Step} (h : stepLookup scope s = some l) :
    s.clause.rel? = some l.1 ∧ scope.query? l.1 = none ∧ l.2.isPartial = true := by
  unfold stepLookup at h
  cases hclause : s.clause with
  | member lhs rel | mapMember lhs rel n =>
    simp only [hclause] at h
    split at h <;> cases h
    rename_i hlookup
    simp only [Bool.and_eq_true, Option.isNone_iff_eq_none] at hlookup
    exact ⟨rfl, hlookup.2, hlookup.1⟩
  | _ =>
    simp only [hclause] at h
    cases h

theorem mem_planLookups {j : Join} {bound : List Var} (h : l ∈ planLookups scope j bound) :
    (∃ c ∈ j, c.rel? = some l.1) ∧ scope.query? l.1 = none ∧ l.2.isPartial = true := by
  unfold planLookups at h
  split at h
  · rename_i steps hsteps
    obtain ⟨s, hs, hlookup⟩ := List.mem_filterMap.mp h
    obtain ⟨hrel, hrest⟩ := stepLookup_eq_some hlookup
    have hmem := (Plan.complete_perm hsteps).mem_iff.mp (List.mem_map_of_mem hs)
    exact ⟨⟨s.clause, hmem, hrel⟩, hrest⟩
  · cases h

theorem mem_batchLookups {spec : Comprehension} (h : l ∈ batchLookups scope spec) :
    (∃ c ∈ spec.join, c.rel? = some l.1) ∧ scope.query? l.1 = none ∧ l.2.isPartial = true := by
  rcases List.mem_append.mp (List.mem_eraseDups.mp h) with h | h
  · exact mem_planLookups h
  · split at h
    · cases h
    · exact mem_planLookups h

namespace Built

variable {o : Options} {d : Declarations} {p : Program} {q : CompiledQuery} {rel : String}
  {mask : Mask}

theorem masks_subset (built : Built o d p) (hq : q ∈ p.queries) : q.masks ⊆ p.indices := by
  induction built with
  | start => cases hq
  | @install p decl r built hdecl fresh hr ih =>
    obtain ⟨hold, hnew⟩ := Program.subset_foldl_insertMask p.indices r.masks
    rcases List.mem_append.mp hq with hq | hq
    · exact List.Subset.trans (ih hq) hold
    · rw [List.mem_singleton.mp hq]
      exact hnew

theorem mask_indexed (built : Built o d p) (sound : d.Sound) (hq : q ∈ p.queries)
    (hmask : (rel, mask) ∈ q.masks) {n : Nat} (hrel : Lists p.catalog rel n)
    (hpartial : mask.isPartial = true) : (Session.ofProgram p).store.Indexed rel mask := by
  have nodup := built.nodup_catalog sound
  refine Store.foldl_addIndex_indexed (built.masks_subset hq hmask) ?_ hpartial
  have hstore : p.catalog.foldl Store.declare .empty = ⟨p.catalog.map .empty⟩ :=
    Store.foldl_declare nodup
  rw [hstore]
  refine Store.get?_isSome ?_ hrel
  simp [Store.infos, Function.comp_def]

theorem handler_indexed (built : Built o d p) (sound : d.Sound) {h : Handler}
    (hh : h ∈ p.handlers) {pattern : List Var} {body : Code}
    (hnode : (Code.lookup rel mask pattern body).Inside h.code) :
    (Session.ofProgram p).store.Indexed rel mask := by
  have hlookup := Code.mem_lookupNodes.mpr ⟨pattern, body, hnode⟩
  obtain ⟨v, hv, _, hmake⟩ := built.handler_made hh
  obtain ⟨⟨c, hc, hrel⟩, hpartial⟩ := Handler.make_lookups hmake hlookup
  obtain ⟨q, hq, hhq⟩ := List.mem_flatMap.mp hh
  refine built.mask_indexed sound hq ?_ ((built.views_fit sound v hv).clauses c hc rel hrel) hpartial
  exact List.mem_append_right _
    (List.mem_flatMap.mpr ⟨h, hhq, List.mem_eraseDups.mpr hlookup⟩)

variable {earlier later : List CompiledQuery}

theorem lookup_indexed (built : Built o d p) (sound : d.Sound) (h : p.queries = earlier ++ q :: later)
    (hmode : q.mode = .batch)
    (hl : l ∈ batchLookups ⟨d.relations, earlier.map (·.signature)⟩ q.spec) :
    (Session.ofProgram p).store.Indexed l.1 l.2 := by
  obtain ⟨decl, hdecl, catalog, compiled, _⟩ := built.compiled h
  obtain ⟨⟨c, hc, hrel⟩, hquery, hpartial⟩ := mem_batchLookups hl
  have hlists : ∃ n, Lists p.catalog l.1 n := by
    have lowered := Lowering.query_lowered (sound.queries decl hdecl) compiled.spec
    cases lowered.inScope c hc with
    | @relation _ lhs name info hinfo hclause _ =>
      have hname : c.rel? = some name := by rcases hclause with rfl | ⟨n, rfl⟩ <;> rfl
      cases hname.symm.trans hrel
      exact ⟨info.arity, info, built.relations_subset sound (List.mem_of_find?_eq_some hinfo),
        by simpa using List.find?_some hinfo, rfl⟩
    | rows _ hsig | applied _ hsig =>
      cases hrel
      rw [hquery] at hsig
      cases hsig
    | singleton | cond => cases hrel
  obtain ⟨n, hlists⟩ := hlists
  refine built.mask_indexed sound (h ▸ List.mem_append_right _ List.mem_cons_self) ?_ hlists hpartial
  rw [CompiledQuery.masks, compiled.lookups hmode]
  exact List.mem_append_left _ (List.mem_append_right _ hl)

theorem ask_notes (built : Built o d p) (sound : d.Sound) (hq : q ∈ p.queries)
    (hmode : q.mode = .batch) (store : Store) (args : Option Row) :
    Batch.Notes (fun l => (Session.ofProgram p).store.Indexed l.1 l.2)
      (Batch.askNoting store p.queries.reverse (q.name, args))
      (Batch.ask store p.queries.reverse (q.name, args)) := by
  obtain ⟨earlier, later, h⟩ := List.append_of_mem hq
  obtain ⟨decl, hdecl, catalog, compiled, _⟩ := built.compiled h
  obtain ⟨hreverse, hlater⟩ := built.reverse_queries h
  -- The compiler and the evaluator have the same queries before this one, in opposite orders.
  have agree : ∀ rel, (earlier.reverse.map (·.name)).contains rel =
      (Scope.query? ⟨d.relations, earlier.map (·.signature)⟩ rel).isSome := by
    intro rel
    rw [Bool.eq_iff_iff, Scope.query?, List.find?_isSome]
    simp [CompiledQuery.signature]
  rw [hreverse]
  apply Batch.askNoting_notes hlater
  exact Batch.answerNoting_notes compiled.params agree
    (fun l hl => built.lookup_indexed sound h hmode hl) args

end Built

end Compile

namespace Session

/-- Every lookup is indexed. In every session on a compiled program, with failed queries left out or
without, and after every history, each relation that the code of a handler looks rows up in is there
and has an index for that mask; and so has each relation in which the evaluation of a query that is
evaluated on every read looks rows up for the query's own clauses, with arguments or for all rows. -/
theorem after_indexed {text : String} {script : Script} (parsed : Script.ofText text = .ok script)
    {o : Compile.Options} {p : Program}
    (compiles : Program.ofScript o script = .ok p ∨ (Program.ofScriptLenient o script).1 = p)
    (ops : List Op) :
    let s := (ofProgram p).after ops
    s.program = p ∧
      (∀ h ∈ p.handlers, ∀ rel mask pattern body,
        (Code.lookup rel mask pattern body).Inside h.code → s.store.Indexed rel mask) ∧
      ∀ q ∈ p.queries, q.mode = .batch → ∀ args memo, ∃ lookups,
        Batch.runNoting p s.store (q.name, args) memo =
          (((Batch.run p s.store (q.name, args) memo).1, lookups),
            (Batch.run p s.store (q.name, args) memo).2) ∧
        ∀ l ∈ lookups, s.store.Indexed l.1 l.2 := by
  have named := Script.ofText_wellNamed parsed
  have hbuilt : ∃ d : Declarations, d.Sound ∧ Compile.Built o d p := by
    rcases compiles with hp | rfl
    · obtain ⟨d, _, _, sound, built, _⟩ := Compile.ofScript_built named hp
      exact ⟨d, sound, built⟩
    · exact Compile.ofScriptLenient_built named
  obtain ⟨d, sound, built⟩ := hbuilt
  have retains := after_retains (ofProgram p) ops
  refine ⟨retains.program, fun h hh rel mask pattern body hnode => ?_,
    fun q hq hmode args memo => ?_⟩
  · exact retains.indexed (built.handler_indexed sound hh hnode)
  · have hnotes := built.ask_notes sound hq hmode ((ofProgram p).after ops).store args
    obtain ⟨lookups, hindexed, hrun⟩ := hnotes [] memo
    exact ⟨lookups, hrun, fun l hl => retains.indexed (hindexed l hl)⟩

def twoStepsText : String :=
  "relation R(2); query Q = \x7b(x, z) : (x, y) in R, (y, z) in R\x7d; " ++
    "query B(x) = \x7bz : (x, y) in R, (y, z) in R\x7d with impl = batch;"

def twoStepsOps : List Op := [.add "R" [.int 1, .int 2], .add "R" [.int 2, .int 3]]

set_option maxRecDepth 10000 in
theorem after_indexed_twoSteps : ∃ script p,
    Script.ofText twoStepsText = .ok script ∧ Program.ofScript ⟨.default, .silent⟩ script = .ok p ∧
    ∃ s, s = (ofProgram p).after twoStepsOps ∧
      (∃ h ∈ p.handlers, ∃ pattern body,
        (Code.lookup "R" ⟨[false, true]⟩ pattern body).Inside h.code ∧
        s.store.Indexed "R" ⟨[false, true]⟩) ∧
      ∃ q ∈ p.queries, q.mode = .batch ∧
        (Batch.run p s.store (q.name, some [.int 1]) []).1.toOption = some [[.int 3]] ∧
        (Batch.runNoting p s.store (q.name, some [.int 1]) []).1 =
          ((Batch.run p s.store (q.name, some [.int 1]) []).1,
            [("R", ⟨[true, false]⟩), ("R", ⟨[true, false]⟩)]) ∧
        s.store.Indexed "R" ⟨[true, false]⟩ := by
  obtain ⟨p, hp, ⟨g, hg, hnode⟩, q, hq, hmode, hanswer, hnoted⟩ : ∃ p,
      Program.ofText? ⟨.default, .silent⟩ twoStepsText = some p ∧
      (∃ h ∈ p.handlers, ("R", ⟨[false, true]⟩) ∈ h.code.lookupNodes) ∧
      ∃ q ∈ p.queries, q.mode = .batch ∧
        (Batch.run p ((ofProgram p).after twoStepsOps).store
          (q.name, some [.int 1]) []).1.toOption = some [[.int 3]] ∧
        (Batch.runNoting p ((ofProgram p).after twoStepsOps).store
          (q.name, some [.int 1]) []).1.2 = [("R", ⟨[true, false]⟩), ("R", ⟨[true, false]⟩)] := by
    decide +kernel
  obtain ⟨script, hscript, hof⟩ := Program.exists_script_of_text hp
  obtain ⟨pattern, body, hinside⟩ := Code.mem_lookupNodes.mp hnode
  obtain ⟨_, hhandlers, hqueries⟩ := after_indexed hscript (.inl hof) twoStepsOps
  obtain ⟨lookups, hrun, hindexed⟩ := hqueries q hq hmode (some [.int 1]) []
  rw [hrun] at hnoted
  cases hnoted
  refine ⟨script, p, hscript, hof, _, rfl, ⟨g, hg, pattern, body, hinside, ?_⟩, q, hq, hmode,
    hanswer, by rw [hrun], ?_⟩
  · exact hhandlers g hg _ _ pattern body hinside
  · exact hindexed _ List.mem_cons_self

end Session

end ViewUpkeep
