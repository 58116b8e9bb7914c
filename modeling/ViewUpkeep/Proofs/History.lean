import ViewUpkeep.Proofs.Orderly

/-!
Histories: what the user can do to a session, one operation after another. Whatever the operations
and whatever fails, a session is in good order until it is poisoned, and no relation is ever asked
for what it cannot do.
-/
namespace ViewUpkeep

namespace Session

inductive Op where
  | add (rel : String) (row : Row)
  | remove (rel : String) (row : Row)
  | assign (map : String) (key : Row) (value : Value)
  | unassign (map : String) (key : Row)
  | demand (query : String) (params : Row)
  | undemand (query : String) (params : Row)
  | query (name : String) (params : Row)
deriving DecidableEq

def unanswered {α : Type} (out : Outcome α) : Outcome Unit := (out.1, out.2.map fun _ => ())

def perform (s : Session) : Op → Outcome Unit
  | .add rel row => unanswered (s.add rel row)
  | .remove rel row => unanswered (s.remove rel row)
  | .assign map key value => unanswered (s.assign map key value)
  | .unassign map key => unanswered (s.unassign map key)
  | .demand query params => s.demand query params
  | .undemand query params => s.undemand query params
  | .query name params => unanswered (s.query name params)

/-- The session after some operations, failed ones included. -/
def after (s : Session) (ops : List Op) : Session := ops.foldl (fun s op => (s.perform op).1) s

theorem after_concat (s : Session) (ops : List Op) (op : Op) :
    s.after (ops ++ [op]) = ((s.after ops).perform op).1 := by
  rw [after, List.foldl_append]
  rfl

variable {o : Compile.Options} {d : Declarations} {p : Program} {base base' : String → Row → Nat}
  {s : Session} {α : Type}

/-! ### Accounts of base relations -/

def more (base : String → Row → Nat) (rel : String) (row : Row) : String → Row → Nat :=
  fun r x => base r x + if r = rel ∧ x = row then 1 else 0

def less (base : String → Row → Nat) (rel : String) (row : Row) : String → Row → Nat :=
  fun r x => base r x - if r = rel ∧ x = row then 1 else 0

theorem shifts_more (base : String → Row → Nat) (rel : String) (row : Row) :
    Shifts ⟨rel, .add, row⟩ base (more base rel row) :=
  ⟨fun _ _ _ => rfl, nofun⟩

theorem shifts_less {rel : String} {row : Row} (h : 0 < base rel row) :
    Shifts ⟨rel, .remove, row⟩ base (less base rel row) := by
  refine ⟨nofun, fun _ r x => ?_⟩
  unfold less
  dsimp only
  split
  · rename_i hkey
    obtain ⟨rfl, rfl⟩ := hkey
    omega
  · omega

theorem less_le (base : String → Row → Nat) (rel : String) (row : Row) (r : String) (x : Row) :
    less base rel row r x ≤ base r x := Nat.sub_le _ _

end Session

theorem Declarations.Sound.info_inj {d : Declarations} (sound : d.Sound) {info other : RelationInfo}
    (hinfo : info ∈ d.relations) (hother : other ∈ d.relations) (h : info.name = other.name) :
    info = other :=
  List.inj_on_of_nodup_map (List.nodup_append.mp sound.nodup).1 hinfo hother h

namespace Tidy

variable {d : Declarations} {base base' : String → Row → Nat}

theorem mono (tidy : Tidy d base) (h : ∀ rel row, base' rel row ≤ base rel row) : Tidy d base' := by
  refine ⟨?_, ?_, ?_⟩
  · intro info hinfo row
    exact (h _ _).trans (tidy.once info hinfo row)
  · intro info hinfo row hrow
    exact tidy.width info hinfo row (hrow.trans_le (h _ _))
  · intro info hinfo n hn row other hrow hother
    exact tidy.keyed info hinfo n hn row other (hrow.trans_le (h _ _)) (hother.trans_le (h _ _))

theorem more (tidy : Tidy d base) (sound : d.Sound) {info : RelationInfo}
    (hinfo : info ∈ d.relations)
    {row : Row} (hlen : row.length = info.arity) (absent : ¬ 0 < base info.name row)
    (hkey : ∀ n, info.kind = .map n → ∀ other, 0 < base info.name other →
      other.take n ≠ row.take n) : Tidy d (Session.more base info.name row) := by
  have hcases : ∀ other ∈ d.relations, ∀ x, 0 < Session.more base info.name row other.name x →
      (other = info ∧ x = row) ∨ 0 < base other.name x := by
    intro other hother x hx
    unfold Session.more at hx
    split at hx
    · rename_i h
      exact .inl ⟨sound.info_inj hother hinfo h.1, h.2⟩
    · exact .inr hx
  refine ⟨?_, ?_, ?_⟩
  · intro other hother x
    have hone := tidy.once other hother x
    unfold Session.more
    split
    · rename_i h
      rw [h.1, h.2] at hone ⊢
      omega
    · exact hone
  · intro other hother x hx
    rcases hcases other hother x hx with ⟨rfl, rfl⟩ | hx
    · exact hlen
    · exact tidy.width other hother x hx
  · intro other hother n hn x y hx hy htake
    rcases hcases other hother x hx with ⟨rfl, rfl⟩ | hx'
    · rcases hcases other hother y hy with ⟨_, rfl⟩ | hy'
      · rfl
      · exact absurd htake.symm (hkey n hn y hy')
    · rcases hcases other hother y hy with ⟨rfl, rfl⟩ | hy'
      · exact absurd htake (hkey n hn x hx')
      · exact tidy.keyed other hother n hn x y hx' hy' htake

end Tidy

namespace Session

variable {o : Compile.Options} {d : Declarations} {p : Program} {base : String → Row → Nat}
  {s : Session} {α : Type}

/-! ### What operations look up -/

theorem Orderly.get_base (order : s.Orderly d p base) (built : Compile.Built o d p)
    (sound : d.Sound) {info : RelationInfo} (hinfo : info ∈ d.relations) :
    ∃ r, s.store.get? info.name = some r ∧ r.info = info ∧ r.Sound ∧
      ∀ row, row ∈ r.toList ↔ 0 < base info.name row := by
  have hcatalog := ((built.base_iff sound info).mpr hinfo).1
  have hfind : s.store.infos.find? (·.name = info.name) = some info := by
    rw [order.infos]
    exact (find_eq_some_iff_of_nodup_map (built.nodup_catalog sound)).mpr ⟨hcatalog, rfl⟩
  rw [← Store.info_get?] at hfind
  obtain ⟨r, hr, hinf⟩ := Option.map_eq_some_iff.mp hfind
  refine ⟨r, hr, hinf, order.sound.get? hr, fun row => ?_⟩
  rw [← order.has_base built sound (List.mem_map_of_mem hinfo)]
  exact (Store.has_iff hr row).symm

theorem baseInfo_eq_ok {rel : String} {arity : Nat} {info : RelationInfo}
    (h : s.baseInfo rel arity = .ok info) :
    (info ∈ s.program.catalog ∧ info.origin.isBase = true) ∧ info.name = rel ∧
      info.arity = arity := by
  unfold baseInfo at h
  split at h
  · split at h <;> cases h
  · rename_i found hfound
    split at h
    · cases h
    · rename_i hbase
      split at h
      · cases h
      · rename_i harity
        cases h
        refine ⟨⟨List.mem_of_find?_eq_some hfound, by simpa using hbase⟩, ?_, by simpa using harity⟩
        simpa using List.find?_some hfound

theorem baseInfo_ne_breach (s : Session) (rel : String) (arity : Nat) (b : Breach) :
    s.baseInfo rel arity ≠ .error (.breach b) := by
  intro h
  unfold baseInfo at h
  repeat' split at h
  all_goals cases h

theorem checkMap_eq_ok {map : String} {length : Nat} (h : s.checkMap map length = .ok ()) :
    ∃ info n, s.baseInfo map (length + 1) = .ok info ∧ info.kind = .map n := by
  unfold checkMap at h
  split at h
  · cases h
  · cases h
  · rename_i info hinfo
    split at h
    · rename_i n hn
      exact ⟨info, n, hinfo, hn⟩
    · cases h

theorem checkMap_ne_breach (s : Session) (map : String) (length : Nat) (b : Breach) :
    s.checkMap map length ≠ .error (.breach b) := by
  intro h
  unfold checkMap at h
  split at h
  · cases h
  · rename_i e he
    cases h
    exact baseInfo_ne_breach s map _ b he
  · split at h <;> cases h

theorem Orderly.mapValue_none (order : s.Orderly d p base) (built : Compile.Built o d p)
    (sound : d.Sound) {info : RelationInfo} (hinfo : info ∈ d.relations) {n : Nat}
    (hkind : info.kind = .map n) {key : Row} (h : s.mapValue info.name key = none) :
    ∀ row, 0 < base info.name row → row.take n ≠ key := by
  intro row hrow
  obtain ⟨r, hr, rfl, hsound, hrows⟩ := order.get_base built sound hinfo
  have harity := (sound.relations _ hinfo).key n hkind
  refine Relation.mapValue_eq_none hsound hkind harity ?_ ?_ row ((hrows row).mpr hrow)
  · intro x hx
    rw [order.tidy.width _ hinfo x ((hrows x).mp hx), harity]
  · simpa [mapValue, hr] using h

theorem Orderly.mapValue_some (order : s.Orderly d p base) (built : Compile.Built o d p)
    (sound : d.Sound) {info : RelationInfo} (hinfo : info ∈ d.relations) {n : Nat}
    (hkind : info.kind = .map n) {key : Row} {value : Value}
    (h : s.mapValue info.name key = some value) : 0 < base info.name (key ++ [value]) := by
  obtain ⟨r, hr, rfl, hsound, hrows⟩ := order.get_base built sound hinfo
  have harity := (sound.relations _ hinfo).key n hkind
  refine (hrows _).mp (Relation.mapValue_eq_some hsound hkind harity ?_ ?_)
  · intro x hx
    rw [order.tidy.width _ hinfo x ((hrows x).mp hx), harity]
  · simpa [mapValue, hr] using h

theorem demandTarget_eq_ok {query : String} {params : Row} {u : String}
    (h : s.demandTarget query params = .ok u) :
    ∃ q ∈ s.program.queries, q.name = query ∧ q.demandSet = some u ∧
      q.params.length = params.length := by
  obtain ⟨q, hq, h⟩ := bind_eq_ok.mp h
  have hfind : s.program.query? query = some q := by
    unfold compiled at hq
    split at hq
    · rename_i r hr
      cases hq
      exact hr
    · cases hq
  split at h
  · cases h
  · rename_i v hv
    obtain ⟨_, hcheck, h⟩ := bind_eq_ok.mp h
    cases h
    refine ⟨q, List.mem_of_find?_eq_some hfind, by simpa using List.find?_some hfind, hv, ?_⟩
    unfold checkArity at hcheck
    split at hcheck
    · assumption
    · cases hcheck

theorem compiled_ne_breach (s : Session) (query : String) (b : Breach) :
    s.compiled query ≠ .error (.breach b) := by
  intro h
  unfold compiled at h
  split at h <;> cases h

theorem checkArity_ne_breach (name : String) (expected found : Nat) (b : Breach) :
    checkArity name expected found ≠ .error (.breach b) := by
  intro h
  unfold checkArity at h
  split at h <;> cases h

theorem demandTarget_ne_breach (s : Session) (query : String) (params : Row) (b : Breach) :
    s.demandTarget query params ≠ .error (.breach b) := by
  intro h
  unfold demandTarget at h
  cases hq : s.compiled query with
  | error e =>
    rw [hq] at h
    cases h
    exact compiled_ne_breach s query b hq
  | ok q =>
    rw [hq] at h
    simp only [bind, Except.bind] at h
    split at h
    · cases h
    · cases hcheck : checkArity query q.params.length params.length with
      | error e =>
        rw [hcheck] at h
        cases h
        exact checkArity_ne_breach _ _ _ b hcheck
      | ok _ =>
        rw [hcheck] at h
        cases h

theorem evaluate_ne_breach (s : Session) (query : String) (params : Row) (b : Breach) :
    s.evaluate query params ≠ .error (.breach b) := by
  intro h
  unfold evaluate at h
  cases hq : s.compiled query with
  | error e =>
    rw [hq] at h
    cases h
    exact compiled_ne_breach s query b hq
  | ok q =>
    rw [hq] at h
    simp only [bind, Except.bind] at h
    cases hcheck : checkArity query q.params.length params.length with
    | error e =>
      rw [hcheck] at h
      cases h
      exact checkArity_ne_breach _ _ _ b hcheck
    | ok _ =>
      rw [hcheck] at h
      dsimp only at h
      split at h <;> cases h

/-! ### Operations -/

structure Keeps (d : Declarations) (p : Program) (out : Outcome α) : Prop where
  safe : ∀ b, out.2 ≠ .error (.breach b)
  state : out.1.poisoned = true ∨ ∃ base, out.1.Orderly d p base

theorem Keeps.unanswered {out : Outcome α} (h : Keeps d p out) :
    Keeps d p (Session.unanswered out) := by
  refine ⟨fun b hb => ?_, h.state⟩
  obtain ⟨t, r⟩ := out
  cases r with
  | error e => exact h.safe b (by cases hb; rfl)
  | ok a => cases hb

theorem Keeps.stay (order : s.Orderly d p base) {r : Except RuntimeError α}
    (h : ∀ b, r ≠ .error (.breach b)) : Keeps d p (s, r) := ⟨h, .inr ⟨base, order⟩⟩

theorem Keeps.refuse (h : s.poisoned = true) : Keeps d p ((s, .error .poisoned) : Outcome α) :=
  ⟨nofun, .inl h⟩

theorem Keeps.fail (h : s.poisoned = true) {e : RuntimeError} (he : ∀ b, e ≠ .breach b) :
    Keeps d p ((s, .error e) : Outcome α) :=
  ⟨fun b hb => he b (by cases hb; rfl), .inl h⟩

theorem Leads.cases {demands : List ((String × Row) × Nat)} {out : Outcome Unit}
    (h : Leads d p base demands out) :
    (∃ t e, out = (t, .error e) ∧ t.poisoned = true ∧ ∀ b, e ≠ .breach b) ∨
      ∃ t, out = (t, .ok ()) ∧ t.Orderly d p base ∧ t.demands = demands := by
  obtain ⟨t, r⟩ := out
  cases r with
  | error e => exact .inl ⟨t, e, rfl, h.poisoned nofun, fun b hb => h.safe b (by rw [hb])⟩
  | ok _ => exact .inr ⟨t, rfl, h.orderly rfl⟩

theorem Leads.keeps {demands : List ((String × Row) × Nat)} {out : Outcome Unit}
    (h : Leads d p base demands out) : Keeps d p out := by
  rcases h.cases with ⟨t, e, rfl, ht, he⟩ | ⟨t, rfl, ht, _⟩
  · exact .fail ht he
  · exact .stay ht nofun

section Operations

variable (built : Compile.Built o d p) (sound : d.Sound) (follows : p.Follows o.estimate)

include built sound follows

theorem Orderly.add_leads (order : s.Orderly d p base) {info : RelationInfo}
    (hinfo : info ∈ d.relations) {row : Row} (hlen : row.length = info.arity)
    (absent : ¬ 0 < base info.name row)
    (hkey : ∀ n, info.kind = .map n → ∀ other, 0 < base info.name other →
      other.take n ≠ row.take n) :
    Leads d p (more base info.name row) s.demands (s.change ⟨info.name, .add, row⟩) :=
  order.change_base built sound follows (List.mem_map_of_mem hinfo) (shifts_more base info.name row)
    (order.tidy.more sound hinfo hlen absent hkey)

theorem Orderly.remove_leads (order : s.Orderly d p base) {info : RelationInfo}
    (hinfo : info ∈ d.relations) {row : Row} (present : 0 < base info.name row) :
    Leads d p (less base info.name row) s.demands (s.change ⟨info.name, .remove, row⟩) :=
  order.change_base built sound follows (List.mem_map_of_mem hinfo) (shifts_less present)
    (order.tidy.mono (less_le base info.name row))

theorem Orderly.addRow_keeps (order : s.Orderly d p base) {info : RelationInfo}
    (hinfo : info ∈ d.relations) {row : Row} (hlen : row.length = info.arity)
    (hkey : ∀ n, info.kind = .map n → ∀ other, 0 < base info.name other →
      other.take n ≠ row.take n) : Keeps d p (s.addRow info.name row) := by
  unfold addRow
  split
  · exact .stay order nofun
  · rename_i hcontains
    rw [order.has_base built sound (List.mem_map_of_mem hinfo)] at hcontains
    rcases (order.add_leads built sound follows hinfo hlen hcontains hkey).cases with
      ⟨t, e, ht, hp, he⟩ | ⟨t, ht, horder, _⟩
    · rw [ht]
      exact .fail hp he
    · rw [ht]
      exact .stay horder nofun

theorem Orderly.add_keeps (order : s.Orderly d p base) (rel : String) (row : Row) :
    Keeps d p (s.add rel row) := by
  unfold add
  split
  · rename_i hp
    exact .refuse hp
  · split
    · rename_i e he
      exact .stay order fun b hb => baseInfo_ne_breach s rel _ b (by cases hb; exact he)
    · rename_i info hbase
      obtain ⟨hinfo, rfl, harity⟩ := baseInfo_eq_ok hbase
      rw [order.program, built.base_iff sound] at hinfo
      split
      · rename_i hkind
        exact order.addRow_keeps built sound follows hinfo harity.symm (by simp [hkind])
      · rename_i n hkind
        split
        · rename_i hnone
          refine order.addRow_keeps built sound follows hinfo harity.symm ?_
          intro m hm
          cases hkind.symm.trans hm
          exact order.mapValue_none built sound hinfo hkind hnone
        · split
          · exact .stay order nofun
          · exact .stay order nofun

theorem Orderly.remove_keeps (order : s.Orderly d p base) (rel : String) (row : Row) :
    Keeps d p (s.remove rel row) := by
  unfold remove
  split
  · rename_i hp
    exact .refuse hp
  · split
    · rename_i e he
      exact .stay order fun b hb => baseInfo_ne_breach s rel _ b (by cases hb; exact he)
    · rename_i info hbase
      obtain ⟨hinfo, rfl, harity⟩ := baseInfo_eq_ok hbase
      rw [order.program, built.base_iff sound] at hinfo
      split
      · rename_i hcontains
        rw [order.has_base built sound (List.mem_map_of_mem hinfo)] at hcontains
        rcases (order.remove_leads built sound follows hinfo hcontains).cases with
          ⟨t, e, ht, hp, he⟩ | ⟨t, ht, horder, _⟩
        · rw [ht]
          exact .fail hp he
        · rw [ht]
          exact .stay horder nofun
      · exact .stay order nofun

theorem Orderly.unassign_keeps (order : s.Orderly d p base) (map : String) (key : Row) :
    Keeps d p (s.unassign map key) := by
  unfold unassign
  split
  · rename_i hp
    exact .refuse hp
  · split
    · rename_i e he
      exact .stay order fun b hb => checkMap_ne_breach s map _ b (by cases hb; exact he)
    · rename_i hcheck
      obtain ⟨info, n, hbase, hkind⟩ := checkMap_eq_ok hcheck
      obtain ⟨hinfo, rfl, harity⟩ := baseInfo_eq_ok hbase
      rw [order.program, built.base_iff sound] at hinfo
      split
      · exact .stay order nofun
      · rename_i old hold
        have present := order.mapValue_some built sound hinfo hkind hold
        rcases (order.remove_leads built sound follows hinfo present).cases with
          ⟨t, e, ht, hp, he⟩ | ⟨t, ht, horder, _⟩
        · rw [ht]
          exact .fail hp he
        · rw [ht]
          exact .stay horder nofun

theorem Orderly.assign_keeps (order : s.Orderly d p base) (map : String) (key : Row)
    (value : Value) :
    Keeps d p (s.assign map key value) := by
  unfold assign
  split
  · rename_i hp
    exact .refuse hp
  · split
    · rename_i e he
      exact .stay order fun b hb => checkMap_ne_breach s map _ b (by cases hb; exact he)
    · rename_i hcheck
      obtain ⟨info, n, hbase, hkind⟩ := checkMap_eq_ok hcheck
      obtain ⟨hinfo, rfl, harity⟩ := baseInfo_eq_ok hbase
      rw [order.program, built.base_iff sound] at hinfo
      have hn : key.length = n := by
        have := (sound.relations info hinfo).key n hkind
        omega
      have htake : ∀ x : Value, (key ++ [x]).take n = key := fun x => List.take_left' hn
      have hlen : (key ++ [value]).length = info.arity := by simp [harity]
      split
      · rename_i hnone
        have hfree := order.mapValue_none built sound hinfo hkind hnone
        have hkey : ∀ m, info.kind = .map m → ∀ other, 0 < base info.name other →
            other.take m ≠ (key ++ [value]).take m := by
          intro m hm other hother
          cases hkind.symm.trans hm
          rw [htake]
          exact hfree other hother
        have habsent : ¬ 0 < base info.name (key ++ [value]) := fun h => hfree _ h (htake value)
        rcases (order.add_leads built sound follows hinfo hlen habsent hkey).cases with
          ⟨t, e, ht, hp, he⟩ | ⟨t, ht, horder, _⟩
        · rw [ht]
          exact .fail hp he
        · rw [ht]
          exact .stay horder nofun
      · rename_i old hold
        split
        · exact .stay order nofun
        · rename_i hne
          have present := order.mapValue_some built sound hinfo hkind hold
          have hfree : ∀ other, 0 < less base info.name (key ++ [old]) info.name other →
              other.take n ≠ key := by
            intro other hother hkey
            have hpos := hother.trans_le (less_le base info.name (key ++ [old]) info.name other)
            have heq := order.tidy.keyed info hinfo n hkind other (key ++ [old]) hpos present
              (hkey.trans (htake old).symm)
            have hone := order.tidy.once info hinfo (key ++ [old])
            unfold less at hother
            rw [heq, if_pos ⟨rfl, rfl⟩] at hother
            omega
          rcases (order.remove_leads built sound follows hinfo present).cases with
            ⟨t, e, ht, hp, he⟩ | ⟨t, ht, horder, _⟩
          · rw [ht]
            exact .fail hp he
          · rw [ht]
            have hkey : ∀ m, info.kind = .map m → ∀ other,
                0 < less base info.name (key ++ [old]) info.name other →
                other.take m ≠ (key ++ [value]).take m := by
              intro m hm other hother
              cases hkind.symm.trans hm
              rw [htake]
              exact hfree other hother
            rcases (horder.add_leads built sound follows hinfo hlen
                (fun h => hfree _ h (htake value)) hkey).cases with
              ⟨t', e, ht', hp, he⟩ | ⟨t', ht', horder', _⟩
            · dsimp only
              rw [ht']
              exact .fail hp he
            · dsimp only
              rw [ht']
              exact .stay horder' nofun

theorem Orderly.demand_keeps (order : s.Orderly d p base) (query : String) (params : Row) :
    Keeps d p (s.demand query params) := by
  unfold demand
  split
  · rename_i hp
    exact .refuse hp
  · split
    · rename_i e he
      exact .stay order fun b hb => demandTarget_ne_breach s query params b (by cases hb; exact he)
    · rename_i u hu
      obtain ⟨q, hq, rfl, hset, _⟩ := demandTarget_eq_ok hu
      rw [order.program] at hq
      refine (order.change_demand built sound follows hq (u := ⟨u, .add, params⟩) hset
        ?_ nofun).keeps
      exact fun _ => rfl

theorem Orderly.undemand_keeps (order : s.Orderly d p base) (query : String) (params : Row) :
    Keeps d p (s.undemand query params) := by
  unfold undemand
  split
  · rename_i hp
    exact .refuse hp
  · split
    · rename_i e he
      exact .stay order fun b hb => demandTarget_ne_breach s query params b (by cases hb; exact he)
    · rename_i u hu
      obtain ⟨q, hq, rfl, hset, _⟩ := demandTarget_eq_ok hu
      rw [order.program] at hq
      split
      · exact .stay order nofun
      · rename_i n hn
        exact (order.change_demand built sound follows hq (u := ⟨u, .remove, params⟩) hset nofun
          fun _ => hn).keeps

theorem Orderly.query_keeps (order : s.Orderly d p base) (name : String) (params : Row) :
    Keeps d p (s.query name params) := by
  unfold query
  split
  · rename_i hp
    exact .refuse hp
  · split
    · rename_i e he
      exact .stay order fun b hb => compiled_ne_breach s name b (by cases hb; exact he)
    · split
      · rename_i e he
        exact .stay order fun b hb => checkArity_ne_breach _ _ _ b (by cases hb; exact he)
      · split
        · exact .stay order (evaluate_ne_breach s name params)
        · exact .stay order nofun
        · split
          · rename_i e he
            refine .stay order fun b hb => demandTarget_ne_breach s name params b ?_
            cases hb
            unfold isDemanded at he
            cases ht : s.demandTarget name params with
            | error e =>
              rw [ht] at he
              cases he
              rfl
            | ok u =>
              rw [ht] at he
              cases he
          · exact .stay order nofun
          · have hkeeps := order.demand_keeps built sound follows name params
            split
            · rename_i t e ht
              rw [ht] at hkeeps
              exact ⟨fun b hb => hkeeps.safe b (by cases hb; rfl), hkeeps.state⟩
            · rename_i t ht
              rw [ht] at hkeeps
              exact ⟨nofun, hkeeps.state⟩

theorem Orderly.perform_keeps (order : s.Orderly d p base) (op : Op) :
    Keeps d p (s.perform op) := by
  cases op with
  | add rel row => exact (order.add_keeps built sound follows rel row).unanswered
  | remove rel row => exact (order.remove_keeps built sound follows rel row).unanswered
  | assign map key value => exact (order.assign_keeps built sound follows map key value).unanswered
  | unassign map key => exact (order.unassign_keeps built sound follows map key).unanswered
  | demand query params => exact order.demand_keeps built sound follows query params
  | undemand query params => exact order.undemand_keeps built sound follows query params
  | query name params => exact (order.query_keeps built sound follows name params).unanswered

omit built sound follows in
theorem perform_poisoned (h : s.poisoned = true) (op : Op) :
    s.perform op = (s, .error .poisoned) := by
  cases op <;> simp [perform, unanswered, Except.map, add, remove, assign, unassign,
    demand, undemand,
    query, h]

/-- Every history keeps the order or poisons the session. -/
theorem after_keeps (ops : List Op) :
    ((ofProgram p).after ops).poisoned = true ∨
      ∃ base, ((ofProgram p).after ops).Orderly d p base := by
  suffices h : ∀ s : Session, (s.poisoned = true ∨ ∃ base, s.Orderly d p base) →
      (s.after ops).poisoned = true ∨ ∃ base, (s.after ops).Orderly d p base from
    h _ (.inr ⟨_, ofProgram_orderly built sound follows⟩)
  induction ops with
  | nil => exact fun s h => h
  | cons op ops ih =>
    rintro s (hp | ⟨base, order⟩)
    · refine ih _ (.inl ?_)
      dsimp only
      rw [perform_poisoned hp]
      exact hp
    · exact ih _ (order.perform_keeps built sound follows op).state

end Operations

end Session

/-! ### Programs from text -/

def Program.ofText? (o : Compile.Options) (text : String) : Option Program :=
  match Script.ofText text with
  | .error _ => none
  | .ok script =>
    match Program.ofScript o script with
    | .error _ => none
    | .ok p => some p

theorem Program.exists_script_of_text {o : Compile.Options} {text : String} {p : Program}
    (h : Program.ofText? o text = some p) :
    ∃ script, Script.ofText text = .ok script ∧ Program.ofScript o script = .ok p := by
  unfold ofText? at h
  split at h
  · cases h
  · rename_i script hscript
    split at h
    · cases h
    · rename_i hp
      cases h
      exact ⟨script, hscript, hp⟩

theorem Program.script_of_text {o : Compile.Options} {text : String} {p : Program}
    (h : Program.ofText? o text = some p) : ∃ script, Script.ofText text = .ok script ∧
      ∃ d decls, Compile.prepare script = .ok (d, decls) ∧ d.Sound ∧ Compile.Built o d p ∧
        p.queries.map (·.name) = decls.map (·.name) := by
  obtain ⟨script, hscript, hp⟩ := exists_script_of_text h
  exact ⟨script, hscript, Compile.ofScript_built (Script.ofText_wellNamed hscript) hp⟩

theorem Program.built_of_text {o : Compile.Options} {text : String} {p : Program}
    (h : Program.ofText? o text = some p) : ∃ d : Declarations, d.Sound ∧ Compile.Built o d p := by
  obtain ⟨_, _, d, _, _, sound, built, _⟩ := script_of_text h
  exact ⟨d, sound, built⟩

/-- Every query that is kept up to date is so by one of some strategies. -/
def Program.KeptBy (p : Program) (strategies : List SelfJoin) : Prop :=
  ∀ q ∈ p.queries, q.maintained.isSome → q.settings.selfJoin ∈ strategies

instance (p : Program) (strategies : List SelfJoin) : Decidable (p.KeptBy strategies) :=
  inferInstanceAs (Decidable (∀ q ∈ p.queries, q.maintained.isSome →
    q.settings.selfJoin ∈ strategies))

theorem Program.KeptBy.exact {p : Program} {strategies : List SelfJoin} (h : p.KeptBy strategies)
    (hs : .assumeDisjoint ∉ strategies) :
    ∀ q ∈ p.queries, q.maintained.isSome → q.settings.selfJoin ≠ .assumeDisjoint :=
  fun q hq hm he => hs (he ▸ h q hq hm)

def sampleText (options : String) : String :=
  "relation R(2); map M(1); query S(x) = \x7bz : (x, y) in R, (y, z) in M\x7d; " ++
    "query Q = \x7b(x, z) : (x, y) in R, z in S(y), (y, x) in R\x7d" ++ options ++ ";"

namespace Session

def sampleOps : List Op :=
  [.add "R" [.int 1, .int 2], .add "R" [.int 2, .int 1], .assign "M" [.int 1] (.int 5),
    .demand "S" [.int 2], .demand "S" [.int 2]]

/-- No operation asks a relation to take a row that it has, to drop a row that it has not or to
count below zero, whatever was done before and whatever of it failed. -/
theorem perform_ne_breach {o : Compile.Options} {text : String} {p : Program}
    (compiles : Program.ofText? o text = some p)
    (strategies : p.KeptBy [.sub, .aug, .das, .assumeDisjointVerify]) (ops : List Op) (op : Op)
    (b : Breach) : (((ofProgram p).after ops).perform op).2 ≠ .error (.breach b) := by
  obtain ⟨d, sound, built⟩ := Program.built_of_text compiles
  have follows := built.follows sound (strategies.exact (by decide))
  rcases after_keeps built sound follows ops with hp | ⟨base, order⟩
  · rw [perform_poisoned hp]
    nofun
  · exact (order.perform_keeps built sound follows op).safe b

set_option maxRecDepth 10000 in
theorem perform_ne_breach_sample : ∃ p,
    Program.ofText? ⟨.default, .silent⟩
      (sampleText " with selfjoin = assume_disjoint_verify") = some p ∧
    p.KeptBy [.sub, .aug, .das, .assumeDisjointVerify] ∧
    ∀ b, (((ofProgram p).after (sampleOps ++ [.add "R" [.int 3], .undemand "S" [.int 3]])).perform
      (.remove "R" [.int 2, .int 1])).2 ≠ .error (.breach b) := by
  obtain ⟨p, hp, hkept⟩ : ∃ p, Program.ofText? ⟨.default, .silent⟩
        (sampleText " with selfjoin = assume_disjoint_verify") = some p ∧
      p.KeptBy [.sub, .aug, .das, .assumeDisjointVerify] := by
    decide +kernel
  exact ⟨p, hp, hkept, perform_ne_breach hp hkept _ _⟩

end Session

end ViewUpkeep
