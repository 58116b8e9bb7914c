import ViewUpkeep.Proofs.Tables
import ViewUpkeep.Proofs.Writes

/-!
Base relations refine tables. Whatever was done to a session, each of its base relations has exactly
the rows of its table, which the four operations on tables change and nothing else does; and they
tell whether they have changed it.
-/
namespace ViewUpkeep

/-! ### Programs and their base relations -/

namespace Program

def bases (p : Program) : List RelationInfo := p.catalog.filter (·.origin.isBase)

structure Based (p : Program) : Prop where
  nodup : (p.catalog.map (·.name)).Nodup
  declared : ∀ info ∈ p.bases, info.Declared
  unwritten : ∀ info ∈ p.bases, p.Unwritten info.name
  undemanded : ∀ info ∈ p.bases, ∀ q ∈ p.queries, q.demandSet ≠ some info.name

theorem Based.eq_of_name {p : Program} (based : p.Based) {info other : RelationInfo}
    (hinfo : info ∈ p.bases) (hother : other ∈ p.bases) (hname : info.name = other.name) :
    info = other :=
  List.inj_on_of_nodup_map based.nodup (List.mem_of_mem_filter hinfo)
    (List.mem_of_mem_filter hother) hname

end Program

theorem Compile.Built.mem_bases {o : Options} {d : Declarations} {p : Program}
    (built : Built o d p) (sound : d.Sound) {info : RelationInfo} :
    info ∈ p.bases ↔ info ∈ d.relations := by
  rw [← built.base_iff sound info]
  exact List.mem_filter

theorem Compile.Built.based {o : Options} {d : Declarations} {p : Program}
    (built : Built o d p) (sound : d.Sound) : p.Based := by
  refine ⟨built.nodup_catalog sound, fun info hinfo => ?_, fun info hinfo => ?_,
    fun info hinfo q hq hset => ?_⟩
  · exact sound.relations info ((built.mem_bases sound).mp hinfo)
  · exact built.base_unwritten sound (List.mem_map_of_mem ((built.mem_bases sound).mp hinfo))
  · exact built.demandSet_not_base sound hq hset
      (List.mem_map_of_mem ((built.mem_bases sound).mp hinfo))

namespace Session

variable {p : Program} {s t : Session} {m m' : Tables} {info : RelationInfo}

structure Mirrors (p : Program) (m : Tables) (s : Session) : Prop where
  program : s.program = p
  held : ∀ info ∈ p.bases, ∃ r, s.store.get? info.name = some r ∧ (m info.name).Held info r

section Checks

variable (based : p.Based) (program : s.program = p) {rel : String} {length : Nat}

include based program

theorem baseInfo_ok_iff : s.baseInfo rel length = .ok info ↔
    info ∈ p.bases ∧ info.name = rel ∧ info.arity = length := by
  constructor
  · intro h
    obtain ⟨⟨hmem, hbase⟩, hname, harity⟩ := baseInfo_eq_ok h
    exact ⟨List.mem_filter.mpr ⟨program ▸ hmem, hbase⟩, hname, harity⟩
  · rintro ⟨hinfo, hname, harity⟩
    obtain ⟨hmem, hbase⟩ := List.mem_filter.mp hinfo
    have hfind : p.relation? rel = some info :=
      (find_eq_some_iff_of_nodup_map based.nodup).mpr ⟨hmem, hname⟩
    simp only [baseInfo, program, hfind, hbase, harity, Bool.not_true, Bool.false_eq_true, if_false,
      ne_eq, not_true_eq_false]

theorem takesRow_of_baseInfo (h : s.baseInfo rel length = .ok info) :
    Tables.takesRow p.bases rel length = true := by
  obtain ⟨hinfo, hname, harity⟩ := (baseInfo_ok_iff based program).mp h
  exact List.any_eq_true.mpr ⟨info, hinfo, by simp [hname, harity]⟩

theorem not_takesRow_of_baseInfo {e : RuntimeError} (h : s.baseInfo rel length = .error e) :
    Tables.takesRow p.bases rel length = false := by
  rw [Bool.eq_false_iff]
  intro htakes
  obtain ⟨info, hinfo, htakes⟩ := List.any_eq_true.mp htakes
  simp only [Bool.and_eq_true, decide_eq_true_eq] at htakes
  rw [(baseInfo_ok_iff based program).mpr ⟨hinfo, htakes⟩] at h
  cases h

theorem checkMap_ok_iff : s.checkMap rel length = .ok () ↔
    ∃ info ∈ p.bases, info.name = rel ∧ info.kind = .map length := by
  constructor
  · intro h
    obtain ⟨info, n, hinfo, hkind⟩ := checkMap_eq_ok h
    obtain ⟨hmem, hname, harity⟩ := (baseInfo_ok_iff based program).mp hinfo
    have hn := (based.declared info hmem).key n hkind
    exact ⟨info, hmem, hname, by rw [hkind]; congr 1; omega⟩
  · rintro ⟨info, hmem, hname, hkind⟩
    have hinfo := (baseInfo_ok_iff based program).mpr
      ⟨hmem, hname, (based.declared info hmem).key length hkind⟩
    simp only [checkMap, hinfo, hkind]

theorem takesKey_of_checkMap (h : s.checkMap rel length = .ok ()) :
    Tables.takesKey p.bases rel length = true := by
  obtain ⟨info, hinfo, hname, hkind⟩ := (checkMap_ok_iff based program).mp h
  exact List.any_eq_true.mpr ⟨info, hinfo, by simp [hname, hkind]⟩

theorem not_takesKey_of_checkMap {e : RuntimeError} (h : s.checkMap rel length = .error e) :
    Tables.takesKey p.bases rel length = false := by
  rw [Bool.eq_false_iff]
  intro htakes
  obtain ⟨info, hinfo, htakes⟩ := List.any_eq_true.mp htakes
  simp only [Bool.and_eq_true, decide_eq_true_eq] at htakes
  rw [(checkMap_ok_iff based program).mpr ⟨info, hinfo, htakes⟩] at h
  cases h

end Checks

/-! ### Changes -/

/-- What a change makes of mirrored tables: it is refused on the way and may have left them as they
were, or it has gone through to them. -/
def Reaches (p : Program) (m m' : Tables) (out : Outcome Unit) : Prop :=
  (out.1.Mirrors p m ∧ ∃ e, out.2 = .error e) ∨ out.1.Mirrors p m'

theorem Mirrors.change (based : p.Based) (mirrors : s.Mirrors p m) (hinfo : info ∈ p.bases)
    {u : Update} (hu : u.rel = info.name) {table : Table}
    (takes : ∀ r r', (m info.name).Held info r → changed r u = .ok r' → table.Held info r') :
    Reaches p m (Function.update m info.name table) (s.change u) := by
  have hprogram : (s.change u).1.program = p := (change_program s u).trans mirrors.program
  have hothers : ∀ other ∈ p.bases, other.name ≠ info.name →
      (s.change u).1.store.get? other.name = s.store.get? other.name := by
    intro other hother hne
    exact change_get? (mirrors.program ▸ based.unwritten other hother) (by rwa [hu])
  have hself := change_get?_self (s := s) (u := u)
    (by rw [mirrors.program, hu]; exact based.unwritten info hinfo)
  rcases hself with ⟨hsame, e, he⟩ | ⟨r, r', hget, hchanged, hget'⟩
  · refine .inl ⟨⟨hprogram, fun other hother => ?_⟩, e, he⟩
    obtain ⟨r, hr, hheld⟩ := mirrors.held other hother
    refine ⟨r, ?_, hheld⟩
    by_cases hne : other.name = info.name
    · rw [hne, ← hu, hsame, hu, ← hne, hr]
    · rw [hothers other hother hne, hr]
  · refine .inr ⟨hprogram, fun other hother => ?_⟩
    by_cases hne : other.name = info.name
    · cases based.eq_of_name hother hinfo hne
      obtain ⟨q, hq, hheld⟩ := mirrors.held info hinfo
      rw [← hu, hget] at hq
      cases hq
      rw [Function.update_self, ← hu]
      exact ⟨r', hget', takes r r' hheld hchanged⟩
    · obtain ⟨q, hq, hheld⟩ := mirrors.held other hother
      rw [Function.update_of_ne hne, hothers other hother hne]
      exact ⟨q, hq, hheld⟩

theorem Mirrors.change_add (based : p.Based) (mirrors : s.Mirrors p m) (hinfo : info ∈ p.bases)
    {row : Row} (hrow : row.length = info.arity) (absent : (m info.name).has row = false)
    (free : (m info.name).Free row) :
    Reaches p m (Function.update m info.name ((m info.name).add row))
      (s.change ⟨info.name, .add, row⟩) := by
  refine mirrors.change based hinfo rfl fun r r' held hchanged => ?_
  cases hchanged
  exact held.add absent free hrow

theorem Mirrors.change_remove (based : p.Based) (mirrors : s.Mirrors p m) (hinfo : info ∈ p.bases)
    {row : Row} (present : (m info.name).has row = true) :
    Reaches p m (Function.update m info.name ((m info.name).remove row))
      (s.change ⟨info.name, .remove, row⟩) := by
  refine mirrors.change based hinfo rfl fun r r' held hchanged => ?_
  unfold changed at hchanged
  dsimp only at hchanged
  split at hchanged
  · rename_i herase
    cases hchanged
    exact held.remove present herase
  · cases hchanged

theorem Reaches.done {out : Outcome Unit} (h : Reaches p m m' out) (ok : out.2 = .ok ()) :
    out.1.Mirrors p m' := by
  rcases h with ⟨_, e, he⟩ | h
  · rw [he] at ok
    cases ok
  · exact h

/-! ### Operations -/

structure Answers (p : Program) (m m' : Tables) (out : Outcome Bool) : Prop where
  mirrors : ∃ k, out.1.Mirrors p k
  done : out.1.poisoned = false → out.1.Mirrors p m' ∧ (out.2 = .ok true ↔ m' ≠ m)

theorem Answers.refused (mirrors : s.Mirrors p m) {r : Except RuntimeError Bool}
    (h : r ≠ .ok true) : Answers p m m (s, r) :=
  ⟨⟨m, mirrors⟩, fun _ => ⟨mirrors, by simpa using h⟩⟩

theorem Reaches.poisons {r : Except RuntimeError Unit} (h : Reaches p m m' (t, r))
    (hpoisoned : t.poisoned = true) {out : Outcome Bool} (hout : out.1 = t) {k k' : Tables} :
    Answers p k k' out := by
  subst hout
  refine ⟨h.elim (fun h => ⟨m, h.1⟩) fun h => ⟨m', h⟩, fun healthy => ?_⟩
  rw [hpoisoned] at healthy
  cases healthy

theorem Reaches.answers {u : Update} (h : Reaches p m m' (s.change u)) {k : Tables}
    (hne : m' ≠ k) : Answers p k m' (answered (s.change u) true) := by
  rcases hchange : s.change u with ⟨t, e | _⟩ <;> rw [hchange] at h
  · exact h.poisons (poisoned_of_change hchange) rfl
  · have hdone := h.done rfl
    exact ⟨⟨m', hdone⟩, fun _ => ⟨hdone, by simpa [answered] using hne⟩⟩

theorem ne_of_has {rel : String} {table : Table} (row : Row)
    (h : table.has row ≠ (m rel).has row) : Function.update m rel table ≠ m := by
  intro heq
  apply h
  rw [← congrFun heq rel, Function.update_self]

theorem Mirrors.contains (mirrors : s.Mirrors p m) (hinfo : info ∈ p.bases) (row : Row) :
    s.store.contains info.name row = (m info.name).has row := by
  obtain ⟨r, hget, held⟩ := mirrors.held info hinfo
  rw [Store.contains, hget]
  exact held.contains row

theorem Mirrors.fits (mirrors : s.Mirrors p m) (hinfo : info ∈ p.bases) :
    (m info.name).Fits info := by
  obtain ⟨_, _, held⟩ := mirrors.held info hinfo
  exact held.fits

theorem Mirrors.mapValue (mirrors : s.Mirrors p m) (hinfo : info ∈ p.bases) {n : Nat}
    (hkind : info.kind = .map n) (key : Row) :
    s.mapValue info.name key = (m info.name).value? key := by
  obtain ⟨r, hget, held⟩ := mirrors.held info hinfo
  rw [Session.mapValue, hget]
  exact held.mapValue hkind key

theorem Mirrors.mapValue_take (based : p.Based) (mirrors : s.Mirrors p m) (hinfo : info ∈ p.bases)
    {n : Nat} (hkind : info.kind = .map n) {row : Row} (hrow : row.length = info.arity) :
    row.take n = row.dropLast ∧
      s.mapValue info.name (row.take n) = (m info.name).value? row.dropLast := by
  have harity := (based.declared info hinfo).key n hkind
  have hkey : row.take n = row.dropLast := by
    rw [List.dropLast_eq_take]
    congr 1
    omega
  exact ⟨hkey, by rw [mirrors.mapValue hinfo hkind, hkey]⟩

section Operations

variable (based : p.Based) (mirrors : s.Mirrors p m)

include based mirrors

theorem Mirrors.addRow (hinfo : info ∈ p.bases) {row : Row} (hrow : row.length = info.arity)
    (free : (m info.name).has row = false → (m info.name).Free row) :
    Answers p m (Function.update m info.name ((m info.name).add row))
      (s.addRow info.name row) := by
  unfold Session.addRow
  rw [mirrors.contains hinfo]
  split
  · rename_i hhas
    rw [Table.add_eq_self hhas, Function.update_eq_self]
    exact .refused mirrors (by simp)
  · rename_i hhas
    have habsent : (m info.name).has row = false := by simpa using hhas
    refine (mirrors.change_add based hinfo hrow habsent (free habsent)).answers ?_
    apply ne_of_has row
    rw [(mirrors.fits hinfo).has_add (free habsent) hrow, if_pos rfl, habsent]
    exact Bool.noConfusion

theorem Mirrors.add (healthy : s.poisoned = false) (rel : String) (row : Row) :
    Answers p m (m.step p.bases (.add rel row)) (s.add rel row) := by
  unfold Session.add
  rw [healthy, if_neg Bool.false_ne_true]
  split
  · rename_i hbase
    rw [Tables.step, not_takesRow_of_baseInfo based mirrors.program hbase]
    exact .refused mirrors (by simp)
  · rename_i info hbase
    rw [Tables.step, takesRow_of_baseInfo based mirrors.program hbase, if_pos rfl]
    obtain ⟨hinfo, rfl, hrow⟩ := (baseInfo_ok_iff based mirrors.program).mp hbase
    have hfits := mirrors.fits hinfo
    split
    · rename_i hkind
      refine mirrors.addRow based hinfo hrow.symm fun _ => ?_
      cases htable : m info.name with
      | set has => rfl
      | map value =>
        rw [htable] at hfits
        cases hkind.symm.trans hfits.1
    · rename_i n hkind
      rw [(mirrors.mapValue_take based hinfo hkind hrow.symm).2]
      split
      · rename_i hnone
        exact mirrors.addRow based hinfo hrow.symm fun _ => hnone
      · rename_i existing hexisting
        have hsame : (m info.name).add row = m info.name := by
          cases htable : m info.name with
          | set has =>
            rw [htable] at hexisting
            cases hexisting
          | map value =>
            rw [htable] at hexisting
            have hvalue : value row.dropLast ≠ none := by
              rw [show value row.dropLast = some existing from hexisting]
              simp
            exact if_neg hvalue
        rw [hsame, Function.update_eq_self]
        split <;> exact .refused mirrors (by simp)

theorem Mirrors.remove (healthy : s.poisoned = false) (rel : String) (row : Row) :
    Answers p m (m.step p.bases (.remove rel row)) (s.remove rel row) := by
  unfold Session.remove
  rw [healthy, if_neg Bool.false_ne_true]
  split
  · rename_i hbase
    rw [Tables.step, not_takesRow_of_baseInfo based mirrors.program hbase]
    exact .refused mirrors (by simp)
  · rename_i info hbase
    rw [Tables.step, takesRow_of_baseInfo based mirrors.program hbase, if_pos rfl]
    obtain ⟨hinfo, rfl, hrow⟩ := (baseInfo_ok_iff based mirrors.program).mp hbase
    rw [mirrors.contains hinfo]
    split
    · rename_i hhas
      refine (mirrors.change_remove based hinfo hhas).answers ?_
      apply ne_of_has row
      rw [Table.has_remove hhas, if_pos rfl, hhas]
      exact Bool.noConfusion
    · rename_i hhas
      rw [(mirrors.fits hinfo).remove_eq_self (by simpa using hhas) hrow.symm,
        Function.update_eq_self]
      exact .refused mirrors (by simp)

theorem Mirrors.map_table {map : String} {key : Row} (hcheck : s.checkMap map key.length = .ok ()) :
    ∃ info ∈ p.bases, info.name = map ∧ info.arity = key.length + 1 ∧
      ∃ value, m map = .map value ∧ s.mapValue map key = value key := by
  obtain ⟨info, hinfo, rfl, hkind⟩ := (checkMap_ok_iff based mirrors.program).mp hcheck
  refine ⟨info, hinfo, rfl, (based.declared info hinfo).key _ hkind, ?_⟩
  have hfits := mirrors.fits hinfo
  have hvalue := mirrors.mapValue hinfo hkind key
  cases htable : m info.name with
  | set has =>
    rw [htable] at hfits
    cases hkind.symm.trans hfits.1
  | map value =>
    rw [htable] at hvalue
    exact ⟨value, rfl, hvalue⟩

theorem Mirrors.assign (healthy : s.poisoned = false) (map : String) (key : Row) (v : Value) :
    Answers p m (m.step p.bases (.assign map key v)) (s.assign map key v) := by
  unfold Session.assign
  rw [healthy, if_neg Bool.false_ne_true]
  split
  · rename_i hcheck
    rw [Tables.step, not_takesKey_of_checkMap based mirrors.program hcheck]
    exact .refused mirrors (by simp)
  · rename_i hcheck
    rw [Tables.step, takesKey_of_checkMap based mirrors.program hcheck, if_pos rfl]
    obtain ⟨info, hinfo, rfl, harity, value, htable, hvalue⟩ := mirrors.map_table based hcheck
    have hlength : ∀ w : Value, (key ++ [w]).length = info.arity := by simp [harity]
    have hassign : (m info.name).assign key v = .map (Function.update value key (some v)) := by
      rw [htable]
      rfl
    have hchanged : value key ≠ some v →
        Function.update m info.name ((m info.name).assign key v) ≠ m := by
      intro hne
      apply ne_of_has (key ++ [v])
      rw [hassign, htable]
      simpa [Table.has] using hne
    rw [hvalue]
    split
    · rename_i hnone
      have hadd : (m info.name).add (key ++ [v]) = (m info.name).assign key v := by
        rw [hassign, htable, Table.add_map_free (by simpa [Table.Free, Table.value?] using hnone)]
        simp
      have hreach := mirrors.change_add based hinfo (hlength v)
        (by simp [htable, Table.has, hnone]) (by simpa [htable, Table.Free, Table.value?] using hnone)
      rw [hadd] at hreach
      exact hreach.answers (hchanged (by simp [hnone]))
    · rename_i old hold
      split
      · rename_i heq
        have hsame : (m info.name).assign key v = m info.name := by
          rw [hassign, htable, ← heq, ← hold, Function.update_eq_self]
        rw [hsame, Function.update_eq_self]
        exact .refused mirrors (by simp)
      · rename_i hne
        have hremove : (m info.name).remove (key ++ [old]) =
            .map (Function.update value key none) := by
          rw [htable, Table.remove_map_has (by simpa using hold), List.dropLast_concat]
        have hretract := mirrors.change_remove based hinfo
          (show (m info.name).has (key ++ [old]) = true by
            rw [htable]
            exact Table.map_has_append.mpr hold)
        rw [hremove] at hretract
        rcases hfirst : s.change ⟨info.name, .remove, key ++ [old]⟩ with ⟨t, e | _⟩
        · rw [hfirst] at hretract
          exact hretract.poisons (poisoned_of_change hfirst) rfl
        · rw [hfirst] at hretract
          have mirrors' := hretract.done rfl
          have hfree : (Table.map (Function.update value key none)).Free (key ++ [v]) := by
            simp [Table.Free, Table.value?]
          have hreach := mirrors'.change_add based hinfo (hlength v)
            (by simp [Table.has]) (by rwa [Function.update_self])
          have hboth : Function.update (Function.update m info.name
              (.map (Function.update value key none))) info.name
              ((Table.map (Function.update value key none)).add (key ++ [v])) =
              Function.update m info.name ((m info.name).assign key v) := by
            rw [Function.update_idem, hassign, Table.add_map_free hfree]
            simp
          rw [Function.update_self, hboth] at hreach
          refine hreach.answers (hchanged ?_)
          rw [hold]
          simpa using hne

theorem Mirrors.unassign (healthy : s.poisoned = false) (map : String) (key : Row) :
    Answers p m (m.step p.bases (.unassign map key)) (s.unassign map key) := by
  unfold Session.unassign
  rw [healthy, if_neg Bool.false_ne_true]
  split
  · rename_i hcheck
    rw [Tables.step, not_takesKey_of_checkMap based mirrors.program hcheck]
    exact .refused mirrors (by simp)
  · rename_i hcheck
    rw [Tables.step, takesKey_of_checkMap based mirrors.program hcheck, if_pos rfl]
    obtain ⟨info, hinfo, rfl, _, value, htable, hvalue⟩ := mirrors.map_table based hcheck
    have hunassign : (m info.name).unassign key = .map (Function.update value key none) := by
      rw [htable]
      rfl
    rw [hvalue]
    split
    · rename_i hnone
      have hsame : (m info.name).unassign key = m info.name := by
        rw [hunassign, htable, ← hnone, Function.update_eq_self]
      rw [hsame, Function.update_eq_self]
      exact .refused mirrors (by simp)
    · rename_i old hold
      have hhas : (m info.name).has (key ++ [old]) = true := by
        rw [htable]
        exact Table.map_has_append.mpr hold
      have hremove : (m info.name).remove (key ++ [old]) = (m info.name).unassign key := by
        rw [hunassign, htable, Table.remove_map_has (by simpa using hold), List.dropLast_concat]
      have hreach := mirrors.change_remove based hinfo hhas
      rw [hremove] at hreach
      refine hreach.answers ?_
      apply ne_of_has (key ++ [old])
      rw [← hremove, Table.has_remove hhas, if_pos rfl, hhas]
      exact Bool.noConfusion

end Operations

def Op.isOfDemand : Op → Bool
  | .demand .. | .undemand .. | .query .. => true
  | _ => false

theorem perform_get?_of_demand (based : p.Based) (program : s.program = p) {op : Op}
    (hop : op.isOfDemand = true) (hinfo : info ∈ p.bases) :
    (s.perform op).1.store.get? info.name = s.store.get? info.name := by
  have htarget : ∀ {query set : String} {params : Row}, s.demandTarget query params = .ok set →
      info.name ≠ set := by
    rintro query set params hset rfl
    obtain ⟨q, hq, _, hu, _⟩ := demandTarget_eq_ok hset
    exact based.undemanded info hinfo q (program ▸ hq) hu
  have hunwritten : s.program.Unwritten info.name := program ▸ based.unwritten info hinfo
  rcases perform_turns s op with ⟨r, hout, _⟩ | ⟨_, t, u, makes, hout⟩
  · rw [hout]
  · rw [hout]
    cases makes with
    | demand hset | query hset => exact change_get? hunwritten (htarget hset)
    | undemand hset => exact change_get? hunwritten (htarget hset)
    | _ => cases hop

theorem Mirrors.perform_demand (based : p.Based) (mirrors : s.Mirrors p m) {op : Op}
    (hop : op.isOfDemand = true) : (s.perform op).1.Mirrors p m := by
  refine ⟨?_, fun info hinfo => ?_⟩
  · rcases perform_turns s op with ⟨r, hout, _⟩ | ⟨_, t, u, makes, hout⟩
    · rw [hout]
      exact mirrors.program
    · rw [hout, change_program]
      cases makes with
      | demand | undemand | query => exact mirrors.program
      | _ => cases hop
  · rw [perform_get?_of_demand based mirrors.program hop hinfo]
    exact mirrors.held info hinfo

structure Carries (p : Program) (m m' : Tables) (out : Outcome Reply) : Prop where
  mirrors : ∃ k, out.1.Mirrors p k
  done : out.1.poisoned = false → out.1.Mirrors p m' ∧ (out.2 = .ok (.flag true) ↔ m' ≠ m)

theorem Answers.carries {out : Outcome Bool} (h : Answers p m m' out) :
    Carries p m m' (reply .flag out) := by
  refine ⟨h.mirrors, fun healthy => ?_⟩
  obtain ⟨hmirrors, htells⟩ := h.done healthy
  refine ⟨hmirrors, Iff.trans ?_ htells⟩
  obtain ⟨t, e | b⟩ := out <;> simp [reply, Except.map]

theorem Mirrors.respond (based : p.Based) (mirrors : s.Mirrors p m) (healthy : s.poisoned = false)
    (op : Op) : Carries p m (m.step p.bases op) (s.respond op) := by
  have hdemand : op.isOfDemand = true → (s.respond op).2 ≠ .ok (.flag true) →
      Carries p m m (s.respond op) := by
    intro hop hne
    have hmirrors : (s.respond op).1.Mirrors p m := by
      rw [show (s.respond op).1 = (s.perform op).1 from
        congrArg Prod.fst (unanswered_respond s op)]
      exact mirrors.perform_demand based hop
    exact ⟨⟨m, hmirrors⟩, fun _ => ⟨hmirrors, by simpa using hne⟩⟩
  cases op with
  | add rel row => exact (mirrors.add based healthy rel row).carries
  | remove rel row => exact (mirrors.remove based healthy rel row).carries
  | assign map key v => exact (mirrors.assign based healthy map key v).carries
  | unassign map key => exact (mirrors.unassign based healthy map key).carries
  | demand query params =>
    refine hdemand rfl ?_
    rw [Session.respond, reply]
    cases (s.demand query params).2 <;> simp [Except.map]
  | undemand query params =>
    refine hdemand rfl ?_
    rw [Session.respond, reply]
    cases (s.undemand query params).2 <;> simp [Except.map]
  | query name params =>
    refine hdemand rfl ?_
    rw [Session.respond, reply]
    cases (s.query name params).2 <;> simp [Except.map]

theorem addRow_raises {rel : String} {row : Row} {e : RuntimeError}
    (h : (s.addRow rel row).2 = .error e) : e.isRefusal = false := by
  unfold Session.addRow at h
  split at h
  · cases h
  · split at h
    · rename_i hchange
      cases h
      exact (raises_iff.mpr ⟨_, hchange⟩).not_refusal
    · cases h

theorem Mirrors.conflict_iff (based : p.Based) (mirrors : s.Mirrors p m)
    (healthy : s.poisoned = false) {rel name : String} {row key : Row} {v : Value} :
    (s.add rel row).2 = .error (.keyConflict name key v) ↔
      name = rel ∧ key = row.dropLast ∧ Tables.takesRow p.bases rel row.length = true ∧
        (m rel).value? key = some v ∧ row.getLast? ≠ some v := by
  unfold Session.add
  rw [healthy, if_neg Bool.false_ne_true]
  constructor
  · intro h
    split at h
    · rename_i hbase
      cases h
      unfold baseInfo at hbase
      repeat' split at hbase
      all_goals cases hbase
    · rename_i info hbase
      have htakes := takesRow_of_baseInfo based mirrors.program hbase
      obtain ⟨hinfo, rfl, hrow⟩ := (baseInfo_ok_iff based mirrors.program).mp hbase
      split at h
      · cases addRow_raises h
      · rename_i n hkind
        obtain ⟨hkey, hvalue⟩ := mirrors.mapValue_take based hinfo hkind hrow.symm
        split at h
        · cases addRow_raises h
        · rename_i existing hexisting
          split at h
          · cases h
          · rename_i hne
            cases h
            rw [hkey]
            exact ⟨rfl, rfl, htakes, hvalue.symm.trans hexisting, fun h => hne h.symm⟩
  · rintro ⟨rfl, rfl, htakes, hvalue, hne⟩
    cases hbase : s.baseInfo name row.length with
    | error e =>
      rw [not_takesRow_of_baseInfo based mirrors.program hbase] at htakes
      cases htakes
    | ok info =>
      obtain ⟨hinfo, rfl, hrow⟩ := (baseInfo_ok_iff based mirrors.program).mp hbase
      have hfits := mirrors.fits hinfo
      cases htable : m info.name with
      | set has =>
        rw [htable] at hvalue
        cases hvalue
      | map value =>
        rw [htable] at hfits
        obtain ⟨hkey, hfound⟩ := mirrors.mapValue_take based hinfo hfits.1 hrow.symm
        rw [hkey, hvalue] at hfound
        simp only [hfits.1, hfound, if_neg (Ne.symm hne), hkey]

/-! ### Histories -/

theorem ofProgram_mirrors (based : p.Based) :
    (ofProgram p).Mirrors p (Tables.empty p.bases) := by
  obtain ⟨hsound, hinfos, hcount⟩ := Store.declared based.nodup p.indices
  refine ⟨rfl, fun info hinfo => ?_⟩
  have hmem := List.mem_of_mem_filter hinfo
  obtain ⟨r, hget⟩ := Option.isSome_iff_exists.mp
    (Store.get?_isSome hinfos ⟨info, hmem, rfl, rfl⟩)
  have hinfo' : r.info = info := by
    have hfind := Store.info_get? (ofProgram p).store info.name
    rw [show (ofProgram p).store.get? info.name = some r from hget,
      show (ofProgram p).store.infos = p.catalog from hinfos,
      (find_eq_some_iff_of_nodup_map based.nodup).mpr ⟨hmem, rfl⟩] at hfind
    exact Option.some.inj hfind
  have hempty : Tables.empty p.bases info.name = .empty info.kind := by
    have hnodup : (p.bases.map (·.name)).Nodup :=
      based.nodup.sublist (List.filter_sublist.map _)
    rw [Tables.empty, (find_eq_some_iff_of_nodup_map hnodup).mpr ⟨hinfo, rfl⟩]
  rw [hempty]
  refine ⟨r, hget, hinfo', hsound.get? hget, Table.empty_fits (based.declared info hinfo),
    fun row => ?_⟩
  rw [← Store.count_eq hget, hcount, Table.empty_has]
  rfl

/-- Every history leaves base relations that hold tables, and as long as the session is not poisoned
they are the tables of the history. -/
theorem after_mirrors (based : p.Based) (ops : List Op) :
    (∃ k, ((ofProgram p).after ops).Mirrors p k) ∧
      (((ofProgram p).after ops).poisoned = false →
        ((ofProgram p).after ops).Mirrors p (Tables.after p.bases ops)) := by
  induction ops using List.reverseRecOn with
  | nil => exact ⟨⟨_, ofProgram_mirrors based⟩, fun _ => ofProgram_mirrors based⟩
  | append_singleton ops op ih =>
    obtain ⟨⟨k, hk⟩, hmirrors⟩ := ih
    have hstep : (((ofProgram p).after ops).perform op).1 =
        (((ofProgram p).after ops).respond op).1 :=
      (congrArg Prod.fst (unanswered_respond _ op)).symm
    cases hpoisoned : ((ofProgram p).after ops).poisoned with
    | true =>
      rw [after_concat, perform_poisoned hpoisoned]
      refine ⟨⟨k, hk⟩, fun healthy => ?_⟩
      rw [show ((ofProgram p).after ops).poisoned = false from healthy] at hpoisoned
      cases hpoisoned
    | false =>
      have carries := (hmirrors hpoisoned).respond based hpoisoned op
      rw [after_concat, hstep, Tables.after, List.foldl_append]
      exact ⟨carries.mirrors, fun healthy => (carries.done healthy).1⟩

/-- What a session shows of its base relations is what tables say: they have the same rows, an
operation answers that it has changed something if and only if it changes the tables, and a row is
refused for a conflict if and only if a map has another value for its key. -/
structure Refines (p : Program) (m : Tables) (s : Session) : Prop where
  rows : ∀ info ∈ p.bases, ∀ row, s.store.Has info.name row ↔ (m info.name).has row = true
  once : ∀ info ∈ p.bases, ∀ row, s.store.count info.name row ≤ 1
  tells : ∀ op, (s.respond op).1.poisoned = false →
    ((s.respond op).2 = .ok (.flag true) ↔ m.step p.bases op ≠ m)
  conflicts : ∀ rel row name key v, (s.add rel row).2 = .error (.keyConflict name key v) ↔
    name = rel ∧ key = row.dropLast ∧ Tables.takesRow p.bases rel row.length = true ∧
      (m rel).value? key = some v ∧ row.getLast? ≠ some v

theorem Mirrors.refines (based : p.Based) (mirrors : s.Mirrors p m) (healthy : s.poisoned = false) :
    s.Refines p m where
  rows := fun info hinfo row => by rw [Store.Has, mirrors.contains hinfo]
  once := fun info hinfo row => by
    obtain ⟨r, hget, held⟩ := mirrors.held info hinfo
    rw [Store.count_eq hget, held.count]
    exact Bool.toNat_le _
  tells := fun op hop => ((mirrors.respond based healthy op).done hop).2
  conflicts := fun rel row name key v => mirrors.conflict_iff based healthy

/-- Whatever was done to a compiled program: as long as the session is not poisoned, its base
relations refine the tables of the history. At all times a map has one row for a key, demand leaves
base relations alone, and no change that a handler records is one of a base relation. -/
theorem bases_refine_tables {o : Compile.Options} {text : String} {p : Program}
    (compiles : Program.ofText? o text = some p) (ops : List Op) :
    (((ofProgram p).after ops).poisoned = false →
      ((ofProgram p).after ops).Refines p (Tables.after p.bases ops)) ∧
    (∀ info ∈ p.bases, ∀ n, info.kind = .map n → ∀ x y,
      ((ofProgram p).after ops).store.Has info.name x →
      ((ofProgram p).after ops).store.Has info.name y → x.take n = y.take n → x = y) ∧
    (∀ op, op.isOfDemand = true → ∀ info ∈ p.bases,
      (((ofProgram p).after ops).perform op).1.store.get? info.name =
        ((ofProgram p).after ops).store.get? info.name) ∧
    ∀ h ∈ p.handlers, ∀ store row us, h.code.run store row = .ok us →
      ∀ u ∈ us, ∀ info ∈ p.bases, u.rel ≠ info.name := by
  obtain ⟨d, sound, built⟩ := Program.built_of_text compiles
  have based := built.based sound
  obtain ⟨⟨k, mirrors⟩, hmirrors⟩ := after_mirrors based ops
  refine ⟨fun healthy => (hmirrors healthy).refines based healthy, ?_, ?_, ?_⟩
  · intro info hinfo n hkind x y hx hy hkey
    rw [Store.Has, mirrors.contains hinfo] at hx hy
    exact (mirrors.fits hinfo).keyed hkind hx hy hkey
  · exact fun op hop info hinfo => perform_get?_of_demand based mirrors.program hop hinfo
  · intro h hh store row us hrun u hu info hinfo hrel
    exact based.unwritten info hinfo h hh (hrel ▸ Code.run_writes hrun u hu)

set_option maxRecDepth 10000 in
theorem bases_refine_tables_sample : ∃ p,
    Program.ofText? ⟨.default, .silent⟩ (sampleText " with selfjoin = assume_disjoint") = some p ∧
    ((ofProgram p).after sampleOps).poisoned = false ∧
    ((ofProgram p).after sampleOps).Refines p (Tables.after p.bases sampleOps) := by
  obtain ⟨p, hp, healthy⟩ : ∃ p,
      Program.ofText? ⟨.default, .silent⟩ (sampleText " with selfjoin = assume_disjoint") = some p ∧
      ((ofProgram p).after sampleOps).poisoned = false := by
    decide +kernel
  exact ⟨p, hp, healthy, (bases_refine_tables hp sampleOps).1 healthy⟩

end Session

end ViewUpkeep
