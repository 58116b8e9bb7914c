import ViewUpkeep.Console
import ViewUpkeep.Proofs.Independence
import ViewUpkeep.Proofs.Refinement

/-!
Replays. A session takes over the base rows and the demands of another one by adding the rows and
making the demands again, one after the other, up to the first that fails. On the way it has some of
the rows and makes some of the demands, and at the end it has them all.
-/
namespace ViewUpkeep

namespace Session

variable {p : Program} {s t : Session} {op : Op} {ops : List Op} {e : RuntimeError}

/-! ### Attempts -/

def attempt (s : Session) : List Op → Except RuntimeError Session
  | [] => .ok s
  | op :: ops =>
    match s.perform op with
    | (_, .error e) => .error e
    | (t, .ok ()) => t.attempt ops

theorem attempt_cons (h : s.attempt (op :: ops) = .ok t) :
    ∃ r, s.perform op = (r, .ok ()) ∧ r.attempt ops = .ok t := by
  simp only [attempt] at h
  split at h
  · cases h
  · rename_i r hperform
    exact ⟨r, hperform, h⟩

theorem attempt_append (s : Session) (ops more : List Op) :
    s.attempt (ops ++ more) = (s.attempt ops).bind (·.attempt more) := by
  induction ops generalizing s with
  | nil => rfl
  | cons op ops ih =>
    simp only [List.cons_append, attempt]
    split
    · rfl
    · exact ih _

theorem after_of_attempt (h : s.attempt ops = .ok t) : t = s.after ops := by
  induction ops generalizing s with
  | nil =>
    cases h
    rfl
  | cons op ops ih =>
    obtain ⟨r, hperform, h⟩ := attempt_cons h
    rw [ih h, after, after, List.foldl_cons, hperform]

theorem change_demands (s : Session) (u : Update) : (s.change u).1.demands = s.demands := by
  have hpropagate : ∀ n us s, (propagate n s us).1.demands = s.demands := by
    intro n
    induction n with
    | zero =>
      intro us s
      cases us <;> rfl
    | succ n ih =>
      intro us s
      cases us with
      | nil => rfl
      | cons u rest =>
        have hdemands := (apply_touches s u).demands
        rw [propagate]
        split <;> rename_i happly <;> rw [happly] at hdemands
        · exact hdemands
        · rw [ih, hdemands]
  obtain ⟨n, hn⟩ := s.exists_settle_eq [u]
  have hrun := hpropagate n [u] s
  rw [← hn] at hrun
  unfold change
  split
  · rename_i hpropagated
    rwa [hpropagated] at hrun
  · rename_i hpropagated
    rw [hpropagated] at hrun
    split <;> exact hrun

theorem Makes.poisoned {u : Update} (h : s.Makes op t u) : t.poisoned = s.poisoned := by
  cases h with
  | reassign _ _ hchange => exact (change_fixed hchange).2
  | _ => rfl

theorem perform_poisoned_eq (h : (s.perform op).2 = .ok ()) :
    (s.perform op).1.poisoned = s.poisoned := by
  rcases perform_turns s op with ⟨r, hout, _⟩ | ⟨_, t, u, makes, hout⟩
  · rw [hout]
  · rw [hout] at h ⊢
    exact (change_fixed (Prod.ext rfl h)).2.trans makes.poisoned

theorem add_demandCount (s : Session) (rel : String) (row : Row) (query : String) (params : Row) :
    (s.perform (.add rel row)).1.demandCount query params = s.demandCount query params := by
  rcases perform_turns s (.add rel row) with ⟨r, hout, _⟩ | ⟨_, t, u, makes, hout⟩
  · rw [hout]
  · cases makes
    rw [hout]
    exact demandCount_of_demands (change_demands s _) query params

theorem demand_demandCount {query : String} {params : Row}
    (h : (s.perform (.demand query params)).2 = .ok ()) (other : String) (row : Row) :
    (s.perform (.demand query params)).1.demandCount other row =
      s.demandCount other row + if other = query ∧ row = params then 1 else 0 := by
  cases hpoisoned : s.poisoned with
  | true => simp [perform, demand, hpoisoned] at h
  | false =>
    cases htarget : s.demandTarget query params with
    | error e => simp [perform, demand, hpoisoned, htarget] at h
    | ok set =>
      have hdemand : s.perform (.demand query params) =
          (s.setDemand query params (s.demandCount query params + 1)).change
            ⟨set, .add, params⟩ := by
        simp [perform, demand, hpoisoned, htarget]
      rw [hdemand, demandCount_of_demands (change_demands _ _), demandCount_setDemand]
      split
      · rename_i hkey
        rw [hkey.1, hkey.2]
      · rfl

/-! ### Demands -/

/-- What a session notes of demands: each query and parameters once, with the number of demands that
were not taken back. -/
structure Noted (s : Session) : Prop where
  keys : (s.demands.map Prod.fst).Nodup
  positive : ∀ d ∈ s.demands, 0 < d.2

theorem Noted.setDemand (noted : s.Noted) (query : String) (params : Row) (n : Nat) :
    (s.setDemand query params n).Noted := by
  refine ⟨nodup_setDemand noted.keys query params n, fun d hd => ?_⟩
  unfold Session.setDemand at hd
  dsimp only at hd
  split at hd
  · exact noted.positive d (List.mem_of_mem_filter hd)
  · rename_i hn
    rcases List.mem_append.mp hd with hd | hd
    · exact noted.positive d (List.mem_of_mem_filter hd)
    · rw [List.mem_singleton.mp hd]
      exact Nat.pos_of_ne_zero hn

theorem Noted.asks (noted : s.Noted) {u : Update} (h : s.Asks t u) : t.Noted := by
  cases h with
  | base => exact noted
  | demand | undemand => exact noted.setDemand ..

theorem noted_keptByChanges (p : Program) : KeptByChanges p Noted := by
  intro s t t' u _ noted hasks hchange
  have hdemands := change_demands t u
  rw [hchange] at hdemands
  have hnoted := noted.asks hasks
  exact ⟨hdemands ▸ hnoted.keys, hdemands ▸ hnoted.positive⟩

theorem after_noted (nodup : (p.catalog.map (·.name)).Nodup) {ops : List Op}
    (healthy : ((ofProgram p).after ops).poisoned = false) : ((ofProgram p).after ops).Noted :=
  (((noted_keptByChanges p).after nodup ⟨.nil, by simp [ofProgram]⟩ ops).resolve_left
    (by simp [healthy])).2

theorem Noted.demandCount_eq (noted : s.Noted) {d : (String × Row) × Nat} (hd : d ∈ s.demands) :
    s.demandCount d.1.1 d.1.2 = d.2 := by
  have hfind : s.demands.find? (fun d' => d'.1 = (d.1.1, d.1.2)) = some d :=
    (find_eq_some_iff_of_nodup_map noted.keys).mpr ⟨hd, rfl⟩
  unfold demandCount
  rw [hfind]
  rfl

theorem Noted.mem_iff (noted : s.Noted) {d : (String × Row) × Nat} :
    d ∈ s.demands ↔ 0 < d.2 ∧ s.demandCount d.1.1 d.1.2 = d.2 := by
  constructor
  · exact fun hd => ⟨noted.positive d hd, noted.demandCount_eq hd⟩
  · rintro ⟨hpos, hcount⟩
    unfold demandCount at hcount
    cases hfind : s.demands.find? (fun d' => d'.1 = (d.1.1, d.1.2)) with
    | none =>
      rw [hfind] at hcount
      simp only [Option.map_none, Option.getD_none] at hcount
      omega
    | some d' =>
      rw [hfind] at hcount
      obtain ⟨hmem, hkey⟩ := (find_eq_some_iff_of_nodup_map noted.keys).mp hfind
      have heq : d' = d := Prod.ext hkey hcount
      exact heq ▸ hmem

theorem userDemands_pairwise (s : Session) : s.userDemands.Pairwise fun a b =>
    (decide (a.1.1 < b.1.1) || (a.1.1 = b.1.1 && Row.le a.1.2 b.1.2)) = true := by
  apply List.pairwise_mergeSort
  · intro a b c hab hbc
    simp only [Bool.or_eq_true, Bool.and_eq_true, decide_eq_true_eq] at hab hbc ⊢
    rcases hab with hab | ⟨hab, hab'⟩
    · rcases hbc with hbc | ⟨hbc, _⟩
      · exact .inl (String.lt_trans hab hbc)
      · exact .inl (hbc ▸ hab)
    · rcases hbc with hbc | ⟨hbc, hbc'⟩
      · exact .inl (hab ▸ hbc)
      · exact .inr ⟨hab.trans hbc, Row.le_trans _ _ _ hab' hbc'⟩
  · intro a b
    simp only [Bool.or_eq_true, Bool.and_eq_true, decide_eq_true_eq]
    by_cases hlt : a.1.1 < b.1.1
    · exact .inl (.inl hlt)
    · by_cases hgt : b.1.1 < a.1.1
      · exact .inr (.inl hgt)
      · have heq : a.1.1 = b.1.1 :=
          String.le_antisymm (String.not_lt.mp hgt) (String.not_lt.mp hlt)
        have htotal := Row.le_total a.1.2 b.1.2
        rw [Bool.or_eq_true] at htotal
        exact htotal.imp (fun h => .inr ⟨heq, h⟩) fun h => .inr ⟨heq.symm, h⟩

theorem userDemands_congr (noted : s.Noted) (noted' : t.Noted)
    (h : ∀ query params, s.demandCount query params = t.demandCount query params) :
    s.userDemands = t.userDemands := by
  have hperm : s.userDemands.Perm t.userDemands := by
    refine s.userDemands_perm.trans (List.Perm.trans ?_ t.userDemands_perm.symm)
    refine (List.perm_ext_iff_of_nodup noted.keys.of_map noted'.keys.of_map).mpr fun d => ?_
    rw [noted.mem_iff, noted'.mem_iff, h]
  refine hperm.eq_of_pairwise ?_ s.userDemands_pairwise t.userDemands_pairwise
  intro a b ha hb hab hba
  have hmem : a ∈ s.demands := s.userDemands_perm.mem_iff.mp ha
  have hmem' : b ∈ s.demands := s.userDemands_perm.mem_iff.mp (hperm.mem_iff.mpr hb)
  refine List.inj_on_of_nodup_map noted.keys hmem hmem' ?_
  simp only [Bool.or_eq_true, Bool.and_eq_true, decide_eq_true_eq] at hab hba
  rcases hab with hab | ⟨hab, hab'⟩
  · rcases hba with hba | ⟨hba, _⟩
    · exact absurd hba (String.lt_asymm hab)
    · exact absurd hab (hba ▸ String.lt_irrefl _)
  · rcases hba with hba | ⟨_, hba'⟩
    · exact absurd hba (hab ▸ String.lt_irrefl _)
    · exact Prod.ext hab (Row.le_antisymm hab' hba')

/-! ### What is carried over -/

def replayOf (rows asks : List (String × Row)) : List Op :=
  rows.map (fun r => .add r.1 r.2) ++ asks.map fun d => .demand d.1 d.2

def baseRows (s : Session) : List (String × Row) :=
  (s.store.relations.filter (·.info.origin.isBase)).flatMap fun r => r.sortedRows.map (r.name, ·)

def asked (s : Session) : List (String × Row) :=
  s.userDemands.flatMap fun d => List.replicate d.2 d.1

theorem addRows_eq (s : Session) (rows : List (String × Row)) :
    Console.addRows s rows = s.attempt (rows.map fun r => .add r.1 r.2) := by
  induction rows generalizing s with
  | nil => rfl
  | cons r rows ih =>
    simp only [Console.addRows, List.map_cons, attempt, perform, unanswered]
    rcases s.add r.1 r.2 with ⟨t, e | b⟩
    · rfl
    · exact ih t

theorem addDemands_eq (s : Session) (asks : List (String × Row)) :
    Console.addDemands s asks = s.attempt (asks.map fun d => .demand d.1 d.2) := by
  induction asks generalizing s with
  | nil => rfl
  | cons d asks ih =>
    simp only [Console.addDemands, List.map_cons, attempt, perform]
    rcases s.demand d.1 d.2 with ⟨t, e | b⟩
    · rfl
    · exact ih t

theorem carryOver_eq (p : Program) (s : Session) :
    Console.carryOver p s = (ofProgram p).attempt (replayOf s.baseRows s.asked) := by
  rw [replayOf, attempt_append, ← addRows_eq]
  simp only [← addDemands_eq]
  rfl

theorem mem_baseRows (formed : s.Formed p) (nodup : (p.catalog.map (·.name)).Nodup)
    {r : String × Row} :
    r ∈ s.baseRows ↔ r.1 ∈ p.bases.map (·.name) ∧ s.store.Has r.1 r.2 := by
  have hnodup : (s.store.relations.map (·.name)).Nodup := by
    have hnames : s.store.relations.map (·.name) = s.store.infos.map (·.name) := by
      rw [Store.infos, List.map_map]
      rfl
    rw [hnames, formed.infos]
    exact nodup
  have hget : ∀ {rel q}, s.store.get? rel = some q ↔ q ∈ s.store.relations ∧ q.name = rel :=
    find_eq_some_iff_of_nodup_map hnodup
  unfold baseRows
  rw [List.mem_flatMap]
  constructor
  · rintro ⟨q, hq, hr⟩
    obtain ⟨hq, hbase⟩ := List.mem_filter.mp hq
    obtain ⟨row, hrow, rfl⟩ := List.mem_map.mp hr
    have hinfo : q.info ∈ p.bases := by
      refine List.mem_filter.mpr ⟨?_, hbase⟩
      rw [← formed.infos]
      exact List.mem_map_of_mem hq
    refine ⟨List.mem_map_of_mem (f := (·.name)) hinfo, ?_⟩
    exact (Store.has_iff (hget.mpr ⟨hq, rfl⟩) row).mpr (Row.mem_sort.mp hrow)
  · rintro ⟨hrel, hhas⟩
    obtain ⟨info, hinfo, hname⟩ := List.mem_map.mp hrel
    obtain ⟨hmem, hbase⟩ := List.mem_filter.mp hinfo
    rw [← formed.infos] at hmem
    obtain ⟨q, hq, rfl⟩ := List.mem_map.mp hmem
    refine ⟨q, List.mem_filter.mpr ⟨hq, hbase⟩, ?_⟩
    have hrow := (Store.has_iff (hget.mpr ⟨hq, hname⟩) r.2).mp hhas
    exact List.mem_map.mpr ⟨r.2, Row.mem_sort.mpr hrow, Prod.ext hname rfl⟩

theorem count_flatMap_replicate {α : Type} [BEq α] [LawfulBEq α] [DecidableEq α]
    {l : List (α × Nat)} (keys : (l.map Prod.fst).Nodup) (a : α) :
    (l.flatMap fun d => List.replicate d.2 d.1).count a =
      ((l.find? fun d => d.1 = a).map Prod.snd).getD 0 := by
  induction l with
  | nil => rfl
  | cons d l ih =>
    rw [List.map_cons, List.nodup_cons] at keys
    rw [List.flatMap_cons, List.count_append, List.count_replicate, ih keys.2]
    by_cases hkey : d.1 = a
    · have hnone : l.find? (fun e => e.1 = a) = none := by
        refine List.find?_eq_none.mpr fun e he hea => keys.1 ?_
        rw [hkey, ← of_decide_eq_true hea]
        exact List.mem_map_of_mem he
      simp [hkey, hnone]
    · simp [hkey]

theorem count_asked (noted : s.Noted) (query : String) (params : Row) :
    s.asked.count (query, params) = s.demandCount query params := by
  have hperm : s.asked.Perm (s.demands.flatMap fun d => List.replicate d.2 d.1) :=
    s.userDemands_perm.flatMap_right _
  rw [hperm.count_eq, count_flatMap_replicate noted.keys, demandCount]

theorem attempt_adds_demandCount {rows : List (String × Row)}
    (h : s.attempt (rows.map fun r => .add r.1 r.2) = .ok t) (query : String) (params : Row) :
    t.demandCount query params = s.demandCount query params := by
  induction rows generalizing s with
  | nil =>
    cases h
    rfl
  | cons r rows ih =>
    obtain ⟨r', hperform, h⟩ := attempt_cons h
    have hcount := add_demandCount s r.1 r.2 query params
    rw [hperform] at hcount
    rw [ih h, hcount]

theorem attempt_demandCount {rows asks : List (String × Row)}
    (h : s.attempt (replayOf rows asks) = .ok t) (query : String) (params : Row) :
    t.demandCount query params = s.demandCount query params + asks.count (query, params) := by
  rw [replayOf, attempt_append] at h
  obtain ⟨r, hrows, hasks⟩ := bind_eq_ok.mp h
  rw [← attempt_adds_demandCount hrows query params]
  clear h hrows
  induction asks generalizing r with
  | nil =>
    cases hasks
    rfl
  | cons d asks ih =>
    obtain ⟨r', hperform, hasks⟩ := attempt_cons hasks
    have hcount := demand_demandCount (congrArg Prod.snd hperform) query params
    rw [hperform] at hcount
    rw [ih r' hasks, hcount, List.count_cons]
    have hkey : (d == (query, params)) = decide (query = d.1 ∧ params = d.2) := by
      rw [Bool.eq_iff_iff, beq_iff_eq, decide_eq_true_eq, Prod.ext_iff, eq_comm, @eq_comm _ d.2]
    rw [hkey]
    simp only [decide_eq_true_eq]
    omega

theorem tables_adds {infos : List RelationInfo} (nodup : (infos.map (·.name)).Nodup)
    (declared : ∀ info ∈ infos, info.Declared) {m : Tables} {rows : List (String × Row)}
    (fit : ∀ r ∈ rows, ∃ info ∈ infos, info.name = r.1 ∧ (m r.1).Fits info ∧
      (m r.1).has r.2 = true) : ∀ info ∈ infos,
    (Tables.after infos (rows.map fun r => .add r.1 r.2) info.name).Fits info ∧ ∀ row,
      (Tables.after infos (rows.map fun r => .add r.1 r.2) info.name).has row = true ↔
        (info.name, row) ∈ rows := by
  induction rows using List.reverseRecOn with
  | nil =>
    intro info hinfo
    have hempty : Tables.empty infos info.name = .empty info.kind := by
      rw [Tables.empty, (find_eq_some_iff_of_nodup_map nodup).mpr ⟨hinfo, rfl⟩]
    rw [List.map_nil, show Tables.after infos [] = Tables.empty infos from rfl, hempty]
    exact ⟨Table.empty_fits (declared info hinfo), fun row => by simp [Table.empty_has]⟩
  | append_singleton rows r ih =>
    obtain ⟨fitRows, fitRow⟩ := List.forall_mem_append.mp fit
    obtain ⟨target, htarget, hname, hfits, hhas⟩ := fitRow r (List.mem_singleton_self r)
    have hlength := hfits.length hhas
    have htakes : Tables.takesRow infos r.1 r.2.length = true :=
      List.any_eq_true.mpr ⟨target, htarget, by simp [hname, hlength]⟩
    have hstep : Tables.after infos ((rows ++ [r]).map fun r => .add r.1 r.2) =
        Function.update (Tables.after infos (rows.map fun r => .add r.1 r.2)) r.1
          ((Tables.after infos (rows.map fun r => .add r.1 r.2) r.1).add r.2) := by
      rw [Tables.after, List.map_append, List.foldl_append, ← Tables.after]
      exact if_pos htakes
    have hrows := ih fitRows
    rw [hstep]
    generalize Tables.after infos (rows.map fun r => .add r.1 r.2) = before at hrows ⊢
    intro info hinfo
    obtain ⟨hfitsBefore, hbefore⟩ := hrows info hinfo
    by_cases hother : info.name = r.1
    · have heq : target = info :=
        List.inj_on_of_nodup_map nodup htarget hinfo (hname.trans hother.symm)
      subst heq
      rw [hother] at hfitsBefore hbefore ⊢
      rw [Function.update_self]
      have hle : ∀ x, (before r.1).has x = true → (m r.1).has x = true := by
        intro x hx
        obtain ⟨_, _, _, _, hin⟩ := fitRows (r.1, x) ((hbefore x).mp hx)
        exact hin
      cases hthere : (before r.1).has r.2 with
      | true =>
        rw [Table.add_eq_self hthere]
        refine ⟨hfitsBefore, fun row => (hbefore row).trans ?_⟩
        have hmem : r ∈ rows := (hbefore r.2).mp hthere
        exact ⟨List.mem_append_left _, fun h => (List.mem_append.mp h).elim id fun h =>
          List.mem_singleton.mp h ▸ hmem⟩
      | false =>
        have hfree := hfitsBefore.free hfits hle hhas hthere
        refine ⟨hfitsBefore.add hfree hlength, fun row => ?_⟩
        rw [hfitsBefore.has_add hfree hlength, List.mem_append, List.mem_singleton, ← hbefore,
          Prod.ext_iff]
        by_cases hrow : row = r.2 <;> simp [hrow]
    · rw [Function.update_of_ne hother]
      refine ⟨hfitsBefore, fun row => ?_⟩
      rw [hbefore, List.mem_append, List.mem_singleton, Prod.ext_iff]
      simp [hother]

theorem tables_replayOf (infos : List RelationInfo) (rows asks : List (String × Row)) :
    Tables.after infos (replayOf rows asks) =
      Tables.after infos (rows.map fun r => .add r.1 r.2) := by
  rw [Tables.after, replayOf, List.foldl_append, List.foldl_map]
  exact List.foldl_fixed' (fun _ => rfl) asks

theorem attempt_poisoned (h : s.attempt ops = .ok t) : t.poisoned = s.poisoned := by
  induction ops generalizing s with
  | nil =>
    cases h
    rfl
  | cons op ops ih =>
    obtain ⟨r, hperform, h⟩ := attempt_cons h
    have hpoisoned := perform_poisoned_eq (congrArg Prod.snd hperform)
    rw [hperform] at hpoisoned
    rw [ih h, hpoisoned]

theorem Mirrors.count_eq {m : Tables} (mirrors : s.Mirrors p m) {info : RelationInfo}
    (hinfo : info ∈ p.bases) (row : Row) :
    s.store.count info.name row = (s.store.contains info.name row).toNat := by
  rw [mirrors.contains hinfo]
  obtain ⟨r, hget, held⟩ := mirrors.held info hinfo
  rw [Store.count_eq hget, held.count]

section Replayed

variable {p' : Program} {m : Tables} (based : p.Based) (based' : p'.Based) (formed : s.Formed p)
  (mirrors : s.Mirrors p m) (bases : p.bases ⊆ p'.bases) {rows asks : List (String × Row)}
  (hrows : rows ⊆ s.baseRows)

include based based' formed mirrors bases hrows

theorem replay_tables : ∀ info ∈ p'.bases,
    (Tables.after p'.bases (replayOf rows asks) info.name).Fits info ∧ ∀ row,
      (Tables.after p'.bases (replayOf rows asks) info.name).has row = true ↔
        (info.name, row) ∈ rows := by
  have hnodup : (p'.bases.map (·.name)).Nodup :=
    based'.nodup.sublist (List.filter_sublist.map _)
  rw [tables_replayOf]
  refine tables_adds hnodup based'.declared (m := m) fun r hr => ?_
  obtain ⟨hrel, hhas⟩ := (mem_baseRows formed based.nodup).mp (hrows hr)
  obtain ⟨info, hinfo, hname⟩ := List.mem_map.mp hrel
  rw [← hname] at hhas ⊢
  exact ⟨info, bases hinfo, rfl, mirrors.fits hinfo, (mirrors.contains hinfo r.2).symm.trans hhas⟩

/-- A replay that goes through has brought the rows to the base relations. -/
theorem replay_mirrors (h : (ofProgram p').attempt (replayOf rows asks) = .ok t) :
    t.Mirrors p' (Tables.after p'.bases (replayOf rows asks)) ∧
      ∀ info ∈ p'.bases, ∀ row, t.store.Has info.name row ↔ (info.name, row) ∈ rows := by
  have healthy : t.poisoned = false := attempt_poisoned h
  rw [after_of_attempt h] at healthy ⊢
  have hmirrors := (after_mirrors based' _).2 healthy
  refine ⟨hmirrors, fun info hinfo row => ?_⟩
  rw [← (replay_tables based based' formed mirrors bases hrows info hinfo).2 row,
    ← hmirrors.contains hinfo]
  rfl

end Replayed

end Session

end ViewUpkeep
