import Mathlib.Data.Fintype.Card
import Mathlib.Data.List.Nodup
import Mathlib.Data.List.Perm.Subperm
import Mathlib.Data.Set.Finite.Basic
import Mathlib.Logic.Relation
import ViewUpkeep.Declarations
import ViewUpkeep.Proofs.Environment

/-!
The order of the queries. Queries that wait for nothing are taken in turn, and each that is taken
may be the last one that others wait for. What a query waits for is counted; the count is the number
of names that are still missing, since each name is taken once. A query is taken exactly if all
queries are that it reads, and after these. What is never taken waits for a query that is never taken
either, and since there are finitely many, it leads to a circle.
-/
namespace ViewUpkeep

theorem QueryDecl.mem_reads {q : QueryDecl} {n : String} :
    n ∈ q.reads ↔ ∃ c ∈ q.clauses, ∃ pattern args, c.node = .member pattern (.named n args) := by
  unfold reads
  rw [List.mem_eraseDups, List.mem_filterMap]
  refine exists_congr fun c => and_congr_right fun _ => ?_
  unfold reads?
  constructor
  · intro h
    split at h
    · rename_i pattern name args hnode
      cases h
      exact ⟨pattern, args, hnode⟩
    · cases h
  · rintro ⟨pattern, args, hnode⟩
    rw [hnode]

theorem find_eq_some_iff_of_nodup_map {α β : Type} [DecidableEq β] {f : α → β} {l : List α}
    (nodup : (l.map f).Nodup) {a : α} {b : β} :
    l.find? (fun c => f c = b) = some a ↔ a ∈ l ∧ f a = b := by
  constructor
  · intro h
    exact ⟨List.mem_of_find?_eq_some h, by simpa using List.find?_some h⟩
  · rintro ⟨hmem, rfl⟩
    cases hfind : l.find? fun c => f c = f a with
    | none => exact absurd (List.find?_eq_none.mp hfind a hmem) (by simp)
    | some c =>
      have hkey : f c = f a := by simpa using List.find?_some hfind
      rw [List.inj_on_of_nodup_map nodup (List.mem_of_find?_eq_some hfind) hmem hkey]

namespace Declarations

variable {queries : List QueryDecl} {name : String} {ready taken : List String}
  {ws left : List Pending}

def Reads (queries : List QueryDecl) (q r : QueryDecl) : Prop :=
  q ∈ queries ∧ r ∈ queries ∧
    ∃ c ∈ q.clauses, ∃ pattern args, c.node = .member pattern (.named r.name args)

def ReachesCycle (queries : List QueryDecl) (q : QueryDecl) : Prop :=
  ∃ r, Relation.ReflTransGen (Reads queries) q r ∧ Relation.TransGen (Reads queries) r r

/-! ### Taking the ready queries in turn -/

structure Pending where
  name : String
  missing : List String

def pending (queries : List QueryDecl) : List Pending :=
  queries.map fun q => ⟨q.name, q.reads.filter fun n => queries.any (·.name = n)⟩

def freed (name : String) (ws : List Pending) : List String :=
  (ws.filter fun w => w.missing.contains name && (w.missing.erase name).isEmpty).map (·.name)

def free (name : String) (ws : List Pending) : List Pending :=
  ws.map fun w => ⟨w.name, w.missing.erase name⟩

/-- The ready queries are taken in turn until none is left. -/
inductive Settles : List String → List Pending → List String → List Pending → Prop where
  | done {ws : List Pending} : Settles [] ws [] ws
  | take {name : String} {ready taken : List String} {ws left : List Pending} :
    Settles (ready ++ freed name ws) (free name ws) taken left →
    Settles (name :: ready) ws (name :: taken) left

theorem countP_free (name : String) (ws : List Pending) :
    (freed name ws).length + (free name ws).countP (!·.missing.isEmpty) ≤
      ws.countP (!·.missing.isEmpty) := by
  unfold freed free
  induction ws with
  | nil => simp
  | cons w ws ih =>
    simp only [List.length_map, List.map_cons, List.countP_cons, List.filter_cons] at ih ⊢
    cases hmissing : w.missing.isEmpty with
    | true =>
      rw [List.isEmpty_iff] at hmissing
      simpa [hmissing] using ih
    | false =>
      cases herase : (w.missing.erase name).isEmpty with
      | false =>
        simp only [Bool.and_false, Bool.false_eq_true, if_false, Bool.not_false, if_true]
        omega
      | true =>
        simp only [Bool.not_true, Bool.false_eq_true, if_false, Bool.not_false, if_true]
        split <;> grind

/-- What holds while queries are taken: each is ready once, and none that still waits is. -/
structure Settling (ready : List String) (ws : List Pending) : Prop where
  distinct : ready.Nodup
  names : (ws.map (·.name)).Nodup
  missing : ∀ w ∈ ws, w.missing.Nodup
  apart : ∀ w ∈ ws, w.missing ≠ [] → w.name ∉ ready

theorem mem_freed {x : String} : x ∈ freed name ws ↔
    ∃ w ∈ ws, w.name = x ∧ name ∈ w.missing ∧ w.missing.erase name = [] := by
  simp only [freed, List.mem_map, List.mem_filter, Bool.and_eq_true, List.contains_iff_mem,
    List.isEmpty_iff]
  exact exists_congr fun w => by tauto

theorem mem_free {v : Pending} :
    v ∈ free name ws ↔ ∃ w ∈ ws, v = ⟨w.name, w.missing.erase name⟩ := by
  simp only [free, List.mem_map, eq_comm]

theorem Settling.take (h : Settling (name :: ready) ws) :
    Settling (ready ++ freed name ws) (free name ws) := by
  obtain ⟨hready, hnames, hmissing, hapart⟩ := h
  refine ⟨?_, ?_, ?_, ?_⟩
  · refine hready.of_cons.append (hnames.sublist (List.filter_sublist.map _)) ?_
    intro x hx hr
    obtain ⟨w, hw, rfl, hmem, _⟩ := mem_freed.mp hr
    exact hapart w hw (List.ne_nil_of_mem hmem) (List.mem_cons_of_mem name hx)
  · unfold free
    rw [List.map_map]
    exact hnames
  · intro v hv
    obtain ⟨w, hw, rfl⟩ := mem_free.mp hv
    exact (hmissing w hw).erase name
  · intro v hv hne hin
    obtain ⟨w, hw, rfl⟩ := mem_free.mp hv
    rcases List.mem_append.mp hin with hin | hin
    · refine hapart w hw ?_ (List.mem_cons_of_mem name hin)
      intro hnil
      simp [hnil] at hne
    · obtain ⟨u, hu, hname, _, herase⟩ := mem_freed.mp hin
      rw [List.inj_on_of_nodup_map hnames hu hw hname] at herase
      exact hne herase

theorem Settles.mem_iff (h : Settles ready ws taken left) (settling : Settling ready ws)
    {x : String} : x ∈ taken ↔
      x ∈ ready ∨ ∃ w ∈ ws, w.name = x ∧ w.missing ≠ [] ∧ w.missing ⊆ taken := by
  induction h with
  | done => simp [List.subset_nil]
  | @take name ready taken ws left _ ih =>
    rw [List.mem_cons, List.mem_cons, ih settling.take, List.mem_append, or_assoc, or_assoc]
    refine or_congr_right (or_congr_right ?_)
    simp only [mem_freed, mem_free]
    constructor
    · rintro (⟨w, hw, rfl, hmem, herase⟩ | ⟨_, ⟨w, hw, rfl⟩, rfl, hne, hsub⟩)
      · refine ⟨w, hw, rfl, List.ne_nil_of_mem hmem, fun m hm => ?_⟩
        rw [List.mem_cons, or_iff_not_imp_left]
        intro hne
        have := (List.mem_erase_of_ne hne).mpr hm
        simp [herase] at this
      · refine ⟨w, hw, rfl, fun hnil => hne (by simp [hnil]), fun m hm => ?_⟩
        rw [List.mem_cons, or_iff_not_imp_left]
        exact fun hne => hsub ((List.mem_erase_of_ne hne).mpr hm)
    · rintro ⟨w, hw, rfl, hne, hsub⟩
      by_cases herase : w.missing.erase name = []
      · obtain ⟨m, hm⟩ := List.exists_mem_of_ne_nil _ hne
        have hmem : name ∈ w.missing := by
          by_contra hnot
          rw [List.erase_of_not_mem hnot] at herase
          exact hne herase
        exact .inl ⟨w, hw, rfl, hmem, herase⟩
      · refine .inr ⟨_, ⟨w, hw, rfl⟩, rfl, herase, fun m hm => ?_⟩
        obtain ⟨hmne, hm⟩ := (settling.missing w hw).mem_erase_iff.mp hm
        exact (List.mem_cons.mp (hsub hm)).resolve_left hmne

theorem Settles.nodup (h : Settles ready ws taken left) (settling : Settling ready ws) :
    taken.Nodup := by
  induction h with
  | done => exact List.nodup_nil
  | @take name ready taken ws left hrest ih =>
    refine List.nodup_cons.mpr ⟨fun hm => ?_, ih settling.take⟩
    have hwaits : ∀ w ∈ ws, w.missing ≠ [] → w.name ≠ name := fun w hw hne he =>
      settling.apart w hw hne (he ▸ List.mem_cons_self)
    rcases (hrest.mem_iff settling.take).mp hm with hin | ⟨v, hv, hname, hne, _⟩
    · rcases List.mem_append.mp hin with hin | hin
      · exact (List.nodup_cons.mp settling.distinct).1 hin
      · obtain ⟨w, hw, hname, hmem, _⟩ := mem_freed.mp hin
        exact hwaits w hw (List.ne_nil_of_mem hmem) hname
    · obtain ⟨w, hw, rfl⟩ := mem_free.mp hv
      exact hwaits w hw (fun hnil => hne (by simp [hnil])) hname

theorem Settles.before (h : Settles ready ws taken left) (settling : Settling ready ws) :
    ∀ w ∈ ws, w.name ∈ taken → ∀ m ∈ w.missing, taken.idxOf m < taken.idxOf w.name := by
  induction h with
  | done => simp
  | @take name ready taken ws left _ ih =>
    intro w hw hmem m hm
    have hne : w.name ≠ name := fun he =>
      settling.apart w hw (List.ne_nil_of_mem hm) (he ▸ List.mem_cons_self)
    rw [List.idxOf_cons_ne taken hne.symm]
    by_cases hname : m = name
    · rw [hname, List.idxOf_cons_self]
      exact Nat.succ_pos _
    · rw [List.idxOf_cons_ne taken (Ne.symm hname)]
      refine Nat.succ_lt_succ (ih settling.take _ (mem_free.mpr ⟨w, hw, rfl⟩) ?_ m ?_)
      · exact (List.mem_cons.mp hmem).resolve_left hne
      · exact (List.mem_erase_of_ne hname).mpr hm

theorem Settles.left_eq (h : Settles ready ws taken left) (settling : Settling ready ws) :
    left = ws.map fun w => ⟨w.name, w.missing.filter fun m => !taken.contains m⟩ := by
  induction h with
  | done => simp
  | @take name ready taken ws left _ ih =>
    rw [ih settling.take]
    unfold free
    rw [List.map_map]
    refine List.map_congr_left fun w hw => ?_
    simp only [Function.comp, (settling.missing w hw).erase_eq_filter, List.filter_filter]
    congr 1
    refine List.filter_congr fun m _ => ?_
    rw [Bool.eq_iff_iff]
    simp [and_comm]

/-! ### Counting what a query waits for -/

section Counting

variable {done : List String} {us : List Waiting} {u : Waiting}

def Waiting.pending (done : List String) (u : Waiting) : Pending :=
  ⟨u.name, u.reads.filter fun n => !done.contains n⟩

/-- Each count is the number of names that are missing; a name is counted once, since it is ready
once. -/
structure Tallied (done ready : List String) (us : List Waiting) : Prop where
  settling : Settling ready (us.map (·.pending done))
  count : ∀ u ∈ us, u.missing = (u.pending done).missing.length
  fresh : ∀ n ∈ ready, n ∉ done
  away : ∀ u ∈ us, u.missing ≠ 0 → u.name ∉ done

theorem Waiting.pending_release (name : String) (u : Waiting) :
    (u.release name).pending done = u.pending done := by
  unfold release
  split <;> rfl

theorem Waiting.pending_cons (nodup : (u.pending done).missing.Nodup) :
    u.pending (name :: done) = ⟨u.name, (u.pending done).missing.erase name⟩ := by
  rw [nodup.erase_eq_filter]
  unfold pending
  rw [List.filter_filter]
  congr 1
  refine List.filter_congr fun m _ => ?_
  rw [Bool.eq_iff_iff]
  simp

theorem Waiting.map_name_filter {counts : Waiting → Bool} {names : Pending → Bool}
    (h : ∀ u ∈ us, counts u = names (u.pending done)) :
    (us.filter counts).map (·.name) = ((us.map (·.pending done)).filter names).map (·.name) := by
  rw [List.filter_map, List.map_map, List.filter_congr h]
  rfl

namespace Tallied

variable (h : Tallied done (name :: ready) us)

include h

theorem mem_missing : name ∈ (u.pending done).missing ↔ name ∈ u.reads := by
  have hfresh := h.fresh name List.mem_cons_self
  simp [Waiting.pending, hfresh]

theorem pos (hu : u ∈ us) (hread : name ∈ u.reads) : 0 < u.missing := by
  rw [h.count u hu]
  exact List.length_pos_of_mem ((h.mem_missing).mpr hread)

theorem free_eq :
    (us.map (·.release name)).map (·.pending (name :: done)) =
      free name (us.map (·.pending done)) := by
  unfold free
  rw [List.map_map, List.map_map]
  refine List.map_congr_left fun u hu => ?_
  have hnodup := h.settling.missing _ (List.mem_map_of_mem hu)
  rw [Function.comp_apply, Waiting.pending_release, Waiting.pending_cons hnodup]
  rfl

theorem freed_eq : released name us = freed name (us.map (·.pending done)) := by
  refine Waiting.map_name_filter fun u hu => ?_
  rw [Bool.eq_iff_iff, Bool.and_eq_true, Bool.and_eq_true, List.contains_iff_mem,
    List.contains_iff_mem, h.mem_missing]
  refine and_congr_right fun hread => ?_
  have hmem := h.mem_missing.mpr hread
  rw [List.isEmpty_iff_length_eq_zero, List.length_erase_of_mem hmem, beq_iff_eq, ← h.count u hu]
  have hpos := h.pos hu hread
  omega

theorem take : Tallied (name :: done) (ready ++ released name us) (us.map (·.release name)) := by
  have hnext := h.settling.take
  rw [← h.free_eq, ← h.freed_eq] at hnext
  have haway : ∀ u ∈ us, u.missing ≠ 0 → u.name ∉ name :: done := by
    intro u hu hne
    rw [List.mem_cons, not_or]
    refine ⟨fun hname => ?_, h.away u hu hne⟩
    refine h.settling.apart _ (List.mem_map_of_mem hu) (fun hnil => hne ?_)
      (hname ▸ List.mem_cons_self)
    rw [h.count u hu, hnil, List.length_nil]
  refine ⟨hnext, ?_, ?_, ?_⟩
  · intro v hv
    obtain ⟨u, hu, rfl⟩ := List.mem_map.mp hv
    have hnodup := h.settling.missing _ (List.mem_map_of_mem hu)
    rw [Waiting.pending_release, Waiting.pending_cons hnodup]
    unfold Waiting.release
    split
    · rename_i hread
      have hmem := (h.mem_missing).mpr (List.contains_iff_mem.mp hread)
      rw [List.length_erase_of_mem hmem, ← h.count u hu]
    · rename_i hread
      have hmem := mt (h.mem_missing).mp (mt List.contains_iff_mem.mpr hread)
      rw [List.erase_of_not_mem hmem, h.count u hu]
  · intro n hn
    rcases List.mem_append.mp hn with hn | hn
    · rw [List.mem_cons, not_or]
      refine ⟨?_, h.fresh n (List.mem_cons_of_mem name hn)⟩
      exact fun hname => (List.nodup_cons.mp h.settling.distinct).1 (hname ▸ hn)
    · obtain ⟨u, hu, rfl⟩ := List.mem_map.mp hn
      obtain ⟨hu, hcount⟩ := List.mem_filter.mp hu
      refine haway u hu ?_
      rw [Bool.and_eq_true, beq_iff_eq] at hcount
      rw [hcount.2]
      exact Nat.one_ne_zero
  · intro v hv
    obtain ⟨u, hu, rfl⟩ := List.mem_map.mp hv
    unfold Waiting.release
    split
    · intro hne
      exact haway u hu fun hzero => hne (by rw [hzero])
    · exact haway u hu

end Tallied

/-- As many steps as there are queries suffice, and taking by counts is taking by names. -/
theorem settle_settles (n : Nat) (h : Tallied done ready us)
    (hn : ready.length + (us.map (·.pending done)).countP (!·.missing.isEmpty) ≤ n) :
    ∃ done', Settles ready (us.map (·.pending done)) (settle n ready us).1
        ((settle n ready us).2.map (·.pending done')) ∧
      ∀ u ∈ (settle n ready us).2, u.missing = (u.pending done').missing.length := by
  induction n generalizing done ready us with
  | zero =>
    rw [List.eq_nil_of_length_eq_zero (show ready.length = 0 by omega)]
    exact ⟨done, .done, h.count⟩
  | succ n ih =>
    cases ready with
    | nil => exact ⟨done, .done, h.count⟩
    | cons name ready =>
      have hcount := countP_free name (us.map (·.pending done))
      obtain ⟨done', hsettles, hleft⟩ := ih h.take (by
        rw [List.length_append, h.free_eq, h.freed_eq]
        rw [List.length_cons] at hn
        omega)
      rw [h.free_eq] at hsettles
      nth_rewrite 1 [h.freed_eq] at hsettles
      exact ⟨done', .take hsettles, hleft⟩

end Counting

/-! ### The queries of a script -/

def readyAtFirst (queries : List QueryDecl) : List String :=
  ((pending queries).filter (·.missing.isEmpty)).map (·.name)

theorem mem_pending {w : Pending} : w ∈ pending queries ↔ ∃ q ∈ queries,
    w = ⟨q.name, q.reads.filter fun n => queries.any (·.name = n)⟩ := by
  simp only [pending, List.mem_map, eq_comm]

theorem map_name_pending (queries : List QueryDecl) :
    (pending queries).map (·.name) = queries.map (·.name) := by
  unfold pending
  rw [List.map_map]
  rfl

theorem mem_missing {q : QueryDecl} (hq : q ∈ queries) {n : String} :
    (n ∈ q.reads.filter fun n => queries.any (·.name = n)) ↔
      ∃ r, Reads queries q r ∧ r.name = n := by
  rw [List.mem_filter, List.any_eq_true]
  constructor
  · rintro ⟨hn, r, hr, hname⟩
    rw [decide_eq_true_eq] at hname
    exact ⟨r, ⟨hq, hr, QueryDecl.mem_reads.mp (hname ▸ hn)⟩, hname⟩
  · rintro ⟨r, ⟨_, hr, hreads⟩, rfl⟩
    exact ⟨QueryDecl.mem_reads.mpr hreads, r, hr, by simp⟩

theorem settling_pending (nodup : (queries.map (·.name)).Nodup) :
    Settling (readyAtFirst queries) (pending queries) := by
  have hnames : ((pending queries).map (·.name)).Nodup := map_name_pending queries ▸ nodup
  refine ⟨hnames.sublist (List.filter_sublist.map _), hnames, ?_, ?_⟩
  · intro w hw
    obtain ⟨q, _, rfl⟩ := mem_pending.mp hw
    exact (nodup_eraseDups _).filter _
  · intro w hw hne hin
    obtain ⟨v, hv, hname⟩ := List.mem_map.mp hin
    obtain ⟨hv, hempty⟩ := List.mem_filter.mp hv
    rw [List.inj_on_of_nodup_map hnames hv hw hname] at hempty
    exact hne (List.isEmpty_iff.mp hempty)

theorem pending_waiting (queries : List QueryDecl) :
    (waiting queries).map (·.pending []) = pending queries := by
  unfold waiting pending
  rw [List.map_map]
  refine List.map_congr_left fun q _ => ?_
  simp [Waiting.pending]

theorem tallied_waiting (nodup : (queries.map (·.name)).Nodup) :
    Tallied [] (readyAtFirst queries) (waiting queries) := by
  refine ⟨pending_waiting queries ▸ settling_pending nodup, ?_, by simp, by simp⟩
  intro u hu
  obtain ⟨q, _, rfl⟩ := List.mem_map.mp hu
  simp [Waiting.pending]

theorem order_settles (nodup : (queries.map (·.name)).Nodup) : ∃ names left,
    Settles (readyAtFirst queries) (pending queries) names left ∧
    order queries = if names.length < queries.length then
      .error (.recursiveQueries ((left.filter (!·.missing.isEmpty)).map (·.name)))
    else .ok names := by
  have hn : (readyAtFirst queries).length + (pending queries).countP (!·.missing.isEmpty) ≤
      queries.length := by
    have hlength : (pending queries).length = queries.length := List.length_map ..
    rw [readyAtFirst, List.length_map, ← List.countP_eq_length_filter, ← hlength,
      List.length_eq_countP_add_countP (·.missing.isEmpty)]
    simp only [Bool.not_eq_true, Bool.decide_eq_false, Nat.le_refl]
  obtain ⟨done, hsettles, hcount⟩ := settle_settles queries.length (tallied_waiting nodup)
    (by rwa [pending_waiting])
  rw [pending_waiting] at hsettles
  have hready : ((waiting queries).filter (·.missing == 0)).map (·.name) =
      readyAtFirst queries := by
    rw [readyAtFirst, ← pending_waiting]
    refine Waiting.map_name_filter fun u hu => ?_
    rw [Bool.eq_iff_iff, (tallied_waiting nodup).count u hu, beq_iff_eq,
      List.isEmpty_iff_length_eq_zero]
  refine ⟨_, _, hsettles, ?_⟩
  rw [← Waiting.map_name_filter fun u hu => ?_, ← hready]
  · rfl
  · rw [Bool.eq_iff_iff, decide_eq_true_eq, hcount u hu]
    simp [List.length_pos_iff]

/-- The names of queries, each after the names of those that it reads, and as many as can be put
into such an order. -/
structure Sorts (queries : List QueryDecl) (names : List String) : Prop where
  nodup : names.Nodup
  declared : names ⊆ queries.map (·.name)
  mem_iff : ∀ q ∈ queries, q.name ∈ names ↔ ∀ r, Reads queries q r → r.name ∈ names
  before : ∀ q r, Reads queries q r → q.name ∈ names → names.idxOf r.name < names.idxOf q.name

theorem Settles.sorts (nodup : (queries.map (·.name)).Nodup) {names : List String}
    (h : Settles (readyAtFirst queries) (pending queries) names left) : Sorts queries names := by
  have settling := settling_pending nodup
  have hmem : ∀ x, x ∈ names ↔ ∃ w ∈ pending queries, w.name = x ∧ w.missing ⊆ names := by
    intro x
    rw [h.mem_iff settling, readyAtFirst, List.mem_map]
    constructor
    · rintro (⟨w, hw, rfl⟩ | ⟨w, hw, rfl, _, hsub⟩)
      · obtain ⟨hw, hempty⟩ := List.mem_filter.mp hw
        exact ⟨w, hw, rfl, by simp [List.isEmpty_iff.mp hempty]⟩
      · exact ⟨w, hw, rfl, hsub⟩
    · rintro ⟨w, hw, rfl, hsub⟩
      by_cases hne : w.missing = []
      · exact .inl ⟨w, List.mem_filter.mpr ⟨hw, by simp [hne]⟩, rfl⟩
      · exact .inr ⟨w, hw, rfl, hne, hsub⟩
  refine ⟨h.nodup settling, ?_, ?_, ?_⟩
  · intro x hx
    obtain ⟨w, hw, rfl, _⟩ := (hmem x).mp hx
    rw [← map_name_pending]
    exact List.mem_map_of_mem hw
  · intro q hq
    rw [hmem]
    constructor
    · rintro ⟨w, hw, hname, hsub⟩ r hr
      obtain ⟨q', hq', rfl⟩ := mem_pending.mp hw
      cases List.inj_on_of_nodup_map nodup hq' hq hname
      exact hsub ((mem_missing hq).mpr ⟨r, hr, rfl⟩)
    · intro hall
      refine ⟨_, mem_pending.mpr ⟨q, hq, rfl⟩, rfl, fun m hm => ?_⟩
      obtain ⟨r, hr, rfl⟩ := (mem_missing hq).mp hm
      exact hall r hr
  · intro q r hr hq
    exact h.before settling _ (mem_pending.mpr ⟨q, hr.1, rfl⟩) hq _
      ((mem_missing hr.1).mpr ⟨r, hr, rfl⟩)

/-! ### Circles -/

namespace Sorts

variable {names : List String} (sorts : Sorts queries names) {q r : QueryDecl}

include sorts

theorem before_of_transGen (h : Relation.TransGen (Reads queries) q r) (hq : q.name ∈ names) :
    r.name ∈ names ∧ names.idxOf r.name < names.idxOf q.name := by
  induction h with
  | single hread => exact ⟨(sorts.mem_iff q hread.1).mp hq _ hread, sorts.before q _ hread hq⟩
  | @tail b c _ hread ih =>
    obtain ⟨hb, hlt⟩ := ih
    exact ⟨(sorts.mem_iff b hread.1).mp hb c hread, (sorts.before b c hread hb).trans hlt⟩

/-- Only queries that lead to a circle are not sorted. -/
theorem mem_of_not_reachesCycle (hq : q ∈ queries) (h : ¬ ReachesCycle queries q) :
    q.name ∈ names := by
  -- Reading is well-founded on what the query leads to, which is finite and without a circle.
  let Cone := {r // r ∈ queries ∧ Relation.ReflTransGen (Reads queries) q r}
  let Below (a b : Cone) : Prop := Relation.TransGen (Reads queries) b.1 a.1
  have : Finite Cone := (queries.finite_toSet.subset fun r hr => hr.1).to_subtype
  have : IsTrans Cone Below := ⟨fun _ _ _ hab hbc => hbc.trans hab⟩
  have : Std.Irrefl Below := ⟨fun a ha => h ⟨a.1, a.2.2, ha⟩⟩
  have hall : ∀ a : Cone, a.1.name ∈ names := by
    intro a
    induction a using (Finite.wellFounded_of_trans_of_irrefl Below).induction with
    | _ a ih =>
      refine (sorts.mem_iff a.1 a.2.1).mpr fun r hr => ?_
      exact ih ⟨r, hr.2.1, a.2.2.tail hr⟩ (.single hr)
  exact hall ⟨q, hq, .refl⟩

theorem notMem_iff (hq : q ∈ queries) : q.name ∉ names ↔ ReachesCycle queries q := by
  constructor
  · exact fun hn => by_contra fun h => hn (sorts.mem_of_not_reachesCycle hq h)
  · rintro ⟨r, hreach, hcycle⟩ hn
    have hr : r.name ∈ names := by
      rcases Relation.reflTransGen_iff_eq_or_transGen.mp hreach with rfl | hreach
      · exact hn
      · exact (sorts.before_of_transGen hreach hn).1
    exact lt_irrefl _ (sorts.before_of_transGen hcycle hr).2

theorem exists_notMem_iff :
    (∃ q ∈ queries, q.name ∉ names) ↔ ∃ q, Relation.TransGen (Reads queries) q q := by
  constructor
  · rintro ⟨q, hq, hn⟩
    obtain ⟨r, _, hcycle⟩ := (sorts.notMem_iff hq).mp hn
    exact ⟨r, hcycle⟩
  · rintro ⟨q, hcycle⟩
    obtain ⟨_, hread, _⟩ := Relation.TransGen.head'_iff.mp hcycle
    exact ⟨q, hread.1, (sorts.notMem_iff hread.1).mpr ⟨q, .refl, hcycle⟩⟩

theorem perm (h : ¬ names.length < queries.length) : names.Perm (queries.map (·.name)) :=
  (List.subperm_of_subset sorts.nodup sorts.declared).perm_of_length_le
    (by rw [List.length_map]; omega)

theorem length_lt_iff (nodup : (queries.map (·.name)).Nodup) :
    names.length < queries.length ↔ ∃ q ∈ queries, q.name ∉ names := by
  constructor
  · intro hlt
    by_contra hall
    push Not at hall
    have hback : queries.map (·.name) ⊆ names := by
      intro n hn
      obtain ⟨q, hq, rfl⟩ := List.mem_map.mp hn
      exact hall q hq
    have hle := (List.subperm_of_subset nodup hback).length_le
    rw [List.length_map] at hle
    omega
  · rintro ⟨q, hq, hn⟩
    by_contra hlt
    exact hn ((sorts.perm hlt).mem_iff.mpr (List.mem_map_of_mem hq))

end Sorts

theorem Settles.map_name_left (nodup : (queries.map (·.name)).Nodup) {names : List String}
    (h : Settles (readyAtFirst queries) (pending queries) names left) :
    (left.filter (!·.missing.isEmpty)).map (·.name) =
      (queries.filter fun q => !names.contains q.name).map (·.name) := by
  have sorts := h.sorts nodup
  rw [h.left_eq (settling_pending nodup), pending, List.map_map, List.filter_map, List.map_map]
  have hfilter : (queries.filter fun q => !names.contains q.name) = queries.filter
      ((fun w : Pending => !w.missing.isEmpty) ∘ ((fun w : Pending =>
        ⟨w.name, w.missing.filter fun m => !names.contains m⟩) ∘
        fun q => ⟨q.name, q.reads.filter fun n => queries.any (·.name = n)⟩)) := by
    refine List.filter_congr fun q hq => ?_
    rw [Bool.eq_iff_iff]
    simp only [Function.comp, Bool.not_eq_true', List.contains_eq_mem, decide_eq_false_iff_not,
      List.isEmpty_eq_false_iff, ne_eq, List.filter_eq_nil_iff, not_forall, sorts.mem_iff q hq]
    constructor
    · rintro ⟨r, hr, hn⟩
      exact ⟨r.name, (mem_missing hq).mpr ⟨r, hr, rfl⟩, by simpa using hn⟩
    · rintro ⟨m, hm, hn⟩
      obtain ⟨r, hr, rfl⟩ := (mem_missing hq).mp hm
      exact ⟨r, hr, by simpa using hn⟩
  rw [hfilter]
  rfl

theorem order_eq_ok {names : List String} (nodup : (queries.map (·.name)).Nodup)
    (h : order queries = .ok names) :
    ¬ names.length < queries.length ∧
      ∃ left, Settles (readyAtFirst queries) (pending queries) names left := by
  obtain ⟨taken, left, hsettles, horder⟩ := order_settles nodup
  rw [horder] at h
  split at h
  · cases h
  · rename_i hlt
    cases h
    exact ⟨hlt, left, hsettles⟩

theorem order_sorted {names : List String} (nodup : (queries.map (·.name)).Nodup)
    (h : order queries = .ok names) : Sorts queries names := by
  obtain ⟨_, left, hsettles⟩ := order_eq_ok nodup h
  exact hsettles.sorts nodup

theorem order_perm {names : List String} (nodup : (queries.map (·.name)).Nodup)
    (h : order queries = .ok names) : names.Perm (queries.map (·.name)) :=
  (order_sorted nodup h).perm (order_eq_ok nodup h).1

open Classical in
/-- There is an order exactly if no query reads itself, perhaps through others. It has each query
once, after all queries that it reads; otherwise the error names the queries that lead to a circle,
as they were declared. -/
theorem order_sorts (nodup : (queries.map (·.name)).Nodup) :
    ((∃ names, order queries = .ok names) ↔ ∀ q, ¬ Relation.TransGen (Reads queries) q q) ∧
    (∀ names, order queries = .ok names → names.Perm (queries.map (·.name)) ∧
      ∀ q r, Reads queries q r → names.idxOf r.name < names.idxOf q.name) ∧
    ∀ e, order queries = .error e →
      e = .recursiveQueries ((queries.filter fun q => ReachesCycle queries q).map (·.name)) := by
  obtain ⟨names, left, hsettles, horder⟩ := order_settles nodup
  have sorts := hsettles.sorts nodup
  have hlength := (sorts.length_lt_iff nodup).trans sorts.exists_notMem_iff
  by_cases hlt : names.length < queries.length
  · obtain ⟨q, hcycle⟩ := hlength.mp hlt
    rw [horder, if_pos hlt]
    refine ⟨by simpa using ⟨q, hcycle⟩, by simp, ?_⟩
    rintro e ⟨⟩
    have hleft : (queries.filter fun q => !names.contains q.name) =
        queries.filter fun q => ReachesCycle queries q :=
      List.filter_congr fun q hq => by simp [← sorts.notMem_iff hq]
    rw [hsettles.map_name_left nodup, hleft]
  · rw [horder, if_neg hlt]
    refine ⟨by simpa using fun q hcycle => hlt (hlength.mpr ⟨q, hcycle⟩), ?_, by simp⟩
    rintro _ ⟨⟩
    refine ⟨sorts.perm hlt, fun q r hread => sorts.before q r hread ?_⟩
    exact (sorts.perm hlt).mem_iff.mpr (List.mem_map_of_mem hread.1)

def orderSample (name : String) (reads : List String) : QueryDecl where
  name := name
  params := []
  result := ⟨.var "x", ⟨0, 0⟩⟩
  clauses := reads.map fun n => ⟨.member (.var "x") (.named n none), ⟨0, 0⟩⟩
  options := []

def circularSample : List QueryDecl :=
  [orderSample "D" ["C"], orderSample "A" ["B", "E", "B"], orderSample "C" ["E", "C"],
    orderSample "B" ["E"]]

def sortedSample : List QueryDecl := [orderSample "A" ["B", "E", "B"], orderSample "B" ["E"]]

open Classical in
theorem order_sorts_sample :
    order circularSample = .error (.recursiveQueries ["D", "C"]) ∧
    (.recursiveQueries ["D", "C"] : CompileError) = .recursiveQueries
      ((circularSample.filter fun q => ReachesCycle circularSample q).map (·.name)) ∧
    order sortedSample = .ok ["B", "A"] ∧
    ∀ q, ¬ Relation.TransGen (Reads sortedSample) q q :=
  ⟨rfl, (order_sorts (by decide)).2.2 _ rfl, rfl, (order_sorts (by decide)).1.mp ⟨_, rfl⟩⟩

end Declarations

end ViewUpkeep
