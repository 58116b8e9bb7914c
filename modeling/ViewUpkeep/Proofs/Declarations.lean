import ViewUpkeep.Program
import ViewUpkeep.Proofs.Dependencies
import ViewUpkeep.Proofs.Reading

/-!
The declarations of a text. Each name is declared once and is an identifier; a map has one column
more than its key. The queries are compiled each once and after all that they read.
-/
namespace ViewUpkeep

structure RelationInfo.Declared (info : RelationInfo) : Prop where
  origin : info.origin = .base
  plain : info.counted = false
  key : ∀ n, info.kind = .map n → info.arity = n + 1

namespace Declarations

structure Sound (d : Declarations) : Prop where
  names : ∀ n ∈ d.relations.map (·.name) ++ d.queries.map (·.name), IsIdentifier n
  nodup : (d.relations.map (·.name) ++ d.queries.map (·.name)).Nodup
  relations : ∀ info ∈ d.relations, info.Declared
  queries : ∀ q ∈ d.queries, q.WellNamed

theorem empty_sound : empty.Sound :=
  ⟨by simp [empty], by simp [empty], by simp [empty], by simp [empty]⟩

theorem declares_eq_false {d : Declarations} {name : String} (h : ¬ d.declares name = true) :
    name ∉ d.relations.map (·.name) ++ d.queries.map (·.name) := by
  intro hm
  refine h ?_
  rcases List.mem_append.mp hm with hm | hm
  · obtain ⟨info, hi, rfl⟩ := List.mem_map.mp hm
    have : d.relations.any (·.name = info.name) = true := List.any_eq_true.mpr ⟨info, hi, by simp⟩
    simp [declares, this]
  · obtain ⟨q, hq, rfl⟩ := List.mem_map.mp hm
    have : d.queries.any (·.name = q.name) = true := List.any_eq_true.mpr ⟨q, hq, by simp⟩
    simp [declares, this]

theorem insert_names {s : Statement} {name : String} (h : s.declares = some name)
    (d : Declarations) :
    ((d.insert s).relations.map (·.name) ++ (d.insert s).queries.map (·.name)).Perm
      (name :: (d.relations.map (·.name) ++ d.queries.map (·.name))) := by
  cases s with
  | relation | map =>
    cases h
    simp only [insert, List.map_append, List.append_assoc]
    exact List.perm_middle
  | query q =>
    cases h
    simp only [insert, List.map_append, ← List.append_assoc]
    exact List.perm_append_singleton _ _
  | _ => cases h

theorem nodup_insert {s : Statement} {name : String} (h : s.declares = some name)
    {d : Declarations} (nodup : (d.relations.map (·.name) ++ d.queries.map (·.name)).Nodup)
    (fresh : ¬ d.declares name = true) :
    ((d.insert s).relations.map (·.name) ++ (d.insert s).queries.map (·.name)).Nodup :=
  (insert_names h d).nodup_iff.mpr (List.nodup_cons.mpr ⟨declares_eq_false fresh, nodup⟩)

theorem collectFrom_nodup {d e : Declarations} {script : Script}
    (nodup : (d.relations.map (·.name) ++ d.queries.map (·.name)).Nodup)
    (h : collectFrom d script = .ok e) :
    (e.relations.map (·.name) ++ e.queries.map (·.name)).Nodup := by
  induction script generalizing d with
  | nil =>
    cases h
    exact nodup
  | cons s rest ih =>
    unfold collectFrom at h
    split at h
    · exact ih nodup h
    · rename_i name hname
      split at h
      · cases h
      · rename_i fresh
        split at h
        · cases h
        · exact ih (nodup_insert hname nodup fresh) h

theorem ofScript_nodup {script : Script} {d : Declarations} (h : ofScript script = .ok d) :
    (d.queries.map (·.name)).Nodup :=
  (List.nodup_append.mp (collectFrom_nodup (by simp [empty]) h)).2.1

theorem map_name_found {queries : List QueryDecl} {names : List String}
    (nodup : (queries.map (·.name)).Nodup) (perm : names.Perm (queries.map (·.name))) :
    (names.filterMap fun n => queries.find? (·.name = n)).map (·.name) = names := by
  rw [List.map_filterMap]
  conv_rhs => rw [← List.filterMap_some (l := names)]
  refine List.filterMap_congr fun n hn => ?_
  obtain ⟨q, hq, rfl⟩ := List.mem_map.mp (perm.mem_iff.mp hn)
  rw [(find_eq_some_iff_of_nodup_map nodup).mpr ⟨hq, rfl⟩]
  rfl

theorem Sound.insert {d : Declarations} (sound : d.Sound) {s : Statement} (named : s.WellNamed)
    {name : String} (hname : s.declares = some name) (fresh : ¬ d.declares name = true) :
    (d.insert s).Sound := by
  have hident : IsIdentifier name := by
    cases s with
    | relation | map =>
      cases hname
      exact named
    | query q =>
      cases hname
      exact QueryDecl.WellNamed.name named
    | _ => cases hname
  refine ⟨?_, nodup_insert hname sound.nodup fresh, ?_, ?_⟩
  · intro n hn
    rcases List.mem_cons.mp ((insert_names hname d).mem_iff.mp hn) with rfl | hn
    · exact hident
    · exact sound.names n hn
  · intro info hinfo
    cases s with
    | relation =>
      rcases List.mem_append.mp hinfo with hinfo | hinfo
      · exact sound.relations info hinfo
      · rw [List.mem_singleton.mp hinfo]
        exact ⟨rfl, rfl, fun _ hk => by cases hk⟩
    | map =>
      rcases List.mem_append.mp hinfo with hinfo | hinfo
      · exact sound.relations info hinfo
      · rw [List.mem_singleton.mp hinfo]
        exact ⟨rfl, rfl, fun _ hk => by cases hk; rfl⟩
    | _ => exact sound.relations info hinfo
  · intro q hq
    cases s with
    | query r =>
      rcases List.mem_append.mp hq with hq | hq
      · exact sound.queries q hq
      · rw [List.mem_singleton.mp hq]
        exact named
    | _ => exact sound.queries q hq

theorem collectFrom_sound {d e : Declarations} {script : Script} (sound : d.Sound)
    (named : ∀ s ∈ script, s.node.WellNamed) (h : collectFrom d script = .ok e) : e.Sound := by
  induction script generalizing d with
  | nil =>
    cases h
    exact sound
  | cons s rest ih =>
    have hrest : ∀ t ∈ rest, t.node.WellNamed := fun t ht => named t (List.mem_cons_of_mem s ht)
    have hnamed := named s List.mem_cons_self
    unfold collectFrom at h
    split at h
    · exact ih sound hrest h
    · rename_i name hname
      split at h
      · cases h
      · rename_i fresh
        split at h
        · cases h
        · exact ih (sound.insert hnamed hname fresh) hrest h

end Declarations

theorem mem_of_idxOf_lt {pre post : List String} {m n : String} (nodup : (pre ++ n :: post).Nodup)
    (h : (pre ++ n :: post).idxOf m < (pre ++ n :: post).idxOf n) : m ∈ pre := by
  have hn : n ∉ pre := fun hin => (List.nodup_append.mp nodup).2.2 n hin n List.mem_cons_self rfl
  by_contra hm
  rw [List.idxOf_append_of_notMem hn, List.idxOf_append_of_notMem hm, List.idxOf_cons_self] at h
  omega

namespace Compile

/-- The declared queries, each once and after all that it reads. -/
structure Ordered (d : Declarations) (decls : List QueryDecl) : Prop where
  nodup : (decls.map (·.name)).Nodup
  perm : decls.Perm d.queries
  before : ∀ pre q post, decls = pre ++ q :: post →
    ∀ r, Declarations.Reads d.queries q r → r ∈ pre

theorem Ordered.queries_nodup {d : Declarations} {decls : List QueryDecl}
    (ordered : Ordered d decls) : (d.queries.map (·.name)).Nodup :=
  (ordered.perm.map _).nodup_iff.mp ordered.nodup

theorem prepare_ordered {script : Script} {d : Declarations} {decls : List QueryDecl}
    (h : prepare script = .ok (d, decls)) : Ordered d decls := by
  obtain ⟨e, he, h⟩ := bind_eq_ok.mp h
  obtain ⟨names, hnames, h⟩ := bind_eq_ok.mp h
  cases h
  have hnodup := Declarations.ofScript_nodup he
  have hperm := Declarations.order_perm hnodup hnames
  have hmap := Declarations.map_name_found hnodup hperm
  have hmem : ∀ q, q ∈ names.filterMap (fun n => d.queries.find? (·.name = n)) ↔
      q ∈ d.queries := by
    intro q
    simp only [List.mem_filterMap, find_eq_some_iff_of_nodup_map hnodup]
    constructor
    · rintro ⟨_, _, hq, _⟩
      exact hq
    · exact fun hq => ⟨q.name, hperm.mem_iff.mpr (List.mem_map_of_mem hq), hq, rfl⟩
  have hdistinct := hperm.nodup_iff.mpr hnodup
  rw [← hmap] at hdistinct
  refine ⟨hdistinct, (List.perm_ext_iff_of_nodup hdistinct.of_map hnodup.of_map).mpr hmem, ?_⟩
  intro pre q post hsplit r hread
  have hlt := (Declarations.order_sorted hnodup hnames).before q r hread
    (hperm.mem_iff.mpr (List.mem_map_of_mem hread.1))
  rw [hsplit, List.map_append, List.map_cons] at hmap hdistinct
  rw [← hmap] at hlt
  obtain ⟨r', hr', hname⟩ := List.mem_map.mp (mem_of_idxOf_lt hdistinct hlt)
  have hdeclared : r' ∈ d.queries := by
    rw [← hmem, hsplit]
    exact List.mem_append_left _ hr'
  rwa [← List.inj_on_of_nodup_map hnodup hdeclared hread.2.1 hname]

end Compile

theorem Compile.prepare_sound {script : Script} (named : ∀ s ∈ script, s.node.WellNamed)
    {d : Declarations} {decls : List QueryDecl} (h : Compile.prepare script = .ok (d, decls)) :
    d.Sound ∧ (∀ q ∈ decls, q ∈ d.queries) ∧ (decls.map (·.name)).Nodup := by
  have ordered := prepare_ordered h
  obtain ⟨e, he, h⟩ := bind_eq_ok.mp h
  obtain ⟨names, hnames, h⟩ := bind_eq_ok.mp h
  cases h
  exact ⟨Declarations.collectFrom_sound Declarations.empty_sound named he,
    fun q hq => ordered.perm.mem_iff.mp hq, ordered.nodup⟩

end ViewUpkeep
