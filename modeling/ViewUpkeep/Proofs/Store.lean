import ViewUpkeep.Code.Run
import ViewUpkeep.Proofs.Relation
import ViewUpkeep.Proofs.Satisfaction

/-!
Stores as facts. What the queries see of a store is which rows each relation has; the counts behind
them are what upkeep maintains. A change of one relation leaves all others as they are.
-/
namespace ViewUpkeep

namespace Store

def Has (s : Store) : Facts := fun rel row => s.contains rel row = true

def count (s : Store) (rel : String) (row : Row) : Nat :=
  match s.get? rel with
  | some r => r.count row
  | none => 0

def infos (s : Store) : List RelationInfo := s.relations.map Relation.info

def Sound (s : Store) : Prop := ∀ r ∈ s.relations, r.Sound

theorem mem_of_get? {s : Store} {rel : String} {r : Relation} (h : s.get? rel = some r) :
    r ∈ s.relations := List.mem_of_find?_eq_some h

theorem name_of_get? {s : Store} {rel : String} {r : Relation} (h : s.get? rel = some r) :
    r.name = rel := by
  simpa using List.find?_some h

theorem Sound.get? {s : Store} (sound : s.Sound) {rel : String} {r : Relation}
    (h : s.get? rel = some r) : r.Sound := sound r (mem_of_get? h)

theorem has_iff {s : Store} {rel : String} {r : Relation} (h : s.get? rel = some r) (row : Row) :
    s.Has rel row ↔ row ∈ r.toList := by
  unfold Has contains
  rw [h]
  exact r.contains_iff row

theorem count_eq {s : Store} {rel : String} {r : Relation} (h : s.get? rel = some r) (row : Row) :
    s.count rel row = r.count row := by
  unfold count
  rw [h]

theorem Sound.count_pos_iff {s : Store} (sound : s.Sound) (rel : String) (row : Row) :
    0 < s.count rel row ↔ s.Has rel row := by
  unfold count Has contains
  cases h : s.get? rel with
  | none => simp
  | some r => exact (sound.get? h).count_pos_iff row

theorem relation_eq_ok {s : Store} {rel : String} {r : Relation} :
    s.relation rel = .ok r ↔ s.get? rel = some r := by
  unfold relation
  cases s.get? rel <;> simp

theorem info_get? (s : Store) (rel : String) :
    (s.get? rel).map Relation.info = s.infos.find? (·.name = rel) := by
  unfold get? infos
  rw [List.find?_map]
  rfl

/-! ### Replacing a relation -/

theorem get?_replace (s : Store) (r : Relation) (rel : String) :
    (s.replace r).get? rel =
      if rel = r.name then (s.get? rel).map fun _ => r else s.get? rel := by
  unfold replace get?
  dsimp only
  induction s.relations with
  | nil => simp
  | cons q qs ih =>
    rw [List.map_cons, List.find?_cons, List.find?_cons]
    by_cases hq : q.name = r.name
    · rw [if_pos hq]
      by_cases hr : rel = r.name
      · subst hr
        simp [hq]
      · rw [if_neg hr] at ih ⊢
        simp [Ne.symm hr, hq, ih]
    · rw [if_neg hq]
      by_cases hr : q.name = rel
      · subst hr
        simp [hq]
      · simp only [hr, decide_false]
        exact ih

theorem infos_replace {s : Store} (nodup : (s.infos.map (·.name)).Nodup) {q r : Relation}
    (h : s.get? q.name = some q) (info : r.info = q.info) : (s.replace r).infos = s.infos := by
  unfold replace infos
  rw [List.map_map]
  apply List.map_congr_left
  intro p hp
  have hq := mem_of_get? h
  have hn : r.name = q.name := congrArg RelationInfo.name info
  by_cases hpr : p.name = r.name
  · have hpq : p.info = q.info := by
      unfold infos at nodup
      exact List.inj_on_of_nodup_map nodup (List.mem_map_of_mem hp) (List.mem_map_of_mem hq)
        (hpr.trans hn)
    simp [hpr, info, hpq]
  · simp [hpr]

theorem Sound.replace {s : Store} (sound : s.Sound) {r : Relation} (hr : r.Sound) :
    (s.replace r).Sound := by
  intro p hp
  obtain ⟨q, hq, rfl⟩ := List.mem_map.mp hp
  split
  · exact hr
  · exact sound q hq

theorem count_replace {s : Store} {q r : Relation} (h : s.get? q.name = some q)
    (info : r.info = q.info) (rel : String) (row : Row) :
    (s.replace r).count rel row = if rel = q.name then r.count row else s.count rel row := by
  have hn : r.name = q.name := congrArg RelationInfo.name info
  unfold count
  rw [get?_replace, hn]
  by_cases hr : rel = q.name
  · subst hr
    simp [h]
  · simp [hr]

/-! ### Declaring relations -/

theorem foldl_declare {s : Store} {infos : List RelationInfo}
    (nodup : ((s.infos ++ infos).map (·.name)).Nodup) :
    infos.foldl declare s = ⟨s.relations ++ infos.map .empty⟩ := by
  induction infos generalizing s with
  | nil => simp
  | cons info infos ih =>
    have hnone : ¬ (s.relations.any fun r => r.name = info.name) = true := by
      intro hany
      obtain ⟨r, hr, hname⟩ := List.any_eq_true.mp hany
      rw [List.map_append] at nodup
      refine (List.nodup_append.mp nodup).2.2 r.name ?_ info.name ?_ (by simpa using hname)
      · exact List.mem_map_of_mem (List.mem_map_of_mem hr)
      · exact List.mem_map_of_mem List.mem_cons_self
    have hdeclare : s.declare info = ⟨s.relations ++ [.empty info]⟩ := by
      rw [declare, if_neg hnone]
    rw [List.foldl_cons, hdeclare, ih]
    · simp
    · simpa [Store.infos] using nodup

theorem addIndex_same {s : Store} (sound : s.Sound) (nodup : (s.infos.map (·.name)).Nodup)
    (name : String) (mask : Mask) :
    (s.addIndex name mask).Sound ∧ (s.addIndex name mask).infos = s.infos ∧
      (s.addIndex name mask).count = s.count := by
  unfold addIndex
  split
  · rename_i r hget
    have hname := name_of_get? hget
    rw [← hname] at hget
    refine ⟨sound.replace ((sound.get? hget).addIndex mask),
      infos_replace nodup hget (r.info_addIndex mask), ?_⟩
    funext rel row
    rw [count_replace hget (r.info_addIndex mask)]
    split
    · rename_i hrel
      rw [hrel, count_eq hget, Relation.count, Relation.rows_addIndex]
      rfl
    · rfl
  · exact ⟨sound, rfl, rfl⟩

theorem foldl_addIndex {s : Store} (sound : s.Sound) (nodup : (s.infos.map (·.name)).Nodup)
    (indices : List (String × Mask)) :
    let t := indices.foldl (fun s i => s.addIndex i.1 i.2) s
    t.Sound ∧ t.infos = s.infos ∧ t.count = s.count := by
  induction indices generalizing s with
  | nil => exact ⟨sound, rfl, rfl⟩
  | cons i indices ih =>
    obtain ⟨hsound, hinfos, hcount⟩ := addIndex_same sound nodup i.1 i.2
    obtain ⟨h1, h2, h3⟩ := ih hsound (hinfos ▸ nodup)
    exact ⟨h1, h2.trans hinfos, h3.trans hcount⟩

theorem declared {infos : List RelationInfo} (nodup : (infos.map (·.name)).Nodup)
    (indices : List (String × Mask)) :
    let s := indices.foldl (fun s i => s.addIndex i.1 i.2) (infos.foldl declare empty)
    s.Sound ∧ s.infos = infos ∧ ∀ rel row, s.count rel row = 0 := by
  have hstore : infos.foldl declare empty = ⟨infos.map .empty⟩ := foldl_declare nodup
  have hsound : (⟨infos.map .empty⟩ : Store).Sound := by
    intro r hr
    obtain ⟨info, _, rfl⟩ := List.mem_map.mp hr
    exact Relation.empty_sound info
  have hinfos : (⟨infos.map .empty⟩ : Store).infos = infos := by
    simp [Store.infos, Function.comp_def]
  have hcount : ∀ rel row, (⟨infos.map .empty⟩ : Store).count rel row = 0 := by
    intro rel row
    unfold count
    split
    · rename_i r hget
      obtain ⟨info, _, rfl⟩ := List.mem_map.mp (mem_of_get? hget)
      simp [Relation.count, Bag.count, Bag.empty]
    · rfl
  rw [hstore]
  obtain ⟨h1, h2, h3⟩ := foldl_addIndex hsound (hinfos.symm ▸ nodup) indices
  exact ⟨h1, h2.trans hinfos, fun rel row => by rw [h3, hcount]⟩

end Store

end ViewUpkeep
