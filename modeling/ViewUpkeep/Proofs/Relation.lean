import ViewUpkeep.Proofs.Bag
import ViewUpkeep.Relation

/-!
Relations under change. A sound relation has a sound bag of rows, and each of its indices finds
exactly the rows that a scan would find. Adding and taking away rows keeps a relation sound, so that
a relation is known by the counts of its rows.
-/
namespace ViewUpkeep

namespace Index

structure Sound (mask : Mask) (rows : List Row) (index : Index) : Prop where
  nodup : (index.map Prod.fst).Nodup
  finds : ∀ key, (index.rows key).Perm (rows.filter fun row => mask.select row = key)

theorem rows_of_mem {index : Index} (nodup : (index.map Prod.fst).Nodup) {group : Row × List Row}
    (h : group ∈ index) : index.rows group.1 = group.2 := by
  induction index with
  | nil => cases h
  | cons g gs ih =>
    rw [List.map_cons, List.nodup_cons] at nodup
    unfold rows
    rw [List.find?_cons]
    rcases List.mem_cons.mp h with rfl | hmem
    · simp
    · have hne : g.1 ≠ group.1 := by
        intro he
        exact nodup.1 (he ▸ List.mem_map_of_mem (f := Prod.fst) hmem)
      simpa [hne, rows] using ih nodup.2 hmem

theorem rows_of_not_mem {index : Index} {key : Row} (h : key ∉ index.map Prod.fst) :
    index.rows key = [] := by
  have hnone : index.find? (fun g => g.1 = key) = none := by
    rw [List.find?_eq_none]
    intro g hg hk
    exact h (List.mem_map.mpr ⟨g, hg, by simpa using hk⟩)
  simp [rows, hnone]

theorem map_fst_update (index : Index) (key : Row) (f : List Row → List Row) :
    (index.map fun g => if g.1 = key then (g.1, f g.2) else g).map Prod.fst =
      index.map Prod.fst := by
  rw [List.map_map]
  apply List.map_congr_left
  intro g _
  by_cases h : g.1 = key <;> simp [h]

theorem rows_update {index : Index} (nodup : (index.map Prod.fst).Nodup) (key : Row)
    (f : List Row → List Row) (k : Row) (hk : k ∈ index.map Prod.fst) :
    rows (index.map fun g => if g.1 = key then (g.1, f g.2) else g) k =
      if k = key then f (index.rows k) else index.rows k := by
  obtain ⟨g, hg, rfl⟩ := List.mem_map.mp hk
  rw [rows_of_mem nodup hg]
  have hn := (map_fst_update index key f).symm ▸ nodup
  have hm := List.mem_map_of_mem
    (f := fun g : Row × List Row => if g.1 = key then (g.1, f g.2) else g) hg
  by_cases h : g.1 = key
  · simp only [if_pos h] at hm ⊢
    exact rows_of_mem hn hm
  · simp only [if_neg h] at hm ⊢
    exact rows_of_mem hn hm

theorem any_key_iff (index : Index) (key : Row) :
    (index.any fun g => g.1 = key) = true ↔ key ∈ index.map Prod.fst := by
  simp

theorem insert_nodup {index : Index} (nodup : (index.map Prod.fst).Nodup) (key row : Row) :
    ((index.insert key row).map Prod.fst).Nodup := by
  unfold insert
  by_cases h : key ∈ index.map Prod.fst
  · rw [if_pos ((any_key_iff index key).mpr h), map_fst_update index key (· ++ [row])]
    exact nodup
  · rw [if_neg (fun hc => h ((any_key_iff index key).mp hc)), List.map_append]
    refine List.nodup_append.mpr ⟨nodup, List.nodup_singleton key, ?_⟩
    intro x hx y hy he
    have hkey : x = key := he.trans (List.mem_singleton.mp hy)
    exact h (hkey ▸ hx)

theorem rows_insert {index : Index} (nodup : (index.map Prod.fst).Nodup) (key row k : Row) :
    (index.insert key row).rows k = if k = key then index.rows k ++ [row] else index.rows k := by
  have hn := insert_nodup nodup key row
  unfold insert at hn ⊢
  by_cases h : key ∈ index.map Prod.fst
  · rw [if_pos ((any_key_iff index key).mpr h)] at hn ⊢
    by_cases hk : k ∈ index.map Prod.fst
    · exact rows_update nodup key (· ++ [row]) k hk
    · have hne : k ≠ key := fun he => hk (he ▸ h)
      rw [rows_of_not_mem (by rwa [map_fst_update index key (· ++ [row])]), rows_of_not_mem hk,
        if_neg hne]
  · rw [if_neg (fun hc => h ((any_key_iff index key).mp hc))] at hn ⊢
    by_cases hk : k = key
    · subst hk
      rw [if_pos rfl, rows_of_not_mem h]
      exact rows_of_mem hn (List.mem_append_right _ (List.mem_singleton.mpr rfl))
    · rw [if_neg hk]
      by_cases hm : k ∈ index.map Prod.fst
      · obtain ⟨g, hg, rfl⟩ := List.mem_map.mp hm
        rw [rows_of_mem nodup hg]
        exact rows_of_mem hn (List.mem_append_left _ hg)
      · rw [rows_of_not_mem hm, rows_of_not_mem]
        rw [List.map_append]
        intro hc
        rcases List.mem_append.mp hc with hc | hc
        · exact hm hc
        · exact hk (List.mem_singleton.mp hc)

theorem erase_nodup {index : Index} (nodup : (index.map Prod.fst).Nodup) (key row : Row) :
    ((index.erase key row).map Prod.fst).Nodup := by
  unfold erase
  exact List.Nodup.sublist (List.filter_sublist.map Prod.fst) (by rwa [map_fst_update])

theorem rows_erase {index : Index} (nodup : (index.map Prod.fst).Nodup) (key row k : Row) :
    (index.erase key row).rows k =
      if k = key then swapErase (· = row) (index.rows k) else index.rows k := by
  have hn := erase_nodup nodup key row
  unfold erase at hn ⊢
  have hu : ((index.map fun g => if g.1 = key then (g.1, swapErase (· = row) g.2) else g).map
      Prod.fst).Nodup := by rwa [map_fst_update]
  by_cases hk : k ∈ index.map Prod.fst
  · rw [← rows_update nodup key _ k hk]
    obtain ⟨g, hg, rfl⟩ := List.mem_map.mp (map_fst_update index key (swapErase (· = row)) ▸ hk)
    rw [rows_of_mem hu hg]
    by_cases he : g.2 = []
    · rw [he]
      apply rows_of_not_mem
      intro hc
      obtain ⟨g', hg', hkey⟩ := List.mem_map.mp hc
      obtain ⟨hg', hne⟩ := List.mem_filter.mp hg'
      have hrows := rows_of_mem hu hg'
      rw [hkey, rows_of_mem hu hg] at hrows
      rw [← hrows, he] at hne
      simp at hne
    · exact rows_of_mem hn (List.mem_filter.mpr ⟨hg, by simpa using he⟩)
  · rw [rows_of_not_mem hk, rows_of_not_mem]
    · by_cases h : k = key <;> simp [h, swapErase]
    · intro hc
      exact hk (map_fst_update index key _ ▸ (List.filter_sublist.map Prod.fst).mem hc)

theorem Sound.insert {mask : Mask} {rows : List Row} {index : Index} (sound : index.Sound mask rows)
    (row : Row) : (index.insert (mask.select row) row).Sound mask (rows ++ [row]) := by
  refine ⟨insert_nodup sound.nodup _ row, ?_⟩
  intro key
  rw [rows_insert sound.nodup, List.filter_append]
  by_cases h : key = mask.select row
  · subst h
    simpa using (sound.finds (mask.select row)).append_right [row]
  · simpa [h, Ne.symm h] using sound.finds key

theorem Sound.erase {mask : Mask} {rows : List Row} {index : Index} (sound : index.Sound mask rows)
    (nodup : rows.Nodup) (row : Row) :
    (index.erase (mask.select row) row).Sound mask (rows.filter (· ≠ row)) := by
  refine ⟨erase_nodup sound.nodup _ row, ?_⟩
  intro key
  rw [rows_erase sound.nodup, List.filter_filter]
  by_cases h : key = mask.select row
  · subst h
    rw [if_pos rfl]
    have hp : (swapErase (· = row) (index.rows (mask.select row))).Perm
        ((rows.filter fun r => decide (mask.select r = mask.select row)).erase row) := by
      refine (swapErase_perm _ _).trans ?_
      have he : ∀ l : List Row, l.eraseP (fun r => decide (r = row)) = l.erase row := by
        intro l
        rw [List.erase_eq_eraseP]
        congr 1
        funext r
        simp [beq_eq_decide, eq_comm]
      rw [he]
      exact (sound.finds _).erase row
    rw [(nodup.filter _).erase_eq_filter, List.filter_filter] at hp
    refine hp.trans (List.Perm.of_eq (List.filter_congr ?_))
    intro x _
    by_cases hx : x = row <;> simp [hx]
  · rw [if_neg h]
    refine (sound.finds key).trans ?_
    rw [List.perm_iff_count]
    intro r
    congr 1
    apply List.filter_congr
    intro x _
    by_cases hx : x = row
    · subst hx
      simp [Ne.symm h]
    · simp [hx]

theorem Sound.perm {mask : Mask} {rows rows' : List Row} {index : Index}
    (sound : index.Sound mask rows) (h : rows'.Perm rows) : index.Sound mask rows' :=
  ⟨sound.nodup, fun key => (sound.finds key).trans (h.filter _).symm⟩

theorem Sound.foldl_insert {mask : Mask} (more : List Row) {rows : List Row} {index : Index}
    (sound : index.Sound mask rows) :
    (more.foldl (fun index row => index.insert (mask.select row) row) index).Sound mask
      (rows ++ more) := by
  induction more generalizing rows index with
  | nil => simpa using sound
  | cons row more ih =>
    have := ih (sound.insert row)
    simpa using this

theorem ofRows_sound (mask : Mask) (rows : List Row) : (ofRows mask rows).Sound mask rows := by
  have hnil : Sound mask [] ([] : Index) := ⟨List.nodup_nil, fun key => by simp [Index.rows]⟩
  simpa [ofRows] using hnil.foldl_insert rows

end Index

namespace Relation

structure Sound (r : Relation) : Prop where
  rows : r.rows.Sound
  indices : ∀ i ∈ r.indices, i.2.Sound i.1 r.toList

theorem Sound.nodup {r : Relation} (sound : r.Sound) : r.toList.Nodup := sound.rows.nodup

@[simp] theorem contains_iff (r : Relation) (row : Row) : r.contains row = true ↔ row ∈ r.toList :=
  Bag.contains_iff r.rows row

theorem Sound.count_pos_iff {r : Relation} (sound : r.Sound) (row : Row) :
    0 < r.count row ↔ r.contains row = true := by
  rw [contains_iff]
  exact Bag.count_pos_iff sound.rows row

theorem Sound.lookup_perm {r : Relation} (sound : r.Sound) (mask : Mask) (key : Row) :
    (r.lookup mask key).Perm (r.toList.filter fun row => mask.select row = key) := by
  unfold lookup
  split
  · rename_i i hi
    have hm : i.1 = mask := by simpa using List.find?_some hi
    exact hm ▸ (sound.indices i (List.mem_of_find?_eq_some hi)).finds key
  · exact .refl _

@[simp] theorem info_addIndex (r : Relation) (mask : Mask) : (r.addIndex mask).info = r.info := by
  unfold addIndex
  split <;> rfl

@[simp] theorem rows_addIndex (r : Relation) (mask : Mask) : (r.addIndex mask).rows = r.rows := by
  unfold addIndex
  split <;> rfl

theorem Sound.addIndex {r : Relation} (sound : r.Sound) (mask : Mask) :
    (r.addIndex mask).Sound := by
  refine ⟨by rw [rows_addIndex]; exact sound.rows, ?_⟩
  unfold Relation.addIndex
  split
  · intro i hi
    rcases List.mem_append.mp hi with hi | hi
    · exact sound.indices i hi
    · rw [List.mem_singleton.mp hi]
      exact Index.ofRows_sound mask r.rows.toList
  · exact sound.indices

@[simp] theorem info_empty (info : RelationInfo) : (empty info).info = info := by
  unfold empty
  dsimp only
  split
  · rw [info_addIndex]
  · rfl

@[simp] theorem rows_empty (info : RelationInfo) : (empty info).rows = .empty := by
  unfold empty
  dsimp only
  split
  · rw [rows_addIndex]
  · rfl

theorem empty_sound (info : RelationInfo) : (empty info).Sound := by
  have hbare : Sound ⟨info, .empty, []⟩ := ⟨Bag.empty_sound, by simp⟩
  unfold empty
  dsimp only
  split
  · exact hbare.addIndex _
  · exact hbare

/-! ### Changes of a row -/

@[simp] theorem info_insert (r : Relation) (row : Row) : (r.insert row).1.info = r.info := by
  unfold insert
  dsimp only
  split <;> rfl

@[simp] theorem rows_insert (r : Relation) (row : Row) :
    (r.insert row).1.rows = (r.rows.insert row).1 := by
  unfold insert
  dsimp only
  split <;> rfl

theorem Sound.insert {r : Relation} (sound : r.Sound) (row : Row) : (r.insert row).1.Sound := by
  refine ⟨by rw [rows_insert]; exact Bag.insert_sound sound.rows row, ?_⟩
  have hl : (r.insert row).1.toList = (r.rows.insert row).1.toList := by
    unfold toList
    rw [rows_insert]
  rw [hl, Bag.toList_insert]
  unfold Relation.insert
  by_cases h : row ∈ r.rows.toList
  · rw [Bag.insert_of_mem h, if_pos h]
    exact sound.indices
  · rw [Bag.insert_of_not_mem h, if_neg h]
    intro i hi
    obtain ⟨j, hj, rfl⟩ := List.mem_map.mp hi
    exact (sound.indices j hj).insert row

theorem Sound.count_insert {r : Relation} (sound : r.Sound) (row x : Row) :
    (r.insert row).1.count x = if x = row then r.count x + 1 else r.count x := by
  unfold count
  rw [rows_insert]
  exact Bag.count_insert sound.rows row x

theorem erase?_eq_none_iff (r : Relation) (row : Row) : r.erase? row = none ↔ r.count row = 0 := by
  unfold erase? count
  rw [← Bag.erase?_eq_none_iff]
  split <;> simp_all

theorem Sound.erase? {r s : Relation} (sound : r.Sound) {row : Row} {gone : Bool}
    (h : r.erase? row = some (s, gone)) :
    s.Sound ∧ s.info = r.info ∧ 0 < r.count row ∧
      ∀ x, s.count x = if x = row then r.count x - 1 else r.count x := by
  unfold Relation.erase? at h
  split at h
  · cases h
  · rename_i rows hr
    cases h
    obtain ⟨he, hg⟩ := Bag.erase?_eq_some sound.rows hr
    have hone : r.rows.count row = 1 := hg.mp rfl
    refine ⟨⟨he.sound, ?_⟩, rfl, he.present, he.count⟩
    intro i hi
    obtain ⟨j, hj, rfl⟩ := List.mem_map.mp hi
    have hl := he.toList
    rw [if_pos hone] at hl
    exact ((sound.indices j hj).erase sound.nodup row).perm hl
  · rename_i rows hr
    cases h
    obtain ⟨he, hg⟩ := Bag.erase?_eq_some sound.rows hr
    have hne : ¬ r.rows.count row = 1 := fun hone => by simpa using hg.mpr hone
    have hl := he.toList
    rw [if_neg hne] at hl
    exact ⟨⟨he.sound, fun i hi => (sound.indices i hi).perm hl⟩, rfl, he.present, he.count⟩

end Relation

end ViewUpkeep
