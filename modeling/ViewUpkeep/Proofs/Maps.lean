import ViewUpkeep.Proofs.Relation

/-!
Maps: relations of rows that are a key and one value. Looking up a key finds the rows that start
with it, so that a key without a value has no row and a value belongs to a row.
-/
namespace ViewUpkeep

theorem Mask.select_range' (start n count : Nat) (row : Row) :
    ((((List.range' start count).map fun i => decide (i < n)).zip row).filterMap
      fun (b, x) => if b then some x else none) = (row.take count).take (n - start) := by
  induction count generalizing start row with
  | zero => simp
  | succ count ih =>
    cases row with
    | nil => simp
    | cons x row =>
      rw [List.range'_succ, List.map_cons, List.zip_cons_cons, List.filterMap_cons, ih]
      by_cases h : start < n
      · obtain ⟨k, hk⟩ : ∃ k, n - start = k + 1 := ⟨n - start - 1, by omega⟩
        have hk' : n - (start + 1) = k := by omega
        simp [h, hk, hk']
      · have h0 : n - start = 0 := by omega
        have h1 : n - (start + 1) = 0 := by omega
        simp [h, h0, h1]

theorem Mask.select_first (n arity : Nat) {row : Row} (h : row.length ≤ arity) :
    (Mask.first n arity).select row = row.take n := by
  unfold Mask.first Mask.select
  rw [List.range_eq_range', Mask.select_range', Nat.sub_zero, List.take_of_length_le h]

namespace Relation

variable {r : Relation} {n : Nat} {key : Row}

theorem mem_lookup_first (sound : r.Sound) {arity : Nat}
    (hlen : ∀ row ∈ r.toList, row.length = arity)
    (n : Nat) (key row : Row) :
    row ∈ r.lookup (.first n arity) key ↔ row ∈ r.toList ∧ row.take n = key := by
  rw [(sound.lookup_perm _ key).mem_iff, List.mem_filter]
  refine and_congr_right fun hrow => ?_
  rw [Mask.select_first n arity (Nat.le_of_eq (hlen row hrow)), decide_eq_true_eq]

theorem mapValue_eq_none (sound : r.Sound) (hkind : r.info.kind = .map n)
    (harity : r.info.arity = n + 1) (hlen : ∀ row ∈ r.toList, row.length = n + 1)
    (h : r.mapValue key = none) : ∀ row ∈ r.toList, row.take n ≠ key := by
  intro row hrow htake
  unfold mapValue at h
  have hmask : r.info.keyMask = some (.first n (n + 1)) := by
    rw [RelationInfo.keyMask, hkind, harity]
  have hmem := (mem_lookup_first sound hlen n key row).mpr ⟨hrow, htake⟩
  cases hl : r.lookup (.first n (n + 1)) key with
  | nil =>
    rw [hl] at hmem
    cases hmem
  | cons first rest =>
    have hfirst : first ∈ r.toList := by
      refine ((mem_lookup_first sound hlen n key first).mp ?_).1
      rw [hl]
      exact List.mem_cons_self
    have hne : first ≠ [] := by
      rintro rfl
      have := hlen _ hfirst
      simp at this
    simp [hmask, hl, List.getLast?_eq_none_iff, hne] at h

theorem mapValue_eq_some (sound : r.Sound) (hkind : r.info.kind = .map n)
    (harity : r.info.arity = n + 1) (hlen : ∀ row ∈ r.toList, row.length = n + 1) {value : Value}
    (h : r.mapValue key = some value) : key ++ [value] ∈ r.toList := by
  unfold mapValue at h
  have hmask : r.info.keyMask = some (.first n (n + 1)) := by
    rw [RelationInfo.keyMask, hkind, harity]
  cases hl : r.lookup (.first n (n + 1)) key with
  | nil => simp [hmask, hl] at h
  | cons first rest =>
    obtain ⟨hfirst, htake⟩ := (mem_lookup_first sound hlen n key first).mp
      (by rw [hl]; exact List.mem_cons_self)
    have hlast : first.getLast? = some value := by simpa [hmask, hl] using h
    obtain ⟨ys, hys⟩ := List.getLast?_eq_some_iff.mp hlast
    have hlength := hlen first hfirst
    rw [hys] at hlength htake
    have hkey : ys = key := by
      rw [← htake, List.take_append_of_le_length (by simp at hlength; omega)]
      exact (List.take_of_length_le (by simp at hlength; omega)).symm
    rw [← hkey, ← hys]
    exact hfirst

end Relation

end ViewUpkeep
