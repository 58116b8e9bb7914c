import Mathlib.Data.List.Nodup
import ViewUpkeep.Value

/-!
The order of values and rows is a total order, in which only equal values compare as equal. A list
of rows in ascending order, each once, is therefore determined by its members.
-/
namespace ViewUpkeep

namespace Value

mutual

theorem cmp_swap (a b : Value) : (cmp a b).swap = cmp b a := by
  match a, b with
  | .bool a, .bool b | .int a, .int b | .str a, .str b =>
    rw [cmp, cmp]
    exact Std.OrientedOrd.eq_swap.symm
  | .tuple a, .tuple b =>
    rw [cmp, cmp]
    exact cmpRow_swap a b
  | .bool _, .int _ | .bool _, .str _ | .bool _, .tuple _
  | .int _, .bool _ | .int _, .str _ | .int _, .tuple _
  | .str _, .bool _ | .str _, .int _ | .str _, .tuple _
  | .tuple _, .bool _ | .tuple _, .int _ | .tuple _, .str _ => rfl

theorem cmpRow_swap (a b : List Value) : (cmpRow a b).swap = cmpRow b a := by
  match a, b with
  | [], [] | [], _ :: _ | _ :: _, [] => rfl
  | x :: xs, y :: ys =>
    rw [cmpRow, cmpRow, Ordering.swap_then, cmp_swap x y, cmpRow_swap xs ys]

end

mutual

theorem eq_of_cmp (a b : Value) (h : cmp a b = .eq) : a = b := by
  match a, b with
  | .bool a, .bool b =>
    rw [cmp] at h
    have hn := Std.LawfulEqOrd.eq_of_compare h
    cases a <;> cases b <;> simp at hn ⊢
  | .int a, .int b =>
    rw [cmp] at h
    rw [Int64.toInt_inj.mp (Std.LawfulEqOrd.eq_of_compare h)]
  | .str a, .str b =>
    rw [cmp] at h
    rw [Std.LawfulEqOrd.eq_of_compare h]
  | .tuple a, .tuple b =>
    rw [cmp] at h
    rw [eq_of_cmpRow a b h]
  | .bool _, .int _ | .bool _, .str _ | .bool _, .tuple _
  | .int _, .bool _ | .int _, .str _ | .int _, .tuple _
  | .str _, .bool _ | .str _, .int _ | .str _, .tuple _
  | .tuple _, .bool _ | .tuple _, .int _ | .tuple _, .str _ => cases h

theorem eq_of_cmpRow (a b : List Value) (h : cmpRow a b = .eq) : a = b := by
  match a, b with
  | [], [] => rfl
  | [], _ :: _ | _ :: _, [] => cases h
  | x :: xs, y :: ys =>
    rw [cmpRow, Ordering.then_eq_eq] at h
    rw [eq_of_cmp x y h.1, eq_of_cmpRow xs ys h.2]

end

theorem cmp_self (a : Value) : cmp a a = .eq := by
  have h := cmp_swap a a
  cases hc : cmp a a with
  | eq => rfl
  | lt | gt =>
    rw [hc] at h
    cases h

theorem cmp_of_kind_ne {a b : Value} (h : a.kind ≠ b.kind) : cmp a b = compare a.kind b.kind := by
  cases a <;> cases b <;> simp [kind] at h <;> rfl

theorem kind_le_of_cmp {a b : Value} (h : (cmp a b).isLE = true) : a.kind ≤ b.kind := by
  by_cases hk : a.kind = b.kind
  · exact Nat.le_of_eq hk
  · rwa [cmp_of_kind_ne hk, Nat.isLE_compare] at h

theorem then_isLE_trans {x y z : Value} {p q r : Ordering}
    (hx : (cmp x y).isLE = true → (cmp y z).isLE = true → (cmp x z).isLE = true)
    (hp : p.isLE = true → q.isLE = true → r.isLE = true)
    (h : ((cmp x y).then p).isLE = true) (k : ((cmp y z).then q).isLE = true) :
    ((cmp x z).then r).isLE = true := by
  have hxy : (cmp x y).isLE = true := by cases hc : cmp x y <;> simp [hc] at h ⊢
  have hyz : (cmp y z).isLE = true := by cases hc : cmp y z <;> simp [hc] at k ⊢
  cases hxz : cmp x z with
  | lt => rfl
  | gt =>
    have hle := hx hxy hyz
    rw [hxz] at hle
    cases hle
  | eq =>
    have heq := eq_of_cmp x z hxz
    subst heq
    have hswap := cmp_swap x y
    cases hc : cmp x y with
    | lt =>
      rw [hc] at hswap
      rw [← hswap] at hyz
      cases hyz
    | gt =>
      rw [hc] at hxy
      cases hxy
    | eq =>
      rw [hc] at hswap h
      rw [← hswap] at k
      exact hp h k

mutual

theorem cmp_trans (a b c : Value) (h : (cmp a b).isLE = true) (k : (cmp b c).isLE = true) :
    (cmp a c).isLE = true := by
  have hab := kind_le_of_cmp h
  have hbc := kind_le_of_cmp k
  by_cases hac : a.kind = c.kind
  · have hb : a.kind = b.kind := by omega
    cases a <;> cases b <;> simp [kind] at hb <;> cases c <;> simp [kind] at hac
    case tuple.tuple.tuple a b c =>
      rw [cmp] at h k ⊢
      exact cmpRow_trans a b c h k
    all_goals
      rw [cmp] at h k ⊢
      exact Std.TransOrd.isLE_trans h k
  · rw [cmp_of_kind_ne hac, Nat.isLE_compare]
    omega

theorem cmpRow_trans (a b c : List Value) (h : (cmpRow a b).isLE = true)
    (k : (cmpRow b c).isLE = true) : (cmpRow a c).isLE = true := by
  match a, b, c with
  | [], _, [] | [], _, _ :: _ => rfl
  | _ :: _, [], _ => cases h
  | _ :: _, _ :: _, [] => cases k
  | x :: xs, y :: ys, z :: zs =>
    rw [cmpRow] at h k ⊢
    exact then_isLE_trans (cmp_trans x y z) (cmpRow_trans xs ys zs) h k

end

end Value

namespace Row

theorem le_trans (a b c : Row) (h : a.le b = true) (k : b.le c = true) : a.le c = true :=
  Value.cmpRow_trans a b c h k

theorem le_total (a b : Row) : (a.le b || b.le a) = true := by
  unfold le
  rw [← Value.cmpRow_swap a b]
  cases Value.cmpRow a b <;> rfl

theorem le_antisymm {a b : Row} (h : a.le b = true) (k : b.le a = true) : a = b := by
  unfold le at h k
  rw [← Value.cmpRow_swap a b] at k
  cases hc : Value.cmpRow a b with
  | eq => exact Value.eq_of_cmpRow a b hc
  | lt =>
    rw [hc] at k
    cases k
  | gt =>
    rw [hc] at h
    cases h

def Ascending (rows : List Row) : Prop := rows.Nodup ∧ rows.Pairwise fun a b => a.le b = true

theorem Ascending.ext {rows other : List Row} (h : Ascending rows) (k : Ascending other)
    (same : ∀ row, row ∈ rows ↔ row ∈ other) : rows = other :=
  List.Perm.eq_of_pairwise (fun _ _ _ _ => le_antisymm) h.2 k.2
    ((List.perm_ext_iff_of_nodup h.1 k.1).mpr same)

theorem mem_sort {rows : List Row} {row : Row} : row ∈ sort rows ↔ row ∈ rows :=
  (List.mergeSort_perm rows le).mem_iff

theorem pairwise_sort (rows : List Row) : (sort rows).Pairwise fun a b => a.le b = true :=
  List.pairwise_mergeSort le_trans le_total rows

theorem sort_ascending {rows : List Row} (nodup : rows.Nodup) : Ascending (sort rows) :=
  ⟨(List.mergeSort_perm rows le).nodup_iff.mpr nodup, pairwise_sort rows⟩

theorem mem_dropRepeats {rows : List Row} {row : Row} : row ∈ dropRepeats rows ↔ row ∈ rows := by
  fun_induction dropRepeats rows with
  | case1 | case2 => rfl
  | case3 s rest ih =>
    rw [ih]
    simp
  | case4 r s rest hne ih => rw [List.mem_cons, ih, List.mem_cons (b := r)]

theorem dropRepeats_ascending {rows : List Row} (h : rows.Pairwise fun a b => a.le b = true) :
    Ascending (dropRepeats rows) := by
  fun_induction dropRepeats rows with
  | case1 => exact ⟨.nil, .nil⟩
  | case2 r => exact ⟨List.nodup_singleton r, List.pairwise_singleton _ r⟩
  | case3 s rest ih => exact ih h.of_cons
  | case4 r s rest hne ih =>
    obtain ⟨hnodup, hsorted⟩ := ih h.of_cons
    rw [List.pairwise_cons] at h
    refine ⟨List.nodup_cons.mpr ⟨?_, hnodup⟩, List.pairwise_cons.mpr ⟨?_, hsorted⟩⟩
    · intro hm
      rcases List.mem_cons.mp (mem_dropRepeats.mp hm) with rfl | hm
      · exact hne rfl
      · have hrs := h.1 s List.mem_cons_self
        have hsr := (List.pairwise_cons.mp h.2).1 r hm
        exact hne (le_antisymm hrs hsr)
    · intro x hx
      exact h.1 x (mem_dropRepeats.mp hx)

theorem sortUnique_ascending (rows : List Row) : Ascending (sortUnique rows) :=
  dropRepeats_ascending (pairwise_sort rows)

theorem mem_sortUnique {rows : List Row} {row : Row} : row ∈ sortUnique rows ↔ row ∈ rows :=
  mem_dropRepeats.trans mem_sort

/-! ### Rows that start alike -/

def suffixes (rows : List Row) (start : Row) : List Row :=
  (rows.filter fun row => row.take start.length = start).map (·.drop start.length)

theorem append_drop_of_take {row start : Row} (h : row.take start.length = start) :
    start ++ row.drop start.length = row := by
  calc start ++ row.drop start.length
      = row.take start.length ++ row.drop start.length := by rw [h]
    _ = row := List.take_append_drop _ _

theorem mem_suffixes {rows : List Row} {start row : Row} :
    row ∈ suffixes rows start ↔ start ++ row ∈ rows := by
  unfold suffixes
  simp only [List.mem_map, List.mem_filter, decide_eq_true_eq]
  constructor
  · rintro ⟨x, ⟨hx, htake⟩, rfl⟩
    rwa [append_drop_of_take htake]
  · intro h
    exact ⟨start ++ row, ⟨h, by simp⟩, by simp⟩

theorem cmpRow_append (start a b : Row) :
    Value.cmpRow (start ++ a) (start ++ b) = Value.cmpRow a b := by
  induction start with
  | nil => rfl
  | cons x start ih =>
    rw [List.cons_append, List.cons_append, Value.cmpRow, Value.cmp_self, ih]
    rfl

theorem Ascending.suffixes {rows : List Row} (h : Ascending rows) (start : Row) :
    Ascending (suffixes rows start) := by
  have hsplit : ∀ row ∈ rows.filter fun row => row.take start.length = start,
      start ++ row.drop start.length = row :=
    fun row hrow => append_drop_of_take (of_decide_eq_true (List.mem_filter.mp hrow).2)
  refine ⟨?_, ?_⟩
  · refine List.Nodup.map_on ?_ (h.1.filter _)
    intro a ha b hb hab
    rw [← hsplit a ha, ← hsplit b hb, hab]
  · refine List.pairwise_map.mpr ((h.2.filter _).imp_of_mem ?_)
    intro a b ha hb hab
    rw [← hsplit a ha, ← hsplit b hb] at hab
    unfold le at hab ⊢
    rwa [cmpRow_append] at hab

end Row

end ViewUpkeep
