import Mathlib.Data.List.Nodup
import ViewUpkeep.Bag

/-!
Counts of bags. A sound bag lists each value once and with a positive count; then the count of a
value says all about it, whatever the order in which the values stand.
-/
namespace ViewUpkeep

theorem swapErase_perm {α : Type} (p : α → Bool) (l : List α) :
    (swapErase p l).Perm (l.eraseP p) := by
  induction l with
  | nil => exact .refl _
  | cons x xs ih =>
    unfold swapErase
    by_cases hx : p x
    · rw [if_pos hx, List.eraseP_cons_of_pos hx]
      cases hl : xs.getLast? with
      | none =>
        rw [List.getLast?_eq_none_iff.mp hl]
      | some last =>
        have hs : xs.dropLast ++ [last] = xs := by
          obtain ⟨ys, rfl⟩ := List.getLast?_eq_some_iff.mp hl
          simp
        have hp : (last :: xs.dropLast).Perm (xs.dropLast ++ [last]) :=
          (List.perm_append_singleton last xs.dropLast).symm
        rwa [hs] at hp
    · rw [if_neg hx, List.eraseP_cons_of_neg hx]
      exact ih.cons x

namespace Bag

variable {α : Type} [DecidableEq α]

structure Sound (b : Bag α) : Prop where
  nodup : b.toList.Nodup
  pos : ∀ e ∈ b.entries, 0 < e.2

omit [DecidableEq α] in
theorem empty_sound : (empty : Bag α).Sound := ⟨List.nodup_nil, by simp [empty]⟩

@[simp] theorem contains_iff (b : Bag α) (a : α) : b.contains a = true ↔ a ∈ b.toList := by
  simp [contains, toList]

theorem count_eq_of_mem {b : Bag α} (nodup : b.toList.Nodup) {a : α} {n : Nat}
    (h : (a, n) ∈ b.entries) : b.count a = n := by
  obtain ⟨entries⟩ := b
  simp only [toList] at nodup
  induction entries with
  | nil => cases h
  | cons e es ih =>
    simp only [count, List.find?_cons]
    rw [List.map_cons, List.nodup_cons] at nodup
    rcases List.mem_cons.mp h with rfl | hmem
    · simp
    · have hne : e.1 ≠ a := by
        intro he
        exact nodup.1 (he ▸ List.mem_map_of_mem (f := Prod.fst) hmem)
      simpa [hne, count] using ih nodup.2 hmem

theorem count_eq_zero_of_not_mem {b : Bag α} {a : α} (h : a ∉ b.toList) : b.count a = 0 := by
  have hnone : b.entries.find? (fun e => e.1 = a) = none := by
    rw [List.find?_eq_none]
    intro e he hea
    exact h (List.mem_map.mpr ⟨e, he, by simpa using hea⟩)
  simp [count, hnone]

theorem mem_entries_count {b : Bag α} (sound : b.Sound) {a : α} (h : a ∈ b.toList) :
    (a, b.count a) ∈ b.entries := by
  obtain ⟨e, he, rfl⟩ := List.mem_map.mp h
  rwa [count_eq_of_mem sound.nodup (a := e.1) (n := e.2) he]

theorem count_pos_iff {b : Bag α} (sound : b.Sound) (a : α) : 0 < b.count a ↔ a ∈ b.toList := by
  constructor
  · intro h
    by_contra hn
    rw [count_eq_zero_of_not_mem hn] at h
    exact Nat.lt_irrefl 0 h
  · intro h
    exact sound.pos _ (mem_entries_count sound h)

theorem count_eq_of_perm {b c : Bag α} (sound : b.Sound) (h : b.entries.Perm c.entries) (a : α) :
    c.count a = b.count a := by
  have hl : b.toList.Perm c.toList := h.map _
  by_cases ha : a ∈ b.toList
  · exact count_eq_of_mem (hl.nodup_iff.mp sound.nodup) (h.mem_iff.mp (mem_entries_count sound ha))
  · rw [count_eq_zero_of_not_mem ha, count_eq_zero_of_not_mem (fun hc => ha (hl.mem_iff.mpr hc))]

@[simp] theorem toList_setCount (b : Bag α) (a : α) (n : Nat) :
    (b.setCount a n).toList = b.toList := by
  simp only [setCount, toList, List.map_map]
  apply List.map_congr_left
  intro e _
  by_cases h : e.1 = a <;> simp [h]

theorem setCount_sound {b : Bag α} (sound : b.Sound) (a : α) {n : Nat} (pos : 0 < n) :
    (b.setCount a n).Sound := by
  refine ⟨by rw [toList_setCount]; exact sound.nodup, ?_⟩
  intro e he
  obtain ⟨d, hd, rfl⟩ := List.mem_map.mp he
  split
  · exact pos
  · exact sound.pos d hd

theorem count_setCount {b : Bag α} (sound : b.Sound) {a : α} (h : a ∈ b.toList) {n : Nat}
    (pos : 0 < n) (c : α) : (b.setCount a n).count c = if c = a then n else b.count c := by
  have hs := setCount_sound sound a pos
  by_cases hc : c ∈ b.toList
  · apply count_eq_of_mem hs.nodup
    refine List.mem_map.mpr ⟨(c, b.count c), mem_entries_count sound hc, ?_⟩
    by_cases hca : c = a <;> simp [hca]
  · have hca : c ≠ a := fun he => hc (he ▸ h)
    rw [if_neg hca, count_eq_zero_of_not_mem hc]
    exact count_eq_zero_of_not_mem (by rwa [toList_setCount])

/-! ### Adding a value -/

theorem insert_of_mem {b : Bag α} {a : α} (h : a ∈ b.toList) :
    b.insert a = (b.setCount a (b.count a + 1), false) := by
  unfold insert
  rw [if_pos ((contains_iff b a).mpr h)]

theorem insert_of_not_mem {b : Bag α} {a : α} (h : a ∉ b.toList) :
    b.insert a = (⟨b.entries ++ [(a, 1)]⟩, true) := by
  unfold insert
  rw [if_neg (fun hc => h ((contains_iff b a).mp hc))]

theorem toList_insert (b : Bag α) (a : α) :
    (b.insert a).1.toList = if a ∈ b.toList then b.toList else b.toList ++ [a] := by
  by_cases h : a ∈ b.toList
  · rw [insert_of_mem h, if_pos h, toList_setCount]
  · rw [insert_of_not_mem h, if_neg h]
    simp [toList]

theorem insert_sound {b : Bag α} (sound : b.Sound) (a : α) : (b.insert a).1.Sound := by
  by_cases h : a ∈ b.toList
  · rw [insert_of_mem h]
    exact setCount_sound sound a (Nat.succ_pos _)
  · refine ⟨?_, ?_⟩
    · rw [toList_insert, if_neg h]
      exact List.nodup_append.mpr ⟨sound.nodup, List.nodup_singleton a, by
        intro x hx y hy
        rw [List.mem_singleton.mp hy]
        exact fun he => h (he ▸ hx)⟩
    · rw [insert_of_not_mem h]
      intro e he
      rcases List.mem_append.mp he with he | he
      · exact sound.pos e he
      · rw [List.mem_singleton.mp he]
        exact Nat.one_pos

theorem count_insert {b : Bag α} (sound : b.Sound) (a c : α) :
    (b.insert a).1.count c = if c = a then b.count c + 1 else b.count c := by
  by_cases h : a ∈ b.toList
  · rw [insert_of_mem h, count_setCount sound h (Nat.succ_pos _)]
    by_cases hc : c = a <;> simp [hc]
  · have hs := insert_sound sound a
    rw [insert_of_not_mem h] at hs ⊢
    by_cases hc : c = a
    · subst hc
      rw [if_pos rfl, count_eq_zero_of_not_mem h]
      exact count_eq_of_mem hs.nodup (by simp)
    · rw [if_neg hc]
      by_cases hm : c ∈ b.toList
      · exact count_eq_of_mem hs.nodup (List.mem_append_left _ (mem_entries_count sound hm))
      · rw [count_eq_zero_of_not_mem hm]
        apply count_eq_zero_of_not_mem
        simp only [toList, List.map_append, List.map_cons, List.map_nil, List.mem_append,
          List.mem_singleton]
        exact fun hor => hor.elim hm hc

/-! ### Taking a value away -/

theorem erase?_eq_none_iff (b : Bag α) (a : α) : b.erase? a = none ↔ b.count a = 0 := by
  unfold erase?
  split <;> simp_all

structure Erased (b : Bag α) (a : α) (c : Bag α) : Prop where
  sound : c.Sound
  present : 0 < b.count a
  toList : c.toList.Perm (if b.count a = 1 then b.toList.filter (· ≠ a) else b.toList)
  count : ∀ x, c.count x = if x = a then b.count x - 1 else b.count x

theorem erased_last {b : Bag α} (sound : b.Sound) {a : α} (one : b.count a = 1) :
    b.Erased a ⟨swapErase (fun e => e.1 = a) b.entries⟩ := by
  have hp := swapErase_perm (fun e : α × Nat => decide (e.1 = a)) b.entries
  have hk : (b.entries.eraseP fun e => decide (e.1 = a)).map Prod.fst = b.toList.erase a := by
    unfold toList
    rw [List.erase_eq_eraseP, List.eraseP_map]
    congr 2
    funext e
    simp [Function.comp, beq_eq_decide, eq_comm]
  have hf : b.toList.erase a = b.toList.filter (· ≠ a) := by
    rw [sound.nodup.erase_eq_filter]
    apply List.filter_congr
    intro x _
    by_cases hx : x = a <;> simp [hx]
  have hsub : (b.entries.eraseP fun e => decide (e.1 = a)).Sublist b.entries := List.eraseP_sublist
  have hes : (⟨b.entries.eraseP fun e => decide (e.1 = a)⟩ : Bag α).Sound :=
    ⟨sound.nodup.sublist (hsub.map Prod.fst), fun e he => sound.pos e (hsub.mem he)⟩
  have hl : (⟨swapErase (fun e => e.1 = a) b.entries⟩ : Bag α).toList.Perm (b.toList.erase a) :=
    hk ▸ hp.map Prod.fst
  refine ⟨⟨hl.nodup_iff.mpr (sound.nodup.sublist List.erase_sublist), fun e he =>
    sound.pos e (hsub.mem (hp.mem_iff.mp he))⟩,
    by omega, by rwa [if_pos one, ← hf], ?_⟩
  intro x
  rw [count_eq_of_perm hes hp.symm]
  by_cases hx : x = a
  · subst hx
    rw [if_pos rfl, one]
    apply count_eq_zero_of_not_mem
    change x ∉ (b.entries.eraseP fun e => decide (e.1 = x)).map Prod.fst
    rw [hk]
    exact fun h => sound.nodup.not_mem_erase h
  · rw [if_neg hx]
    by_cases hm : x ∈ b.toList
    · apply count_eq_of_mem hes.nodup
      exact (List.mem_eraseP_of_neg (by simpa using hx)).mpr (mem_entries_count sound hm)
    · rw [count_eq_zero_of_not_mem hm]
      apply count_eq_zero_of_not_mem
      change x ∉ (b.entries.eraseP fun e => decide (e.1 = a)).map Prod.fst
      rw [hk]
      exact fun h => hm (List.mem_of_mem_erase h)

theorem erase?_eq_some {b c : Bag α} {a : α} {gone : Bool} (sound : b.Sound)
    (h : b.erase? a = some (c, gone)) : b.Erased a c ∧ (gone = true ↔ b.count a = 1) := by
  unfold erase? at h
  split at h
  · cases h
  · rename_i hone
    cases h
    exact ⟨erased_last sound hone, by simp [hone]⟩
  · rename_i n hn
    cases h
    have hm : a ∈ b.toList := (count_pos_iff sound a).mp (by omega)
    have hne : ¬ b.count a = 1 := by omega
    refine ⟨⟨setCount_sound sound a (Nat.succ_pos n), by omega, ?_, ?_⟩, by simp [hne]⟩
    · rw [if_neg hne, toList_setCount]
    · intro x
      rw [count_setCount sound hm (Nat.succ_pos n)]
      by_cases hx : x = a
      · subst hx
        rw [if_pos rfl, if_pos rfl]
        omega
      · rw [if_neg hx, if_neg hx]

end Bag

end ViewUpkeep
