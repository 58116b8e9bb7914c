import ViewUpkeep.Proofs.History

/-!
Base relations as tables. To the user a relation is a set of rows and a map is a function from keys
to values, defined where a key has one. Four operations change tables; all others leave them alone.
A relation of the store that has the rows of a table, once each, goes on to have them when a row is
added or removed on both sides.
-/
namespace ViewUpkeep

inductive Table where
  | set (has : Row → Bool)
  | map (value : Row → Option Value)

namespace Table

def empty : RelationKind → Table
  | .set => .set fun _ => false
  | .map _ => .map fun _ => none

/-- The rows of a table; those of a map are its keys, each with its value at the end. -/
def has : Table → Row → Bool
  | .set has, row => has row
  | .map value, row => row.getLast?.isSome && value row.dropLast = row.getLast?

def value? : Table → Row → Option Value
  | .set _, _ => none
  | .map value, key => value key

def add (row : Row) : Table → Table
  | .set has => .set (Function.update has row true)
  | .map value =>
    if value row.dropLast = none then .map (Function.update value row.dropLast row.getLast?)
    else .map value

def remove (row : Row) : Table → Table
  | .set has => .set (Function.update has row false)
  | .map value =>
    if value row.dropLast = row.getLast? then .map (Function.update value row.dropLast none)
    else .map value

def assign (key : Row) (v : Value) : Table → Table
  | .set has => .set has
  | .map value => .map (Function.update value key (some v))

def unassign (key : Row) : Table → Table
  | .set has => .set has
  | .map value => .map (Function.update value key none)

def Fits (info : RelationInfo) : Table → Prop
  | .set has => info.kind = .set ∧ ∀ row, has row = true → row.length = info.arity
  | .map value => info.kind = .map (info.arity - 1) ∧ 0 < info.arity ∧
      ∀ key, value key ≠ none → key.length + 1 = info.arity

end Table

abbrev Tables := String → Table

namespace Tables

def takesRow (infos : List RelationInfo) (rel : String) (length : Nat) : Bool :=
  infos.any fun info => info.name = rel && info.arity = length

def takesKey (infos : List RelationInfo) (rel : String) (length : Nat) : Bool :=
  infos.any fun info => info.name = rel && info.kind = .map length

def empty (infos : List RelationInfo) : Tables := fun rel =>
  match infos.find? fun info => info.name = rel with
  | some info => .empty info.kind
  | none => .empty .set

/-- What an operation makes of the tables, if it is carried out. What no relation takes changes
nothing, and neither does demand. -/
def step (infos : List RelationInfo) (m : Tables) : Session.Op → Tables
  | .add rel row =>
    if takesRow infos rel row.length then Function.update m rel ((m rel).add row) else m
  | .remove rel row =>
    if takesRow infos rel row.length then Function.update m rel ((m rel).remove row) else m
  | .assign rel key v =>
    if takesKey infos rel key.length then Function.update m rel ((m rel).assign key v) else m
  | .unassign rel key =>
    if takesKey infos rel key.length then Function.update m rel ((m rel).unassign key) else m
  | .demand .. | .undemand .. | .query .. => m

def after (infos : List RelationInfo) (ops : List Session.Op) : Tables :=
  ops.foldl (step infos) (empty infos)

end Tables

namespace Table

variable {info : RelationInfo} {t : Table} {row x key : Row} {v : Value}

theorem empty_has (kind : RelationKind) (row : Row) : (empty kind).has row = false := by
  cases kind with
  | set => rfl
  | map n => cases h : row.getLast? <;> simp [empty, has, h]

theorem empty_fits (declared : info.Declared) : (empty info.kind).Fits info := by
  cases hkind : info.kind with
  | set => exact ⟨hkind, by simp⟩
  | map n =>
    have harity := declared.key n hkind
    exact ⟨by rw [hkind, harity]; rfl, by omega, by simp⟩

theorem map_has_iff {value : Row → Option Value} :
    (map value).has row = true ↔ ∃ key v, value key = some v ∧ row = key ++ [v] := by
  constructor
  · intro h
    obtain ⟨hsome, hvalue⟩ := Bool.and_eq_true_iff.mp h
    obtain ⟨v, hv⟩ := Option.isSome_iff_exists.mp hsome
    have hkey : value row.dropLast = some v := by rw [← hv]; exact of_decide_eq_true hvalue
    exact ⟨row.dropLast, v, hkey, (List.dropLast_append_getLast? v hv).symm⟩
  · rintro ⟨key, v, hvalue, rfl⟩
    simp [has, hvalue]

theorem map_has_append {value : Row → Option Value} :
    (map value).has (key ++ [v]) = true ↔ value key = some v := by
  simp [has]

theorem Fits.length (fits : t.Fits info) (h : t.has row = true) : row.length = info.arity := by
  cases t with
  | set has => exact fits.2 row h
  | map value =>
    obtain ⟨key, v, hvalue, rfl⟩ := map_has_iff.mp h
    simpa using fits.2.2 key (by simp [hvalue])

theorem Fits.keyed (fits : t.Fits info) {n : Nat} (hkind : info.kind = .map n)
    (hrow : t.has row = true) (hx : t.has x = true) (hkey : row.take n = x.take n) : row = x := by
  cases t with
  | set has => cases hkind.symm.trans fits.1
  | map value =>
    obtain ⟨hmap, hpos, hlength⟩ := fits
    obtain ⟨key, v, hv, rfl⟩ := map_has_iff.mp hrow
    obtain ⟨key', v', hv', rfl⟩ := map_has_iff.mp hx
    have hn : n = info.arity - 1 := by
      rw [hkind] at hmap
      exact RelationKind.map.inj hmap
    have hkeyLength := hlength key (by simp [hv])
    have hkeyLength' := hlength key' (by simp [hv'])
    rw [List.take_left' (by omega), List.take_left' (by omega)] at hkey
    subst hkey
    rw [Option.some.inj (hv.symm.trans hv')]

/-! ### Changes of tables -/

/-- A row that a table can take: a map must have nothing for its key. -/
def Free (row : Row) (t : Table) : Prop := t.value? row.dropLast = none

theorem Fits.free {t' : Table} (fits : t.Fits info) (fits' : t'.Fits info)
    (le : ∀ x, t.has x = true → t'.has x = true) (hrow : t'.has row = true)
    (absent : t.has row = false) : t.Free row := by
  cases t with
  | set has => rfl
  | map value =>
    cases hvalue : value row.dropLast with
    | none => exact hvalue
    | some v =>
      have hother : (map value).has (row.dropLast ++ [v]) = true := map_has_append.mpr hvalue
      have hsame : row.dropLast ++ [v] = row := by
        refine fits'.keyed fits.1 (le _ hother) hrow ?_
        have hlength := fits'.length hrow
        rw [List.dropLast_eq_take, List.take_left' (by simp [hlength]), hlength]
      rw [← hsame, hother] at absent
      cases absent

theorem add_map_free {value : Row → Option Value} (free : (map value).Free row) :
    (map value).add row = map (Function.update value row.dropLast row.getLast?) := if_pos free

theorem remove_map_has {value : Row → Option Value} (h : value row.dropLast = row.getLast?) :
    (map value).remove row = map (Function.update value row.dropLast none) := if_pos h

theorem Fits.add (fits : t.Fits info) (free : t.Free row) (hrow : row.length = info.arity) :
    (t.add row).Fits info := by
  cases t with
  | set has =>
    refine ⟨fits.1, fun x hx => ?_⟩
    by_cases h : x = row
    · rw [h, hrow]
    · rw [Function.update_of_ne h] at hx
      exact fits.2 x hx
  | map value =>
    rw [add_map_free free]
    refine ⟨fits.1, fits.2.1, fun key hkey => ?_⟩
    by_cases h : key = row.dropLast
    · have hpos := fits.2.1
      rw [h, List.length_dropLast]
      omega
    · rw [Function.update_of_ne h] at hkey
      exact fits.2.2 key hkey

theorem has_getLast {value : Row → Option Value} (h : (map value).has row = true) :
    value row.dropLast = row.getLast? := of_decide_eq_true (Bool.and_eq_true_iff.mp h).2

theorem Fits.remove (fits : t.Fits info) (h : t.has row = true) : (t.remove row).Fits info := by
  cases t with
  | set has =>
    refine ⟨fits.1, fun x hx => fits.2 x ?_⟩
    by_cases h : x = row
    · simp [h] at hx
    · rwa [Function.update_of_ne h] at hx
  | map value =>
    rw [remove_map_has (has_getLast h)]
    refine ⟨fits.1, fits.2.1, fun key hkey => fits.2.2 key ?_⟩
    by_cases h : key = row.dropLast
    · simp [h] at hkey
    · rwa [Function.update_of_ne h] at hkey

theorem eq_of_dropLast (hrow : row ≠ []) (hkey : x.dropLast = row.dropLast)
    (hvalue : x.getLast? = row.getLast?) : x = row := by
  have hlast := List.getLast?_eq_some_getLast hrow
  calc x = x.dropLast ++ [row.getLast hrow] :=
        (List.dropLast_append_getLast? _ (hvalue.trans hlast)).symm
    _ = row := by rw [hkey, List.dropLast_append_getLast? _ hlast]

theorem Fits.map_ne_nil {value : Row → Option Value} (fits : (map value).Fits info)
    (hrow : row.length = info.arity) : row ≠ [] := by
  rintro rfl
  have hpos := fits.2.1
  rw [← hrow] at hpos
  cases hpos

theorem Fits.has_add (fits : t.Fits info) (free : t.Free row) (hlength : row.length = info.arity) :
    (t.add row).has x = if x = row then true else t.has x := by
  cases t with
  | set has => simp only [Table.add, Table.has, Function.update_apply]
  | map value =>
    have hrow := fits.map_ne_nil hlength
    rw [add_map_free free]
    by_cases hx : x = row
    · subst hx
      simp [Table.has, hrow]
    · rw [if_neg hx]
      by_cases hkey : x.dropLast = row.dropLast
      · have hvalue : row.getLast? ≠ x.getLast? := fun h => hx (eq_of_dropLast hrow hkey h.symm)
        have hnone : value row.dropLast = none := free
        cases hlast : x.getLast? with
        | none => simp [Table.has, hlast]
        | some v =>
          rw [hlast] at hvalue
          simp [Table.has, hlast, hkey, hvalue, hnone]
      · simp [Table.has, Function.update_of_ne hkey]

theorem has_remove (h : t.has row = true) :
    (t.remove row).has x = if x = row then false else t.has x := by
  cases t with
  | set has => simp only [Table.remove, Table.has, Function.update_apply]
  | map value =>
    have hlast := has_getLast h
    obtain ⟨key, v, hv, rfl⟩ := map_has_iff.mp h
    rw [remove_map_has hlast, List.dropLast_concat]
    by_cases hx : x = key ++ [v]
    · subst hx
      simp [Table.has]
    · rw [if_neg hx]
      by_cases hkey : x.dropLast = key
      · cases hxlast : x.getLast? with
        | none => simp [Table.has, hxlast]
        | some w =>
          have hw : v ≠ w := by
            rintro rfl
            exact hx (by rw [← hkey]; exact (List.dropLast_append_getLast? _ hxlast).symm)
          simp [Table.has, hxlast, hkey, hv, hw]
      · simp [Table.has, Function.update_of_ne hkey]

theorem add_eq_self (h : t.has row = true) : t.add row = t := by
  cases t with
  | set has =>
    have hrow : has row = true := h
    rw [Table.add, ← hrow, Function.update_eq_self]
  | map value =>
    obtain ⟨key, v, hv, rfl⟩ := map_has_iff.mp h
    simp [Table.add, hv]

theorem Fits.remove_eq_self (fits : t.Fits info) (h : t.has row = false)
    (hlength : row.length = info.arity) : t.remove row = t := by
  cases t with
  | set has =>
    have hrow : has row = false := h
    rw [Table.remove, ← hrow, Function.update_eq_self]
  | map value =>
    have hrow := fits.map_ne_nil hlength
    have hlast : value row.dropLast ≠ row.getLast? := by simpa [Table.has, hrow] using h
    rw [Table.remove, if_neg hlast]

/-! ### Relations that hold a table -/

structure Held (t : Table) (info : RelationInfo) (r : Relation) : Prop where
  declared : r.info = info
  sound : r.Sound
  fits : t.Fits info
  count : ∀ row, r.count row = (t.has row).toNat

variable {r r' : Relation}

theorem Held.contains (held : t.Held info r) (row : Row) : r.contains row = t.has row := by
  rw [Bool.eq_iff_iff, ← held.sound.count_pos_iff, held.count]
  cases t.has row <;> simp

theorem Held.mem_iff (held : t.Held info r) : row ∈ r.toList ↔ t.has row = true := by
  rw [← Relation.contains_iff, held.contains]

theorem Held.mapValue (held : t.Held info r) {n : Nat} (hkind : info.kind = .map n) (key : Row) :
    r.mapValue key = t.value? key := by
  cases t with
  | set has => cases hkind.symm.trans held.fits.1
  | map value =>
    obtain ⟨hmap, hpos, hlength⟩ := held.fits
    have hn : n = info.arity - 1 := RelationKind.map.inj (hkind.symm.trans hmap)
    have hkind' : r.info.kind = .map n := by rw [held.declared, hkind]
    have harity : r.info.arity = n + 1 := by
      rw [held.declared]
      omega
    have hrows : ∀ row ∈ r.toList, row.length = n + 1 := by
      intro row hrow
      rw [held.fits.length (held.mem_iff.mp hrow)]
      omega
    cases hvalue : r.mapValue key with
    | none =>
      cases hv : value key with
      | none => exact hv.symm
      | some v =>
        have hrow : key ++ [v] ∈ r.toList := held.mem_iff.mpr (map_has_append.mpr hv)
        have hkey : (key ++ [v]).take n = key := by
          have := hrows _ hrow
          rw [List.take_left' (by simpa using this)]
        exact absurd hkey
          (Relation.mapValue_eq_none held.sound hkind' harity hrows hvalue _ hrow)
    | some v =>
      have hrow := Relation.mapValue_eq_some held.sound hkind' harity hrows hvalue
      exact (map_has_append.mp (held.mem_iff.mp hrow)).symm

theorem Held.add (held : t.Held info r) (absent : t.has row = false) (free : t.Free row)
    (hrow : row.length = info.arity) : (t.add row).Held info (r.insert row).1 := by
  refine ⟨by rw [r.info_insert, held.declared], held.sound.insert row, held.fits.add free hrow,
    fun x => ?_⟩
  rw [held.sound.count_insert, held.fits.has_add free hrow, held.count]
  by_cases hx : x = row
  · simp [hx, absent]
  · simp [hx]

theorem Held.remove (held : t.Held info r) (present : t.has row = true) {gone : Bool}
    (herase : r.erase? row = some (r', gone)) : (t.remove row).Held info r' := by
  obtain ⟨hsound, hinfo, _, hcount⟩ := held.sound.erase? herase
  refine ⟨hinfo.trans held.declared, hsound, held.fits.remove present, fun x => ?_⟩
  rw [hcount, has_remove present, held.count]
  by_cases hx : x = row
  · simp [hx, present]
  · simp [hx]

end Table

end ViewUpkeep
