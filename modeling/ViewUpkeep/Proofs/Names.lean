import ViewUpkeep.Demand
import ViewUpkeep.Proofs.Reading

/-!
Names of derived relations. They start with the name of their query and a dot, which no identifier
has, so that the query can be told from the name; what follows the dot tells the demand set, the tag
of a variable and the filter of a clause apart.
-/
namespace ViewUpkeep

theorem IsIdentifier.dot_notMem {s : String} (h : IsIdentifier s) : '.' ∉ s.toList :=
  fun hm => absurd (h '.' hm) (by decide)

theorem Var.ne_delta_of_identifier {name : String} (h : IsIdentifier name) :
    (⟨name⟩ : Var) ≠ .delta := by
  intro he
  have hname : name = "#e" := congrArg Var.name he
  exact absurd (h '#' (by simp [hname])) (by decide)

theorem Var.anonymous_ne_delta (n : Nat) : Var.anonymous n ≠ .delta := by
  intro he
  have hname := congrArg (fun v : Var => v.name.toList.head?) he
  simp [anonymous, delta, anonymousMark] at hname

/-- The name of a query, perhaps with a dot and more. -/
def Owned (query name : String) : Prop :=
  name = query ∨ ∃ rest, name.toList = query.toList ++ '.' :: rest

theorem takeWhile_owned {query name : String} (hq : '.' ∉ query.toList) (h : Owned query name) :
    name.toList.takeWhile (· ≠ '.') = query.toList := by
  have hall : ∀ c ∈ query.toList, decide (c ≠ '.') = true := by
    intro c hc
    simpa using fun he : c = '.' => hq (he ▸ hc)
  rcases h with rfl | ⟨rest, hrest⟩
  · exact List.takeWhile_eq_self_iff.mpr hall
  · rw [hrest, List.takeWhile_append_of_pos hall, List.takeWhile_cons_of_neg (by simp),
      List.append_nil]

theorem Owned.unique {a b name : String} (ha : IsIdentifier a) (hb : IsIdentifier b)
    (h : Owned a name) (k : Owned b name) : a = b :=
  String.toList_inj.mp
    ((takeWhile_owned ha.dot_notMem h).symm.trans (takeWhile_owned hb.dot_notMem k))

namespace Demand

variable (query : String)

theorem toList_setName : (setName query).toList = query.toList ++ ".U".toList := by
  rw [setName, String.toList_append]

theorem toList_tagName (v : Var) :
    (tagName query v).toList = query.toList ++ (".T_".toList ++ v.name.toList) := by
  rw [tagName, String.toList_append, String.toList_append, List.append_assoc]

theorem toList_filterName (i : Nat) (rel : String) : (filterName query i rel).toList =
    query.toList ++ (".F".toList ++ ((toString i).toList ++ ('_' :: rel.toList))) := by
  simp only [filterName, String.toList_append, List.append_assoc]
  rfl

theorem owned_setName : Owned query (setName query) := .inr ⟨['U'], toList_setName query⟩

theorem owned_tagName (v : Var) : Owned query (tagName query v) :=
  .inr ⟨_, toList_tagName query v⟩

theorem owned_filterName (i : Nat) (rel : String) : Owned query (filterName query i rel) :=
  .inr ⟨_, toList_filterName query i rel⟩

theorem setName_injective {a b : String} (h : setName a = setName b) : a = b := by
  have hl := congrArg String.toList h
  rw [toList_setName, toList_setName] at hl
  exact String.toList_inj.mp (List.append_cancel_right hl)

variable {query}

theorem tagName_inj {v w : Var} (h : tagName query v = tagName query w) : v = w := by
  have hl := congrArg String.toList h
  rw [toList_tagName, toList_tagName] at hl
  have hname := List.append_cancel_left (List.append_cancel_left hl)
  exact congrArg Var.mk (String.toList_inj.mp hname)

theorem setName_ne_tagName (v : Var) : setName query ≠ tagName query v := by
  intro h
  have hl := congrArg String.toList h
  rw [toList_setName, toList_tagName] at hl
  have := List.append_cancel_left hl
  simp at this

theorem setName_ne_filterName (i : Nat) (rel : String) :
    setName query ≠ filterName query i rel := by
  intro h
  have hl := congrArg String.toList h
  rw [toList_setName, toList_filterName] at hl
  have := List.append_cancel_left hl
  simp at this

theorem tagName_ne_filterName (v : Var) (i : Nat) (rel : String) :
    tagName query v ≠ filterName query i rel := by
  intro h
  have hl := congrArg String.toList h
  rw [toList_tagName, toList_filterName] at hl
  have := List.append_cancel_left hl
  simp at this

theorem toString_digits (n : Nat) : (toString n).toList = Nat.toDigits 10 n := by
  rw [Nat.toString_eq_ofList_toDigits, String.toList_ofList]

theorem filterName_clause {i k : Nat} {rel other : String}
    (h : filterName query i rel = filterName query k other) : i = k := by
  have hl := congrArg String.toList h
  rw [toList_filterName, toList_filterName] at hl
  have hrest := List.append_cancel_left (List.append_cancel_left hl)
  have hdigits : ∀ n : Nat, ∀ r : List Char,
      ((toString n).toList ++ '_' :: r).takeWhile Char.isDigit = Nat.toDigits 10 n := by
    intro n r
    have hall : ∀ c ∈ (toString n).toList, c.isDigit = true := by
      intro c hc
      rw [toString_digits] at hc
      exact Nat.isDigit_of_mem_toDigits (by decide) (by decide) hc
    rw [List.takeWhile_append_of_pos hall, List.takeWhile_cons_of_neg (by decide), List.append_nil,
      toString_digits]
  have heq := congrArg (List.takeWhile Char.isDigit) hrest
  rw [hdigits, hdigits] at heq
  have := congrArg (fun ds => Nat.ofDigitChars 10 ds 0) heq
  simpa [Nat.ofDigitChars_toDigits] using this

theorem ne_of_owned_dot {name : String} (h : IsIdentifier name) {rest : List Char} {other : String}
    (ho : other.toList = query.toList ++ '.' :: rest) : name ≠ other := by
  rintro rfl
  exact h.dot_notMem (by simp [ho])

end Demand

end ViewUpkeep
