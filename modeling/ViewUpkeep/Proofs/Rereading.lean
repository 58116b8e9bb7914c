import Mathlib.Data.List.Chain
import ViewUpkeep.Proofs.Printing

/-!
What printed terms are read as. The tokens of a printed term derive a term again unless a number is
the least one, whose magnitude does not fit, or a denial is the right operand of a comparison or of
an arithmetic operator. The term they derive is the printed one up to two things: a negative number
is a minus sign before a number, and a denial to the left of such an operator takes all of it.
-/
namespace ViewUpkeep

open Lexer

namespace Operator

def isTight (op : Operator) : Bool := Term.Level.denial.rank < op.level.rank

theorem isTight_eq_true {op : Operator} : op.isTight = true ↔ 2 < op.level.rank :=
  decide_eq_true_iff

theorem rank_level (op : Operator) : op.level.rank < 6 ∧ op.level.rank ≠ 2 := by
  cases op <;> decide

end Operator

namespace Term

/-! ### What the tokens derive -/

theorem Level.rank_injective {l m : Level} (h : l.rank = m.rank) : l = m := by
  cases l <;> cases m <;> first | rfl | cases h

theorem Derives.outward {l m : Level} {ts : List Token} {t : Term} (h : Derives m ts t)
    (hle : l.rank ≤ m.rank) : Derives l ts t := by
  obtain ⟨n, hn⟩ := Nat.exists_eq_add_of_le hle
  induction n generalizing l with
  | zero => exact Level.rank_injective hn ▸ h
  | succ n ih =>
    cases hl : l.inner with
    | none =>
      have hatom : l = .atom := by cases l <;> first | rfl | cases hl
      have hm : m.rank ≤ Level.atom.rank := by cases m <;> decide
      rw [hatom] at hn
      omega
    | some k =>
      have hk := Level.rank_inner hl
      exact .inner hl (ih (by omega) (by omega))

theorem Derives.binary {l m : Level} {ts us : List Token} {a b : Term} (op : Operator)
    (ha : Derives l ts a) (hb : Derives m us b) (hl : op.level.rank < l.rank)
    (hm : op.level.rank < m.rank) : Derives op.level (ts ++ op.token :: us) (.binary op a b) := by
  by_cases hop : op.level = .comparison
  · rw [hop] at hl hm ⊢
    exact .compare op.operator?_token hop (ha.outward hl) (hb.outward hm)
  · cases hin : op.level.inner with
    | none => cases op <;> cases hin
    | some k =>
      have hk := Level.rank_inner hin
      exact .chain op.operator?_token rfl hop hin (ha.outward (by omega)) (hb.outward (by omega))

def isDenial : Term → Bool
  | .not _ => true
  | _ => false

def isInRange : Term → Bool
  | .int n => n ≠ Int64.minValue
  | _ => true

def isOpenToRight : Term → Bool
  | .binary op _ r => !(op.isTight && r.isDenial)
  | _ => true

mutual

def reread : Term → Term
  | .int n => if n.toInt < 0 then .neg (.int (-n)) else .int n
  | .tuple items => .tuple (rereadAll items)
  | .not t => .not t.reread
  | .neg t => .neg t.reread
  | .binary op (.not l) r =>
    if op.isTight then .not (.binary op l.reread r.reread)
    else .binary op (.not l.reread) r.reread
  | .binary op l r => .binary op l.reread r.reread
  | t => t

def rereadAll : List Term → List Term
  | [] => []
  | t :: ts => t.reread :: rereadAll ts

end

/-- The level of a printed term: denials are the only ones that bind loosely. -/
def printedLevel : Term → Level
  | .not _ => .denial
  | _ => .negation

theorem toInt_neg {n : Int64} (h : n ≠ Int64.minValue) : (-n).toInt = -n.toInt := by
  have hne : n.toInt ≠ -9223372036854775808 := by
    exact fun he => h (Int64.toInt_inj.mp (he.trans Int64.toInt_minValue.symm))
  have hge := n.le_toInt
  have hlt := n.toInt_lt
  rw [Int64.toInt_neg, Int.bmod_def]
  split <;> omega

theorem derives_integer {n : Int64} (h : n ≠ Int64.minValue) :
    Derives .negation (integerTokens n.toInt) (reread (.int n)) := by
  have hneg := toInt_neg h
  cases hn : n.toInt with
  | ofNat m =>
    have hread : reread (.int n) = .int n := by simp [reread, hn]
    rw [hread]
    exact (Derives.int (by rw [hn]; exact integer?_toString m)).outward (by decide)
  | negSucc m =>
    have hread : reread (.int n) = .neg (.int (-n)) := by simp [reread, hn, Int.negSucc_lt_zero]
    rw [hread]
    have hint : Derives .atom [.int (toString (m + 1))] (.int (-n)) :=
      .int (by rw [hneg, hn]; exact integer?_toString (m + 1))
    exact .neg (hint.outward (by decide))

theorem tailTokens_eq (ts : List Term) : tailTokens ts =
    (ts.map fun t => (t.tokens, t.reread)).flatMap fun q => .sign .comma :: q.1 := by
  induction ts with
  | nil => rfl
  | cons t ts ih => simp [tailTokens, ih]

theorem rereadAll_eq (ts : List Term) :
    rereadAll ts = (ts.map fun t => (t.tokens, t.reread)).map Prod.snd := by
  induction ts with
  | nil => rfl
  | cons t ts ih => simp [rereadAll, ih]

theorem derives_tuple (ts : List Term)
    (h : ∀ q ∈ ts.map fun t => (t.tokens, t.reread), Derives .disjunction q.1 q.2) :
    Derives .atom (itemTokens ts) (.tuple (rereadAll ts)) := by
  match ts with
  | [] => exact .unit
  | [t] => simpa [itemTokens, rereadAll] using @Derives.trailing (t.tokens, t.reread) [] h
  | t :: u :: us =>
    have htuple := Derives.tuple (by simp) h
    rw [← tailTokens_eq, ← rereadAll_eq] at htuple
    exact htuple

theorem derives_parentheses {t : Term} (h : Derives t.printedLevel t.tokens t.reread) :
    Derives .atom (.sign .lparen :: (t.tokens ++ [.sign .rparen])) t.reread := by
  apply Derives.group
  apply h.outward
  exact Nat.zero_le _

theorem eq_not_of_isDenial {t : Term} (h : t.isDenial = true) : ∃ u, t = .not u := by
  cases t with
  | not u => exact ⟨u, rfl⟩
  | _ => cases h

theorem printedLevel_of_not_isDenial {t : Term} (h : t.isDenial = false) :
    t.printedLevel = .negation := by
  cases t with
  | not u => cases h
  | _ => rfl

theorem rank_lt_printedLevel {op : Operator} {t : Term} (h : (op.isTight && t.isDenial) = false) :
    op.level.rank < t.printedLevel.rank := by
  obtain ⟨hlt, hne⟩ := op.rank_level
  cases ht : t.isDenial with
  | false =>
    rw [printedLevel_of_not_isDenial ht]
    exact hlt
  | true =>
    obtain ⟨u, rfl⟩ := eq_not_of_isDenial ht
    rw [ht, Bool.and_true, ← Bool.not_eq_true, Operator.isTight_eq_true] at h
    change op.level.rank < 2
    omega

theorem reread_binary {op : Operator} {l r : Term} (h : (op.isTight && l.isDenial) = false) :
    reread (.binary op l r) = .binary op l.reread r.reread := by
  cases l with
  | not l =>
    have hop : op.isTight = false := by simpa [isDenial] using h
    simp [reread, hop]
  | _ => rfl

theorem derives_binary {op : Operator} {l r : Term}
    (hl : Derives l.printedLevel l.tokens l.reread) (hr : Derives r.printedLevel r.tokens r.reread)
    (hleft : (op.isTight && l.isDenial) = false) (hright : (op.isTight && r.isDenial) = false) :
    Derives .atom (tokens (.binary op l r)) (reread (.binary op l r)) := by
  have hboth := hl.binary op hr (rank_lt_printedLevel hleft) (rank_lt_printedLevel hright)
  have hgroup := Derives.group (hboth.outward (Nat.zero_le _))
  rw [List.append_assoc] at hgroup
  rw [reread_binary hleft]
  exact hgroup

/-- A denial takes the operator after it and what follows. -/
theorem derives_denied {op : Operator} {l r : Term} (hop : op.isTight = true)
    (hl : Derives l.printedLevel l.tokens l.reread) (hr : Derives r.printedLevel r.tokens r.reread)
    (hright : (op.isTight && r.isDenial) = false) :
    Derives .atom (tokens (.binary op (.not l) r)) (reread (.binary op (.not l) r)) := by
  have hatom : op.level.rank < Level.atom.rank := Nat.lt_succ_of_lt op.rank_level.1
  have hdenial : Level.denial.rank ≤ op.level.rank :=
    Nat.le_of_lt (Operator.isTight_eq_true.mp hop)
  have hboth := (derives_parentheses hl).binary op hr hatom (rank_lt_printedLevel hright)
  have hgroup := Derives.group ((Derives.not (hboth.outward hdenial)).outward (Nat.zero_le _))
  simpa [tokens, reread, hop] using hgroup

mutual

/-- The tokens of a printed term derive the term that it is read as. -/
theorem derives_tokens (t : Term) (hr : t.everywhere isInRange = true)
    (ho : t.everywhere isOpenToRight = true) : Derives t.printedLevel t.tokens t.reread := by
  match t with
  | .var name => exact Derives.var.outward (Nat.le_succ 6)
  | .wildcard => exact Derives.wildcard.outward (by decide)
  | .int n => exact derives_integer (by simpa [everywhere, isInRange] using hr)
  | .str s => exact Derives.str.outward (Nat.le_succ 6)
  | .bool true => exact Derives.true.outward (by decide)
  | .bool false => exact Derives.false.outward (by decide)
  | .tuple items =>
    simp only [everywhere, isInRange, isOpenToRight, Bool.true_and] at hr ho
    exact (derives_tuple items (derives_items items hr ho)).outward (Nat.le_succ 6)
  | .not t =>
    simp only [everywhere, isInRange, isOpenToRight, Bool.true_and] at hr ho
    exact .not ((derives_parentheses (derives_tokens t hr ho)).outward (by decide))
  | .neg t =>
    simp only [everywhere, isInRange, isOpenToRight, Bool.true_and] at hr ho
    exact .neg ((derives_parentheses (derives_tokens t hr ho)).outward (by decide))
  | .binary op l r =>
    simp only [everywhere, isInRange, Bool.true_and, Bool.and_eq_true] at hr ho
    have hright : (op.isTight && r.isDenial) = false := by
      simpa only [isOpenToRight, Bool.not_eq_true'] using ho.1.1
    -- A denial on the left of an operator that binds tighter takes the operator and its right side.
    have hderives : Derives .atom (tokens (.binary op l r)) (reread (.binary op l r)) := by
      cases hleft : op.isTight && l.isDenial with
      | false =>
        exact derives_binary (derives_tokens l hr.1 ho.1.2) (derives_tokens r hr.2 ho.2) hleft
          hright
      | true =>
        rw [Bool.and_eq_true] at hleft
        obtain ⟨u, rfl⟩ := eq_not_of_isDenial hleft.2
        simp only [everywhere, isInRange, isOpenToRight, Bool.true_and] at hr ho
        exact derives_denied hleft.1 (derives_tokens u hr.1 ho.1.2) (derives_tokens r hr.2 ho.2)
          hright
    exact hderives.outward (Nat.le_succ 6)

theorem derives_items (ts : List Term) (hr : allEverywhere isInRange ts = true)
    (ho : allEverywhere isOpenToRight ts = true) :
    ∀ q ∈ ts.map fun t => (t.tokens, t.reread), Derives .disjunction q.1 q.2 := by
  match ts with
  | [] => simp
  | t :: ts =>
    simp only [allEverywhere, Bool.and_eq_true] at hr ho
    rw [List.map_cons, List.forall_mem_cons]
    exact ⟨(derives_tokens t hr.1 ho.1).outward (Nat.zero_le _), derives_items ts hr.2 ho.2⟩

end

/-! ### Tokens that derive nothing -/

def Fits (ts : List Token) : Prop :=
  ∀ digits, .int digits ∈ ts → ∃ n : Int64, Text.integer? digits.toList = some n.toInt

theorem Derives.fits {l : Level} {ts : List Token} {t : Term} (h : Derives l ts t) : Fits ts := by
  induction h with
  | inner _ _ ih => exact ih
  | chain htok _ _ _ _ _ iha ihb | compare htok _ _ _ iha ihb =>
    intro digits hmem
    rw [List.mem_append, List.mem_cons] at hmem
    obtain hmem | rfl | hmem := hmem
    · exact iha digits hmem
    · cases htok
    · exact ihb digits hmem
  | not _ ih | neg _ ih | group _ ih => simpa [Fits] using ih
  | int hn =>
    intro digits hmem
    cases List.mem_singleton.mp hmem
    exact ⟨_, hn⟩
  | true | false | str | var | wildcard | unit => simp [Fits]
  | tuple _ _ ih | trailing _ ih =>
    rw [List.forall_mem_cons] at ih
    intro digits hmem
    simp only [List.mem_cons, List.mem_append, List.mem_flatMap, reduceCtorEq, false_or, or_false,
      List.not_mem_nil] at hmem
    obtain hmem | ⟨q, hq, hmem⟩ := hmem
    · exact ih.1 digits hmem
    · exact ih.2 q hq digits hmem

def Admits (a b : Token) : Prop :=
  ∀ op, a.operator? = some op → op.isTight = true → b ≠ .keyword .not

theorem admits_of_none {a : Token} (h : a.operator? = none) (b : Token) : Admits a b := by
  intro op hop
  rw [h] at hop
  cases hop

theorem isChain_cons_admits {a : Token} {ts : List Token} (ha : ∀ b ∈ ts.head?, Admits a b)
    (h : ts.IsChain Admits) : (a :: ts).IsChain Admits :=
  List.isChain_cons.mpr ⟨ha, h⟩

theorem isChain_append_admits {ts us : List Token} (hts : ts.IsChain Admits)
    (hus : us.IsChain Admits) (hhead : ∀ b ∈ us.head?, b ≠ .keyword .not) :
    (ts ++ us).IsChain Admits :=
  List.isChain_append.mpr ⟨hts, hus, fun _ _ b hb _ _ _ => hhead b hb⟩

theorem isChain_items {ps : List (List Token × Term)} (h : ∀ q ∈ ps, q.1.IsChain Admits) :
    (ps.flatMap fun q => .sign .comma :: q.1).IsChain Admits := by
  induction ps with
  | nil => exact .nil
  | cons q ps ih =>
    rw [List.forall_mem_cons] at h
    rw [List.flatMap_cons]
    apply isChain_append_admits (isChain_cons_admits (fun b _ => admits_of_none rfl b) h.1) (ih h.2)
    cases ps <;> simp

theorem isChain_parentheses {p : List Token × Term} {ps : List (List Token × Term)}
    (h : ∀ q ∈ p :: ps, q.1.IsChain Admits) {closing : List Token}
    (hclosing : closing.IsChain Admits) (hhead : ∀ b ∈ closing.head?, b ≠ .keyword .not) :
    (Token.sign .lparen :: (p.1 ++ ps.flatMap (fun q => .sign .comma :: q.1) ++ closing)).IsChain
      Admits := by
  rw [List.forall_mem_cons] at h
  apply isChain_cons_admits (fun b _ => admits_of_none rfl b)
  apply isChain_append_admits _ hclosing hhead
  apply isChain_append_admits h.1 (isChain_items h.2)
  cases ps <;> simp

theorem Derives.head_ne_not {m : Level} {ts : List Token} {t : Term} (h : Derives m ts t)
    (hm : 2 < m.rank) : ∀ b ∈ ts.head?, b ≠ .keyword .not := by
  rintro b hb rfl
  obtain ⟨u, us, rfl, k, hk, hle⟩ := h.opens
  cases hb
  cases hk
  exact absurd hle (Nat.not_le.mpr hm)

theorem isChain_binary {m : Level} {ts us : List Token} {tok : Token} {op : Operator} {b : Term}
    (htok : tok.operator? = some op) (hts : ts.IsChain Admits) (hus : us.IsChain Admits)
    (hb : Derives m us b) (hm : op.level.rank < m.rank) : (ts ++ tok :: us).IsChain Admits := by
  apply isChain_append_admits hts
  · apply isChain_cons_admits _ hus
    intro u hu op' hop' htight
    rw [htok] at hop'
    cases hop'
    rw [Operator.isTight_eq_true] at htight
    exact hb.head_ne_not (by omega) u hu
  · rintro u hu rfl
    cases hu
    cases htok

theorem Derives.isChain {l : Level} {ts : List Token} {t : Term} (h : Derives l ts t) :
    ts.IsChain Admits := by
  induction h with
  | inner _ _ ih => exact ih
  | chain htok hlevel _ hin _ hb iha ihb =>
    have hrank := Level.rank_inner hin
    exact isChain_binary htok iha ihb hb (by rw [hlevel]; omega)
  | compare htok hlevel _ hb iha ihb =>
    exact isChain_binary htok iha ihb hb (by rw [hlevel]; decide)
  | not _ ih => exact isChain_cons_admits (fun b _ => admits_of_none rfl b) ih
  | neg hd ih => exact isChain_cons_admits (fun b hb _ _ _ => hd.head_ne_not (by decide) b hb) ih
  | int | true | false | str | var | wildcard => exact .singleton _
  | unit => exact isChain_cons_admits (fun b _ => admits_of_none rfl b) (.singleton _)
  | group _ ih =>
    apply isChain_cons_admits (fun b _ => admits_of_none rfl b)
    exact isChain_append_admits ih (.singleton _) (by simp)
  | tuple _ _ ih => exact isChain_parentheses ih (.singleton _) (by simp)
  | trailing _ ih =>
    apply isChain_parentheses ih _ (by simp)
    exact isChain_cons_admits (fun b _ => admits_of_none rfl b) (.singleton _)

/-! ### Reading back -/

theorem tokens_infix_tailTokens {t : Term} {ts : List Term} (h : t ∈ ts) :
    t.tokens <:+: tailTokens ts := by
  induction ts with
  | nil => cases h
  | cons u us ih =>
    obtain rfl | h := List.mem_cons.mp h
    · exact ⟨[.sign .comma], tailTokens us, rfl⟩
    · exact (ih h).trans ⟨.sign .comma :: u.tokens, [], by simp [tailTokens]⟩

theorem tokens_infix_itemTokens {t : Term} {ts : List Term} (h : t ∈ ts) :
    t.tokens <:+: itemTokens ts := by
  match ts with
  | [] => cases h
  | [u] =>
    cases List.mem_singleton.mp h
    exact ⟨[.sign .lparen], [.sign .comma, .sign .rparen], rfl⟩
  | u :: v :: us =>
    obtain rfl | h := List.mem_cons.mp h
    · exact ⟨[.sign .lparen], tailTokens (v :: us) ++ [.sign .rparen], by simp [itemTokens]⟩
    · exact (tokens_infix_tailTokens h).trans
        ⟨.sign .lparen :: u.tokens, [.sign .rparen], by simp [itemTokens]⟩

mutual

theorem everywhere_of_tokens {p : Term → Bool} {Q : List Token → Prop}
    (hpart : ∀ ts us, ts <:+: us → Q us → Q ts) (hp : ∀ t : Term, Q t.tokens → p t = true)
    (t : Term) (h : Q t.tokens) : t.everywhere p = true := by
  match t with
  | .var _ | .wildcard | .int _ | .str _ | .bool _ => exact hp _ h
  | .tuple items =>
    rw [everywhere, Bool.and_eq_true]
    exact ⟨hp _ h, allEverywhere_of_tokens hpart hp items fun t ht =>
      hpart _ _ (tokens_infix_itemTokens ht) h⟩
  | .not t =>
    rw [everywhere, Bool.and_eq_true]
    have ht : t.tokens <:+: tokens (.not t) :=
      ⟨[.keyword .not, .sign .lparen], [.sign .rparen], rfl⟩
    exact ⟨hp _ h, everywhere_of_tokens hpart hp t (hpart _ _ ht h)⟩
  | .neg t =>
    rw [everywhere, Bool.and_eq_true]
    have ht : t.tokens <:+: tokens (.neg t) := ⟨[.sign .minus, .sign .lparen], [.sign .rparen], rfl⟩
    exact ⟨hp _ h, everywhere_of_tokens hpart hp t (hpart _ _ ht h)⟩
  | .binary op l r =>
    rw [everywhere, Bool.and_eq_true, Bool.and_eq_true]
    have hl : l.tokens <:+: tokens (.binary op l r) :=
      ⟨[.sign .lparen], op.token :: (r.tokens ++ [.sign .rparen]), by simp [tokens]⟩
    have hr : r.tokens <:+: tokens (.binary op l r) :=
      ⟨.sign .lparen :: (l.tokens ++ [op.token]), [.sign .rparen], by simp [tokens]⟩
    exact ⟨⟨hp _ h, everywhere_of_tokens hpart hp l (hpart _ _ hl h)⟩,
      everywhere_of_tokens hpart hp r (hpart _ _ hr h)⟩

theorem allEverywhere_of_tokens {p : Term → Bool} {Q : List Token → Prop}
    (hpart : ∀ ts us, ts <:+: us → Q us → Q ts) (hp : ∀ t : Term, Q t.tokens → p t = true)
    (ts : List Term) (h : ∀ t ∈ ts, Q t.tokens) : allEverywhere p ts = true := by
  match ts with
  | [] => rfl
  | t :: ts =>
    rw [List.forall_mem_cons] at h
    rw [allEverywhere, Bool.and_eq_true]
    exact ⟨everywhere_of_tokens hpart hp t h.1, allEverywhere_of_tokens hpart hp ts h.2⟩

end

theorem isInRange_of_fits (t : Term) (h : Fits t.tokens) : t.isInRange = true := by
  cases t with
  | int n =>
    simp only [isInRange, decide_eq_true_eq]
    rintro rfl
    have htokens : tokens (.int Int64.minValue) =
        integerTokens (Int.negSucc 9223372036854775807) := rfl
    obtain ⟨k, hk⟩ := h (toString 9223372036854775808) (by simp [htokens, integerTokens])
    rw [integer?_toString, Option.some.injEq] at hk
    have hlt := k.toInt_lt
    omega
  | _ => rfl

theorem isOpenToRight_of_isChain (t : Term) (h : t.tokens.IsChain Admits) :
    t.isOpenToRight = true := by
  cases t with
  | binary op l r =>
    rw [isOpenToRight, Bool.not_eq_true', ← Bool.not_eq_true, Bool.and_eq_true]
    rintro ⟨hop, hr⟩
    obtain ⟨u, rfl⟩ := eq_not_of_isDenial hr
    have hpart : [op.token, .keyword .not] <:+: tokens (.binary op l (.not u)) :=
      ⟨.sign .lparen :: l.tokens, .sign .lparen :: (u.tokens ++ [.sign .rparen, .sign .rparen]),
        by simp [tokens]⟩
    have hadmits : Admits op.token (.keyword .not) := by simpa using h.infix hpart
    exact hadmits op op.operator?_token hop rfl
  | _ => rfl

theorem derives_tokens_iff {t u : Term} : Derives .disjunction t.tokens u ↔
    (t.everywhere isInRange = true ∧ t.everywhere isOpenToRight = true) ∧ u = t.reread := by
  constructor
  · intro h
    -- Both conditions are about parts of the list of tokens, so they reach every term inside.
    have hr : t.everywhere isInRange = true :=
      everywhere_of_tokens (fun ts us hi hus digits hmem => hus digits (hi.subset hmem))
        isInRange_of_fits t h.fits
    have ho : t.everywhere isOpenToRight = true :=
      everywhere_of_tokens (fun ts us hi hus => hus.infix hi) isOpenToRight_of_isChain t h.isChain
    exact ⟨⟨hr, ho⟩, h.unique ((derives_tokens t hr ho).outward (Nat.zero_le _))⟩
  · rintro ⟨⟨hr, ho⟩, rfl⟩
    exact (derives_tokens t hr ho).outward (Nat.zero_le _)

structure Legible (t : Term) : Prop where
  readable : t.everywhere isReadable = true
  inRange : t.everywhere isInRange = true
  openToRight : t.everywhere isOpenToRight = true

theorem Legible.derives {t : Term} (h : t.Legible) : Derives .disjunction t.tokens t.reread :=
  derives_tokens_iff.mpr ⟨⟨h.inRange, h.openToRight⟩, rfl⟩

theorem Legible.scan {t : Term} (h : t.Legible) (hn : t.everywhere isNamed = true)
    {rest : List Char} (hrest : Delimited rest) :
    scan (t.print.toList ++ rest) = (scan rest).map (t.tokens ++ ·) := by
  rw [scan_print t hn rest hrest, h.readable]
  rfl

theorem ofText_print {t u : Term} (hn : t.everywhere isNamed = true) :
    ofText t.print = .ok u ↔ t.Legible ∧ u = t.reread := by
  have hscan := scan_print t hn [] delimited_nil
  rw [List.append_nil] at hscan
  rw [ofText_eq_ok, hscan]
  constructor
  · rintro ⟨ts, hts, hd⟩
    cases hr : t.everywhere isReadable with
    | false => simp [written, hr] at hts
    | true =>
      obtain rfl : t.tokens = ts := by simpa [written, hr] using hts
      obtain ⟨⟨hrange, hopen⟩, hu⟩ := derives_tokens_iff.mp hd
      exact ⟨⟨hr, hrange, hopen⟩, hu⟩
  · rintro ⟨h, rfl⟩
    exact ⟨t.tokens, by simp [written, h.readable], h.derives⟩

end Term

end ViewUpkeep
