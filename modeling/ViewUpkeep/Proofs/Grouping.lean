import ViewUpkeep.Proofs.Rereading

/-!
Printing keeps the grouping of a term that was read from a text, but for denials: they are printed
without parentheses of their own, so as an operand of a comparison or of an arithmetic operator they
come back in another place, or not at all. The terms that are read back from their printed form are
exactly those without such an operand.
-/
namespace ViewUpkeep

open Lexer

def Token.isLexical : Token → Bool
  | .ident name => isName name
  | .int digits => !digits.toList.isEmpty && digits.toList.all Char.isDigit
  | _ => true

namespace Lexer

theorem isLexical_ofWord {cs : List Char} (h : isWord cs = true) :
    (Token.ofWord (String.ofList cs)).isLexical = true := by
  unfold Token.ofWord
  split
  case isTrue => rfl
  case isFalse hne =>
    split
    case h_1 k hk => rfl
    case h_2 hnone => simp [Token.isLexical, isName, h, Token.ofWord, hne, hnone]

theorem isLexical_orEqual (short long : Sign) (rest : List Char) :
    ∀ t ∈ (orEqual short long rest).token, t.isLexical = true := by
  unfold orEqual
  split <;> rintro t ⟨⟩ <;> rfl

theorem isLexical_lexeme {c : Char} {cs : List Char} {l : Lexeme} (h : lexeme c cs = .ok l) :
    ∀ t ∈ l.token, t.isLexical = true := by
  unfold lexeme at h
  split at h
  case isTrue hc =>
    cases h
    rintro t ⟨⟩
    apply isLexical_ofWord
    simp [isWord, hc, List.all_takeWhile]
  split at h
  case isTrue hc =>
    cases h
    rintro t ⟨⟩
    rfl
  split at h
  case isTrue hc =>
    cases h
    rintro t ⟨⟩
    simp [Token.isLexical, hc, List.all_takeWhile]
  split at h
  case h_1 =>
    split at h <;> cases h
    rintro t ⟨⟩
    rfl
  case h_2 =>
    split at h <;> cases h
    rintro t ⟨⟩
  case h_3 =>
    split at h <;> cases h
    rintro t ⟨⟩
    rfl
  case h_4 | h_5 | h_6 =>
    cases h
    exact isLexical_orEqual _ _ _
  case h_17 => cases h
  all_goals
    cases h
    rintro t ⟨⟩
    rfl

theorem isLexical_tokensFrom (cs : List Char) (offset skip : Nat) (ts : List Token)
    (h : (tokensFrom offset skip cs).toOption.map nodes = some ts) :
    ∀ t ∈ ts, t.isLexical = true := by
  induction cs generalizing offset skip ts with
  | nil =>
    cases h
    simp
  | cons c cs ih =>
    cases skip with
    | succ skip => exact ih _ _ _ h
    | zero =>
      cases hc : Text.isBlank c with
      | true =>
        simp only [tokensFrom, hc, if_true] at h
        exact ih _ _ _ h
      | false =>
        cases hl : lexeme c cs with
        | error o =>
          simp only [tokensFrom, hc, hl] at h
          cases h
        | ok l =>
          rw [nodes_tokensFrom_cons hc hl, Option.map_eq_some_iff] at h
          obtain ⟨us, hus, rfl⟩ := h
          intro t ht
          obtain ht | ht := List.mem_append.mp ht
          · exact isLexical_lexeme hl t (Option.mem_toList.mp ht)
          · exact ih _ _ _ hus t ht

theorem isLexical_scan {cs : List Char} {ts : List Token} (h : scan cs = some ts) :
    ∀ t ∈ ts, t.isLexical = true :=
  isLexical_tokensFrom cs 0 0 ts h

end Lexer

namespace Term

mutual

theorem everywhere_and (p q : Term → Bool) (t : Term) :
    t.everywhere (fun u => p u && q u) = (t.everywhere p && t.everywhere q) := by
  match t with
  | .var _ | .wildcard | .int _ | .str _ | .bool _ => rfl
  | .tuple items =>
    simp only [everywhere, allEverywhere_and p q items]
    ac_rfl
  | .not t =>
    simp only [everywhere, everywhere_and p q t]
    ac_rfl
  | .neg t =>
    simp only [everywhere, everywhere_and p q t]
    ac_rfl
  | .binary op l r =>
    simp only [everywhere, everywhere_and p q l, everywhere_and p q r]
    ac_rfl

theorem allEverywhere_and (p q : Term → Bool) (ts : List Term) :
    allEverywhere (fun u => p u && q u) ts = (allEverywhere p ts && allEverywhere q ts) := by
  match ts with
  | [] => rfl
  | t :: ts =>
    simp only [allEverywhere, everywhere_and p q t, allEverywhere_and p q ts]
    ac_rfl

end

theorem everywhere_mono {p q : Term → Bool} (h : ∀ t, p t = true → q t = true) {t : Term}
    (ht : t.everywhere p = true) : t.everywhere q = true := by
  have hpq : (fun u => p u && q u) = p := by
    funext u
    cases hp : p u with
    | false => rfl
    | true => rw [h u hp]; rfl
  rw [← hpq, everywhere_and, Bool.and_eq_true] at ht
  exact ht.2

theorem allEverywhere_iff {p : Term → Bool} {ts : List Term} :
    allEverywhere p ts = true ↔ ∀ t ∈ ts, t.everywhere p = true := by
  induction ts with
  | nil => simp [allEverywhere]
  | cons t ts ih => simp [allEverywhere, ih]

def isWritten : Term → Bool
  | .var name => isName name
  | .int n => 0 ≤ n.toInt
  | _ => true

theorem isWritten_int {digits : String} {n : Int64}
    (h : (Token.int digits).isLexical = true) (hn : Text.integer? digits.toList = some n.toInt) :
    isWritten (.int n) = true := by
  cases hd : digits.toList with
  | nil => simp [Token.isLexical, hd] at h
  | cons c cs =>
    simp only [Token.isLexical, hd, List.isEmpty_cons, Bool.not_false, Bool.true_and, List.all_cons,
      Bool.and_eq_true] at h
    rw [hd, integer?_of_digits h.1 h.2, Option.some.injEq] at hn
    simp [isWritten, ← hn]

theorem Derives.written {l : Level} {ts : List Token} {t : Term} (h : Derives l ts t)
    (hts : ∀ tok ∈ ts, tok.isLexical = Bool.true) : t.everywhere isWritten = Bool.true := by
  induction h with
  | inner _ _ ih => exact ih hts
  | chain _ _ _ _ _ _ iha ihb | compare _ _ _ _ iha ihb =>
    rw [List.forall_mem_append, List.forall_mem_cons] at hts
    simp [everywhere, Term.isWritten, iha hts.1, ihb hts.2.2]
  | not _ ih | neg _ ih =>
    rw [List.forall_mem_cons] at hts
    simp [everywhere, Term.isWritten, ih hts.2]
  | int hn => exact isWritten_int (hts _ List.mem_cons_self) hn
  | var => exact hts _ List.mem_cons_self
  | true | false | str | wildcard | unit => rfl
  | group _ ih =>
    rw [List.forall_mem_cons, List.forall_mem_append] at hts
    exact ih hts.2.1
  | @tuple p ps _ _ ih | @trailing p ps _ ih =>
    have hitems : ∀ q ∈ p :: ps, q.2.everywhere isWritten = Bool.true := by
      intro q hq
      apply ih q hq
      intro tok htok
      apply hts
      simp only [List.mem_cons, List.mem_append, List.mem_flatMap]
      obtain rfl | hq := List.mem_cons.mp hq
      · exact .inr (.inl (.inl htok))
      · exact .inr (.inl (.inr ⟨q, hq, .inr htok⟩))
    have hall : ∀ t ∈ (p :: ps).map Prod.snd, t.everywhere isWritten = Bool.true :=
      List.forall_mem_map.mpr hitems
    exact allEverywhere_iff.mpr hall

def isPlain : Term → Bool
  | .str s => s.toList.all fun c => 0x20 ≤ c.toNat && c.toNat ≤ 0x7e
  | _ => true

/-- No denial stands to the left of an operator that binds tighter. -/
def isOpenToLeft : Term → Bool
  | .binary op l _ => !(op.isTight && l.isDenial)
  | _ => true

/-- No denial is an operand of an operator that binds tighter. -/
def isGuarded (t : Term) : Bool := t.isOpenToLeft && t.isOpenToRight

mutual

theorem reread_eq_self_iff (t : Term) (h : t.everywhere isWritten = true) :
    t.reread = t ↔ t.everywhere isOpenToLeft = true := by
  match t with
  | .var _ | .wildcard | .str _ | .bool _ => simp [reread, everywhere, isOpenToLeft]
  | .int n =>
    have hn : ¬ n.toInt < 0 := by simpa [everywhere, isWritten] using h
    simp [reread, everywhere, isOpenToLeft, hn]
  | .tuple items =>
    simp only [everywhere, isWritten, Bool.true_and] at h
    simp [reread, everywhere, isOpenToLeft, rereadAll_eq_self_iff items h]
  | .not t =>
    simp only [everywhere, isWritten, Bool.true_and] at h
    simp [reread, everywhere, isOpenToLeft, reread_eq_self_iff t h]
  | .neg t =>
    simp only [everywhere, isWritten, Bool.true_and] at h
    simp [reread, everywhere, isOpenToLeft, reread_eq_self_iff t h]
  | .binary op l r =>
    simp only [everywhere, isWritten, Bool.true_and, Bool.and_eq_true] at h
    have hl := reread_eq_self_iff l h.1
    have hr := reread_eq_self_iff r h.2
    cases hleft : op.isTight && l.isDenial with
    | false => simp [reread_binary hleft, everywhere, isOpenToLeft, hleft, hl, hr]
    | true =>
      rw [Bool.and_eq_true] at hleft
      obtain ⟨u, rfl⟩ := eq_not_of_isDenial hleft.2
      simp [reread, everywhere, isOpenToLeft, hleft.1, isDenial]

theorem rereadAll_eq_self_iff (ts : List Term) (h : allEverywhere isWritten ts = true) :
    rereadAll ts = ts ↔ allEverywhere isOpenToLeft ts = true := by
  match ts with
  | [] => simp [rereadAll, allEverywhere]
  | t :: ts =>
    rw [allEverywhere, Bool.and_eq_true] at h
    simp [rereadAll, allEverywhere, reread_eq_self_iff t h.1, rereadAll_eq_self_iff ts h.2]

end

theorem isHidden_of_ascii {c : Char} (hlo : 0x20 ≤ c.toNat) (hhi : c.toNat ≤ 0x7e) :
    Text.isHidden c = false := by
  have hranges : ∀ stretch ∈ Text.Hidden.ranges, ∀ r ∈ stretch, r.2 < 0x20 ∨ 0x7e < r.1 := by
    decide +kernel
  rw [← Bool.not_eq_true]
  unfold Text.isHidden
  intro h
  obtain ⟨stretch, hstretch, h⟩ := List.any_eq_true.mp h
  obtain ⟨r, hr, h⟩ := List.any_eq_true.mp h
  rw [Bool.and_eq_true, decide_eq_true_eq, decide_eq_true_eq] at h
  have hr := hranges stretch hstretch r hr
  omega

theorem isReadable_of_isPlain (t : Term) (h : t.isPlain = true) : t.isReadable = true := by
  cases t with
  | str s =>
    apply List.all_eq_true.mpr
    intro c hc
    have hascii := List.all_eq_true.mp h c hc
    rw [Bool.and_eq_true, decide_eq_true_eq, decide_eq_true_eq] at hascii
    simp [Lexer.isReadable, isHidden_of_ascii hascii.1 hascii.2]
  | _ => rfl

theorem isNamed_of_isWritten (t : Term) (h : t.isWritten = true) : t.isNamed = true := by
  cases t with
  | var name => exact h
  | _ => rfl

theorem isInRange_of_isWritten (t : Term) (h : t.isWritten = true) : t.isInRange = true := by
  cases t with
  | int n =>
    simp only [isWritten, decide_eq_true_eq] at h
    simp only [isInRange, decide_eq_true_eq]
    rintro rfl
    exact absurd h (by decide)
  | _ => rfl

/-- A term that was read from a text, with texts of printable ASCII characters only, is read back
from its printed form if and only if no denial in it is an operand of a comparison or of an
arithmetic operator. -/
theorem ofText_print_self_iff {text : String} {t : Term} (h : ofText text = .ok t)
    (hplain : t.everywhere isPlain = true) :
    ofText t.print = .ok t ↔ t.everywhere isGuarded = true := by
  obtain ⟨ts, hts, hd⟩ := ofText_eq_ok.mp h
  have hwritten := hd.written (isLexical_scan hts)
  have hnamed := everywhere_mono isNamed_of_isWritten hwritten
  have hrange := everywhere_mono isInRange_of_isWritten hwritten
  have hreadable := everywhere_mono isReadable_of_isPlain hplain
  have hself := reread_eq_self_iff t hwritten
  have hguarded : t.everywhere isGuarded = true ↔
      t.everywhere isOpenToLeft = true ∧ t.everywhere isOpenToRight = true := by
    rw [← Bool.and_eq_true, ← everywhere_and]
    rfl
  rw [ofText_print hnamed, hguarded, ← hself]
  constructor
  · exact fun ⟨hlegible, he⟩ => ⟨he.symm, hlegible.openToRight⟩
  · exact fun ⟨he, hopen⟩ => ⟨⟨hreadable, hrange, hopen⟩, he.symm⟩

theorem ofText_print_self_denial :
    ofText "not x < y" = .ok (.not (.binary .lt (.var "x") (.var "y"))) ∧
    ofText (Term.not (.binary .lt (.var "x") (.var "y"))).print =
      .ok (.not (.binary .lt (.var "x") (.var "y"))) := by
  have hx : Derives .sum [.ident "x"] (.var "x") := Derives.var.outward (by decide)
  have hy : Derives .sum [.ident "y"] (.var "y") := Derives.var.outward (by decide)
  have hlt := hx.binary .lt hy (by decide) (by decide)
  have hnot := Derives.not (hlt.outward (by decide))
  have hread : ofText "not x < y" = .ok (.not (.binary .lt (.var "x") (.var "y"))) :=
    ofText_eq_ok.mpr ⟨_, by rfl, hnot.outward (by decide)⟩
  exact ⟨hread, (ofText_print_self_iff hread (by rfl)).mpr (by rfl)⟩

/-- A comparison with a denial comes back as the denial of a comparison. -/
theorem ofText_print_regroups :
    ofText "(not x) == y" = .ok (.binary .eq (.not (.var "x")) (.var "y")) ∧
    (Term.binary .eq (.not (.var "x")) (.var "y")).print = "(not (x) == y)" ∧
    ofText "(not (x) == y)" = .ok (.not (.binary .eq (.var "x") (.var "y"))) := by
  have hx : Derives .denial [.ident "x"] (.var "x") := Derives.var.outward (by decide)
  have hnot : Derives .disjunction [.keyword .not, .ident "x"] (.not (.var "x")) :=
    (Derives.not hx).outward (by decide)
  have hy : Derives .atom [.ident "y"] (.var "y") := .var
  have heq := (Derives.group hnot).binary .eq hy (by decide) (by decide)
  refine ⟨ofText_eq_ok.mpr ⟨_, by rfl, heq.outward (by decide)⟩, by rfl, ?_⟩
  have hnamed : (Term.binary .eq (.not (.var "x")) (.var "y")).everywhere isNamed = true := by rfl
  exact (ofText_print hnamed).mpr ⟨⟨by rfl, by rfl, by rfl⟩, by rfl⟩

end Term

end ViewUpkeep
