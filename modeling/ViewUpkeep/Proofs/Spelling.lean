import ViewUpkeep.Proofs.Recognition
import ViewUpkeep.Statement.Grammar

/-!
The tokens that a text spells. Where a token stands matters for reports only; here the lexer is a
function from characters to tokens, with an equation for each kind of spelling: blanks, signs,
words, numbers and quoted texts, each followed by a rest that does not run into it.
-/
namespace ViewUpkeep

namespace Lexer

variable {c : Char} {cs rest : List Char} {l : Lexeme} {offset : Nat}

def scan (cs : List Char) : Option (List Token) := (tokensFrom 0 0 cs).toOption.map nodes

theorem nodes_tokensFrom_cons (hc : Text.isBlank c = false) (hl : lexeme c cs = .ok l) :
    (tokensFrom offset 0 (c :: cs)).toOption.map nodes =
      ((tokensFrom (offset + 1) (l.length - 1) cs).toOption.map nodes).map
        (l.token.toList ++ ·) := by
  simp only [tokensFrom, hc, hl, Bool.false_eq_true, if_false]
  cases tokensFrom (offset + 1) (l.length - 1) cs with
  | error e => rfl
  | ok us => cases l.token <;> rfl

theorem nodes_tokensFrom (cs : List Char) (offset offset' skip : Nat) :
    (tokensFrom offset skip cs).toOption.map nodes =
      (tokensFrom offset' skip cs).toOption.map nodes := by
  -- Offsets go into spans only; how much is skipped decides what is read next.
  induction cs generalizing offset offset' skip with
  | nil => rfl
  | cons c cs ih =>
    cases skip with
    | succ skip => exact ih _ _ _
    | zero =>
      cases hc : Text.isBlank c with
      | true =>
        simp only [tokensFrom, hc, if_true]
        exact ih _ _ _
      | false =>
        cases hl : lexeme c cs with
        | error o =>
          simp only [tokensFrom, hc, hl]
          rfl
        | ok l =>
          rw [nodes_tokensFrom_cons hc hl, nodes_tokensFrom_cons hc hl,
            ih (offset + 1) (offset' + 1)]

theorem tokensFrom_skip (cs rest : List Char) (offset : Nat) :
    tokensFrom offset cs.length (cs ++ rest) = tokensFrom (offset + cs.length) 0 rest := by
  induction cs generalizing offset with
  | nil => rfl
  | cons c cs ih =>
    simp only [List.length_cons, List.cons_append, tokensFrom, ih]
    congr 1
    omega

@[simp] theorem scan_nil : scan [] = some [] := rfl

theorem scan_blank (hc : Text.isBlank c = true) : scan (c :: cs) = scan cs := by
  unfold scan
  simp only [tokensFrom, hc, if_true]
  exact nodes_tokensFrom cs _ _ _

@[simp] theorem scan_space : scan (' ' :: cs) = scan cs := scan_blank rfl

theorem scan_of_all_blank (h : cs.all Text.isBlank = true) : scan cs = some [] := by
  induction cs with
  | nil => rfl
  | cons c cs ih =>
    rw [List.all_cons, Bool.and_eq_true] at h
    rw [scan_blank h.1, ih h.2]

/-- The characters of one lexeme give its token, and what follows is lexed on its own. -/
theorem scan_lexeme {t : Token} (c : Char) (cs rest : List Char) (hc : Text.isBlank c = false)
    (hl : lexeme c (cs ++ rest) = .ok ⟨some t, cs.length + 1⟩) :
    scan (c :: (cs ++ rest)) = (scan rest).map (t :: ·) := by
  unfold scan
  rw [nodes_tokensFrom_cons hc hl]
  simp only [Nat.add_sub_cancel, tokensFrom_skip]
  rw [nodes_tokensFrom rest _ 0]
  rfl

theorem scan_fault {o : Obstacle} (hc : Text.isBlank c = false) (hl : lexeme c cs = .error o) :
    scan (c :: cs) = none := by
  unfold scan
  simp only [tokensFrom, hc, hl]
  rfl

/-! ### Signs -/

def runsOn : Sign → Bool
  | .assign | .lt | .gt => true
  | _ => false

theorem lexeme_orEqual {short long : Sign} (h : rest.head? ≠ some '=') :
    orEqual short long rest = .ofSign short := if_neg h

theorem scan_sign (s : Sign) (hs : runsOn s = true → rest.head? ≠ some '=') :
    scan (s.spelling.toList ++ rest) = (scan rest).map (.sign s :: ·) := by
  cases s with
  | lbrace => exact scan_lexeme '\x7b' [] rest rfl rfl
  | rbrace => exact scan_lexeme '\x7d' [] rest rfl rfl
  | lparen => exact scan_lexeme '(' [] rest rfl rfl
  | rparen => exact scan_lexeme ')' [] rest rfl rfl
  | colon => exact scan_lexeme ':' [] rest rfl rfl
  | semicolon => exact scan_lexeme ';' [] rest rfl rfl
  | comma => exact scan_lexeme ',' [] rest rfl rfl
  | assign => exact scan_lexeme '=' [] rest rfl (congrArg Except.ok (lexeme_orEqual (hs rfl)))
  | eq => exact scan_lexeme '=' ['='] rest rfl rfl
  | ne => exact scan_lexeme '!' ['='] rest rfl rfl
  | le => exact scan_lexeme '<' ['='] rest rfl rfl
  | ge => exact scan_lexeme '>' ['='] rest rfl rfl
  | lt => exact scan_lexeme '<' [] rest rfl (congrArg Except.ok (lexeme_orEqual (hs rfl)))
  | gt => exact scan_lexeme '>' [] rest rfl (congrArg Except.ok (lexeme_orEqual (hs rfl)))
  | plus => exact scan_lexeme '+' [] rest rfl rfl
  | minus => exact scan_lexeme '-' [] rest rfl rfl
  | star => exact scan_lexeme '*' [] rest rfl rfl

@[simp] theorem scan_lparen : scan ('(' :: rest) = (scan rest).map (.sign .lparen :: ·) :=
  scan_sign .lparen (by simp [runsOn])

@[simp] theorem scan_rparen : scan (')' :: rest) = (scan rest).map (.sign .rparen :: ·) :=
  scan_sign .rparen (by simp [runsOn])

@[simp] theorem scan_comma : scan (',' :: rest) = (scan rest).map (.sign .comma :: ·) :=
  scan_sign .comma (by simp [runsOn])

@[simp] theorem scan_minus : scan ('-' :: rest) = (scan rest).map (.sign .minus :: ·) :=
  scan_sign .minus (by simp [runsOn])

@[simp] theorem scan_semicolon : scan (';' :: rest) = (scan rest).map (.sign .semicolon :: ·) :=
  scan_sign .semicolon (by simp [runsOn])

/-! ### Words and numbers -/

/-- What follows does not go on with a word or a number. -/
def Delimited (rest : List Char) : Prop := ∀ c ∈ rest.head?, isIdentRest c = false

@[simp] theorem delimited_nil : Delimited [] := by simp [Delimited]

@[simp] theorem delimited_cons : Delimited (c :: cs) ↔ isIdentRest c = false := by
  simp [Delimited]

theorem isDigit_iff : c.isDigit = true ↔ 48 ≤ c.toNat ∧ c.toNat ≤ 57 := by
  simp [Char.isDigit, UInt32.le_iff_toNat_le, ← Char.toNat_val]

theorem isIdentStart_iff : isIdentStart c = true ↔
    65 ≤ c.toNat ∧ c.toNat ≤ 90 ∨ 97 ≤ c.toNat ∧ c.toNat ≤ 122 ∨ c.toNat = 95 := by
  have hupper : c.isUpper = decide (65 ≤ c.val ∧ c.val ≤ 90) := rfl
  have hlower : c.isLower = (decide (97 ≤ c.val) && decide (c.val ≤ 122)) := rfl
  have hstart : isIdentStart c = (c.isUpper || c.isLower || decide (c = '_')) := rfl
  simp [hstart, hupper, hlower, UInt32.le_iff_toNat_le, ← Char.toNat_val, Char.ext_iff,
    ← UInt32.toNat_inj, or_assoc]

theorem isIdentRest_iff : isIdentRest c = true ↔ isIdentStart c = true ∨ c.isDigit = true := by
  simp only [isIdentRest, isIdentStart, Char.isAlphanum, Bool.or_eq_true, decide_eq_true_eq]
  rw [or_right_comm]

theorem not_blank_of_isIdentRest (h : isIdentRest c = true) : Text.isBlank c = false := by
  rw [isIdentRest_iff, isIdentStart_iff, isDigit_iff] at h
  simp only [Text.isBlank, Bool.or_eq_false_iff, Bool.and_eq_false_iff, decide_eq_false_iff_not]
  omega

theorem isIdentStart_of_isDigit (h : c.isDigit = true) : isIdentStart c = false := by
  rw [isDigit_iff] at h
  rw [← Bool.not_eq_true, isIdentStart_iff]
  omega

theorem takeWhile_delimited {p : Char → Bool} (hp : ∀ c, p c = true → isIdentRest c = true)
    (hcs : cs.all p = true) (hrest : Delimited rest) : (cs ++ rest).takeWhile p = cs := by
  rw [List.takeWhile_append_of_pos (by simpa using hcs)]
  cases rest with
  | nil => simp
  | cons c rest =>
    have hc : p c = false := by
      rw [← Bool.not_eq_true]
      intro h
      exact absurd (hp c h) (by simpa using hrest)
    simp [hc]

def isWord : List Char → Bool
  | [] => false
  | c :: cs => isIdentStart c && cs.all isIdentRest

theorem scan_word (h : isWord cs = true) (hrest : Delimited rest) :
    scan (cs ++ rest) = (scan rest).map (.ofWord (String.ofList cs) :: ·) := by
  cases cs with
  | nil => simp [isWord] at h
  | cons c cs =>
    rw [isWord, Bool.and_eq_true] at h
    apply scan_lexeme
    · exact not_blank_of_isIdentRest (isIdentRest_iff.mpr (.inl h.1))
    · simp only [lexeme, h.1, if_true, takeWhile_delimited (fun _ hc => hc) h.2 hrest]
      rfl

theorem scan_keyword (k : Keyword) (hrest : Delimited rest) :
    scan (k.spelling.toList ++ rest) = (scan rest).map (.keyword k :: ·) := by
  have hword : isWord k.spelling.toList = true := by cases k <;> rfl
  rw [scan_word hword hrest, String.ofList_toList]
  cases k <;> rfl

def isName (name : String) : Bool := isWord name.toList && Token.ofWord name = .ident name

theorem scan_name {name : String} (h : isName name = true) (hrest : Delimited rest) :
    scan (name.toList ++ rest) = (scan rest).map (.ident name :: ·) := by
  rw [isName, Bool.and_eq_true, decide_eq_true_eq] at h
  rw [scan_word h.1 hrest, String.ofList_toList, h.2]

@[simp] theorem scan_wildcard (hrest : Delimited rest) :
    scan ('_' :: rest) = (scan rest).map (.wildcard :: ·) := by
  have hword : isWord ['_'] = true := rfl
  exact scan_word hword hrest

theorem scan_digits (hc : c.isDigit = true) (hcs : cs.all Char.isDigit = true)
    (hzero : c = '0' → cs = []) (hrest : Delimited rest) :
    scan (c :: (cs ++ rest)) = (scan rest).map (.int (String.ofList (c :: cs)) :: ·) := by
  apply scan_lexeme
  · exact not_blank_of_isIdentRest (isIdentRest_iff.mpr (.inr hc))
  · have hdigits : (cs ++ rest).takeWhile Char.isDigit = cs :=
      takeWhile_delimited (fun c hc => isIdentRest_iff.mpr (.inr hc)) hcs hrest
    unfold lexeme
    rw [isIdentStart_of_isDigit hc, hdigits]
    by_cases h : c = '0'
    · rw [hzero h, h]
      rfl
    · simp only [Bool.false_eq_true, if_false, if_neg h, hc, if_true]
      rfl

theorem head?_toDigits (n : Nat) (hn : n ≠ 0) : (Nat.toDigits 10 n).head? ≠ some '0' := by
  induction n using Nat.strongRecOn with
  | _ n ih =>
    rw [Nat.toDigits_eq_if (by omega)]
    split
    case isTrue hlt => simpa [Nat.digitChar_eq_zero] using hn
    case isFalse hge =>
      have hhead := ih (n / 10) (by omega) (by omega)
      cases hd : Nat.toDigits 10 (n / 10) with
      | nil => exact absurd hd Nat.toDigits_ne_nil
      | cons d ds => simpa [hd] using hhead

theorem toList_toString (n : Nat) : ∃ c cs, (toString n).toList = c :: cs ∧ c.isDigit = true ∧
    cs.all Char.isDigit = true ∧ (c = '0' → cs = []) := by
  have hchars : (toString n).toList = Nat.toDigits 10 n := Nat.toList_repr
  have hdigits : (Nat.toDigits 10 n).all Char.isDigit = true := by
    rw [List.all_eq_true]
    exact fun c hc => Nat.isDigit_of_mem_toDigits (by decide) (by decide) hc
  cases hn : Nat.toDigits 10 n with
  | nil => exact absurd hn Nat.toDigits_ne_nil
  | cons c cs =>
    rw [hn, List.all_cons, Bool.and_eq_true] at hdigits
    refine ⟨c, cs, by rw [hchars, hn], hdigits.1, hdigits.2, ?_⟩
    rintro rfl
    have hn0 : n = 0 := Decidable.byContradiction fun h => head?_toDigits n h (by rw [hn]; rfl)
    rw [hn0] at hn
    exact (List.cons.inj hn).2.symm

theorem scan_nat (n : Nat) (hrest : Delimited rest) :
    scan ((toString n).toList ++ rest) = (scan rest).map (.int (toString n) :: ·) := by
  obtain ⟨c, cs, hchars, hc, hcs, hzero⟩ := toList_toString n
  rw [hchars, List.cons_append, scan_digits hc hcs hzero hrest, ← hchars, String.ofList_toList]

theorem integer?_of_digits (hc : c.isDigit = true) (hcs : cs.all Char.isDigit = true) :
    Text.integer? (c :: cs) = some (Nat.ofDigitChars 10 (c :: cs) 0 : Int) := by
  have hminus : c ≠ '-' := by rintro rfl; cases hc
  have hplus : c ≠ '+' := by rintro rfl; cases hc
  have hnatural : Text.natural? (c :: cs) = Text.digits? (c :: cs) := by
    simp [Text.natural?, hplus]
  have hdigits : Text.digits? (c :: cs) = some (Nat.ofDigitChars 10 (c :: cs) 0) := by
    simp [Text.digits?, hc, hcs]
  simp [Text.integer?, hminus, hnatural, hdigits]

theorem integer?_toString (n : Nat) : Text.integer? (toString n).toList = some (n : Int) := by
  obtain ⟨c, cs, hchars, hc, hcs, _⟩ := toList_toString n
  have hdigits : c :: cs = Nat.toDigits 10 n := hchars.symm.trans Nat.toList_repr
  rw [hchars, integer?_of_digits hc hcs, hdigits, Nat.ofDigitChars_ten_toDigits]

/-! ### Quoted texts -/

def isReadable (c : Char) : Bool := c = '\n' || c = '\t' || !Text.isHidden c

theorem stringRest_escape {c d : Char} (h : unescape d = some c) :
    (stringRest ('\\' :: d :: cs)).toOption =
      (stringRest cs).toOption.map fun r => (c :: r.1, r.2 + 2) := by
  simp only [stringRest, h]
  cases stringRest cs <;> rfl

theorem stringRest_plain (hq : c ≠ '"') (hb : c ≠ '\\') :
    (stringRest (c :: cs)).toOption =
      (stringRest cs).toOption.map fun r => (c :: r.1, r.2 + 1) := by
  rw [stringRest.eq_5 c cs hq (fun h => absurd h hb) (fun _ _ h => absurd h hb)]
  cases stringRest cs <;> rfl

theorem stringRest_quoteChar (c : Char) (cs : List Char) :
    (stringRest (Text.quoteChar c ++ cs)).toOption =
      if isReadable c then
        (stringRest cs).toOption.map fun r => (c :: r.1, r.2 + (Text.quoteChar c).length)
      else none := by
  fun_cases Text.quoteChar c with
  | case1 h => subst h; exact stringRest_escape rfl
  | case2 _ h => subst h; exact stringRest_escape rfl
  | case3 _ _ h => subst h; exact stringRest_escape rfl
  | case4 _ _ _ h => subst h; rfl
  | case5 _ _ _ _ h => subst h; exact stringRest_escape rfl
  | case6 _ _ _ _ _ h => subst h; rfl
  | case7 hq hb hn hr ht h0 hc =>
    have hunreadable : isReadable c = false := by simp [isReadable, hn, ht, hc]
    rw [hunreadable]
    rfl
  | case8 hq hb hn hr ht h0 hc =>
    have hreadable : isReadable c = true := by simp [isReadable, hc]
    rw [hreadable]
    exact stringRest_plain hq hb

theorem stringRest_quoted (cs rest : List Char) :
    (stringRest (cs.flatMap Text.quoteChar ++ '"' :: rest)).toOption =
      if cs.all isReadable then some (cs, (cs.flatMap Text.quoteChar).length + 1) else none := by
  induction cs with
  | nil => rfl
  | cons c cs ih =>
    rw [List.flatMap_cons, List.append_assoc, stringRest_quoteChar, ih, List.all_cons]
    cases isReadable c with
    | false => rfl
    | true =>
      cases cs.all isReadable with
      | false => rfl
      | true =>
        simp only [if_true, Option.map_some, Bool.and_self, List.length_append]
        congr 2
        omega

theorem lexeme_string {text : List Char} {n : Nat} (h : stringRest cs = .ok (text, n)) :
    lexeme '"' cs = .ok ⟨some (.str (String.ofList text)), n + 1⟩ := by
  have hstart : isIdentStart '"' = false := rfl
  have hdigit : '"'.isDigit = false := rfl
  simp [lexeme, hstart, hdigit, h]

theorem lexeme_string_error {o : Obstacle} (h : stringRest cs = .error o) :
    lexeme '"' cs = .error ⟨o.read + 1, o.wanted⟩ := by
  have hstart : isIdentStart '"' = false := rfl
  have hdigit : '"'.isDigit = false := rfl
  simp [lexeme, hstart, hdigit, h]

theorem scan_quote (s : String) (rest : List Char) :
    scan ((Text.quote s).toList ++ rest) =
      if s.toList.all isReadable then (scan rest).map (.str s :: ·) else none := by
  have hquoted := stringRest_quoted s.toList rest
  generalize hbody : s.toList.flatMap Text.quoteChar = body at hquoted
  have hchars : (Text.quote s).toList ++ rest = '"' :: ((body ++ ['"']) ++ rest) := by
    simp [Text.quote, hbody]
  rw [hchars]
  rw [List.append_cons] at hquoted
  cases hs : stringRest (body ++ ['"'] ++ rest) with
  | error o =>
    rw [hs] at hquoted
    cases hall : s.toList.all isReadable with
    | true => simp [hall, Except.toOption] at hquoted
    | false => exact scan_fault rfl (lexeme_string_error hs)
  | ok r =>
    rw [hs] at hquoted
    cases hall : s.toList.all isReadable with
    | false => simp [hall, Except.toOption] at hquoted
    | true =>
      obtain rfl : r = (s.toList, body.length + 1) := by
        simpa [hall, Except.toOption] using hquoted
      apply scan_lexeme '"' (body ++ ['"']) rest rfl
      rw [lexeme_string hs, String.ofList_toList, List.length_append]
      rfl

/-! ### Whole texts -/

theorem scan_of_tokens {us : List (Spanned Token)} (h : tokens cs = .ok us) :
    scan cs = some (nodes us) := by
  unfold tokens at h
  split at h
  case isTrue => cases h
  case isFalse =>
    unfold scan
    rw [h]
    rfl

theorem tokens_of_scan {t : Token} {ts : List Token} (h : scan cs = some (t :: ts)) :
    ∃ us, tokens cs = .ok us ∧ nodes us = t :: ts := by
  have hall : cs.all Text.isBlank = false := by
    rw [← Bool.not_eq_true]
    intro hblank
    rw [scan_of_all_blank hblank] at h
    cases h
  unfold tokens
  rw [hall, Bool.and_false]
  unfold scan at h
  cases hus : tokensFrom 0 0 cs with
  | error e => simp [hus, Except.toOption] at h
  | ok us =>
    rw [hus] at h
    exact ⟨us, rfl, Option.some.inj h⟩

end Lexer

open Lexer

theorem Reader.readText_eq_ok {α : Type} {p : Reader α} {text : String} {a : α} :
    p.readText text = .ok a ↔
      ∃ us, tokens text.toList = .ok us ∧ p.readAll text.length us = .ok a := by
  unfold Reader.readText
  cases tokens text.toList with
  | error e => simp
  | ok us => cases h : p.readAll text.length us <;> simp [h]

theorem Term.ofText_eq_ok {text : String} {t : Term} :
    ofText text = .ok t ↔ ∃ ts, scan text.toList = some ts ∧ Derives .disjunction ts t := by
  unfold ofText
  rw [Reader.readText_eq_ok]
  simp only [Grammar.readAll_term_iff]
  constructor
  · rintro ⟨us, hus, ht⟩
    exact ⟨nodes us, scan_of_tokens hus, ht⟩
  · rintro ⟨ts, hts, ht⟩
    obtain ⟨u, ts, rfl, _⟩ := ht.opens
    obtain ⟨us, hus, hnodes⟩ := tokens_of_scan hts
    exact ⟨us, hus, hnodes ▸ ht⟩

end ViewUpkeep
