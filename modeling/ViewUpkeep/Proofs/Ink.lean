import ViewUpkeep.Proofs.Layout

/-!
The visible characters of a text: those that are neither blank nor part of a comment, where a
comment is told by its two slashes alone. If no quoted text has two slashes in a row, the visible
characters are those of the tokens.
-/
namespace ViewUpkeep

namespace Text

variable {c : Char} {cs rest : List Char}

/-- The visible characters of a text; the flag tells that its start belongs to a comment. -/
def inkFrom : Bool → List Char → List Char
  | _, [] => []
  | true, c :: cs => inkFrom (c ≠ '\n') cs
  | false, c :: cs =>
    if c = '/' ∧ cs.head? = some '/' then inkFrom true cs
    else if isBlank c then inkFrom false cs
    else c :: inkFrom false cs

def ink (cs : List Char) : List Char := inkFrom false cs

def isVisible (c : Char) : Bool := !isBlank c

def isOpening (c : Char) : Bool := c = '(' || c = '\x7b'

def isClosing (c : Char) : Bool := c = ')' || c = '\x7d'

def isBracket (c : Char) : Bool := isOpening c || isClosing c

theorem isVisible_of_isBracket (h : isBracket c = true) : isVisible c = true := by
  simp only [isBracket, isOpening, isClosing, Bool.or_eq_true, decide_eq_true_eq] at h
  rcases h with (rfl | rfl) | (rfl | rfl) <;> rfl

@[simp] theorem ink_nil : ink [] = [] := rfl

theorem ink_cons (h : ¬ (c = '/' ∧ cs.head? = some '/')) :
    ink (c :: cs) = [c].filter isVisible ++ ink cs := by
  rw [ink, inkFrom, if_neg h]
  cases hb : isBlank c <;> simp [isVisible, hb, ink]

theorem ink_blank (h : isBlank c = true) : ink (c :: cs) = ink cs := by
  have hc : c ≠ '/' := by
    rintro rfl
    cases h
  rw [ink_cons fun hh => hc hh.1]
  simp [isVisible, h]

/-- What follows a text is read on its own, inside or outside of a comment, unless a slash of it
opens a comment with the last character before. -/
theorem exists_inkFrom_append (inside : Bool) (cs : List Char) :
    ∃ after, ∀ rest, rest.head? ≠ some '/' →
      inkFrom inside (cs ++ rest) = inkFrom inside cs ++ inkFrom after rest := by
  fun_induction inkFrom inside cs with
  | case1 inside => exact ⟨inside, fun rest _ => by simp⟩
  | case2 c cs ih => exact ih
  | case3 c cs hslash ih =>
    obtain ⟨after, hafter⟩ := ih
    refine ⟨after, fun rest hrest => ?_⟩
    obtain ⟨rfl, ds, rfl⟩ : c = '/' ∧ ∃ ds, cs = '/' :: ds :=
      ⟨hslash.1, List.head?_eq_some_iff.mp hslash.2⟩
    exact hafter rest hrest
  | case4 c cs hslash hblank ih | case5 c cs hslash hblank ih =>
    obtain ⟨after, hafter⟩ := ih
    refine ⟨after, fun rest hrest => ?_⟩
    have hopen : ¬ (c = '/' ∧ (cs ++ rest).head? = some '/') := by
      rintro ⟨hc, hhead⟩
      cases cs with
      | nil => exact hrest hhead
      | cons d ds => exact hslash ⟨hc, by simpa using hhead⟩
    have hrest := hafter rest hrest
    have hcons := ink_cons hopen
    simpa [ink, isVisible, hblank, hrest] using hcons

theorem ink_line (cs rest : List Char) : ink (cs ++ '\n' :: rest) = ink cs ++ ink rest := by
  obtain ⟨after, hafter⟩ := exists_inkFrom_append false cs
  rw [ink, hafter _ (by simp)]
  cases after with
  | true => rfl
  | false => exact congrArg (ink cs ++ ·) (ink_blank rfl)

theorem inkFrom_of_blank (inside : Bool) (h : ∀ c ∈ cs, isBlank c = true) :
    inkFrom inside cs = [] := by
  induction cs generalizing inside with
  | nil => cases inside <;> rfl
  | cons c cs ih =>
    rw [List.forall_mem_cons] at h
    cases inside with
    | true => exact ih _ h.2
    | false => exact (ink_blank h.1).trans (ih false h.2)

theorem ink_append_blank (h : ∀ c ∈ rest, isBlank c = true) : ink (cs ++ rest) = ink cs := by
  obtain ⟨after, hafter⟩ := exists_inkFrom_append false cs
  have hhead : rest.head? ≠ some '/' := by
    intro hslash
    exact absurd (h '/' (List.mem_of_head? hslash)) (by decide)
  rw [ink, hafter rest hhead, inkFrom_of_blank after h, List.append_nil]
  rfl

theorem ink_comment (hline : '\n' ∉ cs) (hrest : rest = [] ∨ rest.head? = some '\n') :
    ink ('/' :: '/' :: (cs ++ rest)) = ink rest := by
  have hend : inkFrom true rest = ink rest := by
    obtain rfl | hrest := hrest
    · rfl
    · obtain ⟨ds, rfl⟩ := List.head?_eq_some_iff.mp hrest
      exact (ink_blank rfl).symm
  have hbody : inkFrom true (cs ++ rest) = inkFrom true rest := by
    induction cs with
    | nil => rfl
    | cons c cs ih =>
      rw [List.mem_cons, not_or] at hline
      have hne : decide (c ≠ '\n') = true := decide_eq_true (Ne.symm hline.1)
      rw [List.cons_append, inkFrom, hne]
      exact ih hline.2
  exact hbody.trans hend

/-- A stretch of a text that no comment touches. -/
structure Unbroken (word : List Char) : Prop where
  slashes : ¬ ['/', '/'] <:+: word
  last : word.getLast? ≠ some '/'

theorem Unbroken.ink_append {word : List Char} (h : Unbroken word) (rest : List Char) :
    ink (word ++ rest) = word.filter isVisible ++ ink rest := by
  induction word with
  | nil => rfl
  | cons c cs ih =>
    have hopen : ¬ (c = '/' ∧ (cs ++ rest).head? = some '/') := by
      rintro ⟨rfl, hhead⟩
      cases cs with
      | nil => exact h.last rfl
      | cons d ds =>
        obtain rfl : d = '/' := by simpa using hhead
        exact h.slashes ⟨[], ds, rfl⟩
    have hcs : Unbroken cs := by
      refine ⟨fun hin => h.slashes (hin.trans (List.infix_cons (List.infix_refl cs))), ?_⟩
      intro hlast
      exact h.last (by simp [List.getLast?_cons, hlast])
    rw [List.cons_append, ink_cons hopen, ih hcs, ← List.append_assoc, ← List.filter_append]
    rfl

end Text

/-! ### Spellings -/

namespace Lexer

variable {c : Char} {word text : List Char} {l : Lexeme} {t : Token} {us : List (Spanned Token)}

inductive Quotes : List Char → List Char → Prop where
  | close : Quotes ['"'] []
  | escape {c d : Char} {cs s : List Char} :
    unescape c = some d → Quotes cs s → Quotes ('\\' :: c :: cs) (d :: s)
  | plain {c : Char} {cs s : List Char} : Quotes cs s → Quotes (c :: cs) (c :: s)

theorem stringRest_quotes {body s : List Char} {n : Nat} (h : stringRest body = .ok (s, n))
    (hn : n = body.length) : Quotes body s := by
  fun_induction stringRest body generalizing s n with
  | case1 | case3 | case4 | case6 | case8 => cases h
  | case2 rest =>
    cases h
    obtain rfl : rest = [] := List.length_eq_zero_iff.mp (by simpa using hn.symm)
    exact .close
  | case5 c cs d hd text n hcs ih =>
    cases h
    exact .escape hd (ih hcs (by simpa using hn))
  | case7 c cs hquote hlast hescape text n hcs ih =>
    cases h
    exact .plain (ih hcs (by simpa using hn))

inductive Spells : List Char → Token → Prop where
  | word {word : List Char} {t : Token} : word ≠ [] → (∀ c ∈ word, isIdentRest c = true) →
    (∀ s, t ≠ .str s) → (∀ s, t ≠ .sign s) → Spells word t
  | quoted {body s : List Char} : Quotes body s → Spells ('"' :: body) (.str (String.ofList s))
  | sign (s : Sign) : Spells s.spelling.toList (.sign s)

theorem ofWord_ne (s : String) :
    (∀ r, Token.ofWord s ≠ .str r) ∧ ∀ r, Token.ofWord s ≠ .sign r := by
  unfold Token.ofWord
  split
  case isTrue => simp
  case isFalse => split <;> simp

theorem ofSign_spells {s : Sign} (hs : s.spelling.toList <+: c :: word)
    (hlen : (Lexeme.ofSign s).length = word.length + 1) : Spells (c :: word) (.sign s) := by
  have heq : s.spelling.toList = c :: word := by
    refine hs.eq_of_length ?_
    rw [String.length_toList, List.length_cons]
    exact hlen
  exact heq ▸ .sign s

theorem orEqual_spells {short long : Sign} (hshort : short.spelling.toList = [c])
    (hlong : long.spelling.toList = [c, '=']) (ht : (orEqual short long word).token = some t)
    (hlen : (orEqual short long word).length = word.length + 1) : Spells (c :: word) t := by
  unfold orEqual at ht hlen
  split at ht
  case isTrue h =>
    rw [if_pos h] at hlen
    obtain ⟨rest, rfl⟩ := List.head?_eq_some_iff.mp h
    cases ht
    exact ofSign_spells (hlong ▸ ⟨rest, rfl⟩) hlen
  case isFalse h =>
    rw [if_neg h] at hlen
    cases ht
    exact ofSign_spells (hshort ▸ ⟨word, rfl⟩) hlen

theorem lexeme_spells (h : lexeme c word = .ok l) (ht : l.token = some t)
    (hlen : l.length = word.length + 1) : Spells (c :: word) t := by
  have htake : ∀ p : Char → Bool, (word.takeWhile p).length = word.length →
      ∀ d ∈ word, p d = true := by
    intro p hp d hd
    have heq : word.takeWhile p = word := (List.takeWhile_sublist p).eq_of_length hp
    exact List.mem_takeWhile_imp (heq ▸ hd)
  unfold lexeme at h
  split at h
  case isTrue hc =>
    cases h
    cases ht
    obtain ⟨hstr, hsign⟩ := ofWord_ne (String.ofList (c :: word.takeWhile isIdentRest))
    have hword := htake isIdentRest (by simpa using hlen)
    exact .word (by simp) (List.forall_mem_cons.mpr ⟨isIdentRest_iff.mpr (.inl hc), hword⟩) hstr hsign
  split at h
  case isTrue hstart hzero =>
    cases h
    cases ht
    obtain rfl : word = [] := List.length_eq_zero_iff.mp (by simpa using hlen.symm)
    subst hzero
    exact .word (by simp) (List.forall_mem_singleton.mpr (by decide)) (by simp) (by simp)
  split at h
  case isTrue hstart hzero hc =>
    cases h
    cases ht
    have hword := htake Char.isDigit (by simpa using hlen)
    refine .word (by simp) (List.forall_mem_cons.mpr ⟨isIdentRest_iff.mpr (.inr hc), ?_⟩) (by simp)
      (by simp)
    exact fun d hd => isIdentRest_iff.mpr (.inr (hword d hd))
  split at h
  case h_1 =>
    split at h
    · rename_i body n hbody
      cases h
      cases ht
      obtain rfl : n = word.length := by simpa using hlen
      exact .quoted (stringRest_quotes hbody rfl)
    · cases h
  case h_2 =>
    split at h
    · cases h
      cases ht
    · cases h
  case h_3 =>
    split at h
    case isTrue heq =>
      obtain ⟨rest, rfl⟩ := List.head?_eq_some_iff.mp heq
      cases h
      cases ht
      exact ofSign_spells ⟨rest, rfl⟩ hlen
    case isFalse => cases h
  case h_4 | h_5 | h_6 =>
    cases h
    exact orEqual_spells rfl rfl ht hlen
  case h_17 => cases h
  all_goals
    cases h
    cases ht
    exact ofSign_spells ⟨word, rfl⟩ hlen

theorem spells_of_tokens {n : Nat} (h : tokens word = .ok [⟨t, ⟨0, n⟩⟩]) (hn : word.length = n) :
    Spells word t := by
  have hfrom : tokensFrom 0 0 word = .ok [⟨t, ⟨0, n⟩⟩] := by
    unfold tokens at h
    split at h
    case isTrue => cases h
    case isFalse => exact h
  cases word with
  | nil => cases hfrom
  | cons c cs =>
    have hlater : ∀ (pre : List Char) {rest : List Char} {vs : List (Spanned Token)}, pre ≠ [] →
        tokensFrom pre.length 0 rest = .ok vs → ⟨t, ⟨0, n⟩⟩ ∉ vs := by
      intro pre rest vs hpre hvs hmem
      have hstart := ((tokensFrom_laid pre hvs).inside _ hmem).1
      exact hpre (List.length_eq_zero_iff.mp (Nat.le_zero.mp hstart))
    cases hc : Text.isBlank c with
    | true =>
      simp only [tokensFrom, hc, if_true] at hfrom
      exact absurd (List.mem_singleton_self _) (hlater [c] (by simp) hfrom)
    | false =>
      cases hl : lexeme c cs with
      | error o =>
        simp only [tokensFrom, hc, hl] at hfrom
        cases hfrom
      | ok l =>
        simp only [tokensFrom, hc, hl, Bool.false_eq_true, if_false] at hfrom
        obtain ⟨vs, hvs, hfrom⟩ := bind_eq_ok.mp hfrom
        cases ht : l.token with
        | some t' =>
          rw [ht] at hfrom
          cases hfrom
          exact lexeme_spells hl ht (by simpa using hn.symm)
        | none =>
          rw [ht] at hfrom
          cases hfrom
          obtain ⟨word, rest, rfl, hlen, _⟩ := lexeme_takes hl
          rw [hlen, Nat.add_sub_cancel, tokensFrom_skip] at hvs
          have hpre : (c :: word).length = 0 + 1 + word.length := by simp; omega
          rw [← hpre] at hvs
          exact absurd (List.mem_singleton_self _) (hlater (c :: word) (by simp) hvs)

/-! ### What a spelling shows -/

namespace Quotes

variable {body s : List Char}

theorem getLast? (h : Quotes body s) : body.getLast? = some '"' := by
  induction h with
  | close => rfl
  | escape _ _ ih | plain _ ih => simp [List.getLast?_cons, ih]

theorem head?_slash (h : Quotes body s) (hbody : body.head? = some '/') : s.head? = some '/' := by
  cases h with
  | close | escape => simp at hbody
  | plain => exact hbody

theorem slashes (h : Quotes body s) (hin : ['/', '/'] <:+: body) : ['/', '/'] <:+: s := by
  induction h with
  | close => exact absurd hin (by decide)
  | @escape c d cs s hd _ ih =>
    have hc : c ≠ '/' := by
      rintro rfl
      cases hd
    refine List.infix_cons (ih ?_)
    simpa [List.infix_cons_iff, List.cons_prefix_cons, hc.symm] using hin
  | @plain c cs s hcs ih =>
    obtain hpre | hin := List.infix_cons_iff.mp hin
    · obtain ⟨rfl, hslash⟩ := List.cons_prefix_cons.mp hpre
      obtain ⟨rest, rfl⟩ := hslash
      obtain ⟨s, rfl⟩ := List.head?_eq_some_iff.mp (hcs.head?_slash rfl)
      exact ⟨[], s, rfl⟩
    · exact List.infix_cons (ih hin)

theorem countP {p : Char → Bool} (hp : ∀ c, Text.isBracket c = false → p c = false)
    (h : Quotes body s) : body.countP p = s.countP p := by
  induction h with
  | close => simp [hp '"' rfl]
  | @escape c d cs s hd _ ih =>
    have hescaped : Text.isBracket c = false ∧ Text.isBracket d = false := by
      unfold unescape at hd
      split at hd <;> cases hd <;> exact ⟨rfl, rfl⟩
    simp [hp '\\' rfl, hp c hescaped.1, hp d hescaped.2, ih]
  | plain _ ih => simp [List.countP_cons, ih]

end Quotes

end Lexer

namespace Token

def quoted : Token → List Char
  | .str s => s.toList
  | _ => []

def signs : Token → List Char
  | .sign s => s.spelling.toList
  | _ => []

def isOpening : Token → Bool
  | .sign .lparen | .sign .lbrace => true
  | _ => false

def isClosing : Token → Bool
  | .sign .rparen | .sign .rbrace => true
  | _ => false

theorem countP_signs_opening (t : Token) :
    t.signs.countP Text.isOpening = if t.isOpening then 1 else 0 := by
  cases t with
  | sign s => cases s <;> rfl
  | _ => rfl

theorem countP_signs_closing (t : Token) :
    t.signs.countP Text.isClosing = if t.isClosing then 1 else 0 := by
  cases t with
  | sign s => cases s <;> rfl
  | _ => rfl

end Token

namespace Lexer

variable {word text : List Char} {t : Token} {us : List (Spanned Token)} {p : Char → Bool}

theorem not_isBracket_of_isIdentRest {c : Char} (h : isIdentRest c = true) :
    Text.isBracket c = false := by
  rw [← Bool.not_eq_true]
  intro hb
  simp only [Text.isBracket, Text.isOpening, Text.isClosing, Bool.or_eq_true,
    decide_eq_true_eq] at hb
  rcases hb with (rfl | rfl) | (rfl | rfl) <;> exact absurd h (by decide)

namespace Spells

theorem unbroken (h : Spells word t) (hslashes : ¬ ['/', '/'] <:+: t.quoted) :
    Text.Unbroken word := by
  cases h with
  | word hne hword _ _ =>
    have hslash : '/' ∉ word := fun hm => absurd (hword '/' hm) (by decide)
    refine ⟨fun hin => hslash (hin.subset (by simp)), fun hlast => hslash ?_⟩
    exact List.mem_of_getLast? hlast
  | @quoted body s hbody =>
    refine ⟨fun hin => hslashes ?_, by simp [List.getLast?_cons, hbody.getLast?]⟩
    have hin : ['/', '/'] <:+: body := by
      simpa [List.infix_cons_iff, List.cons_prefix_cons] using hin
    simpa [Token.quoted] using hbody.slashes hin
  | sign s => cases s <;> exact ⟨by decide, by decide⟩

theorem countP (hp : ∀ c, Text.isBracket c = false → p c = false) (h : Spells word t) :
    word.countP p = t.signs.countP p + t.quoted.countP p := by
  cases h with
  | word hne hword hstr hsign =>
    have hnone : word.countP p = 0 := by
      refine List.countP_eq_zero.mpr fun c hc => ?_
      simp [hp c (not_isBracket_of_isIdentRest (hword c hc))]
    cases t with
    | str s => exact absurd rfl (hstr s)
    | sign s => exact absurd rfl (hsign s)
    | _ => exact hnone
  | quoted hbody => simp [Token.signs, Token.quoted, hp '"' rfl, hbody.countP hp]
  | sign s => simp [Token.signs, Token.quoted]

theorem last (h : Spells word t) : ∃ c, word.getLast? = some c ∧ Text.isVisible c = true ∧
    (c = ';' ↔ t = .sign .semicolon) := by
  cases h with
  | word hne hword hstr hsign =>
    have hrest := hword _ (List.getLast_mem hne)
    have hsemicolon : word.getLast hne ≠ ';' := by
      intro heq
      rw [heq] at hrest
      exact absurd hrest (by decide)
    refine ⟨word.getLast hne, List.getLast?_eq_some_getLast hne, ?_, by simp [hsemicolon, hsign]⟩
    simp [Text.isVisible, not_blank_of_isIdentRest hrest]
  | quoted hbody => exact ⟨'"', by simp [List.getLast?_cons, hbody.getLast?], rfl, by simp⟩
  | sign s => cases s <;> exact ⟨_, rfl, by decide, by decide⟩

end Spells

/-! ### Texts -/

def inkOf (text : List Char) (u : Spanned Token) : List Char :=
  (text.extract u.span.start u.span.stop).filter Text.isVisible

theorem Laid.spells {n : Nat} (h : Laid text n us) :
    ∀ u ∈ us, Spells (text.extract u.span.start u.span.stop) u.node := by
  intro u hu
  obtain ⟨_, hpos, hstop⟩ := h.inside u hu
  refine spells_of_tokens (h.alone u hu) ?_
  simp only [List.extract_eq_take_drop, List.length_take, List.length_drop]
  omega

theorem Comment.ink {g : Text.Span} (h : Comment text g) :
    Text.ink (text.drop g.start) = Text.ink (text.drop g.stop) := by
  have hlong := h.long
  obtain ⟨hfirst, hfirst'⟩ := List.getElem?_eq_some_iff.mp h.slashes.1
  obtain ⟨hsecond, hsecond'⟩ := List.getElem?_eq_some_iff.mp h.slashes.2
  have hdrop : text.drop (g.start + 1 + 1) =
      (text.drop (g.start + 1 + 1)).take (g.stop - (g.start + 1 + 1)) ++ text.drop g.stop := by
    conv_lhs => rw [← List.take_append_drop (g.stop - (g.start + 1 + 1)) (text.drop (g.start + 1 + 1))]
    rw [List.drop_drop, Nat.add_sub_cancel' hlong]
  rw [List.drop_eq_getElem_cons hfirst, hfirst', List.drop_eq_getElem_cons hsecond, hsecond', hdrop]
  refine Text.ink_comment ?_ ?_
  · intro hm
    obtain ⟨i, hi, hget⟩ := List.mem_iff_getElem.mp hm
    rw [List.length_take, List.length_drop] at hi
    rw [List.getElem_take, List.getElem_drop] at hget
    exact h.line (g.start + 1 + 1 + i) ⟨by omega, by omega⟩ (List.getElem?_eq_some_iff.mpr ⟨_, hget⟩)
  · refine h.ends.imp (fun hend => List.drop_eq_nil_of_le hend.ge) fun hend => ?_
    rw [List.head?_drop, hend]

theorem Laid.ink {n : Nat} (h : Laid text n us)
    (hslashes : ∀ u ∈ us, ¬ ['/', '/'] <:+: u.node.quoted) :
    Text.ink (text.drop n) = us.flatMap (inkOf text) := by
  induction h with
  | done => simp
  | @blank n c us hc hblank _ ih =>
    obtain ⟨hn, hc⟩ := List.getElem?_eq_some_iff.mp hc
    rw [List.drop_eq_getElem_cons hn, hc, Text.ink_blank hblank, ih hslashes]
  | @comment g us hg _ ih =>
    rw [hg.ink, ih hslashes]
  | @token t g us hpos hstop htokens hrest ih =>
    rw [List.forall_mem_cons] at hslashes
    have hspells : Spells (text.extract g.start g.stop) t :=
      (Laid.token hpos hstop htokens hrest).spells _ List.mem_cons_self
    have hdrop : text.drop g.start = text.extract g.start g.stop ++ text.drop g.stop := by
      rw [List.extract_eq_take_drop]
      conv_lhs => rw [← List.take_append_drop (g.stop - g.start) (text.drop g.start)]
      rw [List.drop_drop, Nat.add_sub_cancel' hpos.le]
    rw [hdrop, (hspells.unbroken hslashes.1).ink_append, ih hslashes.2]
    rfl

theorem tokens_laid (h : tokens text = .ok us) : Laid text 0 us := by
  unfold tokens at h
  split at h
  case isTrue => cases h
  case isFalse => simpa using tokensFrom_laid [] h

variable (h : tokens text = .ok us) (hslashes : ∀ u ∈ us, ¬ ['/', '/'] <:+: u.node.quoted)
include h hslashes

theorem tokens_ink : Text.ink text = us.flatMap (inkOf text) := by
  simpa using (tokens_laid h).ink hslashes

/-- The visible brackets are those among the tokens and those in quoted texts. -/
theorem countP_ink {q : Token → Bool} (hp : ∀ c, Text.isBracket c = false → p c = false)
    (hq : ∀ t : Token, t.signs.countP p = if q t then 1 else 0) :
    (Text.ink text).countP p = (nodes us).countP q + ((nodes us).flatMap Token.quoted).countP p := by
  have hvisible : ∀ c, p c = true → Text.isVisible c = true := by
    intro c hc
    refine Text.isVisible_of_isBracket ?_
    by_contra hb
    simp [hp c (by simpa using hb)] at hc
  have hone : ∀ u ∈ us, (inkOf text u).countP p =
      (if q u.node then 1 else 0) + u.node.quoted.countP p := by
    intro u hu
    rw [← hq, ← ((tokens_laid h).spells u hu).countP hp, inkOf, List.countP_filter]
    refine List.countP_congr fun c _ => ?_
    simp only [Bool.and_eq_true, and_iff_left_iff_imp]
    exact hvisible c
  rw [tokens_ink h hslashes]
  clear h hslashes
  induction us with
  | nil => rfl
  | cons u us ih =>
    rw [List.forall_mem_cons] at hone
    simp only [List.flatMap_cons, nodes_cons, List.countP_append, List.countP_cons, hone.1, ih hone.2]
    omega

theorem getLast?_ink :
    (Text.ink text).getLast? = some ';' ↔ (nodes us).getLast? = some (.sign .semicolon) := by
  rw [tokens_ink h hslashes]
  obtain rfl | ⟨us, u, rfl⟩ := us.eq_nil_or_concat
  · simp
  · obtain ⟨c, hlast, hvisible, hiff⟩ := ((tokens_laid h).spells u (by simp)).last
    obtain ⟨word, hword⟩ := List.getLast?_eq_some_iff.mp hlast
    have hink : inkOf text u = word.filter Text.isVisible ++ [c] := by
      rw [inkOf, hword, List.filter_append, List.filter_singleton, hvisible]
      rfl
    simp [hink, hiff, nodes_append]

end Lexer

end ViewUpkeep
