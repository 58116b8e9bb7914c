import Mathlib.Data.List.TakeWhile
import ViewUpkeep.Proofs.Environment
import ViewUpkeep.Proofs.Spelling

/-!
How the tokens of a text lie in it. Each takes a stretch of characters that is read as that token
wherever it stands; the stretches follow one another, and what is left between them is blank or a
comment.
-/
namespace ViewUpkeep

def Text.Span.Covers (s : Text.Span) (i : Nat) : Prop := s.start ≤ i ∧ i < s.stop

namespace Lexer

variable {c : Char} {text cs : List Char} {l : Lexeme} {us : List (Spanned Token)} {n : Nat}

/-! ### One lexeme -/

theorem stringRest_split {r : List Char × Nat} (h : stringRest cs = .ok r) :
    ∃ word rest, cs = word ++ rest ∧ r.2 = word.length ∧ stringRest word = .ok r := by
  fun_induction stringRest cs generalizing r with
  | case1 | case3 | case4 | case6 | case8 => cases h
  | case2 rest =>
    cases h
    exact ⟨['"'], rest, rfl, rfl, rfl⟩
  | case5 c cs d hd text n hcs ih =>
    cases h
    obtain ⟨word, rest, rfl, hlen, hword⟩ := ih hcs
    refine ⟨'\\' :: c :: word, rest, rfl, by simpa using hlen, ?_⟩
    simp only [stringRest, hd, hword]
  | case7 c cs hquote hlast hescape text n hcs ih =>
    cases h
    obtain ⟨word, rest, rfl, hlen, hword⟩ := ih hcs
    have hslash : c ≠ '\\' := by
      intro hc
      cases hrest : word ++ rest with
      | nil => exact hlast hc hrest
      | cons d ds => exact hescape d ds hc hrest
    refine ⟨c :: word, rest, rfl, by simpa using hlen, ?_⟩
    rw [stringRest.eq_5 c word hquote (fun hc => absurd hc hslash)
      (fun _ _ hc => absurd hc hslash), hword]

/-- What a lexeme takes of the characters after its first one. A token is read from them alone; a
comment goes up to the end of the line. -/
inductive Takes (c : Char) (l : Lexeme) (word rest : List Char) : Prop where
  | token {t : Token} : l.token = some t → lexeme c word = .ok l → Takes c l word rest
  | comment : l.token = none → c = '/' → word.head? = some '/' → '\n' ∉ word →
    (rest = [] ∨ rest.head? = some '\n') → Takes c l word rest

theorem orEqual_takes {short long : Sign} (hlong : lexeme c ['='] = .ok (.ofSign long))
    (hshort : lexeme c [] = .ok (.ofSign short)) (hlen : short.spelling.length = 1)
    (hlen' : long.spelling.length = 2) :
    ∃ word rest, cs = word ++ rest ∧ (orEqual short long cs).length = word.length + 1 ∧
      Takes c (orEqual short long cs) word rest := by
  unfold orEqual
  split
  case isTrue h =>
    obtain ⟨rest, rfl⟩ := List.head?_eq_some_iff.mp h
    exact ⟨['='], rest, rfl, hlen', .token rfl hlong⟩
  case isFalse => exact ⟨[], cs, rfl, hlen, .token rfl hshort⟩

theorem lexeme_takes (h : lexeme c cs = .ok l) :
    ∃ word rest, cs = word ++ rest ∧ l.length = word.length + 1 ∧ Takes c l word rest := by
  -- One case for each branch of the lexer, in its order. Words, numbers and quoted texts end by
  -- themselves; a comment and a sign look at what follows.
  unfold lexeme at h
  split at h
  case isTrue hc =>
    cases h
    refine ⟨_, _, List.takeWhile_append_dropWhile.symm, rfl, .token rfl ?_⟩
    simp [lexeme, hc, List.takeWhile_idem]
  split at h
  case isTrue hstart hzero =>
    cases h
    exact ⟨[], cs, rfl, rfl, .token rfl (by subst hzero; rfl)⟩
  split at h
  case isTrue hstart hzero hc =>
    cases h
    refine ⟨_, _, List.takeWhile_append_dropWhile.symm, rfl, .token rfl ?_⟩
    simp [lexeme, hstart, hzero, hc, List.takeWhile_idem]
  split at h
  case h_1 =>
    split at h
    · rename_i body k hbody
      cases h
      obtain ⟨word, rest, rfl, hlen, hword⟩ := stringRest_split hbody
      exact ⟨word, rest, rfl, by rw [← hlen], .token rfl (lexeme_string hword)⟩
    · cases h
  case h_2 =>
    split at h
    case isTrue hslash =>
      cases h
      obtain ⟨rest, rfl⟩ := List.head?_eq_some_iff.mp hslash
      refine ⟨_, _, List.takeWhile_append_dropWhile.symm, rfl, .comment rfl rfl rfl ?_ ?_⟩
      · intro hm
        simpa using List.mem_takeWhile_imp hm
      · have hend := List.head?_dropWhile_not (fun d => decide (d ≠ '\n')) ('/' :: rest)
        cases hrest : ('/' :: rest).dropWhile (fun d => decide (d ≠ '\n')) with
        | nil => exact .inl rfl
        | cons d ds =>
          rw [hrest] at hend
          exact .inr (by simpa using hend)
    case isFalse => cases h
  case h_3 =>
    split at h
    case isTrue heq =>
      cases h
      obtain ⟨rest, rfl⟩ := List.head?_eq_some_iff.mp heq
      exact ⟨['='], rest, rfl, rfl, .token rfl rfl⟩
    case isFalse => cases h
  case h_4 | h_5 | h_6 =>
    cases h
    exact orEqual_takes rfl rfl rfl rfl
  case h_17 => cases h
  all_goals
    cases h
    exact ⟨[], cs, rfl, rfl, .token rfl rfl⟩

/-! ### Whole texts -/

structure Comment (text : List Char) (g : Text.Span) : Prop where
  slashes : text[g.start]? = some '/' ∧ text[g.start + 1]? = some '/'
  long : g.start + 2 ≤ g.stop
  line : ∀ i, g.Covers i → text[i]? ≠ some '\n'
  ends : g.stop = text.length ∨ text[g.stop]? = some '\n'

/-- From an offset on, a text is blanks, comments and stretches that are tokens on their own. -/
inductive Laid (text : List Char) : Nat → List (Spanned Token) → Prop where
  | done : Laid text text.length []
  | blank {n : Nat} {c : Char} {us : List (Spanned Token)} :
    text[n]? = some c → Text.isBlank c = true → Laid text (n + 1) us → Laid text n us
  | comment {g : Text.Span} {us : List (Spanned Token)} :
    Comment text g → Laid text g.stop us → Laid text g.start us
  | token {t : Token} {g : Text.Span} {us : List (Spanned Token)} :
    g.start < g.stop → g.stop ≤ text.length →
    tokens (text.extract g.start g.stop) = .ok [⟨t, ⟨0, g.stop - g.start⟩⟩] →
    Laid text g.stop us → Laid text g.start (⟨t, g⟩ :: us)

theorem tokens_word {t : Token} {word : List Char} (hc : Text.isBlank c = false)
    (hl : lexeme c word = .ok l) (ht : l.token = some t) (hlen : l.length = word.length + 1) :
    tokens (c :: word) = .ok [⟨t, ⟨0, word.length + 1⟩⟩] := by
  have hskip : tokensFrom 1 word.length word = .ok [] := by
    simpa [tokensFrom] using tokensFrom_skip word [] 1
  simp only [tokens, tokensFrom, hc, hl, hlen, ht, hskip, Nat.add_sub_cancel, Nat.zero_add,
    List.all_cons, Bool.false_and, Bool.and_false, Bool.false_eq_true, if_false]
  rfl

theorem comment_append {pre word rest : List Char} (hslash : word.head? = some '/')
    (hline : '\n' ∉ word) (hend : rest = [] ∨ rest.head? = some '\n') :
    Comment (pre ++ '/' :: (word ++ rest)) ⟨pre.length, pre.length + 1 + word.length⟩ := by
  obtain ⟨body, rfl⟩ := List.head?_eq_some_iff.mp hslash
  refine ⟨⟨by simp, by simp⟩, by simp; omega, ?_, ?_⟩
  · rintro i ⟨hstart, hstop⟩ hi
    obtain ⟨j, rfl⟩ := Nat.exists_eq_add_of_le hstart
    rw [List.getElem?_append_right (by omega), ← List.cons_append,
      List.getElem?_append_left (by simp at hstop ⊢; omega)] at hi
    obtain h | h := List.mem_cons.mp (List.mem_of_getElem? hi)
    · cases h
    · exact hline h
  · obtain rfl | hrest := hend
    · exact .inl (by simp; omega)
    · right
      rw [List.getElem?_append_right (by simp; omega), ← List.cons_append,
        List.getElem?_append_right (by simp; omega), ← hrest, List.head?_eq_getElem?]
      congr 1
      simp
      omega

theorem tokensFrom_laid (pre : List Char) (h : tokensFrom pre.length 0 cs = .ok us) :
    Laid (pre ++ cs) pre.length us := by
  induction hn : cs.length using Nat.strongRecOn generalizing pre cs us with
  | _ n ih =>
    subst hn
    cases cs with
    | nil =>
      cases h
      rw [List.append_nil]
      exact .done
    | cons c cs =>
      have next : ∀ {word rest : List Char} {vs : List (Spanned Token)}, cs = word ++ rest →
          tokensFrom (pre.length + 1 + word.length) 0 rest = .ok vs →
          Laid (pre ++ c :: cs) (pre.length + 1 + word.length) vs := by
        rintro word rest vs rfl hvs
        have hlen : (pre ++ c :: word).length = pre.length + 1 + word.length := by simp; omega
        rw [← hlen] at hvs ⊢
        have hlt : rest.length < (c :: (word ++ rest)).length := by
          rw [List.length_cons, List.length_append]
          omega
        simpa using ih rest.length hlt (pre ++ c :: word) hvs rfl
      cases hc : Text.isBlank c with
      | true =>
        simp only [tokensFrom, hc, if_true] at h
        exact .blank (by simp) hc (next (List.nil_append cs).symm h)
      | false =>
        cases hl : lexeme c cs with
        | error o =>
          simp only [tokensFrom, hc, hl] at h
          cases h
        | ok l =>
          simp only [tokensFrom, hc, hl, Bool.false_eq_true, if_false] at h
          obtain ⟨word, rest, rfl, hlen, htakes⟩ := lexeme_takes hl
          obtain ⟨vs, hvs, h⟩ := bind_eq_ok.mp h
          rw [hlen, Nat.add_sub_cancel, tokensFrom_skip] at hvs
          have hlaid := next rfl hvs
          cases htakes with
          | token ht hword =>
            rw [ht] at h
            cases h
            refine .token (g := ⟨pre.length, pre.length + l.length⟩) ?_ ?_ ?_ ?_
            · dsimp only
              omega
            · dsimp only
              simp
              omega
            · simp [hlen, List.extract_eq_take_drop, tokens_word hc hword ht hlen]
            · rwa [hlen, ← Nat.add_assoc, Nat.add_right_comm]
          | comment ht hc hslash hline hend =>
            subst hc
            rw [ht] at h
            cases h
            exact .comment (comment_append hslash hline hend) hlaid

namespace Laid

theorem inside (h : Laid text n us) :
    ∀ u ∈ us, n ≤ u.span.start ∧ u.span.start < u.span.stop ∧ u.span.stop ≤ text.length := by
  induction h with
  | done => simp
  | blank _ _ _ ih =>
    intro u hu
    have hu := ih u hu
    omega
  | comment hg _ ih =>
    intro u hu
    have hu := ih u hu
    have hlong := hg.long
    omega
  | token hpos hstop _ _ ih =>
    refine List.forall_mem_cons.mpr ⟨⟨le_rfl, hpos, hstop⟩, ?_⟩
    intro u hu
    have hu := ih u hu
    omega

theorem ascending (h : Laid text n us) :
    us.Pairwise fun u v => u.span.start < v.span.start ∧ u.span.stop ≤ v.span.start := by
  induction h with
  | done => exact .nil
  | blank _ _ _ ih => exact ih
  | comment _ _ ih => exact ih
  | token hpos _ _ hrest ih =>
    refine List.pairwise_cons.mpr ⟨?_, ih⟩
    intro u hu
    have hu := hrest.inside u hu
    dsimp only
    omega

theorem between (h : Laid text n us) {i : Nat} (hn : n ≤ i) (hi : text[i]? = some c)
    (outside : ∀ u ∈ us, ¬ u.span.Covers i) :
    Text.isBlank c = true ∨ ∃ g, Comment text g ∧ g.Covers i ∧ n ≤ g.start ∧
      ∀ j, g.Covers j → ∀ u ∈ us, ¬ u.span.Covers j := by
  induction h with
  | done =>
    rw [List.getElem?_eq_none hn] at hi
    cases hi
  | @blank m d vs hd hblank _ ih =>
    obtain rfl | hlt := Nat.eq_or_lt_of_le hn
    · cases hd.symm.trans hi
      exact .inl hblank
    · refine (ih hlt outside).imp_right ?_
      rintro ⟨g, hg, hcovers, hstart, hapart⟩
      exact ⟨g, hg, hcovers, by omega, hapart⟩
  | @comment g vs hg hrest ih =>
    have hlong := hg.long
    by_cases hlt : i < g.stop
    · refine .inr ⟨g, hg, ⟨hn, hlt⟩, le_rfl, ?_⟩
      intro j hj u hu hcovers
      have hafter := hrest.inside u hu
      exact absurd hj.2 (by have := hcovers.1; omega)
    · refine (ih (by omega) outside).imp_right ?_
      rintro ⟨g', hg', hcovers, hstart, hapart⟩
      exact ⟨g', hg', hcovers, by omega, hapart⟩
  | @token t g vs hpos hstop _ _ ih =>
    rw [List.forall_mem_cons] at outside
    have hlt : g.stop ≤ i := by
      by_contra hlt
      exact outside.1 ⟨hn, by dsimp only; omega⟩
    refine (ih hlt outside.2).imp_right ?_
    rintro ⟨g', hg', hcovers, hstart, hapart⟩
    refine ⟨g', hg', hcovers, by omega, fun j hj => List.forall_mem_cons.mpr ⟨?_, hapart j hj⟩⟩
    intro hc
    exact absurd hc.2 (by have := hj.1; dsimp only; omega)

theorem alone (h : Laid text n us) :
    ∀ u ∈ us, tokens (text.extract u.span.start u.span.stop) =
      .ok [⟨u.node, ⟨0, u.span.stop - u.span.start⟩⟩] := by
  induction h with
  | done => simp
  | blank _ _ _ ih => exact ih
  | comment _ _ ih => exact ih
  | token _ _ htokens _ ih => exact List.forall_mem_cons.mpr ⟨htokens, ih⟩

end Laid

structure Lossless (text : List Char) (us : List (Spanned Token)) : Prop where
  /-- Each token takes some characters of the text. -/
  inside : ∀ u ∈ us, u.span.start < u.span.stop ∧ u.span.stop ≤ text.length
  ascending : us.Pairwise fun u v => u.span.start < v.span.start ∧ u.span.stop ≤ v.span.start
  /-- What no token takes is blank or belongs to a comment, of which no token takes anything. -/
  between : ∀ i c, text[i]? = some c → (∀ u ∈ us, ¬ u.span.Covers i) →
    Text.isBlank c = true ∨ ∃ g, Comment text g ∧ g.Covers i ∧
      ∀ j, g.Covers j → ∀ u ∈ us, ¬ u.span.Covers j
  /-- What a token takes is read as that one token. -/
  alone : ∀ u ∈ us, tokens (text.extract u.span.start u.span.stop) =
    .ok [⟨u.node, ⟨0, u.span.stop - u.span.start⟩⟩]

theorem tokens_lossless (h : tokens text = .ok us) : Lossless text us := by
  have hlaid : Laid text 0 us := by
    unfold tokens at h
    split at h
    case isTrue => cases h
    case isFalse => simpa using tokensFrom_laid [] h
  refine ⟨fun u hu => (hlaid.inside u hu).2, hlaid.ascending, ?_, hlaid.alone⟩
  intro i c hi outside
  refine (hlaid.between (Nat.zero_le i) hi outside).imp_right ?_
  rintro ⟨g, hg, hcovers, _, hapart⟩
  exact ⟨g, hg, hcovers, hapart⟩

def crowded : List Char := "a//\"\n 01\"//\"===".toList

def crowdedTokens : List (Spanned Token) :=
  [⟨.ident "a", ⟨0, 1⟩⟩, ⟨.int "0", ⟨6, 7⟩⟩, ⟨.int "1", ⟨7, 8⟩⟩, ⟨.str "//", ⟨8, 12⟩⟩,
    ⟨.sign .eq, ⟨12, 14⟩⟩, ⟨.sign .assign, ⟨14, 15⟩⟩]

theorem tokens_lossless_crowded :
    tokens crowded = .ok crowdedTokens ∧ Lossless crowded crowdedTokens := by
  have h : tokens crowded = .ok crowdedTokens := rfl
  exact ⟨h, tokens_lossless h⟩

end Lexer

end ViewUpkeep
