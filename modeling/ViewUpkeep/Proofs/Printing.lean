import ViewUpkeep.Proofs.Spelling

/-!
The tokens of printed terms. A printed term spells one list of tokens, unless it has a text with a
character that is quoted by its code point; such a text cannot be read at all.
-/
namespace ViewUpkeep

open Lexer

namespace Operator

def token : Operator → Token
  | .eq => .sign .eq
  | .ne => .sign .ne
  | .lt => .sign .lt
  | .le => .sign .le
  | .gt => .sign .gt
  | .ge => .sign .ge
  | .and => .keyword .and
  | .or => .keyword .or
  | .add => .sign .plus
  | .sub => .sign .minus
  | .mul => .sign .star

@[simp] theorem operator?_token (op : Operator) : op.token.operator? = some op := by
  cases op <;> rfl

theorem scan_symbol (op : Operator) (rest : List Char) :
    scan (op.symbol.toList ++ ' ' :: rest) = (scan rest).map (op.token :: ·) := by
  have hsign : ∀ s : Sign, scan (s.spelling.toList ++ ' ' :: rest) =
      (scan rest).map (.sign s :: ·) := by
    intro s
    rw [scan_sign s (by simp), scan_space]
  have hkeyword : ∀ k : Keyword, scan (k.spelling.toList ++ ' ' :: rest) =
      (scan rest).map (.keyword k :: ·) := by
    intro k
    rw [scan_keyword k (delimited_cons.mpr rfl), scan_space]
  cases op with
  | eq => exact hsign .eq
  | ne => exact hsign .ne
  | lt => exact hsign .lt
  | le => exact hsign .le
  | gt => exact hsign .gt
  | ge => exact hsign .ge
  | and => exact hkeyword .and
  | or => exact hkeyword .or
  | add => exact hsign .plus
  | sub => exact hsign .minus
  | mul => exact hsign .star

end Operator

namespace Term

def integerTokens : Int → List Token
  | .ofNat n => [.int (toString n)]
  | .negSucc n => [.sign .minus, .int (toString (n + 1))]

mutual

def tokens : Term → List Token
  | .var name => [.ident name]
  | .wildcard => [.wildcard]
  | .int n => integerTokens n.toInt
  | .str s => [.str s]
  | .bool b => [.keyword (if b then .true else .false)]
  | .tuple items => itemTokens items
  | .not t => .keyword .not :: .sign .lparen :: (t.tokens ++ [.sign .rparen])
  | .neg t => .sign .minus :: .sign .lparen :: (t.tokens ++ [.sign .rparen])
  | .binary op l r => .sign .lparen :: (l.tokens ++ op.token :: (r.tokens ++ [.sign .rparen]))

def itemTokens : List Term → List Token
  | [] => [.sign .lparen, .sign .rparen]
  | [t] => .sign .lparen :: (t.tokens ++ [.sign .comma, .sign .rparen])
  | t :: ts => .sign .lparen :: (t.tokens ++ tailTokens ts ++ [.sign .rparen])

def tailTokens : List Term → List Token
  | [] => []
  | t :: ts => .sign .comma :: (t.tokens ++ tailTokens ts)

end

mutual

def everywhere (p : Term → Bool) : Term → Bool
  | .tuple items => p (.tuple items) && allEverywhere p items
  | .not t => p (.not t) && t.everywhere p
  | .neg t => p (.neg t) && t.everywhere p
  | .binary op l r => p (.binary op l r) && l.everywhere p && r.everywhere p
  | t => p t

def allEverywhere (p : Term → Bool) : List Term → Bool
  | [] => true
  | t :: ts => t.everywhere p && allEverywhere p ts

end

def isNamed : Term → Bool
  | .var name => isName name
  | _ => true

def isReadable : Term → Bool
  | .str s => s.toList.all Lexer.isReadable
  | _ => true

/-! ### The tokens of a printed term -/

def written (ok : Bool) (ts : List Token) (rest : Option (List Token)) : Option (List Token) :=
  if ok then rest.map (ts ++ ·) else none

@[simp] theorem map_cons_written (t : Token) (ok : Bool) (ts : List Token)
    (rest : Option (List Token)) :
    (written ok ts rest).map (t :: ·) = written ok (t :: ts) rest := by
  cases ok <;> simp [written, Function.comp_def]

@[simp] theorem written_map_cons (t : Token) (ok : Bool) (ts : List Token)
    (rest : Option (List Token)) :
    written ok ts (rest.map (t :: ·)) = written ok (ts ++ [t]) rest := by
  cases ok <;> simp [written, Function.comp_def]

@[simp] theorem written_written (ok ok' : Bool) (ts us : List Token)
    (rest : Option (List Token)) :
    written ok ts (written ok' us rest) = written (ok && ok') (ts ++ us) rest := by
  cases ok <;> cases ok' <;> simp [written, Function.comp_def]

theorem scan_printInt (n : Int64) {rest : List Char} (hrest : Delimited rest) :
    scan ((Value.printInt n).toList ++ rest) = (scan rest).map (integerTokens n.toInt ++ ·) := by
  unfold Value.printInt
  cases n.toInt with
  | ofNat m => exact scan_nat m hrest
  | negSucc m =>
    have hchars : (toString (Int.negSucc m)).toList = '-' :: (toString (m + 1)).toList :=
      String.toList_append
    rw [hchars, List.cons_append, scan_minus, scan_nat (m + 1) hrest, Option.map_map]
    rfl

theorem toList_printTail_cons (t : Term) (ts : List Term) (rest : List Char) :
    (printTail (t :: ts)).toList ++ rest =
      ',' :: ' ' :: (t.print.toList ++ ((printTail ts).toList ++ rest)) := by
  simp [printTail]

theorem delimited_printTail (ts : List Term) {rest : List Char} (hrest : Delimited rest) :
    Delimited ((printTail ts).toList ++ rest) := by
  cases ts with
  | nil => exact hrest
  | cons t ts =>
    rw [toList_printTail_cons]
    exact delimited_cons.mpr rfl

mutual

/-- A printed term spells its tokens, unless it has a text that cannot be read back. -/
theorem scan_print (t : Term) (hn : t.everywhere isNamed = true) (rest : List Char)
    (hrest : Delimited rest) :
    scan (t.print.toList ++ rest) = written (t.everywhere isReadable) t.tokens (scan rest) := by
  -- The rest is any that ends a word: a sign, a blank or the end, whatever stands around the term.
  match t with
  | .var name => exact scan_name hn hrest
  | .wildcard => exact scan_wildcard hrest
  | .int n => exact scan_printInt n hrest
  | .str s => exact scan_quote s rest
  | .bool true => exact scan_keyword .true hrest
  | .bool false => exact scan_keyword .false hrest
  | .tuple items => exact scan_printItems items (by simpa [everywhere, isNamed] using hn) rest
  | .not t =>
    simp only [everywhere, isNamed, isReadable, Bool.true_and] at hn ⊢
    have hchars : (Term.not t).print.toList ++ rest =
        Keyword.not.spelling.toList ++ ' ' :: '(' :: (t.print.toList ++ ')' :: rest) := by
      simp [print, Keyword.spelling]
    rw [hchars, scan_keyword .not (delimited_cons.mpr rfl), scan_space, scan_lparen,
      scan_print t hn _ (delimited_cons.mpr rfl), scan_rparen]
    simp [tokens]
  | .neg t =>
    simp only [everywhere, isNamed, isReadable, Bool.true_and] at hn ⊢
    have hchars : (Term.neg t).print.toList ++ rest =
        '-' :: '(' :: (t.print.toList ++ ')' :: rest) := by
      simp [print]
    rw [hchars, scan_minus, scan_lparen, scan_print t hn _ (delimited_cons.mpr rfl), scan_rparen]
    simp [tokens]
  | .binary op l r =>
    simp only [everywhere, isNamed, isReadable, Bool.true_and, Bool.and_eq_true] at hn ⊢
    have hchars : (Term.binary op l r).print.toList ++ rest =
        '(' :: (l.print.toList ++ ' ' :: (op.symbol.toList ++ ' ' ::
          (r.print.toList ++ ')' :: rest))) := by
      simp [print]
    rw [hchars, scan_lparen, scan_print l hn.1 _ (delimited_cons.mpr rfl), scan_space,
      op.scan_symbol, scan_print r hn.2 _ (delimited_cons.mpr rfl), scan_rparen]
    simp [tokens]

theorem scan_printItems (ts : List Term) (hn : allEverywhere isNamed ts = true)
    (rest : List Char) :
    scan ((printItems ts).toList ++ rest) =
      written (allEverywhere isReadable ts) (itemTokens ts) (scan rest) := by
  match ts with
  | [] =>
    have hchars : (printItems []).toList ++ rest = '(' :: ')' :: rest := by simp [printItems]
    rw [hchars, scan_lparen, scan_rparen, Option.map_map]
    rfl
  | [t] =>
    have hchars : (printItems [t]).toList ++ rest =
        '(' :: (t.print.toList ++ ',' :: ')' :: rest) := by
      simp [printItems]
    simp only [allEverywhere, Bool.and_true] at hn ⊢
    rw [hchars, scan_lparen, scan_print t hn _ (delimited_cons.mpr rfl), scan_comma, scan_rparen]
    simp [itemTokens, -Option.map_map]
  | t :: u :: us =>
    have hchars : (printItems (t :: u :: us)).toList ++ rest =
        '(' :: (t.print.toList ++ ((printTail (u :: us)).toList ++ ')' :: rest)) := by
      simp [printItems]
    rw [allEverywhere, Bool.and_eq_true] at hn
    have hall : allEverywhere isReadable (t :: u :: us) =
        (t.everywhere isReadable && allEverywhere isReadable (u :: us)) := rfl
    have hclose : Delimited (')' :: rest) := delimited_cons.mpr rfl
    rw [hchars, hall, scan_lparen, scan_print t hn.1 _ (delimited_printTail _ hclose),
      scan_printTail (u :: us) hn.2 _ hclose, scan_rparen]
    simp [itemTokens]

theorem scan_printTail (ts : List Term) (hn : allEverywhere isNamed ts = true) (rest : List Char)
    (hrest : Delimited rest) :
    scan ((printTail ts).toList ++ rest) =
      written (allEverywhere isReadable ts) (tailTokens ts) (scan rest) := by
  match ts with
  | [] => simp [printTail, written, allEverywhere, tailTokens]
  | t :: ts =>
    simp only [allEverywhere, Bool.and_eq_true] at hn ⊢
    rw [toList_printTail_cons, scan_comma, scan_space,
      scan_print t hn.1 _ (delimited_printTail ts hrest), scan_printTail ts hn.2 rest hrest]
    simp [tailTokens]

end

end Term

end ViewUpkeep
