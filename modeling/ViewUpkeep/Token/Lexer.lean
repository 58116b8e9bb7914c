import ViewUpkeep.Text.Blank
import ViewUpkeep.Token

/-!
Reading tokens from characters. Blanks and comments, from two slashes to the end of the line, stand
between tokens. A text that cannot be read is reported at the first character that no token allows,
together with the characters that could have stood there.
-/
namespace ViewUpkeep

structure LexError where
  offset : Nat
  found : Option Char
  wanted : List Char
deriving DecidableEq

namespace LexError

def span (e : LexError) : Text.Span :=
  match e.found with
  | some _ => ⟨e.offset, e.offset + 1⟩
  | none => ⟨e.offset, e.offset⟩

def message (e : LexError) : String :=
  match e.found with
  | some c => "Unexpected '" ++ String.singleton c ++ "'"
  | none => "Unexpected end of input"

end LexError

namespace Lexer

def isIdentStart (c : Char) : Bool := c.isAlpha || c = '_'

def isIdentRest (c : Char) : Bool := c.isAlphanum || c = '_'

/-- The characters, in order of code point, that may open a token or a comment, apart from letters
and the digits after zero. -/
def tokenStarts : List Char :=
  ['!', '"', '(', ')', '*', '+', ',', '-', '/', '0', ':', ';', '<', '=', '>', '\x7b', '\x7d']

def escapes : List Char := ['"', '\\', 'n', 't']

def unescape : Char → Option Char
  | '\\' => some '\\'
  | '"' => some '"'
  | 'n' => some '\n'
  | 't' => some '\t'
  | _ => none

/-- What stops a token: how many characters were read, and what could have come next. -/
structure Obstacle where
  read : Nat
  wanted : List Char

def stringRest : List Char → Except Obstacle (List Char × Nat)
  | [] => .error ⟨0, ['"', '\\']⟩
  | '"' :: _ => .ok ([], 1)
  | '\\' :: [] => .error ⟨1, escapes⟩
  | '\\' :: c :: cs =>
    match unescape c with
    | none => .error ⟨1, escapes⟩
    | some d =>
      match stringRest cs with
      | .ok (text, n) => .ok (d :: text, n + 2)
      | .error o => .error ⟨o.read + 2, o.wanted⟩
  | c :: cs =>
    match stringRest cs with
    | .ok (text, n) => .ok (c :: text, n + 1)
    | .error o => .error ⟨o.read + 1, o.wanted⟩

structure Lexeme where
  token : Option Token
  length : Nat

def Lexeme.ofSign (s : Sign) : Lexeme := ⟨some (.sign s), s.spelling.length⟩

/-- A sign that a following equals sign turns into another one. -/
def orEqual (short long : Sign) (rest : List Char) : Lexeme :=
  if rest.head? = some '=' then .ofSign long else .ofSign short

def lexeme (c : Char) (rest : List Char) : Except Obstacle Lexeme :=
  if isIdentStart c then
    let word := c :: rest.takeWhile isIdentRest
    .ok ⟨some (.ofWord (String.ofList word)), word.length⟩
  else if c = '0' then .ok ⟨some (.int "0"), 1⟩
  else if c.isDigit then
    let digits := c :: rest.takeWhile Char.isDigit
    .ok ⟨some (.int (String.ofList digits)), digits.length⟩
  else
    match c with
    | '"' =>
      match stringRest rest with
      | .ok (text, n) => .ok ⟨some (.str (String.ofList text)), n + 1⟩
      | .error o => .error ⟨o.read + 1, o.wanted⟩
    | '/' =>
      if rest.head? = some '/' then .ok ⟨none, (rest.takeWhile (· ≠ '\n')).length + 1⟩
      else .error ⟨1, ['/']⟩
    | '!' => if rest.head? = some '=' then .ok (.ofSign .ne) else .error ⟨1, ['=']⟩
    | '=' => .ok (orEqual .assign .eq rest)
    | '<' => .ok (orEqual .lt .le rest)
    | '>' => .ok (orEqual .gt .ge rest)
    | '\x7b' => .ok (.ofSign .lbrace)
    | '\x7d' => .ok (.ofSign .rbrace)
    | '(' => .ok (.ofSign .lparen)
    | ')' => .ok (.ofSign .rparen)
    | ':' => .ok (.ofSign .colon)
    | ';' => .ok (.ofSign .semicolon)
    | ',' => .ok (.ofSign .comma)
    | '+' => .ok (.ofSign .plus)
    | '-' => .ok (.ofSign .minus)
    | '*' => .ok (.ofSign .star)
    | _ => .error ⟨0, tokenStarts⟩

/-- The tokens of a text that starts at an offset, of whose first characters `skip` are already
part of the token before. -/
def tokensFrom (offset skip : Nat) : List Char → Except LexError (List (Spanned Token))
  | [] => .ok []
  | c :: cs =>
    match skip with
    | skip + 1 => tokensFrom (offset + 1) skip cs
    | 0 =>
      if Text.isBlank c then tokensFrom (offset + 1) 0 cs
      else
        match lexeme c cs with
        | .error o => .error ⟨offset + o.read, (c :: cs)[o.read]?, o.wanted⟩
        | .ok l => do
          let rest ← tokensFrom (offset + 1) (l.length - 1) cs
          match l.token with
          | some t => .ok (⟨t, ⟨offset, offset + l.length⟩⟩ :: rest)
          | none => .ok rest

/-- The tokens of a text. Blanks alone are not a text: something has to follow them. -/
def tokens (text : List Char) : Except LexError (List (Spanned Token)) :=
  if !text.isEmpty && text.all Text.isBlank then .error ⟨text.length, none, tokenStarts⟩
  else tokensFrom 0 0 text

end Lexer

end ViewUpkeep
