import ViewUpkeep.Statement
import ViewUpkeep.Term.Grammar
import ViewUpkeep.Token.Lexer

/-! The grammar of statements, and reading a source text. -/
namespace ViewUpkeep

namespace Statement.Grammar

open Reader Term.Grammar

/-- Counts fit in 64 bits without a sign. -/
def count : Reader Nat :=
  number (fun cs => (Text.natural? cs).filter (· ≤ 18446744073709551615)) .count

def args : Reader (List Term) := between .lparen .rparen (commaTerminated term)

def range : Reader Range :=
  (do return .singleton (← between .lbrace .rbrace term) : Reader Range).or do
    let name ← ident
    let args ← optional args
    return .named name args

def clause : Reader (Spanned ClauseTerm) :=
  spanned do
    let t ← term
    match ← optional (do keyword .member; range) with
    | some r => return .member t r
    | none => return .cond t

def optionValue : Reader String := token fun
  | .ident s => some s
  | .int digits => some digits
  | .keyword .true => some "true"
  | .keyword .false => some "false"
  | _ => none

def option : Reader (String × String) := do
  let name ← ident
  sign .assign
  let value ← optionValue
  return (name, value)

def params : Reader (List String) := between .lparen .rparen (commaSeparated ident)

def comprehension : Reader (Spanned Term × List (Spanned ClauseTerm)) :=
  between .lbrace .rbrace do
    let result ← spanned term
    sign .colon
    let clauses ← commaTerminated clause
    return (result, clauses)

def query : Reader Statement := do
  keyword .query
  let name ← ident
  let params ← optional params
  sign .assign
  let (result, clauses) ← comprehension
  let options ← optional (do keyword .options; commaSeparated1 option)
  return .query ⟨name, params.getD [], result, clauses, options.getD []⟩

def declaration (k : Keyword) (make : String → Nat → Statement) : Reader Statement := do
  keyword k
  let name ← ident
  let n ← between .lparen .rparen count
  return make name n

def command (k : Keyword) (make : String → List Term → Statement) : Reader Statement := do
  keyword k
  let name ← ident
  let args ← args
  return make name args

def assignment : Reader Statement := do
  keyword .set
  let map ← ident
  let keys ← args
  sign .assign
  let value ← term
  return .set map keys value

def display : Reader Statement := do
  keyword .display
  let name ← ident
  let args ← optional args
  return .display name args

def statement : Reader Statement := do
  let s ← choice [declaration .relation .relation, declaration .map .map, query,
    command .add .add, command .remove .remove, assignment, command .unset .unset,
    command .demand .demand, command .undemand .undemand, display]
  sign .semicolon
  return s

def script : Reader Script := many (spanned statement)

end Statement.Grammar

inductive SourceError where
  | lex (e : LexError)
  | parse (e : ParseError)
deriving DecidableEq

namespace SourceError

def span : SourceError → Text.Span
  | .lex e => e.span
  | .parse e => e.span

def message : SourceError → String
  | .lex e => e.message
  | .parse e => e.message

def title : SourceError → String
  | .lex _ => "Lexical error"
  | .parse _ => "Parse error"

end SourceError

def Reader.readText (p : Reader α) (text : String) : Except SourceError α :=
  match Lexer.tokens text.toList with
  | .error e => .error (.lex e)
  | .ok ts =>
    match p.readAll text.length ts with
    | .error e => .error (.parse e)
    | .ok a => .ok a

def Script.ofText (text : String) : Except SourceError Script :=
  Statement.Grammar.script.readText text

def Term.ofText (text : String) : Except SourceError Term := Term.Grammar.term.readText text

end ViewUpkeep
