import ViewUpkeep.Text.Position
import ViewUpkeep.Text.Quoted

/-! The tokens of the query language and their spelling. -/
namespace ViewUpkeep

structure Spanned (α : Type) where
  node : α
  span : Text.Span
deriving DecidableEq

inductive Keyword where
  | relation | map | query | options | member
  | add | remove | set | unset | demand | undemand | display
  | true | false
  | and | or | not
deriving DecidableEq

namespace Keyword

def spelling : Keyword → String
  | .relation => "relation"
  | .map => "map"
  | .query => "query"
  | .options => "with"
  | .member => "in"
  | .add => "add"
  | .remove => "remove"
  | .set => "set"
  | .unset => "unset"
  | .demand => "demand"
  | .undemand => "undemand"
  | .display => "show"
  | .true => "true"
  | .false => "false"
  | .and => "and"
  | .or => "or"
  | .not => "not"

def all : List Keyword :=
  [.relation, .map, .query, .options, .member, .add, .remove, .set, .unset, .demand, .undemand,
    .display, .true, .false, .and, .or, .not]

def ofSpelling? (s : String) : Option Keyword := all.find? fun k => k.spelling = s

def opensStatement : Keyword → Bool
  | .relation | .map | .query | .add | .remove | .set | .unset | .demand | .undemand
  | .display => Bool.true
  | _ => Bool.false

end Keyword

inductive Sign where
  | lbrace | rbrace | lparen | rparen
  | colon | semicolon | comma
  | assign
  | eq | ne | le | ge | lt | gt
  | plus | minus | star
deriving DecidableEq

namespace Sign

def spelling : Sign → String
  | .lbrace => "\x7b"
  | .rbrace => "\x7d"
  | .lparen => "("
  | .rparen => ")"
  | .colon => ":"
  | .semicolon => ";"
  | .comma => ","
  | .assign => "="
  | .eq => "=="
  | .ne => "!="
  | .le => "<="
  | .ge => ">="
  | .lt => "<"
  | .gt => ">"
  | .plus => "+"
  | .minus => "-"
  | .star => "*"

end Sign

inductive Token where
  | keyword (k : Keyword)
  | ident (name : String)
  | int (digits : String)
  | str (text : String)
  | wildcard
  | sign (s : Sign)
deriving DecidableEq

namespace Token

def print : Token → String
  | .keyword k => k.spelling
  | .ident name => name
  | .int digits => digits
  | .str text => Text.quote text
  | .wildcard => "_"
  | .sign s => s.spelling

def ofWord (s : String) : Token :=
  if s = "_" then .wildcard
  else
    match Keyword.ofSpelling? s with
    | some k => .keyword k
    | none => .ident s

def opensStatement : Token → Bool
  | .keyword k => k.opensStatement
  | _ => false

end Token

end ViewUpkeep
