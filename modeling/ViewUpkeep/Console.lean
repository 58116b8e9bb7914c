import ViewUpkeep.Console.Command
import ViewUpkeep.Program.Explain
import ViewUpkeep.Session
import ViewUpkeep.Statement.Grammar
import ViewUpkeep.Term.Constant

/-!
The console: statements entered one after the other. Declarations add up to a program; each of them
starts a new session, which takes over the rows of the base relations and the demands. Lines are
collected until they make up complete statements.
-/
namespace ViewUpkeep

structure Console where
  settings : Settings
  declarations : Script
  session : Session
  /-- The lines that wait for more. -/
  buffer : String
  /-- How many brackets are open in them. -/
  depth : Int32

namespace Console

def start (settings : Settings) : Console := ⟨settings, [], .ofProgram .empty, "", 0⟩

def reset (c : Console) : Console := start c.settings

/-! ### Lines -/

inductive Entry where
  | command (c : Command)
  | input (text : String)
  | incomplete
  | empty
  | breach (b : Breach)
deriving DecidableEq

def withoutComment : List Char → List Char
  | [] => []
  | '/' :: '/' :: _ => []
  | c :: cs => c :: withoutComment cs

def bracket : Char → Int
  | '\x7b' | '(' => 1
  | '\x7d' | ')' => -1
  | _ => 0

def countBracket (depth : Int32) (c : Char) : Except Breach Int32 :=
  let n := depth.toInt + bracket c
  if 2147483647 < n then .error .depthOverflow
  else if n < -2147483648 then .error .depthUnderflow
  else .ok (Int32.ofInt n)

/-- Adds a line to those that wait. A command stands alone on its line. The lines are complete when
no bracket is open and the last one ends with a semicolon. -/
def enter (c : Console) (line : String) : Console × Entry :=
  let trimmed := Text.trim line.toList
  if trimmed.isEmpty then (c, if c.buffer.isEmpty then .empty else .incomplete)
  else if trimmed.head? = some ':' && c.buffer.isEmpty then
    (c, .command (.ofText (String.ofList trimmed)))
  else
    let buffer := if c.buffer.isEmpty then line else c.buffer ++ "\n" ++ line
    let code := Text.trimRight (withoutComment trimmed)
    match code.foldlM countBracket c.depth with
    | .error b => (c, .breach b)
    | .ok depth =>
      if depth ≤ 0 && code.getLast? = some ';' then
        ({ c with buffer := "", depth := 0 }, .input buffer)
      else ({ c with buffer, depth }, .incomplete)

def submit (c : Console) : Console × Option String :=
  if c.buffer.isEmpty then (c, none) else ({ c with buffer := "", depth := 0 }, some c.buffer)

/-! ### Statements -/

/-- Why a statement has no result. A breach is no answer to it: the program breaks off. -/
inductive Failure where
  | constant (e : ConstantError)
  | compile (e : CompileError)
  | runtime (e : RuntimeError)
  | unknownName (name : String)
  | breach (b : Breach)
deriving DecidableEq

namespace Failure

def message : Failure → String
  | .constant e => e.message
  | .compile e => e.message
  | .runtime e => e.message
  | .unknownName name => "unknown relation or query " ++ name
  | .breach b => b.message

def ofCompile : CompileError → Failure
  | .breach b => .breach b
  | e => .compile e

def ofRuntime : RuntimeError → Failure
  | .breach b => .breach b
  | e => .runtime e

end Failure

inductive Result where
  | declared (kind name : String)
  | changed (what : String) (effective : Bool)
  | rows (name : String) (rows : List Row)
deriving DecidableEq

def printCount (name : String) (n : Nat) : String :=
  name ++ ": " ++ toString n ++ (if n = 1 then " row" else " rows")

def Result.print : Result → String
  | .declared kind name => "Defined " ++ kind ++ " " ++ name
  | .changed what effective => if effective then what else what ++ " (no change)"
  | .rows name found =>
    printCount name found.length ++ "\n" ++ String.join (found.map fun r => "  " ++ r.print ++ "\n")

def addRows (s : Session) : List (String × Row) → Except RuntimeError Session
  | [] => .ok s
  | (rel, row) :: rest =>
    match s.add rel row with
    | (_, .error e) => .error e
    | (s, .ok _) => addRows s rest

def addDemands (s : Session) : List (String × Row) → Except RuntimeError Session
  | [] => .ok s
  | (query, params) :: rest =>
    match s.demand query params with
    | (_, .error e) => .error e
    | (s, .ok ()) => addDemands s rest

/-- A session for a program with the base rows and the demands of another session. -/
def carryOver (p : Program) (s : Session) : Except RuntimeError Session := do
  let bases := s.store.relations.filter (·.info.origin.isBase)
  let new ← addRows (.ofProgram p) (bases.flatMap fun r => r.sortedRows.map (r.name, ·))
  addDemands new (s.userDemands.flatMap fun d => List.replicate d.2 d.1)

/-- Adds a declaration; if that fails, nothing changes. -/
def declare (c : Console) (s : Spanned Statement) (kind name : String) :
    Console × Except Failure Result :=
  let declarations := c.declarations ++ [s]
  match Program.ofScript ⟨c.settings, .silent⟩ declarations with
  | .error e => (c, .error (.ofCompile e))
  | .ok p =>
    match p.breach? with
    | some b => (c, .error (.breach b))
    | none =>
      match carryOver p c.session with
      | .error e => (c, .error (.ofRuntime e))
      | .ok session => ({ c with declarations, session }, .ok (.declared kind name))

def conclude (c : Console) (r : Session.Outcome α) (say : α → Result) :
    Console × Except Failure Result :=
  ({ c with session := r.1 }, match r.2 with
    | .ok a => .ok (say a)
    | .error e => .error (.ofRuntime e))

def withConstants (c : Console) (ts : List Term) (k : Row → Console × Except Failure Result) :
    Console × Except Failure Result :=
  match Term.constants ts with
  | .error e => (c, .error (.constant e))
  | .ok row => k row

def display (c : Console) (name : String) : Except Failure Result :=
  match c.session.program.query? name with
  | some _ =>
    match c.session.results name with
    | .ok rows => .ok (.rows name rows)
    | .error e => .error (.ofRuntime e)
  | none =>
    match c.session.store.get? name with
    | some r => .ok (.rows name r.sortedRows)
    | none => .error (.unknownName name)

def executeStatement (c : Console) (s : Spanned Statement) : Console × Except Failure Result :=
  match s.node with
  | .relation name _ => c.declare s "relation" name
  | .map name _ => c.declare s "map" name
  | .query d => c.declare s "query" d.name
  | .add rel args => c.withConstants args fun row =>
    c.conclude (c.session.add rel row) (.changed ("add " ++ rel ++ row.print))
  | .remove rel args => c.withConstants args fun row =>
    c.conclude (c.session.remove rel row) (.changed ("remove " ++ rel ++ row.print))
  | .set map keys t => c.withConstants keys fun key =>
    match t.constant with
    | .error e => (c, .error (.constant e))
    | .ok value => c.conclude (c.session.assign map key value)
        (.changed ("set " ++ map ++ key.print ++ " = " ++ value.print))
  | .unset map keys => c.withConstants keys fun key =>
    c.conclude (c.session.unassign map key) (.changed ("unset " ++ map ++ key.print))
  | .demand query args => c.withConstants args fun row =>
    c.conclude (c.session.demand query row) fun _ => .changed ("demand " ++ query ++ row.print) true
  | .undemand query args => c.withConstants args fun row =>
    c.conclude (c.session.undemand query row) fun _ =>
      .changed ("undemand " ++ query ++ row.print) true
  | .display name none => (c, c.display name)
  | .display name (some args) => c.withConstants args fun row =>
    c.conclude (c.session.query name row) (.rows name)

inductive ExecuteError where
  | source (e : SourceError)
  | statement (span : Text.Span) (e : Failure)
deriving DecidableEq

namespace ExecuteError

def span : ExecuteError → Text.Span
  | .source e => e.span
  | .statement s _ => s

def title : ExecuteError → String
  | .source e => e.title
  | .statement .. => "Error"

def message : ExecuteError → String
  | .source e => e.message
  | .statement _ e => e.message

def position (e : ExecuteError) (text : String) : Text.Position := .ofOffset text.toList e.span.start

/-- Whether a report can mark the stretch of an error in its text. The stretch is cut to the bytes of
the text; if it still ends after the last character, there is nothing to mark. -/
def isMarked (e : ExecuteError) (text : String) : Bool :=
  min e.span.stop text.utf8ByteSize ≤ text.length

/-- The error with its place, on one line. The message stands beside the mark, and goes with it. -/
def report (e : ExecuteError) (text : String) : String :=
  "Error: " ++ e.title ++ " at " ++ (e.position text).print ++ ": " ++
    if e.isMarked text then e.message else ""

def breach? : ExecuteError → Option Breach
  | .statement _ (.breach b) => some b
  | _ => none

end ExecuteError

/-- Executes statements up to the first that fails; what was done before it stays. -/
def executeAll (c : Console) : Script → Console × Except ExecuteError (List Result)
  | [] => (c, .ok [])
  | s :: rest =>
    match c.executeStatement s with
    | (c, .error e) => (c, .error (.statement s.span e))
    | (c, .ok result) =>
      let (c, more) := c.executeAll rest
      (c, more.map (result :: ·))

def execute (c : Console) (text : String) : Console × Except ExecuteError (List Result) :=
  match Script.ofText text with
  | .error e => (c, .error (.source e))
  | .ok script => c.executeAll script

/-! ### Summaries -/

def kindOf (info : RelationInfo) : String :=
  match info.origin, info.kind with
  | .base, .set => "relation"
  | .base, .map _ => "map"
  | .result _, _ => "result"
  | .demandSet _, _ => "demand set"
  | .tag .., _ => "tag"
  | .filter .., _ => "filter"

structure RelationSummary where
  name : String
  arity : Nat
  kind : String
  counted : Bool
  rows : Nat
deriving DecidableEq, Repr

def relations (c : Console) : List RelationSummary :=
  c.session.store.relations.map fun r =>
    ⟨r.info.name, r.info.arity, kindOf r.info, r.info.counted, r.size⟩

structure QuerySummary where
  name : String
  params : List String
  mode : String
  supports : Nat
  handlers : Nat
deriving DecidableEq, Repr

def queries (c : Console) : List QuerySummary :=
  c.session.program.queries.map fun q =>
    ⟨q.name, q.params.map (·.name), q.mode.print, q.supports.length, q.handlers.length⟩

def explain (c : Console) (query : String) : Option String := c.session.program.explain query

def countedRows (c : Console) (name : String) : Option (List (Row × Nat)) :=
  (c.session.store.get? name).map Relation.sortedCounts

end Console

end ViewUpkeep
