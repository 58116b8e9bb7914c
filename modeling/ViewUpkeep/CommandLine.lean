import ViewUpkeep.Console
import ViewUpkeep.Directory
import ViewUpkeep.Text.Backspace
import ViewUpkeep.Text.Lines

/-!
The program as it is run from a command line: its arguments, the files that it loads, and the lines
that it reads. What it writes is a list of pieces of text for the two output channels.
-/
namespace ViewUpkeep.CommandLine

inductive Channel where
  | standard
  | errors
deriving DecidableEq, Repr

structure Output where
  channel : Channel
  text : String
deriving DecidableEq, Repr

def say (line : String) : Output := ⟨.standard, line ++ "\n"⟩

def warn (line : String) : Output := ⟨.errors, line ++ "\n"⟩

def textOf (channel : Channel) (out : List Output) : String :=
  String.join ((out.filter (·.channel = channel)).map (·.text))

/-! ### Arguments -/

def version : String := "ivmc v0.1.0"

def banner : String := version ++ " - Incremental view maintenance REPL"

def usage : List String :=
  [banner,
    "",
    "Usage: ivmc [OPTIONS] [source_files...]",
    "",
    "Options:",
    "  --explain        Print maintenance code for each query after loading",
    "  -h, --help       Show this help message",
    "  -v, --version    Show version",
    "",
    "Environment:",
    "  IVMC_SELFJOIN     Default self-join strategy",
    "  IVMC_RC           Default reference counting (yes, no, safe)",
    "  IVMC_IMPL         Default implementation (batch, inc, dem)",
    "  IVMC_FILTERS      Default for demand filters (on, off)",
    "  IVMC_INSTRUMENT   Check maintained results after every change",
    "  RUST_LOG          Log filter (default: ivmc=info)"]

inductive Request where
  /-- To write something and to end with an exit code. -/
  | stop (exit : Nat) (out : List Output)
  | run (explain : Bool) (files : List String)
deriving DecidableEq, Repr

/-- Reads the arguments in order; the first that asks to stop decides. -/
def readArguments (explain : Bool) (files : List String) : List String → Request
  | [] => .run explain files
  | arg :: rest =>
    if arg = "--explain" then readArguments true files rest
    else if arg = "-h" || arg = "--help" then .stop 0 (usage.map say)
    else if arg = "-v" || arg = "--version" then .stop 0 [say version]
    else if arg.toList.head? = some '-' then
      .stop 1 [warn ("Error: Unknown option '" ++ arg ++ "'"),
        warn "Try 'ivmc --help' for usage information"]
    else readArguments explain (files ++ [arg]) rest

def Request.ofArguments (args : List String) : Request := readArguments false [] args

/-! ### Commands -/

def generalHelp : List String :=
  ["ivmc REPL Commands:",
    "",
    "  :help [topic]     Show help (topics: syntax, options)",
    "  :quit             Exit the REPL",
    "  :list             List relations and queries",
    "  :explain <query>  Show the maintenance code of a query",
    "  :relation <name>  Show the rows of a relation with their counts",
    "  :source <file>    Load and execute a file",
    "  :reset            Reset all state",
    "",
    "Enter declarations and commands directly, each ending with ';'.",
    "Multi-line input is supported - brackets are matched automatically."]

def syntaxHelp : List String :=
  ["Syntax:",
    "",
    "  relation Edge(2);",
    "  map Weight(1);",
    "  query Path = \x7b(x, z) : (x, y) in Edge, (y, z) in Edge\x7d;",
    "  query Out(x) = \x7by : (x, y) in Edge\x7d with impl = dem;",
    "",
    "  add Edge(1, 2);        remove Edge(1, 2);",
    "  set Weight(1) = 10;    unset Weight(1);",
    "  demand Out(1);         undemand Out(1);",
    "  show Path;             show Out(1);"]

def optionsHelp : List String :=
  ["Query options (with name = value, ...):",
    "",
    "  impl       batch | inc | dem",
    "  selfjoin   sub | aug | das | assume_disjoint | assume_disjoint_verify",
    "  rc         yes | no | safe",
    "  filters    on | off",
    "  instrument on | off"]

def help (topic : Option String) : List String :=
  match topic with
  | none => generalHelp
  | some t =>
    if t = "syntax" then syntaxHelp
    else if t = "options" then optionsHelp
    else ["Unknown help topic: " ++ t, "Available topics: syntax, options"]

def relationLine (r : Console.RelationSummary) : String :=
  "  " ++ r.name ++ "/" ++ toString r.arity ++ " (" ++ r.kind ++
    (if r.counted then ", counted" else "") ++ ") - " ++ toString r.rows ++ " rows"

def queryLine (q : Console.QuerySummary) : String :=
  "  " ++ q.name ++ "(" ++ ", ".intercalate q.params ++ ") impl=" ++ q.mode ++ " - " ++
    toString q.supports ++ " structures, " ++ toString q.handlers ++ " handlers"

def headed (heading : String) (lines : List String) : List String :=
  if lines.isEmpty then [] else heading :: lines

def listing (c : Console) : List String :=
  let lines := headed "Relations:" (c.relations.map relationLine) ++
    headed "Queries:" (c.queries.map queryLine)
  if lines.isEmpty then ["Nothing declared yet."] else lines

def explanation (c : Console) (query : String) : Output :=
  match c.explain query with
  | some text => say text
  | none => warn ("Unknown query: " ++ query)

def countedLine (row : Row) (count : Nat) : String :=
  "  " ++ row.print ++ (if count = 1 then "" else "  x" ++ toString count)

def relationRows (c : Console) (name : String) : List Output :=
  match c.countedRows name with
  | none => [warn ("Unknown relation: " ++ name)]
  | some rows =>
    say (Console.printCount name rows.length) :: rows.map fun (row, n) => say (countedLine row n)

def resultOutput (r : Console.Result) : Output :=
  match r with
  | .rows .. => ⟨.standard, r.print⟩
  | _ => say r.print

/-! ### Turns -/

/-- What one thing to do led to; with an exit code the program ends. -/
structure Turn where
  console : Console
  out : List Output
  exit : Option Nat

/-- Executes a text. A breach ends the program. -/
def execute (c : Console) (text : String) : Turn :=
  match c.execute text with
  | (c, .ok results) => ⟨c, results.map resultOutput, none⟩
  | (c, .error e) =>
    match e.breach? with
    | some b => ⟨c, [warn b.message], some 101⟩
    | none => ⟨c, [warn (e.report text)], none⟩

def executeInput (c : Console) (text : String) : Turn :=
  let t := execute c text
  if t.console.session.poisoned && t.exit.isNone then
    { t with out := t.out ++ [warn "Session is inconsistent; use :reset to start over"] }
  else t

abbrev Files := String → Except FileError String

def load (files : Files) (c : Console) (path : String) : Turn :=
  let heading := say ("Loading " ++ path ++ "...")
  match files path with
  | .error e => ⟨c, [heading, warn ("cannot read " ++ path ++ ": " ++ e.message)], none⟩
  | .ok text =>
    let t := execute c text
    { t with out := heading :: t.out }

def obey (files : Files) (c : Console) (command : Command) : Turn :=
  match command with
  | .help topic => ⟨c, (help topic).map say, none⟩
  | .quit => ⟨c, [say "Goodbye!"], some 0⟩
  | .list => ⟨c, (listing c).map say, none⟩
  | .explain query => ⟨c, [explanation c query], none⟩
  | .relation name => ⟨c, relationRows c name, none⟩
  | .source path => load files c path
  | .reset => ⟨c.reset, [say "State reset."], none⟩
  | .missingArgument _ | .unknown _ =>
    ⟨c, [warn (command.complaint?.getD ""), warn "Type :help for available commands"], none⟩

def takeLine (files : Files) (c : Console) (line : String) : Turn :=
  match c.enter line with
  | (c, .command command) => obey files c command
  | (c, .input text) => executeInput c text
  | (c, .incomplete) | (c, .empty) => ⟨c, [], none⟩
  | (c, .breach b) => ⟨c, [warn b.message], some 101⟩

def wanted (c : Console) (line : String) : Option String :=
  match (c.enter line).2 with
  | .command (.source path) => some path
  | _ => none

/-- Takes an end of the input. The first ends the lines that still wait, and one after which nothing
waits ends the program. -/
def takeEnd (c : Console) : Turn :=
  match c.submit with
  | (c, none) => ⟨c, [say "\nGoodbye!"], some 0⟩
  | (c, some text) => executeInput c text

def take (files : Files) (c : Console) (line : Option String) : Turn :=
  match line with
  | some line => takeLine files c line
  | none => takeEnd c

def prompt (c : Console) : Output := ⟨.standard, if c.buffer.isEmpty then "ivmc> " else "....  "⟩

def prompted (shown : Bool) (f : Console → α → Turn) (c : Console) (a : α) : Turn :=
  let t := f c a
  if shown then { t with out := prompt c :: t.out } else t

/-! ### Runs -/

def takeAll (f : Console → α → Turn) (c : Console) : List α → Turn
  | [] => ⟨c, [], none⟩
  | a :: rest =>
    let t := f c a
    match t.exit with
    | some _ => t
    | none =>
      let u := takeAll f t.console rest
      { u with out := t.out ++ u.out }

def Turn.followed (t : Turn) (f : Console → Turn) : Turn :=
  match t.exit with
  | some _ => t
  | none =>
    let u := f t.console
    { u with out := t.out ++ u.out }

def opening (env : String → Option String) : Except (List Output) Console :=
  match Settings.ofEnvironment env with
  | .ok s => .ok (.start s)
  | .error e => .error [warn ("Error: " ++ e.message)]

def greeting : List Output := [say banner, say "Type :help for help, :quit to exit\n"]

def explanations (c : Console) : List Output := c.queries.map fun q => explanation c q.name

def plainTerminals : List String := ["dumb", "cons25", "emacs"]

/-- Whether lines are prompted for that do not come from a terminal: a plain terminal is shown the
prompt in any case. -/
def promptsAlways (env : String → Option String) : Bool :=
  match env "TERM" with
  | some terminal => plainTerminals.contains terminal.toLower
  | none => false

/-- The lines of an input, with their backspaces in effect. -/
def inputLines (input : String) : List String :=
  (Text.lines input.toList).map fun l => String.ofList (Text.applyBackspaces l)

structure Run where
  exit : Nat
  out : List Output

def run (args : List String) (env : String → Option String) (files : Files) (input : String) : Run :=
  match Request.ofArguments args with
  | .stop exit out => ⟨exit, out⟩
  | .run explain paths =>
    match opening env with
    | .error out => ⟨1, out⟩
    | .ok c =>
      let lines := (inputLines input).map some ++ [none, none]
      let t := (takeAll (load files) c paths)
        |>.followed (fun c => ⟨c, if explain then explanations c else [], none⟩)
        |>.followed (takeAll (prompted (promptsAlways env) (take files)) · lines)
      ⟨t.exit.getD 0, greeting ++ t.out⟩

end ViewUpkeep.CommandLine
