import ViewUpkeep.Text.Blank

/-!
Commands to the console itself, which start with a colon.
-/
namespace ViewUpkeep

inductive Command.Needy where
  | explain
  | relation
  | source
deriving DecidableEq, Repr

inductive Command where
  | help (topic : Option String)
  | quit
  | list
  | explain (query : String)
  | relation (name : String)
  /-- Executes a file. -/
  | source (path : String)
  | reset
  | missingArgument (command : Command.Needy)
  | unknown (name : String)
deriving DecidableEq, Repr

namespace Command

def Needy.message : Needy → String
  | .explain => ":explain requires a query name"
  | .relation => ":relation requires a relation name"
  | .source => ":source requires a file path"

def complaint? : Command → Option String
  | .missingArgument c => some c.message
  | .unknown name => some ("Unknown command: :" ++ name)
  | _ => none

def ofWords (name : String) (arg : Option String) : Command :=
  if name ∈ ["help", "h", "?"] then .help arg
  else if name ∈ ["quit", "q", "exit"] then .quit
  else if name ∈ ["list", "ls", "l"] then .list
  else if name ∈ ["explain", "e"] then (arg.map .explain).getD (.missingArgument .explain)
  else if name ∈ ["relation", "rel", "r"] then (arg.map .relation).getD (.missingArgument .relation)
  else if name ∈ ["source", "load"] then (arg.map .source).getD (.missingArgument .source)
  else if name = "reset" then .reset
  else .unknown name

/-- Reads a command. Only the first argument counts. -/
def ofText (text : String) : Command :=
  let words := (Text.words (text.toList.dropWhile (· = ':'))).map String.ofList
  ofWords (words.head?.getD "") words[1]?

end Command

end ViewUpkeep
