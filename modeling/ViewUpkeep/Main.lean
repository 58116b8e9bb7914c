import ViewUpkeep.CommandLine

/-!
The executable: writes what the command line yields, and reads files and lines for it.
-/
namespace ViewUpkeep.CommandLine

/-- Writes pieces of text, each at once, so that the two channels keep their order. -/
def emit (out : List Output) : IO Unit := do
  for o in out do
    match o.channel with
    | .standard =>
      IO.print o.text
      (← IO.getStdout).flush
    | .errors => IO.eprint o.text

/-- The number of an error, which opening a file gives with the opposite sign. -/
def errorNumber (code : UInt32) : UInt32 := if code < 0x80000000 then code else 0 - code

def fileError : IO.Error → FileError
  | .inappropriateType _ code _ => if errorNumber code = 21 then .isADirectory else .notADirectory
  | .invalidArgument _ code _ => if errorNumber code = 36 then .nameTooLong else .missing
  | _ => .missing

def readFile (path : String) : IO (Except FileError String) := do
  if path.toList.contains '\x00' then return .error .nulInPath
  try return .ok (← IO.FS.readFile path)
  catch e => return .error (fileError e)

def only (path : Option String) : IO Files := do
  match path with
  | none => return fun _ => .error .missing
  | some p =>
    let text ← readFile p
    return fun q => if q = p then text else .error .missing

def loadAll (c : Console) : List String → IO (Except Nat Console)
  | [] => return .ok c
  | path :: rest => do
    let t := load (← only (some path)) c path
    emit t.out
    match t.exit with
    | some n => return .error n
    | none => loadAll t.console rest

/-- Reads lines until the program ends. -/
partial def serve (stdin : IO.FS.Stream) (prompts : Bool) (c : Console) : IO Nat := do
  if prompts then emit [prompt c]
  let line := (inputLines (← stdin.getLine)).head?
  let t := take (← only (line.bind (wanted c))) c line
  emit t.out
  match t.exit with
  | some n => return n
  | none => serve stdin prompts t.console

def environment : IO (String → Option String) := do
  let names := "TERM" :: Settings.environmentOptions.map Prod.fst
  let found ← names.mapM fun name => return (name, ← IO.getEnv name)
  return fun name => (found.find? (·.1 = name)).bind (·.2)

def start (args : List String) : IO Nat := do
  match Request.ofArguments args with
  | .stop exit out =>
    emit out
    return exit
  | .run explain paths =>
    let env ← environment
    match opening env with
    | .error out =>
      emit out
      return 1
    | .ok c =>
      emit greeting
      match ← loadAll c paths with
      | .error n => return n
      | .ok c =>
        if explain then emit (explanations c)
        let stdin ← IO.getStdin
        serve stdin (promptsAlways env || (← stdin.isTty)) c

end ViewUpkeep.CommandLine

def main (args : List String) : IO UInt32 := do
  return UInt32.ofNat (← ViewUpkeep.CommandLine.start args)
