import ViewUpkeep.Text.Blank

/-!
Settings of a query: how it is kept up to date, how repeated relations are treated, and whether its
rows are counted. Each has a default, which the environment may set and a query may override.
-/
namespace ViewUpkeep

inductive Change where
  | add
  | remove
deriving DecidableEq, Repr

def Change.print : Change → String
  | .add => "add"
  | .remove => "remove"

/-- Whether update code runs before or after the change that triggers it. -/
inductive Placement where
  | before
  | after
deriving DecidableEq, Repr

def Placement.print : Placement → String
  | .before => "before"
  | .after => "after"

/-- What is done about a relation that stands several times in one join. -/
inductive SelfJoin where
  /-- Later occurrences leave the changed row out. -/
  | sub
  /-- Later occurrences take the changed row in. -/
  | aug
  /-- The bindings of all occurrences are united. -/
  | das
  /-- The bindings of all occurrences are put one after the other. -/
  | assumeDisjoint
  /-- As before, but a binding that two occurrences share is an error. -/
  | assumeDisjointVerify
deriving DecidableEq, Repr

namespace SelfJoin

def print : SelfJoin → String
  | .sub => "sub"
  | .aug => "aug"
  | .das => "das"
  | .assumeDisjoint => "assume_disjoint"
  | .assumeDisjointVerify => "assume_disjoint_verify"

def all : List SelfJoin := [.sub, .aug, .das, .assumeDisjoint, .assumeDisjointVerify]

def placement : SelfJoin → Change → Placement
  | .aug, .add => .before
  | .aug, .remove => .after
  | _, .add => .after
  | _, .remove => .before

end SelfJoin

inductive Counting where
  | yes
  | no
  /-- Only where a row can be derived twice. -/
  | safe
deriving DecidableEq, Repr

def Counting.print : Counting → String
  | .yes => "yes"
  | .no => "no"
  | .safe => "safe"

def Counting.all : List Counting := [.yes, .no, .safe]

inductive Mode where
  /-- Evaluated whenever it is read. -/
  | batch
  /-- Kept up to date for all parameters. -/
  | inc
  /-- Kept up to date for demanded parameters. -/
  | dem
deriving DecidableEq, Repr

def Mode.print : Mode → String
  | .batch => "batch"
  | .inc => "inc"
  | .dem => "dem"

def Mode.all : List Mode := [.batch, .inc, .dem]

def printSwitch (b : Bool) : String := if b then "on" else "off"

inductive SettingsError where
  | unknownOption (name : String)
  | invalidValue (name expected got : String)
deriving DecidableEq, Repr

namespace SettingsError

def message : SettingsError → String
  | .unknownOption name => "unknown option: " ++ name
  | .invalidValue name expected got =>
    "invalid value for " ++ name ++ ": expected " ++ expected ++ ", got '" ++ got ++ "'"

def report (e : SettingsError) : String := "configuration error: " ++ e.message

end SettingsError

structure Overrides where
  selfJoin : Option SelfJoin
  counting : Option Counting
  mode : Option Mode
  filters : Option Bool
  instrument : Option Bool
deriving DecidableEq, Repr

namespace Overrides

def empty : Overrides := ⟨none, none, none, none, none⟩

def pick (all : List α) (print : α → String) (name expected value : String) :
    Except SettingsError α :=
  match all.find? fun a => print a = value with
  | some a => .ok a
  | none => .error (.invalidValue name expected value)

def pickSwitch (name value : String) : Except SettingsError Bool :=
  if value = "on" || value = "true" then .ok true
  else if value = "off" || value = "false" then .ok false
  else .error (.invalidValue name "on or off" value)

def set (o : Overrides) (name value : String) : Except SettingsError Overrides :=
  if name = "selfjoin" then do
    let s ← pick SelfJoin.all SelfJoin.print name
      "one of sub, aug, das, assume_disjoint, assume_disjoint_verify" value
    return { o with selfJoin := some s }
  else if name = "rc" then do
    let c ← pick Counting.all Counting.print name "yes, no or safe" value
    return { o with counting := some c }
  else if name = "impl" then do
    let m ← pick Mode.all Mode.print name "batch, inc or dem" value
    return { o with mode := some m }
  else if name = "filters" then do
    let b ← pickSwitch name value
    return { o with filters := some b }
  else if name = "instrument" then do
    let b ← pickSwitch name value
    return { o with instrument := some b }
  else .error (.unknownOption name)

def setAll (o : Overrides) : List (String × String) → Except SettingsError Overrides
  | [] => .ok o
  | (name, value) :: rest => do
    let o ← o.set name value
    o.setAll rest

end Overrides

structure Settings where
  selfJoin : SelfJoin
  counting : Counting
  mode : Mode
  filters : Bool
  instrument : Bool
deriving DecidableEq, Repr

namespace Settings

def default : Settings := ⟨.sub, .safe, .dem, true, false⟩

instance : Inhabited Settings := ⟨default⟩

def override (s : Settings) (o : Overrides) : Settings :=
  { selfJoin := o.selfJoin.getD s.selfJoin
    counting := o.counting.getD s.counting
    mode := o.mode.getD s.mode
    filters := o.filters.getD s.filters
    instrument := o.instrument.getD s.instrument }

/-- The settings of a query: without parameters there is nothing to demand. -/
def resolve (s : Settings) (o : Overrides) (hasParams : Bool) : Settings :=
  let t := s.override o
  if t.mode = .dem && !hasParams then { t with mode := .inc } else t

/-- Environment variables and the options that they set, in the order in which they are read. -/
def environmentOptions : List (String × String) :=
  [("IVMC_SELFJOIN", "selfjoin"), ("IVMC_RC", "rc"), ("IVMC_IMPL", "impl"),
    ("IVMC_FILTERS", "filters"), ("IVMC_INSTRUMENT", "instrument")]

/-- Sets an option from an environment variable, which an error then names. -/
def setVariable (o : Overrides) (name option value : String) :
    Except SettingsError Overrides :=
  match o.set option (String.ofList (Text.trim value.toList)) with
  | .ok o => .ok o
  | .error (.invalidValue _ expected got) => .error (.invalidValue name expected got)
  | .error e => .error e

def overridesOf (env : String → Option String) (o : Overrides) :
    List (String × String) → Except SettingsError Overrides
  | [] => .ok o
  | (name, option) :: rest => do
    let o ← match env name with
      | some value => setVariable o name option value
      | none => pure o
    overridesOf env o rest

def ofEnvironment (env : String → Option String) : Except SettingsError Settings := do
  return default.override (← overridesOf env .empty environmentOptions)

end Settings

end ViewUpkeep
