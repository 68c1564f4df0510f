import PathForecast.CommandLine.Options

/-!
# Command lines

The three commands with their options, and the options that all of them take. Those may stand
before or after the name of the command; where both are given, the later one counts.
-/

set_option autoImplicit false

namespace PathForecast

/-- The options of every command. -/
structure GlobalOptions where
  verbose : Bool
  quiet : Bool
  jsonMode : Bool
  /-- The file of run settings. -/
  config : Option String
deriving DecidableEq

namespace GlobalOptions

def specs : List OptionSpec :=
  [.flag "verbose" (some 'v'), .flag "quiet" (some 'q'), .path "config" 'C',
    .flag "json-mode" none]

def ofGiven (given : List GivenOption) : GlobalOptions where
  verbose := isGiven given "verbose"
  quiet := isGiven given "quiet"
  jsonMode := isGiven given "json-mode"
  config := valueOf? given "config"

/-- The options given before a command together with those after it. -/
def followedBy (a b : GlobalOptions) : GlobalOptions where
  verbose := a.verbose || b.verbose
  quiet := a.quiet || b.quiet
  jsonMode := a.jsonMode || b.jsonMode
  config := b.config <|> a.config

end GlobalOptions

/-- What a build reads and writes. -/
structure BuildOptions where
  catalog : String
  workload : String
  /-- The directory of the snapshots. -/
  output : String
  format : String
  /-- Whether every graph is audited before it is written. -/
  audited : Bool
deriving DecidableEq

/-- A command with its options. -/
inductive Command where
  | build (options : BuildOptions)
  | inspect (input : String)
  | validate (catalog workload : String)
deriving DecidableEq

namespace Command

def names : List String := ["build", "inspect", "validate"]

/-- The options of a command beside the global ones. -/
def specs (name : String) : List OptionSpec :=
  if name = "build" then
    [.path "catalog" 'c', .path "workload" 'w', .path "output" 'o', .text "format" 't',
      .flag "validate" none]
  else if name = "inspect" then [.path "input" 'i']
  else [.path "catalog" 'c', .path "workload" 'w']

/-- The command of a name, if every option that it needs was given. -/
def ofGiven? (name : String) (given : List GivenOption) : Option Command :=
  if name = "build" then do
    let catalog ← valueOf? given "catalog"
    let workload ← valueOf? given "workload"
    let output ← valueOf? given "output"
    let format := (valueOf? given "format").getD "json"
    return .build { catalog, workload, output, format, audited := isGiven given "validate" }
  else if name = "inspect" then (valueOf? given "input").map inspect
  else do
    let catalog ← valueOf? given "catalog"
    let workload ← valueOf? given "workload"
    return .validate catalog workload

end Command

/-- A command line: the global options, and the command if one is named. -/
structure CommandLine where
  options : GlobalOptions
  command : Option Command
deriving DecidableEq

namespace CommandLine

/-- The command line that the arguments spell; nothing when they cannot be understood or ask for
help. -/
def parse? (args : List String) : Option CommandLine := do
  let outer ← scan? GlobalOptions.specs Command.names args
  if !areAcceptable outer.given then none
  match outer.command with
  | none => return ⟨.ofGiven outer.given, none⟩
  | some (name, rest) =>
      let inner ← scan? (Command.specs name ++ GlobalOptions.specs) [] rest
      if !areAcceptable inner.given then none
      let command ← Command.ofGiven? name inner.given
      return ⟨(GlobalOptions.ofGiven outer.given).followedBy (.ofGiven inner.given), some command⟩

end CommandLine

end PathForecast
