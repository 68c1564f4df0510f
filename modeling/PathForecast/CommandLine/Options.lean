/-!
# Options

Reads the options of a command line. An option has a long name and perhaps a letter. Letters may
be written together behind one dash, and a value follows in the same argument, with or without an
equals sign, or as the next argument. An argument that begins with a dash is never such a value,
unless it is the dash alone. Nothing may stand behind a pair of dashes.
-/

set_option autoImplicit false

namespace PathForecast

/-- An option that a command takes. -/
structure OptionSpec where
  name : String
  letter : Option Char
  takesValue : Bool
  mayBeEmpty : Bool

namespace OptionSpec

def flag (name : String) (letter : Option Char) : OptionSpec := ⟨name, letter, false, false⟩

/-- An option whose value is a path. -/
def path (name : String) (letter : Char) : OptionSpec := ⟨name, some letter, true, false⟩

/-- An option whose value may be any text. -/
def text (name : String) (letter : Char) : OptionSpec := ⟨name, some letter, true, true⟩

end OptionSpec

/-- An option as it was given. -/
structure GivenOption where
  spec : OptionSpec
  value : Option String

/-- The options that one argument gives, and the option whose value is still to come. -/
structure ArgumentOptions where
  given : List GivenOption
  waiting : Option OptionSpec

/-- Options behind one dash. -/
def letterOptions? (specs : List OptionSpec) : List Char → Option ArgumentOptions
  | [] => some ⟨[], none⟩
  | c :: cs => do
      let spec ← specs.find? fun s => s.letter == some c
      if spec.takesValue then
        match cs with
        | [] => return ⟨[], some spec⟩
        | '=' :: value => return ⟨[⟨spec, some (String.ofList value)⟩], none⟩
        | value => return ⟨[⟨spec, some (String.ofList value)⟩], none⟩
      else
        let more ← letterOptions? specs cs
        return { more with given := ⟨spec, none⟩ :: more.given }

/-- An option behind two dashes. -/
def namedOption? (specs : List OptionSpec) (cs : List Char) : Option ArgumentOptions := do
  let name := cs.takeWhile (· != '=')
  let spec ← specs.find? fun s => s.name == String.ofList name
  match cs.drop name.length with
  | [] => if spec.takesValue then return ⟨[], some spec⟩ else return ⟨[⟨spec, none⟩], none⟩
  | _ :: value =>
      if spec.takesValue then return ⟨[⟨spec, some (String.ofList value)⟩], none⟩ else none

/-- The options of one argument. -/
def argumentOptions? (specs : List OptionSpec) (arg : String) : Option ArgumentOptions :=
  match arg.toList with
  | ['-'] => none
  | '-' :: '-' :: cs => namedOption? specs cs
  | '-' :: cs => letterOptions? specs cs
  | _ => none

/-- Whether an argument may be the value of the option before it. -/
def isValue (arg : String) : Bool := arg == "-" || arg.toList.head? != some '-'

/-- Options up to a command name, with that name and the arguments after it. -/
structure OptionScan where
  given : List GivenOption
  command : Option (String × List String)

/-- Reads options until a command name or the end. -/
def scan? (specs : List OptionSpec) (commands : List String) : List String → Option OptionScan
  | [] => some ⟨[], none⟩
  | arg :: rest =>
      if commands.contains arg then some ⟨[], some (arg, rest)⟩
      else if arg = "--" then if rest.isEmpty then some ⟨[], none⟩ else none
      else
        match argumentOptions? specs arg, rest with
        | some ⟨given, none⟩, rest =>
            (scan? specs commands rest).map fun s => { s with given := given ++ s.given }
        | some ⟨given, some spec⟩, value :: rest =>
            if isValue value then
              (scan? specs commands rest).map fun s =>
                { s with given := given ++ ⟨spec, some value⟩ :: s.given }
            else none
        | _, _ => none

/-- Whether the options may stand together: none twice, and no empty path. -/
def areAcceptable (given : List GivenOption) : Bool :=
  decide (given.map (·.spec.name)).Nodup &&
    given.all fun o => o.spec.mayBeEmpty || o.value != some ""

/-- The value given to an option. -/
def valueOf? (given : List GivenOption) (name : String) : Option String :=
  (given.find? fun o => o.spec.name == name).bind (·.value)

def isGiven (given : List GivenOption) (name : String) : Bool :=
  given.any fun o => o.spec.name == name

end PathForecast
