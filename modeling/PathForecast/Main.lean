import PathForecast.CommandLine.Run

/-!
# The program

The command line on the real file system. Reports go to standard output and faults to standard
error.
-/

set_option autoImplicit false

namespace PathForecast

namespace SystemHost

/-- Runs an operation; a failure becomes its explanation. -/
def explained {β : Type} (operation : IO β) : IO (Except String β) := do
  try
    return .ok (← operation)
  catch e =>
    return .error (toString e)

def info (path : String) : IO FileInfo := do
  let data ← (← IO.FS.realPath path).metadata
  match data.type with
  | .file => return .regular data.byteSize.toNat
  | _ => return .other

/-- The host that the program runs on. -/
def host : Host IO where
  info path := explained (info path)
  read path := explained do return (← IO.FS.readBinFile path).data.toList
  write path content := explained (IO.FS.writeBinFile path ⟨content.toArray⟩)
  createDirectories path := explained (IO.FS.createDirAll path)
  resolve path := explained do return (← IO.FS.realPath path).toString
  print line := IO.println line

end SystemHost

def usage : String :=
  "usage: txnpath [-v] [-q] [-C FILE] [--json-mode] COMMAND\n\n" ++
    "  build -c CATALOG -w WORKLOAD -o DIRECTORY [-t json|binary] [--validate]\n" ++
    "  inspect -i SNAPSHOT\n" ++
    "  validate -c CATALOG -w WORKLOAD"

end PathForecast

def main (args : List String) : IO UInt32 := do
  match PathForecast.CommandLine.parse? args with
  | none =>
      IO.eprintln PathForecast.usage
      return 2
  | some line =>
      match ← (line.run PathForecast.SystemHost.host).run with
      | .ok _ => return 0
      | .error fault =>
          IO.eprintln ("Error: " ++ fault.message)
          return 1
