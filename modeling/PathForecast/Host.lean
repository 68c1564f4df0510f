import PathForecast.Bytes

/-!
# Hosts

What a command asks of the system that it runs on. A command is written against a `Host` in any
monad: the running program gives it the real file system, and `FileTree` one that is a value.
-/

set_option autoImplicit false

namespace PathForecast

/-- What stands at a path. -/
inductive FileInfo where
  | regular (size : Nat)
  /-- A directory, or anything else that is no file. -/
  | other
deriving DecidableEq

/-- The operations of a host. One that fails gives the host's own explanation. -/
structure Host (m : Type → Type) where
  info : String → m (Except String FileInfo)
  read : String → m (Except String Bytes)
  /-- Replaces the content of a file, or creates one. -/
  write : String → Bytes → m (Except String Unit)
  /-- Creates a directory and those above it, where they are missing. -/
  createDirectories : String → m (Except String Unit)
  /-- The absolute path without detours that a path leads to. -/
  resolve : String → m (Except String String)
  /-- Prints a line. -/
  print : String → m Unit

end PathForecast
