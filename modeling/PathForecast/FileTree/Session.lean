import PathForecast.FileTree

/-!
# Sessions

A host whose file system is a file tree: running a command on it gives the tree that the command
leaves and the text that it prints.
-/

set_option autoImplicit false

namespace PathForecast

/-- A file tree, and the lines printed so far, the last one first. -/
structure Session where
  tree : FileTree
  printed : List String

namespace Session

/-- Everything printed. -/
def output (s : Session) : String := String.join (s.printed.reverse.map fun line => line ++ "\n")

/-- Asks the tree. -/
def ask {β : Type} (question : FileTree → Except String β) : StateM Session (Except String β) := do
  return question (← get).tree

/-- Changes the tree, if the change succeeds. -/
def change (f : FileTree → Except String FileTree) : StateM Session (Except String Unit) := do
  let s ← get
  match f s.tree with
  | .ok tree =>
      set { s with tree }
      return .ok ()
  | .error reason => return .error reason

/-- The host of a file tree. -/
def host : Host (StateM Session) where
  info path := ask (·.info path)
  read path := ask (·.read path)
  write path content := change (·.write path content)
  createDirectories path := change (·.createDirectories path)
  resolve path := ask (·.resolve path)
  print line := modify fun s => { s with printed := line :: s.printed }

end Session

end PathForecast
