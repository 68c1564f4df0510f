/-!
# Faults of files

What the file system refused, at which path, and the reason that it gave.
-/

set_option autoImplicit false

namespace PathForecast

/-- What was tried at a path. -/
inductive FileAttempt where
  | read
  | readConfig
  | createDirectory
  | resolveDirectory
  | write
deriving DecidableEq

def FileAttempt.label : FileAttempt → String
  | .read => "Cannot read"
  | .readConfig => "Cannot read config"
  | .createDirectory => "Cannot create output directory"
  | .resolveDirectory => "Invalid output directory"
  | .write => "Cannot write"

/-- Why files could not be read or written. -/
inductive FileFault where
  | refused (attempt : FileAttempt) (path reason : String)
  | notRegular (path : String)
  /-- Any other cause, in words. -/
  | described (detail : String)
deriving DecidableEq

def FileFault.message : FileFault → String
  | .refused attempt path reason => attempt.label ++ " '" ++ path ++ "': " ++ reason
  | .notRegular path => "Path '" ++ path ++ "' is not a regular file"
  | .described detail => detail

end PathForecast
