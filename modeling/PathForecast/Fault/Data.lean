import PathForecast.Codec

/-!
# Faults of data

Why data could not be read or written in its format.
-/

set_option autoImplicit false

namespace PathForecast

/-! ## Binary snapshots -/

/-- The largest binary snapshot that is decoded, in bytes. -/
def maxBinarySize : Nat := 256 * 1024 * 1024

/-- The version of the binary format. -/
def formatVersion : UInt8 := 1

/-- Why a binary snapshot was refused. -/
inductive BinaryFault where
  | headerTooShort
  | badMagic
  | unsupportedVersion (version : UInt8)
  | tooLarge (size : Nat)
  | undecodable (fault : DecodeFault)
deriving DecidableEq

def BinaryFault.message : BinaryFault → String
  | .headerTooShort => "Header too short"
  | .badMagic => "Invalid magic bytes"
  | .unsupportedVersion v => s!"Unsupported version: {v} (expected {formatVersion})"
  | .tooLarge n => s!"Data size {n} bytes exceeds maximum allowed {maxBinarySize} bytes"
  | .undecodable fault => "Failed to decode snapshot: " ++ fault.message

/-! ## All data -/

/-- What a text was to be read as. -/
inductive Document where
  | catalog
  | workload
  | snapshot
  | config
deriving DecidableEq

def Document.label : Document → String
  | .catalog => "catalog"
  | .workload => "workload"
  | .snapshot => "snapshot"
  | .config => "config"

/-- Why data was refused. -/
inductive DataFault where
  /-- The text is not of the form of the document. -/
  | malformed (document : Document)
  /-- The settings ask for no learner at all. -/
  | noLearner
  /-- A file is larger than the settings allow. -/
  | tooLarge (size : Nat) (limit : UInt64)
  /-- No format of snapshot files has this name. -/
  | unknownFormat (name : String)
  | binary (fault : BinaryFault)
  /-- Any other cause, in words. -/
  | described (detail : String)
deriving DecidableEq

def DataFault.message : DataFault → String
  | .malformed document => s!"Invalid {document.label}: the text is not of the expected form"
  | .noLearner => "Invalid config: threads must be at least 1"
  | .tooLarge size limit => s!"File size {size} bytes exceeds maximum allowed {limit} bytes"
  | .unknownFormat name => "Unknown format: " ++ name
  | .binary fault => fault.message
  | .described detail => detail

end PathForecast
