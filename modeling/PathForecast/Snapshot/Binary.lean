import PathForecast.Codec
import PathForecast.Fault.Data
import PathForecast.Snapshot

/-!
# Binary snapshots

A five-byte header, the letters `TXNP` and a version, then the snapshot with its fields in order.
Sets and maps may be read unsorted or with repetitions; of repeated keys the last value counts.
Bytes after the snapshot are ignored.
-/

set_option autoImplicit false

namespace PathForecast

namespace Codec

def procedureId : Codec ProcedureId := uint32.convert (·.number) .mk

def statementId : Codec StatementId := uint32.convert (·.number) .mk

def partitionId : Codec PartitionId := uint32.convert (·.number) .mk

def vertexId : Codec VertexId := uint32.convert (·.number) .mk

def edgeId : Codec EdgeId := uint32.convert (·.number) .mk

def elementId : Codec ElementId := uint64.convert (·.number) .mk

def binary64 : Codec Binary64 := word.convert (·.bits) .mk

def partitionSet : Codec PartitionSet := (list partitionId).convert (·.ids) .ofList

/-- The number by which files name a kind. -/
def kindIndex : VertexKind → Nat
  | .start => 0
  | .query => 1
  | .commit => 2
  | .abort => 3

def vertexKind : Codec VertexKind where
  write k := varint32.write (kindIndex k)
  read b := do
    let (n, rest) ← varint32.read b
    match n with
    | 0 => return (.start, rest)
    | 1 => return (.query, rest)
    | 2 => return (.commit, rest)
    | 3 => return (.abort, rest)
    | _ => throw .unknownAlternative

def forecast : Codec (Forecast Binary64) :=
  (binary64.both <| binary64.both <| binary64.both <|
      (list (partitionId.both binary64)).convert (·.entries) Table.ofList).convert
    (fun f => (f.abort, f.singlePartition, f.noNewPartitions, f.done))
    (fun (a, s, n, d) => ⟨a, s, n, d⟩)

def snapshotVertex : Codec (SnapshotVertex Binary64) :=
  (vertexId.both <| elementId.both <| vertexKind.both <| (option statementId).both <|
      uint32.both <| partitionSet.both <| partitionSet.both <| uint64.both <| uint64.both <|
      (option binary64).both forecast).convert
    (fun v =>
      (v.id, v.element, v.kind, v.statement, v.index, v.partitions, v.past, v.totalHits,
        v.windowHits, v.averageRemaining, v.forecast))
    (fun (id, element, kind, statement, index, partitions, past, total, window, average, f) =>
      ⟨id, element, kind, statement, index, partitions, past, total, window, average, f⟩)

def snapshotEdge : Codec (SnapshotEdge Binary64) :=
  (edgeId.both <| elementId.both <| vertexId.both <| vertexId.both <| uint64.both <|
      uint64.both binary64).convert
    (fun e => (e.id, e.element, e.source, e.dest, e.totalHits, e.windowHits, e.probability))
    (fun (id, element, source, dest, total, window, probability) =>
      ⟨id, element, source, dest, total, window, probability⟩)

def snapshot : Codec (Snapshot Binary64) :=
  (procedureId.both <| text.both <| uint64.both <| uint64.both <|
      (list snapshotVertex).both (list snapshotEdge)).convert
    (fun s =>
      (s.procedure, s.procedureName, s.transactionCount, s.recomputeCount, s.vertices, s.edges))
    (fun (procedure, name, transactions, recomputes, vertices, edges) =>
      ⟨procedure, name, transactions, recomputes, vertices, edges⟩)

end Codec

/-! ## The header -/

/-- The letters that begin a binary snapshot. -/
def magic : Bytes := [0x54, 0x58, 0x4e, 0x50]

/-- The bytes before the payload. -/
structure Header where
  magic : Bytes
  version : UInt8
deriving DecidableEq

namespace Header

def standard : Header := ⟨PathForecast.magic, formatVersion⟩

def bytes (h : Header) : Bytes := h.magic ++ [h.version]

/-- The header and what follows it. -/
def read : Bytes → Except BinaryFault (Header × Bytes)
  | a :: b :: c :: d :: version :: rest => .ok (⟨[a, b, c, d], version⟩, rest)
  | _ => .error .headerTooShort

def validate (h : Header) : Except BinaryFault Unit :=
  if h.magic ≠ PathForecast.magic then .error .badMagic
  else if h.version ≠ formatVersion then .error (.unsupportedVersion h.version)
  else .ok ()

end Header

namespace Snapshot

def toBinary (s : Snapshot Binary64) : Bytes := Header.standard.bytes ++ Codec.snapshot.write s

def ofBinary (b : Bytes) : Except BinaryFault (Snapshot Binary64) :=
  if maxBinarySize < b.length then .error (.tooLarge b.length)
  else do
    let (header, payload) ← Header.read b
    header.validate
    match Codec.snapshot.read payload with
    | .ok (s, _) => .ok s
    | .error fault => .error (.undecodable fault)

end Snapshot

end PathForecast
