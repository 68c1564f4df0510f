import PathForecast.PartitionSet
import PathForecast.Saturation

/-!
# Transaction traces

The observed executions that a graph learns from, built query by query.
-/

set_option autoImplicit false

namespace PathForecast

/-- One executed query. -/
structure QueryTrace where
  statement : StatementId
  start : UInt64
  stop : UInt64
  /-- The partitions that the recorder saw, if it knew them. -/
  partitions : Option PartitionSet
deriving DecidableEq, Inhabited

/-- One executed transaction: its queries in order, and how it ended. -/
structure TransactionTrace where
  txn : TxnId
  procedure : ProcedureId
  start : UInt64
  stop : UInt64
  aborted : Bool
  /-- The partition that the control code ran on, if recorded. -/
  basePartition : Option PartitionId
  queries : List QueryTrace
deriving DecidableEq, Inhabited

namespace TransactionTrace

/-- A trace that has just begun. -/
def begun (txn : TxnId) (procedure : ProcedureId) (start : UInt64) : TransactionTrace :=
  { txn, procedure, start, stop := start, aborted := false, basePartition := none, queries := [] }

def withBasePartition (t : TransactionTrace) (p : PartitionId) : TransactionTrace :=
  { t with basePartition := some p }

/-- Appends a query; the transaction stops no earlier than the query. -/
def withQuery (t : TransactionTrace) (q : QueryTrace) : TransactionTrace :=
  { t with stop := max t.stop q.stop, queries := t.queries ++ [q] }

def finishedAt (t : TransactionTrace) (stop : UInt64) : TransactionTrace := { t with stop }

def abort (t : TransactionTrace) : TransactionTrace := { t with aborted := true }

/-- The time from start to stop, zero when the clock ran backwards. -/
def elapsed (t : TransactionTrace) : UInt64 := satSub t.stop t.start

/-- The time from the start of a query to the end of the transaction. -/
def remainingFrom (t : TransactionTrace) (q : QueryTrace) : UInt64 := satSub t.stop q.start

end TransactionTrace

end PathForecast
