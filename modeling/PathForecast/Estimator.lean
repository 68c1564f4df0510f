import PathForecast.Fault
import PathForecast.Trace

/-!
# Partition estimators

An estimator says which partition a transaction's control code runs on and which partitions each
query touches. What it refuses, learning refuses with the same fault.
-/

set_option autoImplicit false

namespace PathForecast

/-- Says which partitions are touched, or why it cannot tell. -/
structure Estimator where
  base : TransactionTrace → Except Fault PartitionId
  query : QueryTrace → PartitionId → Except Fault PartitionSet

namespace Estimator

/-- Trusts the partitions recorded in the trace. A query without a record is placed on the base
partition. -/
def recorded : Estimator where
  base t :=
    match t.basePartition with
    | some p => .ok p
    | none => .error (.estimation s!"transaction {t.txn.label} has no recorded base partition")
  query q base := .ok (q.partitions.getD (.singleton base))

end Estimator

end PathForecast
