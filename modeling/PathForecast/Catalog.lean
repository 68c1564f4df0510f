import PathForecast.Ids

/-!
# Catalog

Stored procedures and the statements that each of them may run. Look-ups take the first entry
that fits.
-/

set_option autoImplicit false

namespace PathForecast

/-- One parameterised query or update of a procedure. -/
structure Statement where
  id : StatementId
  name : String
deriving DecidableEq, Inhabited

/-- A named transaction type with a fixed set of statements. -/
structure Procedure where
  id : ProcedureId
  name : String
  statements : List Statement
deriving DecidableEq, Inhabited

namespace Procedure

def statement? (p : Procedure) (s : StatementId) : Option Statement :=
  p.statements.find? (fun x => decide (x.id = s))

def declares (p : Procedure) (s : StatementId) : Bool :=
  p.statements.any (fun x => decide (x.id = s))

theorem declares_iff (p : Procedure) (s : StatementId) :
    p.declares s = true ↔ ∃ x ∈ p.statements, x.id = s := by
  simp [declares]

end Procedure

/-- The procedures that a workload may name. -/
structure Catalog where
  procedures : List Procedure
deriving DecidableEq, Inhabited

namespace Catalog

def procedure? (c : Catalog) (p : ProcedureId) : Option Procedure :=
  c.procedures.find? (fun x => decide (x.id = p))

def procedureNamed? (c : Catalog) (name : String) : Option Procedure :=
  c.procedures.find? (fun x => decide (x.name = name))

end Catalog

end PathForecast
