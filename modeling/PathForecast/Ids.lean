import PathForecast.Order

/-!
# Identifiers

Handles of procedures, statements, partitions, transactions, vertices, edges and graph elements,
each a machine word of its own type, ordered by its number. `label` is the form in which messages
name them.
-/

set_option autoImplicit false

namespace PathForecast

/-- A stored procedure of the catalog. -/
structure ProcedureId where
  number : UInt32
deriving DecidableEq, Inhabited

/-- A statement of a procedure. -/
structure StatementId where
  number : UInt32
deriving DecidableEq, Inhabited

/-- A horizontal share of the data. -/
structure PartitionId where
  number : UInt32
deriving DecidableEq, Inhabited

/-- One executed transaction. -/
structure TxnId where
  number : UInt64
deriving DecidableEq, Inhabited

/-- A vertex: its slot in the graph's vertex array. -/
structure VertexId where
  number : UInt32
deriving DecidableEq, Inhabited

/-- An edge: its slot in the graph's edge array. -/
structure EdgeId where
  number : UInt32
deriving DecidableEq, Inhabited

/-- A vertex or an edge: both draw from one counter per graph. -/
structure ElementId where
  number : UInt64
deriving DecidableEq, Inhabited

/-! ## Order -/

instance : Ranked ProcedureId where
  rank p := p.number.toNat
  rank_inj {a b} h := by cases a; cases b; simpa [UInt32.toNat_inj] using h

instance : Ranked StatementId where
  rank s := s.number.toNat
  rank_inj {a b} h := by cases a; cases b; simpa [UInt32.toNat_inj] using h

instance : Ranked PartitionId where
  rank p := p.number.toNat
  rank_inj {a b} h := by cases a; cases b; simpa [UInt32.toNat_inj] using h

instance : Ranked VertexId where
  rank v := v.number.toNat
  rank_inj {a b} h := by cases a; cases b; simpa [UInt32.toNat_inj] using h

/-! ## Slots -/

def VertexId.slot (v : VertexId) : Nat := v.number.toNat

def EdgeId.slot (e : EdgeId) : Nat := e.number.toNat

/-- The handle of a slot. -/
def VertexId.ofSlot (n : Nat) : VertexId := ⟨n.toUInt32⟩

/-- The handle of a slot. -/
def EdgeId.ofSlot (n : Nat) : EdgeId := ⟨n.toUInt32⟩

/-- A slot within the range of the handles is found again from its handle. -/
theorem VertexId.slot_ofSlot {n : Nat} (h : n < UInt32.size) : (VertexId.ofSlot n).slot = n :=
  Nat.mod_eq_of_lt h

theorem EdgeId.slot_ofSlot {n : Nat} (h : n < UInt32.size) : (EdgeId.ofSlot n).slot = n :=
  Nat.mod_eq_of_lt h

/-! ## Text -/

def ProcedureId.label (p : ProcedureId) : String := s!"ProcedureId({p.number})"

def StatementId.label (s : StatementId) : String := s!"StatementId({s.number})"

def PartitionId.label (p : PartitionId) : String := s!"PartitionId({p.number})"

def TxnId.label (t : TxnId) : String := s!"TxnId({t.number})"

def VertexId.label (v : VertexId) : String := s!"VertexId({v.number})"

def EdgeId.label (e : EdgeId) : String := s!"EdgeId({e.number})"

def ElementId.label (e : ElementId) : String := s!"ElementId({e.number})"

end PathForecast
