import PathForecast.Catalog
import PathForecast.Json.Fields
import PathForecast.Json.Reader
import PathForecast.Json.Writer

/-!
# Catalogs as JSON

A catalog is an object with the field `procedures`; a procedure has `id`, `name` and `statements`,
a statement `id` and `name`.
-/

set_option autoImplicit false

namespace PathForecast

open JsonValue

def Statement.toJson (s : Statement) : JsonValue :=
  ofFields [("id", ofNat s.id.number.toNat), ("name", ofText s.name)]

def Procedure.toJson (p : Procedure) : JsonValue :=
  ofFields [("id", ofNat p.id.number.toNat), ("name", ofText p.name),
    ("statements", .array (p.statements.map Statement.toJson))]

def Catalog.toJson (c : Catalog) : JsonValue :=
  ofFields [("procedures", .array (c.procedures.map Procedure.toJson))]

def Statement.ofJson? (v : JsonValue) : Option Statement := do
  match ← v.record? ["id", "name"] with
  | [id, name] =>
      let id ← required? uint32? id
      let name ← required? text? name
      return ⟨⟨id⟩, name⟩
  | _ => none

def Procedure.ofJson? (v : JsonValue) : Option Procedure := do
  match ← v.record? ["id", "name", "statements"] with
  | [id, name, statements] =>
      let id ← required? uint32? id
      let name ← required? text? name
      let statements ← required? (list? Statement.ofJson?) statements
      return ⟨⟨id⟩, name, statements⟩
  | _ => none

def Catalog.ofJson? (v : JsonValue) : Option Catalog := do
  match ← v.record? ["procedures"] with
  | [procedures] =>
      let procedures ← required? (list? Procedure.ofJson?) procedures
      return ⟨procedures⟩
  | _ => none

/-- The catalog that a text describes. -/
def Catalog.parse? (b : Bytes) : Option Catalog := (JsonValue.parse? b).bind Catalog.ofJson?

end PathForecast
