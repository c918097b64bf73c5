import Mobility.Measure
import Mobility.Plan
import Mobility.Table

/-!
# Shapes of stored values

A snapshot is stored as text or as bytes. Both forms follow from one description of what is stored:
a `Shape` says how a value is built, and `Shape.Value` is the type of the values of a shape. The two
forms are functions on shapes, so a field that is added to a shape is added to both.
-/

set_option autoImplicit false

namespace Mobility

mutual

/-- How a stored value is built. -/
inductive Shape where
  /-- A natural number of so many bytes. -/
  | number (bytes : Nat)
  | measure
  | plan
  | list (item : Shape)
  /-- A table whose keys are bytes. -/
  | table (row : Shape)
  | record (fields : Fields)

/-- The fields of a record, in order. -/
inductive Fields where
  | done
  | field (name : String) (value : Shape) (rest : Fields)
  /-- A number that may be missing from a text, and is zero then. -/
  | orZero (name : String) (bytes : Nat) (rest : Fields)

end

mutual

/-- The values of a shape. -/
def Shape.Value : Shape → Type
  | .number _ => Nat
  | .measure => Measure
  | .plan => Plan
  | .list item => List item.Value
  | .table row => Table row.Value
  | .record fields => fields.Value

/-- The values of all fields. -/
def Fields.Value : Fields → Type
  | .done => Unit
  | .field _ value rest => value.Value × rest.Value
  | .orZero _ _ rest => Nat × rest.Value

end

end Mobility
