/-!
# Paths into JSON values

A path tells where in a text reading failed: from the outermost value inwards, each step names an
entry of a list, a field, or a field whose name couldn't be read.
-/

set_option autoImplicit false

namespace Mobility.Json

/-- A step of a path. -/
inductive Segment where
  | item (index : Nat)
  | field (name : String)
  | unreadable
deriving DecidableEq

/-- Steps from the outside to the inside. -/
abbrev Path := List Segment

/-- The text of a step which isn't the first one. -/
def Segment.text : Segment → String
  | item index => s!"[{index}]"
  | field name => "." ++ name
  | unreadable => ".?"

/-- The text of a path. The outermost value is a dot. -/
def Path.text : Path → String
  | [] => "."
  | .item index :: rest => s!"[{index}]" ++ String.join (rest.map Segment.text)
  | .field name :: rest => name ++ String.join (rest.map Segment.text)
  | .unreadable :: rest => "?" ++ String.join (rest.map Segment.text)

end Mobility.Json
