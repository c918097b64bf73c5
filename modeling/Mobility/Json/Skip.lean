import Mobility.Json.Token

/-!
# Skipping JSON values

A field that nobody asks for is passed over. Its value still has to be well formed, but its numbers
may be of any size, and its strings may hold any bytes and unpaired units.
-/

set_option autoImplicit false

namespace Mobility.Json

/-- A list or an object whose end wasn't seen yet. -/
inductive Open where
  | list
  | object
deriving DecidableEq

/-- The byte that ends it. -/
def Open.closing : Open → UInt8
  | list => ascii ']'
  | object => ascii '}'

/-- The text behind `word`. -/
def skipWord (word : List UInt8) (text : List UInt8) : Option (List UInt8) :=
  match word, text with
  | [], text => some text
  | w :: word, b :: rest => if w = b then skipWord word rest else none
  | _ :: _, [] => none

/-- The text behind a string. -/
def skipString (text : List UInt8) : Option (List UInt8) :=
  match text with
  | [] => none
  | b :: rest =>
    if b = ascii '"' then do
      let (inner, rest) ← closeString rest
      let _ ← pieces inner
      return rest
    else none

/-- The text behind a value that isn't a list or an object. -/
def skipScalar (isWhole : Bool) (text : List UInt8) : Option (List UInt8) :=
  match text with
  | [] => none
  | b :: rest =>
    if b = ascii '"' then skipString text
    else if b = ascii 'n' then skipWord (asciiText "ull") rest
    else if b = ascii 't' then skipWord (asciiText "rue") rest
    else if b = ascii 'f' then skipWord (asciiText "alse") rest
    else (number isWhole text).map (·.2)

/-- What skipping has to do next. -/
inductive Task where
  /-- A value follows. -/
  | value
  /-- The first entry of the innermost structure follows, or its end. -/
  | first
  /-- A value is over. -/
  | after

/-- Where an entry of a structure has its value. -/
def valueOf (open' : Open) (text : List UInt8) : Option (List UInt8) :=
  match open' with
  | .list => some text
  | .object => do colon (← skipString text)

/-- The next step of skipping. `steps` bounds their number. -/
def skipSteps (isWhole : Bool) : Nat → Task → List Open → List UInt8 → Option (List UInt8)
  | 0, _, _, _ => none
  | steps + 1, .value, outer, text =>
    match skipBlanks text with
    | [] => none
    | b :: rest =>
      if b = ascii '[' then skipSteps isWhole steps .first (.list :: outer) rest
      else if b = ascii '{' then skipSteps isWhole steps .first (.object :: outer) rest
      else do skipSteps isWhole steps .after outer (← skipScalar isWhole (b :: rest))
  | _ + 1, .after, [], text => some text
  | _ + 1, .first, [], _ => none
  | steps + 1, .first, inner :: outer, text =>
    match next inner.closing true text with
    | .closed rest => skipSteps isWhole steps .after outer rest
    | .entry text => do skipSteps isWhole steps .value (inner :: outer) (← valueOf inner text)
    | .malformed => none
  | steps + 1, .after, inner :: outer, text =>
    match next inner.closing false text with
    | .closed rest => skipSteps isWhole steps .after outer rest
    | .entry text => do skipSteps isWhole steps .value (inner :: outer) (← valueOf inner text)
    | .malformed => none

/-- The text behind a value. Two steps are enough for each byte. -/
def skip (isWhole : Bool) (text : List UInt8) : Option (List UInt8) :=
  skipSteps isWhole (2 * text.length + 2) .value [] text

end Mobility.Json
