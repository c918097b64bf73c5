/-!
# YAML values

A settings file is a tree of lists and mappings of scalars. A scalar is a text; whether it was
written in quotes is kept, because only a plain scalar can be read as something else than a text.
-/

set_option autoImplicit false

namespace Mobility

/-- A value of a YAML document. -/
inductive Yaml where
  | scalar (text : String) (isPlain : Bool)
  | list (items : List Yaml)
  | mapping (entries : List (Yaml × Yaml))

namespace Yaml

/-- The value of a key without a value. -/
def empty : Yaml := scalar "" true

/-- The text of a scalar. -/
def text? : Yaml → Option String
  | scalar text _ => some text
  | _ => none

/-! ## Plain scalars -/

/-- Reads digits of a base, of which there must be at least one. -/
def digits? (base : Nat) (digits : List Char) : Option Nat :=
  let value (c : Char) : Option Nat :=
    let d := if c.isDigit then c.toNat - '0'.toNat
      else if 'a' ≤ c && c ≤ 'z' then c.toNat - 'a'.toNat + 10
      else if 'A' ≤ c && c ≤ 'Z' then c.toNat - 'A'.toNat + 10
      else base
    if d < base then some d else none
  if digits.isEmpty then none
  else digits.foldlM (fun n c => (value c).map (n * base + ·)) 0

/-- The natural number a plain scalar stands for. A base can be given in front; otherwise a number
doesn't start with a zero. -/
def plainNatural? (text : String) : Option Nat :=
  let unsigned := match text.toList with
    | '+' :: rest => rest
    | all => all
  match unsigned with
  | '0' :: 'x' :: digits => digits? 16 digits
  | '0' :: 'o' :: digits => digits? 8 digits
  | '0' :: 'b' :: digits => digits? 2 digits
  | '0' :: _ :: _ => none
  | digits => digits? 10 digits

/-- The truth value a plain scalar stands for. -/
def plainFlag? (text : String) : Option Bool :=
  if text = "true" ∨ text = "True" ∨ text = "TRUE" then some true
  else if text = "false" ∨ text = "False" ∨ text = "FALSE" then some false
  else none

/-- Whether a plain scalar stands for nothing. -/
def isPlainNull (text : String) : Bool := ["", "null", "Null", "NULL", "~"].contains text

/-- The magnitude of the negative integer that a plain scalar stands for. -/
def plainNegative? (text : String) : Option Nat :=
  match text.toList with
  | '-' :: '+' :: _ => none
  | '-' :: rest => plainNatural? (String.ofList rest)
  | _ => none

/-- Whether `digits * 10 ^ exponent` lies beyond the numbers of double precision: it is rounded up
to `2 ^ 1024` or more. -/
def isBeyond (digits : Nat) (exponent : Int) : Bool :=
  let limit := (Nat.pow 2 54 - 1) * Nat.pow 2 970
  if 0 ≤ exponent then
    0 < digits && (400 < exponent || limit ≤ digits * Nat.pow 10 exponent.toNat)
  else limit ≤ digits / Nat.pow 10 (min (-exponent).toNat (digits.log2 + 1))

/-- Whether a plain scalar stands for a decimal number, with a point, an exponent, or neither. -/
def isPlainDecimal (text : String) : Bool :=
  let unsigned := match text.toList with
    | '+' :: rest => rest
    | '-' :: rest => rest
    | all => all
  let whole := unsigned.takeWhile Char.isDigit
  let rest := unsigned.dropWhile Char.isDigit
  let (fraction, rest) := match rest with
    | '.' :: rest => (rest.takeWhile Char.isDigit, rest.dropWhile Char.isDigit)
    | _ => ([], rest)
  let exponent : Option Int := match rest with
    | [] => some 0
    | e :: rest =>
      if e = 'e' || e = 'E' then
        match rest with
        | '+' :: digits => (digits? 10 digits).map Int.ofNat
        | '-' :: digits => (digits? 10 digits).map fun n => -Int.ofNat n
        | digits => (digits? 10 digits).map Int.ofNat
      else none
  let isDecimal := match digits? 10 (whole ++ fraction), exponent with
    | some digits, some exponent => !isBeyond digits (exponent - fraction.length)
    | _, _ => false
  let isText := 1 < unsigned.length && unsigned.head? == some '0' && unsigned.all Char.isDigit
  let isSpecial := [".nan", ".NaN", ".NAN"].contains text ||
    [".inf", ".Inf", ".INF"].contains (String.ofList unsigned)
  (isDecimal && !isText) || isSpecial

/-- What a scalar is by its look. -/
inductive Look where
  | nothing
  | flag
  | number
  /-- An integer of more than 64 bits, up to 128. -/
  | large
  | text
deriving DecidableEq

/-- The look of a scalar. A quoted one is a text. -/
def look (text : String) (isPlain : Bool) : Look :=
  if !isPlain then .text
  else if isPlainNull text then .nothing
  else if (plainFlag? text).isSome then .flag
  else
    let other : Look := if isPlainDecimal text then .number else .text
    match plainNatural? text, plainNegative? text with
    | some n, _ => if n < Nat.pow 2 64 then .number else if n < Nat.pow 2 128 then .large else other
    | none, some n =>
      if n ≤ Nat.pow 2 63 then .number else if n ≤ Nat.pow 2 127 then .large else other
    | none, none => other

/-! ## Held values -/

/-- How deep structures can be nested in one that is held. -/
def deepest : Nat := 128

mutual

/-- Whether a value can be held before it is known what it is for, with `depth` structures around
it. It isn't nested too deep, and has no integers which are too large. -/
def isHoldable (depth : Nat) : Yaml → Bool
  | scalar text isPlain => look text isPlain != .large
  | list items => depth < deepest && areHoldable (depth + 1) items
  | mapping entries => depth < deepest && entriesAreHoldable (depth + 1) entries

/-- Whether all these values can be held. -/
def areHoldable (depth : Nat) : List Yaml → Bool
  | [] => true
  | item :: rest => isHoldable depth item && areHoldable depth rest

/-- Whether all these keys and values can be held. -/
def entriesAreHoldable (depth : Nat) : List (Yaml × Yaml) → Bool
  | [] => true
  | (key, value) :: rest =>
    isHoldable depth key && isHoldable depth value && entriesAreHoldable depth rest

end

end Yaml

end Mobility
