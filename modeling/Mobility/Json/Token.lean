import Mobility.Utf8

/-!
# JSON tokens

A JSON text is read as bytes, because only the strings which are looked at have to be UTF-8. This
module holds what stands between structures: blanks, numbers, strings and the commas of a list. Each
reader returns what it read together with the bytes behind it, or nothing if the text is malformed.
A text may be cut off because its source failed. The end of such a text doesn't end a number, since
more digits could have followed; a reader of numbers is told whether the text is whole.
-/

set_option autoImplicit false

namespace Mobility.Json

/-- The byte of an ASCII character. -/
def ascii (c : Char) : UInt8 := UInt8.ofNat c.toNat

/-- The bytes of a text of ASCII characters. -/
def asciiText (s : String) : List UInt8 := s.toList.map ascii

/-! ## Blanks and digits -/

/-- Whether a byte separates tokens. -/
def isBlank (b : UInt8) : Bool :=
  b = ascii ' ' || b = ascii '\n' || b = ascii '\t' || b = ascii '\r'

/-- The text from its first token on. -/
def skipBlanks (text : List UInt8) : List UInt8 := text.dropWhile isBlank

/-- Whether a byte is a decimal digit. -/
def isDigit (b : UInt8) : Bool := ascii '0' ≤ b && b ≤ ascii '9'

/-- The value of a decimal digit. -/
def digitValue (b : UInt8) : Nat := b.toNat - '0'.toNat

/-- The value of a hexadecimal digit. -/
def hexValue (b : UInt8) : Option Nat :=
  if isDigit b then some (digitValue b)
  else if ascii 'a' ≤ b && b ≤ ascii 'f' then some (b.toNat - 'a'.toNat + 10)
  else if ascii 'A' ≤ b && b ≤ ascii 'F' then some (b.toNat - 'A'.toNat + 10)
  else none

/-! ## Numbers -/

/-- A number as it is written. -/
structure Number where
  negative : Bool
  /-- The digits in front of the point. -/
  whole : List Nat
  /-- The digits behind the point. -/
  fraction : List Nat
  /-- The sign and the digits of the exponent. -/
  exponent : Option (Bool × List Nat)
deriving DecidableEq

/-- The digits at the start of a text. -/
def digits (text : List UInt8) : List Nat × List UInt8 :=
  ((text.takeWhile isDigit).map digitValue, text.dropWhile isDigit)

/-- Reads at least one digit. -/
def someDigits (text : List UInt8) : Option (List Nat × List UInt8) :=
  match digits text with
  | ([], _) => none
  | found => some found

/-- Reads the digits in front of the point. Only a lone zero starts with a zero. -/
def wholeDigits (text : List UInt8) : Option (List Nat × List UInt8) :=
  match someDigits text with
  | some (0 :: _ :: _, _) => none
  | found => found

/-- Reads a point and the digits behind it, if there is a point. -/
def fractionDigits (text : List UInt8) : Option (List Nat × List UInt8) :=
  match text with
  | [] => some ([], [])
  | b :: rest => if b = ascii '.' then someDigits rest else some ([], b :: rest)

/-- Reads the sign of an exponent: whether it is negative. -/
def exponentSign (text : List UInt8) : Bool × List UInt8 :=
  match text with
  | [] => (false, [])
  | b :: rest =>
    if b = ascii '-' then (true, rest)
    else if b = ascii '+' then (false, rest)
    else (false, b :: rest)

/-- Reads an exponent, if there is one. -/
def exponentPart (text : List UInt8) : Option (Option (Bool × List Nat) × List UInt8) :=
  match text with
  | [] => some (none, [])
  | b :: rest =>
    if b = ascii 'e' || b = ascii 'E' then do
      let (negative, rest) := exponentSign rest
      let (digits, rest) ← someDigits rest
      return (some (negative, digits), rest)
    else some (none, b :: rest)

/-- Reads a number. If the text isn't whole, something has to follow the number. -/
def number (isWhole : Bool) (text : List UInt8) : Option (Number × List UInt8) := do
  let (negative, text) := match text with
    | [] => (false, [])
    | b :: rest => if b = ascii '-' then (true, rest) else (false, b :: rest)
  let (whole, text) ← wholeDigits text
  let (fraction, text) ← fractionDigits text
  let (exponent, text) ← exponentPart text
  if text.isEmpty && !isWhole then none
  return (⟨negative, whole, fraction, exponent⟩, text)

/-! ## Strings -/

/-- A part of a string: a byte that stands for itself, or a unit of UTF-16 given by its number. -/
inductive Piece where
  | byte (b : UInt8)
  | unit (n : Nat)
deriving DecidableEq

/-- Splits the text behind an opening quote at the closing one. A backslash hides the byte behind
it. Control characters can't stand in a string. -/
def closeString : List UInt8 → Option (List UInt8 × List UInt8)
  | [] => none
  | b :: rest =>
    if b = ascii '"' then some ([], rest)
    else if b < 0x20 then none
    else if b = ascii '\\' then
      match rest with
      | [] => none
      | c :: rest => (closeString rest).map fun (inner, rest) => (b :: c :: inner, rest)
    else (closeString rest).map fun (inner, rest) => (b :: inner, rest)

/-- The byte that a backslash and a letter stand for. -/
def escaped (b : UInt8) : Option UInt8 :=
  if b = ascii '"' || b = ascii '\\' || b = ascii '/' then some b
  else if b = ascii 'b' then some 0x08
  else if b = ascii 'f' then some 0x0c
  else if b = ascii 'n' then some 0x0a
  else if b = ascii 'r' then some 0x0d
  else if b = ascii 't' then some 0x09
  else none

/-- The pieces of what stands between two quotes. -/
def pieces : List UInt8 → Option (List Piece)
  | [] => some []
  | b :: rest =>
    if b = ascii '\\' then
      match rest with
      | [] => none
      | c :: rest =>
        if c = ascii 'u' then
          match rest with
          | h₃ :: h₂ :: h₁ :: h₀ :: rest => do
            let n := (← hexValue h₃) * 0x1000 + (← hexValue h₂) * 0x100 +
              (← hexValue h₁) * 0x10 + (← hexValue h₀)
            return .unit n :: (← pieces rest)
          | _ => none
        else do
          let c ← escaped c
          return .byte c :: (← pieces rest)
    else do return .byte b :: (← pieces rest)

/-- The bytes of a code point. -/
def codePoint (n : Nat) : List UInt8 := String.utf8EncodeChar (Char.ofNat n)

/-- The bytes of pieces. A unit of the first half of a pair has to be followed by one of the second
half. -/
def joined : List Piece → Option (List UInt8)
  | [] => some []
  | .byte b :: rest => (joined rest).map (b :: ·)
  | .unit n :: rest =>
    if n < 0xd800 ∨ 0xdfff < n then (joined rest).map (codePoint n ++ ·)
    else if 0xdc00 ≤ n then none
    else
      match rest with
      | .unit m :: rest =>
        if 0xdc00 ≤ m ∧ m ≤ 0xdfff then
          (joined rest).map (codePoint ((n - 0xd800) * 0x400 + (m - 0xdc00) + 0x10000) ++ ·)
        else none
      | _ => none

/-- Reads a string from its opening quote on. -/
def string (text : List UInt8) : Option (String × List UInt8) :=
  match text with
  | [] => none
  | b :: rest =>
    if b = ascii '"' then do
      let (inner, rest) ← closeString rest
      return (← Utf8.decode? (← joined (← pieces inner)), rest)
    else none

/-! ## Lists -/

/-- What comes next in a list. -/
inductive Next where
  /-- The list is over. -/
  | closed (rest : List UInt8)
  /-- An entry follows. -/
  | entry (text : List UInt8)
  | malformed

/-- Finds the next entry of a list which ends with `closing`. Every entry but the first follows a
comma, and a comma is followed by an entry. -/
def next (closing : UInt8) (isFirst : Bool) (text : List UInt8) : Next :=
  match skipBlanks text with
  | [] => .malformed
  | b :: rest =>
    if b = closing then .closed rest
    else if isFirst then .entry (b :: rest)
    else if b = ascii ',' then
      match skipBlanks rest with
      | [] => .malformed
      | c :: rest => if c = closing then .malformed else .entry (c :: rest)
    else .malformed

/-- The text behind the colon which follows a key. -/
def colon (text : List UInt8) : Option (List UInt8) :=
  match skipBlanks text with
  | [] => none
  | b :: rest => if b = ascii ':' then some rest else none

end Mobility.Json
