import Mobility.Yaml.Scalar

/-!
# YAML tokens

A text is a sequence of tokens. Brackets are written; the start and the end of a block follow from
the columns of its entries. Whether a scalar or a bracketed structure is a key shows only at the
colon behind it: until then it is a candidate. A key stands on one line and isn't too long. Anchors,
tags and directives aren't read.
-/

set_option autoImplicit false

namespace Mobility.Yaml

/-- The kinds of structures. -/
inductive Collection where
  | list
  | mapping
deriving DecidableEq

/-- A part of a text. -/
inductive Token where
  | scalar (text : String) (isPlain : Bool)
  | opening (kind : Collection)
  | closing (kind : Collection)
  | comma
  | blockStart (kind : Collection)
  | blockEnd
  /-- An item of a block follows. -/
  | dash
  | key
  | value
  | documentStart
  | documentEnd
deriving DecidableEq

/-- Something that is a key if a colon follows. -/
structure Candidate where
  /-- How many tokens stand in front of it. -/
  index : Nat
  line : Nat
  column : Nat
  /-- Whether it has to be a key, because it stands in the column of the entries. -/
  isRequired : Bool

/-- How far behind the start of a key its colon can stand. -/
def longestKey : Nat := 1024

/-- The tokens in front of a place in a text, and what has to be known about them. -/
structure Scan where
  cursor : Cursor
  /-- The columns of the blocks around, the innermost first. -/
  columns : List Nat
  /-- The candidate in each pair of brackets around, the innermost first, and in the blocks. -/
  candidates : List (Option Candidate)
  /-- Whether a candidate can start here. -/
  allowsKey : Bool
  /-- The tokens, the last first. -/
  tokens : List Token
  /-- How many there are. -/
  count : Nat

namespace Scan

/-- The start of a text. -/
def start (text : List Char) : Scan := ⟨⟨text, 0, 0⟩, [], [none], true, [], 0⟩

/-- Whether the place is in brackets. -/
def inFlow (s : Scan) : Bool := 1 < s.candidates.length

/-- The first column which lies inside the innermost block. -/
def least (s : Scan) : Nat := (s.columns.head?.map (· + 1)).getD 0

/-- Adds a token. -/
def push (s : Scan) (t : Token) : Scan := { s with tokens := t :: s.tokens, count := s.count + 1 }

/-- Adds a token behind the first `index` ones. -/
def insert (s : Scan) (index : Nat) (t : Token) : Scan :=
  let behind := s.count - index
  { s with
    tokens := s.tokens.take behind ++ t :: s.tokens.drop behind
    count := s.count + 1 }

/-- Goes on behind the next `count` characters. -/
def advance (s : Scan) (count : Nat) : Scan := { s with cursor := s.cursor.advance count }

/-! ## Candidates -/

/-- Gives up the innermost candidate. It isn't a key. -/
def dropCandidate (s : Scan) : Option Scan :=
  match s.candidates with
  | some c :: outer => if c.isRequired then none else some { s with candidates := none :: outer }
  | _ => some s

/-- Gives up the candidates which are on an earlier line or too far away. -/
def dropStale (s : Scan) : Option Scan := do
  let isStale (c : Candidate) : Bool :=
    c.line < s.cursor.line || c.column + longestKey < s.cursor.column
  let candidates ← s.candidates.mapM fun
    | some c => if !isStale c then some (some c) else if c.isRequired then none else some none
    | none => some none
  return { s with candidates := candidates }

/-- Makes what follows a candidate, if it can be one. -/
def noteCandidate (s : Scan) : Option Scan := do
  if !s.allowsKey then return s
  let s ← s.dropCandidate
  let column := s.cursor.column
  let isRequired := !s.inFlow && s.columns.head? == some column
  let c : Candidate := ⟨s.count, s.cursor.line, column, isRequired⟩
  return { s with candidates := some c :: s.candidates.drop 1 }

/-! ## Blocks -/

/-- Starts a block in a column behind that of the block around it, in front of the token at
`index`. -/
def openBlock (s : Scan) (kind : Collection) (column index : Nat) : Scan :=
  if s.inFlow || column < s.least then s
  else { s.insert index (.blockStart kind) with columns := column :: s.columns }

/-- Ends the blocks whose columns `isOver` tells. -/
def closeBlocks (s : Scan) (isOver : Nat → Bool) : Scan :=
  if s.inFlow then s
  else
    let ended := s.columns.takeWhile isOver
    { ended.foldl (fun s _ => s.push .blockEnd) s with columns := s.columns.dropWhile isOver }

/-! ## Tokens -/

/-- Goes on to the next token. A line break allows keys in a block. -/
def skip (s : Scan) : Option Scan := do
  let next := s.cursor.skip s.inFlow (!s.allowsKey)
  let breaks := next.line ≠ s.cursor.line
  let s ← dropStale { s with cursor := next, allowsKey := s.allowsKey || (breaks && !s.inFlow) }
  return s.closeBlocks (next.column < ·)

/-- A mark that starts or ends a document. -/
def documentMark (s : Scan) (t : Token) : Option Scan := do
  let s ← (s.closeBlocks fun _ => true).dropCandidate
  return { (s.advance 3).push t with allowsKey := false }

/-- An opening bracket. -/
def openBracket (s : Scan) (kind : Collection) : Option Scan := do
  let s ← s.noteCandidate
  return { (s.advance 1).push (.opening kind) with
    candidates := none :: s.candidates, allowsKey := true }

/-- A closing bracket. -/
def closeBracket (s : Scan) (kind : Collection) : Option Scan := do
  let s ← s.dropCandidate
  return { (s.advance 1).push (.closing kind) with
    candidates := if s.inFlow then s.candidates.drop 1 else s.candidates, allowsKey := false }

/-- A comma. -/
def comma (s : Scan) : Option Scan := do
  let s ← s.dropCandidate
  return { (s.advance 1).push .comma with allowsKey := true }

/-- An indicator of an entry: a dash, a question mark, or a colon with no candidate in front of it.
In a block it stands where a key could. -/
def indicator (s : Scan) (t : Token) (kind : Collection) (allowsKey : Bool) : Option Scan := do
  if !s.inFlow && !s.allowsKey then none
  let s ← (s.openBlock kind s.cursor.column s.count).dropCandidate
  return { (s.advance 1).push t with allowsKey := allowsKey }

/-- A colon. -/
def colon (s : Scan) : Option Scan :=
  match s.candidates with
  | some c :: outer =>
    let s := (s.insert c.index .key).openBlock .mapping c.column c.index
    some { (s.advance 1).push .value with candidates := none :: outer, allowsKey := false }
  | _ => s.indicator .value .mapping !s.inFlow

/-- A scalar in quotes. -/
def quotedScalar (s : Scan) (quote : Char) : Option Scan := do
  let s ← s.noteCandidate
  let (text, cursor) ← quoted quote s.cursor
  return { s.push (.scalar text false) with cursor := cursor, allowsKey := false }

/-- A plain scalar. -/
def plainScalar (s : Scan) : Option Scan := do
  let s ← s.noteCandidate
  let (found, cursor) ← plain s.inFlow s.least s.cursor
  return { s.push (.scalar found.text true) with cursor := cursor, allowsKey := found.endsLine }

/-- A block of lines. -/
def blockScalar (s : Scan) : Option Scan := do
  let s ← s.dropCandidate
  let (text, cursor) ← block s.least s.cursor
  return { s.push (.scalar text false) with cursor := cursor, allowsKey := true }

/-- The next token, which starts here. -/
def next (s : Scan) : Option Scan :=
  match s.cursor.rest with
  | [] => some s
  | c :: rest =>
    if s.cursor.atMark then s.documentMark (if c = '-' then .documentStart else .documentEnd)
    else if c = '[' then s.openBracket .list
    else if c = '{' then s.openBracket .mapping
    else if c = ']' then s.closeBracket .list
    else if c = '}' then s.closeBracket .mapping
    else if c = ',' then s.comma
    else if c = '-' && atGap rest then s.indicator .dash .list true
    else if c = '?' && (s.inFlow || atGap rest) then s.indicator .key .mapping !s.inFlow
    else if c = ':' && (s.inFlow || atGap rest) then s.colon
    else if (c = '|' || c = '>') && !s.inFlow then s.blockScalar
    else if c = '\'' || c = '"' then s.quotedScalar c
    else if startsPlain s.inFlow (c :: rest) then s.plainScalar
    else none

/-- All tokens of a text. `steps` bounds how many are written. -/
def finish : Nat → Scan → Option (List Token)
  | 0, _ => none
  | steps + 1, s => do
    let s ← s.skip
    if s.cursor.atEnd then
      return (← (s.closeBlocks fun _ => true).dropCandidate).tokens.reverse
    else finish steps (← s.next)

end Scan

/-- The tokens of a text. -/
def Token.ofText? (text : String) : Option (List Token) := do
  if !text.toList.all isPermitted then none
  let chars := unifyBreaks text.toList
  (Scan.start chars).finish (chars.length + 1)

end Mobility.Yaml
