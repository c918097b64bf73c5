import Mobility.Yaml.Basic
import Mobility.Yaml.Cursor

/-!
# YAML scalars in a text

This module reads scalars: plain ones, which end where the structure goes on, quoted ones, and ones
which are blocks of lines. Plain and quoted scalars can go on over several lines, and are folded
then (`Gap.text`).
-/

set_option autoImplicit false

namespace Mobility.Yaml

/-! ## Plain scalars -/

/-- Whether a plain scalar can start here. -/
def startsPlain (flow : Bool) (text : List Char) : Bool :=
  match text with
  | [] => false
  | '-' :: rest => !atGap rest
  | '?' :: rest => !flow && !atGap rest
  | ':' :: rest => !flow && !atGap rest
  | c :: rest => !atGap (c :: rest) && !("#,[]{}&*!|>'\"%@`".toList.contains c)

/-- Reads a word of a plain scalar. It ends at a gap, at a colon in front of one, and in brackets at
what separates their parts. -/
def word (flow : Bool) : List Char → Option (List Char × List Char)
  | [] => some ([], [])
  | c :: rest =>
    if atGap (c :: rest) || (flow && isBracketing c) then some ([], c :: rest)
    else if c = ':' && atGap rest then some ([], c :: rest)
    else if flow && c = ':' && (rest.head?.any fun d => isBracketing d || d = '?') then none
    else (word flow rest).map fun (chars, rest) => (c :: chars, rest)

/-- A plain scalar, and whether it ends behind a line break. -/
structure Plain where
  text : String
  endsLine : Bool

/-- Reads the words of a plain scalar behind a text and a gap, of which the text is given last
first. In a block its lines have to start at column `least` or behind it, and nowhere may a tab
stand in front of that column. -/
def plainFrom (flow : Bool) (least : Nat) : Nat → List Char → Gap → Reader Plain
  | 0, _, _ => fun _ => none
  | steps + 1, before, gap => fun cursor => do
    let ended (before : List Char) (gap : Gap) : Plain :=
      ⟨String.ofList before.reverse, !gap.breaks.isEmpty⟩
    if cursor.atMark || cursor.rest.head? == some '#' then return (ended before gap, cursor)
    let (chars, _) ← word flow cursor.rest
    if chars.isEmpty then return (ended before gap, cursor)
    let before := chars.reverseAux (gap.text.reverseAux before)
    let (gap, next) := (cursor.advance chars.length).gap
    if gap.tab.any (· < least) then none
    if !flow && next.column < least then return (ended before gap, next)
    plainFrom flow least steps before gap next

/-- Reads a plain scalar. -/
def plain (flow : Bool) (least : Nat) : Reader Plain := fun cursor =>
  plainFrom flow least (cursor.rest.length + 2) [] .none cursor

/-! ## Quoted scalars -/

/-- Reads a number of so many hexadecimal digits. -/
def hexNumber (count : Nat) (text : List Char) : Option Nat :=
  if (text.take count).length = count then digits? 16 (text.take count) else none

/-- What the characters behind a backslash stand for, and how many they are. -/
def escape (text : List Char) : Option (Char × Nat) :=
  let number (count : Nat) : Option (Char × Nat) := do
    let n ← hexNumber count (text.drop 1)
    if n.isValidChar then some (Char.ofNat n, count + 1) else none
  match text with
  | '0' :: _ => some ('\x00', 1)
  | 'a' :: _ => some ('\x07', 1)
  | 'b' :: _ => some ('\x08', 1)
  | 't' :: _ | '\t' :: _ => some ('\t', 1)
  | 'n' :: _ => some ('\n', 1)
  | 'v' :: _ => some ('\x0b', 1)
  | 'f' :: _ => some ('\x0c', 1)
  | 'r' :: _ => some ('\r', 1)
  | 'e' :: _ => some ('\x1b', 1)
  | ' ' :: _ => some (' ', 1)
  | '"' :: _ => some ('"', 1)
  | '/' :: _ => some ('/', 1)
  | '\\' :: _ => some ('\\', 1)
  | 'N' :: _ => some ('\x85', 1)
  | '_' :: _ => some (Char.ofNat 0xa0, 1)
  | 'L' :: _ => some (Char.ofNat 0x2028, 1)
  | 'P' :: _ => some (Char.ofNat 0x2029, 1)
  | 'x' :: _ => number 2
  | 'u' :: _ => number 4
  | 'U' :: _ => number 8
  | _ => none

/-- Reads a scalar behind its opening quote. What was read is given last first. -/
def quotedFrom (quote : Char) : Nat → List Char → Reader String
  | 0, _, _ => none
  | steps + 1, before, cursor =>
    if cursor.atMark then none
    else
      match cursor.rest with
      | [] => none
      | c :: rest =>
        if c = quote then
          if quote = '\'' ∧ rest.head? = some '\'' then
            quotedFrom quote steps ('\'' :: before) (cursor.advance 2)
          else some (String.ofList before.reverse, cursor.advance 1)
        else if c = '\\' ∧ quote = '"' then
          if rest.head?.any isBreak then
            let (gap, next) := (cursor.advance 1).gap
            quotedFrom quote steps ((gap.breaks.drop 1).reverseAux before) next
          else
            match escape rest with
            | none => none
            | some (c, count) => quotedFrom quote steps (c :: before) (cursor.advance (count + 1))
        else if atGap (c :: rest) then
          let (gap, next) := cursor.gap
          quotedFrom quote steps (gap.text.reverseAux before) next
        else quotedFrom quote steps (c :: before) (cursor.advance 1)

/-- Reads a scalar in quotes. -/
def quoted (quote : Char) : Reader String := fun cursor =>
  quotedFrom quote (cursor.rest.length + 1) [] (cursor.advance 1)

/-! ## Blocks of lines -/

/-- What becomes of the line breaks at the end of a block. -/
inductive Chomping where
  | strip
  /-- One is kept. -/
  | clip
  | keep
deriving DecidableEq

/-- The chomping that a character asks for. -/
def Chomping.of? (c : Char) : Option Chomping :=
  if c = '-' then some strip else if c = '+' then some keep else none

/-- Reads what stands behind the bar of a block: its chomping and its indentation, in any order. -/
def blockHeader (text : List Char) : Option (Chomping × Option Nat × List Char) := do
  let indentation (text : List Char) : Option (Option Nat × List Char) :=
    match text with
    | [] => some (none, [])
    | c :: rest =>
      if c = '0' then none
      else if c.isDigit then some (some (c.toNat - '0'.toNat), rest)
      else some (none, c :: rest)
  let chomping (text : List Char) : Option (Chomping × List Char) :=
    match text with
    | [] => none
    | c :: rest => (Chomping.of? c).map (·, rest)
  match chomping text with
  | some (chomp, rest) =>
    let (indent, rest) ← indentation rest
    return (chomp, indent, rest)
  | none =>
    let (indent, rest) ← indentation text
    match indent.bind fun _ => chomping rest with
    | some (chomp, rest) => return (chomp, indent, rest)
    | none => return (.clip, indent, rest)

/-- Passes over empty lines and over the indentation of a line, which isn't deeper than `indent` if
that is given. Returns the line breaks, last first, and the deepest column. Tabs can't indent. -/
def blockGap (indent : Option Nat) : List Char → Nat → List Char → Nat → Nat →
    Option ((List Char × Nat) × Cursor)
  | breaks, deepest, [], line, column => some ((breaks, max deepest column), ⟨[], line, column⟩)
  | breaks, deepest, c :: rest, line, column =>
    let indents := indent.all (column < ·)
    if c = ' ' && indents then blockGap indent breaks deepest rest line (column + 1)
    else if c = '\t' && indents then none
    else if isBreak c then
      blockGap indent (c :: breaks) (max deepest column) rest (line + 1) 0
    else some ((breaks, max deepest column), ⟨c :: rest, line, column⟩)

/-- Reads the lines of a block which are indented by `indent`. The text in front is given last
first, and so are the line breaks behind it; `fold` tells whether lines are joined, and `isDeeper`
whether the line in front starts with a blank. Returns the text and the line breaks behind it. -/
def blockLines (fold : Bool) (indent : Nat) : Nat → (before first more : List Char) →
    (isDeeper : Bool) → Reader (List Char × List Char × List Char)
  | 0, _, _, _, _ => fun _ => none
  | steps + 1, before, first, more, isDeeper => fun cursor => do
    if cursor.column ≠ indent || cursor.atEnd then return ((before, first, more), cursor)
    let startsDeeper := cursor.rest.head?.any isSpace
    let joint :=
      if fold && first == ['\n'] && !isDeeper && !startsDeeper then
        if more.isEmpty then [' '] else more
      else more ++ first
    let last := cursor.lineEnd
    let line := cursor.rest.take (last.column - cursor.column)
    let first := (last.rest.take 1).filter isBreak
    let next := last.passBreak
    let ((more, _), next) ← blockGap (some indent) [] 0 next.rest next.line next.column
    blockLines fold indent steps (line.reverseAux (joint ++ before)) first more startsDeeper next

/-- Reads a block of lines. `least` is the first column that lies inside the structure around it. -/
def block (least : Nat) : Reader String := fun cursor => do
  let fold := cursor.rest.head? == some '>'
  let (chomp, indent, rest) ← blockHeader (cursor.rest.drop 1)
  let behind := cursor.advance (cursor.rest.length - rest.length)
  let behind := behind.advance (behind.rest.takeWhile isSpace).length
  let last := if behind.rest.head? == some '#' then behind.lineEnd else behind
  if !(last.atEnd || last.rest.head?.any isBreak) then none
  let indent := indent.map fun n => if least = 0 then n else least - 1 + n
  let next := last.passBreak
  let ((more, deepest), start) ← blockGap indent [] 0 next.rest next.line next.column
  let indent := indent.getD (max deepest (max least 1))
  let ((text, first, more), behind) ←
    blockLines fold indent (start.rest.length + 1) [] [] more false start
  let text := match chomp with
    | .strip => text
    | .clip => first ++ text
    | .keep => more ++ first ++ text
  return (String.ofList text.reverse, behind)

end Mobility.Yaml
