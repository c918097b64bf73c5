import Mobility.Unicode.Hidden

/-!
# Paths of files

A path is a text of names separated by slashes. Empty names don't count, and neither do names which
are a single dot, except for a dot in front. What is asked about a path looks at the names that
count, but the text in front of them is kept as it was written, because it is what a system is
asked for.
-/

set_option autoImplicit false

namespace Mobility

/-- A path as it is written. -/
structure FilePath where
  text : String
deriving DecidableEq

namespace FilePath

/-! ## Names -/

/-- Splits at every slash. -/
def splitSlashes : List Char → List (List Char)
  | [] => [[]]
  | c :: rest =>
    if c = '/' then [] :: splitSlashes rest
    else
      match splitSlashes rest with
      | [] => [[c]]
      | name :: names => (c :: name) :: names

/-- What stands between the slashes. -/
def names (p : FilePath) : List String := (splitSlashes p.text.toList).map String.ofList

/-- Whether a path starts at the root. -/
def isAbsolute (p : FilePath) : Bool := p.text.startsWith "/"

/-- Whether a path starts at a dot. -/
def startsWithDot (p : FilePath) : Bool := p.names.head? == some "."

/-- Whether a name counts when it doesn't stand in front. -/
def counts (name : String) : Bool := name ≠ "" && name ≠ "."

/-- The names behind a slash or a dot in front. -/
def body (p : FilePath) : List String :=
  if p.isAbsolute || p.startsWithDot then p.names.drop 1 else p.names

/-- The names without those at the end which don't count. -/
def trimmed (names : List String) : List String :=
  (names.reverse.dropWhile fun name => !counts name).reverse

/-- The path with the same start and these names behind it. -/
def withBody (p : FilePath) (names : List String) : FilePath :=
  let rest := "/".intercalate names
  if p.isAbsolute then ⟨"/" ++ rest⟩
  else if p.startsWithDot then if names.isEmpty then ⟨"."⟩ else ⟨"./" ++ rest⟩
  else ⟨rest⟩

/-- The path without its last name. The root and the empty path have no parent. -/
def parent (p : FilePath) : Option FilePath :=
  match (trimmed p.body).reverse with
  | _ :: outer => some (p.withBody (trimmed outer.reverse))
  | [] => if !p.isAbsolute && p.startsWithDot then some ⟨""⟩ else none

/-- The path itself and its parents from the inside out, at most `count` of them. -/
def outwards : Nat → FilePath → List FilePath
  | 0, _ => []
  | count + 1, p =>
    match p.parent with
    | some outer => p :: outwards count outer
    | none => [p]

/-- The last name, if it is the name of a file. -/
def fileName (p : FilePath) : Option String := (trimmed p.body).getLast?.filter (· ≠ "..")

/-! ## Endings -/

/-- A name in front of and behind its last dot. A dot in front of a name is a part of it. -/
def splitEnding (name : String) : String × Option String :=
  let reversed := name.toList.reverse
  let ending := (reversed.takeWhile (· ≠ '.')).reverse
  match reversed.dropWhile (· ≠ '.') with
  | _ :: stem =>
    if stem.isEmpty then (name, none) else (String.ofList stem.reverse, some (String.ofList ending))
  | [] => (name, none)

/-- What follows the last dot of the file name. -/
def ending (p : FilePath) : Option String := p.fileName.bind fun name => (splitEnding name).2

/-- The file name without its ending. -/
def stem (p : FilePath) : Option String := p.fileName.map fun name => (splitEnding name).1

/-- Whether the file is compressed. -/
def isCompressed (p : FilePath) : Bool := p.ending == some "gz"

/-- The ending which tells the format: the one in front of the ending of a compressed file. -/
def format (p : FilePath) : Option String :=
  if p.isCompressed then p.stem.bind fun stem => (FilePath.mk stem).ending else p.ending

/-! ## Joining -/

/-- The path `file` as seen from the directory `p`. -/
def join (p file : FilePath) : FilePath :=
  if file.isAbsolute then file
  else if p.text.isEmpty || p.text.endsWith "/" then ⟨p.text ++ file.text⟩
  else ⟨p.text ++ "/" ++ file.text⟩

/-- The path of a file which is named in `settings`: relative to the directory of the settings,
unless it starts at the root or with a dot. -/
def resolve (settings file : FilePath) : FilePath :=
  if file.isAbsolute || file.startsWithDot then file
  else
    match settings.parent with
    | some directory => directory.join file
    | none => file

/-- The file for the state of partition `rank`. -/
def stateFile (directory : FilePath) (rank : Nat) : FilePath :=
  directory.join ⟨s!"state.{rank}.txt"⟩

/-- The path in quotes, as it is reported. -/
def quoted (p : FilePath) : String :=
  let escape (c : Char) : String :=
    if c = '"' then "\\\""
    else if c = '\\' then "\\\\"
    else if c = '\n' then "\\n"
    else if c = '\t' then "\\t"
    else if c = '\r' then "\\r"
    else if c = '\x00' then "\\0"
    else if Unicode.isHidden c then Unicode.shownNumber c
    else String.singleton c
  "\"" ++ String.join (p.text.toList.map escape) ++ "\""

end FilePath

end Mobility
