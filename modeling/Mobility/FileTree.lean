import Mobility.FilePath

/-!
# Files

A file tree is a set of directories and files, each at its location: the names that lead there from
the root. Paths are looked up from the working directory. Work on files is a `Disk` act, which keeps
the tree as it is when the act fails; so a failed act may have left something behind.
-/

set_option autoImplicit false

namespace Mobility

/-- What is at a location. -/
inductive Node where
  | directory
  | file (content : List UInt8)
deriving DecidableEq

/-- The names that lead from the root to a directory or file. -/
abbrev Location := List String

/-- Directories and files. The root isn't listed. -/
structure FileTree where
  nodes : List (Location × Node)
  /-- The working directory. -/
  here : Location
deriving DecidableEq

/-- Why a path can't be used. -/
inductive FileError where
  | missing
  | notDirectory
  | isDirectory
  | exists
  /-- A name or a path has too many bytes. -/
  | tooLong
  /-- A path holds a zero byte. -/
  | unusable
deriving DecidableEq

/-- What an error says. -/
def FileError.message : FileError → String
  | missing => "I/O error: No such file or directory"
  | notDirectory => "I/O error: Not a directory"
  | isDirectory => "I/O error: Is a directory"
  | .exists => "I/O error: File exists"
  | tooLong => "I/O error: File name too long"
  | unusable => "I/O error: file name contained an unexpected NUL byte"

/-- An act on files. -/
abbrev Disk := EStateM FileError FileTree

namespace FileTree

/-- What is at a location. -/
def node? (t : FileTree) (l : Location) : Option Node :=
  if l.isEmpty then some .directory else (t.nodes.find? fun n => n.1 = l).map (·.2)

/-- Puts something at a location. -/
def put (t : FileTree) (l : Location) (node : Node) : FileTree :=
  if (t.nodes.any fun n => n.1 = l) then
    { t with nodes := t.nodes.map fun n => if n.1 = l then (l, node) else n }
  else { t with nodes := t.nodes ++ [(l, node)] }

/-- The most bytes a name can have. -/
def longestName : Nat := 255

/-- The most bytes a path can have. -/
def longestPath : Nat := 4095

/-- Where `name` leads from a location, which has to be a directory. -/
def enter (t : FileTree) (l : Location) (name : String) : Except FileError Location :=
  match t.node? l with
  | none => .error .missing
  | some (.file _) => .error .notDirectory
  | some .directory =>
    if longestName < name.utf8ByteSize then .error .tooLong
    else if name = "" ∨ name = "." then .ok l
    else .ok (if name = ".." then l.dropLast else l ++ [name])

/-- Where a path leads. Every name but the last one has to lead to a directory. -/
def locate (t : FileTree) (p : FilePath) (names : List String) : Except FileError Location :=
  if p.text.isEmpty then .error .missing
  else if p.text.toList.contains '\x00' then .error .unusable
  else if longestPath < p.text.utf8ByteSize then .error .tooLong
  else names.foldlM t.enter (if p.isAbsolute then [] else t.here)

/-- What is at a path. -/
def at? (t : FileTree) (p : FilePath) : Option Node :=
  match t.locate p p.names with
  | .ok l => t.node? l
  | .error _ => none

/-- The content of a file. -/
def read (t : FileTree) (p : FilePath) : Except FileError (List UInt8) := do
  match t.node? (← t.locate p p.names) with
  | none => .error .missing
  | some .directory => .error .isDirectory
  | some (.file content) => .ok content

/-- Whether a name stands before another one. -/
def nameBefore (a b : String) : Bool :=
  List.lex (a.toList.map Char.toNat) (b.toList.map Char.toNat) fun x y => decide (x < y)

/-- Whether a location stands before another one. -/
def comesBefore (a b : Location) : Bool := List.lex a b nameBefore

/-- Everything below the working directory, by name, with a directory before what is in it. -/
def listing (t : FileTree) : List (Location × Node) :=
  let below := t.nodes.filter fun n => t.here.isPrefixOf n.1 && t.here != n.1
  (below.map fun n => (n.1.drop t.here.length, n.2)).mergeSort fun a b => !comesBefore b.1 a.1

end FileTree

namespace Disk

/-- The result of something that changes no file. -/
def look {α : Type} (query : FileTree → Except FileError α) : Disk α := do
  match query (← get) with
  | .ok a => return a
  | .error e => throw e

/-- Makes a directory. Its path may end with slashes. -/
def createDirectory (p : FilePath) : Disk Unit := do
  let l ← look fun t => t.locate p (p.names.reverse.dropWhile String.isEmpty).reverse
  match (← get).node? l with
  | some _ => throw .exists
  | none => modify fun t => t.put l .directory

/-- Makes the first one of some directories, of which each one is in the next one. Those around it
are made only if it can't be made otherwise. -/
def createWithin : List FilePath → Disk Unit
  | [] => throw .missing
  | p :: outer => do
    if p.text.isEmpty then return ()
    match ← attempt p with
    | none => return ()
    | some .missing =>
      createWithin outer
      match ← attempt p with
      | none => return ()
      | some e => unlessDirectory p e
    | some e => unlessDirectory p e
where
  attempt (p : FilePath) : Disk (Option FileError) := do
    match createDirectory p (← get) with
    | .ok _ t => set t; return none
    | .error e t => set t; return some e
  unlessDirectory (p : FilePath) (e : FileError) : Disk Unit := do
    if (← get).at? p = some .directory then return () else throw e

/-- Makes a directory and those around it, as far as they are missing. -/
def createDirectories (p : FilePath) : Disk Unit :=
  createWithin (p.outwards (p.text.length + 1))

/-- Makes a file with this content, or replaces the content of a file. -/
def write (p : FilePath) (content : List UInt8) : Disk Unit := do
  let l ← look fun t => t.locate p p.names
  match (← get).node? l with
  | some .directory => throw .isDirectory
  | _ => modify fun t => t.put l (.file content)

end Disk

end Mobility
