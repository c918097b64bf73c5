import Mobility.Program

/-!
# The command line

Copies what the program looks at from the disk into a file tree, runs the program on it, and writes
what is new or has changed back to the disk.
-/

set_option autoImplicit false

namespace Mobility

/-- The text of a location on the disk. -/
def diskPath (l : Location) : String := "/" ++ "/".intercalate l

/-- Copies what is at a location on the disk into the tree. -/
def fetch (t : FileTree) (l : Location) : IO FileTree := do
  if (t.node? l).isSome then return t
  try
    let content ← IO.FS.readBinFile (diskPath l)
    return t.put l (.file content.toList)
  catch _ =>
    try
      discard (IO.FS.withFile (diskPath l ++ "/.") .read fun _ => return ())
      return t.put l .directory
    catch _ => return t

/-- Copies what a path passes and where it ends. -/
def fetchPath (t : FileTree) (p : FilePath) : IO FileTree := do
  let names := p.names.filter FilePath.counts
  let first := if p.isAbsolute then [] else t.here
  let (t, _) ← names.foldlM (fun (t, l) name => do
    let l := if name = ".." then l.dropLast else l ++ [name]
    return (← fetch t l, l)) (t, first)
  return t

/-- Writes what is new or has changed. -/
def writeBack (before after : FileTree) : IO Unit :=
  after.nodes.forM fun (l, node) => do
    if before.node? l = some node then return ()
    match node with
    | .directory => IO.FS.createDir (diskPath l)
    | .file content => IO.FS.writeBinFile (diskPath l) ⟨content.toArray⟩

end Mobility

open Mobility in
/-- Runs the program on the disk. -/
def main (arguments : List String) : IO UInt32 := do
  let here := ((← IO.currentDir).toString.splitOn "/").filter FilePath.counts
  let t ← (List.range here.length).foldlM (fun t n => fetch t (here.take (n + 1))) ⟨[], here⟩
  let t ← (Program.looksAt arguments t).foldlM fetchPath t
  let t ← (Program.looksAt arguments t).foldlM fetchPath t
  let (outcome, after) := Program.run arguments t
  writeBack t after
  if let some text := outcome.message then
    if outcome.exitCode = 0 then IO.println text else IO.eprintln text
  return UInt32.ofNat outcome.exitCode
