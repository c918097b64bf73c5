/-!
# Inflating

A deflated stream is a sequence of blocks. A stored block holds bytes as they are; the other ones
hold symbols in prefix codes, which stand for bytes, for the end of the block, or for a copy of
bytes which came out before. The codes are canonical: they follow from the length of the code of
every symbol. Reading stops early if the stream is cut off or makes no sense.

The output is made in rounds and handed on in answers. A round ends where the window is full or the
portion of the file at hand is used up. An answer is handed on when it is full, or when a portion is
used up. If the stream makes no sense, then what wasn't handed on is lost; if it is cut off, nothing
is lost.
-/

set_option autoImplicit false

namespace Mobility.Gzip

/-- How many bytes come from the file at once. -/
def portionSize : Nat := 0x8000

/-- How many bytes of output a round can make, counted from the start of the output on. -/
def windowSize : Nat := 0x8000

/-- How many bytes an answer holds. -/
def answerSize : Nat := 0x2000

/-- The place in a stream. Of the first byte `used` bits were read; bits are read lowest first. -/
structure Stream where
  rest : List UInt8
  used : Nat
  /-- How many bytes of the file stand in front of the rest. -/
  position : Nat
  /-- What came out. -/
  output : Array UInt8
  /-- Where the round started in the output. -/
  round : Nat
  /-- How much of the answer earlier rounds left for this one. -/
  room : Nat
  /-- How much of the output can't be lost any more. -/
  delivered : Nat

/-- Why reading stopped early. -/
inductive Stop where
  | cutOff
  | corrupt
deriving DecidableEq

namespace Stream

/-- The start of a stream in a file. -/
def start (rest : List UInt8) (position : Nat) : Stream :=
  ⟨rest, 0, position, #[], 0, answerSize, 0⟩

/-- Whether a byte is at hand of which nothing was read. -/
def hasMore (s : Stream) : Bool :=
  let begun := if s.used = 0 then 0 else 1
  (s.position + begun) % portionSize != 0 && !(s.rest.drop begun).isEmpty

/-- Hands on all output, and starts a round. -/
def deliver (s : Stream) : Stream :=
  { s with round := s.output.size, room := answerSize, delivered := s.output.size }

/-- Ends a round if the window is full. As long as the answer isn't full and there is more at hand,
the next round goes on with the answer. -/
def makeRoom (s : Stream) : Stream :=
  let made := s.output.size - s.round
  if made = 0 || s.output.size % windowSize ≠ 0 then s
  else if made < s.room && s.hasMore then
    { s with round := s.output.size, room := s.room - made }
  else s.deliver

/-- Takes the next portion of the file if the one at hand is used up. -/
def load (s : Stream) : Stream :=
  if s.used = 0 && s.position % portionSize = 0 then s.deliver else s

end Stream

/-- Reads a part of a stream. What came out before an early stop is kept. -/
abbrev Inflate := EStateM Stop Stream

namespace Inflate

/-! ## Bits and bytes -/

/-- Reads a bit. -/
def bit : Inflate Nat := do
  modify Stream.load
  let s ← get
  match s.rest with
  | [] => throw .cutOff
  | b :: rest =>
    let value := b.toNat >>> s.used % 2
    set (if s.used = 7 then { s with rest := rest, used := 0, position := s.position + 1 }
      else { s with used := s.used + 1 })
    return value

/-- Reads a number of `count` bits, the lowest first. -/
def bits : Nat → Inflate Nat
  | 0 => return 0
  | count + 1 => do
    let low ← bit
    return low + 2 * (← bits count)

/-- Passes over the rest of a byte of which bits were read. -/
def align : Inflate Unit := modify fun s =>
  if s.used = 0 then s
  else { s with rest := s.rest.drop 1, used := 0, position := s.position + 1 }

/-- Reads a byte of which no bits were read. -/
def byte : Inflate UInt8 := do
  modify Stream.load
  let s ← get
  match s.rest with
  | [] => throw .cutOff
  | b :: rest =>
    set { s with rest := rest, position := s.position + 1 }
    return b

/-- Reads a number of `width` bytes, the lowest first. -/
def number : Nat → Inflate Nat
  | 0 => return 0
  | width + 1 => do
    let low ← byte
    return low.toNat + 0x100 * (← number width)

/-- Adds a byte to the output. -/
def emit (b : UInt8) : Inflate Unit := modify fun s =>
  let s := s.makeRoom
  { s with output := s.output.push b }

/-- Moves `count` bytes to the output. -/
def copyBytes : Nat → Inflate Unit
  | 0 => return ()
  | count + 1 => do
    modify Stream.makeRoom
    emit (← byte)
    copyBytes count

/-- Repeats `count` bytes of the output, from the one `distance` bytes back on. In front of the
output there are zeros. -/
def copyBack (distance : Nat) : Nat → Inflate Unit
  | 0 => return ()
  | count + 1 => do
    let output := (← get).output
    emit (if distance ≤ output.size then output.getD (output.size - distance) 0 else 0)
    copyBack distance count

/-! ## Codes -/

/-- A code: for each length from 1 on the symbols which have codes of that length, in order. -/
abbrev Code := List (List Nat)

/-- The canonical code in which symbol `i` has a code of length `lengths[i]`. Symbols of length 0
have no code. -/
def codeOf (lengths : List Nat) : Code :=
  let rows := (List.range 15).map fun i =>
    (lengths.zipIdx.filter fun p => p.1 = i + 1).map (·.2)
  (rows.reverse.dropWhile List.isEmpty).reverse

/-- How much of all bit sequences the codes of some length and of longer ones take up, in units of a
`2 ^ depth`th part, where `depth` is the length of the longest ones. -/
def Code.share : Code → Nat
  | [] => 0
  | row :: longer => row.length * Nat.pow 2 longer.length + Code.share longer

/-- Whether every bit sequence starts with a code, and no code with another one. -/
def Code.isComplete (code : Code) : Bool := code.share == Nat.pow 2 code.length

/-- Whether a code can be read: it is complete, or has at most one symbol. -/
def Code.isUsable (code : Code) : Bool :=
  code.isComplete || (code.map List.length).foldl (· + ·) 0 ≤ 1

/-- Reads a symbol. The codes of a length are consecutive numbers; `above` is the number that was
read so far, and `first` is the number behind the last code of its length. -/
def symbolFrom : Code → Nat → Nat → Inflate Nat
  | [], _, _ => throw .corrupt
  | row :: longer, above, first => do
    let code := 2 * above + (← bit)
    match if 2 * first ≤ code then row[code - 2 * first]? else none with
    | some symbol => return symbol
    | none => symbolFrom longer code (2 * first + row.length)

/-- Reads a symbol. -/
def symbol (code : Code) : Inflate Nat := symbolFrom code 0 0

/-- Reads the length of a copy, whose class is `i`. -/
def copyLength (i : Nat) : Inflate Nat :=
  if i < 8 then return i + 3
  else if i < 28 then do
    let extra := i / 4 - 1
    return ((4 + i % 4) <<< extra) + 3 + (← bits extra)
  else if i = 28 then return 258
  else throw .corrupt

/-- Reads the distance of a copy, whose class is `i`. -/
def copyDistance (i : Nat) : Inflate Nat :=
  if i < 4 then return i + 1
  else if i < 30 then do
    let extra := i / 2 - 1
    return ((2 + i % 2) <<< extra) + 1 + (← bits extra)
  else throw .corrupt

/-- Reads symbols up to the end of a block. `steps` bounds their number. -/
def symbols (literals distances : Code) : Nat → Inflate Unit
  | 0 => throw .corrupt
  | steps + 1 => do
    let s ← symbol literals
    if s < 256 then
      emit (UInt8.ofNat s)
      symbols literals distances steps
    else if s = 256 then return ()
    else
      let length ← copyLength (s - 257)
      let distance ← copyDistance (← symbol distances)
      copyBack distance length
      symbols literals distances steps

/-- The code of the literals in a block without codes of its own. -/
def fixedLiterals : Code :=
  codeOf (List.replicate 144 8 ++ List.replicate 112 9 ++ List.replicate 24 7 ++ List.replicate 8 8)

/-- The code of the distances in a block without codes of its own. -/
def fixedDistances : Code := codeOf (List.replicate 30 5)

/-- The order in which the lengths of the code of code lengths are stored. -/
def lengthOrder : List Nat := [16, 17, 18, 0, 8, 7, 9, 6, 10, 5, 11, 4, 12, 3, 13, 2, 14, 1, 15]

/-- Reads code lengths until there are `total`. The ones which were read are given last first. -/
def lengths (code : Code) (total : Nat) : Nat → List Nat → Inflate (List Nat)
  | 0, _ => throw .corrupt
  | steps + 1, before =>
    if total ≤ before.length then
      if before.length = total then return before.reverse else throw .corrupt
    else do
      let s ← symbol code
      if s < 16 then lengths code total steps (s :: before)
      else if s = 16 then
        match before with
        | [] => throw .corrupt
        | last :: _ => lengths code total steps (List.replicate (3 + (← bits 2)) last ++ before)
      else if s = 17 then lengths code total steps (List.replicate (3 + (← bits 3)) 0 ++ before)
      else lengths code total steps (List.replicate (11 + (← bits 7)) 0 ++ before)

/-- Reads the two codes of a block. -/
def codes : Inflate (Code × Code) := do
  let literals := 257 + (← bits 5)
  let distances := 1 + (← bits 5)
  let count := 4 + (← bits 4)
  if 286 < literals ∨ 30 < distances then throw .corrupt
  let stored ← (List.range count).mapM fun _ => bits 3
  let pairs := lengthOrder.zip stored
  let code := codeOf ((List.range 19).map fun s =>
    ((pairs.find? fun p => p.1 = s).map (·.2)).getD 0)
  if !code.isComplete then throw .corrupt
  let all ← lengths code (literals + distances) (literals + distances + 1) []
  let (literals, distances) := (codeOf (all.take literals), codeOf (all.drop literals))
  if literals.isUsable && distances.isUsable then return (literals, distances)
  else throw .corrupt

/-! ## Blocks -/

/-- Reads a stored block: its length, the complement of the length, and the bytes. -/
def stored : Inflate Unit := do
  align
  let length ← number 2
  let complement ← number 2
  if length + complement = 0x10000 - 1 then copyBytes length else throw .corrupt

/-- Reads a block. Returns whether it is the last one. -/
def block : Inflate Bool := do
  let isLast ← bit
  let kind ← bits 2
  let steps := 8 * (← get).rest.length + 1
  match kind with
  | 0 => stored
  | 1 => symbols fixedLiterals fixedDistances steps
  | 2 => do
    let (literals, distances) ← codes
    symbols literals distances steps
  | _ => throw .corrupt
  return isLast = 1

/-- Reads all blocks. `steps` bounds their number. -/
def blocks : Nat → Inflate Unit
  | 0 => throw .corrupt
  | steps + 1 => do
    if ← block then return () else blocks steps

end Inflate

end Mobility.Gzip
