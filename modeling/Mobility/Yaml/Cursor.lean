/-!
# Places in a YAML text

A `Cursor` is a place in a text, with the line and the column, because structures are told by their
indentation. This module also says which characters separate words and lines, and passes over what
separates them.
-/

set_option autoImplicit false

namespace Mobility.Yaml

/-! ## Characters -/

/-- Whether a character may stand in a text. -/
def isPermitted (c : Char) : Bool :=
  c = '\t' || c = '\n' || c = '\r' || c = '\x85' || (' ' ≤ c && c ≤ '~') ||
    (0xa0 ≤ c.toNat && c.toNat ≠ 0xfffe && c.toNat ≠ 0xffff)

/-- The text with line breaks written in the same way, apart from the separators of lines and
paragraphs. -/
def unifyBreaks : List Char → List Char
  | [] => []
  | '\r' :: '\n' :: rest => '\n' :: unifyBreaks rest
  | c :: rest => (if c = '\r' || c = '\x85' then '\n' else c) :: unifyBreaks rest

/-- Whether a character ends a line. -/
def isBreak (c : Char) : Bool := c = '\n' || c.toNat = 0x2028 || c.toNat = 0x2029

/-- Whether a character separates words on a line. -/
def isSpace (c : Char) : Bool := c = ' ' || c = '\t'

/-- Whether a character marks the order of bytes. At the start of a line it is passed over. -/
def isOrderMark (c : Char) : Bool := c.toNat = 0xfeff

/-- Whether a text is over, or goes on with a blank or a line break. -/
def atGap : List Char → Bool
  | [] => true
  | c :: _ => isSpace c || isBreak c

/-- Whether a character separates the parts of a bracketed structure. -/
def isBracketing (c : Char) : Bool := [',', '[', ']', '{', '}'].contains c

/-! ## Cursors -/

/-- A place in a text. -/
structure Cursor where
  rest : List Char
  line : Nat
  column : Nat

/-- Where a reader ends, and what it read. -/
abbrev Reader (α : Type) := Cursor → Option (α × Cursor)

namespace Cursor

/-- The place behind the next `count` characters of a line. -/
def advance (c : Cursor) (count : Nat) : Cursor :=
  ⟨c.rest.drop count, c.line, c.column + count⟩

/-- The place behind the line break that follows, if one does. -/
def passBreak (c : Cursor) : Cursor :=
  match c.rest with
  | [] => c
  | b :: rest => if isBreak b then ⟨rest, c.line + 1, 0⟩ else c

/-- The place of the next line break, or of the end. -/
def lineEnd (c : Cursor) : Cursor := c.advance (c.rest.takeWhile fun b => !isBreak b).length

/-- Whether nothing is left. -/
def atEnd (c : Cursor) : Bool := c.rest.isEmpty

/-- Whether a mark that starts or ends a document follows. -/
def atMark (c : Cursor) : Bool :=
  c.column == 0 &&
    (("---".toList.isPrefixOf c.rest || "...".toList.isPrefixOf c.rest) && atGap (c.rest.drop 3))

end Cursor

/-! ## Between tokens -/

/-- Passes over blanks, comments and line breaks. In a block, a tab can't stand in front of a token
which may be a key; `tabs` tells whether it can stand here. -/
def skipFrom (flow : Bool) : (tabs comment : Bool) → List Char → Nat → Nat → Cursor
  | _, _, [], line, column => ⟨[], line, column⟩
  | tabs, comment, c :: rest, line, column =>
    if isBreak c then skipFrom flow flow false rest (line + 1) 0
    else if comment || c = ' ' || (tabs && c = '\t') || (column = 0 && isOrderMark c) then
      skipFrom flow tabs comment rest line (column + 1)
    else if c = '#' then skipFrom flow tabs true rest line (column + 1)
    else ⟨c :: rest, line, column⟩

/-- The next token. `flow` tells whether it is in brackets, `tabs` whether tabs may stand in front
of it on the same line. -/
def Cursor.skip (c : Cursor) (flow tabs : Bool) : Cursor :=
  skipFrom flow (flow || tabs) false c.rest c.line c.column

/-! ## Inside scalars -/

/-- A gap between two words: its blanks if it is on one line, its line breaks, and the first
column of a tab that indents a line. -/
structure Gap where
  spaces : List Char
  breaks : List Char
  tab : Option Nat

namespace Gap

/-- Nothing between two words. -/
def none : Gap := ⟨[], [], .none⟩

/-- What a gap stands for. A single line break is a blank, and of more the first one is dropped,
unless it is a separator of lines or paragraphs. -/
def text (g : Gap) : List Char :=
  match g.breaks with
  | [] => g.spaces
  | first :: more =>
    if first ≠ '\n' then first :: more else if more.isEmpty then [' '] else more

end Gap

/-- The gap at the start of a text behind `before`, and the place behind it. Blanks and line breaks
are given last first. -/
def gapFrom : Gap → List Char → Nat → Nat → Gap × Cursor
  | before, [], line, column => (before, ⟨[], line, column⟩)
  | before, c :: rest, line, column =>
    if isBreak c then
      gapFrom { before with spaces := [], breaks := c :: before.breaks } rest (line + 1) 0
    else if isSpace c then
      let next : Gap :=
        if before.breaks.isEmpty then { before with spaces := c :: before.spaces }
        else if c = '\t' then { before with tab := some (before.tab.elim column (min column)) }
        else before
      gapFrom next rest line (column + 1)
    else (before, ⟨c :: rest, line, column⟩)

/-- The gap here, and the place behind it. -/
def Cursor.gap (c : Cursor) : Gap × Cursor :=
  let (gap, next) := gapFrom .none c.rest c.line c.column
  ({ gap with spaces := gap.spaces.reverse, breaks := gap.breaks.reverse }, next)

end Mobility.Yaml
