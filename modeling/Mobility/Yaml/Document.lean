import Mobility.Yaml.Token

/-!
# YAML documents

A text holds one document. A document is a value; structures are written in brackets or as blocks.
An entry whose value, or whose key behind a question mark, isn't written has an empty one. In a list
in brackets, an entry with a key is a mapping of its own. A list which is the value of a key needs
no block of its own if its dashes stand in the column of the key.
-/

set_option autoImplicit false

namespace Mobility.Yaml

/-- Reads a value, or something like it, from some tokens. -/
abbrev TokenReader (α : Type) := List Token → Option (α × List Token)

/-- Reads a value, unless one of the tokens follows which show that it isn't written. -/
def orEmpty (ends : List Token) (read : TokenReader Yaml) : TokenReader Yaml := fun tokens =>
  match tokens with
  | [] => read []
  | t :: _ => if ends.contains t then some (empty, tokens) else read tokens

/-- Reads a value behind `sign`, if it follows. -/
def behind (sign : Token) (read : TokenReader Yaml) : TokenReader (Option Yaml) := fun tokens =>
  match tokens with
  | [] => some (none, [])
  | t :: rest =>
    if t = sign then (read rest).map fun (value, rest) => (some value, rest)
    else some (none, tokens)

mutual

/-- Reads a value. `blocks` tells whether it can be a block, and `dashes` whether it can be a list
without a block of its own. `steps` bounds the depth of the search. -/
def value : Nat → (blocks dashes : Bool) → TokenReader Yaml
  | 0, _, _, _ => none
  | steps + 1, blocks, dashes, tokens =>
    match tokens with
    | .scalar text isPlain :: rest => some (scalar text isPlain, rest)
    | .opening .list :: rest => flowItems steps true [] rest
    | .opening .mapping :: rest => flowEntries steps true [] rest
    | .blockStart .list :: rest => if blocks then blockItems steps [] rest else none
    | .blockStart .mapping :: rest => if blocks then blockEntries steps [] rest else none
    | .dash :: _ => if dashes then dashedItems steps [] tokens else none
    | _ => none

/-- Reads the items of a block behind the ones which were read, which are given last first. -/
def blockItems : Nat → List Yaml → TokenReader Yaml
  | 0, _, _ => none
  | steps + 1, before, tokens =>
    match tokens with
    | .dash :: rest => do
      let (item, rest) ← orEmpty [.dash, .blockEnd] (value steps true false) rest
      blockItems steps (item :: before) rest
    | .blockEnd :: rest => some (list before.reverse, rest)
    | _ => none

/-- Reads the items of a list without a block of its own. -/
def dashedItems : Nat → List Yaml → TokenReader Yaml
  | 0, _, _ => none
  | steps + 1, before, tokens =>
    match tokens with
    | .dash :: rest => do
      let (item, rest) ← orEmpty [.dash, .key, .value, .blockEnd] (value steps true false) rest
      dashedItems steps (item :: before) rest
    | _ => some (list before.reverse, tokens)

/-- Reads the entries of a block. -/
def blockEntries : Nat → List (Yaml × Yaml) → TokenReader Yaml
  | 0, _, _ => none
  | steps + 1, before, tokens =>
    match tokens with
    | .key :: rest => do
      let read := orEmpty [.key, .value, .blockEnd] (value steps true true)
      let (key, rest) ← read rest
      let (found, rest) ← behind .value read rest
      blockEntries steps ((key, found.getD empty) :: before) rest
    | .blockEnd :: rest => some (mapping before.reverse, rest)
    | _ => none

/-- Reads the items of a list in brackets. -/
def flowItems : Nat → (isFirst : Bool) → List Yaml → TokenReader Yaml
  | 0, _, _, _ => none
  | steps + 1, isFirst, before, tokens =>
    match tokens with
    | .closing .list :: rest => some (list before.reverse, rest)
    | _ => do
      let tokens ← if isFirst then some tokens else
        match tokens with
        | .comma :: rest => some rest
        | _ => none
      match tokens with
      | .closing .list :: rest => return (list before.reverse, rest)
      | .key :: rest =>
        let (key, rest) ← keyOfItem steps rest
        let (found, rest) ←
          behind .value (orEmpty [.comma, .closing .list] (value steps false false)) rest
        flowItems steps false (mapping [(key, found.getD empty)] :: before) rest
      | _ =>
        let (item, rest) ← value steps false false tokens
        flowItems steps false (item :: before) rest

/-- Reads the key of an item in brackets. The token that shows that it isn't written is passed over.
-/
def keyOfItem : Nat → TokenReader Yaml
  | 0, _ => none
  | steps + 1, tokens =>
    match tokens with
    | .value :: rest | .comma :: rest | .closing .list :: rest => some (empty, rest)
    | _ => value steps false false tokens

/-- Reads the entries of a mapping in brackets. -/
def flowEntries : Nat → (isFirst : Bool) → List (Yaml × Yaml) → TokenReader Yaml
  | 0, _, _, _ => none
  | steps + 1, isFirst, before, tokens =>
    match tokens with
    | .closing .mapping :: rest => some (mapping before.reverse, rest)
    | _ => do
      let tokens ← if isFirst then some tokens else
        match tokens with
        | .comma :: rest => some rest
        | _ => none
      match tokens with
      | .closing .mapping :: rest => return (mapping before.reverse, rest)
      | .key :: rest =>
        let (key, rest) ←
          orEmpty [.value, .comma, .closing .mapping] (value steps false false) rest
        let (found, rest) ←
          behind .value (orEmpty [.comma, .closing .mapping] (value steps false false)) rest
        flowEntries steps false ((key, found.getD empty) :: before) rest
      | _ =>
        let (key, rest) ← value steps false false tokens
        flowEntries steps false ((key, empty) :: before) rest

end

/-- Reads the document of some tokens. There has to be one, and not more. -/
def ofTokens? (tokens : List Token) : Option Yaml := do
  let read := value (2 * tokens.length + 2) true false
  let (found, rest) ← match tokens with
    | .documentStart :: [] => some (empty, [])
    | .documentStart :: rest => orEmpty [.documentStart, .documentEnd] read rest
    | _ => read tokens
  if rest.all (· = .documentEnd) then return found else none

/-- Reads the document of a text. -/
def ofText? (text : String) : Option Yaml := do ofTokens? (← Token.ofText? text)

end Mobility.Yaml
