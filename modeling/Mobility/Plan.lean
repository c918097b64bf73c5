import Mobility.Fault

/-!
# Plans

A plan is the fixed sequence of packed instructions that an agent executes. Its length is bounded
by the type. Plans are kept as words, because a snapshot may hold words which don't decode: reading
such a word at `get?` is a fault, while `decoded` passes over it.
-/

set_option autoImplicit false

namespace Mobility

/-- The most instructions a plan may have. -/
def Plan.maxLength : Nat := 65535

/-- A sequence of packed instructions. -/
structure Plan where
  words : Array Word
  size_le : words.size ≤ Plan.maxLength
deriving DecidableEq

namespace Plan

/-- The plan without instructions. -/
def empty : Plan := ⟨#[], Nat.zero_le _⟩

instance : Inhabited Plan := ⟨empty⟩

/-- The words as a plan, if they aren't too many. -/
def ofWords (words : Array Word) : Except PlanError Plan :=
  if h : words.size ≤ maxLength then .ok ⟨words, h⟩ else .error (.tooLong words.size)

/-- The number of instructions. -/
def length (p : Plan) : Nat := p.words.size

/-- The instruction at `index`, or `none` past the end. -/
def get? (p : Plan) (index : Nat) : Except Fault (Option Instruction) :=
  match p.words[index]? with
  | none => .ok none
  | some w =>
    match Instruction.decode w with
    | .ok i => .ok (some i)
    | .error e => .error (.corruptedWord w index e)

/-- The instructions of all words which decode, in order. -/
def decoded (p : Plan) : List Instruction :=
  p.words.toList.filterMap fun w => (Instruction.decode w).toOption

end Plan

end Mobility
