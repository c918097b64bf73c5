import Mobility.Instruction.Basic

/-!
# Packed instructions

In memory and in snapshots an instruction is one 64-bit word with the layout

    [kind:8][event:16][payload:40]

where the payload is `[link:24][velocity:8]` for a traversal, `[seconds:32]` for the two sleeps,
`[route:16][stop:16][0:8]` for a wait and `[route:16][stop:16][index:8]` for the five instructions
at a stop. Fields sit at the low end of the payload. Reading a word ignores the payload bits which
its kind doesn't use.
-/

set_option autoImplicit false

namespace Mobility

/-- A packed instruction. -/
abbrev Word := UInt64

/-- The kind byte of a word names no kind. -/
structure UnknownKind where
  code : Nat
deriving DecidableEq

/-- What an unknown kind is reported as. -/
def UnknownKind.message (e : UnknownKind) : String := s!"unknown instruction kind {e.code}"

/-! ## Fields of a word -/

/-- The lowest 8 bits of a number. -/
def low8 (n : Nat) : Fin 0x100 := Fin.ofNat _ n

/-- The lowest 16 bits of a number. -/
def low16 (n : Nat) : Fin 0x10000 := Fin.ofNat _ n

/-- The lowest 24 bits of a number. -/
def low24 (n : Nat) : Fin 0x1000000 := Fin.ofNat _ n

/-- The lowest 32 bits of a number. -/
def low32 (n : Nat) : Fin 0x100000000 := Fin.ofNat _ n

/-! ## Payloads -/

/-- The payload of a stop. -/
def StopRef.payload (s : StopRef) : Nat :=
  s.route.val * 0x1000000 + s.stop.val * 0x100 + s.index.val

/-- The payload of an action, below `2 ^ 40`. -/
def Action.payload : Action → Nat
  | traverse link velocity => link.val * 0x100 + velocity.val
  | sleepFor duration => duration.val
  | sleepUntil time => time.val
  | access stop | egress stop | stopArrive stop | stopDelay stop | stopDepart stop => stop.payload
  | wait route stop => route.val * 0x1000000 + stop.val * 0x100

/-- The stop in a payload. -/
def StopRef.ofPayload (payload : Nat) : StopRef where
  route := low16 (payload / 0x1000000)
  stop := low16 (payload / 0x100)
  index := low8 payload

/-- The action of a kind with a payload. -/
def Action.ofPayload (kind : Kind) (payload : Nat) : Action :=
  match kind with
  | .linkTraversal => traverse (low24 (payload / 0x100)) (low8 payload)
  | .sleepFor => sleepFor (low32 payload)
  | .sleepUntil => sleepUntil (low32 payload)
  | .access => access (.ofPayload payload)
  | .egress => egress (.ofPayload payload)
  | .stopArrive => stopArrive (.ofPayload payload)
  | .stopDelay => stopDelay (.ofPayload payload)
  | .stopDepart => stopDepart (.ofPayload payload)
  | .wait => wait (StopRef.ofPayload payload).route (StopRef.ofPayload payload).stop

/-! ## Words -/

/-- The word of an instruction. -/
def Instruction.encode (i : Instruction) : Word :=
  UInt64.ofNat (i.kind.code * 0x100000000000000 + i.event.val * 0x10000000000 + i.action.payload)

/-- The instruction in a word. -/
def Instruction.decode (w : Word) : Except UnknownKind Instruction :=
  match Kind.ofCode? (w.toNat / 0x100000000000000) with
  | none => .error ⟨w.toNat / 0x100000000000000⟩
  | some kind =>
    .ok ⟨low16 (w.toNat / 0x10000000000), Action.ofPayload kind (w.toNat % 0x10000000000)⟩

end Mobility
