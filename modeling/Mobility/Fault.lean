import Mobility.Instruction.Word

/-!
# Faults

A fault is a broken precondition: a state in which an operation has no sensible answer, so that the
partition in which it shows can't go on. Faults are told apart from errors, which are answers about
the input. `Fault.message` holds the wording of all of them.
-/

set_option autoImplicit false

namespace Mobility

/-- Why an operation has no answer. -/
inductive Fault where
  /-- Entry `index` of a list with `length` entries was asked for. -/
  | noSuchEntry (length index : Nat)
  /-- A second after the last one was asked for. -/
  | pastLastSecond
  /-- More passengers left a vehicle than were counted as aboard. -/
  | seatUnderflow
  /-- A word of a plan can't be read. -/
  | corruptedWord (word : Word) (index : Nat) (cause : UnknownKind)
  /-- An agent without a next instruction was told to consume one. -/
  | planConsumed (agent length : Nat)
  /-- An agent came back with a smaller cursor. -/
  | cursorDecreased (agent before after : Nat)
  /-- More passengers than seats. -/
  | overbooked (vehicle passengers capacity : Nat)
  /-- The head of an empty link was taken. -/
  | linkEmpty (link : Nat)
  /-- The first waiting agent of an empty queue was taken. -/
  | nobodyInbound
  /-- An agent was put onto a link of another partition. -/
  | enterForeignLink (agent link owner : Nat)
  /-- An agent was taken from a link of another partition. -/
  | leaveForeignLink (link : Nat)
  /-- More agents left a link than were sent there. -/
  | releasedTooMany (part link released sent : Nat)
  /-- A horizon ends before it starts. -/
  | startAfterEnd (start stop : Nat)
  /-- Something was scheduled for a second which is over. -/
  | secondVisited (time next : Nat)
  /-- A second was visited twice or skipped. -/
  | secondOutOfOrder
  /-- An agent executes a step which only its vehicle can execute. -/
  | notAboard (agent : Nat) (instruction : Instruction) (cursor : Nat)
  /-- The plan of a waiting agent doesn't say where it leaves the vehicle. -/
  | noEgress (agent stop : Nat) (found : Option Instruction)
  /-- An agent on its way onto a link hasn't consumed a traversal. -/
  | noTraversal (agent : Nat) (found : Option Instruction)
  /-- A rendezvous of nobody. -/
  | noParties
  /-- A settings module has the type of another one. -/
  | moduleType (name : String)
deriving DecidableEq

/-- What a fault is reported as. -/
def Fault.message : Fault → String
  | noSuchEntry length index =>
    s!"index out of bounds: the len is {length} but the index is {index}"
  | pastLastSecond => "attempt to add with overflow"
  | seatUnderflow => "attempt to subtract with overflow"
  | corruptedWord word index cause =>
    s!"Plan contains a corrupted instruction PackedInstruction({word}) at index {index}: " ++
      cause.message
  | planConsumed agent length =>
    s!"Agent {agent} can't advance beyond the end of its plan of length {length}"
  | cursorDecreased agent before after =>
    s!"Cursor of agent {agent} must not decrease from {before} to {after}"
  | overbooked vehicle passengers capacity =>
    s!"Vehicle {vehicle} can't carry {passengers} passengers with a capacity of {capacity}"
  | linkEmpty link =>
    s!"There was no agent on link {link}. Use 'front' to test if an agent is present first."
  | nobodyInbound => "No inbound agent left. Use 'inbound_front' first."
  | enterForeignLink agent link owner =>
    s!"Can't push agent {agent} onto link {link} of partition #{owner}."
  | leaveForeignLink link => s!"Can't pop agent from link {link} of another partition"
  | releasedTooMany part link released sent =>
    s!"Neighbor #{part} reported {released} processed agents on link {link}, " ++
      s!"but only {sent} were sent."
  | startAfterEnd start stop => s!"Start time {start} must not be after end time {stop}"
  | secondVisited time next =>
    s!"Can't schedule for second {time}. Slots before second {next} were already visited."
  | secondOutOfOrder => "Slots must be visited once per second in order"
  | notAboard agent instruction cursor =>
    s!"Agent {agent} reached {instruction.text} at plan index {cursor}. " ++
      "Access and Egress are only executed by vehicles."
  | noEgress agent stop found =>
    s!"Agent {agent} waits at stop {stop}, but its plan doesn't continue with " ++
      s!"Access and Egress. Found {Instruction.optionText found} instead of Egress."
  | noTraversal agent found =>
    s!"Agent {agent} enters a link, but its last instruction was {Instruction.optionText found}"
  | noParties => "A barrier needs at least one party"
  | moduleType name => s!"Config module '{name}' has an unexpected type"

end Mobility
