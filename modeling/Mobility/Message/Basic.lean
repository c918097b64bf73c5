import Mobility.Table

/-!
# Messages between partitions

At the end of a second a partition sends every neighbor two messages. A `Transfer` carries the
agents which cross into the neighbor, grouped by the link they enter; agents of the group without a
link are handed over directly. A `Release` reports how many of the neighbor's agents left each
link, so that the neighbor can release the room it reserved for them.
-/

set_option autoImplicit false

namespace Mobility

/-- What can go wrong between partitions. -/
inductive ExchangeError where
  /-- A message ended after `offset` bytes, before `field` was complete. -/
  | truncated (offset : Nat) (field : String)
  /-- A message is about another second. -/
  | unexpectedTime (sender received expected : Nat)
  | unknownAgent (agent : Nat)
  | unknownLink (link : Nat)
  | notANeighbor (part : Nat)
  /-- The lane to a partition is closed. -/
  | disconnected (part : Nat)
deriving DecidableEq

/-- What an error says. -/
def ExchangeError.message : ExchangeError → String
  | truncated offset field => s!"message buffer ended after {offset} bytes while reading {field}"
  | unexpectedTime sender received expected =>
    s!"received message for second {received} from #{sender}, but expected second {expected}"
  | unknownAgent agent => s!"received message for unknown agent {agent}"
  | unknownLink link =>
    s!"received message for link {link} which is not a boundary link of this partition"
  | notANeighbor part => s!"partition #{part} is not a neighbor of this partition"
  | disconnected part => s!"channel to partition #{part} is closed"

/-- A passenger of a vehicle under way. -/
structure PassengerRecord where
  /-- The stop index where the passenger leaves. -/
  index : Nat
  id : Nat
  cursor : Nat
deriving DecidableEq

/-- An agent under way. The passengers are given for vehicles. -/
structure AgentRecord where
  id : Nat
  cursor : Nat
  passengers : Option (List PassengerRecord)
deriving DecidableEq

/-- The agents which enter one link, or none. -/
structure LinkRecord where
  link : Option Nat
  agents : List AgentRecord
deriving DecidableEq

/-- The agents which cross from partition `sender` into partition `target` in second `time`. -/
structure Transfer where
  time : Nat
  sender : Nat
  target : Nat
  records : List LinkRecord
deriving DecidableEq

/-- How many agents from `target` left each link of `sender` in second `time`. -/
structure Release where
  time : Nat
  sender : Nat
  target : Nat
  counts : List (Nat × Nat)
deriving DecidableEq

namespace Transfer

/-- A transfer of nobody. -/
def empty (time sender target : Nat) : Transfer := ⟨time, sender, target, []⟩

/-- Adds an agent to the group of its link, in a new last group if there is none yet. -/
def addRecord (link : Option Nat) (agent : AgentRecord) : List LinkRecord → List LinkRecord
  | [] => [⟨link, [agent]⟩]
  | group :: rest =>
    if group.link = link then { group with agents := group.agents ++ [agent] } :: rest
    else group :: addRecord link agent rest

/-- Adds an agent which enters `link`, or is handed over directly. -/
def addAgent (t : Transfer) (link : Option Nat) (agent : AgentRecord) : Transfer :=
  { t with records := addRecord link agent t.records }

end Transfer

namespace Release

/-- A report of nothing. -/
def empty (time sender target : Nat) : Release := ⟨time, sender, target, []⟩

/-- Adds the count of a link. -/
def addCount (r : Release) (link count : Nat) : Release :=
  { r with counts := r.counts ++ [(link, count)] }

end Release

end Mobility
