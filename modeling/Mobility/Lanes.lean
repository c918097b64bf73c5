import Mobility.Outbox

/-!
# Lanes

Partitions which run side by side are connected by lanes. Every partition has one lane for each kind
of message, into which all partitions put buffers and from which it alone takes them, in the order
in which they were put there. Taking goes on until a buffer from every awaited partition has come,
whatever else comes in between.
-/

set_option autoImplicit false

namespace Mobility

/-- The two exchanges of a second. They use different lanes, so their messages never mix. -/
inductive Lane where
  | transfers
  | releases
deriving DecidableEq

/-- The number of a lane. -/
def Lane.tag : Lane → Nat
  | transfers => 1
  | releases => 2

/-- The lanes of `size` partitions, by the partition which takes from them. -/
structure Lanes where
  size : Nat
  transfers : Table Delivery
  releases : Table Delivery
deriving DecidableEq

/-- What became of waiting for some partitions. -/
structure Receipt (ε : Type) where
  received : Delivery
  /-- The partitions which are still awaited. -/
  missing : List Nat
  /-- What is left in the lane. -/
  left : Delivery
  /-- The refusal which ended the wait. -/
  refusal : Option ε

namespace Lanes

/-- Empty lanes for `size` partitions. -/
def make (size : Nat) : Lanes := ⟨size, .empty, .empty⟩

/-- What lies in a lane of partition `rank`. -/
def contents (l : Lanes) (lane : Lane) (rank : Nat) : Delivery :=
  match lane with
  | .transfers => (l.transfers.get? rank).getD []
  | .releases => (l.releases.get? rank).getD []

/-- Replaces what lies in a lane of partition `rank`. -/
def setContents (l : Lanes) (lane : Lane) (rank : Nat) (buffers : Delivery) : Lanes :=
  let change := fun _ => if buffers.isEmpty then none else some buffers
  match lane with
  | .transfers => { l with transfers := l.transfers.alter rank change }
  | .releases => { l with releases := l.releases.alter rank change }

/-- Puts a buffer from `sender` into a lane of `target`. -/
def send (l : Lanes) (lane : Lane) (sender target : Nat) (data : List UInt8) :
    Except ExchangeError Lanes :=
  if target < l.size then
    .ok (l.setContents lane target (l.contents lane target ++ [(sender, data)]))
  else .error (.disconnected target)

/-- Puts all buffers of `sender` into the lanes of their targets. -/
def sendAll (l : Lanes) (lane : Lane) (sender : Nat) (buffers : Buffers) :
    Except ExchangeError Lanes :=
  buffers.entries.foldlM (fun l row => l.send lane sender row.1 row.2) l

/-- Takes buffers from a lane until one from everybody in `missing` has come, or one is refused. A
refused buffer is taken, too. Waiting ends in a lane without buffers. -/
def collect {ε : Type} (accept : Nat → List UInt8 → Except ε Unit) :
    List Nat → Delivery → Receipt ε
  | [], lane => ⟨[], [], lane, none⟩
  | missing, [] => ⟨[], missing, [], none⟩
  | missing, (sender, data) :: rest =>
    let missing := missing.filter (· ≠ sender)
    match accept sender data with
    | .error e => ⟨[(sender, data)], missing, rest, some e⟩
    | .ok () =>
      let later := collect accept missing rest
      { later with received := (sender, data) :: later.received }

/-- Takes what the partitions in `awaited` have sent to `rank`. -/
def receive {ε : Type} (l : Lanes) (lane : Lane) (rank : Nat) (awaited : List Nat)
    (accept : Nat → List UInt8 → Except ε Unit) : Receipt ε × Lanes :=
  let receipt := collect accept awaited (l.contents lane rank)
  (receipt, l.setContents lane rank receipt.left)

end Lanes

end Mobility
