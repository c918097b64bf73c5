import Mobility.Agenda
import Mobility.Agent.Basic
import Mobility.CommandLine
import Mobility.Decimal.Layout
import Mobility.Decimal.Shortest
import Mobility.Event.File
import Mobility.FilePath
import Mobility.FileTree
import Mobility.Gzip.Basic
import Mobility.Gzip.File
import Mobility.Gzip.Inflate
import Mobility.Json.Path
import Mobility.Json.Skip
import Mobility.Json.Token
import Mobility.Lanes
import Mobility.Link.View
import Mobility.LittleEndian
import Mobility.Main
import Mobility.Outbox
import Mobility.Partition.Dispatch
import Mobility.Partition.Exchange
import Mobility.Partition.Report
import Mobility.Partition.Run
import Mobility.Platforms
import Mobility.Program
import Mobility.Rendezvous
import Mobility.Scenario.Partitioning
import Mobility.Session
import Mobility.Settings.Basic
import Mobility.Settings.Document
import Mobility.Settings.File
import Mobility.Simulation
import Mobility.Snapshot.Basic
import Mobility.Snapshot.Binary
import Mobility.Snapshot.File
import Mobility.Snapshot.Shape
import Mobility.Snapshot.Text
import Mobility.Unicode.Hidden
import Mobility.Utf8
import Mobility.Yaml.Basic
import Mobility.Yaml.Cursor
import Mobility.Yaml.Document
import Mobility.Yaml.Scalar
import Mobility.Yaml.Token
import Mobility.Ensemble
import Mobility.Proofs.Acts
import Mobility.Proofs.Census.Exchange
import Mobility.Proofs.Census.Places
import Mobility.Proofs.Ledger
import Mobility.Proofs.Ensemble.Unfailed
import Mobility.Proofs.Reservations
import Mobility.Proofs.Dates
import Mobility.Proofs.Partition.Timetable
import Mobility.Proofs.Timetable
import Mobility.Proofs.Chronicle
import Mobility.Proofs.Safety
import Mobility.Proofs.Scenario.Views
import Mobility.Proofs.Summaries
import Mobility.Proofs.Queues
import Mobility.Proofs.Strangers
import Mobility.Proofs.Meeting
import Mobility.Proofs.RoundTrip
import Mobility.Proofs.Horizon
import Mobility.Proofs.Passengers
import Mobility.Proofs.FreeFlow
import Mobility.Proofs.Written
import Mobility.Proofs.Crossing
import Mobility.Proofs.Calls
import Mobility.Proofs.Mailing
import Mobility.Proofs.Placement
import Mobility.Proofs.Snapshots
import Mobility.Proofs.Kinds
import Mobility.Proofs.Agendas
import Mobility.Proofs.Boarding
import Mobility.Proofs.Backpressure
import Mobility.Proofs.Words
import Mobility.Proofs.Saving
import Mobility.Proofs.Seating
import Mobility.Proofs.Entering
