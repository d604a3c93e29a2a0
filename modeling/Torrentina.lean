import Torrentina.Core.System
import Torrentina.Core.BigEndian
import Torrentina.Core.Framing
import Torrentina.Error
import Torrentina.Peer.Message
import Torrentina.Core.Decimal
import Torrentina.Metainfo.Bencode
import Torrentina.Peer.Codec
import Torrentina.Metainfo.InfoSpan
import Torrentina.Core.Overlay
import Torrentina.Download.Geometry
import Torrentina.Disk.FileMap
import Torrentina.Disk.Storage
import Torrentina.Download.Assembler
import Torrentina.Download.Bitfield
import Torrentina.Download.State
import Torrentina.Core.Channel
import Torrentina.Core.Pool
import Torrentina.Download.Stats
import Torrentina.Download.Session
import Torrentina.Download.SessionStep
import Torrentina.Download.Coordinator
import Torrentina.Download.Idle
import Torrentina.Download.Availability
import Torrentina.Download.Delivery
import Torrentina.Integrity
import Torrentina.Download.Reservation
import Torrentina.Download.Accounting
import Torrentina.Download.Control
import Torrentina.Download.Completion
import Torrentina.Core.Life
import Torrentina.Download.Pipeline
import Torrentina.Download.Timed
import Torrentina.Core.PathExact
import Torrentina.Metainfo.Paths
import Torrentina.Core.PathDistinct
import Torrentina.Disk.Separate
import Torrentina.Core.Network
import Torrentina.Core.Utf8
import Torrentina.Tracker.Packets
import Torrentina.Tracker.Udp
import Torrentina.Core.Tiling
import Torrentina.Download.Tiling
import Torrentina.Download.Blocks
import Torrentina.Download.Coverage
import Torrentina.Core.FileTree
import Torrentina.Gui.Record
import Torrentina.Gui.DeleteData
import Torrentina.Gui.Registry
import Torrentina.Gui.Steps
import Torrentina.Gui.Pipelines
import Torrentina.Gui.Endings
import Torrentina.Gui.Stopping
import Torrentina.Core.Snapshot
import Torrentina.Gui.Persist
import Torrentina.Gui.Statuses
import Torrentina.Download.Reassembly
import Torrentina.Disk.TotalLength
import Torrentina.Core.Argmin
import Torrentina.Download.Rarest
import Torrentina.Download.TrackerRuns
import Torrentina.Download.Progress
import Torrentina.Download.WireBytes
import Torrentina.Download.Endgame
import Torrentina.Core.Ipv4Text
import Torrentina.Tracker.Bencode
import Torrentina.Tracker.Compact
import Torrentina.Tracker.Response
import Torrentina.Tracker.PeerLists
import Torrentina.Tracker.Family
import Torrentina.Tracker.Narrowing
import Torrentina.Core.Percent
import Torrentina.Core.Query
import Torrentina.Tracker.Http
import Torrentina.Download.PieceSet
import Torrentina.Core.Fuel
import Torrentina.Metainfo.Walk
import Torrentina.Core.Variant
import Torrentina.Seeding.Completes
import Torrentina.Core.Stream
import Torrentina.Peer.Connection
import Torrentina.Core.Buffered
import Torrentina.Client.Main
import Torrentina.Client.Restart
import Torrentina.Download.PeerList
import Torrentina.Download.Quiescence
import Torrentina.Core.Layout
import Torrentina.Tracker.Server
import Torrentina.Tracker.Agreement
import Torrentina.Download.Memory
import Torrentina.Peer.Receiving
import Torrentina.Metainfo.InfoHash
import Torrentina.Seeding.Loopback
import Torrentina.Download.Signal
import Torrentina.Seeding.Together
