import TorrentEngine.Bencode.Error
import TorrentEngine.Bencode.Reader
import TorrentEngine.Bencode.Token
import TorrentEngine.Bencode.Value
import TorrentEngine.Bytes
import TorrentEngine.Channel
import TorrentEngine.Check
import TorrentEngine.Choking
import TorrentEngine.CommandLine
import TorrentEngine.CommandLine.Help
import TorrentEngine.Digest
import TorrentEngine.Digest.Sha1
import TorrentEngine.Disk.Backoff
import TorrentEngine.Disk.Job
import TorrentEngine.Disk.Queue
import TorrentEngine.Disk.Scheduler
import TorrentEngine.Download
import TorrentEngine.Engine
import TorrentEngine.Event
import TorrentEngine.FileSet
import TorrentEngine.FileTree
import TorrentEngine.Layout
import TorrentEngine.Main
import TorrentEngine.Message
import TorrentEngine.Message.Summary
import TorrentEngine.Metainfo
import TorrentEngine.Metainfo.Encoding
import TorrentEngine.Metainfo.Summary
import TorrentEngine.Network
import TorrentEngine.Path
import TorrentEngine.Peer
import TorrentEngine.Peer.Honest
import TorrentEngine.Phase
import TorrentEngine.Phase.Chain
import TorrentEngine.Piece
import TorrentEngine.PieceSet
import TorrentEngine.Program
import TorrentEngine.Proofs.Accounting
import TorrentEngine.Proofs.Allocation
import TorrentEngine.Proofs.Asking
import TorrentEngine.Proofs.Bitfields
import TorrentEngine.Proofs.Calls
import TorrentEngine.Proofs.Changes
import TorrentEngine.Proofs.Checking
import TorrentEngine.Proofs.Claims
import TorrentEngine.Proofs.Commuting
import TorrentEngine.Proofs.Confinement
import TorrentEngine.Proofs.Convergence
import TorrentEngine.Proofs.Copies
import TorrentEngine.Proofs.Crew
import TorrentEngine.Proofs.Cuts
import TorrentEngine.Proofs.Device
import TorrentEngine.Proofs.Dictionaries
import TorrentEngine.Proofs.Dispatch
import TorrentEngine.Proofs.Dropped
import TorrentEngine.Proofs.Exclusivity
import TorrentEngine.Proofs.Fields
import TorrentEngine.Proofs.Filling
import TorrentEngine.Proofs.Flags
import TorrentEngine.Proofs.FlatBuffer
import TorrentEngine.Proofs.Frame
import TorrentEngine.Proofs.Fronts
import TorrentEngine.Proofs.Genuine
import TorrentEngine.Proofs.Hooks
import TorrentEngine.Proofs.Interleaving
import TorrentEngine.Proofs.Labels
import TorrentEngine.Proofs.Lifecycle
import TorrentEngine.Proofs.Memories
import TorrentEngine.Proofs.Mending
import TorrentEngine.Proofs.Numbers
import TorrentEngine.Proofs.Offered
import TorrentEngine.Proofs.Outstanding
import TorrentEngine.Proofs.Overrun
import TorrentEngine.Proofs.Passes
import TorrentEngine.Proofs.Patience
import TorrentEngine.Proofs.Permanence
import TorrentEngine.Proofs.Pieces
import TorrentEngine.Proofs.Progress
import TorrentEngine.Proofs.Queueing
import TorrentEngine.Proofs.Ranges
import TorrentEngine.Proofs.Rarest
import TorrentEngine.Proofs.Readers
import TorrentEngine.Proofs.Records
import TorrentEngine.Proofs.Refusals
import TorrentEngine.Proofs.Reliable
import TorrentEngine.Proofs.Reopening
import TorrentEngine.Proofs.Requests
import TorrentEngine.Proofs.Results
import TorrentEngine.Proofs.Resume
import TorrentEngine.Proofs.Retries
import TorrentEngine.Proofs.Review
import TorrentEngine.Proofs.Rotation
import TorrentEngine.Proofs.RoundTrip
import TorrentEngine.Proofs.Saving
import TorrentEngine.Proofs.Separation
import TorrentEngine.Proofs.Sizes
import TorrentEngine.Proofs.Slots
import TorrentEngine.Proofs.Soundness
import TorrentEngine.Proofs.Spelling
import TorrentEngine.Proofs.Staleness
import TorrentEngine.Proofs.Stocking
import TorrentEngine.Proofs.Stranding
import TorrentEngine.Proofs.Stream
import TorrentEngine.Proofs.Swarm
import TorrentEngine.Proofs.Tiling
import TorrentEngine.Proofs.Tokens
import TorrentEngine.Proofs.Turns
import TorrentEngine.Proofs.Uploads
import TorrentEngine.Proofs.Window
import TorrentEngine.Proofs.Worker
import TorrentEngine.Proofs.World
import TorrentEngine.Proofs.Written
import TorrentEngine.RequestBudget
import TorrentEngine.Roster
import TorrentEngine.Selection
import TorrentEngine.Session
import TorrentEngine.Settings
import TorrentEngine.Settings.Environment
import TorrentEngine.Settings.File
import TorrentEngine.Storage
import TorrentEngine.Text.Decimal
import TorrentEngine.Text.Hidden
import TorrentEngine.Text.Quoted
import TorrentEngine.Toml.Document
import TorrentEngine.Toml.Number
import TorrentEngine.Toml.Reader
import TorrentEngine.Toml.Text
import TorrentEngine.Torrent
