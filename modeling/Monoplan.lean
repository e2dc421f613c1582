import Monoplan.Base.Machine
import Monoplan.Base.Consecutive
import Monoplan.Base.NoSkip
import Monoplan.Protocol.Frames
import Monoplan.Server.Queries
import Monoplan.Server.Sessions
import Monoplan.Server.Snapshot
import Monoplan.Server.Ws
import Monoplan.Server.Stream
import Monoplan.Server.Dense
import Monoplan.Server.Lease
import Monoplan.Server.Holder
import Monoplan.Server.Removal
import Monoplan.Server.Retry
import Monoplan.Server.Paging
import Monoplan.Server.Chain
import Monoplan.Server.Presence
import Monoplan.Doc.ProjectionLaw
import Monoplan.Doc.Incremental
import Monoplan.Doc.RoundTrip
import Monoplan.Doc.NotesEditor
import Monoplan.Doc.ItemMoves
import Monoplan.Doc.ListMoves
import Monoplan.Client.Pulls
import Monoplan.Client.Cursor
import Monoplan.Client.Bootstraps
import Monoplan.Sync.Archive
import Monoplan.Web.Durable
import Monoplan.Web.CrashPrefix
import Monoplan.Web.DekVault
import Monoplan.Calendar.Agree
import Monoplan.Calendar.Days
import Monoplan.Calendar.Spans
import Monoplan.Doc.Dates
import Monoplan.Doc.Search
import Monoplan.Doc.Transitions
import Monoplan.Doc.Deleting
import Monoplan.Apple.MessagePack
import Monoplan.Daemon.FanOut
import Monoplan.Daemon.Ipc
import Monoplan.Web.MirrorBridge
import Monoplan.Web.MirrorRoutes
import Monoplan.Web.UndoFaithful
import Monoplan.Web.LifecycleReplay
import Monoplan.Doc.Reconciled
import Monoplan.Doc.Reimport
import Monoplan.Web.FocusSlots
import Monoplan.Web.NotesCaret
import Monoplan.Web.NotesWrite
import Monoplan.Web.Reorder
import Monoplan.Web.Selection
import Monoplan.Web.ItemClip
import Monoplan.Web.UndoOrder
import Monoplan.Storage.Refines
import Monoplan.Web.UndoProgress
import Monoplan.Accounts.Erasure
import Monoplan.Accounts.Provenance
import Monoplan.Accounts.Clients
import Monoplan.Base.Symbolic
