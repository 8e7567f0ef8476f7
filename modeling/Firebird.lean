import Firebird.Undo.Programs
import Firebird.Vio.SnapshotRead
import Firebird.Vio.GarbageCollector
import Firebird.Mdc.Sound
import Firebird.Lock.WaitsEnd
import Firebird.Rw.Runs
import Firebird.Ipc.Runs
import Firebird.Repl.Bracketed
import Firebird.Evt.Counts
import Firebird.Evt.GlobalRegion
import Firebird.Btr.LifeCycle
import Firebird.Btr.StaleSlot
import Firebird.Btr.DeleteNodeValid
import Firebird.Sqz.DifferenceBuffer
import Firebird.Tpc.SnapshotSlots
import Firebird.Tpc.Inventory
import Firebird.Btr.DescendingKey
import Firebird.Sqz.Fragments
import Firebird.Tree.Recovery
import Firebird.Tree.Cursor
import Firebird.Sort.Calls
import Firebird.Cch.FlushPages
import Firebird.Undo.LocalTablesKept
import Firebird.Sort.Order
import Firebird.Temp.Contents
import Firebird.Opt.LikeStarting
import Firebird.Sort.KeyOrder
import Firebird.Btr.ScannerRuns
import Firebird.Lck.SharedRuns
import Firebird.Pag.HeaderClumplets
import Firebird.Pag.CountedRuns
import Firebird.Nbak.AllocRuns
import Firebird.Blb.WellFormed
import Firebird.Tz.OffsetIntervals
import Firebird.Sync.Runs
import Firebird.RecSrc.Scrolling
import Firebird.RecSrc.Unfolding
import Firebird.Btr.NodeRoundTrip
import Firebird.Opt.IndexCondition
import Firebird.Auth.RemotePassword
