import Garry.Verify.BtreeMap
import Garry.Verify.ChainRoom
import Garry.Verify.CursorScan
import Garry.Verify.LockTable
import Garry.Verify.Reopen
import Garry.Verify.WriteAhead
import Garry.Verify.FailedSet
import Garry.Verify.RolledBack
import Garry.Library.MvccRun
import Garry.Model.VersionChain
import Garry.Verify.PoolCache
import Garry.Verify.TxnIds
import Garry.Verify.TxnTable
import Garry.Verify.Isolation
import Garry.Verify.Lz4RoundTrip
import Garry.Verify.PageRecords
import Garry.Verify.OverflowFaults
import Garry.Verify.VersionHistory
import Garry.Verify.InsertFaults
import Garry.Verify.OverflowPins
import Garry.Verify.HeaderChecksum
import Garry.Verify.PinnedPages
import Garry.Verify.EntryBuffers
import Garry.Verify.CursorSkip
import Garry.Verify.Api
import Garry.Verify.GcSweep
import Garry.Verify.EngineOpen
import Garry.Verify.EmptyDatabase
import Garry.Verify.KeyCount
import Garry.Verify.LastKey
import Garry.Verify.PruneLater
import Garry.Verify.Serializability
import Garry.Verify.KeySubtree
import Garry.Verify.KeyUnsplit
import Garry.Verify.KeyBounds
import Garry.Verify.RecordBounds
import Garry.Verify.Descriptor
import Garry.Verify.ValueRoundTrip
import Garry.Verify.KeyCompression
import Garry.Verify.TxnSlots
import Garry.Verify.FlattenKeys
import Garry.Verify.CursorInserts
import Garry.Verify.CommitPages
import Garry.Verify.ReadCalls
import Garry.Verify.PageOwners
import Garry.Verify.PoolRefinement
import Garry.Verify.Durability
import Garry.Verify.TreeHeight
import Garry.Verify.Replay
import Garry.Library.Exchange
