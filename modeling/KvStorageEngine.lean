import KvStorageEngine.Lib.Run
import KvStorageEngine.Lib.LowerBound
import KvStorageEngine.Engine.MemTable
import KvStorageEngine.Engine.SSTable
import KvStorageEngine.Engine.TableVersion
import KvStorageEngine.Engine.Merge
import KvStorageEngine.Engine.Compaction
import KvStorageEngine.Engine.LRUCache
import KvStorageEngine.Lib.RecencyList
import KvStorageEngine.Engine.LinkedCache
import KvStorageEngine.Engine.Correctness.CacheRefinement
import KvStorageEngine.Engine.WriteQueue
import KvStorageEngine.Engine.Correctness.QueueFifo
import KvStorageEngine.Engine.StorageEngine
import KvStorageEngine.Engine.Correctness.VersionWf
import KvStorageEngine.Lib.Layered
import KvStorageEngine.Engine.Correctness.SearchCorrect
import KvStorageEngine.Engine.Correctness.CompactionCorrect
import KvStorageEngine.Engine.Correctness.EngineInvariant
import KvStorageEngine.Engine.Correctness.MapRefinement
import KvStorageEngine.Engine.VersionThreads
import KvStorageEngine.Engine.Correctness.VersionUpdates
import KvStorageEngine.Engine.Handover
import KvStorageEngine.Engine.Correctness.RotationLoss
import KvStorageEngine.Engine.Correctness.TornRead
import KvStorageEngine.Engine.TableReader
import KvStorageEngine.Engine.Correctness.OpenFiles
import KvStorageEngine.Engine.CachedReads
import KvStorageEngine.Engine.Correctness.CacheCoherence
import KvStorageEngine.Engine.Correctness.FlushBarrier
import KvStorageEngine.Engine.Correctness.MetadataText
import KvStorageEngine.Engine.Lifetime
import KvStorageEngine.Engine.Correctness.AckedInLog
import KvStorageEngine.Engine.Correctness.Restart
import KvStorageEngine.Engine.Correctness.Durability
import KvStorageEngine.Engine.Correctness.LevelRoundTrip
import KvStorageEngine.Engine.Correctness.MetadataCrash
import KvStorageEngine.Engine.LogCodec
import KvStorageEngine.Engine.Correctness.LogReplay
import KvStorageEngine.Engine.BloomCodec
import KvStorageEngine.Engine.SSTableFile
import KvStorageEngine.Engine.Correctness.PointLookup
import KvStorageEngine.Engine.Store
import KvStorageEngine.Engine.Correctness.StoreRecords
import KvStorageEngine.Engine.Correctness.SequenceNumbers
import KvStorageEngine.Engine.Correctness.ClearData
import KvStorageEngine.Lib.Relay
import KvStorageEngine.Engine.LiveEngine
import KvStorageEngine.Engine.Correctness.LiveRequests
import KvStorageEngine.Engine.Correctness.LivePlaces
import KvStorageEngine.Engine.Correctness.LiveReads
import KvStorageEngine.Distributed.Cluster
import KvStorageEngine.Distributed.Correctness.AppliedPrefix
import KvStorageEngine.Distributed.Correctness.ShippedEntries
import KvStorageEngine.Distributed.Correctness.SkippedEntries
import KvStorageEngine.Lib.LineFraming
import KvStorageEngine.Distributed.WireFormat
import KvStorageEngine.Distributed.Correctness.WireRoundTrip
import KvStorageEngine.Distributed.Connection
import KvStorageEngine.Distributed.Correctness.WholeLines
import KvStorageEngine.Distributed.Correctness.AckMatching
import KvStorageEngine.Server.Correctness.NodeInvariant
import KvStorageEngine.Server.Correctness.CommitAfterAck
import KvStorageEngine.Server.Correctness.Convergence
import KvStorageEngine.Server.Correctness.ReadYourWrites
import KvStorageEngine.Lib.Cutting
import KvStorageEngine.Server.ConnectionHandler
import KvStorageEngine.Server.Correctness.TextCommands
import KvStorageEngine.Cli.Client
import KvStorageEngine.Cli.Correctness.ValueRoundTrip
import KvStorageEngine.Cli.Correctness.SetThenGet
import KvStorageEngine.Distributed.Correctness.CutMessages
import KvStorageEngine.Distributed.Correctness.DecoderProgress
import KvStorageEngine.Engine.Correctness.TableNames
import KvStorageEngine.Engine.Correctness.CompactionInputs
import KvStorageEngine.Engine.Correctness.CompactionProgress
import KvStorageEngine.Engine.Correctness.MergeReference
import KvStorageEngine.Engine.Correctness.StaleIndex
import KvStorageEngine.Engine.Correctness.LostWrites
import KvStorageEngine.Engine.WriterBatch
import KvStorageEngine.Engine.Correctness.BatchErrors
import KvStorageEngine.Engine.FlushSignals
import KvStorageEngine.Engine.Correctness.FlushWakeups
import KvStorageEngine.Engine.Correctness.LogBuffers
import KvStorageEngine.Engine.Correctness.RecoverTwice
import KvStorageEngine.Engine.Correctness.FilterRoundTrip
import KvStorageEngine.Engine.Correctness.TableScan
import KvStorageEngine.Engine.Correctness.EmptyBatch
import KvStorageEngine.Engine.ConcurrentDeletes
import KvStorageEngine.Engine.Correctness.TruthfulDeletes
import KvStorageEngine.Server.Correctness.ReadLines
import KvStorageEngine.Server.Correctness.CommandGrammar
import KvStorageEngine.Server.ConfigParser
import KvStorageEngine.Server.Correctness.PeersList
import KvStorageEngine.Lib.Held
import KvStorageEngine.Server.ThreadPool
import KvStorageEngine.Server.Correctness.PoolDrain
import KvStorageEngine.Server.AcceptLoop
import KvStorageEngine.Server.Correctness.ConnectionCount
import KvStorageEngine.Engine.Shutdown
import KvStorageEngine.Engine.Correctness.ThreadsInvariant
import KvStorageEngine.Engine.Correctness.CleanShutdown
import KvStorageEngine.Engine.SyncSignals
import KvStorageEngine.Engine.Correctness.ClosedLog
import KvStorageEngine.Engine.Correctness.SyncRounds
import KvStorageEngine.Engine.CompactionSignals
import KvStorageEngine.Engine.Correctness.CompactionRequests
import KvStorageEngine.Distributed.PeerSockets
import KvStorageEngine.Distributed.Correctness.SocketOwnership
import KvStorageEngine.Distributed.ApplySignals
import KvStorageEngine.Distributed.Correctness.ApplyWakeups
import KvStorageEngine.Engine.Shell
import KvStorageEngine.Engine.Correctness.ShellCommands
import KvStorageEngine.Engine.Correctness.ShellSessions
import KvStorageEngine.Server.Startup
import KvStorageEngine.Server.Correctness.StartupArguments
import KvStorageEngine.Engine.Correctness.CompactionSettles
