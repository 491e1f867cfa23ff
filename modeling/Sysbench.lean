import Sysbench.Core.QueueWait
import Sysbench.Core.Concurrency
import Sysbench.Core.Snapshots
import Sysbench.Database.BulkInsert
import Sysbench.Machine.Runs
import Sysbench.Fileio.Schedule
import Sysbench.Fileio.SequentialBounds
import Sysbench.Fileio.Random
import Sysbench.Fileio.Mix
import Sysbench.Fileio.Exclusion
import Sysbench.Fileio.FinalFsync
import Sysbench.Fileio.Async
import Sysbench.Fileio.Crc32
import Sysbench.Machine.Bytes
import Sysbench.Fileio.ValidationRuns
import Sysbench.Fileio.Reports
import Sysbench.Fileio.AsyncBuffer
import Sysbench.Core.Shutdown
import Sysbench.Core.LockOrder
import Sysbench.Core.RequestLimit
import Sysbench.Core.LocalPercentile
import Sysbench.Memory.Budget
import Sysbench.Database.Intervals
import Sysbench.Database.Totals
import Sysbench.Database.LuaParams
import Sysbench.Database.BindReaders
import Sysbench.Database.Emulation
import Sysbench.Database.Restart
import Sysbench.Database.BulkLedger
import Sysbench.Options.RoundTrip
import Sysbench.Options.Agreement
import Sysbench.Options.Precedence
import Sysbench.Database.BoundReads
import Sysbench.Database.Positions
import Sysbench.Database.Oltp
import Sysbench.Fileio.Detection
import Sysbench.Core.Distributions
import Sysbench.Core.RandUniq
import Sysbench.Core.Splits
import Sysbench.Core.Merging
import Sysbench.Database.Hosts
import Sysbench.Core.Pauses
import Sysbench.Fileio.BlockAccess
import Sysbench.Core.PercentileRank
import Sysbench.Machine.Doubles
import Sysbench.Options.Sizes
import Sysbench.Fileio.Buffers
import Sysbench.Fileio.SeqCheck
import Sysbench.Fileio.Mmap
import Sysbench.Fileio.Retry
import Sysbench.Fileio.Divisors
import Sysbench.Fileio.ShortWrites
import Sysbench.Mutex.Locks
import Sysbench.Database.Drivers
import Sysbench.Database.StatsAccess
import Sysbench.Database.Literals
import Sysbench.Core.ReportSchedule
import Sysbench.Cpu.Primes
import Sysbench.Lists.Sequences
import Sysbench.Memory.Deltas
import Sysbench.Database.KeySegments
import Sysbench.Options.LuaExport
import Sysbench.Core.TextLog
import Sysbench.Options.ConfigBuffer
import Sysbench.Options.ConfigChunks
import Sysbench.Core.TxSignals
import Sysbench.Core.Once
import Sysbench.Memory.HugePages
import Sysbench.Fileio.BurstErrors
import Sysbench.Fileio.Crc32Remainder
import Sysbench.Database.TableLife
import Sysbench.Database.OltpTotals
import Sysbench.Core.QueueWakeups
import Sysbench.Mutex.LockRuns
import Sysbench.Core.EventTotals
import Sysbench.Core.RunQueue
import Sysbench.Memory.Access
import Sysbench.Core.CheckpointList
import Sysbench.Core.Broadcasts
import Sysbench.Database.SharedTables
