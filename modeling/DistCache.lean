import DistCache.FlushAllInterleaving
import DistCache.LimitedReplay
import DistCache.CrashRecovery
import DistCache.RestartRecovery
import DistCache.ReplicaReads
import DistCache.VersionCheck
import DistCache.ExecIsolation
import DistCache.AuthGate
import DistCache.ReaderMakes
import DistCache.ReplicationFrames
import DistCache.SnapshotFiles
import DistCache.SparedKey
import DistCache.SweepPlacement
import DistCache.EntryCap
import DistCache.OpenConnections
import DistCache.QueuedCommands
import DistCache.ReplicationProgress
import DistCache.EntryBalance
import DistCache.Unsubscribing
import DistCache.KeyRenaming
import DistCache.ClusterCalls
import DistCache.EventQueue
import DistCache.LogDurability
