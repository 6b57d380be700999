import BasisDB.OrdSet
import BasisDB.OrdMap
import BasisDB.CommandRuns
import BasisDB.KvCommand
import BasisDB.KvSessions
import BasisDB.KvExactlyOnce
import BasisDB.KvGenerations
import BasisDB.KvAtomic
import BasisDB.Paging
import BasisDB.KvBrowse
import BasisDB.KvPages
import BasisDB.KvNamespaces
import BasisDB.KvListing
import BasisDB.LittleEndian
import BasisDB.Frames
import BasisDB.WalFormat
import BasisDB.WalSegment
import BasisDB.Wal
import BasisDB.WalLayout
import BasisDB.WalAppend
import BasisDB.WalAccounts
import BasisDB.WalRecovery
import BasisDB.WalOpen
import BasisDB.WalAccounting
import BasisDB.RaftStore
import BasisDB.RaftStoreRuns
import BasisDB.LogCoherence
import BasisDB.LogHistory
import BasisDB.LogHistorySteps
import BasisDB.LogCompleteness
import BasisDB.LogReconfig
import BasisDB.RaftMembership
import BasisDB.RaftLog
import BasisDB.RaftContiguousLog
import BasisDB.RaftQuorum
import BasisDB.RaftEvent
import BasisDB.RaftCore
import BasisDB.RaftFollower
import BasisDB.RaftPlainLog
import BasisDB.RaftCandidate
import BasisDB.RaftLeader
import BasisDB.RaftNode
import BasisDB.RaftRuntime
import BasisDB.RaftProtocol
import BasisDB.RaftFormed
import BasisDB.RaftSim
import BasisDB.RaftSimSteps
import BasisDB.RaftSimRun
import BasisDB.RaftFixedRuns
import BasisDB.RaftAcked
import BasisDB.RaftAckedSteps
import BasisDB.RaftReads
import BasisDB.RaftRuns
import BasisDB.RaftSafety
import BasisDB.RaftStable
import BasisDB.RaftReadRuns
import BasisDB.RaftReconfigRuns
import BasisDB.RaftJoint
import BasisDB.RaftJointRuns
import BasisDB.RaftRefine
import BasisDB.RaftRefineRoles
import BasisDB.RaftRefineLeader
import BasisDB.RaftRefineCommit
import BasisDB.RaftSends
import BasisDB.RaftRepair
import BasisDB.RaftRepairSteps
import BasisDB.RaftRepairRounds
import BasisDB.RaftRepairLog
import BasisDB.RaftRepairConverges
import BasisDB.RaftRepairRuns
import BasisDB.RaftEvolves
import BasisDB.RaftEvolvesNode
import BasisDB.RaftTransitions
import BasisDB.RaftSolo
import BasisDB.RaftVotes
import BasisDB.RaftPrevote
import BasisDB.RaftPrevoteRuns
import BasisDB.RaftMembershipRuns
import BasisDB.RaftStale
import BasisDB.RaftCompactedLog
import BasisDB.RaftAppendRuns
import BasisDB.RaftAppendCommit
import BasisDB.RaftCompaction
import BasisDB.RaftSnapshot
import BasisDB.RaftSnapshotTransfer
import BasisDB.LoopRuns
import BasisDB.RaftCommitRule
import BasisDB.RaftProgress
import BasisDB.RaftLeading
import BasisDB.RaftDiskRuns
import BasisDB.RaftProgressRuns
import BasisDB.RaftBatches
import BasisDB.RaftDelivery
import BasisDB.RaftElection
import BasisDB.RaftTransfer
import BasisDB.RaftDrain
import BasisDB.ReadCoordinator
import BasisDB.ReadCoordinatorRuns
import BasisDB.SessionTracker
import BasisDB.RaftRefineNode
import BasisDB.RaftRefineCluster
import BasisDB.RuntimeSound
import BasisDB.RuntimeAcks
import BasisDB.RaftCluster
import BasisDB.Simulations
import BasisDB.RuntimeRefines
import BasisDB.RaftApplied
import BasisDB.RuntimeTruthful
import BasisDB.RuntimeReplicas
import BasisDB.RuntimeWaiting
import BasisDB.RuntimeOwned
import BasisDB.RuntimeReads
import BasisDB.RuntimeOrigins
import BasisDB.RuntimeLinear
import BasisDB.KvService
import BasisDB.ServiceLinear
import BasisDB.ServiceErrors
import BasisDB.RuntimeAttributed
import BasisDB.RaftAddressed
import BasisDB.RuntimeHealthy
import BasisDB.RaftAuth
import BasisDB.RaftTransport
import BasisDB.JsonText
import BasisDB.WireFormat
import BasisDB.RuntimeSizes
import BasisDB.WalTorn
import BasisDB.RaftStoreCrash
import BasisDB.RuntimeDisks
import BasisDB.RuntimeStores
import BasisDB.DiskCluster
