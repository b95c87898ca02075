import DistributedLabs.GuardedRuns
import DistributedLabs.TermLogs
import DistributedLabs.TermLedger
import DistributedLabs.LedgerSteps
import DistributedLabs.RaftPeer
import DistributedLabs.RaftCluster
import DistributedLabs.PeerSections
import DistributedLabs.RaftMoves
import DistributedLabs.RaftVotes
import DistributedLabs.RaftCommits
import DistributedLabs.LedgerGrowth
import DistributedLabs.RaftLedger
import DistributedLabs.RaftRefinement
import DistributedLabs.RaftSafety
import DistributedLabs.RaftTester
import DistributedLabs.RaftProvenance
import DistributedLabs.RaftRoots
import DistributedLabs.RaftHints
import DistributedLabs.PeerSteps
import DistributedLabs.RaftTenure
import DistributedLabs.RaftReplication
import DistributedLabs.RaftBacktracking
import DistributedLabs.RaftProgress
import DistributedLabs.RaftMutex
import DistributedLabs.Linearizability
import DistributedLabs.KvServer
import DistributedLabs.KvExactlyOnce
import DistributedLabs.KvLinearizable
import DistributedLabs.Grouping
import DistributedLabs.MrAgreement
import DistributedLabs.MrSchedule
import DistributedLabs.MrTimers
import DistributedLabs.MrBuckets
import DistributedLabs.MrCompletion
import DistributedLabs.MrLeftovers
import DistributedLabs.MrApps
import DistributedLabs.LinkedCells
import DistributedLabs.RealTimeOrders
import DistributedLabs.PorcupineBitset
import DistributedLabs.Porcupine
import DistributedLabs.PorcupineEntries
import DistributedLabs.PorcupineEvents
import DistributedLabs.PorcupineSearch
import DistributedLabs.PorcupineVerdict
import DistributedLabs.PorcupineParallel
import DistributedLabs.PorcupineCheck
import DistributedLabs.HistoryLocality
import DistributedLabs.KvChecker
import DistributedLabs.LabGob
import DistributedLabs.LabRpc
import DistributedLabs.RpcCalls
import DistributedLabs.RpcReturns
import DistributedLabs.KvNetwork
import DistributedLabs.KvRefinement
