import Nervix.Consensus.ResourceVersions
import Nervix.Consensus.Installation
import Nervix.Consensus.ReportRetention
import Nervix.Consensus.RuntimeRevision
import Nervix.RateLimit.Restoration
import Nervix.CheckpointReplication
import Nervix.BranchInstances.Membership
import Nervix.Runtime.Ack.Resolution
import Nervix.Runtime.KafkaOffset.Capture
import Nervix.Runtime.RemoteAck.Parking
import Nervix.Runtime.RemoteAck.Correlation
import Nervix.Runtime.StateStore.Durability
import Nervix.Runtime.DomainClock.Reads
import Nervix.Runtime.RelayTransit
import Nervix.Authentication.Pacing
import Nervix.Processors.Deduplicator
import Nervix.Processors.Correlator
import Nervix.Processors.Reorderer
import Nervix.Emitter.RowRequests
import Nervix.Emitter.PreparedRuns
import Nervix.Emitter.ConfirmationWindow
import Nervix.Interconnect.RelayRuns
import Nervix.Execution.WorkerProgress
import Nervix.Processors.TwoStacks
import Nervix.Processors.Window
import Nervix.Interconnect.OutboundDeliveries
import Nervix.Registry.CreationOrder
import Nervix.LinkedExpiryMap
