import Nervix.Consensus.Resources
import Nervix.Consensus.Transaction

/-!
# The replicated state and its commands

The state that every node derives from the committed log, the commands that change it, and what a
command answers.
-/

namespace Nervix.Consensus

structure RestoreStateAuthority where
  leader : ClusterNodeName
  term : Nat
  execution : CommandExecutionReference
  mutationRevision : Nat
  generation : Nat
  deriving DecidableEq, Repr

inductive DomainRestoreInstallation
  | pending (execution : CommandExecutionReference)
  | installing (authority : RestoreStateAuthority)
  deriving DecidableEq, Repr

def DomainRestoreInstallation.execution : DomainRestoreInstallation → CommandExecutionReference
  | pending execution => execution
  | installing authority => authority.execution

structure RestoredResource where
  resource : ResourceName
  nextVersion : ℕ+
  deriving DecidableEq

inductive RestoreStepEffect
  | users (users : List UserCredentials) (policy : ExistingUserPolicy)
  | domain (state : DomainState) (resources : List RestoredResource)
  | completion
  | installedState (authority : RestoreStateAuthority) (clock : Option DomainClockState)
  deriving DecidableEq

structure LogId where
  term : Nat
  index : Nat
  deriving DecidableEq, Repr

structure Membership where
  members : Finset ClusterNodeName
  voters : Finset ClusterNodeName
  deriving DecidableEq

structure StateMachineData where
  parameters : Option ClusterParameterRecord
  lastAppliedLogId : Option LogId
  lastMembership : Membership
  runtimeRevision : Nat
  schedule : Records DomainName DomainSchedule
  domains : Records DomainName DomainState
  domainClockAuthorities : Records DomainName DomainClockAuthority
  users : Records UserName UserCredentials
  resources : ResourceRecords
  cordonedNodeIds : Finset ClusterNodeName
  nodeAdmissionFences : Records ClusterNodeName Nat
  domainMutations : Records DomainName DomainMutationLease
  domainRestoreInstallations : Records DomainName DomainRestoreInstallation
  transactions : Records TransactionId ReplicatedTransaction
  transactionCommitPlans : TransactionCommitPlanRecords
  transactionReports : TransactionReportRecords
  commandExecutions : CommandExecutionRecords

def StateMachineData.initial : StateMachineData where
  parameters := none
  lastAppliedLogId := none
  lastMembership := ⟨∅, ∅⟩
  runtimeRevision := 0
  schedule := ∅
  domains := ∅
  domainClockAuthorities := ∅
  users := ∅
  resources := .empty
  cordonedNodeIds := ∅
  nodeAdmissionFences := ∅
  domainMutations := ∅
  domainRestoreInstallations := ∅
  transactions := ∅
  transactionCommitPlans := .empty
  transactionReports := .empty
  commandExecutions := .empty

structure ClusterParameterPlanningInputs where
  current : ClusterParameterRecord
  schedule : Records DomainName DomainSchedule
  domains : Records DomainName DomainState
  versions : Records ResourceId ResourceVersion
  deriving DecidableEq

inductive ConsensusCommand
  | seedClusterParameters (values : Encoded)
  | alterClusterParameters (reference : CommandExecutionReference)
      (inputs : ClusterParameterPlanningInputs)
  | admitCommandExecution (execution : CommandExecution) (mutationDomains : List DomainName)
      (policy : CommandExecutionAdmissionPolicy)
  | acquireCommandDomainMutation (reference : CommandExecutionReference) (owner : UserName)
      (requestDigest : Digest) (domain : DomainName)
  | releaseCommandDomainMutation (reference : CommandExecutionReference) (owner : UserName)
      (requestDigest : Digest) (domain : DomainName)
  | finishCommandExecution (reference : CommandExecutionReference) (owner : UserName)
      (requestDigest : Digest) (finishedAt : Timestamp) (result : CommandExecutionResult)
  | reclaimCommandExecutions (finishedBefore retryFence : Timestamp)
  | replaceDomainSchedule (inputs : DomainPlanningInputs) (schedule : Option DomainSchedule)
      (mutation : Option DomainMutationLease)
  | updateKafkaPartitionSchedule (inputs : DomainPlanningInputs) (schedule : DomainSchedule)
  | applyAutomaticDomainSchedule (fence : LeaderTenure) (inputs : DomainPlanningInputs)
      (schedule : Option DomainSchedule)
  | reconcileOwnershipHandoffPreparations (authority : Encoded)
  | putDomainAndSchedule (inputs : DomainPlanningInputs) (domain : DomainState)
      (schedule : Option DomainSchedule) (mutation : Option DomainMutationLease)
  | putDomain (domain : DomainState) (mutation : Option DomainMutationLease)
  | startDomain (domainId : DomainName) (start : DomainStartPoint)
      (clock : Option DomainClockState) (authority : Option ClusterNodeIdentity)
      (mutation : Option DomainMutationLease)
  | stopDomain (domainId : DomainName) (mutation : Option DomainMutationLease)
  | pauseDomain (domainId : DomainName) (mutation : Option DomainMutationLease)
  | resumeDomain (domainId : DomainName) (mutation : Option DomainMutationLease)
  | reconcileDomainClockAuthority (domainId : DomainName) (expectedStartVersion : Nat)
      (expectedAuthority : DomainClockAuthority) (owner : Option ClusterNodeIdentity)
  | createUser (user : UserCredentials)
  | createResourceCatalog (domain : DomainName) (identifier : ResourceName)
  | beginResourceUpload (key : ResourceUploadKey) (rootChecksum : String)
  | publishResourceUpload (key : ResourceUploadKey) (resource : ResourceVersion)
      (replica : ResourceNodeStatus)
  | putResourceReplica (replica : ResourceNodeStatus)
  | completeResourceUpload (key : ResourceUploadKey)
  | failResourceUpload (key : ResourceUploadKey) (reason : String)
  | applyRestoreStep (reference : CommandExecutionReference) (step : RestoreStep)
      (effect : RestoreStepEffect)
  | beginRestoreStateInstallation (reference : CommandExecutionReference) (domain : DomainName)
      (tenure : LeaderTenure)
  | importResourceVersion (reference : CommandExecutionReference) (key : ResourceUploadKey)
      (resource : ResourceVersion) (replica : ResourceNodeStatus)
  | setNodeCordoned (nodeId : ClusterNodeName) (cordoned : Bool)
  | fenceNodeAdmission (identity : ClusterNodeIdentity)
  | openTransaction (transaction : ReplicatedTransaction) (maxOpenTransactions : Nat)
  | queueTransactionStatement (id : TransactionId) (owner : UserName) (domain : DomainName)
      (activity : TransactionActivity) (statement : TransactionStatement)
      (report : TransactionReportArchive) (limits : TransactionQueueLimits)
  | touchTransaction (id : TransactionId) (owner : UserName) (activity : TransactionActivity)
  | startTransactionCommit (id : TransactionId) (owner : UserName) (activity : TransactionActivity)
      (expectedPreview : TransactionPreviewIdentity) (report : TransactionReportArchive)
      (plan : TransactionCommitAdmissionPlan)
  | failTransactionCommitAdmission (failure : TransactionCommitAdmissionFailure)
  | advanceTransactionCommit (id : TransactionId) (expectedNextStatement nextStatement : Nat)
      (observedAt : Timestamp) (result : TransactionStepResult)
      (effect : Option TransactionStepEffect) (completion : Option TransactionOutcome)
  | completeTransactionApplication (id : TransactionId) (expectedNextStatement : Nat)
      (observedAt : Timestamp) (actual : ActualExecutionStepImpact)
      (outcome : TransactionApplicationOutcome)
  | finishEmptyTransactionCommit (id : TransactionId) (observedAt : Timestamp)
  | revertTransaction (id : TransactionId) (owner : UserName) (activity : TransactionActivity)
  | expireTransaction (id : TransactionId) (observedAt : Timestamp)
  | removeFinishedTransactions (finishedBefore : Timestamp)

inductive ConsensusConflict
  | clusterParameterInputsChanged
  | clusterParameterExecutionMissing
  | invalidClusterParameter (issue : Encoded)
  | reason (text : String)
  | executionReferenceAdmissionRefused (reference : CommandExecutionReference)
      (refusal : CommandExecutionAdmissionError)
  | executionReferenceConflict (reference : CommandExecutionReference)
      (kind : CommandExecutionRequestConflict)
  deriving DecidableEq, Repr

inductive ConsensusResponse
  | applied
  | conflict (conflict : ConsensusConflict)
  | transaction (result : Except TransactionMutationError ReplicatedTransaction)

structure StateMachineChanges where
  scheduleChanged : Bool := false
  domainsChanged : Bool := false
  resourcesChanged : Bool := false
  transactionsChanged : Bool := false
  deriving DecidableEq, Repr

structure Applied where
  state : StateMachineData
  response : ConsensusResponse
  changes : StateMachineChanges

namespace Applied

def ofConflict (s : StateMachineData) :
    Except ConsensusConflict (StateMachineData × StateMachineChanges) → Applied
  | .ok (state, changes) => ⟨state, .applied, changes⟩
  | .error conflict => ⟨s, .conflict conflict, {}⟩

def ofTransaction (s : StateMachineData) : Except TransactionMutationError Applied → Applied
  | .ok applied => applied
  | .error error => ⟨s, .transaction (.error error), {}⟩

end Applied

structure Environment where
  issuedAt : RetryIssuedAt
  topologyDigest : TopologyDigest
  sourceDigest : SourceDigest
  changedParameters : (values changes : Encoded) → Except Encoded Encoded

namespace StateMachineData

section
variable (s : StateMachineData)

def revision : Nat :=
  match s.lastAppliedLogId with
  | some logId => logId.index
  | none => 0

def domainResourcePlanningInputs (domain : DomainName) : DomainResourcePlanningInputs where
  resources := (s.resources.counters.keys.filter fun key => key.domain = domain).image (·.identifier)
  completedVersions :=
    match s.resources.toStatus with
    | .ok status => status.uploads.completedVersions.filter fun id => id.domain = domain
    | .error _ => ∅

def scheduleTopologyInputs : ScheduleTopologyInputs where
  members := s.lastMembership.members
  voters := s.lastMembership.voters
  cordoned := s.cordonedNodeIds.filter fun nodeId => nodeId ∈ s.lastMembership.voters

def domainPlanningInputs (domain : DomainName) : DomainPlanningInputs where
  parameters := s.parameters
  domain := domain
  state := s.domains.lookup domain
  resources := s.domainResourcePlanningInputs domain
  schedule := s.schedule.lookup domain
  topology := s.scheduleTopologyInputs

def isRemovable (finishedBefore : Timestamp) (id : TransactionId)
    (t : ReplicatedTransaction) : Bool :=
  match t.state with
  | .open _ | .committing _ => false
  | .finished finished =>
    finished.finishedAt ≤ finishedBefore &&
      !decide (id ∈ s.commandExecutions.applyingTransactionTargets) &&
      match t.mutationOwner with
      | .command reference =>
        !(s.commandExecutions.entries.lookup reference).any CommandExecution.isApplying
      | .transaction _ => true

def finishedTransactionRemovals (finishedBefore : Timestamp) : List TransactionId :=
  (s.transactions.ascending.filter fun e => s.isRemovable finishedBefore e.1 e.2).map Prod.fst

end

end StateMachineData

end Nervix.Consensus
