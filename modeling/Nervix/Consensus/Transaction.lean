import Nervix.Consensus.CommandExecution
import Nervix.Consensus.CommitPlan

/-!
# Replicated transactions

A transaction and its transitions: it queues statements while open, applies them step by step while
committing, and keeps its outcome once finished. Each transition refuses without a change, or leaves
the transaction as the replicated state stores it next.
-/

namespace Nervix.Consensus

structure TransactionDiagnostic where
  message : String
  span : Option Encoded
  deriving DecidableEq, Repr

structure TransactionCommandResult where
  success : Bool
  message : String
  diagnostics : List TransactionDiagnostic
  alreadyExisted : Bool
  admission : Option Encoded
  deriving DecidableEq, Repr

structure TransactionStatementRequest where
  requestReference : CommandExecutionReference
  expectedPosition : Nat
  source : String
  statement : Statement
  deriving DecidableEq, Repr

def TransactionStatementRequest.sourceBytes (request : TransactionStatementRequest) : Nat :=
  request.source.utf8ByteSize

structure TransactionStatement where
  request : TransactionStatementRequest
  admission : TransactionCommandResult
  deriving DecidableEq, Repr

abbrev SourceDigest := String → Digest

structure AcceptedTransactionStatement where
  requestReference : CommandExecutionReference
  expectedPosition : Nat
  sourceDigest : Digest
  admission : TransactionCommandResult
  deriving DecidableEq, Repr

namespace AcceptedTransactionStatement

def accepted (digest : SourceDigest) (statement : TransactionStatement) :
    AcceptedTransactionStatement :=
  ⟨statement.request.requestReference, statement.request.expectedPosition,
    digest statement.request.source, statement.admission⟩

def acceptedRequest (digest : SourceDigest) (accepted : AcceptedTransactionStatement)
    (request : TransactionStatementRequest) : Bool :=
  accepted.expectedPosition = request.expectedPosition &&
    accepted.sourceDigest = digest request.source

end AcceptedTransactionStatement

structure TransactionQueueLimits where
  maxStatements : Nat
  maxSourceBytes : Nat
  deriving DecidableEq, Repr

inductive TransactionQueueAdmission
  | new
  | existing (admission : TransactionCommandResult)
  deriving DecidableEq, Repr

inductive TransactionQueueDecision
  | added
  | existing
  | expired
  deriving DecidableEq, Repr

structure TransactionStepResult where
  impact : ExecutionStepImpactReport
  result : TransactionCommandResult
  deriving DecidableEq

namespace TransactionStepResult

def firstStatement (result : TransactionStepResult) : Nat := result.impact.operations.firstIndex

def statementCount (result : TransactionStepResult) : Nat := result.impact.operations.operationCount

def endOfConsecutiveFrom : Nat → List TransactionStepResult → Option Nat
  | next, [] => some next
  | next, result :: results =>
    if result.firstStatement ≠ next then none
    else endOfConsecutiveFrom (next + result.statementCount) results

def endOfConsecutive (results : List TransactionStepResult) : Option Nat :=
  endOfConsecutiveFrom 0 results

end TransactionStepResult

inductive TransactionOutcome
  | committed
  | failed (failingStep : Nat) (error : String)
  | planningInputsChanged (failingStep : Nat) (error : String)
  | reverted
  | expired
  deriving DecidableEq, Repr

def TransactionOutcome.asStr : TransactionOutcome → String
  | committed => "COMMITTED"
  | failed _ _ | planningInputsChanged _ _ => "FAILED"
  | reverted => "REVERTED"
  | expired => "EXPIRED"

structure TransactionApplyingStep where
  effectRevision : Nat
  nextStatement : Nat
  result : TransactionStepResult
  effect : Option TransactionStepEffect
  completion : Option TransactionOutcome
  deriving DecidableEq

structure TransactionCommitProgress where
  lastActivityAt : Timestamp
  nextStatement : Nat
  results : List TransactionStepResult
  applying : Option TransactionApplyingStep
  domainMutation : Option DomainMutationLease
  deriving DecidableEq

structure FinishedTransaction where
  outcome : TransactionOutcome
  outcomeRevision : Nat
  finishedAt : Timestamp
  results : List TransactionStepResult
  accepted : List AcceptedTransactionStatement
  deriving DecidableEq

namespace TransactionActivity

def fromTimeout (lastActivityAt timeout : Timestamp) : TransactionActivity where
  lastActivityAt := lastActivityAt
  inactivityDeadline := min Timestamp.max (lastActivityAt + timeout)

def isInactiveAt (activity : TransactionActivity) (observedAt : Timestamp) : Bool :=
  activity.inactivityDeadline ≤ observedAt

def renew (current activity : TransactionActivity) : TransactionActivity where
  lastActivityAt := max current.lastActivityAt activity.lastActivityAt
  inactivityDeadline := max current.inactivityDeadline activity.inactivityDeadline

end TransactionActivity

inductive TransactionState
  | «open» (activity : TransactionActivity)
  | committing (progress : TransactionCommitProgress)
  | finished (finished : FinishedTransaction)
  deriving DecidableEq

namespace TransactionState

def asStr : TransactionState → String
  | .open _ => "OPEN"
  | committing _ => "COMMITTING"
  | finished f => f.outcome.asStr

def isLive : TransactionState → Bool
  | .open _ | committing _ => true
  | finished _ => false

end TransactionState

structure ReplicatedTransaction where
  id : TransactionId
  domain : DomainName
  owner : UserName
  createdAt : Timestamp
  state : TransactionState
  statementCount : Nat
  queuedSourceBytes : Nat
  statements : List TransactionStatement
  latestPreview : Option TransactionPreviewIdentity
  commitPlan : Option TransactionCommitPlanHeader
  mutationOwner : DomainMutationOwner
  deriving DecidableEq

inductive TransactionMutationError
  | alreadyExists (id : TransactionId)
  | unknown (id : TransactionId)
  | ownerMismatch (id : TransactionId)
  | domainMismatch (id : TransactionId) (expected requested : DomainName)
  | notOpen (id : TransactionId) (state : String)
  | notCommitting (id : TransactionId) (state : String)
  | finished (id : TransactionId) (outcome : String)
  | openLimit (limit : Nat)
  | statementLimit (id : TransactionId) (limit : Nat)
  | sourceByteLimit (id : TransactionId) (limit : Nat)
  | requestConflict (id : TransactionId) (requestReference : CommandExecutionReference)
  | positionConflict (id : TransactionId) (expected actual : Nat)
  | reportMismatch (id : TransactionId)
  | reportConflict (id : TransactionId)
  | previewStale (expected current : TransactionPreviewIdentity)
  | invalidCommitPlan (id : TransactionId)
  | invalidCommitFailure (id : TransactionId)
  | planningInputsChanged (id : TransactionId) (reason : String)
  | progressConflict (id : TransactionId) (expected actual : Nat)
  | invalidProgress (id : TransactionId) (next statementCount : Nat)
  | invalidStepResult (id : TransactionId)
  | applicationInProgress (id : TransactionId) (statement : Nat)
  | noApplicationInProgress (id : TransactionId) (statement : Nat)
  | effectMismatch (id : TransactionId)
  | stepConflict (id : TransactionId) (reason : String)
  | domainMutationConflict (id : TransactionId) (domain : DomainName) (owner : DomainMutationOwner)
  | domainMutationFenceLost (id : TransactionId) (domain : DomainName)
  deriving DecidableEq, Repr

namespace ReplicatedTransaction

section
variable (id : TransactionId) (digest : SourceDigest) (t : ReplicatedTransaction)
  (domain : DomainName) (owner : UserName)

def openWithMutationOwner (activity : TransactionActivity) (mutationOwner : DomainMutationOwner) :
    ReplicatedTransaction where
  id := id
  domain := domain
  owner := owner
  createdAt := activity.lastActivityAt
  state := .open activity
  statementCount := 0
  queuedSourceBytes := 0
  statements := []
  latestPreview := none
  commitPlan := none
  mutationOwner := mutationOwner

def «open» (activity : TransactionActivity) : ReplicatedTransaction :=
  openWithMutationOwner id domain owner activity (.transaction id)

def openForCommand (activity : TransactionActivity) (command : CommandExecutionReference) :
    ReplicatedTransaction :=
  openWithMutationOwner id domain owner activity (.command command)

def domainMutation : Option DomainMutationLease :=
  match t.state with
  | .committing progress => progress.domainMutation
  | .open _ | .finished _ => none

def requiresDomainMutation : Bool :=
  t.statements.any fun statement => statement.request.statement.requiresDomainMutationOwnership

def commitResults : List TransactionStepResult :=
  match t.state with
  | .committing progress => progress.results
  | .finished finished => finished.results
  | .open _ => []

/-! ### States that transitions reach -/

def sourceBytes (statements : List TransactionStatement) : Nat :=
  (statements.map fun statement => statement.request.sourceBytes).sum

def holdsItsQueue : Bool :=
  t.statements.length = t.statementCount && sourceBytes t.statements < 2 ^ 64 &&
    sourceBytes t.statements = t.queuedSourceBytes

def holdsCommitProgress (progress : TransactionCommitProgress) : Bool :=
  TransactionStepResult.endOfConsecutive progress.results = some progress.nextStatement &&
    progress.nextStatement ≤ t.statements.length &&
    progress.applying.all fun applying =>
      progress.nextStatement < applying.nextStatement &&
        applying.nextStatement ≤ t.statements.length &&
        applying.result.firstStatement = progress.nextStatement &&
        applying.nextStatement - progress.nextStatement = applying.result.statementCount

def holdsFinishedOutcome (finished : FinishedTransaction) : Bool :=
  ((TransactionStepResult.endOfConsecutive finished.results).any fun applied =>
      applied ≤ t.statementCount) &&
    match finished.outcome with
    | .failed failingStep _ | .planningInputsChanged failingStep _ =>
      failingStep < t.statementCount
    | .committed | .reverted | .expired => true

def isReachable : Bool :=
  match t.state with
  | .open _ => t.holdsItsQueue
  | .committing progress => t.holdsItsQueue && t.holdsCommitProgress progress
  | .finished finished =>
    t.statements.isEmpty && t.queuedSourceBytes = 0 &&
      finished.accepted.length = t.statementCount && t.holdsFinishedOutcome finished

/-! ### Transitions -/

def setLatestPreview (preview : TransactionPreviewIdentity) : ReplicatedTransaction :=
  { t with latestPreview := some preview }

def hasCommitAdmission (plan : TransactionCommitPlanHeader) : Bool :=
  t.commitPlan = some plan &&
    match t.state with
    | .committing _ | .finished _ => true
    | .open _ => false

def ensureOwner : Except TransactionMutationError Unit :=
  if t.owner = owner then .ok () else .error (.ownerMismatch t.id)

def ensureDomain : Except TransactionMutationError Unit :=
  if t.domain = domain then .ok () else .error (.domainMismatch t.id t.domain domain)

def notOpenError : TransactionMutationError :=
  .notOpen t.id t.state.asStr

def notCommittingError : TransactionMutationError :=
  .notCommitting t.id t.state.asStr

def repeatedAppend (statement : TransactionStatementRequest) :
    Option (Except TransactionMutationError TransactionQueueAdmission) :=
  let conflict := TransactionMutationError.requestConflict t.id statement.requestReference
  match t.statements.find? fun e => e.request.requestReference = statement.requestReference with
  | some existing =>
    some (if existing.request = statement then .ok (.existing existing.admission)
      else .error conflict)
  | none =>
    match t.state with
    | .finished finished =>
      (finished.accepted.find? fun a => a.requestReference = statement.requestReference).map
        fun accepted =>
          if accepted.acceptedRequest digest statement then .ok (.existing accepted.admission)
          else .error conflict
    | .open _ | .committing _ => none

def queueAdmission (domain : DomainName) (statement : TransactionStatementRequest)
    (limits : TransactionQueueLimits) :
    Except TransactionMutationError TransactionQueueAdmission := do
  t.ensureOwner owner
  t.ensureDomain domain
  match t.repeatedAppend digest statement with
  | some answer => answer
  | none =>
    match t.state with
    | .committing _ | .finished _ => .error t.notOpenError
    | .open _ =>
      if statement.expectedPosition ≠ t.statements.length then
        .error (.positionConflict t.id statement.expectedPosition t.statements.length)
      else if limits.maxStatements ≤ t.statements.length then
        .error (.statementLimit t.id limits.maxStatements)
      else
        -- bytes that cannot even be added as a 64-bit count are past any limit
        let next := t.queuedSourceBytes + statement.sourceBytes
        if next < 2 ^ 64 ∧ next ≤ limits.maxSourceBytes then .ok .new
        else .error (.sourceByteLimit t.id limits.maxSourceBytes)

def finish (finishedAt : Timestamp)
    (outcomeRevision : Nat) (outcome : TransactionOutcome) (results : List TransactionStepResult) :
    ReplicatedTransaction :=
  { t with
    statements := []
    queuedSourceBytes := 0
    state := .finished {
      outcome := outcome
      outcomeRevision := outcomeRevision
      finishedAt := finishedAt
      results := results
      accepted := t.statements.map (AcceptedTransactionStatement.accepted digest) } }

end

inductive OpenActivity
  | active (current : TransactionActivity)
  | expired (transaction : ReplicatedTransaction)
  | notOpen

section
variable (digest : SourceDigest) (t : ReplicatedTransaction)

def expireOpenIfInactive (activity : TransactionActivity) (outcomeRevision : Nat) : OpenActivity :=
  match t.state with
  | .open current =>
    if current.isInactiveAt activity.lastActivityAt then
      .expired (t.finish digest activity.lastActivityAt outcomeRevision .expired [])
    else .active current
  | .committing _ | .finished _ => .notOpen

def queue (owner : UserName)
    (domain : DomainName) (activity : TransactionActivity) (outcomeRevision : Nat)
    (statement : TransactionStatement) (limits : TransactionQueueLimits) :
    Except TransactionMutationError (TransactionQueueDecision × ReplicatedTransaction) := do
  t.ensureOwner owner
  t.ensureDomain domain
  match t.expireOpenIfInactive digest activity outcomeRevision with
  | .notOpen => .error t.notOpenError
  | .expired expired => .ok (.expired, expired)
  | .active current =>
    match ← t.queueAdmission digest owner domain statement.request limits with
    | .existing _ => .ok (.existing, t)
    | .new => .ok (.added, { t with
        state := .open (current.renew activity)
        statementCount := t.statementCount + 1
        queuedSourceBytes := t.queuedSourceBytes + statement.request.sourceBytes
        statements := t.statements ++ [statement] })

def startCommit (owner : UserName) (activity : TransactionActivity) (outcomeRevision : Nat)
    (domainMutation : Option DomainMutationLease) (commitPlan : TransactionCommitPlanHeader) :
    Except TransactionMutationError ReplicatedTransaction := do
  t.ensureOwner owner
  match t.expireOpenIfInactive digest activity outcomeRevision with
  | .notOpen => .error t.notOpenError
  | .expired expired => .ok expired
  | .active current => .ok { t with
      latestPreview := some commitPlan.preview
      commitPlan := some commitPlan
      state := .committing {
        lastActivityAt := (current.renew activity).lastActivityAt
        nextStatement := 0
        results := []
        applying := none
        domainMutation := domainMutation } }

def matchesCommitAdmissionFailure
    (preview : TransactionPreviewIdentity) (failingStep : Nat) (error : String) : Bool :=
  t.latestPreview = some preview &&
    match t.state with
    | .finished finished => finished.outcome = .failed failingStep error
    | .open _ | .committing _ => false

end

inductive TransactionCommitFailureDecision
  | failed
  | expired
  | existing
  deriving DecidableEq, Repr

section
variable (digest : SourceDigest) (t : ReplicatedTransaction) (owner : UserName)
  (activity : TransactionActivity) (outcomeRevision : Nat)

def failCommitAdmission (preview : TransactionPreviewIdentity)
    (failingStep : Nat) (error : String) :
    Except TransactionMutationError (TransactionCommitFailureDecision × ReplicatedTransaction) := do
  t.ensureOwner owner
  if t.matchesCommitAdmissionFailure preview failingStep error then .ok (.existing, t)
  else match t.expireOpenIfInactive digest activity outcomeRevision with
    | .notOpen => .error t.notOpenError
    | .expired expired => .ok (.expired, expired)
    | .active current =>
      if t.statements.length ≤ failingStep then
        .error (.invalidProgress t.id failingStep t.statements.length)
      else .ok (.failed, (t.setLatestPreview preview).finish digest
        (current.renew activity).lastActivityAt outcomeRevision (.failed failingStep error) [])

def touch : Except TransactionMutationError ReplicatedTransaction := do
  t.ensureOwner owner
  match t.state with
  | .open _ =>
    match t.expireOpenIfInactive digest activity outcomeRevision with
    | .notOpen => .error t.notOpenError
    | .expired expired => .ok expired
    | .active current => .ok { t with state := .open (current.renew activity) }
  | .committing progress => .ok { t with state := .committing { progress with
      lastActivityAt := max progress.lastActivityAt activity.lastActivityAt } }
  | .finished finished => .error (.finished t.id finished.outcome.asStr)

def beginApplication (expectedNextStatement : Nat) (at_ : Timestamp)
    (applying : TransactionApplyingStep) : Except TransactionMutationError ReplicatedTransaction :=
  match t.state with
  | .open _ | .finished _ => .error t.notCommittingError
  | .committing progress =>
    if progress.nextStatement ≠ expectedNextStatement then
      .error (.progressConflict t.id expectedNextStatement progress.nextStatement)
    else match progress.applying with
      | some current =>
        if current = applying then .ok t
        else .error (.applicationInProgress t.id progress.nextStatement)
      | none =>
        if applying.nextStatement ≤ expectedNextStatement ∨
            t.statements.length < applying.nextStatement then
          .error (.invalidProgress t.id applying.nextStatement t.statements.length)
        else if applying.result.firstStatement ≠ expectedNextStatement ∨
            applying.result.statementCount ≠ applying.nextStatement - expectedNextStatement then
          .error (.invalidStepResult t.id)
        else .ok { t with state := .committing { progress with
            lastActivityAt := max progress.lastActivityAt at_
            applying := some applying } }

def completedResult (applying : TransactionApplyingStep) (actual : ActualExecutionStepImpact)
    (applicationFailure : Option String) : TransactionStepResult :=
  let impact := applying.result.impact
  let diagnostic (message : String) : ImpactDiagnostic :=
    ⟨.application, some impact.operations.first, message⟩
  let observed (outcome : ExecutionStepOutcome) : ExecutionStepImpactReport :=
    { impact with actual := ⟨outcome, actual.quiescence, actual.effects⟩ }
  match applicationFailure with
  | some error => {
      impact := observed (.failed (diagnostic error))
      result := { applying.result.result with
        success := false, message := error, diagnostics := [⟨error, none⟩] } }
  | none => { applying.result with
      impact := observed (if applying.result.result.success then .applied
        else .failed (diagnostic applying.result.result.message)) }

def completeApplication (expectedNextStatement : Nat) (at_ : Timestamp) (outcomeRevision : Nat)
    (actual : ActualExecutionStepImpact) (applicationFailure : Option String) :
    Except TransactionMutationError ReplicatedTransaction :=
  match t.state with
  | .open _ | .finished _ => .error t.notCommittingError
  | .committing progress =>
    if progress.nextStatement ≠ expectedNextStatement then
      .error (.progressConflict t.id expectedNextStatement progress.nextStatement)
    else match progress.applying with
      | none => .error (.noApplicationInProgress t.id expectedNextStatement)
      | some applying =>
        if applying.result.firstStatement ≠ expectedNextStatement then
          .error (.invalidStepResult t.id)
        else
          let completion := match applicationFailure with
            | some error => some (.failed expectedNextStatement error)
            | none => applying.completion
          let lastActivityAt := max progress.lastActivityAt at_
          let results := progress.results ++ [completedResult applying actual applicationFailure]
          match completion with
          | some outcome => .ok (t.finish digest lastActivityAt outcomeRevision outcome results)
          | none => .ok { t with state := .committing { progress with
              lastActivityAt := lastActivityAt
              nextStatement := applying.nextStatement
              results := results
              applying := none } }

def finishEmptyCommit (at_ : Timestamp)
    (outcomeRevision : Nat) : Except TransactionMutationError ReplicatedTransaction :=
  match t.state with
  | .open _ | .finished _ => .error t.notCommittingError
  | .committing progress =>
    if t.statements ≠ [] ∨ progress.nextStatement ≠ 0 ∨ progress.applying.isSome then
      .error (.invalidProgress t.id progress.nextStatement t.statements.length)
    else .ok (t.finish digest (max progress.lastActivityAt at_) outcomeRevision .committed [])

def revert : Except TransactionMutationError ReplicatedTransaction := do
  t.ensureOwner owner
  match t.expireOpenIfInactive digest activity outcomeRevision with
  | .notOpen => .error t.notOpenError
  | .expired expired => .ok expired
  | .active current =>
    .ok (t.finish digest (current.renew activity).lastActivityAt outcomeRevision .reverted [])

def expire (at_ : Timestamp) (outcomeRevision : Nat) : Option ReplicatedTransaction :=
  match t.state with
  | .open activity =>
    if activity.isInactiveAt at_ then some (t.finish digest at_ outcomeRevision .expired [])
    else none
  | .committing _ | .finished _ => none

end

end ReplicatedTransaction

inductive TransactionApplicationOutcome
  | applied
  | failed (error : String)
  | rolledBack (error : String) (inputs : DomainPlanningInputs)
  deriving DecidableEq

def TransactionApplicationOutcome.error : TransactionApplicationOutcome → Option String
  | applied => none
  | failed error | rolledBack error _ => some error

structure TransactionCommitAdmissionFailure where
  id : TransactionId
  owner : UserName
  activity : TransactionActivity
  expectedPreview : TransactionPreviewIdentity
  report : TransactionReportArchive
  inputs : DomainPlanningInputs
  operation : TransactionOperationNumber
  error : String
  deriving DecidableEq

end Nervix.Consensus
