import Nervix.Consensus.DomainMutation

/-!
# Durable command executions

The retained executions of commands by their retry reference: admission against a monotone retry
fence, the request an execution answers, and reclamation of finished executions, which leaves a
tombstone until the fence passes the time embedded in the reference.
-/

namespace Nervix.Consensus

inductive ExistingUserPolicy
  | fail
  | skip
  | replace
  deriving DecidableEq, Repr

inductive RestoreScope
  | cluster (existingUsers : ExistingUserPolicy)
  | domain (domain : DomainName) (target : Option DomainName)
  deriving DecidableEq, Repr

inductive RestoreLifecycle
  | stopped
  | resume
  deriving DecidableEq, Repr

structure Restore where
  scope : RestoreScope
  lifecycle : RestoreLifecycle
  request : Encoded
  deriving DecidableEq, Repr

inductive RestoreStep
  | users
  | createDomain (domain : DomainName)
  | importResources (domain : DomainName)
  | applyModels (domain : DomainName)
  deriving DecidableEq, Repr

def RestoreStep.toText : RestoreStep → String
  | users => "import users"
  | createDomain domain => s!"create domain '{domain}'"
  | importResources domain => s!"import resource versions of domain '{domain}'"
  | applyModels domain => s!"apply models of domain '{domain}'"

structure RestoredUsers where
  created : Nat
  skipped : Nat
  replaced : Nat
  deriving DecidableEq, Repr

structure RestoreExecution where
  restore : Restore
  archive : Encoded
  completed : Finset RestoreStep
  users : Option RestoredUsers

namespace RestoreExecution

section
variable (e : RestoreExecution) (step : RestoreStep)

def new (restore : Restore) (archive : Encoded) : RestoreExecution := ⟨restore, archive, ∅, none⟩

def isRecorded : Bool := step ∈ e.completed

def prerequisite : RestoreStep → Option RestoreStep
  | .users => none
  | .createDomain _ =>
    match e.restore.scope with
    | .cluster _ => some .users
    | .domain _ _ => none
  | .importResources domain => some (.createDomain domain)
  | .applyModels domain => some (.importResources domain)

def missingPrerequisite : Option RestoreStep :=
  (e.prerequisite step).filter fun prerequisite => prerequisite ∉ e.completed

def record (users : Option RestoredUsers) : RestoreExecution :=
  { e with completed := insert step e.completed, users := users <|> e.users }

end

end RestoreExecution

structure TransactionActivity where
  lastActivityAt : Timestamp
  inactivityDeadline : Timestamp
  deriving DecidableEq, Repr

inductive CommandExecutionTransactionTarget
  | new (id : TransactionId) (activity : TransactionActivity)
  | existing (id : TransactionId) (activity : TransactionActivity)
  deriving DecidableEq, Repr

namespace CommandExecutionTransactionTarget

def id : CommandExecutionTransactionTarget → TransactionId
  | new id _ | existing id _ => id

def identifiesSameRequest : (retained requested : CommandExecutionTransactionTarget) → Bool
  | new _ _, new _ _ => true
  | existing id _, existing requested _ => id = requested
  | new _ _, existing _ _ | existing _ _, new _ _ => false

end CommandExecutionTransactionTarget

inductive CommandExecutionEffect
  | alterCluster (changes : Encoded) (applied : Option ClusterParameterRecord)
  | createDomain (body : Encoded)
  | transaction (body : Encoded)
  | transactionRequest (target : CommandExecutionTransactionTarget) (operations : Encoded)
  | statement (body : Encoded)
  | createUser (passwordHash : String) (body : Encoded)
  | dropNode (body : Encoded)
  | restore (restore : RestoreExecution)

inductive CommandExecutionRequestEvidence
  | statement
  | userCredentials (passwordHash : String)
  | transaction (target : CommandExecutionTransactionTarget)
  deriving DecidableEq, Repr

def CommandExecutionEffect.evidence : CommandExecutionEffect → CommandExecutionRequestEvidence
  | createUser passwordHash _ => .userCredentials passwordHash
  | transactionRequest target _ => .transaction target
  | alterCluster _ _ | createDomain _ | transaction _ | statement _ | dropNode _ | restore _ =>
    .statement

structure CommandExecutionRequestIdentity where
  owner : UserName
  domain : Option DomainName
  expectedTransactionPosition : Option TransactionPosition
  requestDigest : Digest
  evidence : CommandExecutionRequestEvidence
  deriving DecidableEq, Repr

abbrev CommandExecutionResult := Encoded

structure ApplyingExecution where
  owner : UserName
  domain : Option DomainName
  expectedTransactionPosition : Option TransactionPosition
  requestDigest : Digest
  admittedAt : Timestamp
  effect : CommandExecutionEffect
  domainMutations : Records DomainName DomainMutationLease

structure FinishedExecution where
  request : CommandExecutionRequestIdentity
  outcomeRevision : Nat
  finishedAt : Timestamp
  result : CommandExecutionResult
  deriving DecidableEq, Repr

inductive CommandExecutionState
  | applying (applying : ApplyingExecution)
  | finished (finished : FinishedExecution)
  | expired

structure CommandExecution where
  reference : CommandExecutionReference
  state : CommandExecutionState

inductive CommandExecutionRequestConflict
  | content
  | domain
  | owner
  | position
  deriving DecidableEq, Repr

namespace CommandExecution

section
variable (e : CommandExecution) (domain : DomainName)

def applyingAtPosition (reference : CommandExecutionReference) (owner : UserName)
    (domain : Option DomainName) (expectedTransactionPosition : Option TransactionPosition)
    (requestDigest : Digest) (admittedAt : Timestamp) (effect : CommandExecutionEffect) :
    CommandExecution where
  reference := reference
  state := .applying
    ⟨owner, domain, expectedTransactionPosition, requestDigest, admittedAt, effect, ∅⟩

def request : Option CommandExecutionRequestIdentity :=
  match e.state with
  | .applying a => some
      ⟨a.owner, a.domain, a.expectedTransactionPosition, a.requestDigest, a.effect.evidence⟩
  | .finished f => some f.request
  | .expired => none

def owner : Option UserName := e.request.map (·.owner)

def requestDigest : Option Digest := e.request.map (·.requestDigest)

def effect : Option CommandExecutionEffect :=
  match e.state with
  | .applying a => some a.effect
  | .finished _ | .expired => none

def isApplying : Bool :=
  match e.state with
  | .applying _ => true
  | .finished _ | .expired => false

def isExpired : Bool :=
  match e.state with
  | .expired => true
  | .applying _ | .finished _ => false

def domainMutations : Records DomainName DomainMutationLease :=
  match e.state with
  | .applying a => a.domainMutations
  | .finished _ | .expired => ∅

def domainMutation : Option DomainMutationLease :=
  e.domainMutations.lookup domain

def bindDomainMutation (lease : DomainMutationLease) : CommandExecution :=
  match e.state with
  | .applying a => { e with
      state := .applying { a with domainMutations := a.domainMutations.insert domain lease } }
  | .finished _ | .expired => e

def releaseDomainMutation : CommandExecution :=
  match e.state with
  | .applying a => { e with
      state := .applying { a with domainMutations := a.domainMutations.erase domain } }
  | .finished _ | .expired => e

def restoreExecution : Option RestoreExecution :=
  match e.effect with
  | some (.restore restore) => some restore
  | _ => none

def recordRestoreStep (step : RestoreStep) (users : Option RestoredUsers) : CommandExecution :=
  match e.state with
  | .applying a =>
    match a.effect with
    | .restore restore => { e with
        state := .applying { a with effect := .restore (restore.record step users) } }
    | _ => e
  | .finished _ | .expired => e

def transactionRequestTarget : Option CommandExecutionTransactionTarget :=
  match e.effect with
  | some (.transactionRequest target _) => some target
  | _ => none

def transactionTarget : Option CommandExecutionTransactionTarget :=
  e.request.bind fun request =>
    match request.evidence with
    | .transaction target => some target
    | .statement | .userCredentials _ => none

def requestConflict (requested : CommandExecutionRequestIdentity) :
    Option CommandExecutionRequestConflict :=
  e.request.bind fun existing =>
    if existing.owner ≠ requested.owner then some .owner
    else if existing.domain ≠ requested.domain then some .domain
    else if existing.expectedTransactionPosition ≠ requested.expectedTransactionPosition then
      some .position
    else if existing.requestDigest ≠ requested.requestDigest then some .content
    else none

def sameRequest (e requested : CommandExecution) : Bool :=
  match e.request, requested.request with
  | some _, some identity =>
    e.reference = requested.reference && (e.requestConflict identity).isNone &&
      match e.transactionTarget, requested.transactionTarget with
      | some existing, some target => existing.identifiesSameRequest target
      | none, none => true
      | some _, none | none, some _ => false
  | _, _ => false

def intoFinished (outcomeRevision : Nat) (finishedAt : Timestamp)
    (result : CommandExecutionResult) : Option CommandExecution :=
  match e.state with
  | .applying a => some { e with state := .finished {
      request :=
        ⟨a.owner, a.domain, a.expectedTransactionPosition, a.requestDigest, a.effect.evidence⟩
      outcomeRevision := outcomeRevision
      finishedAt := finishedAt
      result := result } }
  | .finished _ | .expired => none

def intoExpired : Option CommandExecution :=
  match e.state with
  | .finished _ => some { e with state := .expired }
  | .applying _ | .expired => none

end

end CommandExecution

inductive CommandExecutionReferenceTimestampError
  | notUuidV7
  | outsideTimestampRange
  deriving DecidableEq, Repr

abbrev RetryIssuedAt :=
  CommandExecutionReference → Except CommandExecutionReferenceTimestampError Timestamp

inductive CommandExecutionAdmissionError
  | expired
  | missingTimestamp
  | future
  | capacity (capacity : Nat)
  deriving DecidableEq, Repr

def commandExecutionReferenceFutureSkew : Timestamp := 5 * 60 * 1000000000

structure CommandExecutionAdmissionPolicy where
  retryFence : Timestamp
  latestReference : Timestamp
  capacity : Nat
  deriving DecidableEq, Repr

namespace CommandExecutionAdmissionPolicy

def «at» (now retryValidity : Timestamp) (capacity : Nat) : CommandExecutionAdmissionPolicy where
  retryFence := max Timestamp.min (now - retryValidity)
  latestReference := min Timestamp.max (now + commandExecutionReferenceFutureSkew)
  capacity := capacity

def validateReference (policy : CommandExecutionAdmissionPolicy) (issuedAt : RetryIssuedAt)
    (reference : CommandExecutionReference) (fence : Timestamp) :
    Except CommandExecutionAdmissionError Timestamp :=
  match issuedAt reference with
  | .error .notUuidV7 => .error .missingTimestamp
  | .error .outsideTimestampRange => .error .future
  | .ok issued =>
    if issued ≤ fence then .error .expired
    else if policy.latestReference < issued then .error .future
    else .ok issued

end CommandExecutionAdmissionPolicy

abbrev FinishedCommandExecutionKey := Timestamp ×ₗ CommandExecutionReference

abbrev ExpiredCommandExecutionKey := Timestamp ×ₗ CommandExecutionReference

structure CommandExecutionRecords where
  entries : Records CommandExecutionReference CommandExecution
  applying : Finset CommandExecutionReference
  finished : Finset FinishedCommandExecutionKey
  expired : Finset ExpiredCommandExecutionKey
  retryFence : Option Timestamp

namespace CommandExecutionRecords

def empty : CommandExecutionRecords := ⟨∅, ∅, ∅, ∅, none⟩

variable (issuedAt : RetryIssuedAt)

section
variable (r : CommandExecutionRecords) (execution : CommandExecution)

def insertIndex : CommandExecutionRecords :=
  match execution.state with
  | .applying _ => { r with applying := insert execution.reference r.applying }
  | .finished f => { r with
      finished := insert (toLex (f.finishedAt, execution.reference)) r.finished }
  | .expired =>
    match issuedAt execution.reference with
    | .ok issued => { r with expired := insert (toLex (issued, execution.reference)) r.expired }
    | .error _ => r

def removeIndex : CommandExecutionRecords :=
  match execution.state with
  | .applying _ => { r with applying := r.applying.erase execution.reference }
  | .finished f => { r with
      finished := r.finished.erase (toLex (f.finishedAt, execution.reference)) }
  | .expired =>
    match issuedAt execution.reference with
    | .ok issued => { r with expired := r.expired.erase (toLex (issued, execution.reference)) }
    | .error _ => r

def restoreIndex : Except CommandExecutionReferenceTimestampError CommandExecutionRecords :=
  match execution.state, issuedAt execution.reference with
  | .expired, .error error => .error error
  | _, _ => .ok (r.insertIndex issuedAt execution)

def fromEntries (entries : Records CommandExecutionReference CommandExecution)
    (retryFence : Option Timestamp) :
    Except CommandExecutionReferenceTimestampError CommandExecutionRecords :=
  (entries.ascending.map Prod.snd).foldlM (restoreIndex issuedAt) ⟨entries, ∅, ∅, ∅, retryFence⟩

def effectiveRetryFence (fence : Timestamp) : Timestamp :=
  match r.retryFence with
  | some current => max current fence
  | none => fence

def validateAdmission (reference : CommandExecutionReference)
    (policy : CommandExecutionAdmissionPolicy) : Except CommandExecutionAdmissionError Unit :=
  match policy.validateReference issuedAt reference (r.effectiveRetryFence policy.retryFence) with
  | .error error => .error error
  | .ok _ =>
    if policy.capacity ≤ r.entries.keys.card then .error (.capacity policy.capacity) else .ok ()

def insertAdmitted (policy : CommandExecutionAdmissionPolicy) : CommandExecutionRecords :=
  { r with
    retryFence := some (r.effectiveRetryFence policy.retryFence)
    applying := insert execution.reference r.applying
    entries := r.entries.insert execution.reference execution }

def replace : CommandExecutionRecords :=
  match r.entries.lookup execution.reference with
  | none => r
  | some preceding =>
    let r := (r.removeIndex issuedAt preceding).insertIndex issuedAt execution
    { r with entries := r.entries.insert execution.reference execution }

def dropExpired (key : ExpiredCommandExecutionKey) : CommandExecutionRecords :=
  { r with expired := r.expired.erase key, entries := r.entries.erase (ofLex key).2 }

def reclaimFinished (fence : Timestamp) (r : CommandExecutionRecords)
    (key : FinishedCommandExecutionKey) : CommandExecutionRecords :=
  let reference := (ofLex key).2
  let r := { r with finished := r.finished.erase key }
  match r.entries.lookup reference, issuedAt reference with
  | some execution, .ok issued =>
    if issued ≤ fence then { r with entries := r.entries.erase reference }
    else match execution.intoExpired with
      | some expired => { r with
          expired := insert (toLex (issued, reference)) r.expired
          entries := r.entries.insert reference expired }
      | none => r
  | _, _ => r

def reclaim (finishedBefore retryFence : Timestamp) : CommandExecutionRecords :=
  let fence := r.effectiveRetryFence retryFence
  let r := { r with retryFence := some fence }
  let expired := (r.expired.sort (· ≤ ·)).takeWhile fun key => (ofLex key).1 ≤ fence
  let r := expired.foldl dropExpired r
  let finished := (r.finished.sort (· ≤ ·)).takeWhile fun key => (ofLex key).1 ≤ finishedBefore
  finished.foldl (reclaimFinished issuedAt fence) r

def applyingTransactionTargets : Finset TransactionId :=
  r.applying.biUnion fun reference =>
    match (r.entries.lookup reference).bind CommandExecution.transactionRequestTarget with
    | some target => {target.id}
    | none => ∅

end

end CommandExecutionRecords

end Nervix.Consensus
