import Nervix.Theory.Checks
import Nervix.Consensus.StateMachine

/-!
# Applying a command

What each command does to the replicated state, in the order the source checks and writes. The
entry's log position is already recorded in the state when its command is applied.
-/

namespace Nervix.Consensus

open Except (ensure)

namespace StateMachineData

section
variable (s : StateMachineData) (domain : DomainName)

def admitDomainMutation
    (owner : DomainMutationOwner) : Except DomainMutationError DomainMutationLease :=
  let admission := DomainMutationAdmission.decide (s.domainMutations.lookup domain) owner s.revision
  match admission.intoAdmitted with
  | some lease => .ok lease
  | none => .error (.conflict domain admission.lease.owner)

def admitDomainMutations (s : StateMachineData) (owner : DomainMutationOwner) :
    List DomainName → Except DomainMutationError (List (DomainName × DomainMutationLease))
  | [] => .ok []
  | domain :: domains => do
    let lease ← s.admitDomainMutation domain owner
    let admitted ← s.admitDomainMutations owner domains
    return (domain, lease) :: admitted

def storeDomainMutations (admitted : List (DomainName × DomainMutationLease)) : StateMachineData :=
  { s with domainMutations := admitted.foldl (fun m e => m.insert e.1 e.2) s.domainMutations }

def validateDomainMutation
    (requested : Option DomainMutationLease) : Except DomainMutationError Unit :=
  match s.domainMutations.lookup domain, requested with
  | none, none => .ok ()
  | some current, some requested =>
    if current = requested then .ok () else .error (.conflict domain current.owner)
  | some current, none => .error (.conflict domain current.owner)
  | none, some requested => .error (.fenceLost domain requested.owner)

def releaseDomainMutation : StateMachineData :=
  { s with domainMutations := s.domainMutations.erase domain }

end

end StateMachineData

def DomainMutationError.toConflict (error : DomainMutationError) : ConsensusConflict :=
  .reason error.toText

inductive DomainPlanningInputConflict
  | domain (domain : DomainName)
  | resources (domain : DomainName)
  | schedule (domain : DomainName)
  | membership (domain : DomainName)
  | voters (domain : DomainName)
  | eligibility (domain : DomainName)
  | parameters (domain : DomainName)
  deriving DecidableEq, Repr

def DomainPlanningInputConflict.toText : DomainPlanningInputConflict → String
  | .domain name => s!"domain '{name}' configuration changed"
  | .resources name => s!"domain '{name}' resource inputs changed"
  | .schedule name => s!"domain '{name}' schedule changed"
  | .membership name => s!"domain '{name}' membership changed"
  | .voters name => s!"domain '{name}' voter set changed"
  | .eligibility name => s!"domain '{name}' node eligibility changed"
  | .parameters name => s!"domain '{name}' cluster parameters changed"

def StateMachineData.validateDomainPlanningInputs (s : StateMachineData)
    (expected : DomainPlanningInputs) : Except DomainPlanningInputConflict Unit := do
  let current := s.domainPlanningInputs expected.domain
  let domain := expected.domain
  ensure (current.state = expected.state) (.domain domain)
  ensure (current.resources = expected.resources) (.resources domain)
  ensure (current.schedule = expected.schedule) (.schedule domain)
  ensure (current.topology.members = expected.topology.members) (.membership domain)
  ensure (current.topology.voters = expected.topology.voters) (.voters domain)
  ensure (current.topology.cordoned = expected.topology.cordoned) (.eligibility domain)
  ensure (current.parameters = expected.parameters) (.parameters domain)

def DomainPlanningInputConflict.toConflict (conflict : DomainPlanningInputConflict) :
    ConsensusConflict :=
  .reason conflict.toText

namespace StateMachineData

section
variable (s : StateMachineData) (domain : DomainName) (domainId : DomainName)

def replaceDomainSchedule (schedule : Option DomainSchedule) : StateMachineData :=
  match schedule with
  | some schedule => { s with schedule := s.schedule.insert domain schedule }
  | none => { s with schedule := s.schedule.erase domain }

def putDomain (domain : DomainState) : StateMachineData :=
  { s with domains := s.domains.insert domain.id domain }

def clockAuthority : DomainClockAuthority :=
  (s.domainClockAuthorities.lookup domain).getD .initial

def advanceDomainClockAuthority (owner : Option ClusterNodeIdentity) : StateMachineData :=
  { s with domainClockAuthorities :=
      s.domainClockAuthorities.insert domain ((s.clockAuthority domain).reassign owner) }

def moveClockAuthority (domain : DomainState) (domainId : DomainName)
    (owner : Option ClusterNodeIdentity) : StateMachineData :=
  if domain.config.pace.isPaced then s.advanceDomainClockAuthority domainId owner
  else { s with domainClockAuthorities := s.domainClockAuthorities.erase domainId }

def commitDomainStart (start : DomainStartPoint)
    (clock : Option DomainClockState) (authority : Option ClusterNodeIdentity) :
    StateMachineData × Bool :=
  match s.domains.lookup domainId with
  | none => (s, false)
  | some domain =>
    let domain := { domain with
      status := .running, startVersion := domain.startVersion + 1, lastStart := start,
      clock := clock }
    let s := { s with domains := s.domains.insert domainId domain }
    (s.moveClockAuthority domain domainId authority, true)

def commitDomainStop : StateMachineData × Bool :=
  match s.domains.lookup domainId with
  | none => (s, false)
  | some domain =>
    let domain := { domain with status := .stopped, clock := none }
    let s := { s with domains := s.domains.insert domainId domain }
    (s.moveClockAuthority domain domainId none, true)

def moveDomainStatus (expected next : DomainStatus) : StateMachineData × Bool :=
  match s.domains.lookup domainId with
  | none => (s, false)
  | some domain =>
    if domain.status = expected then
      ({ s with domains := s.domains.insert domainId { domain with status := next } }, true)
    else (s, false)

def reconcileDomainClockAuthority
    (expectedStartVersion : Nat) (expectedAuthority : DomainClockAuthority)
    (owner : Option ClusterNodeIdentity) : StateMachineData × Bool :=
  let eligible := (s.domains.lookup domainId).any fun domain =>
    domain.startVersion = expectedStartVersion && domain.status ≠ .stopped &&
      domain.config.pace.isPaced
  if eligible ∧ s.clockAuthority domainId = expectedAuthority ∧ expectedAuthority.owner ≠ owner then
    (s.advanceDomainClockAuthority domainId owner, true)
  else (s, false)

end

end StateMachineData

inductive RestoreStateInstallationError
  | incomplete (domain : DomainName)
  | authority (domain : DomainName)
  deriving DecidableEq, Repr

def RestoreStateInstallationError.toText : RestoreStateInstallationError → String
  | incomplete domain => s!"domain '{domain}' restore state installation is incomplete"
  | authority domain =>
    s!"the restore state installation authority for domain '{domain}' is no longer current"

namespace StateMachineData

section
variable (s : StateMachineData) (domain : DomainName)

def isStopped : Bool :=
  (s.domains.lookup domain).any fun state => state.status = .stopped

def validateRestoreStateInstallation
    (authority : RestoreStateAuthority) : Except RestoreStateInstallationError Unit :=
  ensure
    (s.domainRestoreInstallations.lookup domain = some (.installing authority) ∧
      ((s.commandExecutions.entries.lookup authority.execution).any fun execution =>
        execution.isApplying && execution.restoreExecution.isSome) = true ∧
      ((s.domainMutations.lookup domain).any fun lease =>
        lease.owner = .command authority.execution &&
          lease.recoveryFence = authority.mutationRevision) = true ∧
      s.isStopped domain = true)
    (.authority domain)

def validateRestoredDomainStart : Except RestoreStateInstallationError Unit :=
  ensure (domain ∉ s.domainRestoreInstallations) (.incomplete domain)

end

end StateMachineData

def RestoreStateInstallationError.toConflict (error : RestoreStateInstallationError) :
    ConsensusConflict :=
  .reason error.toText

namespace StateMachineData

section
variable (env : Environment) (s : StateMachineData) (inputs : DomainPlanningInputs)
  (reference : CommandExecutionReference) (owner : UserName)

def seedClusterParameters (values : Encoded) : StateMachineData × StateMachineChanges :=
  if s.parameters.isSome then (s, {})
  else ({ s with parameters := some ⟨1, values⟩ }, { scheduleChanged := true })

def clusterParameterPlanningInputs : Option ClusterParameterPlanningInputs :=
  s.parameters.map fun current => ⟨current, s.schedule, s.domains, s.resources.versions⟩

def alterClusterParameters (expected : ClusterParameterPlanningInputs) :
    Except ConsensusConflict (StateMachineData × StateMachineChanges) :=
  match s.commandExecutions.entries.lookup reference with
  | none => .error .clusterParameterExecutionMissing
  | some execution =>
    match execution.state with
    | .finished _ | .expired => .error .clusterParameterExecutionMissing
    | .applying a =>
      match a.effect with
      | .alterCluster changes applied =>
        if applied.isSome then .ok (s, {})
        else if s.clusterParameterPlanningInputs ≠ some expected then
          .error .clusterParameterInputsChanged
        else match env.changedParameters expected.current.values changes with
          | .error issue => .error (.invalidClusterParameter issue)
          | .ok values =>
            let record := ⟨expected.current.revision + 1, values⟩
            let execution := { execution with
              state := .applying { a with effect := .alterCluster changes (some record) } }
            .ok ({ s with
              commandExecutions := s.commandExecutions.replace env.issuedAt execution
              parameters := some record }, { scheduleChanged := true })
      | _ => .error .clusterParameterExecutionMissing

def admitCommandExecution (execution : CommandExecution) (mutationDomains : List DomainName)
    (policy : CommandExecutionAdmissionPolicy) :
    Except ConsensusConflict (StateMachineData × StateMachineChanges) :=
  let reference := execution.reference
  match s.commandExecutions.entries.lookup reference with
  | some existing =>
    if existing.isExpired then .error (.executionReferenceAdmissionRefused reference .expired)
    else if existing.sameRequest execution then .ok (s, {})
    else .error (.executionReferenceConflict reference
      ((execution.request.bind existing.requestConflict).getD .position))
  | none => do
    (s.commandExecutions.validateAdmission env.issuedAt reference policy).mapError
      (.executionReferenceAdmissionRefused reference)
    let admitted ← (s.admitDomainMutations (.command reference) mutationDomains).mapError
      DomainMutationError.toConflict
    let execution := admitted.foldl (fun execution e => execution.bindDomainMutation e.1 e.2)
      execution
    let s := s.storeDomainMutations admitted
    return ({ s with
      commandExecutions := s.commandExecutions.insertAdmitted execution policy }, {})

def boundExecution (requestDigest : Digest) : Except ConsensusConflict CommandExecution :=
  match s.commandExecutions.entries.lookup reference with
  | none => .error (.reason s!"command execution reference '{reference}' is unknown")
  | some execution =>
    if execution.owner = some owner ∧ execution.requestDigest = some requestDigest then
      .ok execution
    else .error (.reason (s!"command execution reference '{reference}' is bound to a different " ++
      "owner or request"))

def ensureApplying (execution : CommandExecution) (reference : CommandExecutionReference) :
    Except ConsensusConflict Unit :=
  ensure (execution.isApplying = true)
    (.reason s!"command execution reference '{reference}' is no longer applying")

def acquireCommandDomainMutation (requestDigest : Digest)
    (domain : DomainName) : Except ConsensusConflict (StateMachineData × StateMachineChanges) := do
  let execution ← s.boundExecution reference owner requestDigest
  ensureApplying execution reference
  match execution.domainMutation domain with
  | some lease =>
    (s.validateDomainMutation domain (some lease)).mapError DomainMutationError.toConflict
    return (s, {})
  | none =>
    let lease ← (s.admitDomainMutation domain (.command reference)).mapError
      DomainMutationError.toConflict
    return ({ s with
      domainMutations := s.domainMutations.insert domain lease
      commandExecutions := s.commandExecutions.replace env.issuedAt
        (execution.bindDomainMutation domain lease) }, {})

def releaseCommandDomainMutation (requestDigest : Digest)
    (domain : DomainName) : Except ConsensusConflict (StateMachineData × StateMachineChanges) := do
  let execution ← s.boundExecution reference owner requestDigest
  ensureApplying execution reference
  match execution.domainMutation domain with
  | none => return (s, {})
  | some lease =>
    (s.validateDomainMutation domain (some lease)).mapError DomainMutationError.toConflict
    let s := s.releaseDomainMutation domain
    return ({ s with
      commandExecutions := s.commandExecutions.replace env.issuedAt
        (execution.releaseDomainMutation domain) }, {})

def finishCommandExecution (requestDigest : Digest)
    (finishedAt : Timestamp) (result : CommandExecutionResult) :
    Except ConsensusConflict (StateMachineData × StateMachineChanges) := do
  let execution ← s.boundExecution reference owner requestDigest
  match execution.state with
  | .applying _ =>
    let leases := execution.domainMutations.ascending
    leases.forM fun (domain, lease) =>
      (s.validateDomainMutation domain (some lease)).mapError DomainMutationError.toConflict
    let released := leases.foldl (fun s (domain, _) => s.releaseDomainMutation domain) s
    match execution.intoFinished s.revision finishedAt result with
    | some finished => return ({ released with
        commandExecutions := s.commandExecutions.replace env.issuedAt finished }, {})
    | none => return (released, {})
  | .finished finished =>
    if finished.result = result then return (s, {})
    else .error (.reason (s!"command execution reference '{reference}' already has a different " ++
      "terminal result"))
  | .expired => .error (.reason s!"command execution reference '{reference}' has expired")

def changeSchedule (schedule : Option DomainSchedule) :
    Except ConsensusConflict (StateMachineData × StateMachineChanges) := do
  (s.validateDomainPlanningInputs inputs).mapError DomainPlanningInputConflict.toConflict
  return (s.replaceDomainSchedule inputs.domain schedule, { scheduleChanged := true })

def replaceDomainScheduleCommand
    (schedule : Option DomainSchedule) (mutation : Option DomainMutationLease) :
    Except ConsensusConflict (StateMachineData × StateMachineChanges) := do
  (s.validateDomainMutation inputs.domain mutation).mapError DomainMutationError.toConflict
  s.changeSchedule inputs schedule

def applyAutomaticDomainSchedule (leaderTerm : Nat) (fence : LeaderTenure)
    (inputs : DomainPlanningInputs) (schedule : Option DomainSchedule) :
    Except ConsensusConflict (StateMachineData × StateMachineChanges) := do
  (s.validateDomainMutation inputs.domain none).mapError DomainMutationError.toConflict
  ensure (leaderTerm = fence.term) (.reason "automatic schedule decision leader tenure changed")
  s.changeSchedule inputs schedule

def validateStartGate (domain : DomainName) (starts : Bool) : Except ConsensusConflict Unit :=
  if starts then
    (s.validateRestoredDomainStart domain).mapError RestoreStateInstallationError.toConflict
  else .ok ()

def validateDomainRecord (domain : DomainState)
    (mutation : Option DomainMutationLease) : Except ConsensusConflict Unit := do
  s.validateStartGate domain.id (domain.status ≠ .stopped)
  (s.validateDomainMutation domain.id mutation).mapError DomainMutationError.toConflict

def putDomainAndSchedule (domain : DomainState) (schedule : Option DomainSchedule)
    (mutation : Option DomainMutationLease) :
    Except ConsensusConflict (StateMachineData × StateMachineChanges) := do
  s.validateDomainRecord domain mutation
  ensure (inputs.domain = domain.id)
    (.reason "domain update does not match its captured planning inputs")
  (s.validateDomainPlanningInputs inputs).mapError DomainPlanningInputConflict.toConflict
  return ((s.putDomain domain).replaceDomainSchedule domain.id schedule,
    { domainsChanged := true, scheduleChanged := true })

def putDomainCommand (domain : DomainState) (mutation : Option DomainMutationLease) :
    Except ConsensusConflict (StateMachineData × StateMachineChanges) := do
  s.validateDomainRecord domain mutation
  return (s.putDomain domain, { domainsChanged := true })

def changeDomain (domainId : DomainName) (mutation : Option DomainMutationLease) (starts : Bool)
    (change : StateMachineData → StateMachineData × Bool) :
    Except ConsensusConflict (StateMachineData × StateMachineChanges) := do
  s.validateStartGate domainId starts
  (s.validateDomainMutation domainId mutation).mapError DomainMutationError.toConflict
  let (changed, domainsChanged) := change s
  return (changed, { domainsChanged := domainsChanged })

def changeResources (result : Except ResourceMutationError ResourceRecords) :
    Except ConsensusConflict (StateMachineData × StateMachineChanges) :=
  match result with
  | .ok resources => .ok ({ s with resources }, { resourcesChanged := true })
  | .error error => .error (.reason error.toText)

end

end StateMachineData

inductive RestoreStepConflict
  | notARestore (reference : CommandExecutionReference)
  | effectMismatch (step : RestoreStep)
  | outOfOrder (step missing : RestoreStep)
  | userExists (user : UserName)
  | domainExists (domain : DomainName)
  | catalogExists (domain : DomainName) (resource : ResourceName)
  | missingLease (domain : DomainName)
  | lease (domain : DomainName) (cause : DomainMutationError)
  | import (domain : DomainName) (resource : ResourceName) (version : Nat)
      (cause : ResourceMutationError)
  | resourcesRecorded (domain : DomainName)
  | installation (domain : DomainName) (cause : Option RestoreStateInstallationError)
  deriving DecidableEq, Repr

def RestoreStepConflict.toText : RestoreStepConflict → String
  | notARestore reference => s!"command execution '{reference}' is not an applying restore"
  | effectMismatch step =>
    let step := step.toText
    s!"the restore step to {step} carries the effect of another step"
  | outOfOrder step missing =>
    let step := step.toText
    let missing := missing.toText
    s!"the restore step to {step} cannot apply before the step to {missing}"
  | userExists user => s!"user '{user}' already exists"
  | domainExists domain => s!"domain '{domain}' already exists"
  | catalogExists domain resource =>
    s!"resource '{resource}' is already declared in domain '{domain}'"
  | missingLease domain => s!"the restore holds no mutation lease for domain '{domain}'"
  | lease domain cause =>
    let cause := cause.toText
    s!"the restore's mutation lease for domain '{domain}' is not authoritative: {cause}"
  | .import domain resource version cause =>
    let cause := cause.toText
    s!"version {version} of resource '{resource}' in domain '{domain}' cannot be imported: {cause}"
  | resourcesRecorded domain =>
    s!"the restore already recorded every resource version of domain '{domain}'"
  | installation domain cause =>
    let text :=
      s!"the restore state installation authority for domain '{domain}' is no longer current"
    match cause with
    | none => text
    | some cause =>
      let cause := cause.toText
      s!"{text}: {cause}"

namespace StateMachineData

section
variable (env : Environment) (s : StateMachineData) (reference : CommandExecutionReference)
  (domain : DomainName) (id : TransactionId)

def applyingRestore : Except RestoreStepConflict RestoreExecution :=
  match (s.commandExecutions.entries.lookup reference).bind CommandExecution.restoreExecution with
  | some restore => .ok restore
  | none => .error (.notARestore reference)

def importUsersFrom (policy : ExistingUserPolicy) : List UserCredentials → RestoredUsers →
    Records UserName UserCredentials →
    Records UserName UserCredentials × Except RestoreStepConflict RestoredUsers
  | [], restored, users => (users, .ok restored)
  | user :: rest, restored, users =>
    if user.name ∈ users then
      match policy with
      | .skip => importUsersFrom policy rest { restored with skipped := restored.skipped + 1 } users
      | .replace => importUsersFrom policy rest { restored with replaced := restored.replaced + 1 }
          (users.insert user.name user)
      | .fail => (users, .error (.userExists user.name))
    else importUsersFrom policy rest { restored with created := restored.created + 1 }
      (users.insert user.name user)

def importUsers (users : List UserCredentials) (policy : ExistingUserPolicy) :
    StateMachineData × Except RestoreStepConflict RestoredUsers :=
  match if policy = .fail then users.find? fun user => user.name ∈ s.users else none with
  | some user => (s, .error (.userExists user.name))
  | none =>
    let (users, result) := importUsersFrom policy users ⟨0, 0, 0⟩ s.users
    ({ s with users }, result)

def createDomain (domainState : DomainState) (resources : List RestoredResource) :
    Except RestoreStepConflict StateMachineData := do
  let domain := domainState.id
  match (s.commandExecutions.entries.lookup reference).bind (·.domainMutation domain) with
  | none => .error (.missingLease domain)
  | some lease =>
    (s.validateDomainMutation domain (some lease)).mapError (.lease domain)
    ensure (domain ∉ s.domains) (.domainExists domain)
    match resources.find? fun declared => s.resources.declares domain declared.resource with
    | some declared => .error (.catalogExists domain declared.resource)
    | none => return { s with
        domains := s.domains.insert domain domainState
        domainRestoreInstallations :=
          s.domainRestoreInstallations.insert domain (.pending reference)
        resources := resources.foldl
          (fun r declared => r.restoreCatalog domain declared.resource declared.nextVersion)
          s.resources }

def installState (authority : RestoreStateAuthority) (clock : Option DomainClockState) :
    Except RestoreStepConflict (StateMachineData × Bool) := do
  ensure (authority.execution = reference) (.installation domain none)
  (s.validateRestoreStateInstallation domain authority).mapError
    fun cause => .installation domain (some cause)
  let restore ← s.applyingRestore reference
  match s.domains.lookup domain with
  | none => .error (.installation domain none)
  | some restored =>
    let installed := { s with
      domainRestoreInstallations := s.domainRestoreInstallations.erase domain }
    match restore.restore.lifecycle with
    | .stopped =>
      ensure (clock = none) (.installation domain none)
      return (installed, false)
    | .resume =>
      ensure (restored.config.pace.isPaced = clock.isSome) (.installation domain none)
      return ({ installed with
        domains := s.domains.insert domain { restored with status := .running, clock := clock } },
        true)

def recordRestoreStep (step : RestoreStep) (users : Option RestoredUsers) :
    Except RestoreStepConflict StateMachineData :=
  match s.commandExecutions.entries.lookup reference with
  | none => .error (.notARestore reference)
  | some execution => .ok { s with
      commandExecutions := s.commandExecutions.replace env.issuedAt
        (execution.recordRestoreStep step users) }

def applyRestoreStepEffect : (step : RestoreStep) → RestoreStepEffect →
    StateMachineData × Except RestoreStepConflict (Option RestoredUsers × StateMachineChanges)
  | .users, .users users policy =>
    let (s, result) := s.importUsers users policy
    (s, result.map fun restored => (some restored, {}))
  | .createDomain domain, .domain domainState resources =>
    if domainState.id = domain then
      match s.createDomain reference domainState resources with
      | .ok created => (created, .ok (none,
          { domainsChanged := true, resourcesChanged := !resources.isEmpty }))
      | .error conflict => (s, .error conflict)
    else (s, .error (.effectMismatch (.createDomain domain)))
  | .importResources _, .completion => (s, .ok (none, {}))
  | .applyModels domain, .installedState authority clock =>
    match s.installState reference domain authority clock with
    | .ok (installed, domainsChanged) =>
      (installed, .ok (none, { domainsChanged := domainsChanged }))
    | .error conflict => (s, .error conflict)
  | step, _ => (s, .error (.effectMismatch step))

def applyRestoreStep (step : RestoreStep) (effect : RestoreStepEffect) :
    StateMachineData × Except RestoreStepConflict StateMachineChanges :=
  match s.applyingRestore reference with
  | .error conflict => (s, .error conflict)
  | .ok execution =>
    if execution.isRecorded step then (s, .ok {})
    else match execution.missingPrerequisite step with
      | some missing => (s, .error (.outOfOrder step missing))
      | none =>
        match s.applyRestoreStepEffect reference step effect with
        | (changed, .error conflict) => (changed, .error conflict)
        | (changed, .ok (users, changes)) =>
          match changed.recordRestoreStep env reference step users with
          | .error conflict => (changed, .error conflict)
          | .ok recorded => (recorded, .ok changes)

def importResourceVersion
    (key : ResourceUploadKey) (resource : ResourceVersion) (replica : ResourceNodeStatus) :
    Except RestoreStepConflict StateMachineData := do
  let execution ← s.applyingRestore reference
  let created := RestoreStep.createDomain key.domain
  let imported := RestoreStep.importResources key.domain
  ensure (execution.isRecorded created = true) (.outOfOrder imported created)
  ensure (¬(execution.isRecorded imported = true ∧ key ∉ s.resources.uploads))
    (.resourcesRecorded key.domain)
  match s.resources.importVersion key resource replica with
  | .ok resources => return { s with resources }
  | .error cause => .error (.import key.domain key.identifier resource.id.version cause)

def beginRestoreStateInstallation (leaderTerm : Nat)
    (reference : CommandExecutionReference) (domain : DomainName) (tenure : LeaderTenure) :
    Except ConsensusConflict (StateMachineData × StateMachineChanges) := do
  ensure (leaderTerm = tenure.term) (.reason "restore installer leader tenure changed")
  match s.commandExecutions.entries.lookup reference with
  | none => .error (.reason "restore installation execution is absent")
  | some execution =>
    match execution.restoreExecution with
    | none => .error (.reason "restore installation execution is not applying")
    | some restore =>
      ensure (restore.isRecorded (.importResources domain) = true ∧
          restore.isRecorded (.applyModels domain) = false)
        (.reason "restore installation is out of order")
      match execution.domainMutation domain with
      | none => .error (.reason "restore installation mutation lease is absent")
      | some lease =>
        (s.validateDomainMutation domain (some lease)).mapError DomainMutationError.toConflict
        ensure (s.isStopped domain = true) (.reason "restore installation domain is not stopped")
        ensure ((s.domainRestoreInstallations.lookup domain).map (·.execution) = some reference)
          (.reason "restore installation does not own the pending domain")
        return ({ s with
          domainRestoreInstallations := s.domainRestoreInstallations.insert domain (.installing {
            leader := tenure.leaderId
            term := tenure.term
            execution := reference
            mutationRevision := lease.recoveryFence
            generation := s.revision }) }, {})

def transaction (s : StateMachineData) (id : TransactionId) :
    Except TransactionMutationError ReplicatedTransaction :=
  match s.transactions.lookup id with
  | some transaction => .ok transaction
  | none => .error (.unknown id)

def storeTransaction
    (transaction : ReplicatedTransaction) (changes : StateMachineChanges) : Applied :=
  ⟨{ s with transactions := s.transactions.insert id transaction }, .transaction (.ok transaction),
    { changes with transactionsChanged := true }⟩

def answerTransaction (transaction : ReplicatedTransaction) : Applied :=
  ⟨s, .transaction (.ok transaction), {}⟩

def retainLatestPreview (transaction : ReplicatedTransaction) : StateMachineData :=
  match transaction.latestPreview with
  | some preview => { s with
      transactionReports := s.transactionReports.retainRevision preview }
  | none => s

def openTransaction (transaction : ReplicatedTransaction)
    (maxOpenTransactions : Nat) : Except TransactionMutationError Applied := do
  ensure (transaction.id ∉ s.transactions) (.alreadyExists transaction.id)
  ensure (s.transactions.count (·.state.isLive) < maxOpenTransactions)
    (.openLimit maxOpenTransactions)
  return s.storeTransaction transaction.id transaction {}

def queueTransactionStatement
    (owner : UserName) (domain : DomainName) (activity : TransactionActivity)
    (statement : TransactionStatement) (report : TransactionReportArchive)
    (limits : TransactionQueueLimits) : Except TransactionMutationError Applied := do
  let transaction ← s.transaction id
  match ← transaction.queue env.sourceDigest owner domain activity s.revision statement limits with
  | (.expired, expired) => return (s.retainLatestPreview expired).storeTransaction id expired {}
  | (.existing, existing) => return s.answerTransaction existing
  | (.added, added) =>
    let identity := report.identity
    ensure (identity.transactionId = id ∧ report.domain = domain ∧
      identity.position = added.statements.length) (.reportMismatch id)
    let reports ← (s.transactionReports.insert env.topologyDigest report).mapError
      fun _ => .reportConflict id
    return { s with transactionReports := reports }.storeTransaction id
      (added.setLatestPreview identity) {}

def mutateTransaction
    (mutation : ReplicatedTransaction → Except TransactionMutationError ReplicatedTransaction) :
    Except TransactionMutationError Applied := do
  let transaction ← s.transaction id
  let mutated ← mutation transaction
  return s.storeTransaction id mutated {}

def endTransaction
    (mutation : ReplicatedTransaction → Except TransactionMutationError ReplicatedTransaction) :
    Except TransactionMutationError Applied := do
  let transaction ← s.transaction id
  let mutated ← mutation transaction
  return (s.retainLatestPreview mutated).storeTransaction id mutated {}

def refuseStalePreview (transaction : ReplicatedTransaction) (expected : TransactionPreviewIdentity)
    (report : TransactionReportArchive) : Except TransactionMutationError Applied := do
  let current := report.identity
  let reports ← (s.transactionReports.insert env.topologyDigest report).mapError
    fun _ => .reportConflict id
  return ⟨{ s with
      transactionReports := reports.retainRevision current
      transactions := s.transactions.insert id (transaction.setLatestPreview current) },
    .transaction (.error (.previewStale expected current)), { transactionsChanged := true }⟩

def commitLease (transaction : ReplicatedTransaction) :
    Except TransactionMutationError (Option DomainMutationLease) :=
  if transaction.requiresDomainMutation then
    let admission := DomainMutationAdmission.decide
      (s.domainMutations.lookup transaction.domain) transaction.mutationOwner s.revision
    match admission.intoAdmitted with
    | some lease => .ok (some lease)
    | none => .error (.domainMutationConflict transaction.id transaction.domain
        admission.lease.owner)
  else .ok none

def isCommitPlanOf (transaction : ReplicatedTransaction)
    (report : TransactionReportArchive) (plan : TransactionCommitAdmissionPlan) : Bool :=
  let preview := report.identity
  preview.transactionId = id && report.domain = transaction.domain &&
    preview.position = transaction.statements.length && plan.decision.preview = preview &&
    plan.eligibility.domain = transaction.domain && report.isComplete &&
    report.matchesCommitPlan env.topologyDigest plan.decision &&
    plan.decision.steps.length = plan.inputs.length && plan.isConsistent

def admitCommit
    (transaction : ReplicatedTransaction) (owner : UserName) (activity : TransactionActivity)
    (report : TransactionReportArchive) (plan : TransactionCommitAdmissionPlan) :
    Except TransactionMutationError Applied := do
  let lease ← s.commitLease transaction
  let started ← transaction.startCommit env.sourceDigest owner activity s.revision lease
    ⟨report.identity, plan.decision.steps.length⟩
  let reports ← (s.transactionReports.insert env.topologyDigest report).mapError
    fun _ => .reportConflict id
  let plans ← (s.transactionCommitPlans.insert plan).mapError fun _ => .reportConflict id
  return { s with
    transactionReports := reports.retainRevision report.identity
    transactionCommitPlans := plans
    domainMutations :=
      match lease with
      | some lease => s.domainMutations.insert transaction.domain lease
      | none => s.domainMutations }.storeTransaction id started {}

def validatePlanInputs : Option DomainPlanningInputs → Except TransactionMutationError Unit
  | some inputs => (s.validateDomainPlanningInputs inputs).mapError
      fun reason => .planningInputsChanged id reason.toText
  | none => .ok ()

def startTransactionCommit (owner : UserName) (activity : TransactionActivity)
    (expectedPreview : TransactionPreviewIdentity) (report : TransactionReportArchive)
    (plan : TransactionCommitAdmissionPlan) : Except TransactionMutationError Applied := do
  let transaction ← s.transaction id
  transaction.ensureOwner owner
  match transaction.expire env.sourceDigest activity.lastActivityAt s.revision with
  | some expired => return (s.retainLatestPreview expired).storeTransaction id expired {}
  | none =>
    let currentPreview := report.identity
    ensure (isCommitPlanOf env id transaction report plan = true) (.invalidCommitPlan id)
    if transaction.hasCommitAdmission ⟨currentPreview, plan.decision.steps.length⟩ then
      ensure (expectedPreview = currentPreview ∧
          s.transactionReports.matchesAdmittedArchive report = true ∧
          s.transactionCommitPlans.matchesAdmission plan = true)
        (.invalidCommitPlan id)
      return s.answerTransaction transaction
    else
      s.validatePlanInputs id plan.inputs.head?
      if expectedPreview ≠ currentPreview then
        s.refuseStalePreview env id transaction expectedPreview report
      else s.admitCommit env id transaction owner activity report plan

def failCommit (transaction : ReplicatedTransaction)
    (failure : TransactionCommitAdmissionFailure) (failingStep : Nat) :
    Except TransactionMutationError Applied := do
  let current := failure.report.identity
  match ← transaction.failCommitAdmission env.sourceDigest failure.owner failure.activity s.revision
      current failingStep failure.error with
  | (.existing, existing) => return s.answerTransaction existing
  | (.expired, expired) =>
    return (s.retainLatestPreview expired).storeTransaction failure.id expired {}
  | (.failed, failed) =>
    let reports ← (s.transactionReports.insert env.topologyDigest failure.report).mapError
      fun _ => .reportConflict failure.id
    let reports ← (reports.failExecutionStep env.topologyDigest current failure.operation
      failure.error).mapError fun _ => .reportConflict failure.id
    return { s with
      transactionReports := reports.retainRevision current }.storeTransaction failure.id failed {}

def failTransactionCommitAdmission
    (failure : TransactionCommitAdmissionFailure) : Except TransactionMutationError Applied := do
  let transaction ← s.transaction failure.id
  transaction.ensureOwner failure.owner
  match transaction.expire env.sourceDigest failure.activity.lastActivityAt s.revision with
  | some expired => return (s.retainLatestPreview expired).storeTransaction failure.id expired {}
  | none =>
    let current := failure.report.identity
    match failure.report.incompleteFailureStep failure.operation with
    | none => .error (.invalidCommitFailure failure.id)
    | some failingStep =>
      ensure (current.transactionId = failure.id ∧ failure.report.domain = transaction.domain ∧
          failure.inputs.domain = transaction.domain ∧
          current.position = transaction.statementCount)
        (.invalidCommitFailure failure.id)
      if transaction.matchesCommitAdmissionFailure current failingStep failure.error then
        ensure (s.transactionReports.matchesAdmittedArchive failure.report = true)
          (.invalidCommitFailure failure.id)
        return s.answerTransaction transaction
      else
        s.validatePlanInputs failure.id (some failure.inputs)
        if failure.expectedPreview ≠ current then
          s.refuseStalePreview env failure.id transaction failure.expectedPreview failure.report
        else s.failCommit env transaction failure failingStep

/-! ### Steps of a commit -/

def validateTransactionDomainMutation
    (transaction : ReplicatedTransaction) : Except TransactionMutationError Unit :=
  let lost := TransactionMutationError.domainMutationFenceLost transaction.id transaction.domain
  match transaction.domainMutation with
  | none => ensure (transaction.requiresDomainMutation = false) lost
  | some lease => ensure (s.domainMutations.lookup transaction.domain = some lease) lost

def completionMatches (transaction : ReplicatedTransaction) (firstStatement nextStatement : Nat)
    (result : TransactionStepResult) : Option TransactionOutcome → Bool
  | none => result.result.success && nextStatement < transaction.statements.length
  | some .committed => result.result.success && nextStatement = transaction.statements.length
  | some (.failed failingStep error) | some (.planningInputsChanged failingStep error) =>
    !result.result.success && failingStep = firstStatement && error = result.result.message
  | some .reverted | some .expired => false

def validateTransactionStepContract (transaction : ReplicatedTransaction)
    (firstStatement nextStatement : Nat) (result : TransactionStepResult)
    (completion : Option TransactionOutcome) :
    Except TransactionMutationError (List TransactionStatement) :=
  if firstStatement < nextStatement ∧ nextStatement ≤ transaction.statements.length ∧
      completionMatches transaction firstStatement nextStatement result completion = true then
    .ok ((transaction.statements.drop firstStatement).take (nextStatement - firstStatement))
  else .error (.effectMismatch transaction.id)

def soleStatement : List TransactionStatement → Option Statement
  | [statement] => some statement.request.statement
  | _ => none

def validateTransactionStepWithoutEffect (transaction : ReplicatedTransaction)
    (firstStatement nextStatement : Nat) (result : TransactionStepResult)
    (completion : Option TransactionOutcome) : Except TransactionMutationError Unit := do
  let statements ← validateTransactionStepContract transaction firstStatement nextStatement result
    completion
  if result.result.success = false ∨
      statements.all (fun statement => statement.request.statement.isModelMutation) = true then
    return ()
  else
    match soleStatement statements with
    | some (.createResource create) =>
      ensure (create.ifNotExists = true ∧ result.result.alreadyExisted = true)
        (.effectMismatch transaction.id)
    | some (.alterDomain _) => return ()
    | _ => .error (.effectMismatch transaction.id)

def effectMatches (effect : TransactionStepEffect) (domain : DomainName)
    (statements : List TransactionStatement) : Bool :=
  domain = effect.inputs.domain &&
    match effect with
    | .replaceDomainSchedule _ _ =>
      statements.all fun statement => statement.request.statement.isModelMutation
    | .putDomainAndSchedule inputs next _ =>
      domain = next.id && inputs.state.any (fun previous => previous.id = next.id) &&
        match soleStatement statements with
        | some (.alterDomain _) => true
        | _ => false
    | .startDomain inputs _ _ _ =>
      inputs.state.any (fun state => state.status = .stopped) &&
        match soleStatement statements with
        | some (.startDomain _) => true
        | _ => false
    | .stopDomain inputs =>
      inputs.state.any (fun state => state.status ≠ .stopped) &&
        match soleStatement statements with
        | some .stopDomain => true
        | _ => false
    | .createResourceCatalog _ identifier =>
      match soleStatement statements with
      | some (.createResource create) => create.identifier = identifier
      | _ => false
    | .resetWasmState _ reset request _ =>
      statements.all (fun statement => statement.request.requestReference = request) &&
        soleStatement statements = some (.resetWasmState reset)

def validateStepStart : TransactionStepEffect → Except TransactionMutationError Unit
  | .startDomain inputs _ _ _ => (s.validateRestoredDomainStart inputs.domain).mapError
      fun reason => .stepConflict id reason.toText
  | _ => .ok ()

def validateTransactionStepEffect (transaction : ReplicatedTransaction)
    (firstStatement nextStatement : Nat) (result : TransactionStepResult)
    (effect : TransactionStepEffect) (completion : Option TransactionOutcome) :
    Except TransactionMutationError Unit := do
  let statements ← validateTransactionStepContract transaction firstStatement nextStatement result
    completion
  ensure (result.result.success = true) (.effectMismatch transaction.id)
  ensure (effectMatches effect transaction.domain statements = true)
    (.effectMismatch transaction.id)
  s.validateStepStart transaction.id effect
  (s.validateDomainPlanningInputs effect.inputs).mapError
    fun reason => .stepConflict transaction.id reason.toText

def applyTransactionStepEffect : TransactionStepEffect → StateMachineData × StateMachineChanges
  | .replaceDomainSchedule inputs schedule =>
    (s.replaceDomainSchedule inputs.domain schedule, { scheduleChanged := true })
  | .putDomainAndSchedule _ next schedule =>
    ((s.putDomain next).replaceDomainSchedule next.id schedule,
      { domainsChanged := true, scheduleChanged := true })
  | .startDomain inputs start clock authority =>
    let (s, domainsChanged) := s.commitDomainStart inputs.domain start clock authority
    (s, { domainsChanged := domainsChanged })
  | .stopDomain inputs =>
    let (s, domainsChanged) := s.commitDomainStop inputs.domain
    (s, { domainsChanged := domainsChanged })
  | .createResourceCatalog _ identifier =>
    ({ s with resources := s.resources.ensureCatalog domain identifier },
      { resourcesChanged := true })
  | .resetWasmState _ _ _ _ => (s, {})

def isRequestedApplication (current requested : TransactionApplyingStep) : Bool :=
  current.nextStatement = requested.nextStatement && current.result = requested.result &&
    current.effect = requested.effect && current.completion = requested.completion

def validateStep (transaction : ReplicatedTransaction)
    (firstStatement : Nat) (requested : TransactionApplyingStep) :
    Except TransactionMutationError Unit :=
  match requested.effect with
  | some effect => s.validateTransactionStepEffect transaction firstStatement
      requested.nextStatement requested.result effect requested.completion
  | none => validateTransactionStepWithoutEffect transaction firstStatement
      requested.nextStatement requested.result requested.completion

def applyStep : Option TransactionStepEffect → StateMachineData × StateMachineChanges
  | some effect => s.applyTransactionStepEffect domain effect
  | none => (s, {})

def beginStep (transaction : ReplicatedTransaction) (progress : TransactionCommitProgress)
    (expectedNextStatement : Nat) (observedAt : Timestamp) (requested : TransactionApplyingStep) :
    Except TransactionMutationError Applied := do
  let result := requested.result
  let admitted ← (s.transactionCommitPlans.step id progress.results.length).mapError
    fun _ => .invalidCommitPlan id
  ensure (admitted.decision.impact.operations = result.impact.operations ∧
      admitted.decision.impact.planned = result.impact.planned ∧
      admitted.matchesEffect result.result.success requested.effect = true)
    (.invalidStepResult id)
  s.validateStep transaction expectedNextStatement requested
  let begun ← transaction.beginApplication expectedNextStatement observedAt requested
  match begun.latestPreview with
  | none => .error (.reportMismatch id)
  | some preview =>
    let reports ← (s.transactionReports.replaceExecutionStep env.topologyDigest preview
      result.impact).mapError fun _ => .reportConflict id
    let (s, changes) := { s with transactionReports := reports }.applyStep transaction.domain
      requested.effect
    return s.storeTransaction id begun changes

def advanceTransactionCommit (expectedNextStatement nextStatement : Nat) (observedAt : Timestamp)
    (result : TransactionStepResult) (effect : Option TransactionStepEffect)
    (completion : Option TransactionOutcome) : Except TransactionMutationError Applied := do
  let transaction ← s.transaction id
  s.validateTransactionDomainMutation transaction
  let requested : TransactionApplyingStep := ⟨s.revision, nextStatement, result, effect, completion⟩
  match transaction.state with
  | .open _ | .finished _ => .error transaction.notCommittingError
  | .committing progress =>
    if progress.applying.any fun current => isRequestedApplication current requested then
      return s.answerTransaction transaction
    else s.beginStep env id transaction progress expectedNextStatement observedAt requested

def transactionScheduleRollback (transaction : ReplicatedTransaction)
    (inputs : DomainPlanningInputs) :
    Except TransactionMutationError (Option DomainSchedule) :=
  match transaction.state with
  | .open _ | .finished _ => .error transaction.notCommittingError
  | .committing progress =>
    match progress.applying with
    | none => .error (.noApplicationInProgress transaction.id progress.nextStatement)
    | some applying =>
      match applying.effect with
      | some (.replaceDomainSchedule stepInputs _) => do
        ensure (inputs.domain = transaction.domain) (.effectMismatch transaction.id)
        (s.validateDomainPlanningInputs inputs).mapError
          fun reason => .stepConflict transaction.id reason.toText
        return stepInputs.schedule
      | _ => .error (.effectMismatch transaction.id)

def restoredSchedule (transaction : ReplicatedTransaction) :
    TransactionApplicationOutcome → Except TransactionMutationError (Option (Option DomainSchedule))
  | .rolledBack _ inputs => (s.transactionScheduleRollback transaction inputs).map some
  | .applied | .failed _ => .ok none

def putBackSchedule : Option (Option DomainSchedule) → StateMachineData
  | some schedule => s.replaceDomainSchedule domain schedule
  | none => s

def releaseFinished (transaction : ReplicatedTransaction)
    (lease : Option DomainMutationLease) (preview : TransactionPreviewIdentity) :
    StateMachineData :=
  match transaction.state with
  | .open _ | .committing _ => s
  | .finished _ => { s with
      domainMutations :=
        if lease.any (·.owner.isTransaction) then s.domainMutations.erase transaction.domain
        else s.domainMutations
      transactionReports := s.transactionReports.retainRevision preview }

def completeTransactionApplication
    (expectedNextStatement : Nat) (observedAt : Timestamp) (actual : ActualExecutionStepImpact)
    (outcome : TransactionApplicationOutcome) : Except TransactionMutationError Applied := do
  let transaction ← s.transaction id
  s.validateTransactionDomainMutation transaction
  let restored ← s.restoredSchedule transaction outcome
  let completed ← transaction.completeApplication env.sourceDigest expectedNextStatement observedAt
    s.revision actual outcome.error
  match completed.latestPreview, completed.commitResults.getLast? with
  | some preview, some result =>
    let reports ← (s.transactionReports.replaceExecutionStep env.topologyDigest preview
      result.impact).mapError fun _ => .reportConflict id
    let s := { s with transactionReports := reports }.putBackSchedule transaction.domain restored
    return (s.releaseFinished completed transaction.domainMutation preview).storeTransaction id
      completed { scheduleChanged := restored.isSome }
  | _, _ => .error (.reportMismatch id)

def expireTransaction (observedAt : Timestamp) : Except TransactionMutationError Applied := do
  let transaction ← s.transaction id
  match transaction.expire env.sourceDigest observedAt s.revision with
  | some expired => return (s.retainLatestPreview expired).storeTransaction id expired {}
  | none => return s.answerTransaction transaction

def removeFinishedTransactions (finishedBefore : Timestamp) :
    StateMachineData × StateMachineChanges :=
  let removed := s.finishedTransactionRemovals finishedBefore
  ({ s with
    transactions := removed.foldl (fun m id => m.erase id) s.transactions
    transactionCommitPlans := removed.foldl (fun plans id => plans.remove id)
      s.transactionCommitPlans
    transactionReports := s.transactionReports.removeTransactions removed },
    { transactionsChanged := !removed.isEmpty })

def setNodeCordoned (nodeId : ClusterNodeName) (cordoned : Bool) : StateMachineData :=
  { s with cordonedNodeIds :=
      if cordoned then insert nodeId s.cordonedNodeIds else s.cordonedNodeIds.erase nodeId }

def fenceNodeAdmission (identity : ClusterNodeIdentity) : StateMachineData :=
  if (s.nodeAdmissionFences.lookup identity.nodeId).all (· < identity.incarnation) then
    { s with nodeAdmissionFences :=
        s.nodeAdmissionFences.insert identity.nodeId identity.incarnation }
  else s

def createUser (user : UserCredentials) : StateMachineData :=
  if user.name ∈ s.users then s else { s with users := s.users.insert user.name user }

end

end StateMachineData

def Applied.ofRestore : StateMachineData × Except RestoreStepConflict StateMachineChanges → Applied
  | (state, .ok changes) => ⟨state, .applied, changes⟩
  | (state, .error conflict) => ⟨state, .conflict (.reason conflict.toText), {}⟩

def Applied.ofImport (s : StateMachineData) : Except RestoreStepConflict StateMachineData → Applied
  | .ok imported => ⟨imported, .applied, { resourcesChanged := true }⟩
  | .error conflict => ⟨s, .conflict (.reason conflict.toText), {}⟩

def applyConsensusCommandAt (env : Environment) (leaderTerm : Nat) (s : StateMachineData) :
    ConsensusCommand → Applied
  | .seedClusterParameters values => .ofConflict s (.ok (s.seedClusterParameters values))
  | .alterClusterParameters reference inputs =>
    .ofConflict s (s.alterClusterParameters env reference inputs)
  | .admitCommandExecution execution mutationDomains policy =>
    .ofConflict s (s.admitCommandExecution env execution mutationDomains policy)
  | .acquireCommandDomainMutation reference owner requestDigest domain =>
    .ofConflict s (s.acquireCommandDomainMutation env reference owner requestDigest domain)
  | .releaseCommandDomainMutation reference owner requestDigest domain =>
    .ofConflict s (s.releaseCommandDomainMutation env reference owner requestDigest domain)
  | .finishCommandExecution reference owner requestDigest finishedAt result =>
    .ofConflict s
      (s.finishCommandExecution env reference owner requestDigest finishedAt result)
  | .reclaimCommandExecutions finishedBefore retryFence =>
    .ofConflict s (.ok ({ s with commandExecutions :=
      s.commandExecutions.reclaim env.issuedAt finishedBefore retryFence }, {}))
  | .replaceDomainSchedule inputs schedule mutation =>
    .ofConflict s (s.replaceDomainScheduleCommand inputs schedule mutation)
  | .updateKafkaPartitionSchedule inputs schedule =>
    .ofConflict s (s.changeSchedule inputs (some schedule))
  | .applyAutomaticDomainSchedule fence inputs schedule =>
    .ofConflict s (s.applyAutomaticDomainSchedule leaderTerm fence inputs schedule)
  | .reconcileOwnershipHandoffPreparations _ => .ofConflict s (.ok (s, {}))
  | .putDomainAndSchedule inputs domain schedule mutation =>
    .ofConflict s (s.putDomainAndSchedule inputs domain schedule mutation)
  | .putDomain domain mutation => .ofConflict s (s.putDomainCommand domain mutation)
  | .startDomain domainId start clock authority mutation =>
    .ofConflict s (s.changeDomain domainId mutation true
      fun s => s.commitDomainStart domainId start clock authority)
  | .stopDomain domainId mutation =>
    .ofConflict s (s.changeDomain domainId mutation false fun s => s.commitDomainStop domainId)
  | .pauseDomain domainId mutation =>
    .ofConflict s (s.changeDomain domainId mutation false
      fun s => s.moveDomainStatus domainId .running .paused)
  | .resumeDomain domainId mutation =>
    .ofConflict s (s.changeDomain domainId mutation true
      fun s => s.moveDomainStatus domainId .paused .running)
  | .reconcileDomainClockAuthority domainId expectedStartVersion expectedAuthority owner =>
    .ofConflict s (s.changeDomain domainId none false fun s =>
      s.reconcileDomainClockAuthority domainId expectedStartVersion expectedAuthority owner)
  | .createUser user => .ofConflict s (.ok (s.createUser user, {}))
  | .createResourceCatalog domain identifier =>
    .ofConflict s (s.changeResources (.ok (s.resources.ensureCatalog domain identifier)))
  | .beginResourceUpload key rootChecksum =>
    .ofConflict s (s.changeResources (s.resources.beginUpload key rootChecksum))
  | .publishResourceUpload key resource replica =>
    .ofConflict s (s.changeResources (s.resources.publishUpload key resource replica))
  | .putResourceReplica replica =>
    .ofConflict s (s.changeResources (.ok { s.resources with
      replicas := s.resources.replicas.insert replica.key replica }))
  | .completeResourceUpload key =>
    .ofConflict s (s.changeResources (s.resources.completeUpload key s.revision))
  | .failResourceUpload key reason =>
    .ofConflict s (s.changeResources (s.resources.failUpload key s.revision reason))
  | .applyRestoreStep reference step effect =>
    .ofRestore (s.applyRestoreStep env reference step effect)
  | .beginRestoreStateInstallation reference domain tenure =>
    .ofConflict s (s.beginRestoreStateInstallation leaderTerm reference domain tenure)
  | .importResourceVersion reference key resource replica =>
    .ofImport s (s.importResourceVersion reference key resource replica)
  | .setNodeCordoned nodeId cordoned => .ofConflict s (.ok (s.setNodeCordoned nodeId cordoned, {}))
  | .fenceNodeAdmission identity => .ofConflict s (.ok (s.fenceNodeAdmission identity, {}))
  | .openTransaction transaction maxOpenTransactions =>
    .ofTransaction s (s.openTransaction transaction maxOpenTransactions)
  | .queueTransactionStatement id owner domain activity statement report limits =>
    .ofTransaction s
      (s.queueTransactionStatement env id owner domain activity statement report limits)
  | .touchTransaction id owner activity =>
    .ofTransaction s (s.mutateTransaction id
      fun transaction => transaction.touch env.sourceDigest owner activity s.revision)
  | .startTransactionCommit id owner activity expectedPreview report plan =>
    .ofTransaction s (s.startTransactionCommit env id owner activity expectedPreview report plan)
  | .failTransactionCommitAdmission failure =>
    .ofTransaction s (s.failTransactionCommitAdmission env failure)
  | .advanceTransactionCommit id expectedNextStatement nextStatement observedAt result effect
      completion =>
    .ofTransaction s (s.advanceTransactionCommit env id expectedNextStatement nextStatement
      observedAt result effect completion)
  | .completeTransactionApplication id expectedNextStatement observedAt actual outcome =>
    .ofTransaction s (s.completeTransactionApplication env id expectedNextStatement observedAt
      actual outcome)
  | .finishEmptyTransactionCommit id observedAt =>
    .ofTransaction s (s.endTransaction id
      fun transaction => transaction.finishEmptyCommit env.sourceDigest observedAt s.revision)
  | .revertTransaction id owner activity =>
    .ofTransaction s (s.endTransaction id
      fun transaction => transaction.revert env.sourceDigest owner activity s.revision)
  | .expireTransaction id observedAt =>
    .ofTransaction s (s.expireTransaction env id observedAt)
  | .removeFinishedTransactions finishedBefore =>
    .ofConflict s (.ok (s.removeFinishedTransactions finishedBefore))

inductive EntryPayload
  | blank
  | normal (command : ConsensusCommand)
  | membership (membership : Membership)

structure Entry where
  logId : LogId
  payload : EntryPayload

def StateMachineData.applyEntry (env : Environment) (s : StateMachineData) (entry : Entry) :
    Applied :=
  let s := { s with lastAppliedLogId := some entry.logId }
  match entry.payload with
  | .blank => ⟨s, .applied, {}⟩
  | .membership membership => ⟨{ s with lastMembership := membership }, .applied, {}⟩
  | .normal command =>
    let applied := applyConsensusCommandAt env entry.logId.term s command
    if applied.changes.scheduleChanged || applied.changes.domainsChanged then
      { applied with state := { applied.state with runtimeRevision := entry.logId.index } }
    else applied

end Nervix.Consensus
