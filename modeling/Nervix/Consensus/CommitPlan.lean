import Nervix.Consensus.ReportRecords

/-!
# Commit plans

The decision a transaction commits: its steps with the inputs each of them expects, derived from the
inputs of the first step. The admitted plan is stored step by step, and an effect proposed for a step
has to be the one the stored step decided.
-/

namespace Nervix.Consensus

inductive TransactionCommitStepKind
  | models (transitions : List Encoded) (schedule : Option DomainSchedule) (gates : Encoded)
  | alterDomain (next : DomainState) (schedule : Option DomainSchedule) (gates : Encoded)
  | startDomain (start : DomainStartPoint) (clock : Option DomainClockState)
      (authority : Option ClusterNodeIdentity)
  | stopDomain
  | createResource (resource : ResourceName) (alreadyExisted : Bool)
  | resetWasmState (reset : Encoded) (request : CommandExecutionReference)
      (schedule : DomainSchedule)
  deriving DecidableEq

structure TransactionCommitPlanStep where
  impact : ExecutionStepImpactReport
  kind : TransactionCommitStepKind
  deriving DecidableEq

structure TransactionCommitPlan where
  preview : TransactionPreviewIdentity
  steps : List TransactionCommitPlanStep
  deriving DecidableEq

structure TransactionCommitPlanHeader where
  preview : TransactionPreviewIdentity
  stepCount : Nat
  deriving DecidableEq, Repr

def TransactionReportArchive.matchesCommitPlan (digest : TopologyDigest)
    (archive : TransactionReportArchive) (plan : TransactionCommitPlan) : Bool :=
  archive.header.executionStepCount = plan.steps.length &&
    (archive.executionSteps.zip plan.steps).all fun (report, step) =>
      match StoredExecutionStepImpactReport.archive digest step.impact ∅ with
      | .ok (planned, _) => report = planned
      | .error _ => false

structure TransactionScheduleEligibility where
  domain : DomainName
  nodes : Encoded
  deriving DecidableEq, Repr

inductive TransactionCommitPlanBuildError
  | domainMismatch
  | missingDomainState (operation : TransactionOperationNumber)
  | domainStartGenerationOverflow (operation : TransactionOperationNumber)
  deriving DecidableEq, Repr

structure TransactionCommitAdmissionPlan where
  decision : TransactionCommitPlan
  inputs : List DomainPlanningInputs
  eligibility : TransactionScheduleEligibility
  deriving DecidableEq

namespace TransactionCommitAdmissionPlan

def afterStep (inputs : DomainPlanningInputs) (step : TransactionCommitPlanStep) :
    Except TransactionCommitPlanBuildError DomainPlanningInputs :=
  let operation := step.impact.operations.first
  match step.kind with
  | .models _ schedule _ => .ok (inputs.afterSchedule schedule)
  | .alterDomain next schedule _ => .ok (inputs.afterDomainUpdate next schedule)
  | .startDomain start clock _ =>
    match inputs.state with
    | none => .error (.missingDomainState operation)
    | some domain =>
      if 2 ^ 64 ≤ domain.startVersion + 1 then .error (.domainStartGenerationOverflow operation)
      else .ok (inputs.afterDomainUpdate
        { domain with
          status := .running, startVersion := domain.startVersion + 1, lastStart := start,
          clock := clock }
        inputs.schedule)
  | .stopDomain =>
    match inputs.state with
    | none => .error (.missingDomainState operation)
    | some domain =>
      .ok (inputs.afterDomainUpdate { domain with status := .stopped, clock := none }
        inputs.schedule)
  | .createResource resource alreadyExisted =>
    .ok (if alreadyExisted then inputs else inputs.afterResourceCatalog resource)
  | .resetWasmState _ _ schedule => .ok (inputs.afterSchedule (some schedule))

def captureInputs : DomainPlanningInputs → List TransactionCommitPlanStep →
    Except TransactionCommitPlanBuildError (List DomainPlanningInputs)
  | _, [] => .ok []
  | expected, step :: steps => do
    let next ← afterStep expected step
    let rest ← captureInputs next steps
    return expected :: rest

def capture (decision : TransactionCommitPlan) (firstInputs : DomainPlanningInputs)
    (eligibility : TransactionScheduleEligibility) :
    Except TransactionCommitPlanBuildError TransactionCommitAdmissionPlan :=
  if firstInputs.domain ≠ eligibility.domain then .error .domainMismatch
  else do
    let inputs ← captureInputs firstInputs decision.steps
    return ⟨decision, inputs, eligibility⟩

def isConsistent (plan : TransactionCommitAdmissionPlan) : Bool :=
  match plan.inputs with
  | [] => plan.decision.steps.isEmpty
  | firstInputs :: _ =>
    match capture plan.decision firstInputs plan.eligibility with
    | .ok rebuilt => rebuilt = plan
    | .error _ => false

end TransactionCommitAdmissionPlan

inductive TransactionStepEffect
  | replaceDomainSchedule (inputs : DomainPlanningInputs) (schedule : Option DomainSchedule)
  | putDomainAndSchedule (inputs : DomainPlanningInputs) (domain : DomainState)
      (schedule : Option DomainSchedule)
  | startDomain (inputs : DomainPlanningInputs) (start : DomainStartPoint)
      (clock : Option DomainClockState) (authority : Option ClusterNodeIdentity)
  | stopDomain (inputs : DomainPlanningInputs)
  | createResourceCatalog (inputs : DomainPlanningInputs) (identifier : ResourceName)
  | resetWasmState (inputs : DomainPlanningInputs) (reset : Encoded)
      (request : CommandExecutionReference) (schedule : DomainSchedule)
  deriving DecidableEq

def TransactionStepEffect.inputs : TransactionStepEffect → DomainPlanningInputs
  | replaceDomainSchedule inputs _ | putDomainAndSchedule inputs _ _ | startDomain inputs _ _ _
  | stopDomain inputs | createResourceCatalog inputs _ | resetWasmState inputs _ _ _ => inputs

structure FrozenTransactionCommitStep where
  decision : TransactionCommitPlanStep
  inputs : DomainPlanningInputs
  eligibility : TransactionScheduleEligibility
  deriving DecidableEq

namespace FrozenTransactionCommitStep

def effectInputs (step : FrozenTransactionCommitStep) : DomainPlanningInputs :=
  match step.decision.kind with
  | .models _ _ _ =>
    if step.decision.impact.planned.pause.requiresDomainPause then step.inputs.afterDomainPause
    else step.inputs
  | _ => step.inputs

def matchesEffect (step : FrozenTransactionCommitStep) (success : Bool)
    (effect : Option TransactionStepEffect) : Bool :=
  if !success then effect.isNone
  else match step.decision.kind, effect with
    | .models _ schedule _, some (.replaceDomainSchedule inputs applied) =>
      inputs = step.effectInputs && applied = schedule
    | .alterDomain next schedule _, some (.putDomainAndSchedule inputs domain applied) =>
      inputs = step.effectInputs && domain = next && applied = schedule
    | .startDomain start clock authority, some (.startDomain inputs start' clock' authority') =>
      inputs = step.effectInputs && start' = start && clock' = clock && authority' = authority
    | .stopDomain, some (.stopDomain inputs) => inputs = step.effectInputs
    | .createResource resource false, some (.createResourceCatalog inputs identifier) =>
      inputs = step.effectInputs && identifier = resource
    | .resetWasmState reset request schedule,
        some (.resetWasmState inputs reset' request' schedule') =>
      inputs = step.effectInputs && reset' = reset && request' = request && schedule' = schedule
    | .models transitions _ _, none => transitions.isEmpty
    | .alterDomain next schedule _, none =>
      step.inputs.state = some next && step.inputs.schedule = schedule
    | .createResource _ true, none => true
    | _, _ => false

end FrozenTransactionCommitStep

structure TransactionCommitPlanRecordHeader where
  preview : TransactionPreviewIdentity
  stepCount : Nat
  eligibility : TransactionScheduleEligibility
  deriving DecidableEq, Repr

structure TransactionCommitPlanRecordStep where
  decision : TransactionCommitPlanStep
  inputs : DomainPlanningInputs
  deriving DecidableEq

structure TransactionCommitPlanRecords where
  headers : Records TransactionId TransactionCommitPlanRecordHeader
  steps : Records (TransactionId × Nat) TransactionCommitPlanRecordStep

inductive TransactionCommitPlanStoreError
  | inputCount (steps inputs : Nat)
  | invalidPlan
  | conflictingPlan
  deriving DecidableEq, Repr

inductive TransactionCommitPlanReadError
  | missingHeader
  | missingStep (index : Nat)
  deriving DecidableEq, Repr

namespace TransactionCommitAdmissionPlan

def recordHeader (plan : TransactionCommitAdmissionPlan) : TransactionCommitPlanRecordHeader :=
  ⟨plan.decision.preview, plan.decision.steps.length, plan.eligibility⟩

def recordSteps (plan : TransactionCommitAdmissionPlan) : List TransactionCommitPlanRecordStep :=
  List.zipWith TransactionCommitPlanRecordStep.mk plan.decision.steps plan.inputs

end TransactionCommitAdmissionPlan

namespace TransactionCommitPlanRecords

section
variable (r : TransactionCommitPlanRecords)

def empty : TransactionCommitPlanRecords := ⟨∅, ∅⟩

def insert (plan : TransactionCommitAdmissionPlan) :
    Except TransactionCommitPlanStoreError TransactionCommitPlanRecords :=
  let transactionId := plan.decision.preview.transactionId
  if plan.decision.steps.length ≠ plan.inputs.length then
    .error (.inputCount plan.decision.steps.length plan.inputs.length)
  else if !plan.isConsistent then .error .invalidPlan
  else if (r.headers.lookup transactionId).any (· ≠ plan.recordHeader) then
    .error .conflictingPlan
  else if plan.recordSteps.zipIdx.any fun (step, index) =>
      (r.steps.lookup (transactionId, index)).any (· ≠ step) then
    .error .conflictingPlan
  else .ok {
    headers := r.headers.insert transactionId plan.recordHeader
    steps := r.steps.insertAll transactionId plan.recordSteps }

def matchesAdmission (plan : TransactionCommitAdmissionPlan) : Bool :=
  let transactionId := plan.decision.preview.transactionId
  r.headers.lookup transactionId = some plan.recordHeader &&
    plan.decision.steps.length = plan.inputs.length &&
    TransactionReportRecords.holdsAll r.steps transactionId plan.recordSteps

def step (r : TransactionCommitPlanRecords) (transactionId : TransactionId) (index : Nat) :
    Except TransactionCommitPlanReadError FrozenTransactionCommitStep :=
  match r.headers.lookup transactionId with
  | none => .error .missingHeader
  | some header =>
    if header.stepCount ≤ index then .error (.missingStep index)
    else match r.steps.lookup (transactionId, index) with
      | none => .error (.missingStep index)
      | some step => .ok ⟨step.decision, step.inputs, header.eligibility⟩

def remove (transactionId : TransactionId) : TransactionCommitPlanRecords where
  headers := r.headers.erase transactionId
  steps := r.steps.retain fun key _ => key.1 ≠ transactionId

end

end TransactionCommitPlanRecords

end Nervix.Consensus
