import Nervix.Consensus.Vocabulary

/-!
# Transaction impact reports

The report of what a transaction's operations and execution steps change, and the checks that a
complete report passes: its steps cover its operations consecutively from the first one, and every
part belongs to the report's domain.
-/

namespace Nervix.Consensus

abbrev TransactionOperationNumber := ℕ+

structure TransactionOperationRange where
  first : TransactionOperationNumber
  last : TransactionOperationNumber
  first_le_last : first ≤ last
  deriving DecidableEq

namespace TransactionOperationRange

section
variable (range : TransactionOperationRange)

def firstIndex : Nat := (range.first : Nat) - 1

def endIndex : Nat := range.last

def operationCount : Nat :=
  (range.last : Nat) - (range.first : Nat) + 1

def contains (operation : TransactionOperationNumber) : Bool :=
  range.first ≤ operation ∧ operation ≤ range.last

def operations : List Nat :=
  List.range' range.first range.operationCount

end

end TransactionOperationRange

inductive ImpactDiagnosticKind
  | planning
  | topology
  | quiescence
  | ownership
  | activation
  | application
  | recovery
  deriving DecidableEq, Repr

structure ImpactDiagnostic where
  kind : ImpactDiagnosticKind
  operation : Option TransactionOperationNumber
  message : String
  deriving DecidableEq, Repr

inductive ImpactReportCompleteness
  | complete
  | incomplete (diagnostics : List ImpactDiagnostic)
  deriving DecidableEq, Repr

namespace ImpactReportCompleteness

def isComplete : ImpactReportCompleteness → Bool
  | complete => true
  | incomplete _ => false

def diagnostics : ImpactReportCompleteness → List ImpactDiagnostic
  | complete => []
  | incomplete diagnostics => diagnostics

def concerns (completeness : ImpactReportCompleteness) (operation : TransactionOperationNumber) :
    Bool :=
  completeness.diagnostics.any fun diagnostic =>
    diagnostic.operation.isNone || diagnostic.operation = some operation

end ImpactReportCompleteness

abbrev AttributedImpactNode := String

abbrev ImpactTopologyEdge := String

structure ImpactTopology where
  nodes : Finset AttributedImpactNode
  edges : Finset ImpactTopologyEdge
  deriving DecidableEq

def ImpactTopology.empty : ImpactTopology := ⟨∅, ∅⟩

structure AffectedTopology where
  before : ImpactTopology
  after : ImpactTopology
  deriving DecidableEq

def AffectedTopology.empty : AffectedTopology := ⟨.empty, .empty⟩

structure ImpactEffects where
  topology : AffectedTopology
  changes : Encoded
  deriving DecidableEq

structure QuiesceSubgraph where
  domain : DomainName
  nodes : Finset (Encoded × TransactionOperationNumber)
  gateBoundaries : Finset (Encoded × TransactionOperationNumber)
  deriving DecidableEq

inductive PauseRequirement
  | noPause
  | subgraph (scope : QuiesceSubgraph)
  | domain (domain : DomainName)
  deriving DecidableEq

inductive ImpactReportError
  | domainMismatch (expected actual : DomainName)
  | positionMismatch (position operations : Nat)
  | operationSequence (expected actual : Nat)
  | executionStepSequence (expectedIndex actual : Nat)
  | executionStepPastPosition (operation position : Nat)
  | operationStepMismatch (operation : TransactionOperationNumber)
      (expected actual : TransactionOperationRange)
  deriving DecidableEq

def ensureSameImpactDomain (expected actual : DomainName) : Except ImpactReportError Unit :=
  if expected = actual then .ok () else .error (.domainMismatch expected actual)

namespace PauseRequirement

def domain? : PauseRequirement → Option DomainName
  | noPause => none
  | subgraph scope => some scope.domain
  | domain paused => some paused

def requiresDomainPause : PauseRequirement → Bool
  | domain _ => true
  | noPause | subgraph _ => false

def combined : (a b : PauseRequirement) → Except ImpactReportError PauseRequirement
  | noPause, requirement | requirement, noPause => .ok requirement
  | domain left, domain right => do
    ensureSameImpactDomain left right
    return domain left
  | domain left, subgraph scope | subgraph scope, domain left => do
    ensureSameImpactDomain left scope.domain
    return domain left
  | subgraph left, subgraph right => do
    ensureSameImpactDomain left.domain right.domain
    return subgraph ⟨left.domain, left.nodes ∪ right.nodes,
      left.gateBoundaries ∪ right.gateBoundaries⟩

end PauseRequirement

def ensureRequirementDomain (domain : DomainName) (requirement : PauseRequirement) :
    Except ImpactReportError Unit :=
  match requirement.domain? with
  | none => .ok ()
  | some actual => ensureSameImpactDomain domain actual

structure PlannedExecutionStepImpact where
  completeness : ImpactReportCompleteness
  pause : PauseRequirement
  effects : ImpactEffects
  deriving DecidableEq

structure ActualQuiescence where
  requirement : PauseRequirement
  outcomes : Encoded
  deriving DecidableEq

inductive ExecutionStepOutcome
  | unattempted
  | applying
  | applied
  | failed (diagnostic : ImpactDiagnostic)
  deriving DecidableEq

structure ActualExecutionStepImpact where
  outcome : ExecutionStepOutcome
  quiescence : List ActualQuiescence
  effects : ImpactEffects
  deriving DecidableEq

structure ExecutionStepImpactReport where
  operations : TransactionOperationRange
  planned : PlannedExecutionStepImpact
  actual : ActualExecutionStepImpact
  deriving DecidableEq

structure TransactionOperation where
  domain : DomainName
  body : Encoded
  deriving DecidableEq, Repr

structure OperationImpactReport where
  number : TransactionOperationNumber
  operation : TransactionOperation
  executionStep : TransactionOperationRange
  completeness : ImpactReportCompleteness
  reasons : Encoded
  contribution : ImpactEffects
  deriving DecidableEq

structure TransactionImpactReport where
  domain : DomainName
  position : Nat
  planningBasis : Digest
  completeness : ImpactReportCompleteness
  operations : List OperationImpactReport
  executionSteps : List ExecutionStepImpactReport
  summary : PauseRequirement
  deriving DecidableEq

namespace TransactionImpactReport

section
variable (domain : DomainName) (position : Nat) (operations : List OperationImpactReport)
  (executionSteps : List ExecutionStepImpactReport)

def validateOperation (range : TransactionOperationRange)
    (index number : Nat) : Except ImpactReportError Nat :=
  match operations[index]? with
  | none => .error (.executionStepPastPosition number position)
  | some operation =>
    if (operation.number : Nat) ≠ number then
      .error (.operationSequence number operation.number)
    else do
      ensureSameImpactDomain domain operation.operation.domain
      if operation.executionStep ≠ range then
        .error (.operationStepMismatch operation.number range operation.executionStep)
      else .ok (index + 1)

def validateStep (index : Nat) (step : ExecutionStepImpactReport) : Except ImpactReportError Nat :=
  let range := step.operations
  if range.firstIndex ≠ index then .error (.executionStepSequence index range.first)
  else do
    ensureRequirementDomain domain step.planned.pause
    step.actual.quiescence.forM fun engagement =>
      ensureRequirementDomain domain engagement.requirement
    range.operations.foldlM (validateOperation domain position operations range) index

def validateOperations : Except ImpactReportError Unit :=
  if position ≠ operations.length then .error (.positionMismatch position operations.length)
  else do
    let index ← executionSteps.foldlM (validateStep domain position operations) 0
    if index ≠ operations.length then .error (.executionStepSequence index (index + 1))
    else .ok ()

def summarizePause : Except ImpactReportError PauseRequirement :=
  executionSteps.foldlM
    (fun summary step => do
      ensureRequirementDomain domain step.planned.pause
      summary.combined step.planned.pause)
    .noPause

def new (planningBasis : Digest)
    (completeness : ImpactReportCompleteness) (operations : List OperationImpactReport)
    (executionSteps : List ExecutionStepImpactReport) :
    Except ImpactReportError TransactionImpactReport := do
  validateOperations domain position operations executionSteps
  let pause ← summarizePause domain executionSteps
  return ⟨domain, position, planningBasis, completeness, operations, executionSteps, pause⟩

end

end TransactionImpactReport

structure TransactionPreviewIdentity where
  transactionId : TransactionId
  position : TransactionPosition
  planningBasis : Digest
  deriving DecidableEq, Repr

end Nervix.Consensus
