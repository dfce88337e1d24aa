import Nervix.Consensus.ImpactReport

/-!
# Retained report revisions

Report revisions as keyed records.
-/

namespace Nervix.Consensus

abbrev ImpactTopologyId := Digest

abbrev TopologyDigest := ImpactTopology → Option ImpactTopologyId

inductive TransactionReportArchiveError
  | encodeTopology
  | topologyHashCollision
  deriving DecidableEq, Repr

inductive TransactionReportStoreError
  | invalidArchive
  | conflictingArchive
  | unknownRevision
  | stepMismatch
  deriving DecidableEq, Repr

inductive TransactionReportReadError
  | unknownRevision
  | missingOperation (index : Nat)
  | missingExecutionStep (index : Nat)
  | missingTopology
  | invalidReport
  deriving DecidableEq, Repr

structure StoredAffectedTopology where
  before : ImpactTopologyId
  after : ImpactTopologyId
  deriving DecidableEq, Repr

abbrev ArchivedGraphs := Records ImpactTopologyId ImpactTopology

namespace StoredAffectedTopology

def graphIds (topology : StoredAffectedTopology) : List ImpactTopologyId :=
  [topology.before, topology.after]

def archiveGraph (digest : TopologyDigest) (topology : ImpactTopology) (graphs : ArchivedGraphs) :
    Except TransactionReportArchiveError (ImpactTopologyId × ArchivedGraphs) :=
  match digest topology with
  | none => .error .encodeTopology
  | some id =>
    match graphs.lookup id with
    | some existing =>
      if existing ≠ topology then .error .topologyHashCollision else .ok (id, graphs)
    | none => .ok (id, graphs.insert id topology)

def archive (digest : TopologyDigest) (topology : AffectedTopology) (graphs : ArchivedGraphs) :
    Except TransactionReportArchiveError (StoredAffectedTopology × ArchivedGraphs) := do
  let (before, graphs) ← archiveGraph digest topology.before graphs
  let (after, graphs) ← archiveGraph digest topology.after graphs
  return (⟨before, after⟩, graphs)

end StoredAffectedTopology

structure StoredOperationImpactReport where
  report : OperationImpactReport
  topology : StoredAffectedTopology
  deriving DecidableEq

namespace StoredOperationImpactReport

def archive (digest : TopologyDigest) (report : OperationImpactReport) (graphs : ArchivedGraphs) :
    Except TransactionReportArchiveError (StoredOperationImpactReport × ArchivedGraphs) := do
  let (topology, graphs) ← StoredAffectedTopology.archive digest report.contribution.topology graphs
  let report := { report with contribution := { report.contribution with topology := .empty } }
  return (⟨report, topology⟩, graphs)

def graphIds (operation : StoredOperationImpactReport) : List ImpactTopologyId :=
  operation.topology.graphIds

end StoredOperationImpactReport

structure StoredExecutionStepImpactReport where
  report : ExecutionStepImpactReport
  plannedTopology : StoredAffectedTopology
  actualTopology : StoredAffectedTopology
  deriving DecidableEq

namespace StoredExecutionStepImpactReport

def archive (digest : TopologyDigest) (report : ExecutionStepImpactReport)
    (graphs : ArchivedGraphs) :
    Except TransactionReportArchiveError (StoredExecutionStepImpactReport × ArchivedGraphs) := do
  let planned := report.planned
  let (plannedTopology, graphs) ←
    StoredAffectedTopology.archive digest planned.effects.topology graphs
  let planned := { planned with effects := { planned.effects with topology := .empty } }
  let actual := report.actual
  let (actualTopology, graphs) ←
    StoredAffectedTopology.archive digest actual.effects.topology graphs
  let actual := { actual with effects := { actual.effects with topology := .empty } }
  return (⟨⟨report.operations, planned, actual⟩, plannedTopology, actualTopology⟩, graphs)

def graphIds (step : StoredExecutionStepImpactReport) : List ImpactTopologyId :=
  step.plannedTopology.graphIds ++ step.actualTopology.graphIds

end StoredExecutionStepImpactReport

structure TransactionReportHeader where
  identity : TransactionPreviewIdentity
  domain : DomainName
  completeness : ImpactReportCompleteness
  operationCount : Nat
  executionStepCount : Nat
  deriving DecidableEq, Repr

structure ArchivedImpactTopology where
  id : ImpactTopologyId
  topology : ImpactTopology
  deriving DecidableEq

structure TransactionReportArchive where
  header : TransactionReportHeader
  operations : List StoredOperationImpactReport
  executionSteps : List StoredExecutionStepImpactReport
  graphs : List ArchivedImpactTopology
  deriving DecidableEq

def archiveAll {α σ : Type}
    (archive : α → ArchivedGraphs → Except TransactionReportArchiveError (σ × ArchivedGraphs)) :
    List α → ArchivedGraphs → Except TransactionReportArchiveError (List σ × ArchivedGraphs)
  | [], graphs => .ok ([], graphs)
  | a :: l, graphs => do
    let (stored, graphs) ← archive a graphs
    let (rest, graphs) ← archiveAll archive l graphs
    return (stored :: rest, graphs)

def ArchivedGraphs.toList (graphs : ArchivedGraphs) : List ArchivedImpactTopology :=
  graphs.ascending.map fun graph => ⟨graph.1, graph.2⟩

namespace TransactionReportArchive

section
variable (archive : TransactionReportArchive)

def new (digest : TopologyDigest) (transactionId : TransactionId)
    (report : TransactionImpactReport) :
    Except TransactionReportArchiveError TransactionReportArchive := do
  let (operations, graphs) ←
    archiveAll (StoredOperationImpactReport.archive digest) report.operations ∅
  let (executionSteps, graphs) ←
    archiveAll (StoredExecutionStepImpactReport.archive digest) report.executionSteps graphs
  return {
    header := {
      identity := ⟨transactionId, report.position, report.planningBasis⟩
      domain := report.domain
      completeness := report.completeness
      operationCount := report.operations.length
      executionStepCount := report.executionSteps.length }
    operations := operations
    executionSteps := executionSteps
    graphs := ArchivedGraphs.toList graphs }

def identity : TransactionPreviewIdentity :=
  archive.header.identity

def domain : DomainName := archive.header.domain

def isComplete : Bool :=
  archive.header.completeness.isComplete

def graphIds : List ImpactTopologyId :=
  archive.operations.flatMap (·.graphIds) ++ archive.executionSteps.flatMap (·.graphIds)

def incompleteFailureStep (operation : TransactionOperationNumber) : Option Nat :=
  if archive.isComplete || !archive.header.completeness.concerns operation then none
  else (archive.executionSteps.find? fun step => step.report.operations.contains operation).map
    fun step => step.report.operations.firstIndex

end

end TransactionReportArchive

structure ImpactTopologyHeader where
  nodeCount : Nat
  edgeCount : Nat
  deriving DecidableEq, Repr

structure TransactionReportRecords where
  headers : Records TransactionPreviewIdentity TransactionReportHeader
  operations : Records (TransactionPreviewIdentity × Nat) StoredOperationImpactReport
  executionSteps : Records (TransactionPreviewIdentity × Nat) StoredExecutionStepImpactReport
  revisions : Records TransactionId (List TransactionPreviewIdentity)
  topologyHeaders : Records ImpactTopologyId ImpactTopologyHeader
  topologyNodes : Records (ImpactTopologyId × Nat) AttributedImpactNode
  topologyEdges : Records (ImpactTopologyId × Nat) ImpactTopologyEdge

namespace TransactionReportRecords

section
variable (digest : TopologyDigest) (r : TransactionReportRecords)
  (archive : TransactionReportArchive) (identity : TransactionPreviewIdentity)

def empty : TransactionReportRecords := ⟨∅, ∅, ∅, ∅, ∅, ∅, ∅⟩

def hasConsistentRevisionIndex : Bool :=
  decide (∀ transactionId ∈ r.revisions.keys,
    (r.revisions.lookup transactionId).any fun identities =>
      !identities.isEmpty && decide identities.Nodup && identities.all fun identity =>
        identity.transactionId = transactionId && decide (identity ∈ r.headers)) &&
  decide (∀ identity ∈ r.headers.keys,
    (r.revisions.lookup identity.transactionId).any fun identities => identity ∈ identities)

/-! ### Reading -/

def readAll {κ σ α : Type} [DecidableEq κ] (records : Records (κ × Nat) σ) (key : κ)
    (missing : Nat → TransactionReportReadError) (read : σ → Except TransactionReportReadError α)
    (count : Nat) : Except TransactionReportReadError (List α) :=
  (List.range count).mapM fun index =>
    match records.lookup (key, index) with
    | none => .error (missing index)
    | some stored => read stored

def restoreGraph (id : ImpactTopologyId) : Except TransactionReportReadError ImpactTopology :=
  match r.topologyHeaders.lookup id with
  | none => .error .missingTopology
  | some header => do
    let nodes ← readAll r.topologyNodes id (fun _ => .missingTopology) .ok header.nodeCount
    let edges ← readAll r.topologyEdges id (fun _ => .missingTopology) .ok header.edgeCount
    return ⟨nodes.toFinset, edges.toFinset⟩

def restoreTopology (topology : StoredAffectedTopology) :
    Except TransactionReportReadError AffectedTopology := do
  let before ← r.restoreGraph topology.before
  let after ← r.restoreGraph topology.after
  return ⟨before, after⟩

def restoreOperation (stored : StoredOperationImpactReport) :
    Except TransactionReportReadError OperationImpactReport := do
  let topology ← r.restoreTopology stored.topology
  return { stored.report with contribution := { stored.report.contribution with topology } }

def restoreStep (stored : StoredExecutionStepImpactReport) :
    Except TransactionReportReadError ExecutionStepImpactReport := do
  let planned := stored.report.planned
  let topology ← r.restoreTopology stored.plannedTopology
  let planned := { planned with effects := { planned.effects with topology } }
  let actual := stored.report.actual
  let topology ← r.restoreTopology stored.actualTopology
  let actual := { actual with effects := { actual.effects with topology } }
  return ⟨stored.report.operations, planned, actual⟩

def report (r : TransactionReportRecords) (identity : TransactionPreviewIdentity) :
    Except TransactionReportReadError TransactionImpactReport :=
  match r.headers.lookup identity with
  | none => .error .unknownRevision
  | some header => do
    let operations ←
      readAll r.operations identity .missingOperation r.restoreOperation header.operationCount
    let executionSteps ←
      readAll r.executionSteps identity .missingExecutionStep r.restoreStep
        header.executionStepCount
    match TransactionImpactReport.new header.domain identity.position identity.planningBasis
        header.completeness operations executionSteps with
    | .ok report => return report
    | .error _ => .error .invalidReport

/-! ### Writing -/

def insertGraph (graph : ArchivedImpactTopology) : TransactionReportRecords :=
  if graph.id ∈ r.topologyHeaders then r
  else { r with
    topologyNodes := r.topologyNodes.insertAll graph.id (graph.topology.nodes.sort (· ≤ ·))
    topologyEdges := r.topologyEdges.insertAll graph.id (graph.topology.edges.sort (· ≤ ·))
    topologyHeaders := r.topologyHeaders.insert graph.id
      ⟨graph.topology.nodes.card, graph.topology.edges.card⟩ }

def insertGraphs (graphs : List ArchivedImpactTopology) : TransactionReportRecords :=
  graphs.foldl insertGraph r

def validateGraph (supplied : ArchivedGraphs) (graph : ArchivedImpactTopology) :
    Except TransactionReportStoreError ArchivedGraphs :=
  if digest graph.topology ≠ some graph.id then .error .invalidArchive
  else if (supplied.lookup graph.id).any (· ≠ graph.topology) then .error .conflictingArchive
  else
    let supplied := supplied.insert graph.id graph.topology
    if graph.id ∈ r.topologyHeaders then
      match r.restoreGraph graph.id with
      | .error _ => .error .invalidArchive
      | .ok retained =>
        if retained ≠ graph.topology then .error .conflictingArchive else .ok supplied
    else .ok supplied

def holdsAll {κ σ : Type} [DecidableEq κ] [DecidableEq σ] (records : Records (κ × Nat) σ) (key : κ)
    (l : List σ) : Bool :=
  l.zipIdx.all fun (stored, index) => records.lookup (key, index) = some stored

def validateArchive : Except TransactionReportStoreError Unit :=
  if archive.header.operationCount ≠ archive.operations.length ∨
      archive.header.executionStepCount ≠ archive.executionSteps.length then
    .error .invalidArchive
  else do
    let supplied ← archive.graphs.foldlM (r.validateGraph digest) ∅
    if !archive.graphIds.all fun id => id ∈ supplied || id ∈ r.topologyHeaders then
      .error .invalidArchive
    else match r.headers.lookup archive.identity with
      | none => .ok ()
      | some existing =>
        if existing = archive.header && holdsAll r.operations archive.identity archive.operations &&
            holdsAll r.executionSteps archive.identity archive.executionSteps then
          .ok ()
        else .error .conflictingArchive

def write : TransactionReportRecords :=
  let identity := archive.identity
  let r := r.insertGraphs archive.graphs
  { r with
    operations := r.operations.insertAll identity archive.operations
    executionSteps := r.executionSteps.insertAll identity archive.executionSteps
    headers := r.headers.insert identity archive.header
    revisions :=
      match r.revisions.lookup identity.transactionId with
      | some identities =>
        if identity ∈ identities then r.revisions
        else r.revisions.insert identity.transactionId (identities ++ [identity])
      | none => r.revisions.insert identity.transactionId [identity] }

def checked (candidate : TransactionReportRecords) (identity : TransactionPreviewIdentity) :
    Except TransactionReportStoreError TransactionReportRecords :=
  match candidate.report identity with
  | .ok _ => .ok candidate
  | .error _ => .error .invalidArchive

def insert : Except TransactionReportStoreError TransactionReportRecords := do
  r.validateArchive digest archive
  (r.write archive).checked archive.identity

def matchesAdmittedStep (retained incoming : StoredExecutionStepImpactReport) : Bool :=
  retained.report.operations = incoming.report.operations ∧
    retained.report.planned = incoming.report.planned ∧
    retained.plannedTopology = incoming.plannedTopology

def matchesAdmittedArchive : Bool :=
  archive.header.operationCount = archive.operations.length &&
    archive.header.executionStepCount = archive.executionSteps.length &&
    r.headers.lookup archive.identity = some archive.header &&
    holdsAll r.operations archive.identity archive.operations &&
    archive.executionSteps.zipIdx.all fun (incoming, index) =>
      (r.executionSteps.lookup (archive.identity, index)).any (matchesAdmittedStep · incoming)

def stepIndex
    (header : TransactionReportHeader) (operations : TransactionOperationRange) : Option Nat :=
  (List.range header.executionStepCount).find? fun index =>
    (r.executionSteps.lookup (identity, index)).any fun step => step.report.operations = operations

def replaceExecutionStep (impact : ExecutionStepImpactReport) :
    Except TransactionReportStoreError TransactionReportRecords :=
  match r.headers.lookup identity with
  | none => .error .unknownRevision
  | some header =>
    match r.stepIndex identity header impact.operations with
    | none => .error .stepMismatch
    | some index =>
      match StoredExecutionStepImpactReport.archive digest impact ∅ with
      | .error _ => .error .invalidArchive
      | .ok (stored, graphs) =>
        let r := r.insertGraphs (ArchivedGraphs.toList graphs)
        checked { r with executionSteps := r.executionSteps.insert (identity, index) stored }
          identity

def failExecutionStep (operation : TransactionOperationNumber)
    (error : String) : Except TransactionReportStoreError TransactionReportRecords :=
  match r.report identity with
  | .error _ => .error .invalidArchive
  | .ok report =>
    if !report.completeness.concerns operation then .error .stepMismatch
    else match report.executionSteps.find? fun step => step.operations.contains operation with
      | none => .error .stepMismatch
      | some failed =>
        let diagnostic := ⟨.planning, some operation, error⟩
        match failed.actual.outcome with
        | .unattempted => r.replaceExecutionStep digest identity
            { failed with actual := { failed.actual with outcome := .failed diagnostic } }
        | .failed retained =>
          if retained = diagnostic then .ok r else .error .stepMismatch
        | .applying | .applied => .error .stepMismatch

/-! ### Removing -/

def removeRevision : TransactionReportRecords × Bool :=
  match r.headers.lookup identity with
  | none => (r, false)
  | some header => ({ r with
      headers := r.headers.erase identity
      operations := r.operations.eraseAll identity header.operationCount
      executionSteps := r.executionSteps.eraseAll identity header.executionStepCount }, true)

def removeRevisions (identities : List TransactionPreviewIdentity) :
    TransactionReportRecords × Bool :=
  identities.foldl
    (fun (r, removed) identity =>
      let (r, removedOne) := r.removeRevision identity
      (r, removed || removedOne))
    (r, false)

def referenced : Finset ImpactTopologyId :=
  (r.operations.keys.biUnion fun key =>
    ((r.operations.lookup key).elim [] (·.graphIds)).toFinset) ∪
  r.executionSteps.keys.biUnion fun key =>
    ((r.executionSteps.lookup key).elim [] (·.graphIds)).toFinset

def collectUnreferencedTopologies : TransactionReportRecords :=
  let referenced := r.referenced
  { r with
    topologyHeaders := r.topologyHeaders.retain fun id _ => id ∈ referenced
    topologyNodes := r.topologyNodes.retain fun key _ => key.1 ∈ referenced
    topologyEdges := r.topologyEdges.retain fun key _ => key.1 ∈ referenced }

def retainRevision (retained : TransactionPreviewIdentity) : TransactionReportRecords :=
  match r.revisions.lookup retained.transactionId with
  | none => r
  | some identities =>
    if retained ∉ identities then r
    else if identities = [retained] then r
    else
      let (r, removed) := r.removeRevisions (identities.filter (· ≠ retained))
      let r := { r with revisions := r.revisions.insert retained.transactionId [retained] }
      if removed then r.collectUnreferencedTopologies else r

def removeTransaction (transactionId : TransactionId) : TransactionReportRecords × Bool :=
  match r.revisions.lookup transactionId with
  | none => (r, false)
  | some identities =>
    let (r, removed) := r.removeRevisions identities
    ({ r with revisions := r.revisions.erase transactionId }, removed)

def removeTransactions (transactionIds : List TransactionId) : TransactionReportRecords :=
  let (r, removed) := transactionIds.foldl
    (fun (r, removed) transactionId =>
      let (r, removedOne) := r.removeTransaction transactionId
      (r, removed || removedOne))
    (r, false)
  if removed then r.collectUnreferencedTopologies else r

end

end TransactionReportRecords

end Nervix.Consensus
