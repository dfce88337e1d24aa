import Nervix.Theory.Checks
import Nervix.Consensus.ReportRecords

/-!
# Retained reports

What the report records stand for: one report under each retained identity. An operation on the
records does to these reports what its name says, whatever topologies its revision shares with
others, as long as no two topologies have one digest.
-/

namespace Nervix.Consensus

open Except (bind_eq_ok mapM_eq_ok)
open Finmap List
open StoredAffectedTopology (archive archiveGraph graphIds)

inductive ReportOperation
  | insert (archive : TransactionReportArchive)
  | replaceExecutionStep (identity : TransactionPreviewIdentity)
      (impact : ExecutionStepImpactReport)
  | failExecutionStep (identity : TransactionPreviewIdentity)
      (operation : TransactionOperationNumber) (error : String)
  | retainRevision (identity : TransactionPreviewIdentity)
  | removeTransactions (transactionIds : List TransactionId)

def TransactionReportRecords.perform (digest : TopologyDigest) (r : TransactionReportRecords) :
    ReportOperation → Except TransactionReportStoreError TransactionReportRecords
  | .insert archive => r.insert digest archive
  | .replaceExecutionStep identity impact => r.replaceExecutionStep digest identity impact
  | .failExecutionStep identity operation error =>
    r.failExecutionStep digest identity operation error
  | .retainRevision identity => .ok (r.retainRevision identity)
  | .removeTransactions transactionIds => .ok (r.removeTransactions transactionIds)

def TopologyDigest.CollisionFree (digest : TopologyDigest) : Prop :=
  ∀ t u id, digest t = some id → digest u = some id → t = u

structure StoredAffectedTopology.Describes (digest : TopologyDigest)
    (stored : StoredAffectedTopology) (topology : AffectedTopology) : Prop where
  before : digest topology.before = some stored.before
  after : digest topology.after = some stored.after

def StoredOperationImpactReport.withTopology (stored : StoredOperationImpactReport)
    (topology : AffectedTopology) : OperationImpactReport :=
  { stored.report with contribution := { stored.report.contribution with topology } }

def StoredExecutionStepImpactReport.withTopologies (stored : StoredExecutionStepImpactReport)
    (planned actual : AffectedTopology) : ExecutionStepImpactReport :=
  ⟨stored.report.operations,
    { stored.report.planned with
      effects := { stored.report.planned.effects with topology := planned } },
    { stored.report.actual with
      effects := { stored.report.actual.effects with topology := actual } }⟩

def StoredOperationImpactReport.Describes (digest : TopologyDigest)
    (stored : StoredOperationImpactReport) (operation : OperationImpactReport) : Prop :=
  ∃ topology, stored.topology.Describes digest topology ∧ operation = stored.withTopology topology

def StoredExecutionStepImpactReport.Describes (digest : TopologyDigest)
    (stored : StoredExecutionStepImpactReport) (step : ExecutionStepImpactReport) : Prop :=
  ∃ planned actual, stored.plannedTopology.Describes digest planned ∧
    stored.actualTopology.Describes digest actual ∧ step = stored.withTopologies planned actual

def TransactionReportArchive.Describes (digest : TopologyDigest)
    (archive : TransactionReportArchive) (report : TransactionImpactReport) : Prop :=
  ∃ operations steps,
    List.Forall₂ (StoredOperationImpactReport.Describes digest) archive.operations operations ∧
    List.Forall₂ (StoredExecutionStepImpactReport.Describes digest) archive.executionSteps steps ∧
    TransactionImpactReport.new archive.domain archive.identity.position
      archive.identity.planningBasis archive.header.completeness operations steps = .ok report

def TransactionImpactReport.replaceStep (report : TransactionImpactReport)
    (impact : ExecutionStepImpactReport) : Option TransactionImpactReport := do
  let index ← report.executionSteps.findIdx? fun step => step.operations = impact.operations
  (TransactionImpactReport.new report.domain report.position report.planningBasis
    report.completeness report.operations (report.executionSteps.set index impact)).toOption

def ExecutionStepImpactReport.failed (step : ExecutionStepImpactReport)
    (operation : TransactionOperationNumber) (error : String) : ExecutionStepImpactReport :=
  { step with
    actual := { step.actual with outcome := .failed ⟨.planning, some operation, error⟩ } }

abbrev RetainedReports := Records TransactionPreviewIdentity TransactionImpactReport

inductive RetainedReports.Step (digest : TopologyDigest) (m : RetainedReports) :
    ReportOperation → RetainedReports → Prop
  | inserted {archive report} : archive.Describes digest report →
      Step digest m (.insert archive) (m.insert archive.identity report)
  | replaced {identity impact report report'} : m.lookup identity = some report →
      report.replaceStep impact = some report' →
      Step digest m (.replaceExecutionStep identity impact) (m.insert identity report')
  | failed {identity operation error report step report'} : m.lookup identity = some report →
      report.executionSteps.find? (fun step => step.operations.contains operation) = some step →
      report.replaceStep (step.failed operation error) = some report' →
      Step digest m (.failExecutionStep identity operation error) (m.insert identity report')
  | failedBefore {identity operation error report step} : m.lookup identity = some report →
      report.executionSteps.find? (fun step => step.operations.contains operation) = some step →
      step.failed operation error = step →
      Step digest m (.failExecutionStep identity operation error) m
  | retained {identity} : identity ∈ m → Step digest m (.retainRevision identity)
      (m.retain fun other _ => other.transactionId ≠ identity.transactionId ∨ other = identity)
  | retainedNone {identity} : identity ∉ m → Step digest m (.retainRevision identity) m
  | removed {transactionIds} : Step digest m (.removeTransactions transactionIds)
      (m.retain fun identity _ => identity.transactionId ∉ transactionIds)

namespace TransactionReportRecords

variable {r r' : TransactionReportRecords} {digest : TopologyDigest}
  {identity : TransactionPreviewIdentity} {id : ImpactTopologyId}

theorem read_lookup_eq_ok {e : TransactionReportReadError}
    {read : σ → Except TransactionReportReadError α} {a : α} :
    (match found with
      | none => Except.error e
      | some stored => read stored) = .ok a ↔ ∃ stored, found = some stored ∧ read stored = .ok a := by
  cases found <;> simp

theorem readAll_eq_ok {κ σ α : Type} [DecidableEq κ] {records : Records (κ × Nat) σ} {key : κ}
    {missing : Nat → TransactionReportReadError} {read : σ → Except TransactionReportReadError α}
    {count : Nat} {l : List α} : readAll records key missing read count = .ok l ↔
      l.length = count ∧ ∀ i a, l[i]? = some a →
        ∃ stored, records.lookup (key, i) = some stored ∧ read stored = .ok a := by
  simp only [readAll, mapM_eq_ok, forall₂_iff_get, length_range, get_eq_getElem]
  constructor
  · rintro ⟨hl, h⟩
    refine ⟨hl.symm, fun i a ha => ?_⟩
    obtain ⟨hi, rfl⟩ := List.getElem?_eq_some_iff.mp ha
    have hread := h i (hl.symm ▸ hi) hi
    rw [getElem_range] at hread
    exact read_lookup_eq_ok.mp hread
  · rintro ⟨rfl, h⟩
    refine ⟨rfl, fun i _ hi => ?_⟩
    rw [getElem_range]
    exact read_lookup_eq_ok.mpr (h i _ (getElem?_eq_getElem hi))

theorem readAll_mono {κ σ α : Type} [DecidableEq κ] {records records' : Records (κ × Nat) σ}
    {key : κ} {missing : Nat → TransactionReportReadError}
    {read read' : σ → Except TransactionReportReadError α} {count : Nat} {l : List α}
    (h : readAll records key missing read count = .ok l)
    (hrecords : ∀ i < count, records'.lookup (key, i) = records.lookup (key, i))
    (hread : ∀ i stored a, records.lookup (key, i) = some stored → read stored = .ok a →
      read' stored = .ok a) : readAll records' key missing read' count = .ok l := by
  obtain ⟨hl, h⟩ := readAll_eq_ok.mp h
  refine readAll_eq_ok.mpr ⟨hl, fun i a ha => ?_⟩
  obtain ⟨stored, hs, hr⟩ := h i a ha
  have hi : i < count := hl ▸ (List.getElem?_eq_some_iff.mp ha).1
  exact ⟨stored, (hrecords i hi).trans hs, hread i stored a hs hr⟩

theorem restoreGraph_congr (hheaders : r'.topologyHeaders.lookup id = r.topologyHeaders.lookup id)
    (hnodes : ∀ i, r'.topologyNodes.lookup (id, i) = r.topologyNodes.lookup (id, i))
    (hedges : ∀ i, r'.topologyEdges.lookup (id, i) = r.topologyEdges.lookup (id, i)) :
    r'.restoreGraph id = r.restoreGraph id := by
  simp only [restoreGraph, readAll, hheaders, hnodes, hedges]

theorem restoreTopology_eq_ok :
    r.restoreTopology stored = .ok topology ↔ r.restoreGraph stored.before = .ok topology.before ∧
      r.restoreGraph stored.after = .ok topology.after := by
  obtain ⟨before, after⟩ := topology
  simp only [restoreTopology, bind_eq_ok, pure, Except.pure, Except.ok.injEq,
    AffectedTopology.mk.injEq]
  constructor
  · rintro ⟨_, hb, _, ha, rfl, rfl⟩
    exact ⟨hb, ha⟩
  · rintro ⟨hb, ha⟩
    exact ⟨_, hb, _, ha, rfl, rfl⟩

theorem restoreOperation_eq_ok : r.restoreOperation stored = .ok operation ↔
      ∃ topology, r.restoreTopology stored.topology = .ok topology ∧
        operation = stored.withTopology topology := by
  simp only [restoreOperation, bind_eq_ok, pure, Except.pure, Except.ok.injEq, eq_comm (a := operation)]
  rfl

theorem restoreStep_eq_ok : r.restoreStep stored = .ok step ↔
      ∃ planned actual, r.restoreTopology stored.plannedTopology = .ok planned ∧
        r.restoreTopology stored.actualTopology = .ok actual ∧
        step = stored.withTopologies planned actual := by
  simp only [restoreStep, bind_eq_ok, pure, Except.pure, Except.ok.injEq]
  constructor
  · rintro ⟨planned, hp, actual, ha, rfl⟩
    exact ⟨planned, actual, hp, ha, rfl⟩
  · rintro ⟨planned, actual, hp, ha, rfl⟩
    exact ⟨planned, hp, actual, ha, rfl⟩

theorem report_eq_ok {report : TransactionImpactReport} : r.report identity = .ok report ↔
    ∃ header operations steps, r.headers.lookup identity = some header ∧
      readAll r.operations identity .missingOperation r.restoreOperation header.operationCount =
        .ok operations ∧
      readAll r.executionSteps identity .missingExecutionStep r.restoreStep
        header.executionStepCount = .ok steps ∧
      TransactionImpactReport.new header.domain identity.position identity.planningBasis
        header.completeness operations steps = .ok report := by
  unfold TransactionReportRecords.report
  cases r.headers.lookup identity with
  | none => simp
  | some header =>
    simp only [bind_eq_ok, Option.some.injEq]
    constructor
    · rintro ⟨operations, ho, steps, hs, h⟩
      refine ⟨header, operations, steps, rfl, ho, hs, ?_⟩
      split at h
      · rename_i hn
        cases h
        exact hn
      · cases h
    · rintro ⟨_, operations, steps, rfl, ho, hs, h⟩
      refine ⟨operations, ho, steps, hs, ?_⟩
      rw [h]
      rfl

/-! ### What a report reads -/

def RefersTo (r : TransactionReportRecords) (identity : TransactionPreviewIdentity)
    (id : ImpactTopologyId) : Prop :=
  (∃ i stored, r.operations.lookup (identity, i) = some stored ∧ id ∈ stored.graphIds) ∨
    ∃ i stored, r.executionSteps.lookup (identity, i) = some stored ∧ id ∈ stored.graphIds

theorem mem_referenced : id ∈ r.referenced ↔ ∃ identity, r.RefersTo identity id := by
  simp only [referenced, Finset.mem_union, Finset.mem_biUnion, Finmap.mem_keys, mem_toFinset]
  have hmem : ∀ {σ : Type} (records : Records (TransactionPreviewIdentity × Nat) σ)
      (ids : σ → List ImpactTopologyId),
      (∃ key ∈ records, id ∈ (records.lookup key).elim [] ids) ↔
        ∃ identity i stored, records.lookup (identity, i) = some stored ∧ id ∈ ids stored := by
    intro σ records ids
    constructor
    · rintro ⟨⟨identity, i⟩, hkey, hid⟩
      obtain ⟨stored, hs⟩ := Finmap.mem_iff.mp hkey
      rw [hs] at hid
      exact ⟨identity, i, stored, hs, hid⟩
    · rintro ⟨identity, i, stored, hs, hid⟩
      refine ⟨(identity, i), Finmap.mem_iff.mpr ⟨stored, hs⟩, ?_⟩
      rw [hs]
      exact hid
  rw [hmem, hmem]
  constructor
  · rintro (⟨identity, h⟩ | ⟨identity, h⟩)
    · exact ⟨identity, .inl h⟩
    · exact ⟨identity, .inr h⟩
  · rintro ⟨identity, h | h⟩
    · exact .inl ⟨identity, h⟩
    · exact .inr ⟨identity, h⟩

structure Keeps (r r' : TransactionReportRecords) (identity : TransactionPreviewIdentity) :
    Prop where
  header : r'.headers.lookup identity = r.headers.lookup identity
  operations : ∀ i, r'.operations.lookup (identity, i) = r.operations.lookup (identity, i)
  steps : ∀ i, r'.executionSteps.lookup (identity, i) = r.executionSteps.lookup (identity, i)
  graphs : ∀ id t, r.RefersTo identity id → r.restoreGraph id = .ok t → r'.restoreGraph id = .ok t

theorem restoreTopology_mono
    (hg : ∀ id ∈ stored.graphIds, ∀ t, r.restoreGraph id = .ok t → r'.restoreGraph id = .ok t)
    (h : r.restoreTopology stored = .ok topology) : r'.restoreTopology stored = .ok topology := by
  obtain ⟨hb, ha⟩ := restoreTopology_eq_ok.mp h
  exact restoreTopology_eq_ok.mpr ⟨hg _ (by simp [graphIds]) _ hb,
    hg _ (by simp [graphIds]) _ ha⟩

theorem restoreOperation_mono
    (hg : ∀ id ∈ stored.graphIds, ∀ t, r.restoreGraph id = .ok t → r'.restoreGraph id = .ok t)
    (h : r.restoreOperation stored = .ok operation) :
    r'.restoreOperation stored = .ok operation := by
  obtain ⟨topology, ht, rfl⟩ := restoreOperation_eq_ok.mp h
  exact restoreOperation_eq_ok.mpr ⟨topology, restoreTopology_mono hg ht, rfl⟩

theorem restoreStep_mono
    (hg : ∀ id ∈ stored.graphIds, ∀ t, r.restoreGraph id = .ok t → r'.restoreGraph id = .ok t)
    (h : r.restoreStep stored = .ok step) : r'.restoreStep stored = .ok step := by
  obtain ⟨planned, actual, hp, ha, rfl⟩ := restoreStep_eq_ok.mp h
  refine restoreStep_eq_ok.mpr ⟨planned, actual, restoreTopology_mono (fun id hid => hg id ?_) hp,
    restoreTopology_mono (fun id hid => hg id ?_) ha, rfl⟩
  · exact mem_append_left _ hid
  · exact mem_append_right _ hid

theorem Keeps.report {report : TransactionImpactReport} (hk : r.Keeps r' identity)
    (h : r.report identity = .ok report) : r'.report identity = .ok report := by
  obtain ⟨header, operations, steps, hh, ho, hs, hn⟩ := report_eq_ok.mp h
  refine report_eq_ok.mpr ⟨header, operations, steps, hk.header.trans hh, ?_, ?_, hn⟩
  · exact readAll_mono ho (fun i _ => hk.operations i) fun i stored _ hl => restoreOperation_mono
      fun id hid t => hk.graphs id t (.inl ⟨i, stored, hl, hid⟩)
  · exact readAll_mono hs (fun i _ => hk.steps i) fun i stored _ hl => restoreStep_mono
      fun id hid t => hk.graphs id t (.inr ⟨i, stored, hl, hid⟩)

def GraphsSound (digest : TopologyDigest) (r : TransactionReportRecords) : Prop :=
  ∀ id ∈ r.topologyHeaders, ∃ t, r.restoreGraph id = .ok t ∧ digest t = some id

theorem mem_of_restoreGraph (h : r.restoreGraph id = .ok t) : id ∈ r.topologyHeaders := by
  unfold restoreGraph at h
  split at h
  · cases h
  · exact mem_iff.mpr ⟨_, ‹_›⟩

theorem readAll_insertAll {κ σ : Type} [DecidableEq κ] (records : Records (κ × Nat) σ) (key : κ)
    (missing : Nat → TransactionReportReadError) (l : List σ) :
    readAll (records.insertAll key l) key missing .ok l.length = .ok l := by
  refine readAll_eq_ok.mpr ⟨rfl, fun i a ha => ⟨a, ?_, rfl⟩⟩
  rw [lookup_insertAll, if_pos ⟨rfl, (List.getElem?_eq_some_iff.mp ha).1⟩, ha]

theorem restoreGraph_insertGraph (graph : ArchivedImpactTopology) :
    (r.insertGraph graph).restoreGraph id =
      if id = graph.id ∧ id ∉ r.topologyHeaders then .ok graph.topology
      else r.restoreGraph id := by
  unfold insertGraph
  by_cases hmem : graph.id ∈ r.topologyHeaders
  · have hcond : ¬(id = graph.id ∧ id ∉ r.topologyHeaders) := by
      rintro ⟨rfl, h⟩
      exact h hmem
    rw [if_pos hmem, if_neg hcond]
  · rw [if_neg hmem]
    by_cases hid : id = graph.id
    · subst hid
      rw [if_pos ⟨rfl, hmem⟩]
      unfold restoreGraph
      rw [lookup_insert]
      have hcard : ∀ s : Finset String, s.card = (s.sort (· ≤ ·)).length := fun s =>
        (Finset.length_sort _).symm
      simp only [hcard, readAll_insertAll, bind, Except.bind, pure, Except.pure,
        Finset.sort_toFinset]
    · rw [if_neg fun h => hid h.1]
      refine restoreGraph_congr ?_ (fun i => ?_) fun i => ?_
      · exact lookup_insert_of_ne _ hid
      · rw [lookup_insertAll, if_neg fun h => hid h.1]
      · rw [lookup_insertAll, if_neg fun h => hid h.1]

theorem mem_topologyHeaders_insertGraph :
    id ∈ (r.insertGraph graph).topologyHeaders ↔ id = graph.id ∨ id ∈ r.topologyHeaders := by
  unfold insertGraph
  split
  · constructor
    · exact .inr
    · rintro (rfl | h) <;> assumption
  · exact mem_insert

theorem GraphsSound.insertGraph (h : r.GraphsSound digest)
    (hd : digest graph.topology = some graph.id) : (r.insertGraph graph).GraphsSound digest := by
  intro id hid
  rw [restoreGraph_insertGraph]
  split
  · rename_i hcond
    exact ⟨_, rfl, hcond.1 ▸ hd⟩
  · rename_i hcond
    refine h id ?_
    rcases mem_topologyHeaders_insertGraph.mp hid with rfl | hid
    · exact not_not.mp fun hn => hcond ⟨rfl, hn⟩
    · exact hid

theorem insertGraphs_shape (graphs : List ArchivedImpactTopology) :
    ∃ headers nodes edges, r.insertGraphs graphs =
      { r with topologyHeaders := headers, topologyNodes := nodes, topologyEdges := edges } := by
  induction graphs generalizing r with
  | nil => exact ⟨_, _, _, rfl⟩
  | cons graph graphs ih =>
    obtain ⟨headers, nodes, edges, h⟩ := ih (r := r.insertGraph graph)
    refine ⟨headers, nodes, edges, ?_⟩
    rw [insertGraphs, foldl_cons, ← insertGraphs, h]
    unfold insertGraph
    split <;> rfl

theorem restoreGraph_insertGraphs
    (h : r.restoreGraph id = .ok t) : (r.insertGraphs graphs).restoreGraph id = .ok t := by
  induction graphs generalizing r with
  | nil => exact h
  | cons graph graphs ih =>
    refine ih ?_
    rw [restoreGraph_insertGraph, if_neg fun hn => hn.2 (mem_of_restoreGraph h), h]

theorem mem_topologyHeaders_insertGraphs :
    id ∈ (r.insertGraphs graphs).topologyHeaders ↔
      (∃ graph ∈ graphs, id = graph.id) ∨ id ∈ r.topologyHeaders := by
  induction graphs generalizing r with
  | nil => simp [insertGraphs]
  | cons graph graphs ih =>
    rw [insertGraphs, foldl_cons, ← insertGraphs, ih, mem_topologyHeaders_insertGraph,
      exists_mem_cons_iff, or_assoc, or_left_comm]

theorem GraphsSound.insertGraphs
    (h : r.GraphsSound digest) (hd : ∀ graph ∈ graphs, digest graph.topology = some graph.id) :
    (r.insertGraphs graphs).GraphsSound digest := by
  induction graphs generalizing r with
  | nil => exact h
  | cons graph graphs ih =>
    exact ih (h.insertGraph (hd graph mem_cons_self))
      fun graph' hg => hd graph' (mem_cons_of_mem graph hg)

end TransactionReportRecords

namespace ArchivedGraphs

def Sound (digest : TopologyDigest) (graphs : ArchivedGraphs) : Prop :=
  ∀ id t, graphs.lookup id = some t → digest t = some id

def Within (graphs graphs' : ArchivedGraphs) : Prop :=
  ∀ id t, graphs.lookup id = some t → graphs'.lookup id = some t

theorem mem_toList {graphs : ArchivedGraphs} :
    graph ∈ graphs.toList ↔ graphs.lookup graph.id = some graph.topology := by
  obtain ⟨id, topology⟩ := graph
  simp only [toList, mem_map, ArchivedImpactTopology.mk.injEq, Prod.exists, mem_ascending]
  constructor
  · rintro ⟨_, _, h, rfl, rfl⟩
    exact h
  · exact fun h => ⟨_, _, h, rfl, rfl⟩

end ArchivedGraphs

section archive
variable {digest : TopologyDigest} {graphs : ArchivedGraphs}

structure Archives {α σ : Type} (digest : TopologyDigest) (describes : σ → α → Prop)
    (graphIds : σ → List ImpactTopologyId) (graphs : ArchivedGraphs) (a : α)
    (r : σ × ArchivedGraphs) : Prop where
  describes : describes r.1 a
  stored : ∀ id ∈ graphIds r.1, ∃ t, r.2.lookup id = some t
  sound : graphs.Sound digest → r.2.Sound digest
  within : graphs.Within r.2

theorem archiveGraph_yields :
    (archiveGraph digest topology graphs).Yields
      (Archives digest (fun id t => digest t = some id) (fun id => [id]) graphs topology) := by
  unfold archiveGraph
  split
  · exact .error
  · rename_i id hd
    split
    · rename_i existing hl
      split
      · exact .error
      · refine .ok ⟨hd, fun id' hid => ?_, fun hs => hs, fun _ _ h => h⟩
        cases mem_singleton.mp hid
        exact ⟨existing, hl⟩
    · rename_i hl
      refine .ok ⟨hd, fun id' hid => ?_, fun hs id' t ht => ?_, fun id' t ht => ?_⟩
      · cases mem_singleton.mp hid
        exact ⟨topology, lookup_insert _⟩
      · rw [lookup_insert_eq] at ht
        split at ht
        · cases ht
          exact ‹_ = id› ▸ hd
        · exact hs id' t ht
      · rw [lookup_insert_of_ne, ht]
        rintro rfl
        cases hl.symm.trans ht

theorem archiveTopology_yields :
    (archive digest topology graphs).Yields
      (Archives digest (StoredAffectedTopology.Describes digest) (·.graphIds) graphs topology) := by
  refine .bind fun ⟨before, graphs₁⟩ h₁ => .bind fun ⟨after, graphs₂⟩ h₂ => .pure ?_
  have hb := archiveGraph_yields _ h₁
  have ha := archiveGraph_yields _ h₂
  refine ⟨⟨hb.describes, ha.describes⟩, fun id hid => ?_, fun hs => ha.sound (hb.sound hs),
    fun id t ht => ha.within id t (hb.within id t ht)⟩
  rcases mem_cons.mp hid with rfl | hid
  · obtain ⟨t, ht⟩ := hb.stored _ (mem_singleton.mpr rfl)
    exact ⟨t, ha.within _ t ht⟩
  · exact ha.stored id hid

theorem archiveStep_yields :
    (StoredExecutionStepImpactReport.archive digest step graphs).Yields
      (Archives digest (StoredExecutionStepImpactReport.Describes digest) (·.graphIds) graphs
        step) := by
  refine .bind fun ⟨planned, graphs₁⟩ h₁ => .bind fun ⟨actual, graphs₂⟩ h₂ => .pure ?_
  have hp := archiveTopology_yields _ h₁
  have ha := archiveTopology_yields _ h₂
  refine ⟨⟨_, _, hp.describes, ha.describes, rfl⟩, fun id hid => ?_,
    fun hs => ha.sound (hp.sound hs), fun id t ht => ha.within id t (hp.within id t ht)⟩
  rcases mem_append.mp hid with hid | hid
  · obtain ⟨t, ht⟩ := hp.stored id hid
    exact ⟨t, ha.within _ t ht⟩
  · exact ha.stored id hid

end archive

end Nervix.Consensus
