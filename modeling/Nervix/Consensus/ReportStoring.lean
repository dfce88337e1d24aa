import Nervix.Consensus.ReportReading

/-!
# Storing reports

The records of whole revisions, and what inserting an archive and replacing a step do to the
reports they stand for.
-/

namespace Nervix.Consensus

open Except (bind_eq_ok mapM_eq_ok)
open Finmap List
open StoredExecutionStepImpactReport (graphIds)

namespace TransactionReportRecords

variable {r r' : TransactionReportRecords} {digest : TopologyDigest}
  {identity : TransactionPreviewIdentity} {id : ImpactTopologyId}

structure Bounded (r : TransactionReportRecords) : Prop where
  operations : ∀ {identity i stored}, r.operations.lookup (identity, i) = some stored →
    ∃ header, r.headers.lookup identity = some header ∧ i < header.operationCount
  steps : ∀ {identity i stored}, r.executionSteps.lookup (identity, i) = some stored →
    ∃ header, r.headers.lookup identity = some header ∧ i < header.executionStepCount

structure Sound (digest : TopologyDigest) (r : TransactionReportRecords) : Prop
    extends r.Bounded where
  graphs : r.GraphsSound digest
  referred : ∀ {identity id}, r.RefersTo identity id → id ∈ r.topologyHeaders
  readable : ∀ {identity header}, r.headers.lookup identity = some header →
    ∃ report, r.report identity = .ok report
  indexed : ∀ {identity header}, r.headers.lookup identity = some header →
    ∃ identities, r.revisions.lookup identity.transactionId = some identities ∧
      identity ∈ identities
  revisions : ∀ {transactionId identities},
    r.revisions.lookup transactionId = some identities → identities ≠ [] ∧ identities.Nodup ∧
      ∀ identity ∈ identities, identity.transactionId = transactionId ∧ identity ∈ r.headers

structure Refines (digest : TopologyDigest) (r : TransactionReportRecords) (m : RetainedReports) :
    Prop where
  sound : r.Sound digest
  reads : ∀ identity report, m.lookup identity = some report ↔ r.report identity = .ok report

theorem header_of_report {report : TransactionImpactReport} (h : r.report identity = .ok report) :
    ∃ header, r.headers.lookup identity = some header := by
  obtain ⟨header, -, -, hh, -⟩ := report_eq_ok.mp h
  exact ⟨header, hh⟩

theorem Sound.report_of_keeps {report : TransactionImpactReport} (hs : r.Sound digest)
    (hk : r.Keeps r' identity) : r'.report identity = .ok report ↔ r.report identity = .ok report := by
  refine ⟨fun h => ?_, hk.report⟩
  obtain ⟨header, hh⟩ := header_of_report h
  obtain ⟨report', hr⟩ := hs.readable (hk.header.symm.trans hh)
  cases (hk.report hr).symm.trans h
  exact hr

theorem hasConsistentRevisionIndex_of_sound (hs : r.Sound digest) :
    r.hasConsistentRevisionIndex = true := by
  simp only [hasConsistentRevisionIndex, Bool.and_eq_true, decide_eq_true_eq]
  constructor
  · intro transactionId hid
    obtain ⟨identities, hl⟩ := mem_iff.mp (mem_keys.mp hid)
    obtain ⟨hne, hnodup, hall⟩ := hs.revisions hl
    simp only [hl, Option.any_some, Bool.and_eq_true, decide_eq_true_eq, all_eq_true]
    exact ⟨⟨by simpa using hne, hnodup⟩, hall⟩
  · intro identity hid
    obtain ⟨header, hl⟩ := mem_iff.mp (mem_keys.mp hid)
    obtain ⟨identities, hr, hmem⟩ := hs.indexed hl
    simpa [hr] using hmem

theorem sound_empty : empty.Sound digest where
  graphs _ h := absurd h notMem_empty
  operations h := nomatch h
  steps h := nomatch h
  referred := by
    rintro _ _ (⟨_, _, h, -⟩ | ⟨_, _, h, -⟩) <;> cases h
  readable h := nomatch h
  indexed h := nomatch h
  revisions h := nomatch h

theorem holdsAll_iff {κ σ : Type} [DecidableEq κ] [DecidableEq σ] {records : Records (κ × Nat) σ}
    {key : κ} {l : List σ} : holdsAll records key l = true ↔
      ∀ i stored, l[i]? = some stored → records.lookup (key, i) = some stored := by
  simp only [holdsAll, all_eq_true, decide_eq_true_eq, Prod.forall, mem_zipIdx_iff_getElem?]
  exact ⟨fun h i stored => h stored i, fun h stored i => h i stored⟩

structure Accepts (digest : TopologyDigest) (r : TransactionReportRecords)
    (archive : TransactionReportArchive) : Prop where
  operationCount : archive.header.operationCount = archive.operations.length
  stepCount : archive.header.executionStepCount = archive.executionSteps.length
  digests : ∀ graph ∈ archive.graphs, digest graph.topology = some graph.id
  available : ∀ id ∈ archive.graphIds,
    (∃ graph ∈ archive.graphs, id = graph.id) ∨ id ∈ r.topologyHeaders
  existing : ∀ header, r.headers.lookup archive.identity = some header →
    header = archive.header ∧ holdsAll r.operations archive.identity archive.operations = true ∧
      holdsAll r.executionSteps archive.identity archive.executionSteps = true

theorem foldlM_validateGraph {graphs : List ArchivedImpactTopology} :
    (graphs.foldlM (r.validateGraph digest) supplied).Yields fun supplied' =>
      (∀ graph ∈ graphs, digest graph.topology = some graph.id) ∧
        ∀ id ∈ supplied', (∃ graph ∈ graphs, id = graph.id) ∨ id ∈ supplied := by
  induction graphs generalizing supplied with
  | nil => exact .ok ⟨nofun, fun _ h => .inr h⟩
  | cons graph graphs ih =>
    refine .bind fun supplied₁ h₁ supplied' h' => ?_
    obtain ⟨hd, hs⟩ := ih supplied' h'
    have hgraph : digest graph.topology = some graph.id ∧
        supplied₁ = supplied.insert graph.id graph.topology := by
      unfold validateGraph at h₁
      split at h₁
      · cases h₁
      · rename_i hdigest
        refine ⟨not_not.mp hdigest, ?_⟩
        dsimp only at h₁
        repeat' split at h₁
        all_goals cases h₁
        all_goals rfl
    refine ⟨?_, fun id hid => ?_⟩
    · simpa using ⟨hgraph.1, hd⟩
    · rcases hs id hid with ⟨graph', hmem, he⟩ | hid
      · exact .inl ⟨graph', mem_cons_of_mem _ hmem, he⟩
      · rw [hgraph.2] at hid
        rcases mem_insert.mp hid with rfl | hid
        · exact .inl ⟨graph, mem_cons_self, rfl⟩
        · exact .inr hid

theorem accepts_of_validateArchive :
    (r.validateArchive digest archive).Yields fun _ => r.Accepts digest archive := by
  unfold validateArchive
  split
  · exact .error
  · rename_i hcounts
    push Not at hcounts
    refine .bind fun supplied hg => ?_
    obtain ⟨hd, hs⟩ := foldlM_validateGraph _ hg
    split
    · exact .error
    · rename_i havailable
      have havailable : ∀ id ∈ archive.graphIds, id ∈ supplied ∨ id ∈ r.topologyHeaders := by
        simpa [or_iff_not_imp_left] using havailable
      have hids : ∀ id ∈ archive.graphIds,
          (∃ graph ∈ archive.graphs, id = graph.id) ∨ id ∈ r.topologyHeaders := by
        intro id hid
        rcases havailable id hid with hmem | hmem
        · exact .inl ((hs id hmem).resolve_right notMem_empty)
        · exact .inr hmem
      split
      · rename_i hnone
        refine .ok ⟨hcounts.1, hcounts.2, hd, hids, fun header hl => ?_⟩
        cases hnone.symm.trans hl
      · rename_i existing hexisting
        split
        · rename_i hsame
          simp only [Bool.and_eq_true, decide_eq_true_eq] at hsame
          refine .ok ⟨hcounts.1, hcounts.2, hd, hids, fun header hl => ?_⟩
          cases hexisting.symm.trans hl
          exact ⟨hsame.1.1, hsame.1.2, hsame.2⟩
        · exact .error

section
variable (graphs : List ArchivedImpactTopology)
include graphs

@[simp] theorem headers_insertGraphs : (r.insertGraphs graphs).headers = r.headers := by
  obtain ⟨_, _, _, h⟩ := r.insertGraphs_shape graphs
  rw [h]

@[simp] theorem operations_insertGraphs : (r.insertGraphs graphs).operations = r.operations := by
  obtain ⟨_, _, _, h⟩ := r.insertGraphs_shape graphs
  rw [h]

@[simp] theorem executionSteps_insertGraphs :
    (r.insertGraphs graphs).executionSteps = r.executionSteps := by
  obtain ⟨_, _, _, h⟩ := r.insertGraphs_shape graphs
  rw [h]

@[simp] theorem revisions_insertGraphs : (r.insertGraphs graphs).revisions = r.revisions := by
  obtain ⟨_, _, _, h⟩ := r.insertGraphs_shape graphs
  rw [h]

end

section write
variable {archive : TransactionReportArchive}

theorem headers_write : (r.write archive).headers.lookup identity =
    if identity = archive.identity then some archive.header else r.headers.lookup identity := by
  simp only [write, headers_insertGraphs, lookup_insert_eq]

theorem operations_write : (r.write archive).operations.lookup (identity, i) =
    if identity = archive.identity ∧ i < archive.operations.length then archive.operations[i]?
    else r.operations.lookup (identity, i) := by
  simp only [write, operations_insertGraphs, lookup_insertAll]

theorem executionSteps_write : (r.write archive).executionSteps.lookup (identity, i) =
    if identity = archive.identity ∧ i < archive.executionSteps.length then
      archive.executionSteps[i]?
    else r.executionSteps.lookup (identity, i) := by
  simp only [write, executionSteps_insertGraphs, lookup_insertAll]

def revised (r : TransactionReportRecords) (identity : TransactionPreviewIdentity) :
    List TransactionPreviewIdentity :=
  match r.revisions.lookup identity.transactionId with
  | some identities => if identity ∈ identities then identities else identities ++ [identity]
  | none => [identity]

theorem revisions_write :
    (r.write archive).revisions.lookup transactionId =
      if transactionId = archive.identity.transactionId then some (r.revised archive.identity)
      else r.revisions.lookup transactionId := by
  simp only [write, revisions_insertGraphs, revised]
  cases hl : r.revisions.lookup archive.identity.transactionId with
  | none => exact lookup_insert_eq ..
  | some identities =>
    dsimp only
    split
    · split
      · rename_i he
        rw [he, hl]
      · rfl
    · exact lookup_insert_eq ..

theorem mem_revised : identity ∈ r.revised identity := by
  unfold revised
  split
  · split <;> simp [*]
  · exact mem_singleton.mpr rfl

theorem Accepts.keeps (ha : r.Accepts digest archive)
    (hi : identity = archive.identity → ∃ header, r.headers.lookup identity = some header) :
    r.Keeps (r.write archive) identity where
  header := by
    rw [headers_write]
    split
    · rename_i he
      obtain ⟨header, hl⟩ := hi he
      rw [hl, (ha.existing header (he ▸ hl)).1]
    · rfl
  operations i := by
    rw [operations_write]
    split
    · obtain ⟨rfl, hlt⟩ := ‹_ ∧ _›
      obtain ⟨header, hl⟩ := hi rfl
      obtain ⟨-, hops, -⟩ := ha.existing header hl
      rw [getElem?_eq_getElem hlt]
      exact (holdsAll_iff.mp hops i _ (getElem?_eq_getElem hlt)).symm
    · rfl
  steps i := by
    rw [executionSteps_write]
    split
    · obtain ⟨rfl, hlt⟩ := ‹_ ∧ _›
      obtain ⟨header, hl⟩ := hi rfl
      obtain ⟨-, -, hsteps⟩ := ha.existing header hl
      rw [getElem?_eq_getElem hlt]
      exact (holdsAll_iff.mp hsteps i _ (getElem?_eq_getElem hlt)).symm
    · rfl
  graphs id t _ hg := by
    exact restoreGraph_insertGraphs hg

section
variable (ha : r.Accepts digest archive) (hs : r.Sound digest)
include ha hs

theorem Accepts.operation_of_write
    (h : (r.write archive).operations.lookup (archive.identity, i) = some stored) :
    archive.operations[i]? = some stored := by
  rw [operations_write] at h
  split at h
  · exact h
  · rename_i hn
    obtain ⟨header, hl, hlt⟩ := hs.operations h
    rw [(ha.existing header hl).1, ha.operationCount] at hlt
    exact absurd ⟨rfl, hlt⟩ hn

theorem Accepts.step_of_write
    (h : (r.write archive).executionSteps.lookup (archive.identity, i) = some stored) :
    archive.executionSteps[i]? = some stored := by
  rw [executionSteps_write] at h
  split at h
  · exact h
  · rename_i hn
    obtain ⟨header, hl, hlt⟩ := hs.steps h
    rw [(ha.existing header hl).1, ha.stepCount] at hlt
    exact absurd ⟨rfl, hlt⟩ hn

theorem Accepts.referred_write
    (h : (r.write archive).RefersTo identity id) : id ∈ (r.write archive).topologyHeaders := by
  refine mem_topologyHeaders_insertGraphs.mpr ?_
  by_cases he : identity = archive.identity
  · subst he
    refine ha.available id ?_
    rcases h with ⟨i, stored, hl, hid⟩ | ⟨i, stored, hl, hid⟩
    · exact mem_append_left _ (mem_flatMap.mpr
        ⟨stored, mem_of_getElem? (ha.operation_of_write hs hl), hid⟩)
    · exact mem_append_right _ (mem_flatMap.mpr
        ⟨stored, mem_of_getElem? (ha.step_of_write hs hl), hid⟩)
  · have hk : r.Keeps (r.write archive) identity := ha.keeps fun h => absurd h he
    have href : r.RefersTo identity id := by
      rcases h with ⟨i, stored, hl, hid⟩ | ⟨i, stored, hl, hid⟩
      · exact .inl ⟨i, stored, (hk.operations i).symm.trans hl, hid⟩
      · exact .inr ⟨i, stored, (hk.steps i).symm.trans hl, hid⟩
    exact .inr (hs.referred href)

theorem Accepts.sound_write
    {report : TransactionImpactReport} (hr : (r.write archive).report archive.identity = .ok report) :
    (r.write archive).Sound digest where
  graphs := by
    intro id hid
    exact hs.graphs.insertGraphs ha.digests id hid
  operations := by
    intro identity i stored hl
    rw [headers_write]
    split
    · rename_i he
      subst he
      refine ⟨_, rfl, ?_⟩
      rw [ha.operationCount]
      exact (List.getElem?_eq_some_iff.mp (ha.operation_of_write hs hl)).1
    · rename_i he
      rw [operations_write, if_neg fun h => he h.1] at hl
      exact hs.operations hl
  steps := by
    intro identity i stored hl
    rw [headers_write]
    split
    · rename_i he
      subst he
      refine ⟨_, rfl, ?_⟩
      rw [ha.stepCount]
      exact (List.getElem?_eq_some_iff.mp (ha.step_of_write hs hl)).1
    · rename_i he
      rw [executionSteps_write, if_neg fun h => he h.1] at hl
      exact hs.steps hl
  referred := ha.referred_write hs
  readable := by
    intro identity header hl
    rw [headers_write] at hl
    split at hl
    · rename_i he
      exact ⟨report, he ▸ hr⟩
    · rename_i he
      obtain ⟨report', hr'⟩ := hs.readable hl
      exact ⟨report', (ha.keeps fun h => absurd h he).report hr'⟩
  indexed := by
    intro identity header hl
    rw [headers_write] at hl
    rw [revisions_write]
    split at hl
    · rename_i he
      subst he
      exact ⟨_, if_pos rfl, mem_revised⟩
    · obtain ⟨identities, hr, hmem⟩ := hs.indexed hl
      split
      · rename_i he
        refine ⟨_, rfl, ?_⟩
        unfold revised
        rw [he] at hr
        rw [hr]
        dsimp only
        split
        · exact hmem
        · exact mem_append_left _ hmem
      · exact ⟨identities, hr, hmem⟩
  revisions := by
    intro transactionId identities hl
    have hheaders : ∀ {identity}, identity ∈ r.headers → identity ∈ (r.write archive).headers := by
      intro identity h
      obtain ⟨header, hh⟩ := mem_iff.mp h
      rw [mem_iff, headers_write]
      split
      · exact ⟨_, rfl⟩
      · exact ⟨header, hh⟩
    have hwritten : archive.identity ∈ (r.write archive).headers :=
      mem_iff.mpr ⟨archive.header, headers_write.trans (if_pos rfl)⟩
    rw [revisions_write] at hl
    split at hl
    · rename_i he
      subst he
      cases hl
      unfold revised
      split
      · rename_i identities hl
        obtain ⟨hne, hnodup, hall⟩ := hs.revisions hl
        have hold : ∀ identity ∈ identities, identity.transactionId = archive.identity.transactionId
            ∧ identity ∈ (r.write archive).headers := fun identity hi =>
          ⟨(hall identity hi).1, hheaders (hall identity hi).2⟩
        split
        · exact ⟨hne, hnodup, hold⟩
        · rename_i hnew
          refine ⟨by simp, ?_, fun identity hi => ?_⟩
          · rw [nodup_append]
            refine ⟨hnodup, nodup_singleton _, ?_⟩
            rintro a ha _ hb rfl
            cases mem_singleton.mp hb
            exact hnew ha
          · rcases mem_append.mp hi with hi | hi
            · exact hold identity hi
            · cases mem_singleton.mp hi
              exact ⟨rfl, hwritten⟩
      · refine ⟨cons_ne_nil _ _, nodup_singleton _, fun identity hi => ?_⟩
        cases mem_singleton.mp hi
        exact ⟨rfl, hwritten⟩
    · obtain ⟨hne, hnodup, hall⟩ := hs.revisions hl
      exact ⟨hne, hnodup, fun identity hi => ⟨(hall identity hi).1, hheaders (hall identity hi).2⟩⟩

end

theorem GraphsSound.topology {stored : StoredAffectedTopology} {topology : AffectedTopology}
    (hs : r.GraphsSound digest) (h : r.restoreTopology stored = .ok topology) :
    stored.Describes digest topology := by
  have hgraph : ∀ {id t}, r.restoreGraph id = .ok t → digest t = some id := by
    intro id t ht
    obtain ⟨t', ht', hd⟩ := hs id (mem_of_restoreGraph ht)
    cases ht.symm.trans ht'
    exact hd
  obtain ⟨hb, ha⟩ := restoreTopology_eq_ok.mp h
  exact ⟨hgraph hb, hgraph ha⟩

theorem forall₂_of_readAll {κ σ α : Type} [DecidableEq κ] {records : Records (κ × Nat) σ} {key : κ}
    {missing : Nat → TransactionReportReadError} {read : σ → Except TransactionReportReadError α}
    {stored : List σ} {l : List α} {R : σ → α → Prop}
    (h : readAll records key missing read stored.length = .ok l)
    (hstored : ∀ i e, records.lookup (key, i) = some e → stored[i]? = some e)
    (hread : ∀ e a, read e = .ok a → R e a) : List.Forall₂ R stored l := by
  obtain ⟨hl, h⟩ := readAll_eq_ok.mp h
  refine forall₂_iff_get.mpr ⟨hl.symm, fun i h₁ h₂ => ?_⟩
  obtain ⟨e, he, hr⟩ := h i _ (getElem?_eq_getElem h₂)
  obtain ⟨_, rfl⟩ := List.getElem?_eq_some_iff.mp (hstored i e he)
  exact hread _ _ hr

theorem Accepts.describes (ha : r.Accepts digest archive) (hs : r.Sound digest)
    {report : TransactionImpactReport}
    (hr : (r.write archive).report archive.identity = .ok report) :
    archive.Describes digest report := by
  have hgraphs := (ha.sound_write hs hr).graphs
  obtain ⟨header, operations, steps, hh, ho, hst, hn⟩ := report_eq_ok.mp hr
  rw [headers_write, if_pos rfl] at hh
  cases hh
  rw [ha.operationCount] at ho
  rw [ha.stepCount] at hst
  exact ⟨operations, steps,
    forall₂_of_readAll ho (fun _ _ => ha.operation_of_write hs) fun _ _ h => by
      obtain ⟨topology, ht, rfl⟩ := restoreOperation_eq_ok.mp h
      exact ⟨topology, hgraphs.topology ht, rfl⟩,
    forall₂_of_readAll hst (fun _ _ => ha.step_of_write hs) fun _ _ h => by
      obtain ⟨planned, actual, hp, ha, rfl⟩ := restoreStep_eq_ok.mp h
      exact ⟨planned, actual, hgraphs.topology hp, hgraphs.topology ha, rfl⟩, hn⟩

theorem checked_eq_ok : r.checked identity = .ok r' ↔
    r' = r ∧ ∃ report, r.report identity = .ok report := by
  unfold checked
  split <;> simp [*, eq_comm]

theorem insert_yields {m : RetainedReports} (h : r.Refines digest m) :
    (r.insert digest archive).Yields fun r' =>
      ∃ m', m.Step digest (.insert archive) m' ∧ r'.Refines digest m' := by
  refine .bind fun _ hv r' hc => ?_
  have ha := accepts_of_validateArchive _ hv
  obtain ⟨rfl, report, hr⟩ := checked_eq_ok.mp hc
  refine ⟨_, .inserted (ha.describes h.sound hr), ha.sound_write h.sound hr, fun identity x => ?_⟩
  rw [lookup_insert_eq]
  split
  · rename_i he
    subst he
    rw [hr]
    simp
  · rename_i he
    rw [h.sound.report_of_keeps (ha.keeps fun hn => absurd hn he)]
    exact h.reads identity x

end write

def withStep (r : TransactionReportRecords) (graphs : List ArchivedImpactTopology)
    (identity : TransactionPreviewIdentity) (index : Nat)
    (stored : StoredExecutionStepImpactReport) : TransactionReportRecords :=
  { r.insertGraphs graphs with
    executionSteps := r.executionSteps.insert (identity, index) stored }

section replace
variable {graphs : List ArchivedImpactTopology} {index : Nat}
  {stored : StoredExecutionStepImpactReport} {header : TransactionReportHeader}
  {other : TransactionPreviewIdentity}

theorem executionSteps_withStep :
    (r.withStep graphs identity index stored).executionSteps.lookup (other, i) =
      if other = identity ∧ i = index then some stored
      else r.executionSteps.lookup (other, i) := by
  simp only [withStep, lookup_insert_eq, Prod.mk.injEq]

theorem keeps_withStep (h : other ≠ identity) :
    r.Keeps (r.withStep graphs identity index stored) other where
  header := by simp only [withStep, headers_insertGraphs]
  operations i := by simp only [withStep, operations_insertGraphs]
  steps i := by rw [executionSteps_withStep, if_neg fun hn => h hn.1]
  graphs id t _ hg := by
    exact restoreGraph_insertGraphs hg

structure Fits (digest : TopologyDigest) (r : TransactionReportRecords)
    (identity : TransactionPreviewIdentity) (graphs : List ArchivedImpactTopology) (index : Nat)
    (stored : StoredExecutionStepImpactReport) : Prop where
  header : ∃ header, r.headers.lookup identity = some header ∧ index < header.executionStepCount
  digests : ∀ graph ∈ graphs, digest graph.topology = some graph.id
  available : ∀ id ∈ stored.graphIds, ∃ graph ∈ graphs, id = graph.id

theorem Fits.sound {report : TransactionImpactReport}
    (hf : r.Fits digest identity graphs index stored) (hs : r.Sound digest)
    (hr : (r.withStep graphs identity index stored).report identity = .ok report) :
    (r.withStep graphs identity index stored).Sound digest where
  graphs id hid := by
    exact hs.graphs.insertGraphs hf.digests id hid
  operations := by
    intro other i e hl
    simp only [withStep, headers_insertGraphs, operations_insertGraphs] at hl ⊢
    exact hs.operations hl
  steps := by
    intro other i e hl
    rw [executionSteps_withStep] at hl
    simp only [withStep, headers_insertGraphs]
    split at hl
    · obtain ⟨rfl, rfl⟩ := ‹_ ∧ _›
      exact hf.header
    · exact hs.steps hl
  referred := by
    intro other id href
    refine mem_topologyHeaders_insertGraphs.mpr ?_
    rcases href with ⟨i, e, hl, hid⟩ | ⟨i, e, hl, hid⟩
    · simp only [withStep, operations_insertGraphs] at hl
      exact .inr (hs.referred (.inl ⟨i, e, hl, hid⟩))
    · rw [executionSteps_withStep] at hl
      split at hl
      · cases hl
        exact .inl (hf.available id hid)
      · exact .inr (hs.referred (.inr ⟨i, e, hl, hid⟩))
  readable := by
    intro other header hl
    by_cases ho : other = identity
    · exact ⟨report, ho ▸ hr⟩
    · simp only [withStep, headers_insertGraphs] at hl
      obtain ⟨report', hr'⟩ := hs.readable hl
      exact ⟨report', (keeps_withStep ho).report hr'⟩
  indexed := by
    intro other header hl
    simp only [withStep, headers_insertGraphs, revisions_insertGraphs] at hl ⊢
    exact hs.indexed hl
  revisions := by
    intro transactionId identities hl
    simp only [withStep, headers_insertGraphs, revisions_insertGraphs] at hl ⊢
    exact hs.revisions hl

theorem restoreStep_of_describes (hs : r.GraphsSound digest)
    (hfree : digest.CollisionFree) (hd : stored.Describes digest impact)
    (hids : ∀ id ∈ stored.graphIds, id ∈ r.topologyHeaders) :
    r.restoreStep stored = .ok impact := by
  have hgraph : ∀ {id t}, digest t = some id → id ∈ stored.graphIds → r.restoreGraph id = .ok t := by
    intro id t ht hid
    obtain ⟨t', hr, hd'⟩ := hs id (hids id hid)
    cases hfree _ _ _ ht hd'
    exact hr
  obtain ⟨planned, actual, hp, ha, rfl⟩ := hd
  refine restoreStep_eq_ok.mpr ⟨planned, actual, ?_, ?_, rfl⟩
  · exact restoreTopology_eq_ok.mpr ⟨hgraph hp.before (by
      simp [graphIds, StoredAffectedTopology.graphIds]),
      hgraph hp.after (by
        simp [graphIds, StoredAffectedTopology.graphIds])⟩
  · exact restoreTopology_eq_ok.mpr ⟨hgraph ha.before (by
      simp [graphIds, StoredAffectedTopology.graphIds]),
      hgraph ha.after (by
        simp [graphIds, StoredAffectedTopology.graphIds])⟩

theorem stepIndex_eq_findIdx {operations : TransactionOperationRange}
    {steps : List ExecutionStepImpactReport}
    (hsteps : readAll r.executionSteps identity .missingExecutionStep r.restoreStep
      header.executionStepCount = .ok steps) :
    r.stepIndex identity header operations =
      steps.findIdx? fun step => step.operations = operations := by
  obtain ⟨hlen, h⟩ := readAll_eq_ok.mp hsteps
  have hstep : ∀ i (hi : i < steps.length),
      ((r.executionSteps.lookup (identity, i)).any fun step => step.report.operations = operations) =
        decide (steps[i].operations = operations) := by
    intro i hi
    obtain ⟨e, hl, hr⟩ := h i _ (getElem?_eq_getElem hi)
    obtain ⟨planned, actual, -, -, hr⟩ := restoreStep_eq_ok.mp hr
    rw [hl, Option.any_some, hr]
    rfl
  refine Option.ext fun i => ?_
  simp only [stepIndex, find?_range_eq_some, findIdx?_eq_some_iff_getElem, mem_range, ← hlen]
  constructor
  · rintro ⟨hp, hi, hj⟩
    refine ⟨hi, by simpa [hstep i hi] using hp, fun j hji => ?_⟩
    simpa [hstep j (hji.trans hi)] using hj j hji
  · rintro ⟨hi, hp, hj⟩
    refine ⟨by simpa [hstep i hi] using hp, hi, fun j hji => ?_⟩
    simpa [hstep j (hji.trans hi)] using hj j hji

theorem Fits.replaceStep {impact : ExecutionStepImpactReport}
    {report report' : TransactionImpactReport} (hf : r.Fits digest identity graphs index stored)
    (hs : r.Sound digest) (hfree : digest.CollisionFree) (hd : stored.Describes digest impact)
    (hl : r.headers.lookup identity = some header)
    (hindex : r.stepIndex identity header impact.operations = some index)
    (hr : r.report identity = .ok report)
    (hr' : (r.withStep graphs identity index stored).report identity = .ok report') :
    report.replaceStep impact = some report' := by
  obtain ⟨header₁, operations, steps, hl₁, ho, hsteps, hn⟩ := report_eq_ok.mp hr
  obtain ⟨header₂, operations', steps', hl₂, ho', hsteps', hn'⟩ := report_eq_ok.mp hr'
  cases hl.symm.trans hl₁
  rw [withStep, headers_insertGraphs] at hl₂
  cases hl.symm.trans hl₂
  obtain rfl : operations' = operations := by
    refine Except.ok.inj (ho'.symm.trans (readAll_mono ho (fun i _ => ?_)
      fun i e _ _ => restoreOperation_mono fun id _ t hg => ?_))
    · simp only [withStep, operations_insertGraphs]
    · exact (restoreGraph_congr rfl (fun _ => rfl) fun _ => rfl).trans (restoreGraph_insertGraphs hg)
  obtain rfl : steps' = steps.set index impact := by
    obtain ⟨hlen, h⟩ := readAll_eq_ok.mp hsteps
    refine Except.ok.inj (hsteps'.symm.trans
      (readAll_eq_ok.mpr ⟨by simpa using hlen, fun i a ha => ?_⟩))
    rw [getElem?_set] at ha
    rw [executionSteps_withStep]
    split at ha
    · rename_i hi
      subst hi
      split at ha
      · cases ha
        refine ⟨stored, if_pos ⟨rfl, rfl⟩,
          restoreStep_of_describes (hf.sound hs hr').graphs hfree hd fun id hid => ?_⟩
        exact mem_topologyHeaders_insertGraphs.mpr (.inl (hf.available id hid))
      · cases ha
    · rename_i hi
      obtain ⟨e, hl, hrestore⟩ := h i a ha
      exact ⟨e, (if_neg fun hn => hi hn.2.symm).trans hl,
        restoreStep_mono (fun id _ t hg => restoreGraph_insertGraphs hg) hrestore⟩
  obtain ⟨_, -, hn⟩ := Except.bind_eq_ok.mp hn
  obtain ⟨_, -, hn⟩ := Except.bind_eq_ok.mp hn
  cases hn
  unfold TransactionImpactReport.replaceStep
  rw [← stepIndex_eq_findIdx hsteps, hindex]
  simp only [Option.bind_eq_bind, Option.bind_some, hn']
  rfl

end replace

structure Replaces (digest : TopologyDigest) (r : TransactionReportRecords)
    (identity : TransactionPreviewIdentity) (impact : ExecutionStepImpactReport)
    (header : TransactionReportHeader) (graphs : List ArchivedImpactTopology) (index : Nat)
    (stored : StoredExecutionStepImpactReport) : Prop where
  revision : r.headers.lookup identity = some header
  found : r.stepIndex identity header impact.operations = some index
  describes : stored.Describes digest impact
  fits : r.Fits digest identity graphs index stored
  readable : ∃ report, (r.withStep graphs identity index stored).report identity = .ok report

theorem replaces_of_replaceExecutionStep :
    (r.replaceExecutionStep digest identity impact).Yields fun r' =>
      ∃ header graphs index stored, r.Replaces digest identity impact header graphs index stored ∧
        r' = r.withStep graphs identity index stored := by
  unfold replaceExecutionStep
  split
  · exact .error
  · rename_i header hl
    split
    · exact .error
    · rename_i index hindex
      split
      · exact .error
      · rename_i stored graphs harchive
        intro r' hc
        obtain ⟨rfl, hr⟩ := checked_eq_ok.mp hc
        rw [executionSteps_insertGraphs, ← withStep] at hr ⊢
        have ha := archiveStep_yields _ harchive
        refine ⟨header, _, index, stored, ⟨hl, hindex, ha.describes, ?_, hr⟩, rfl⟩
        refine ⟨⟨header, hl, ?_⟩, fun graph hg => ?_, fun id hid => ?_⟩
        · exact mem_range.mp (mem_of_find?_eq_some hindex)
        · exact ha.sound nofun _ _ (ArchivedGraphs.mem_toList.mp hg)
        · obtain ⟨t, ht⟩ := ha.stored id hid
          exact ⟨⟨id, t⟩, ArchivedGraphs.mem_toList.mpr ht, rfl⟩

theorem replaceExecutionStep_yields (h : r.Refines digest m) (hfree : digest.CollisionFree) :
    (r.replaceExecutionStep digest identity impact).Yields fun r' =>
      ∃ report report', m.lookup identity = some report ∧ report.replaceStep impact = some report' ∧
        r'.Refines digest (m.insert identity report') := by
  intro r' hrep
  obtain ⟨header, graphs, index, stored, hs, rfl⟩ := replaces_of_replaceExecutionStep r' hrep
  obtain ⟨report', hr'⟩ := hs.readable
  obtain ⟨report, hr⟩ := h.sound.readable hs.revision
  refine ⟨report, report', (h.reads identity report).mpr hr,
    hs.fits.replaceStep h.sound hfree hs.describes hs.revision hs.found hr hr',
    hs.fits.sound h.sound hr', fun other x => ?_⟩
  rw [lookup_insert_eq]
  split
  · rename_i he
    subst he
    rw [hr']
    simp
  · rename_i he
    rw [h.sound.report_of_keeps (keeps_withStep he)]
    exact h.reads other x

theorem failExecutionStep_cases :
    (r.failExecutionStep digest identity operation error).Yields fun r' =>
      ∃ report step, r.report identity = .ok report ∧
        report.executionSteps.find? (fun step => step.operations.contains operation) = some step ∧
        (r.replaceExecutionStep digest identity (step.failed operation error) = .ok r' ∨
          step.failed operation error = step ∧ r' = r) := by
  unfold failExecutionStep
  split
  · exact .error
  · rename_i report hr
    split
    · exact .error
    · split
      · exact .error
      · rename_i step hstep
        dsimp only
        split
        · exact fun r' hrep => ⟨report, step, hr, hstep, .inl hrep⟩
        · rename_i retained ho
          split
          · rename_i hretained
            subst hretained
            refine .ok ⟨report, step, hr, hstep, .inr ⟨?_, rfl⟩⟩
            unfold ExecutionStepImpactReport.failed
            rw [← ho]
          · exact .error
        · exact .error
        · exact .error

theorem failExecutionStep_yields (h : r.Refines digest m) (hfree : digest.CollisionFree) :
    (r.failExecutionStep digest identity operation error).Yields fun r' =>
      ∃ m', m.Step digest (.failExecutionStep identity operation error) m' ∧
        r'.Refines digest m' := by
  intro r' hf
  obtain ⟨report, step, hr, hstep, hrep | ⟨hsame, rfl⟩⟩ := failExecutionStep_cases r' hf
  · obtain ⟨report₁, report', hl, hrs, href⟩ := replaceExecutionStep_yields h hfree r' hrep
    cases ((h.reads identity report).mpr hr).symm.trans hl
    exact ⟨_, .failed hl hstep hrs, href⟩
  · exact ⟨m, .failedBefore ((h.reads identity report).mpr hr) hstep hsame, h⟩

end TransactionReportRecords

end Nervix.Consensus
