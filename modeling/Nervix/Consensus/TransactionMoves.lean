import Nervix.Consensus.Transition
import Nervix.Consensus.ReportRemoval

/-!
# How stored transactions move

What a command does to one stored transaction and the operations that it issues on the report
records with it. The commands that are about no transaction leave both as they are.
-/

namespace Nervix.Consensus

open List

def TransactionReportRecords.performAll (digest : TopologyDigest) (r : TransactionReportRecords)
    (operations : List ReportOperation) :
    Except TransactionReportStoreError TransactionReportRecords :=
  operations.foldlM (perform digest) r

def ReplicatedTransaction.retainLatest (t : ReplicatedTransaction) : List ReportOperation :=
  t.latestPreview.toList.map .retainRevision

open ReplicatedTransaction in
inductive Moves (env : Environment) (s : StateMachineData) (id : TransactionId)
    (t : ReplicatedTransaction) :
    ConsensusCommand → ConsensusResponse → ReplicatedTransaction → List ReportOperation → Prop
  | touched {owner activity response t'} : t.Touches env.sourceDigest s.revision t' →
      Moves env s id t (.touchTransaction id owner activity) response t' []
  | ended {c response t'} : c.transactionId = some id → t.Ends env.sourceDigest s.revision t' →
      Moves env s id t c response t' t'.retainLatest
  | queued {owner domain activity statement report limits current response} :
      t.Accepts current domain statement → report.identity.transactionId = id →
      report.domain = domain → report.identity.position = t.statements.length + 1 →
      Moves env s id t
        (.queueTransactionStatement id owner domain activity statement report limits) response
        ((t.append current activity statement).setLatestPreview report.identity)
        [.insert report]
  | stale {c report expected} : c.transactionId = some id → c.currentReport = some report →
      report.identity.transactionId = id →
      Moves env s id t c (.transaction (.error (.previewStale expected report.identity)))
        (t.setLatestPreview report.identity)
        [.insert report, .retainRevision report.identity]
  | admitted {owner activity report plan current at_ lease response} : t.state = .open current →
      StateMachineData.isCommitPlanOf env id t report plan = true → s.Admits t lease →
      Moves env s id t (.startTransactionCommit id owner activity report.identity report plan)
        response (t.committing at_ lease ⟨report.identity, plan.decision.steps.length⟩)
        [.insert report, .retainRevision report.identity]
  | failed {failure current at_ failingStep response} : failure.id = id → t.state = .open current →
      failingStep < t.statements.length → failure.report.identity.transactionId = id →
      Moves env s id t (.failTransactionCommitAdmission failure) response
        ((t.setLatestPreview failure.report.identity).finish env.sourceDigest at_ s.revision
          (.failed failingStep failure.error) [])
        [.insert failure.report,
          .failExecutionStep failure.report.identity failure.operation failure.error,
          .retainRevision failure.report.identity]
  | begun {first next observedAt result effect completion progress at_ preview response} :
      s.validateStep t progress.nextStatement ⟨s.revision, next, result, effect, completion⟩ =
        .ok () →
      t.Begins progress ⟨s.revision, next, result, effect, completion⟩ →
      t.latestPreview = some preview →
      Moves env s id t
        (.advanceTransactionCommit id first next observedAt result effect completion) response
        { t with state := .committing { progress with
          lastActivityAt := at_
          applying := some ⟨s.revision, next, result, effect, completion⟩ } }
        [.replaceExecutionStep preview result.impact]
  | completed {first observedAt actual outcome progress applying at_ preview response} :
      t.state = .committing progress → progress.applying = some applying →
      t.latestPreview = some preview →
      Moves env s id t (.completeTransactionApplication id first observedAt actual outcome)
        response (t.complete env.sourceDigest progress applying at_ s.revision actual outcome.error)
        (.replaceExecutionStep preview (completedResult applying actual outcome.error).impact ::
          if (t.complete env.sourceDigest progress applying at_ s.revision actual
            outcome.error).state.isLive then [] else [.retainRevision preview])

structure PlansKept (s s' : StateMachineData) (id : TransactionId) : Prop where
  header : s'.transactionCommitPlans.headers.lookup id = s.transactionCommitPlans.headers.lookup id
  steps : ∀ i, s'.transactionCommitPlans.steps.lookup (id, i) =
    s.transactionCommitPlans.steps.lookup (id, i)

inductive TransactionChange (env : Environment) (s : StateMachineData) :
    ConsensusCommand → ConsensusResponse → StateMachineData → Prop
  | same {c response s'} : s'.transactions = s.transactions →
      s'.transactionReports = s.transactionReports →
      s'.transactionCommitPlans = s.transactionCommitPlans → TransactionChange env s c response s'
  | opened {t limit response s'} : s.transactions.lookup t.id = none →
      s'.transactions = s.transactions.insert t.id t →
      s'.transactionReports = s.transactionReports →
      s'.transactionCommitPlans = s.transactionCommitPlans →
      TransactionChange env s (.openTransaction t limit) response s'
  | moved {c id t t' operations response s'} : s.transactions.lookup id = some t →
      Moves env s id t c response t' operations → s'.transactions = s.transactions.insert id t' →
      s.transactionReports.performAll env.topologyDigest operations = .ok s'.transactionReports →
      (∀ id', (id' = id → ∀ current, t.state ≠ .open current) → PlansKept s s' id') →
      TransactionChange env s c response s'
  | removed {finishedBefore response s'} : s' = (s.removeFinishedTransactions finishedBefore).1 →
      TransactionChange env s (.removeFinishedTransactions finishedBefore) response s'

theorem PlansKept.of_eq {s s' : StateMachineData} {id : TransactionId}
    (h : s'.transactionCommitPlans = s.transactionCommitPlans) : PlansKept s s' id :=
  ⟨by rw [h], fun _ => by rw [h]⟩

theorem TransactionCommitPlanRecords.insert_yields {r : TransactionCommitPlanRecords} :
    (r.insert plan).Yields fun r' =>
      r'.headers = r.headers.insert plan.decision.preview.transactionId plan.recordHeader ∧
        r'.steps = r.steps.insertAll plan.decision.preview.transactionId plan.recordSteps := by
  unfold TransactionCommitPlanRecords.insert
  dsimp only
  repeat' split
  all_goals first
    | exact .error
    | exact .ok ⟨rfl, rfl⟩

namespace StateMachineData

variable {env : Environment} {s : StateMachineData}

theorem preview_of_isCommitPlanOf {id : TransactionId} {t : ReplicatedTransaction}
    {report : TransactionReportArchive} {plan : TransactionCommitAdmissionPlan}
    (h : isCommitPlanOf env id t report plan = true) :
    report.identity.transactionId = id ∧ plan.decision.preview = report.identity := by
  simp only [isCommitPlanOf, Bool.and_eq_true, decide_eq_true_eq] at h
  tauto

end StateMachineData

theorem performAll_cons {r r' : TransactionReportRecords} :
    r.performAll digest (operation :: operations) = .ok r' ↔
      ∃ r₁, r.perform digest operation = .ok r₁ ∧ r₁.performAll digest operations = .ok r' := by
  simp only [TransactionReportRecords.performAll, foldlM_cons, Except.bind_eq_ok]

open StateMachineData TransactionReportRecords in
theorem TransactionStep.change {env : Environment} {s : StateMachineData} {c : ConsensusCommand}
    {a : Applied} (h : TransactionStep env s c a) :
    TransactionChange env s c a.response a.state := by
  cases h with
  | answered => exact .same rfl rfl rfl
  | opened hl => exact .opened hl rfl rfl rfl
  | touched hl ht => exact .moved hl (.touched ht) rfl rfl fun _ _ => .of_eq rfl
  | @ended _ id t t' hc hl he =>
    obtain ⟨reports, hr⟩ := s.retainLatestPreview_shape t'
    refine .moved hl (.ended hc he) ?_ ?_ fun _ _ => .of_eq ?_
    · rw [storeTransaction, hr]
    · unfold ReplicatedTransaction.retainLatest retainLatestPreview
      cases t'.latestPreview <;> rfl
    · rw [storeTransaction, hr]
  | queued hl ha hi hd hp hr =>
    exact .moved hl (.queued ha hi hd hp) rfl (performAll_cons.mpr ⟨_, hr, rfl⟩) fun _ _ => .of_eq rfl
  | stale hc hcr hl _ hi hr =>
    exact .moved hl (.stale hc hcr hi) rfl (performAll_cons.mpr ⟨_, hr, rfl⟩) fun _ _ => .of_eq rfl
  | admitted hl ho hp _ ha hr hplan =>
    refine .moved hl (.admitted ho hp ha) rfl (performAll_cons.mpr ⟨_, hr, rfl⟩) fun id' hid => ?_
    obtain ⟨hheaders, hsteps⟩ := TransactionCommitPlanRecords.insert_yields _ hplan
    have hne : id' ≠ _ := fun he => hid he _ ho
    obtain ⟨hi, hpreview⟩ := preview_of_isCommitPlanOf hp
    rw [hpreview, hi] at hheaders hsteps
    refine ⟨?_, fun i => ?_⟩
    · rw [storeTransaction, hheaders, Finmap.lookup_insert_of_ne _ hne]
    · rw [storeTransaction, hsteps, Finmap.lookup_insertAll, if_neg fun h => hne h.1]
  | failed hl ho hs hi hr hf =>
    refine .moved hl (.failed rfl ho hs hi) rfl ?_ fun _ _ => .of_eq rfl
    exact performAll_cons.mpr ⟨_, hr, performAll_cons.mpr ⟨_, hf, rfl⟩⟩
  | @begun _ _ _ _ _ effect _ t _ _ _ _ reports hl _ _ _ _ hv hb hp hr =>
    obtain ⟨_, _, _, _, -, h⟩ :=
      applyStep_shape { s with transactionReports := reports } t.domain effect
    rw [storeTransaction, h]
    exact .moved hl (.begun hv hb hp) rfl (performAll_cons.mpr ⟨_, hr, rfl⟩) fun _ _ => .of_eq rfl
  | @completed _ _ _ actual outcome t progress applying at_ restored preview reports hl _ _ hs ha hp
      hr =>
    obtain ⟨schedule, h⟩ :=
      putBackSchedule_shape { s with transactionReports := reports } t.domain restored
    rw [storeTransaction, h, releaseFinished]
    split
    all_goals
      refine .moved hl (.completed hs ha hp) rfl (performAll_cons.mpr ⟨_, hr, ?_⟩) fun _ _ => .of_eq rfl
      simp only [TransactionState.isLive, *]
      rfl

theorem Transition.change (h : Transition env s c s' response) :
    TransactionChange env s c response s' := by
  cases h with
  | conflict | error | unchanged | altered | admitted | acquired | released | finished | reclaimed
  | recorded => exact .same rfl rfl rfl
  | domain h =>
    obtain ⟨_, _, _, _, _, _, _, rfl⟩ | ⟨_, -, -, rfl⟩ | ⟨_, _, _, _, -, -, -, rfl⟩ := h.shape <;>
      exact .same rfl rfl rfl
  | transaction h => exact h.change
  | restored _ _ _ _ h =>
    obtain ⟨_, _, _, _, rfl⟩ := h.shape
    exact .same rfl rfl rfl
  | removed => exact .removed rfl

def ReplicatedTransaction.Linked (t : ReplicatedTransaction)
    (identities : List TransactionPreviewIdentity) : Prop :=
  match t.latestPreview with
  | some preview => preview ∈ identities
  | none => identities = []

section moves
variable {env : Environment} {s : StateMachineData} {id : TransactionId}
  {t t' : ReplicatedTransaction} {c : ConsensusCommand} {operations : List ReportOperation}
  {r : TransactionReportRecords} {response : ConsensusResponse}

open TransactionReportRecords ReplicatedTransaction

theorem ReplicatedTransaction.Ends.latestPreview
    (h : t.Ends digest revision t') : t'.latestPreview = t.latestPreview := by
  cases h <;> rfl

theorem ReplicatedTransaction.Touches.latestPreview
    (h : t.Touches digest revision t') : t'.latestPreview = t.latestPreview := by
  cases h <;> rfl

theorem performAll_nil : r.performAll digest [] = .ok r' ↔ r' = r := by
  simp [performAll, pure, Except.pure, eq_comm]

structure RevisionsAt (digest : TopologyDigest) (r : TransactionReportRecords)
    (id : TransactionId) (identities : List TransactionPreviewIdentity)
    (r' : TransactionReportRecords) : Prop where
  sound : r'.Sound digest
  own : r'.revisionsOf id = identities
  others : ∀ id' ≠ id, r'.revisionsOf id' = r.revisionsOf id'

section performs
variable {digest : TopologyDigest} {r₀ r r' : TransactionReportRecords}
  {identities : List TransactionPreviewIdentity} {preview : TransactionPreviewIdentity}

section
variable (h : RevisionsAt digest r₀ id identities r)
include h

theorem RevisionsAt.insert {report : TransactionReportArchive} (hid : report.identity.transactionId = id)
    (hp : r.perform digest (.insert report) = .ok r') :
    RevisionsAt digest r₀ id (addRevision identities report.identity) r' := by
  obtain ⟨hs, hr⟩ := insert_sound h.sound r' hp
  refine ⟨hs, ?_, fun id' hne => ?_⟩
  · rw [hr, if_pos hid.symm, h.own]
  · rw [hr, if_neg fun he => hne (he.trans hid), h.others id' hne]

theorem RevisionsAt.replace
    (hp : r.perform digest (.replaceExecutionStep preview impact) = .ok r') :
    RevisionsAt digest r₀ id identities r' := by
  obtain ⟨hs, hr⟩ := replaceExecutionStep_sound h.sound r' hp
  exact ⟨hs, (hr id).trans h.own, fun id' hne => (hr id').trans (h.others id' hne)⟩

theorem RevisionsAt.fail
    (hp : r.perform digest (.failExecutionStep preview operation error) = .ok r') :
    RevisionsAt digest r₀ id identities r' := by
  obtain ⟨hs, hr⟩ := failExecutionStep_sound h.sound r' hp
  exact ⟨hs, (hr id).trans h.own, fun id' hne => (hr id').trans (h.others id' hne)⟩

theorem RevisionsAt.retain
    (hmem : preview ∈ identities) (hp : r.perform digest (.retainRevision preview) = .ok r') :
    RevisionsAt digest r₀ id [preview] r' := by
  cases hp
  obtain ⟨hs, hr⟩ := retainRevision_sound preview h.sound
  have hid : preview.transactionId = id := (h.sound.mem_revisionsOf.mp (h.own ▸ hmem)).1
  refine ⟨hs, ?_, fun id' hne => ?_⟩
  · rw [hr, if_pos (h.own ▸ hmem)]
  · rw [hr, if_neg fun hn => hne ((h.sound.mem_revisionsOf.mp hn).1.symm.trans hid),
      h.others id' hne]

theorem RevisionsAt.insert_retain {report : TransactionReportArchive} (hid : report.identity.transactionId = id)
    (hp : r.performAll digest [.insert report, .retainRevision report.identity] = .ok r') :
    RevisionsAt digest r₀ id [report.identity] r' := by
  obtain ⟨r₁, h₁, hp⟩ := performAll_cons.mp hp
  obtain ⟨r₂, h₂, hp⟩ := performAll_cons.mp hp
  cases performAll_nil.mp hp
  exact (h.insert hid h₁).retain mem_addRevision h₂

end

end performs

theorem Moves.revisions (hm : Moves env s id t c response t' operations)
    (hs : s.transactionReports.Sound env.topologyDigest)
    (hlink : t.Linked (s.transactionReports.revisionsOf id))
    (hp : s.transactionReports.performAll env.topologyDigest operations = .ok r) :
    ∃ identities, RevisionsAt env.topologyDigest s.transactionReports id identities r ∧
      t'.Linked identities ∧ (t'.state.isLive = true ∨ identities = t'.latestPreview.toList ∨
        (∃ owner activity, c = .touchTransaction id owner activity) ∧
          identities = s.transactionReports.revisionsOf id) := by
  have hstart : RevisionsAt env.topologyDigest s.transactionReports id
      (s.transactionReports.revisionsOf id) s.transactionReports := ⟨hs, rfl, fun _ _ => rfl⟩
  cases hm with
  | touched ht =>
    cases performAll_nil.mp hp
    refine ⟨_, hstart, ?_, .inr (.inr ⟨⟨_, _, rfl⟩, rfl⟩)⟩
    rw [Linked, ht.latestPreview]
    exact hlink
  | ended _ he =>
    unfold ReplicatedTransaction.retainLatest at hp
    unfold Linked at hlink
    rw [he.latestPreview] at hp
    unfold Linked
    rw [he.latestPreview]
    cases hl : t.latestPreview with
    | none =>
      rw [hl] at hp hlink
      cases performAll_nil.mp hp
      exact ⟨_, hstart, hlink, .inr (.inl hlink)⟩
    | some preview =>
      rw [hl] at hp hlink
      obtain ⟨r₁, h₁, hp⟩ := performAll_cons.mp hp
      cases performAll_nil.mp hp
      exact ⟨_, hstart.retain hlink h₁, mem_singleton.mpr rfl, .inr (.inl rfl)⟩
  | queued ha hid =>
    obtain ⟨r₁, h₁, hp⟩ := performAll_cons.mp hp
    cases performAll_nil.mp hp
    exact ⟨_, hstart.insert hid h₁, mem_addRevision, .inl rfl⟩
  | stale _ _ hid =>
    exact ⟨_, hstart.insert_retain hid hp, mem_singleton.mpr rfl, .inr (.inl rfl)⟩
  | admitted _ hplan =>
    exact ⟨_, hstart.insert_retain (StateMachineData.preview_of_isCommitPlanOf hplan).1 hp,
      mem_singleton.mpr rfl, .inl rfl⟩
  | failed _ _ _ hid =>
    obtain ⟨r₁, h₁, hp⟩ := performAll_cons.mp hp
    obtain ⟨r₂, h₂, hp⟩ := performAll_cons.mp hp
    obtain ⟨r₃, h₃, hp⟩ := performAll_cons.mp hp
    cases performAll_nil.mp hp
    exact ⟨_, ((hstart.insert hid h₁).fail h₂).retain mem_addRevision h₃,
      mem_singleton.mpr rfl, .inr (.inl rfl)⟩
  | begun _ _ hl =>
    obtain ⟨r₁, h₁, hp⟩ := performAll_cons.mp hp
    cases performAll_nil.mp hp
    exact ⟨_, hstart.replace h₁, hlink, .inl rfl⟩
  | @completed _ _ _ _ progress applying at_ preview _ hstate happly hl =>
    obtain ⟨r₁, h₁, hp⟩ := performAll_cons.mp hp
    have hmem : preview ∈ s.transactionReports.revisionsOf id := by
      rw [Linked, hl] at hlink
      exact hlink
    unfold Linked
    rw [latestPreview_complete, hl]
    split at hp
    · rename_i hlive
      cases performAll_nil.mp hp
      exact ⟨_, hstart.replace h₁, hmem, .inl hlive⟩
    · obtain ⟨r₂, h₂, hp⟩ := performAll_cons.mp hp
      cases performAll_nil.mp hp
      exact ⟨_, (hstart.replace h₁).retain hmem h₂, mem_singleton.mpr rfl, .inr (.inl rfl)⟩

end moves

end Nervix.Consensus
