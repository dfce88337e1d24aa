import Nervix.Consensus.Apply

/-!
# What a transaction command can do

Every way an accepted transaction command leaves the replicated state, with what it checked before.
Invariants of runs are shown against these cases; the handlers are not unfolded again.
-/

namespace Nervix.Consensus

open Except (ensure_bind_eq_ok ensure_eq_ok mapError_eq_ok)

namespace StateMachineData

variable {s : StateMachineData} {domain : DomainName} {u : Unit}

theorem validateDomainPlanningInputs_eq_ok :
    s.validateDomainPlanningInputs inputs = .ok u ↔
      s.domainPlanningInputs inputs.domain = inputs := by
  unfold validateDomainPlanningInputs
  simp only [ensure_bind_eq_ok, ensure_eq_ok]
  obtain ⟨parameters, domain, state, resources, schedule, ⟨members, voters, cordoned⟩⟩ := inputs
  simp only [domainPlanningInputs, DomainPlanningInputs.mk.injEq, scheduleTopologyInputs,
    ScheduleTopologyInputs.mk.injEq]
  tauto

theorem transaction_eq_ok {id : TransactionId} {t : ReplicatedTransaction} :
    s.transaction id = .ok t ↔ s.transactions.lookup id = some t := by
  unfold transaction
  split <;> simp [*]

def Admits (s : StateMachineData) (t : ReplicatedTransaction) : Option DomainMutationLease → Prop
  | none => t.requiresDomainMutation = false
  | some lease => t.requiresDomainMutation = true ∧ lease.owner = t.mutationOwner ∧
      (s.domainMutations.lookup t.domain = some lease ∨
        s.domainMutations.lookup t.domain = none ∧ lease = ⟨t.mutationOwner, s.revision⟩)

theorem admits_of_commitLease : (s.commitLease t).Yields (s.Admits t) := by
  unfold commitLease
  split
  · rename_i hr
    dsimp only
    split
    · rename_i lease h
      exact .ok ⟨hr, DomainMutationAdmission.intoAdmitted_decide.mp h⟩
    · exact .error
  · rename_i hr
    exact .ok (by simpa [Admits] using hr)

end StateMachineData

namespace StateMachineData

variable (s : StateMachineData) (domain : DomainName)

theorem replaceDomainSchedule_shape (schedule : Option DomainSchedule) :
    ∃ schedule', s.replaceDomainSchedule domain schedule = { s with schedule := schedule' } := by
  cases schedule with
  | none => exact ⟨_, rfl⟩
  | some _ => exact ⟨_, rfl⟩

theorem putBackSchedule_shape (restored : Option (Option DomainSchedule)) :
    ∃ schedule, s.putBackSchedule domain restored = { s with schedule := schedule } := by
  cases restored with
  | none => exact ⟨_, rfl⟩
  | some schedule => exact s.replaceDomainSchedule_shape domain schedule

theorem moveClockAuthority_shape (state : DomainState) (owner : Option ClusterNodeIdentity) :
    ∃ authorities, s.moveClockAuthority state domain owner =
      { s with domainClockAuthorities := authorities } := by
  unfold moveClockAuthority
  split <;> exact ⟨_, rfl⟩

theorem commitDomainStart_shape (start : DomainStartPoint) (clock : Option DomainClockState)
    (authority : Option ClusterNodeIdentity) :
    ∃ domains authorities, (s.commitDomainStart domain start clock authority).1 =
      { s with domains := domains, domainClockAuthorities := authorities } := by
  unfold commitDomainStart
  split
  · exact ⟨_, _, rfl⟩
  · dsimp only
    obtain ⟨authorities, h⟩ := moveClockAuthority_shape _ _ _ _
    exact ⟨_, authorities, h⟩

theorem commitDomainStop_shape : ∃ domains authorities, (s.commitDomainStop domain).1 =
    { s with domains := domains, domainClockAuthorities := authorities } := by
  unfold commitDomainStop
  split
  · exact ⟨_, _, rfl⟩
  · dsimp only
    obtain ⟨authorities, h⟩ := moveClockAuthority_shape _ _ _ _
    exact ⟨_, authorities, h⟩

theorem applyStep_shape (effect : Option TransactionStepEffect) :
    ∃ domains schedule authorities resources,
      (resources = s.resources ∨ ∃ d identifier, resources = s.resources.ensureCatalog d identifier) ∧
      (s.applyStep domain effect).1 = { s with
        domains := domains
        schedule := schedule
        domainClockAuthorities := authorities
        resources := resources } := by
  cases effect with
  | none => exact ⟨_, _, _, _, .inl rfl, rfl⟩
  | some effect =>
    cases effect with
    | replaceDomainSchedule inputs schedule =>
      obtain ⟨schedule', h⟩ := s.replaceDomainSchedule_shape inputs.domain schedule
      exact ⟨_, schedule', _, _, .inl rfl, h⟩
    | putDomainAndSchedule inputs next schedule =>
      obtain ⟨schedule', h⟩ := (s.putDomain next).replaceDomainSchedule_shape next.id schedule
      exact ⟨_, schedule', _, _, .inl rfl, h⟩
    | startDomain inputs start clock authority =>
      obtain ⟨domains, authorities, h⟩ :=
        s.commitDomainStart_shape inputs.domain start clock authority
      exact ⟨domains, _, authorities, _, .inl rfl, h⟩
    | stopDomain inputs =>
      obtain ⟨domains, authorities, h⟩ := s.commitDomainStop_shape inputs.domain
      exact ⟨domains, _, authorities, _, .inl rfl, h⟩
    | createResourceCatalog inputs identifier => exact ⟨_, _, _, _, .inr ⟨_, _, rfl⟩, rfl⟩
    | resetWasmState inputs reset request schedule => exact ⟨_, _, _, _, .inl rfl, rfl⟩

theorem retainLatestPreview_shape (t : ReplicatedTransaction) :
    ∃ reports, s.retainLatestPreview t = { s with transactionReports := reports } := by
  unfold retainLatestPreview
  split <;> exact ⟨_, rfl⟩

theorem completed_shape (restored : Option (Option DomainSchedule)) (t : ReplicatedTransaction)
    (lease : Option DomainMutationLease) (preview : TransactionPreviewIdentity) :
    ∃ schedule leases reports, (s.putBackSchedule domain restored).releaseFinished t lease preview =
      { s with schedule := schedule, domainMutations := leases, transactionReports := reports } := by
  obtain ⟨schedule, h⟩ := s.putBackSchedule_shape domain restored
  rw [h]
  unfold releaseFinished
  split <;> exact ⟨schedule, _, _, rfl⟩

end StateMachineData

namespace ReplicatedTransaction

variable {digest : SourceDigest} {revision : Nat} {t t' : ReplicatedTransaction}

inductive Ends (digest : SourceDigest) (revision : Nat) (t : ReplicatedTransaction) :
    ReplicatedTransaction → Prop
  | expired {activity at_} : t.state = .open activity → activity.isInactiveAt at_ = true →
      t.Ends digest revision (t.finish digest at_ revision .expired [])
  | reverted {activity at_} : t.state = .open activity →
      t.Ends digest revision (t.finish digest at_ revision .reverted [])
  | emptied {progress at_} : t.state = .committing progress → t.statements = [] →
      progress.nextStatement = 0 → progress.applying = none →
      t.Ends digest revision (t.finish digest at_ revision .committed [])

variable {at_ : Timestamp}

theorem ends_of_expire (h : t.expire digest at_ revision = some t') :
    t.Ends digest revision t' := by
  unfold expire at h
  split at h
  · split at h
    · cases h
      exact .expired ‹_› ‹_›
    · cases h
  all_goals cases h

variable {activity : TransactionActivity}

theorem ends_of_expireOpenIfInactive
    (h : t.expireOpenIfInactive digest activity revision = .expired t') :
    t.Ends digest revision t' ∧ ∃ current, t.state = .open current ∧
      t' = t.finish digest activity.lastActivityAt revision .expired [] ∧
      current.isInactiveAt activity.lastActivityAt = true := by
  unfold expireOpenIfInactive at h
  split at h
  · split at h
    · cases h
      exact ⟨.expired ‹_› ‹_›, _, ‹_›, rfl, ‹_›⟩
    · cases h
  all_goals cases h

theorem open_of_expireOpenIfInactive
    (h : t.expireOpenIfInactive digest activity revision = .active current) :
    t.state = .open current := by
  unfold expireOpenIfInactive at h
  split at h
  · split at h
    · cases h
    · cases h
      assumption
  all_goals cases h

def append (t : ReplicatedTransaction) (current activity : TransactionActivity)
    (statement : TransactionStatement) : ReplicatedTransaction :=
  { t with
    state := .open (current.renew activity)
    statementCount := t.statementCount + 1
    queuedSourceBytes := t.queuedSourceBytes + statement.request.sourceBytes
    statements := t.statements ++ [statement] }

structure Accepts (t : ReplicatedTransaction) (current : TransactionActivity) (domain : DomainName)
    (statement : TransactionStatement) : Prop where
  state : t.state = .open current
  domain : t.domain = domain
  fresh : ∀ e ∈ t.statements, e.request.requestReference ≠ statement.request.requestReference
  position : statement.request.expectedPosition = t.statements.length
  bytes : t.queuedSourceBytes + statement.request.sourceBytes < 2 ^ 64

variable {owner : UserName}

theorem accepts_of_queueAdmission {domain : DomainName}
    {statement : TransactionStatement} {limits : TransactionQueueLimits}
    {current : TransactionActivity} (ho : t.state = .open current) :
    (t.queueAdmission digest owner domain statement.request limits).Yields
      fun admission => admission = .new → t.Accepts current domain statement := by
  refine .bind fun _ _ => .bind fun _ hd => ?_
  have hdomain : t.domain = domain := by
    unfold ensureDomain at hd
    split at hd <;> [assumption; cases hd]
  split
  · rename_i answer h
    unfold repeatedAppend at h
    rw [ho] at h
    split at h
    · cases h
      split
      · exact .ok nofun
      · exact .error
    · cases h
  · rename_i h
    have hfresh : ∀ e ∈ t.statements,
        e.request.requestReference ≠ statement.request.requestReference := by
      unfold repeatedAppend at h
      split at h
      · cases h
      · rename_i hf
        intro e he
        simpa using List.find?_eq_none.mp hf e he
    rw [ho]
    dsimp only
    split <;> [exact .error; skip]
    split <;> [exact .error; skip]
    split
    · rename_i hp _ hb
      exact .ok fun _ => ⟨ho, hdomain, hfresh, not_not.mp hp, hb.1⟩
    · exact .error

theorem queue_yields {domain : DomainName}
    {statement : TransactionStatement} {limits : TransactionQueueLimits} :
    (t.queue digest owner domain activity revision statement limits).Yields fun r =>
      (r.1 = .expired ∧ t.Ends digest revision r.2) ∨ r = (.existing, t) ∨
        ∃ current, t.Accepts current domain statement ∧
          r = (.added, t.append current activity statement) := by
  refine .bind fun _ _ => .bind fun _ _ => ?_
  split
  · exact .error
  · rename_i h
    exact .ok (.inl ⟨rfl, (ends_of_expireOpenIfInactive h).1⟩)
  · rename_i current h
    have ho := open_of_expireOpenIfInactive h
    refine .bind fun admission ha => ?_
    cases admission with
    | existing _ => exact .ok (.inr (.inl rfl))
    | new => exact .ok (.inr (.inr ⟨current, accepts_of_queueAdmission ho _ ha rfl, rfl⟩))

def committing (t : ReplicatedTransaction) (lastActivityAt : Timestamp)
    (lease : Option DomainMutationLease) (plan : TransactionCommitPlanHeader) :
    ReplicatedTransaction :=
  { t with
    latestPreview := some plan.preview
    commitPlan := some plan
    state := .committing {
      lastActivityAt := lastActivityAt
      nextStatement := 0
      results := []
      applying := none
      domainMutation := lease } }

theorem startCommit_yields (hn : t.expire digest activity.lastActivityAt revision = none) :
    (t.startCommit digest owner activity revision lease plan).Yields fun t' =>
      ∃ current at_, t.state = .open current ∧ t' = t.committing at_ lease plan := by
  refine .bind fun _ _ => ?_
  split
  · exact .error
  · rename_i h
    obtain ⟨-, current, ho, -, hi⟩ := ends_of_expireOpenIfInactive h
    simp [expire, ho, hi] at hn
  · rename_i current h
    exact .ok ⟨current, _, open_of_expireOpenIfInactive h, rfl⟩

theorem failCommitAdmission_yields :
    (t.failCommitAdmission digest owner activity revision preview failingStep error).Yields fun r =>
      r = (.existing, t) ∨ (r.1 = .expired ∧ t.Ends digest revision r.2) ∨
        ∃ current at_, t.state = .open current ∧ failingStep < t.statements.length ∧
          r = (.failed, (t.setLatestPreview preview).finish digest at_ revision
            (.failed failingStep error) []) := by
  refine .bind fun _ _ => ?_
  split
  · exact .ok (.inl rfl)
  · split
    · exact .error
    · rename_i h
      exact .ok (.inr (.inl ⟨rfl, (ends_of_expireOpenIfInactive h).1⟩))
    · rename_i current h
      split
      · exact .error
      · rename_i hs
        exact .ok (.inr (.inr
          ⟨current, _, open_of_expireOpenIfInactive h, Nat.lt_of_not_le hs, rfl⟩))

inductive Touches (digest : SourceDigest) (revision : Nat) (t : ReplicatedTransaction) :
    ReplicatedTransaction → Prop
  | renewed {current renewed} : t.state = .open current →
      t.Touches digest revision { t with state := .open renewed }
  | expired {current at_} : t.state = .open current → current.isInactiveAt at_ = true →
      t.Touches digest revision (t.finish digest at_ revision .expired [])
  | committing {progress lastActivityAt} : t.state = .committing progress →
      t.Touches digest revision
        { t with state := .committing { progress with lastActivityAt := lastActivityAt } }

theorem touch_yields :
    (t.touch digest owner activity revision).Yields (t.Touches digest revision) := by
  refine .bind fun _ _ => ?_
  split
  · split
    · exact .error
    · rename_i h
      obtain ⟨-, current, ho, rfl, hi⟩ := ends_of_expireOpenIfInactive h
      exact .ok (.expired ho hi)
    · rename_i current h
      exact .ok (.renewed (open_of_expireOpenIfInactive h))
  · exact .ok (.committing ‹_›)
  · exact .error

theorem revert_yields :
    (t.revert digest owner activity revision).Yields (t.Ends digest revision) := by
  refine .bind fun _ _ => ?_
  split
  · exact .error
  · rename_i h
    exact .ok (ends_of_expireOpenIfInactive h).1
  · rename_i current h
    exact .ok (.reverted (open_of_expireOpenIfInactive h))

theorem finishEmptyCommit_yields :
    (t.finishEmptyCommit digest at_ revision).Yields (t.Ends digest revision) := by
  unfold finishEmptyCommit
  split
  · exact .error
  · exact .error
  · rename_i progress h
    split
    · exact .error
    · rename_i hp
      push Not at hp
      exact .ok (.emptied h hp.1 hp.2.1 (by simpa using hp.2.2))

structure Begins (t : ReplicatedTransaction) (progress : TransactionCommitProgress)
    (requested : TransactionApplyingStep) : Prop where
  state : t.state = .committing progress
  idle : progress.applying = none
  advances : progress.nextStatement < requested.nextStatement
  inside : requested.nextStatement ≤ t.statements.length
  first : requested.result.firstStatement = progress.nextStatement
  count : requested.result.statementCount = requested.nextStatement - progress.nextStatement

variable {progress : TransactionCommitProgress}

theorem beginApplication_yields (hs : t.state = .committing progress)
    (hn : ∀ current, progress.applying = some current → current ≠ requested) :
    (t.beginApplication first at_ requested).Yields fun t' =>
      t.Begins progress requested ∧ first = progress.nextStatement ∧
        t' = { t with state := .committing { progress with
          lastActivityAt := max progress.lastActivityAt at_, applying := some requested } } := by
  unfold beginApplication
  rw [hs]
  dsimp only
  split <;> [exact .error; skip]
  rename_i hfirst
  have hfirst : progress.nextStatement = first := not_not.mp hfirst
  subst hfirst
  split
  · rename_i current hc
    split
    · exact absurd ‹_› (hn current hc)
    · exact .error
  · rename_i hidle
    split <;> [exact .error; skip]
    rename_i hrange
    split <;> [exact .error; skip]
    rename_i hresult
    push Not at hrange hresult
    exact .ok ⟨⟨hs, hidle, hrange.1, hrange.2, hresult.1, hresult.2⟩, rfl, rfl⟩

def completion (applying : TransactionApplyingStep) (first : Nat) (failure : Option String) :
    Option TransactionOutcome :=
  match failure with
  | some error => some (.failed first error)
  | none => applying.completion

def complete (digest : SourceDigest) (t : ReplicatedTransaction)
    (progress : TransactionCommitProgress) (applying : TransactionApplyingStep)
    (lastActivityAt : Timestamp) (revision : Nat) (actual : ActualExecutionStepImpact)
    (failure : Option String) : ReplicatedTransaction :=
  let results := progress.results ++ [completedResult applying actual failure]
  match completion applying progress.nextStatement failure with
  | some outcome => t.finish digest lastActivityAt revision outcome results
  | none => { t with state := .committing { progress with
      lastActivityAt := lastActivityAt
      nextStatement := applying.nextStatement
      results := results
      applying := none } }

variable {actual : ActualExecutionStepImpact} {failure : Option String}

theorem completeApplication_yields :
    (t.completeApplication digest first at_ revision actual failure).Yields fun t' =>
      ∃ progress applying lastActivityAt, t.state = .committing progress ∧
        progress.applying = some applying ∧ first = progress.nextStatement ∧
        t' = t.complete digest progress applying lastActivityAt revision actual failure := by
  unfold completeApplication
  split
  · exact .error
  · exact .error
  · rename_i progress hs
    split <;> [exact .error; skip]
    rename_i hfirst
    have hfirst : progress.nextStatement = first := not_not.mp hfirst
    subst hfirst
    split
    · exact .error
    · rename_i applying ha
      split <;> [exact .error; skip]
      refine fun t' h => ⟨progress, applying, max progress.lastActivityAt at_, hs, ha, rfl, ?_⟩
      unfold complete completion
      cases failure with
      | some error => exact (Except.ok.inj h).symm
      | none =>
        dsimp only at h ⊢
        split at h
        · rename_i outcome hc
          simp only [hc]
          exact (Except.ok.inj h).symm
        · rename_i hc
          simp only [hc]
          exact (Except.ok.inj h).symm

theorem latestPreview_complete :
    (t.complete digest progress applying lastActivityAt revision actual failure).latestPreview =
      t.latestPreview := by
  unfold complete
  split <;> rfl

theorem commitResults_complete :
    (t.complete digest progress applying lastActivityAt revision actual failure).commitResults =
      progress.results ++ [completedResult applying actual failure] := by
  unfold complete
  split <;> rfl

end ReplicatedTransaction

def ConsensusCommand.transactionId : ConsensusCommand → Option TransactionId
  | .queueTransactionStatement id _ _ _ _ _ _ | .touchTransaction id _ _
  | .startTransactionCommit id _ _ _ _ _ | .advanceTransactionCommit id _ _ _ _ _ _
  | .completeTransactionApplication id _ _ _ _ | .finishEmptyTransactionCommit id _
  | .revertTransaction id _ _ | .expireTransaction id _ => some id
  | .failTransactionCommitAdmission failure => some failure.id
  | _ => none

def ConsensusCommand.currentReport : ConsensusCommand → Option TransactionReportArchive
  | .startTransactionCommit _ _ _ _ report _ => some report
  | .failTransactionCommitAdmission failure => some failure.report
  | _ => none

open ReplicatedTransaction in
inductive TransactionStep (env : Environment) (s : StateMachineData) :
    ConsensusCommand → Applied → Prop
  | answered {c id t} : c.transactionId = some id → s.transactions.lookup id = some t →
      TransactionStep env s c (s.answerTransaction t)
  | opened {t limit} : s.transactions.lookup t.id = none →
      s.transactions.count (·.state.isLive) < limit →
      TransactionStep env s (.openTransaction t limit) (s.storeTransaction t.id t {})
  | touched {id owner activity t t'} : s.transactions.lookup id = some t →
      t.Touches env.sourceDigest s.revision t' →
      TransactionStep env s (.touchTransaction id owner activity) (s.storeTransaction id t' {})
  | ended {c id t t'} : c.transactionId = some id → s.transactions.lookup id = some t →
      t.Ends env.sourceDigest s.revision t' →
      TransactionStep env s c ((s.retainLatestPreview t').storeTransaction id t' {})
  | queued {id owner domain activity statement report limits t current reports} :
      s.transactions.lookup id = some t → t.Accepts current domain statement →
      report.identity.transactionId = id → report.domain = domain →
      report.identity.position = t.statements.length + 1 →
      s.transactionReports.insert env.topologyDigest report = .ok reports →
      TransactionStep env s
        (.queueTransactionStatement id owner domain activity statement report limits)
        ({ s with transactionReports := reports }.storeTransaction id
          ((t.append current activity statement).setLatestPreview report.identity) {})
  | stale {c id t expected report reports} : c.transactionId = some id →
      c.currentReport = some report → s.transactions.lookup id = some t → expected ≠ report.identity →
      report.identity.transactionId = id →
      s.transactionReports.insert env.topologyDigest report = .ok reports →
      TransactionStep env s c ⟨{ s with
          transactionReports := reports.retainRevision report.identity
          transactions := s.transactions.insert id (t.setLatestPreview report.identity) },
        .transaction (.error (.previewStale expected report.identity)),
        { transactionsChanged := true }⟩
  | admitted {id owner activity report plan t current at_ lease reports plans} :
      s.transactions.lookup id = some t → t.state = .open current →
      StateMachineData.isCommitPlanOf env id t report plan = true →
      (∀ inputs, plan.inputs.head? = some inputs → s.domainPlanningInputs inputs.domain = inputs) →
      s.Admits t lease → s.transactionReports.insert env.topologyDigest report = .ok reports →
      s.transactionCommitPlans.insert plan = .ok plans →
      TransactionStep env s
        (.startTransactionCommit id owner activity report.identity report plan)
        ({ s with
          transactionReports := reports.retainRevision report.identity
          transactionCommitPlans := plans
          domainMutations :=
            match lease with
            | some lease => s.domainMutations.insert t.domain lease
            | none => s.domainMutations }.storeTransaction id
          (t.committing at_ lease ⟨report.identity, plan.decision.steps.length⟩) {})
  | failed {failure t current at_ failingStep reports reports'} :
      s.transactions.lookup failure.id = some t → t.state = .open current →
      failingStep < t.statements.length → failure.report.identity.transactionId = failure.id →
      s.transactionReports.insert env.topologyDigest failure.report = .ok reports →
      reports.failExecutionStep env.topologyDigest failure.report.identity failure.operation
        failure.error = .ok reports' →
      TransactionStep env s (.failTransactionCommitAdmission failure)
        ({ s with
          transactionReports := reports'.retainRevision failure.report.identity }.storeTransaction
            failure.id ((t.setLatestPreview failure.report.identity).finish env.sourceDigest at_
              s.revision (.failed failingStep failure.error) []) {})
  | begun {id first next observedAt result effect completion t progress at_ admitted preview
        reports} :
      s.transactions.lookup id = some t → s.validateTransactionDomainMutation t = .ok () →
      s.transactionCommitPlans.step id progress.results.length = .ok admitted →
      admitted.decision.impact.operations = result.impact.operations →
      admitted.matchesEffect result.result.success effect = true →
      s.validateStep t progress.nextStatement ⟨s.revision, next, result, effect, completion⟩ =
        .ok () →
      t.Begins progress ⟨s.revision, next, result, effect, completion⟩ →
      t.latestPreview = some preview →
      s.transactionReports.replaceExecutionStep env.topologyDigest preview result.impact =
        .ok reports →
      TransactionStep env s
        (.advanceTransactionCommit id first next observedAt result effect completion)
        ((({ s with transactionReports := reports }.applyStep t.domain effect).1).storeTransaction
          id
          { t with state := .committing { progress with
            lastActivityAt := at_
            applying := some ⟨s.revision, next, result, effect, completion⟩ } }
          ({ s with transactionReports := reports }.applyStep t.domain effect).2)
  | completed {id first observedAt actual outcome t progress applying at_ restored preview
        reports} :
      s.transactions.lookup id = some t → s.validateTransactionDomainMutation t = .ok () →
      s.restoredSchedule t outcome = .ok restored → t.state = .committing progress →
      progress.applying = some applying → t.latestPreview = some preview →
      s.transactionReports.replaceExecutionStep env.topologyDigest preview
        (completedResult applying actual outcome.error).impact = .ok reports →
      TransactionStep env s
        (.completeTransactionApplication id first observedAt actual outcome)
        ((({ s with transactionReports := reports }.putBackSchedule t.domain
          restored).releaseFinished
            (t.complete env.sourceDigest progress applying at_ s.revision actual outcome.error)
            t.domainMutation preview).storeTransaction id
          (t.complete env.sourceDigest progress applying at_ s.revision actual outcome.error)
          { scheduleChanged := restored.isSome })

theorem TransactionStep.command (h : TransactionStep env s c a) :
    (∃ id, c.transactionId = some id) ∨ ∃ t limit, c = .openTransaction t limit := by
  cases h with
  | opened => exact .inr ⟨_, _, rfl⟩
  | answered hc | ended hc | stale hc => exact .inl ⟨_, hc⟩
  | touched | queued | admitted | failed | begun | completed => exact .inl ⟨_, rfl⟩

theorem TransactionStep.shape (h : TransactionStep env s c a) :
    ∃ domains schedule authorities resources leases transactions plans reports, a.state = { s with
      domains := domains
      schedule := schedule
      domainClockAuthorities := authorities
      resources := resources
      domainMutations := leases
      transactions := transactions
      transactionCommitPlans := plans
      transactionReports := reports } := by
  cases h with
  | answered | opened | touched | queued | stale | failed | admitted =>
    exact ⟨_, _, _, _, _, _, _, _, rfl⟩
  | @ended _ _ _ t' =>
    obtain ⟨reports, h⟩ := s.retainLatestPreview_shape t'
    simp only [StateMachineData.storeTransaction, h]
    exact ⟨_, _, _, _, _, _, _, _, rfl⟩
  | @begun _ _ _ _ _ effect _ t _ _ _ _ reports =>
    obtain ⟨_, _, _, _, -, h⟩ :=
      StateMachineData.applyStep_shape { s with transactionReports := reports } t.domain effect
    simp only [StateMachineData.storeTransaction, h]
    exact ⟨_, _, _, _, _, _, _, _, rfl⟩
  | completed =>
    simp only [StateMachineData.storeTransaction]
    obtain ⟨_, _, _, h⟩ := StateMachineData.completed_shape _ _ _ _ _ _
    rw [h]
    exact ⟨_, _, _, _, _, _, _, _, rfl⟩

namespace StateMachineData

variable {env : Environment} {s : StateMachineData} {id : TransactionId}

variable {activity : TransactionActivity} {report : TransactionReportArchive}

theorem queueTransactionStatement_yields {owner : UserName} {domain : DomainName} {statement : TransactionStatement} {limits : TransactionQueueLimits} :
    (s.queueTransactionStatement env id owner domain activity statement report limits).Yields
      (TransactionStep env s
        (.queueTransactionStatement id owner domain activity statement report limits)) := by
  refine .bind fun t hl => .bind fun r hq => ?_
  have hl := transaction_eq_ok.mp hl
  obtain ⟨hr, he⟩ | rfl | ⟨current, ha, rfl⟩ := ReplicatedTransaction.queue_yields r hq
  · obtain ⟨decision, t'⟩ := r
    subst hr
    exact .pure (.ended rfl hl he)
  · exact .pure (.answered rfl hl)
  · refine .ensure_bind fun hi => .mapError_bind fun reports hr => .pure ?_
    exact .queued hl ha hi.1 hi.2.1 (by simpa [ReplicatedTransaction.append] using hi.2.2) hr

theorem endTransaction_yields {c : ConsensusCommand} (hc : c.transactionId = some id)
    (hm : ∀ t, (mutation t).Yields (t.Ends env.sourceDigest s.revision)) :
    (s.endTransaction id mutation).Yields (TransactionStep env s c) := by
  refine .bind fun t hl => .bind fun t' ht => .pure ?_
  exact .ended hc (transaction_eq_ok.mp hl) (hm t t' ht)

theorem expireTransaction_yields {observedAt : Timestamp} :
    (s.expireTransaction env id observedAt).Yields
      (TransactionStep env s (.expireTransaction id observedAt)) := by
  refine .bind fun t hl => ?_
  have hl := transaction_eq_ok.mp hl
  split
  · exact .pure (.ended rfl hl (ReplicatedTransaction.ends_of_expire ‹_›))
  · exact .pure (.answered rfl hl)

theorem refuseStalePreview_yields (hc : c.transactionId = some id) (hl : s.transactions.lookup id = some t)
    (hcr : c.currentReport = some report) (hx : expected ≠ report.identity) (hi : report.identity.transactionId = id) :
    (s.refuseStalePreview env id t expected report).Yields (TransactionStep env s c) := by
  exact .mapError_bind fun reports hr => .pure (.stale hc hcr hl hx hi hr)

theorem validatePlanInputs_yields :
    (s.validatePlanInputs id inputs).Yields fun _ =>
      ∀ captured, inputs = some captured → s.domainPlanningInputs captured.domain = captured := by
  cases inputs with
  | none => exact fun _ _ _ => nofun
  | some inputs =>
    rintro _ h _ ⟨⟩
    exact validateDomainPlanningInputs_eq_ok.mp (mapError_eq_ok.mp h)

theorem startTransactionCommit_yields {owner : UserName} {expected : TransactionPreviewIdentity}
    {plan : TransactionCommitAdmissionPlan} :
    (s.startTransactionCommit env id owner activity expected report plan).Yields
      (TransactionStep env s (.startTransactionCommit id owner activity expected report plan)) := by
  refine .bind fun t hl => .bind fun _ _ => ?_
  have hl := transaction_eq_ok.mp hl
  split
  · exact .pure (.ended rfl hl (ReplicatedTransaction.ends_of_expire ‹_›))
  · rename_i hn
    refine .ensure_bind fun hp => ?_
    split
    · exact .ensure_bind fun _ => .pure (.answered rfl hl)
    · refine .bind fun _ hi => ?_
      split
      · rename_i hx
        have hid : report.identity.transactionId = id := by
          simp only [isCommitPlanOf, Bool.and_eq_true, decide_eq_true_eq] at hp
          tauto
        exact refuseStalePreview_yields rfl hl rfl hx hid
      · rename_i hx
        have hx : expected = report.identity := not_not.mp hx
        subst hx
        refine .bind fun lease hlease => .bind fun t' ht => .mapError_bind fun reports hr =>
          .mapError_bind fun plans hpl => .pure ?_
        obtain ⟨current, at_, ho, rfl⟩ := ReplicatedTransaction.startCommit_yields hn t' ht
        exact .admitted hl ho hp (validatePlanInputs_yields _ hi) (admits_of_commitLease _ hlease)
          hr hpl

theorem failTransactionCommitAdmission_yields {failure : TransactionCommitAdmissionFailure} :
    (s.failTransactionCommitAdmission env failure).Yields
      (TransactionStep env s (.failTransactionCommitAdmission failure)) := by
  refine .bind fun t hl => .bind fun _ _ => ?_
  have hl := transaction_eq_ok.mp hl
  split
  · exact .pure (.ended rfl hl (ReplicatedTransaction.ends_of_expire ‹_›))
  · dsimp only
    split
    · exact .error
    · rename_i failingStep _
      refine .ensure_bind fun hi => ?_
      split
      · exact .ensure_bind fun _ => .pure (.answered rfl hl)
      · refine .bind fun _ _ => ?_
        split
        · exact refuseStalePreview_yields rfl hl rfl ‹_› hi.1
        · unfold failCommit
          refine .bind fun r hf => ?_
          obtain rfl | ⟨hr, he⟩ | ⟨current, at_, ho, hs, rfl⟩ :=
            ReplicatedTransaction.failCommitAdmission_yields r hf
          · exact .pure (.answered rfl hl)
          · obtain ⟨decision, t'⟩ := r
            subst hr
            exact .pure (.ended rfl hl he)
          · exact .mapError_bind fun reports hr => .mapError_bind fun reports' hr' =>
              .pure (.failed hl ho hs hi.1 hr hr')

theorem advanceTransactionCommit_yields {first next : Nat} {observedAt : Timestamp}
    {result : TransactionStepResult} {effect : Option TransactionStepEffect}
    {completion : Option TransactionOutcome} :
    (s.advanceTransactionCommit env id first next observedAt result effect completion).Yields
      (TransactionStep env s
        (.advanceTransactionCommit id first next observedAt result effect completion)) := by
  refine .bind fun t hl => .bind fun _ hm => ?_
  have hl := transaction_eq_ok.mp hl
  dsimp only
  split
  · exact .error
  · exact .error
  · rename_i progress hs
    split
    · exact .pure (.answered rfl hl)
    · rename_i hn
      refine .mapError_bind fun admitted hp => .ensure_bind fun hi => .bind fun _ hv =>
        .bind fun t' ht => ?_
      obtain ⟨hb, rfl, rfl⟩ := ReplicatedTransaction.beginApplication_yields hs (by
        rintro current hc rfl
        simp [hc, isRequestedApplication] at hn) t' ht
      split
      · exact .error
      · rename_i preview hpv
        refine .mapError_bind fun reports hr => .pure ?_
        exact .begun hl hm hp hi.1 hi.2.2 hv hb hpv hr

theorem completeTransactionApplication_yields {first : Nat} {observedAt : Timestamp}
    {actual : ActualExecutionStepImpact} {outcome : TransactionApplicationOutcome} :
    (s.completeTransactionApplication env id first observedAt actual outcome).Yields
      (TransactionStep env s
        (.completeTransactionApplication id first observedAt actual outcome)) := by
  refine .bind fun t hl => .bind fun _ hm => .bind fun restored hrs => .bind fun t' ht => ?_
  obtain ⟨progress, applying, at_, hs, ha, rfl, rfl⟩ :=
    ReplicatedTransaction.completeApplication_yields t' ht
  split
  · rename_i preview result hpv hres
    rw [ReplicatedTransaction.latestPreview_complete] at hpv
    rw [ReplicatedTransaction.commitResults_complete, List.getLast?_concat] at hres
    cases hres
    refine .mapError_bind fun reports hr => .pure ?_
    exact .completed (transaction_eq_ok.mp hl) hm hrs hs ha hpv hr
  · exact .error

end StateMachineData

end Nervix.Consensus
