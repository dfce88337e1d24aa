import Nervix.Consensus.TransactionMoves

/-!
# Transactions only move forward

What holds of every stored transaction along every run: it is in a state its transitions reach, its
commit applied consecutive steps that succeeded, and its latest preview is retained.
-/

namespace Nervix.Consensus

open Finmap List
open StateMachineData (applyEntry completionMatches validateStep validateTransactionStepContract)
open TransactionStepResult (endOfConsecutive)
open ReplicatedTransaction

namespace TransactionStepResult

theorem endOfConsecutiveFrom_append {results : List TransactionStepResult}
    {result : TransactionStepResult} {next : Nat} :
    endOfConsecutiveFrom next (results ++ [result]) =
      (endOfConsecutiveFrom next results).bind fun last =>
        if result.firstStatement = last then some (last + result.statementCount) else none := by
  induction results generalizing next with
  | nil => simp [endOfConsecutiveFrom]
  | cons head tail ih =>
    simp only [cons_append, endOfConsecutiveFrom, ih]
    split <;> rfl

def statements (result : TransactionStepResult) : List Nat :=
  List.range' result.firstStatement result.statementCount

theorem statements_of_endOfConsecutiveFrom {results : List TransactionStepResult} {next last : Nat}
    (h : endOfConsecutiveFrom next results = some last) :
    next ≤ last ∧ results.flatMap statements = List.range' next (last - next) := by
  induction results generalizing next with
  | nil =>
    cases h
    simp
  | cons head tail ih =>
    simp only [endOfConsecutiveFrom] at h
    split at h
    · cases h
    · rename_i hfirst
      have hfirst : head.firstStatement = next := not_not.mp hfirst
      obtain ⟨hle, htail⟩ := ih h
      refine ⟨by omega, ?_⟩
      rw [flatMap_cons, htail, statements, hfirst, range'_append_1]
      congr 1
      omega

end TransactionStepResult

namespace ReplicatedTransaction

structure HoldsQueue (t : ReplicatedTransaction) : Prop where
  count : t.statements.length = t.statementCount
  bound : sourceBytes t.statements < 2 ^ 64
  bytes : sourceBytes t.statements = t.queuedSourceBytes

structure Applies (t : ReplicatedTransaction) (progress : TransactionCommitProgress)
    (applying : TransactionApplyingStep) : Prop where
  advances : progress.nextStatement < applying.nextStatement
  inside : applying.nextStatement ≤ t.statements.length
  first : applying.result.firstStatement = progress.nextStatement
  count : applying.result.statementCount = applying.nextStatement - progress.nextStatement
  completion : completionMatches t progress.nextStatement applying.nextStatement
    applying.result applying.completion = true

structure Progresses (t : ReplicatedTransaction) (progress : TransactionCommitProgress) : Prop where
  consecutive : endOfConsecutive progress.results = some progress.nextStatement
  left : progress.nextStatement < t.statements.length ∨
    t.statements = [] ∧ progress.nextStatement = 0
  succeeded : ∀ result ∈ progress.results, result.result.success = true
  applying : ∀ applying, progress.applying = some applying → t.Applies progress applying

structure Covers (t : ReplicatedTransaction) (results : List TransactionStepResult) : Prop where
  succeeded : ∀ result ∈ results, result.result.success = true
  consecutive : endOfConsecutive results = some t.statementCount

structure Ended (t : ReplicatedTransaction) (finished : FinishedTransaction) : Prop where
  emptied : t.statements = [] ∧ t.queuedSourceBytes = 0
  accepted : finished.accepted.length = t.statementCount
  consecutive : ∃ last ≤ t.statementCount, endOfConsecutive finished.results = some last
  failing : ∀ failingStep error, finished.outcome = .failed failingStep error ∨
    finished.outcome = .planningInputsChanged failingStep error → failingStep < t.statementCount
  committed : finished.outcome = .committed → t.Covers finished.results

def requestReferences (t : ReplicatedTransaction) : List CommandExecutionReference :=
  match t.state with
  | .finished finished => finished.accepted.map (·.requestReference)
  | .open _ | .committing _ => t.statements.map (·.request.requestReference)

structure Kept (id : TransactionId) (t : ReplicatedTransaction) : Prop where
  key : t.id = id
  references : t.requestReferences.Nodup
  queue : t.state.isLive = true → t.HoldsQueue
  progress : ∀ progress, t.state = .committing progress → t.Progresses progress
  ended : ∀ finished, t.state = .finished finished → t.Ended finished

variable {id : TransactionId} {t t' : ReplicatedTransaction} {digest : SourceDigest}
  {revision : Nat}

theorem HoldsQueue.holdsItsQueue (h : t.HoldsQueue) : t.holdsItsQueue = true := by
  simp only [ReplicatedTransaction.holdsItsQueue, Bool.and_eq_true, decide_eq_true_eq]
  exact ⟨⟨h.count, h.bound⟩, h.bytes⟩

theorem Kept.isReachable (h : t.Kept id) : t.isReachable = true := by
  unfold ReplicatedTransaction.isReachable
  split
  · rename_i hs
    exact (h.queue (by rw [hs]; rfl)).holdsItsQueue
  · rename_i progress hs
    have hp := h.progress progress hs
    have hle : progress.nextStatement ≤ t.statements.length := by
      rcases hp.left with hlt | ⟨-, h0⟩ <;> omega
    rw [(h.queue (by rw [hs]; rfl)).holdsItsQueue]
    simp only [holdsCommitProgress, hp.consecutive, Bool.true_and, decide_true, hle]
    rw [Option.all_eq_true]
    intro applying ha
    have happly := hp.applying applying ha
    simp [happly.advances, happly.inside, happly.first, happly.count]
  · rename_i finished hs
    have he := h.ended finished hs
    obtain ⟨last, hle, hlast⟩ := he.consecutive
    simp only [holdsFinishedOutcome, he.emptied.1, he.emptied.2, he.accepted, hlast,
      isEmpty_nil, decide_true, Bool.true_and, Option.any_some, hle]
    split
    · exact decide_eq_true (he.failing _ _ (.inl ‹_›))
    · exact decide_eq_true (he.failing _ _ (.inr ‹_›))
    all_goals rfl

variable {at_ : Timestamp}

theorem Kept.finish (h : t.Kept id) (hlive : t.state.isLive = true) (hr : ∃ last ≤ t.statementCount,
      endOfConsecutive results = some last)
    (hf : ∀ failingStep error, outcome = .failed failingStep error ∨
      outcome = .planningInputsChanged failingStep error → failingStep < t.statementCount)
    (hc : outcome = .committed → t.Covers results) :
    (t.finish digest at_ revision outcome results).Kept id where
  key := h.key
  references := by
    have href : (t.finish digest at_ revision outcome results).requestReferences =
        t.requestReferences := by
      simp only [requestReferences, ReplicatedTransaction.finish, map_map]
      split
      · rename_i hs
        rw [hs] at hlive
        cases hlive
      all_goals rfl
    rw [href]
    exact h.references
  queue hl := Bool.noConfusion hl
  progress _ hs := TransactionState.noConfusion hs
  ended := by
    rintro _ ⟨⟩
    refine ⟨⟨rfl, rfl⟩, ?_, hr, hf, fun ho => ⟨(hc ho).succeeded, (hc ho).consecutive⟩⟩
    rw [length_map]
    exact (h.queue hlive).count

theorem Kept.finish_nil (h : t.Kept id) (hlive : t.state.isLive = true)
    (hf : ∀ failingStep error, outcome = .failed failingStep error ∨
      outcome = .planningInputsChanged failingStep error → failingStep < t.statementCount)
    (hc : outcome = .committed → t.statementCount = 0) :
    (t.finish digest at_ revision outcome []).Kept id :=
  h.finish hlive ⟨0, Nat.zero_le _, rfl⟩ hf fun ho => ⟨nofun, by rw [hc ho]; rfl⟩

structure SameQueue (t t' : ReplicatedTransaction) : Prop where
  id : t'.id = t.id
  statements : t'.statements = t.statements
  statementCount : t'.statementCount = t.statementCount
  queuedSourceBytes : t'.queuedSourceBytes = t.queuedSourceBytes

theorem SameQueue.holdsQueue (hq : t.SameQueue t') (h : t.HoldsQueue) : t'.HoldsQueue where
  count := by rw [hq.statements, hq.statementCount, h.count]
  bound := by rw [hq.statements]; exact h.bound
  bytes := by rw [hq.statements, hq.queuedSourceBytes, h.bytes]

variable {progress : TransactionCommitProgress}

theorem SameQueue.progresses (hq : t.SameQueue t')
    (h : t.Progresses progress) : t'.Progresses progress where
  consecutive := h.consecutive
  left := by rw [hq.statements]; exact h.left
  succeeded := h.succeeded
  applying applying ha := by
    obtain ⟨h₁, h₂, h₃, h₄, h₅⟩ := h.applying applying ha
    refine ⟨h₁, hq.statements ▸ h₂, h₃, h₄, ?_⟩
    simp only [completionMatches, hq.statements] at h₅ ⊢
    exact h₅

theorem Kept.live (h : t.Kept id) (hq : t.SameQueue t') (hl : t.state.isLive = true)
    (hl' : t'.state.isLive = true)
    (hp : ∀ progress, t'.state = .committing progress → t.Progresses progress) : t'.Kept id where
  key := hq.id.trans h.key
  references := by
    have href := h.references
    unfold requestReferences at href ⊢
    rw [hq.statements]
    cases hs : t.state <;> cases hs' : t'.state <;> simp_all [TransactionState.isLive]
  queue _ := hq.holdsQueue (h.queue hl)
  progress progress hs := hq.progresses (hp progress hs)
  ended finished hs := by
    rw [hs] at hl'
    cases hl'

theorem Kept.setLatestPreview (h : t.Kept id) (preview : TransactionPreviewIdentity) :
    (t.setLatestPreview preview).Kept id := by
  have hq : t.SameQueue (t.setLatestPreview preview) := ⟨rfl, rfl, rfl, rfl⟩
  refine ⟨h.key, h.references, fun hl => hq.holdsQueue (h.queue hl),
    fun progress hs => hq.progresses (h.progress progress hs), fun finished hs => ?_⟩
  obtain ⟨h₁, h₂, h₃, h₄, h₅⟩ := h.ended finished hs
  exact ⟨h₁, h₂, h₃, h₄, fun ho => ⟨(h₅ ho).succeeded, (h₅ ho).consecutive⟩⟩

theorem isLive_of_open (h : t.state = .open activity) : t.state.isLive = true := by
  rw [h]
  rfl

theorem isLive_of_committing (h : t.state = .committing progress) : t.state.isLive = true := by
  rw [h]
  rfl

theorem Kept.touches (h : t.Kept id) (ht : t.Touches digest revision t') : t'.Kept id := by
  cases ht with
  | renewed ho =>
    exact h.live ⟨rfl, rfl, rfl, rfl⟩ (isLive_of_open ho) rfl
      fun _ hs => TransactionState.noConfusion hs
  | expired ho => exact h.finish_nil (isLive_of_open ho) (by simp) (by simp)
  | committing ho =>
    refine h.live ⟨rfl, rfl, rfl, rfl⟩ (isLive_of_committing ho) rfl fun _ hs => ?_
    cases hs
    obtain ⟨hc, hl, hr, ha⟩ := h.progress _ ho
    exact ⟨hc, hl, hr, fun applying happly =>
      ⟨(ha applying happly).1, (ha applying happly).2, (ha applying happly).3,
        (ha applying happly).4, (ha applying happly).5⟩⟩

theorem Kept.ends (h : t.Kept id) (he : t.Ends digest revision t') : t'.Kept id := by
  cases he with
  | expired ho => exact h.finish_nil (isLive_of_open ho) (by simp) (by simp)
  | reverted ho => exact h.finish_nil (isLive_of_open ho) (by simp) (by simp)
  | emptied ho hempty =>
    refine h.finish_nil (isLive_of_committing ho) (by simp) fun _ => ?_
    rw [← (h.queue (isLive_of_committing ho)).count, hempty]
    rfl

theorem Kept.append (h : t.Kept id) {current activity : TransactionActivity} {domain : DomainName}
    {statement : TransactionStatement} (ha : t.Accepts current domain statement) :
    (t.append current activity statement).Kept id where
  key := h.key
  references := by
    have href := h.references
    rw [requestReferences, ha.state] at href
    simp only [requestReferences, ReplicatedTransaction.append, map_append, map_cons, map_nil]
    rw [nodup_append]
    refine ⟨href, nodup_singleton _, ?_⟩
    rintro a hmem b hb rfl
    obtain ⟨e, he, rfl⟩ := mem_map.mp hmem
    exact ha.fresh e he (mem_singleton.mp hb)
  queue _ := by
    obtain ⟨hc, hb, hq⟩ := h.queue (isLive_of_open ha.state)
    have hbytes : sourceBytes (t.append current activity statement).statements =
        t.queuedSourceBytes + statement.request.sourceBytes := by
      rw [← hq]
      simp [sourceBytes, ReplicatedTransaction.append]
    refine ⟨?_, ?_, hbytes⟩
    · simp [ReplicatedTransaction.append, hc]
    · rw [hbytes]
      exact ha.bytes
  progress _ hs := TransactionState.noConfusion hs
  ended _ hs := TransactionState.noConfusion hs

theorem completion_of_validateStep {s : StateMachineData} : (s.validateStep t first requested).Yields fun _ =>
      completionMatches t first requested.nextStatement requested.result
        requested.completion = true := by
  have hcontract : ∀ {next : Nat} {result : TransactionStepResult}
      {completion : Option TransactionOutcome}, (validateTransactionStepContract t
        first next result completion).Yields fun _ =>
          completionMatches t first next result completion = true := by
    intro next result completion
    unfold validateTransactionStepContract
    split
    · rename_i h
      exact .ok h.2.2
    · exact .error
  unfold validateStep
  split
  · unfold StateMachineData.validateTransactionStepEffect
    exact .bind fun _ hc => fun _ _ => hcontract _ hc
  · unfold StateMachineData.validateTransactionStepWithoutEffect
    exact .bind fun _ hc => fun _ _ => hcontract _ hc

variable {applying : TransactionApplyingStep}

variable {actual : ActualExecutionStepImpact} {failure : Option String}

theorem Progresses.succeeded_complete
    (h : t.Progresses progress) (hs : applying.result.result.success = true) :
    ∀ result ∈ progress.results ++ [completedResult applying actual none],
      result.result.success = true := by
  intro result hmem
  rcases mem_append.mp hmem with hmem | hmem
  · exact h.succeeded result hmem
  · rw [mem_singleton.mp hmem]
    exact hs

theorem Kept.completes (h : t.Kept id) (hs : t.state = .committing progress)
    (ha : progress.applying = some applying) :
    (t.complete digest progress applying at_ revision actual failure).Kept id := by
  have hp := h.progress progress hs
  have hlive := isLive_of_committing hs
  have hcount := (h.queue hlive).count
  obtain ⟨hadv, hin, hfirst, hlen, hmatch⟩ := hp.applying applying ha
  have hend : endOfConsecutive (progress.results ++ [completedResult applying actual failure]) =
      some applying.nextStatement := by
    rw [endOfConsecutive, TransactionStepResult.endOfConsecutiveFrom_append,
      show TransactionStepResult.endOfConsecutiveFrom _ _ = _ from hp.consecutive, Option.bind_some]
    have hsum : progress.nextStatement + applying.result.statementCount = applying.nextStatement := by
      omega
    cases failure <;> exact (if_pos hfirst).trans (congrArg some hsum)
  unfold complete completion
  cases failure with
  | some error =>
    refine h.finish hlive ⟨_, hcount ▸ hin, hend⟩ ?_ (by simp)
    simp only [TransactionOutcome.failed.injEq, reduceCtorEq, or_false]
    rintro _ _ ⟨rfl, -⟩
    omega
  | none =>
    dsimp only
    split
    · rename_i outcome hc
      rw [hc] at hmatch
      refine h.finish hlive ⟨_, hcount ▸ hin, hend⟩ (fun failingStep error ho => ?_) fun ho => ?_
      · obtain rfl | rfl := ho <;>
        · simp only [completionMatches, Bool.and_eq_true, decide_eq_true_eq] at hmatch
          omega
      · subst ho
        simp only [completionMatches, Bool.and_eq_true, decide_eq_true_eq] at hmatch
        refine ⟨hp.succeeded_complete hmatch.1, ?_⟩
        rw [hend, hmatch.2, hcount]
    · rename_i hc
      rw [hc] at hmatch
      simp only [completionMatches, Bool.and_eq_true, decide_eq_true_eq] at hmatch
      refine h.live ⟨rfl, rfl, rfl, rfl⟩ hlive rfl fun _ hs' => ?_
      cases hs'
      exact ⟨hend, .inl hmatch.2, hp.succeeded_complete hmatch.1, by rintro _ ⟨⟩⟩

end ReplicatedTransaction

variable {env : Environment} {s s' : StateMachineData} {c : ConsensusCommand}
  {response : ConsensusResponse} {id : TransactionId} {t t' : ReplicatedTransaction}

theorem Moves.kept
    (hm : Moves env s id t c response t' operations) (h : t.Kept id) : t'.Kept id := by
  cases hm with
  | touched ht => exact h.touches ht
  | ended _ he => exact h.ends he
  | queued ha => exact (h.append ha).setLatestPreview _
  | stale => exact h.setLatestPreview _
  | admitted ho =>
    refine h.live ⟨rfl, rfl, rfl, rfl⟩ (isLive_of_open ho) rfl fun _ hs => ?_
    cases hs
    refine ⟨rfl, ?_, fun _ hmem => absurd hmem not_mem_nil, by rintro _ ⟨⟩⟩
    rcases t.statements.eq_nil_or_concat' with hnil | ⟨_, _, hne⟩
    · exact .inr ⟨hnil, rfl⟩
    · exact .inl (by simp [hne])
  | failed _ ho hf =>
    refine (h.setLatestPreview _).finish_nil (isLive_of_open ho) ?_ (by simp)
    have hcount := (h.queue (isLive_of_open ho)).count
    simp only [TransactionOutcome.failed.injEq, reduceCtorEq, or_false]
    rintro _ _ ⟨rfl, -⟩
    exact hcount ▸ hf
  | begun hv hb =>
    refine h.live ⟨rfl, rfl, rfl, rfl⟩ (isLive_of_committing hb.state) rfl
      fun _ hs => ?_
    cases hs
    obtain ⟨hcons, hl, hr, -⟩ := h.progress _ hb.state
    refine ⟨hcons, hl, hr, ?_⟩
    rintro _ ⟨⟩
    exact ⟨hb.advances, hb.inside, hb.first, hb.count,
      completion_of_validateStep _ hv⟩
  | completed hs ha => exact h.completes hs ha

def ReplicatedTransaction.IsFresh (t : ReplicatedTransaction) : Prop :=
  ∃ id domain owner activity, t = .open id domain owner activity ∨
    ∃ command, t = .openForCommand id domain owner activity command

def ConsensusCommand.OpensFresh : ConsensusCommand → Prop
  | .openTransaction t _ => t.IsFresh
  | _ => True

theorem ReplicatedTransaction.IsFresh.eq_open (h : t.IsFresh) :
    ∃ id domain owner activity mutationOwner,
      t = .openWithMutationOwner id domain owner activity mutationOwner := by
  obtain ⟨id, domain, owner, activity, rfl | ⟨command, rfl⟩⟩ := h
  · exact ⟨_, _, _, _, _, rfl⟩
  · exact ⟨_, _, _, _, _, rfl⟩

theorem ReplicatedTransaction.IsFresh.kept (h : t.IsFresh) : t.Kept t.id := by
  obtain ⟨id, domain, owner, activity, mutationOwner, rfl⟩ := h.eq_open
  exact ⟨rfl, nodup_nil, fun _ => ⟨rfl, Nat.two_pow_pos 64, rfl⟩,
    fun _ hs => TransactionState.noConfusion hs, fun _ hs => TransactionState.noConfusion hs⟩

theorem ReplicatedTransaction.IsFresh.latestPreview (h : t.IsFresh) : t.latestPreview = none := by
  obtain ⟨id, domain, owner, activity, mutationOwner, rfl⟩ := h.eq_open
  rfl

namespace StateMachineData

structure KeepsTransactions (digest : TopologyDigest) (s : StateMachineData) : Prop where
  kept : ∀ {id t}, s.transactions.lookup id = some t → t.Kept id
  reports : s.transactionReports.Sound digest
  linked : ∀ {id t}, s.transactions.lookup id = some t →
    t.Linked (s.transactionReports.revisionsOf id)
  unowned : ∀ {id}, s.transactions.lookup id = none → s.transactionReports.revisionsOf id = []

theorem keepsTransactions_initial (digest : TopologyDigest) : initial.KeepsTransactions digest where
  kept h := by cases h
  reports := TransactionReportRecords.sound_empty
  linked h := by cases h
  unowned _ := rfl

theorem lookup_removeFinishedTransactions :
    (s.removeFinishedTransactions finishedBefore).1.transactions.lookup id =
      if id ∈ s.finishedTransactionRemovals finishedBefore then none
      else s.transactions.lookup id := by
  have h := lookup_foldl_erase (fun a : TransactionId => a) id
    (s.finishedTransactionRemovals finishedBefore) s.transactions
  rw [map_id'] at h
  exact h

end StateMachineData

namespace TransactionChange

theorem keepsTransactions (h : TransactionChange env s c response s') (hf : c.OpensFresh)
    (hk : s.KeepsTransactions env.topologyDigest) : s'.KeepsTransactions env.topologyDigest := by
  cases h with
  | same ht hr _ =>
    refine ⟨?_, ?_, ?_, ?_⟩
    all_goals simp only [ht, hr]
    · exact hk.kept
    · exact hk.reports
    · exact hk.linked
    · exact hk.unowned
  | @opened t limit _ _ hl ht hr _ =>
    refine ⟨?_, ?_, ?_, ?_⟩
    all_goals simp only [ht, hr]
    · intro id t' ht'
      obtain ⟨rfl, rfl⟩ | ⟨-, ht'⟩ := lookup_insert_eq_some.mp ht'
      · exact hf.kept
      · exact hk.kept ht'
    · exact hk.reports
    · intro id t' ht'
      obtain ⟨rfl, rfl⟩ | ⟨-, ht'⟩ := lookup_insert_eq_some.mp ht'
      · rw [Linked, hf.latestPreview]
        exact hk.unowned hl
      · exact hk.linked ht'
    · intro id hn
      rw [lookup_insert_eq] at hn
      split at hn
      · cases hn
      · exact hk.unowned hn
  | @moved _ id t t' operations _ _ hl hm ht hr _ =>
    obtain ⟨identities, ⟨hsound, hown, hothers⟩, hlink, -⟩ := hm.revisions hk.reports (hk.linked hl) hr
    refine ⟨?_, hsound, ?_, ?_⟩
    all_goals simp only [ht]
    · intro id' t'' ht''
      obtain ⟨rfl, rfl⟩ | ⟨-, ht''⟩ := lookup_insert_eq_some.mp ht''
      · exact hm.kept (hk.kept hl)
      · exact hk.kept ht''
    · intro id' t'' ht''
      obtain ⟨rfl, rfl⟩ | ⟨hne, ht''⟩ := lookup_insert_eq_some.mp ht''
      · rw [hown]
        exact hlink
      · rw [hothers id' hne]
        exact hk.linked ht''
    · intro id' hn
      rw [lookup_insert_eq] at hn
      split at hn
      · cases hn
      · rename_i hne
        rw [hothers id' hne]
        exact hk.unowned hn
  | @removed finishedBefore _ _ he =>
    subst he
    obtain ⟨hsound, hrev⟩ := TransactionReportRecords.removeTransactions_sound
      (s.finishedTransactionRemovals finishedBefore) hk.reports
    refine ⟨?_, hsound, ?_, ?_⟩
    · intro id t ht
      rw [StateMachineData.lookup_removeFinishedTransactions] at ht
      split at ht
      · cases ht
      · exact hk.kept ht
    · intro id t ht
      rw [StateMachineData.lookup_removeFinishedTransactions] at ht
      split at ht
      · cases ht
      · rename_i hn
        have hr := hrev id
        rw [if_neg hn] at hr
        exact hr ▸ hk.linked ht
    · intro id hn
      rw [StateMachineData.lookup_removeFinishedTransactions] at hn
      refine (hrev id).trans ?_
      split at hn
      · rw [if_pos ‹_›]
      · rw [if_neg ‹_›]
        exact hk.unowned hn

end TransactionChange

def ReplicatedTransaction.Holds (digest : SourceDigest) (t : ReplicatedTransaction)
    (statements : List TransactionStatement) : Prop :=
  match t.state with
  | .open _ => False
  | .committing _ => t.statements = statements
  | .finished finished => finished.accepted = statements.map (.accepted digest)

def StateMachineData.KeepsPreview (s : StateMachineData) (response : ConsensusResponse) : Prop :=
  ∀ expected current t, response = .transaction (.error (.previewStale expected current)) →
    s.transactions.lookup current.transactionId = some t →
    (∃ activity, t.state = .open activity) ∨ t.latestPreview = some current

section moves
variable {operations : List ReportOperation}

open ReplicatedTransaction

section
variable (hm : Moves env s id t c response t' operations)
include hm

theorem Moves.holds
    {statements : List TransactionStatement} (h : t.Holds env.sourceDigest statements) :
    t'.Holds env.sourceDigest statements ∧ t'.commitPlan = t.commitPlan := by
  have hclosed : ∀ {activity}, t.state ≠ .open activity := by
    intro activity ho
    rw [Holds, ho] at h
    exact h
  cases hm with
  | touched ht =>
    cases ht with
    | renewed ho => exact absurd ho hclosed
    | expired ho => exact absurd ho hclosed
    | committing ho =>
      rw [Holds, ho] at h
      exact ⟨h, rfl⟩
  | ended _ he =>
    cases he with
    | expired ho => exact absurd ho hclosed
    | reverted ho => exact absurd ho hclosed
    | emptied ho =>
      rw [Holds, ho] at h
      exact ⟨congrArg _ h, rfl⟩
  | queued ha => exact absurd ha.state hclosed
  | stale => exact ⟨h, rfl⟩
  | admitted ho => exact absurd ho hclosed
  | failed _ ho => exact absurd ho hclosed
  | begun _ hb =>
    rw [Holds, hb.state] at h
    exact ⟨h, rfl⟩
  | completed hs =>
    rw [Holds, hs] at h
    unfold complete
    split
    · exact ⟨congrArg _ h, rfl⟩
    · exact ⟨h, rfl⟩

theorem Moves.latestPreview (hl : s.transactions.lookup id = some t) (hp : s.KeepsPreview response)
    (hclosed : ∀ activity, t.state ≠ .open activity) : t'.latestPreview = t.latestPreview := by
  cases hm with
  | touched ht => exact ht.latestPreview
  | ended _ he => exact he.latestPreview
  | queued ha => exact absurd ha.state (hclosed _)
  | stale _ _ hid =>
    subst hid
    rcases hp _ _ _ rfl hl with ⟨activity, ho⟩ | hlatest
    · exact absurd ho (hclosed activity)
    · exact hlatest.symm
  | admitted ho => exact absurd ho (hclosed _)
  | failed _ ho => exact absurd ho (hclosed _)
  | begun => rfl
  | completed => exact latestPreview_complete

theorem Moves.finished {finished : FinishedTransaction} (hs : t.state = .finished finished) :
    ∃ preview, t' = { t with latestPreview := preview } := by
  cases hm with
  | touched ht => cases ht <;> simp_all
  | ended _ he => cases he <;> simp_all
  | queued ha => simp [ha.state] at hs
  | stale => exact ⟨_, rfl⟩
  | admitted ho => simp [ho] at hs
  | failed _ ho => simp [ho] at hs
  | begun _ hb => simp [hb.state] at hs
  | completed hc => simp [hc] at hs

theorem Moves.planned (hl : s.transactions.lookup id = some t) (hp : s.KeepsPreview response)
    (h : ∀ progress, t.state = .committing progress →
      ∃ plan, t.commitPlan = some plan ∧ t.latestPreview = some plan.preview) (hs : t'.state = .committing progress) :
    ∃ plan, t'.commitPlan = some plan ∧ t'.latestPreview = some plan.preview := by
  cases hstate : t.state with
  | «open» activity =>
    cases hm with
    | touched ht => cases ht <;> simp_all [finish]
    | ended _ he => cases he <;> simp_all [finish]
    | queued ha => simp [append, setLatestPreview] at hs
    | stale => simp [setLatestPreview, hstate] at hs
    | admitted ho => exact ⟨_, rfl, rfl⟩
    | failed _ ho => simp [finish] at hs
    | begun _ hb => simp [hb.state] at hstate
    | completed hc => simp [hc] at hstate
  | committing before =>
    have hholds : t.Holds env.sourceDigest t.statements := by
      rw [Holds, hstate]
    rw [(hm.holds hholds).2, hm.latestPreview hl hp fun activity ho => by simp [ho] at hstate]
    exact h before hstate
  | finished finished =>
    obtain ⟨preview, rfl⟩ := hm.finished hstate
    simp [hstate] at hs

theorem Moves.statements :
    t'.statements = t.statements ∨
      (∃ finished, t'.state = .finished finished ∧ t'.statements = []) ∨
      ∃ activity statement, t.state = .open activity ∧ t'.statements = t.statements ++ [statement] ∧
        statement.request.requestReference ∉ t.requestReferences := by
  cases hm with
  | touched ht =>
    cases ht with
    | renewed | committing => exact .inl rfl
    | expired => exact .inr (.inl ⟨_, rfl, rfl⟩)
  | ended _ he => cases he <;> exact .inr (.inl ⟨_, rfl, rfl⟩)
  | queued ha =>
    refine .inr (.inr ⟨_, _, ha.state, rfl, ?_⟩)
    rw [requestReferences, ha.state]
    intro hmem
    obtain ⟨e, he, hr⟩ := mem_map.mp hmem
    exact ha.fresh e he hr
  | stale | admitted | begun => exact .inl rfl
  | failed => exact .inr (.inl ⟨_, rfl, rfl⟩)
  | completed =>
    unfold complete
    split
    · exact .inr (.inl ⟨_, rfl, rfl⟩)
    · exact .inl rfl

end

end moves

section entries
variable {entry : Entry}

theorem lookup_foldl_remove (transactionIds : List TransactionId) :
    ∀ r : TransactionCommitPlanRecords, id ∉ transactionIds →
      let r' := transactionIds.foldl (fun plans id => plans.remove id) r
      r'.headers.lookup id = r.headers.lookup id ∧
        ∀ i, r'.steps.lookup (id, i) = r.steps.lookup (id, i) := by
  induction transactionIds with
  | nil => exact fun r _ => ⟨rfl, fun _ => rfl⟩
  | cons other transactionIds ih =>
    intro r hn
    obtain ⟨hne, hn⟩ := not_or.mp (mem_cons.not.mp hn)
    obtain ⟨hheader, hsteps⟩ := ih (r.remove other) hn
    refine ⟨hheader.trans (lookup_erase_ne hne), fun i => (hsteps i).trans ?_⟩
    rw [TransactionCommitPlanRecords.remove, lookup_retain]
    cases r.steps.lookup (id, i) <;> simp [hne]

theorem PlansKept.trans (h₁ : PlansKept s₁ s₂ id) (h₂ : PlansKept s₂ s₃ id) : PlansKept s₁ s₃ id :=
  ⟨h₂.header.trans h₁.header, fun i => (h₂.steps i).trans (h₁.steps i)⟩

theorem TransactionChange.lookup (h : TransactionChange env s c response s')
    (hl : s.transactions.lookup id = some t) (hin : id ∈ s'.transactions) :
    (s'.transactions.lookup id = some t ∨ ∃ t' operations,
      Moves env s id t c response t' operations ∧ s'.transactions.lookup id = some t') ∧
    ((∀ activity, t.state ≠ .open activity) → PlansKept s s' id) := by
  cases h with
  | same ht _ hp =>
    rw [ht]
    exact ⟨.inl hl, fun _ => .of_eq hp⟩
  | @opened opened _ _ _ hn ht _ hp =>
    refine ⟨.inl ?_, fun _ => .of_eq hp⟩
    have hne : id ≠ opened.id := by
      rintro rfl
      rw [hn] at hl
      cases hl
    rw [ht, lookup_insert_of_ne _ hne, hl]
  | @moved _ moved t₀ t' operations _ _ hl₀ hm ht _ hp =>
    by_cases he : id = moved
    · subst he
      cases hl.symm.trans hl₀
      refine ⟨.inr ⟨t', operations, hm, ?_⟩, fun hclosed => hp id fun _ => hclosed⟩
      rw [ht, lookup_insert]
    · refine ⟨.inl ?_, fun _ => hp id fun he' => absurd he' he⟩
      rw [ht, lookup_insert_of_ne _ he, hl]
  | @removed finishedBefore _ _ he =>
    subst he
    have hn : id ∉ s.finishedTransactionRemovals finishedBefore := by
      intro hmem
      obtain ⟨t', ht'⟩ := mem_iff.mp hin
      rw [StateMachineData.lookup_removeFinishedTransactions, if_pos hmem] at ht'
      cases ht'
    refine ⟨.inl ?_, fun _ => ?_⟩
    · rw [StateMachineData.lookup_removeFinishedTransactions, if_neg hn, hl]
    · exact ⟨(lookup_foldl_remove _ _ hn).1, (lookup_foldl_remove _ _ hn).2⟩

theorem StateMachineData.applyEntry_transactions (env : Environment) (s : StateMachineData)
    (entry : Entry) :
    ((s.applyEntry env entry).state.transactions = s.transactions ∧
      (s.applyEntry env entry).state.transactionReports = s.transactionReports ∧
      (s.applyEntry env entry).state.transactionCommitPlans = s.transactionCommitPlans) ∨
    ∃ c s' revision, entry.payload = .normal c ∧
      TransactionChange env { s with lastAppliedLogId := some entry.logId } c
        (s.applyEntry env entry).response s' ∧
      (s.applyEntry env entry).state = { s' with runtimeRevision := revision } := by
  cases hp : entry.payload with
  | blank =>
    refine .inl ?_
    unfold applyEntry
    rw [hp]
    exact ⟨rfl, rfl, rfl⟩
  | membership membership =>
    refine .inl ?_
    unfold applyEntry
    rw [hp]
    exact ⟨rfl, rfl, rfl⟩
  | normal c =>
    obtain ⟨s', revision, ht, hs⟩ := @applyEntry_transition env s entry c hp
    exact .inr ⟨c, s', revision, rfl, ht.change, hs⟩

theorem StateMachineData.KeepsTransactions.of_eq
    (h : s.KeepsTransactions digest) (ht : s'.transactions = s.transactions)
    (hr : s'.transactionReports = s.transactionReports) : s'.KeepsTransactions digest where
  kept := by rw [ht]; exact h.kept
  reports := by rw [hr]; exact h.reports
  linked := by rw [ht, hr]; exact h.linked
  unowned := by rw [ht, hr]; exact h.unowned

theorem keepsTransactions_applyEntry (hf : entry.Meets (fun _ c => c.OpensFresh) s)
    (h : s.KeepsTransactions env.topologyDigest) :
    (s.applyEntry env entry).state.KeepsTransactions env.topologyDigest := by
  obtain ⟨ht, hr, -⟩ | ⟨c, s', revision, hp, hc, hs⟩ := s.applyEntry_transactions env entry
  · exact h.of_eq ht hr
  · rw [hs]
    exact (hc.keepsTransactions (hf c hp) (h.of_eq rfl rfl)).of_eq rfl rfl

theorem lookup_applyEntry (hl : s.transactions.lookup id = some t)
    (hin : id ∈ (s.applyEntry env entry).state.transactions) :
    ((s.applyEntry env entry).state.transactions.lookup id = some t ∨ ∃ c t' operations,
      Moves env { s with lastAppliedLogId := some entry.logId } id t c
        (s.applyEntry env entry).response t' operations ∧
      (s.applyEntry env entry).state.transactions.lookup id = some t') ∧
    ((∀ activity, t.state ≠ .open activity) → PlansKept s (s.applyEntry env entry).state id) := by
  obtain ⟨ht, -, hp⟩ | ⟨c, s', revision, -, hc, hs⟩ := s.applyEntry_transactions env entry
  · rw [ht]
    exact ⟨.inl hl, fun _ => .of_eq hp⟩
  · rw [hs] at hin ⊢
    obtain ⟨hmoves, hplans⟩ := hc.lookup hl hin
    refine ⟨?_, fun hclosed => ⟨(hplans hclosed).header, (hplans hclosed).steps⟩⟩
    rcases hmoves with hsame | ⟨t', operations, hm, ht'⟩
    · exact .inl hsame
    · exact .inr ⟨c, t', operations, hm, ht'⟩

end entries

def Entry.KeepsPreview (env : Environment) (s : StateMachineData) (entry : Entry) : Prop :=
  s.KeepsPreview (s.applyEntry env entry).response

def transactionRuns (env : Environment) : System StateMachineData Entry :=
  (stateMachine env).restrict fun s entry =>
    entry.Meets (fun _ c => c.OpensFresh) s ∧ entry.KeepsPreview env s

def storedRuns (env : Environment) (id : TransactionId) : System StateMachineData Entry :=
  (transactionRuns env).restrict fun s entry => id ∈ (s.applyEntry env entry).state.transactions

structure SameRecords (s s' : StateMachineData) : Prop where
  transactions : s'.transactions = s.transactions
  transactionReports : s'.transactionReports = s.transactionReports
  transactionCommitPlans : s'.transactionCommitPlans = s.transactionCommitPlans
  domainMutations : s'.domainMutations = s.domainMutations
  domains : s'.domains = s.domains
  domainClockAuthorities : s'.domainClockAuthorities = s.domainClockAuthorities
  schedule : s'.schedule = s.schedule

structure MovesForward (env : Environment) (s : StateMachineData) : Prop where
  reachable : ∀ {id t}, s.transactions.lookup id = some t → t.isReachable = true
  finished : ∀ {id t finished s'}, s.transactions.lookup id = some t →
    t.state = .finished finished → (storedRuns env id).Run s s' →
    s'.transactions.lookup id = some t
  planned : ∀ {id t progress}, s.transactions.lookup id = some t →
    t.state = .committing progress → ∃ plan report, t.commitPlan = some plan ∧
      t.latestPreview = some plan.preview ∧ s.transactionReports.report plan.preview = .ok report
  committing : ∀ {id t progress s'}, s.transactions.lookup id = some t →
    t.state = .committing progress → (storedRuns env id).Run s s' → ∃ t',
      s'.transactions.lookup id = some t' ∧ t'.Holds env.sourceDigest t.statements ∧
        t'.commitPlan = t.commitPlan ∧ PlansKept s s' id
  appended : ∀ {id t t' entry}, s.transactions.lookup id = some t →
    (s.applyEntry env entry).state.transactions.lookup id = some t' →
    t'.statements = t.statements ∨
      (∃ finished, t'.state = .finished finished ∧ t'.statements = []) ∨
      ∃ activity statement, t.state = .open activity ∧ t'.statements = t.statements ++ [statement] ∧
        statement.request.requestReference ∉ t.requestReferences
  references : ∀ {id t}, s.transactions.lookup id = some t → t.requestReferences.Nodup
  committed : ∀ {id t finished}, s.transactions.lookup id = some t →
    t.state = .finished finished → finished.outcome = .committed →
    (∀ result ∈ finished.results, result.result.success = true) ∧
      finished.results.flatMap TransactionStepResult.statements = List.range finished.accepted.length
  refused : ∀ {entry error}, (s.applyEntry env entry).response = .transaction (.error error) →
    (∀ expected current, error ≠ .previewStale expected current) →
    SameRecords s (s.applyEntry env entry).state

def StateMachineData.PlansTransactions (s : StateMachineData) : Prop :=
  ∀ id t progress, s.transactions.lookup id = some t → t.state = .committing progress →
    ∃ plan, t.commitPlan = some plan ∧ t.latestPreview = some plan.preview

theorem plansTransactions_applyEntry
    (hf : entry.Meets (fun _ c => c.OpensFresh) s) (hk : entry.KeepsPreview env s)
    (h : s.PlansTransactions) : (s.applyEntry env entry).state.PlansTransactions := by
  intro id t' progress hl' hs
  cases hl : s.transactions.lookup id with
  | some t =>
    obtain ⟨hsame | ⟨c, t'', operations, hm, ht''⟩, -⟩ :=
      lookup_applyEntry hl (mem_of_lookup_eq_some hl')
    · cases hl'.symm.trans hsame
      exact h _ _ _ hl hs
    · cases hl'.symm.trans ht''
      exact hm.planned hl hk (fun _ => h _ _ _ hl) hs
  | none =>
    obtain ⟨ht, -⟩ | ⟨c, s', revision, hp, hc, he⟩ := s.applyEntry_transactions env entry
    · rw [ht, hl] at hl'
      cases hl'
    · rw [he] at hl'
      dsimp only at hl'
      cases hc with
      | same ht =>
        rw [ht, hl] at hl'
        cases hl'
      | opened _ ht =>
        rw [ht] at hl'
        obtain ⟨rfl, rfl⟩ | ⟨-, hl'⟩ := lookup_insert_eq_some.mp hl'
        · obtain ⟨_, _, _, _, _, rfl⟩ := (hf _ hp).eq_open
          cases hs
        · rw [hl] at hl'
          cases hl'
      | moved hl₀ _ ht =>
        rw [ht] at hl'
        obtain ⟨rfl, rfl⟩ | ⟨-, hl'⟩ := lookup_insert_eq_some.mp hl'
        · rw [hl] at hl₀
          cases hl₀
        · rw [hl] at hl'
          cases hl'
      | removed he =>
        rw [he, StateMachineData.lookup_removeFinishedTransactions, hl] at hl'
        simp at hl'

theorem finished_of_run (hl : s.transactions.lookup id = some t)
    (hs : t.state = .finished finished) (h : (storedRuns env id).Run s s') :
    s'.transactions.lookup id = some t := by
  refine h.inv (P := fun s' => s'.transactions.lookup id = some t) hl fun {u entry} hl hg => ?_
  obtain ⟨⟨-, -, hk⟩, hin⟩ := hg
  obtain ⟨hsame | ⟨c, t', operations, hm, ht'⟩, -⟩ := lookup_applyEntry hl hin
  · exact hsame
  · obtain ⟨preview, rfl⟩ := hm.finished hs
    have hpreview := hm.latestPreview hl hk fun activity ho => by simp [ho] at hs
    dsimp only at hpreview
    rw [hpreview] at ht'
    exact ht'

theorem committing_of_run (hl : s.transactions.lookup id = some t) (hs : t.state = .committing progress)
    (h : (storedRuns env id).Run s s') : ∃ t', s'.transactions.lookup id = some t' ∧
      t'.Holds env.sourceDigest t.statements ∧ t'.commitPlan = t.commitPlan ∧
        PlansKept s s' id := by
  refine h.inv (P := fun s' => ∃ t', s'.transactions.lookup id = some t' ∧
    t'.Holds env.sourceDigest t.statements ∧ t'.commitPlan = t.commitPlan ∧ PlansKept s s' id)
    ⟨t, hl, by rw [Holds, hs], rfl, .of_eq rfl⟩ fun {u entry} h hg => ?_
  obtain ⟨t', hl', hholds, hplan, hplans⟩ := h
  obtain ⟨hmoves, hkept⟩ := lookup_applyEntry hl' hg.2
  have hplans' := hplans.trans (hkept fun activity ho => by
    rw [Holds, ho] at hholds
    exact hholds)
  rcases hmoves with hsame | ⟨c, t'', operations, hm, ht''⟩
  · exact ⟨t', hsame, hholds, hplan, hplans'⟩
  · obtain ⟨hholds', hplan'⟩ := hm.holds hholds
    exact ⟨t'', ht'', hholds', hplan'.trans hplan, hplans'⟩

theorem sameRecords_of_refused
    (hr : (s.applyEntry env entry).response = .transaction (.error error))
    (he : ∀ expected current, error ≠ .previewStale expected current) :
    SameRecords s (s.applyEntry env entry).state := by
  cases hp : entry.payload with
  | blank =>
    unfold applyEntry
    rw [hp]
    exact ⟨rfl, rfl, rfl, rfl, rfl, rfl, rfl⟩
  | membership =>
    unfold applyEntry
    rw [hp]
    exact ⟨rfl, rfl, rfl, rfl, rfl, rfl, rfl⟩
  | normal c =>
    obtain ⟨s', revision, ht, hs⟩ := @StateMachineData.applyEntry_transition env s entry c hp
    rw [hr] at ht
    rw [hs]
    generalize hresponse : ConsensusResponse.transaction (.error error) = response at ht
    cases ht with
    | error => exact ⟨rfl, rfl, rfl, rfl, rfl, rfl, rfl⟩
    | domain h => cases h <;> cases hresponse
    | transaction h =>
      cases h with
      | stale =>
        cases hresponse
        exact absurd rfl (he _ _)
      | _ => cases hresponse
    | _ => cases hresponse

/-- **Replicated transactions only move forward**, in every run in which a preview is found stale
only while its transaction is open. -/
theorem movesForward_of_run (h : (transactionRuns env).Run .initial s) : MovesForward env s := by
  have hinv := h.inv (P := fun s => s.KeepsTransactions env.topologyDigest ∧ s.PlansTransactions)
    ⟨StateMachineData.keepsTransactions_initial _, fun _ _ _ h => by cases h⟩
    fun {u entry} hu hg => ⟨keepsTransactions_applyEntry hg.2.1 hu.1,
      plansTransactions_applyEntry hg.2.1 hg.2.2 hu.2⟩
  obtain ⟨hkeeps, hplanned⟩ := hinv
  refine ⟨fun hl => (hkeeps.kept hl).isReachable, fun hl hs => finished_of_run hl hs, fun hl hs => ?_,
    fun hl hs => committing_of_run hl hs, fun {id t t' entry} hl hl' => ?_,
    fun hl => (hkeeps.kept hl).references,
    fun hl hs ho => ?_, sameRecords_of_refused⟩
  · obtain ⟨plan, hplan, hpreview⟩ := hplanned _ _ _ hl hs
    have hmem := hkeeps.linked hl
    rw [Linked, hpreview] at hmem
    obtain ⟨header, hheader⟩ := mem_iff.mp (hkeeps.reports.mem_revisionsOf.mp hmem).2
    obtain ⟨report, hreport⟩ := hkeeps.reports.readable hheader
    exact ⟨plan, report, hplan, hpreview, hreport⟩
  · obtain ⟨hsame | ⟨c, t'', operations, hm, ht''⟩, -⟩ :=
      lookup_applyEntry hl (mem_of_lookup_eq_some hl')
    · cases hl'.symm.trans hsame
      exact .inl rfl
    · cases hl'.symm.trans ht''
      exact hm.statements
  · obtain ⟨-, haccepted, -, -, hcommitted⟩ := (hkeeps.kept hl).ended _ hs
    obtain ⟨hsucceeded, hend⟩ := hcommitted ho
    refine ⟨hsucceeded, ?_⟩
    rw [(TransactionStepResult.statements_of_endOfConsecutiveFrom hend).2, haccepted,
      range_eq_range', Nat.sub_zero]

def openEmpty : ConsensusCommand :=
  .openTransaction (.open "t" "d" "u" ⟨0, 100⟩) 5

def emptyReport (planningBasis : Digest) : TransactionReportArchive :=
  ⟨⟨⟨"t", 0, planningBasis⟩, "d", .complete, 0, 0⟩, [], [], []⟩

def commitEmpty (expected planningBasis : Digest) : ConsensusCommand :=
  .startTransactionCommit "t" "u" ⟨1, 100⟩ ⟨"t", 0, expected⟩ (emptyReport planningBasis)
    ⟨⟨⟨"t", 0, planningBasis⟩, []⟩, [], ⟨"d", "nodes"⟩⟩

theorem movesForward_of_commit : let s := stateAfter [openEmpty, commitEmpty "b" "b"]
    (s.transactions.lookup "t").any (fun t => t.commitPlan = some ⟨⟨"t", 0, "b"⟩, 0⟩) = true ∧
      MovesForward .fixed s := by
  refine ⟨by decide, movesForward_of_run ?_⟩
  refine restrict_run_concat [openEmpty] _ (restrict_run_concat [] _ .refl ⟨?_, ?_⟩) ⟨?_, ?_⟩
  · rintro _ ⟨⟩
    exact ⟨"t", "d", "u", ⟨0, 100⟩, .inl rfl⟩
  · rintro _ _ _ ⟨⟩
  · rintro _ ⟨⟩
    trivial
  · rintro _ _ _ ⟨⟩

/-- A client that planned again replaces the preview that the transaction is committing. -/
theorem committing_preview_replaced :
    let s := stateAfter [openEmpty, commitEmpty "b" "b", commitEmpty "b" "b'"]
    (s.transactions.lookup "t").any (fun t => t.state.asStr = "COMMITTING" ∧
      t.commitPlan = some ⟨⟨"t", 0, "b"⟩, 0⟩ ∧ t.latestPreview = some ⟨"t", 0, "b'"⟩) = true := by
  decide

end Nervix.Consensus
