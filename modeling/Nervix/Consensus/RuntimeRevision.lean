import Nervix.Consensus.MutationFence

/-!
# The runtime revision

A node waits for a runtime revision above the last one it has read, and reads the runtime state
again. A change that leaves the revision as it was is never seen.
-/

namespace Nervix.Consensus

open StateMachineData

structure ConsensusRuntimeState where
  parameters : Option ClusterParameterRecord
  revision : Nat
  schedule : Records DomainName DomainSchedule
  domains : Records DomainName DomainState
  domainClockAuthorities : Records DomainName DomainClockAuthority

def StateMachineData.currentRuntimeState (s : StateMachineData) : ConsensusRuntimeState :=
  ⟨s.parameters, s.runtimeRevision, s.schedule, s.domains, s.domainClockAuthorities⟩

/-- The commands that may change what a node reads. -/
def ConsensusCommand.changesRuntime : ConsensusCommand → Bool
  | .seedClusterParameters .. | .alterClusterParameters .. | .replaceDomainSchedule ..
  | .updateKafkaPartitionSchedule .. | .applyAutomaticDomainSchedule .. | .putDomainAndSchedule ..
  | .putDomain .. | .startDomain .. | .stopDomain .. | .pauseDomain .. | .resumeDomain ..
  | .reconcileDomainClockAuthority .. | .applyRestoreStep .. | .advanceTransactionCommit ..
  | .completeTransactionApplication .. => true
  | _ => false

/-- The change is reported, or a node reads what it read before. -/
def Applied.Announces (s : StateMachineData) (a : Applied) : Prop :=
  (a.changes.scheduleChanged || a.changes.domainsChanged) = true ∨
    a.state.currentRuntimeState = s.currentRuntimeState

section
variable {env : Environment} {s s' t : StateMachineData} {c : ConsensusCommand}

/-- A change of one domain that says whether it was made. -/
abbrev Applied.ofChange (r : StateMachineData × Bool) : Applied :=
  ⟨r.1, .applied, { domainsChanged := r.2 }⟩

theorem announces_start :
    (Applied.ofChange (s.commitDomainStart domain start clock authority)).Announces s := by
  unfold commitDomainStart
  split <;> [exact .inr rfl; exact .inl rfl]

theorem announces_stop : (Applied.ofChange (s.commitDomainStop domain)).Announces s := by
  unfold commitDomainStop
  split <;> [exact .inr rfl; exact .inl rfl]

theorem announces_status :
    (Applied.ofChange (s.moveDomainStatus domain expected next)).Announces s := by
  unfold moveDomainStatus
  split
  · exact .inr rfl
  · split <;> [exact .inl rfl; exact .inr rfl]

theorem TransactionStep.announces (h : TransactionStep env s c a) : a.Announces s ∧
    (c.changesRuntime = false → a.state.currentRuntimeState = s.currentRuntimeState) := by
  cases h with
  | answered | opened | touched | queued | stale | admitted | failed =>
    exact ⟨.inr rfl, fun _ => rfl⟩
  | @ended _ _ _ t' =>
    obtain ⟨_, h⟩ := s.retainLatestPreview_shape t'
    rw [storeTransaction, h]
    exact ⟨.inr rfl, fun _ => rfl⟩
  | @begun _ _ _ _ _ effect _ _ _ _ _ _ reports =>
    refine ⟨?_, fun hc => by cases hc⟩
    rcases effect with _ | _ | _ | _ | _ | _ | _
    · exact .inr rfl
    · exact .inl rfl
    · exact .inl rfl
    · exact announces_start (s := { s with transactionReports := reports })
    · exact announces_stop (s := { s with transactionReports := reports })
    · exact .inr rfl
    · exact .inr rfl
  | @completed _ _ _ _ _ _ _ _ _ restored =>
    refine ⟨?_, fun hc => by cases hc⟩
    cases restored with
    | some => exact .inl rfl
    | none =>
      refine .inr ?_
      rw [storeTransaction, releaseFinished]
      split <;> rfl

theorem Transition.quiet (h : Transition env s c s' response) (hc : c.changesRuntime = false) :
    s'.currentRuntimeState = s.currentRuntimeState := by
  cases h with
  | conflict | error | unchanged | admitted | acquired | released | finished | reclaimed | removed =>
    rfl
  | domain h =>
    cases h with
    | resources | installing | cordoned => rfl
    | user =>
      unfold createUser
      split <;> rfl
    | fenced =>
      unfold fenceNodeAdmission
      split <;> rfl
    | _ => cases hc
  | transaction h => exact h.announces.2 hc
  | altered | recorded | restored => cases hc

theorem announces_ofConflict (h : x.Yields fun r => Applied.Announces s ⟨r.1, .applied, r.2⟩) :
    (Applied.ofConflict s x).Announces s := by
  match x, h with
  | .ok r, h => exact h r rfl
  | .error _, _ => exact .inr rfl

theorem announces_ofTransaction (h : x.Yields (TransactionStep env s c)) :
    (Applied.ofTransaction s x).Announces s := by
  match x, h with
  | .ok a, h => exact (h a rfl).announces.1
  | .error _, _ => exact .inr rfl

theorem announces_changeDomain (h : (Applied.ofChange (change s)).Announces s) :
    (Applied.ofConflict s (s.changeDomain domain mutation starts change)).Announces s :=
  announces_ofConflict (.bind fun _ _ => .mapError_bind fun _ _ => .pure h)

theorem announces_installState : (s.installState reference domain authority clock).Yields
    fun r => (Applied.ofChange r).Announces s := by
  refine .ensure_bind fun _ => .mapError_bind fun _ _ => .bind fun _ _ => ?_
  split
  · exact .error
  · dsimp only
    split
    · exact .ensure_bind fun _ => .pure (.inr rfl)
    · exact .ensure_bind fun _ => .pure (.inl rfl)

theorem announces_restoreEffect {imported : Option RestoredUsers}
    (he : s.applyRestoreStepEffect reference step effect = (s', .ok (imported, changes)))
    (h : RestoreEffect s reference step effect s' imported) :
    Applied.Announces s ⟨s', .applied, changes⟩ := by
  cases h with
  | users | imported | installed => exact .inr rfl
  | created =>
    simp only [applyRestoreStepEffect, if_true] at he
    split at he <;> cases congrArg Prod.snd he
    exact .inl rfl
  | resumed =>
    simp only [applyRestoreStepEffect] at he
    split at he
    · rename_i hi
      obtain ⟨hs, hc⟩ := Prod.mk.inj he
      cases hc
      exact hs ▸ announces_installState _ hi
    · cases congrArg Prod.snd he

theorem announces_restore :
    (Applied.ofRestore (s.applyRestoreStep env reference step effect)).Announces s := by
  unfold applyRestoreStep
  split
  · exact .inr rfl
  · rename_i happlying
    obtain ⟨execution, hl, -⟩ := applyingRestore_eq_ok.mp happlying
    split
    · exact .inr rfl
    · split
      · exact .inr rfl
      · obtain ⟨s', users, changes, he, heff⟩ | ⟨conflict, he⟩ | ⟨_, _, _, rfl, rfl, -, -, he⟩ :=
          s.applyRestoreStepEffect_cases reference step effect
        · have hsame : s'.commandExecutions = s.commandExecutions := by cases heff <;> rfl
          have hreads := announces_restoreEffect he heff
          simp only [he, recordRestoreStep, hsame, hl]
          exact hreads
        · simp only [he]
          exact .inr rfl
        · simp only [he]
          exact .inr rfl

theorem announces (leaderTerm : Nat) (c : ConsensusCommand) :
    (applyConsensusCommandAt env leaderTerm s c).Announces s := by
  cases hc : c.changesRuntime with
  | false => exact .inr ((transition leaderTerm c).quiet hc)
  | true =>
    cases c with
    | seedClusterParameters =>
      refine announces_ofConflict (.ok ?_)
      unfold seedClusterParameters
      split <;> [exact .inr rfl; exact .inl rfl]
    | alterClusterParameters =>
      refine announces_ofConflict ?_
      unfold alterClusterParameters
      repeat' split
      all_goals first | exact .error | exact .ok (.inl rfl) | exact .ok (.inr rfl)
    | replaceDomainSchedule =>
      exact announces_ofConflict (.mapError_bind fun _ _ => .mapError_bind fun _ _ =>
        .pure (.inl rfl))
    | updateKafkaPartitionSchedule =>
      exact announces_ofConflict (.mapError_bind fun _ _ => .pure (.inl rfl))
    | applyAutomaticDomainSchedule =>
      exact announces_ofConflict (.mapError_bind fun _ _ => .ensure_bind fun _ =>
        .mapError_bind fun _ _ => .pure (.inl rfl))
    | putDomainAndSchedule =>
      exact announces_ofConflict (.bind fun _ _ => .ensure_bind fun _ => .mapError_bind fun _ _ =>
        .pure (.inl rfl))
    | putDomain => exact announces_ofConflict (.bind fun _ _ => .pure (.inl rfl))
    | startDomain => exact announces_changeDomain announces_start
    | stopDomain => exact announces_changeDomain announces_stop
    | pauseDomain | resumeDomain => exact announces_changeDomain announces_status
    | reconcileDomainClockAuthority =>
      refine announces_changeDomain ?_
      unfold reconcileDomainClockAuthority
      dsimp only
      split <;> [exact .inl rfl; exact .inr rfl]
    | applyRestoreStep => exact announces_restore
    | advanceTransactionCommit => exact announces_ofTransaction advanceTransactionCommit_yields
    | completeTransactionApplication =>
      exact announces_ofTransaction completeTransactionApplication_yields
    | _ => cases hc

theorem runtimeRevision_applyEntry (env s entry) : let s' := (applyEntry env s entry).state
    s'.runtimeRevision = entry.logId.index ∨ s'.currentRuntimeState = s.currentRuntimeState := by
  unfold applyEntry
  dsimp only
  split
  · exact .inr rfl
  · exact .inr rfl
  · rename_i c _
    split
    · exact .inl rfl
    · rename_i hquiet
      exact .inr ((announces entry.logId.term c).resolve_left hquiet)

theorem hasApplied_runtimeRevision (h : (fencedRuns env).Run .initial s) :
    s = .initial ∨ s.HasApplied s.runtimeRevision := by
  induction h with
  | refl => exact .inl rfl
  | @tail s entry _ hg ih =>
    refine .inr (hasApplied_applyEntry ?_)
    rcases runtimeRevision_applyEntry env s entry with h | h
    · exact h.le
    · refine (congrArg ConsensusRuntimeState.revision h).le.trans ?_
      rcases ih with rfl | ih
      · exact Nat.zero_le _
      · exact (ih.lt hg.2).le

/-- **Runtime revisions.** Once an entry is applied, what a node has read is what it would read now,
as long as the revision is not above the one that it has read. -/
theorem runtime_state_of_revision (h : (fencedRuns env).Run .initial s) (hs : s ≠ .initial)
    (ht : (fencedRuns env).Run s t) :
    t.currentRuntimeState = s.currentRuntimeState ∨ s.runtimeRevision < t.runtimeRevision := by
  suffices H : t.HasApplied s.runtimeRevision ∧ (t.currentRuntimeState = s.currentRuntimeState ∨
    s.runtimeRevision < t.runtimeRevision) from H.2
  induction ht with
  | refl => exact ⟨(hasApplied_runtimeRevision h).resolve_left hs, .inl rfl⟩
  | @tail t entry _ hg ih =>
    have hlt := ih.1.lt hg.2
    refine ⟨hasApplied_applyEntry hlt.le, ?_⟩
    rcases runtimeRevision_applyEntry env t entry with h | h
    · exact .inr (hlt.trans_eq h.symm)
    · have hsame := congrArg ConsensusRuntimeState.revision h
      exact ih.2.imp h.trans fun hlt => hlt.trans_eq hsame.symm

theorem runtime_state_of_put :
    let read := stateAfter [.seedClusterParameters "v"]
    let now := stateAfter [.seedClusterParameters "v",
      .putDomain ⟨"d", ⟨.unpaced, "p"⟩, .stopped, 0, "start", none⟩ none]
    now.currentRuntimeState = read.currentRuntimeState ∨
      read.runtimeRevision < now.runtimeRevision :=
  runtime_state_of_revision (fencedRuns_stateAfter [] _)
    (fun h => absurd (congrArg runtimeRevision h) (by decide)) (fencedRuns_stateAfter _ _)

end

end Nervix.Consensus
