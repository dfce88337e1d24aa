import Nervix.Consensus.TransactionProgress

/-!
# The fence of a domain mutation

A lease is the right to change one domain, from the committed entry that granted it to the one that
released it. Its fence is the position of the entry that granted it.
-/

namespace Nervix.Consensus

open Finmap StateMachineData

section leases
variable {env : Environment} {s s' t u : StateMachineData} {d : DomainName} {entry : Entry}
  {lease : DomainMutationLease} {P : DomainMutationLease → Prop}
  {m : Records DomainName DomainMutationLease}

theorem leases_insert (hm : ∀ held ∈ m.lookup d, P held) (hd : d = domain → P lease) :
    ∀ held ∈ (m.insert domain lease).lookup d, P held := by
  intro held hl
  obtain ⟨he, rfl⟩ | ⟨-, hl⟩ := lookup_insert_eq_some.mp hl
  · exact hd he
  · exact hm held hl

theorem leases_erase (hm : ∀ held ∈ m.lookup d, P held) :
    ∀ held ∈ (m.erase domain).lookup d, P held := by
  intro held hl
  rw [lookup_erase_eq] at hl
  split at hl <;> [cases hl; exact hm held hl]

section
variable (hs : ∀ held ∈ s.domainMutations.lookup d, P held)
  (hnew : s.domainMutations.lookup d = none → ∀ owner, P ⟨owner, s.revision⟩)
include hs hnew

theorem lease_admitted (h : s.domainMutations.lookup d = some lease ∨
    s.domainMutations.lookup d = none ∧ lease = ⟨owner, s.revision⟩) : P lease := by
  rcases h with h | ⟨hnone, rfl⟩
  · exact hs lease h
  · exact hnew hnone owner

theorem lease_of_admit (h : s.admitDomainMutation d owner = .ok lease) : P lease := by
  unfold admitDomainMutation at h
  dsimp only at h
  split at h
  · rename_i hadmitted
    cases h
    exact lease_admitted hs hnew (DomainMutationAdmission.intoAdmitted_decide.mp hadmitted).2
  · cases h

theorem leases_of_admitAll : (s.admitDomainMutations owner ds).Yields fun leases =>
    ∀ m : Records DomainName DomainMutationLease, (∀ held ∈ m.lookup d, P held) →
      ∀ held ∈ (leases.foldl (fun m e => m.insert e.1 e.2) m).lookup d, P held := by
  induction ds with
  | nil => exact .ok fun _ hm => hm
  | cons domain ds ih =>
    refine .bind fun lease hl => .bind fun leases hls => .pure fun m hm => ?_
    apply ih leases hls
    apply leases_insert hm
    rintro rfl
    exact lease_of_admit hs hnew hl

theorem TransactionStep.leases (h : TransactionStep env s c a) :
    ∀ held ∈ a.state.domainMutations.lookup d, P held := by
  cases h with
  | answered | opened | touched | queued | stale | failed => exact hs
  | @ended _ _ _ t' =>
    obtain ⟨_, h⟩ := s.retainLatestPreview_shape t'
    rw [storeTransaction, h]
    exact hs
  | @admitted _ _ _ _ _ _ _ _ lease _ _ _ _ _ _ ha =>
    cases lease with
    | none => exact hs
    | some lease =>
      apply leases_insert hs
      rintro rfl
      exact lease_admitted hs hnew ha.2.2
  | @begun _ _ _ _ _ effect _ t _ _ _ _ reports =>
    obtain ⟨_, _, _, _, -, h⟩ :=
      applyStep_shape { s with transactionReports := reports } t.domain effect
    rw [storeTransaction, h]
    exact hs
  | @completed _ _ _ _ _ t _ _ _ restored _ reports =>
    obtain ⟨_, h⟩ := putBackSchedule_shape
      { s with transactionReports := reports } t.domain restored
    rw [storeTransaction, h, releaseFinished]
    split
    · exact hs
    · exact hs
    · dsimp only
      split <;> [exact leases_erase hs; exact hs]

/-- A command leaves the lease that it found, or one that its entry granted where there was none. -/
theorem Transition.leases (h : Transition env s c s' response) :
    ∀ held ∈ s'.domainMutations.lookup d, P held := by
  cases h with
  | conflict | error | unchanged | altered | reclaimed | recorded | removed => exact hs
  | domain h =>
    obtain ⟨_, _, _, _, _, _, _, rfl⟩ | ⟨_, -, -, rfl⟩ | ⟨_, _, _, _, -, -, -, rfl⟩ := h.shape <;>
      exact hs
  | transaction h => exact h.leases hs hnew
  | admitted _ _ hm => exact leases_of_admitAll hs hnew _ hm _ hs
  | acquired _ _ _ hl =>
    apply leases_insert hs
    rintro rfl
    exact lease_of_admit hs hnew hl
  | released => exact leases_erase hs
  | finished =>
    intro held hl
    rw [lookup_retain, Option.mem_def, Option.filter_eq_some_iff] at hl
    exact hs held hl.1
  | restored _ _ _ _ h =>
    obtain ⟨_, _, _, _, rfl⟩ := h.shape
    exact hs

end

theorem leases_applyEntry (hs : ∀ held ∈ s.domainMutations.lookup d, P held)
    (hnew : s.domainMutations.lookup d = none → ∀ owner, P ⟨owner, entry.logId.index⟩) :
    ∀ held ∈ (s.applyEntry env entry).state.domainMutations.lookup d, P held := by
  refine applyEntry_rule (P := fun t => ∀ held ∈ t.domainMutations.lookup d, P held) (fun _ => hs)
    fun _ _ _ _ _ h => ?_
  have := h.leases (d := d) (P := P)
  exact this hs hnew

def fencedRuns (env : Environment) : System StateMachineData Entry :=
  (stateMachine env).restrict fun s entry => entry.Follows s

theorem fencedRuns_stateAfter (commands : List ConsensusCommand) (c : ConsensusCommand) :
    (fencedRuns .fixed).Run (stateAfter commands) (stateAfter (commands ++ [c])) := by
  rw [stateAfter_concat]
  exact System.Run.refl.tail ⟨trivial, follows_stateAfter _ _⟩

/-- The log is applied up to an index, or further. -/
def StateMachineData.HasApplied (s : StateMachineData) (index : Nat) : Prop :=
  ∃ logId, s.lastAppliedLogId = some logId ∧ index ≤ logId.index

theorem hasApplied_applyEntry (h : index ≤ entry.logId.index) :
    (s.applyEntry env entry).state.HasApplied index :=
  ⟨entry.logId, lastAppliedLogId_applyEntry, h⟩

theorem StateMachineData.HasApplied.lt (h : s.HasApplied index) (hf : entry.Follows s) :
    index < entry.logId.index := by
  obtain ⟨logId, hs, hle⟩ := h
  exact hle.trans_lt (hf logId hs)

/-- A lease in force was granted by an applied entry. -/
theorem hasApplied_fence (h : (fencedRuns env).Run .initial s) :
    ∀ held ∈ s.domainMutations.lookup d, s.HasApplied held.recoveryFence := by
  induction h with
  | refl => nofun
  | tail _ hg ih =>
    refine leases_applyEntry (fun held hl => ?_) fun _ _ => hasApplied_applyEntry le_rfl
    exact hasApplied_applyEntry ((ih held hl).lt hg.2).le

/-- Entries after the grant of a lease grant greater fences only. -/
theorem leases_of_run (hP : ∀ held : DomainMutationLease, lease.recoveryFence < held.recoveryFence →
      P held) (hg : s.HasApplied lease.recoveryFence)
    (hs : ∀ held ∈ s.domainMutations.lookup d, P held) (h : (fencedRuns env).Run s t) :
    t.HasApplied lease.recoveryFence ∧ ∀ held ∈ t.domainMutations.lookup d, P held := by
  induction h with
  | refl => exact ⟨hg, hs⟩
  | tail _ hf ih =>
    have hlt := ih.1.lt hf.2
    exact ⟨hasApplied_applyEntry hlt.le, leases_applyEntry ih.2 fun _ _ => hP _ hlt⟩

/-- The domain that a command changes, and the lease under which it does. -/
def ConsensusCommand.mutation : ConsensusCommand → Option (DomainName × Option DomainMutationLease)
  | .replaceDomainSchedule inputs _ mutation => some (inputs.domain, mutation)
  | .putDomainAndSchedule _ domain _ mutation | .putDomain domain mutation =>
    some (domain.id, mutation)
  | .startDomain domain _ _ _ mutation | .stopDomain domain mutation | .pauseDomain domain mutation
  | .resumeDomain domain mutation => some (domain, mutation)
  | _ => none

def Applied.Refuses (s : StateMachineData) (a : Applied) : Prop :=
  a.state = s ∧ a.response.isRefusal = true

theorem refuses_ofConflict (h : x.Yields fun _ => False) : (Applied.ofConflict s x).Refuses s := by
  match x, h with
  | .ok r, h => exact (h r rfl).elim
  | .error _, _ => exact ⟨rfl, rfl⟩

theorem refuses_of_lease (hn : s.domainMutations.lookup d ≠ some lease)
    (hc : c.mutation = some (d, some lease)) :
    (applyConsensusCommandAt env leaderTerm s c).Refuses s := by
  cases c with
  | replaceDomainSchedule =>
    cases hc
    exact refuses_ofConflict (.mapError_bind fun _ h =>
      absurd (validateDomainMutation_eq_ok.mp h) hn)
  | putDomainAndSchedule | putDomain =>
    cases hc
    exact refuses_ofConflict (.bind fun _ h => absurd (validateDomainRecord_yields _ h).2 hn)
  | startDomain | stopDomain | pauseDomain | resumeDomain =>
    cases hc
    exact refuses_ofConflict (.bind fun _ _ => .mapError_bind fun _ h =>
      absurd (validateDomainMutation_eq_ok.mp h) hn)
  | _ => cases hc

/-- **Fencing.** A lease in force is not replaced by another one before it is released, and once
released it never returns: every lease of its domain from there on has a greater fence, and no
command that its holder still sends changes anything. -/
theorem leases_fenced (h : (fencedRuns env).Run .initial s)
    (hl : s.domainMutations.lookup d = some lease) :
    (∀ entry, ∀ held ∈ (s.applyEntry env entry).state.domainMutations.lookup d, held = lease) ∧
      ∀ {t u}, (fencedRuns env).Run s t → t.domainMutations.lookup d ≠ some lease →
        (fencedRuns env).Run t u →
        (∀ held ∈ u.domainMutations.lookup d, lease.recoveryFence < held.recoveryFence) ∧
          ∀ leaderTerm c, c.mutation = some (d, some lease) →
            (applyConsensusCommandAt env leaderTerm u c).Refuses u := by
  have hown : ∀ held ∈ s.domainMutations.lookup d, held = lease :=
    fun held hheld => Option.some.inj (hheld.symm.trans hl)
  refine ⟨fun entry => leases_applyEntry hown fun hnone => ?_, fun {t u} ht hn hu => ?_⟩
  · cases hl.symm.trans hnone
  · obtain ⟨hg, hheld⟩ := leases_of_run (P := fun held => held = lease ∨
      lease.recoveryFence < held.recoveryFence) (fun _ => .inr) (hasApplied_fence h lease hl)
      (fun held hin => .inl (hown held hin)) ht
    have hlater : ∀ held ∈ u.domainMutations.lookup d,
        lease.recoveryFence < held.recoveryFence := by
      refine (leases_of_run (fun _ h => h) hg (fun held hin => ?_) hu).2
      refine (hheld held hin).resolve_left ?_
      rintro rfl
      exact hn hin
    exact ⟨hlater, fun _ _ => refuses_of_lease fun hsame => lt_irrefl _ (hlater lease hsame)⟩

theorem leases_fenced_of_release :
    let first : ConsensusCommand := .admitCommandExecution (.applyingAtPosition "a" "u" (some "d")
      none "q" 11 (.statement "s")) ["d"] ⟨5, 20, 4⟩
    let t := stateAfter [first, .releaseCommandDomainMutation "a" "u" "q" "d"]
    (applyConsensusCommandAt .fixed 1 t (.stopDomain "d" (some ⟨.command "a", 1⟩))).Refuses t := by
  intro first t
  have hl : (stateAfter [first]).domainMutations.lookup "d" = some ⟨.command "a", 1⟩ := by decide
  have h := leases_fenced (fencedRuns_stateAfter [] _) hl
  exact (h.2 (fencedRuns_stateAfter [first] _) (by decide) .refl).2 1 _ rfl

end leases

end Nervix.Consensus
