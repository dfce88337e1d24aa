import Nervix.Theory.System
import Nervix.Consensus.TransactionTransition

/-!
# What a command can do

Every way a command leaves the replicated state, with what it checked before, and the runs of
committed entries.
-/

namespace Nervix.Consensus

open Except (ensure_bind_eq_ok ensure_eq_ok mapError_eq_ok)

namespace StateMachineData

variable {s : StateMachineData} {domain : DomainName} {u : Unit}

theorem validateDomainMutation_eq_ok :
    s.validateDomainMutation domain requested = .ok u ↔
      s.domainMutations.lookup domain = requested := by
  unfold validateDomainMutation
  split
  · simp [*]
  · split <;> simp_all
  · simp [*]
  · simp [*]

theorem validateStartGate_yields :
    (s.validateStartGate domain starts).Yields fun _ =>
      starts = true → s.domainRestoreInstallations.lookup domain = none := by
  unfold validateStartGate
  split
  · intro _ h _
    exact Finmap.lookup_eq_none.mpr (ensure_eq_ok.mp (mapError_eq_ok.mp h))
  · rename_i hs
    exact fun _ _ h => absurd h hs

theorem boundExecution_yields : (s.boundExecution reference owner requestDigest).Yields
      fun execution => s.commandExecutions.entries.lookup reference = some execution := by
  unfold boundExecution
  split
  · exact .error
  · split
    · exact .ok ‹_›
    · exact .error

theorem applyingRestore_eq_ok : s.applyingRestore reference = .ok restore ↔
      ∃ execution, s.commandExecutions.entries.lookup reference = some execution ∧
        execution.restoreExecution = some restore := by
  rw [← Option.bind_eq_some_iff]
  unfold applyingRestore
  split <;> simp [*]

structure Installs (s : StateMachineData) (domain : DomainName) (authority : RestoreStateAuthority) :
    Prop where
  installing : s.domainRestoreInstallations.lookup domain = some (.installing authority)
  restore : ∃ execution restore,
    s.commandExecutions.entries.lookup authority.execution = some execution ∧
      execution.restoreExecution = some restore
  lease : s.domainMutations.lookup domain =
    some ⟨.command authority.execution, authority.mutationRevision⟩
  stopped : ∃ state, s.domains.lookup domain = some state ∧ state.status = .stopped

theorem isStopped_iff : s.isStopped domain = true ↔
    ∃ state, s.domains.lookup domain = some state ∧ state.status = .stopped := by
  simp [isStopped, Option.any_eq_true]

theorem installs_of_validate :
    (s.validateRestoreStateInstallation domain authority).Yields
      fun _ => s.Installs domain authority := by
  intro _ h
  obtain ⟨hi, he, hl, hs⟩ := ensure_eq_ok.mp h
  obtain ⟨execution, hlookup, hex⟩ := (Option.any_eq_true ..).mp he
  obtain ⟨lease, hlease, hown⟩ := (Option.any_eq_true ..).mp hl
  simp only [Bool.and_eq_true, decide_eq_true_eq] at hex hown
  obtain ⟨restore, hr⟩ := Option.isSome_iff_exists.mp hex.2
  refine ⟨hi, ⟨execution, restore, hlookup, hr⟩, ?_, isStopped_iff.mp hs⟩
  rw [hlease, ← hown.1, ← hown.2]

end StateMachineData

open StateMachineData in
inductive RestoreEffect (s : StateMachineData) (reference : CommandExecutionReference) :
    RestoreStep → RestoreStepEffect → StateMachineData → Option RestoredUsers → Prop
  | users {users policy imported restored} :
      importUsersFrom policy users ⟨0, 0, 0⟩ s.users = (imported, .ok restored) →
      RestoreEffect s reference .users (.users users policy) { s with users := imported }
        (some restored)
  | created {state resources execution lease} :
      s.commandExecutions.entries.lookup reference = some execution →
      execution.domainMutation state.id = some lease →
      s.domainMutations.lookup state.id = some lease → s.domains.lookup state.id = none →
      (∀ declared ∈ resources, s.resources.declares state.id declared.resource = false) →
      RestoreEffect s reference (.createDomain state.id) (.domain state resources) { s with
        domains := s.domains.insert state.id state
        domainRestoreInstallations :=
          s.domainRestoreInstallations.insert state.id (.pending reference)
        resources := resources.foldl
          (fun r declared => r.restoreCatalog state.id declared.resource declared.nextVersion)
          s.resources } none
  | imported {domain} : RestoreEffect s reference (.importResources domain) .completion s none
  | installed {domain authority} : authority.execution = reference → s.Installs domain authority →
      RestoreEffect s reference (.applyModels domain) (.installedState authority none)
        { s with domainRestoreInstallations := s.domainRestoreInstallations.erase domain } none
  | resumed {domain authority clock restored} : authority.execution = reference →
      s.Installs domain authority → s.domains.lookup domain = some restored →
      RestoreEffect s reference (.applyModels domain) (.installedState authority clock) { s with
        domainRestoreInstallations := s.domainRestoreInstallations.erase domain
        domains := s.domains.insert domain
          { restored with status := .running, clock := clock } } none

namespace StateMachineData

variable {s : StateMachineData} {reference : CommandExecutionReference}

theorem createDomain_yields {state : DomainState} {resources : List RestoredResource} :
    (s.createDomain reference state resources).Yields fun s' =>
      RestoreEffect s reference (.createDomain state.id) (.domain state resources) s' none := by
  unfold createDomain
  dsimp only
  split
  · exact .error
  · rename_i lease h
    obtain ⟨execution, hl, hm⟩ := Option.bind_eq_some_iff.mp h
    refine .mapError_bind fun _ hv => .ensure_bind fun hd => ?_
    split
    · exact .error
    · rename_i hf
      refine .pure (.created hl hm (validateDomainMutation_eq_ok.mp hv)
        (Finmap.lookup_eq_none.mpr hd) fun declared hdec => ?_)
      simpa using List.find?_eq_none.mp hf declared hdec

theorem installState_yields :
    (s.installState reference domain authority clock).Yields fun r =>
      RestoreEffect s reference (.applyModels domain) (.installedState authority clock) r.1
        none := by
  refine .ensure_bind fun he => .mapError_bind fun _ hv => .bind fun restore _ => ?_
  have hi := installs_of_validate _ hv
  split
  · exact .error
  · rename_i restored hd
    split
    · refine .ensure_bind fun hc => .pure ?_
      subst hc
      exact .installed he hi
    · exact .ensure_bind fun _ => .pure (.resumed he hi hd)

theorem policy_of_importUsersFrom :
    ∀ {users : List UserCredentials} {restored : RestoredUsers}
      {stored imported : Records UserName UserCredentials},
      importUsersFrom policy users restored stored = (imported, .error conflict) → policy = .fail
  | [], _, _, _, h => nomatch (Prod.mk.inj h).2
  | user :: users, _, _, _, h => by
    unfold importUsersFrom at h
    split at h
    · split at h
      · exact policy_of_importUsersFrom h
      · exact policy_of_importUsersFrom h
      · rfl
    · exact policy_of_importUsersFrom h

theorem applyRestoreStepEffect_cases (s : StateMachineData) (reference : CommandExecutionReference)
    (step : RestoreStep) (effect : RestoreStepEffect) :
    (∃ s' users changes, s.applyRestoreStepEffect reference step effect =
        (s', .ok (users, changes)) ∧ RestoreEffect s reference step effect s' users) ∨
    (∃ conflict, s.applyRestoreStepEffect reference step effect = (s, .error conflict)) ∨
    ∃ users imported conflict, step = .users ∧ effect = .users users .fail ∧
      (∀ user ∈ users, user.name ∉ s.users) ∧
      importUsersFrom .fail users ⟨0, 0, 0⟩ s.users = (imported, .error conflict) ∧
      s.applyRestoreStepEffect reference step effect =
        ({ s with users := imported }, .error conflict) := by
  unfold applyRestoreStepEffect
  split
  · rename_i users policy
    unfold importUsers
    dsimp only
    split
    · exact .inr (.inl ⟨_, rfl⟩)
    · rename_i hfind
      rcases h : importUsersFrom policy users ⟨0, 0, 0⟩ s.users with ⟨imported, result⟩
      cases result with
      | ok restored => exact .inl ⟨_, _, _, rfl, .users h⟩
      | error conflict =>
        cases policy_of_importUsersFrom h
        refine .inr (.inr ⟨users, imported, conflict, rfl, rfl, fun user hu => ?_, h, rfl⟩)
        simpa using List.find?_eq_none.mp hfind user hu
  · rename_i domain state resources
    split
    · rename_i hid
      subst hid
      split
      · exact .inl ⟨_, _, _, rfl, createDomain_yields _ ‹_›⟩
      · exact .inr (.inl ⟨_, rfl⟩)
    · exact .inr (.inl ⟨_, rfl⟩)
  · exact .inl ⟨_, _, _, rfl, .imported⟩
  · split
    · exact .inl ⟨_, _, _, rfl, installState_yields _ ‹_›⟩
    · exact .inr (.inl ⟨_, rfl⟩)
  · exact .inr (.inl ⟨_, rfl⟩)

end StateMachineData

theorem RestoreEffect.shape {s s' : StateMachineData} {reference : CommandExecutionReference}
    {step : RestoreStep} {effect : RestoreStepEffect} {users : Option RestoredUsers}
    (h : RestoreEffect s reference step effect s' users) :
    ∃ users domains installations resources, s' = { s with
      users := users
      domains := domains
      domainRestoreInstallations := installations
      resources := resources } := by
  cases h <;> exact ⟨_, _, _, _, rfl⟩

inductive ResourceStep (s : StateMachineData) : ConsensusCommand → ResourceRecords → Prop
  | catalog {domain identifier} : ResourceStep s (.createResourceCatalog domain identifier)
      (s.resources.ensureCatalog domain identifier)
  | begun {key rootChecksum resources} : s.resources.beginUpload key rootChecksum = .ok resources →
      ResourceStep s (.beginResourceUpload key rootChecksum) resources
  | published {key resource replica resources} :
      s.resources.publishUpload key resource replica = .ok resources →
      ResourceStep s (.publishResourceUpload key resource replica) resources
  | replica {replica} : ResourceStep s (.putResourceReplica replica)
      { s.resources with replicas := s.resources.replicas.insert replica.key replica }
  | completed {key resources} : s.resources.completeUpload key s.revision = .ok resources →
      ResourceStep s (.completeResourceUpload key) resources
  | failed {key reason resources} : s.resources.failUpload key s.revision reason = .ok resources →
      ResourceStep s (.failResourceUpload key reason) resources
  | imported {reference key resource replica restore resources} :
      s.applyingRestore reference = .ok restore →
      restore.isRecorded (.createDomain key.domain) = true →
      s.resources.importVersion key resource replica = .ok resources →
      ResourceStep s (.importResourceVersion reference key resource replica) resources

namespace StateMachineData

variable (s : StateMachineData) (domain : DomainName)

theorem moveDomainStatus_shape (expected next : DomainStatus) :
    ∃ domains, (s.moveDomainStatus domain expected next).1 = { s with domains := domains } := by
  unfold moveDomainStatus
  split
  · exact ⟨_, rfl⟩
  · split <;> exact ⟨_, rfl⟩

theorem reconcileDomainClockAuthority_shape (version : Nat) (expected : DomainClockAuthority)
    (owner : Option ClusterNodeIdentity) :
    ∃ authorities, (s.reconcileDomainClockAuthority domain version expected owner).1 =
      { s with domainClockAuthorities := authorities } := by
  unfold reconcileDomainClockAuthority
  dsimp only
  split <;> exact ⟨_, rfl⟩

theorem createUser_shape (user : UserCredentials) :
    ∃ users, s.createUser user = { s with users := users } := by
  unfold createUser
  split <;> exact ⟨_, rfl⟩

theorem fenceNodeAdmission_shape (identity : ClusterNodeIdentity) :
    ∃ fences, s.fenceNodeAdmission identity = { s with nodeAdmissionFences := fences } := by
  unfold fenceNodeAdmission
  split <;> exact ⟨_, rfl⟩

end StateMachineData

open StateMachineData in
inductive DomainStep (s : StateMachineData) :
    ConsensusCommand → StateMachineData → ConsensusResponse → Prop
  | seeded {values} : s.parameters = none → DomainStep s (.seedClusterParameters values)
      { s with parameters := some ⟨1, values⟩ } .applied
  | scheduled {inputs schedule mutation} : s.domainMutations.lookup inputs.domain = mutation →
      s.domainPlanningInputs inputs.domain = inputs →
      DomainStep s (.replaceDomainSchedule inputs schedule mutation)
        (s.replaceDomainSchedule inputs.domain schedule) .applied
  | partitions {inputs schedule} : s.domainPlanningInputs inputs.domain = inputs →
      DomainStep s (.updateKafkaPartitionSchedule inputs schedule)
        (s.replaceDomainSchedule inputs.domain (some schedule)) .applied
  | automatic {fence inputs schedule} : s.domainMutations.lookup inputs.domain = none →
      s.domainPlanningInputs inputs.domain = inputs →
      DomainStep s (.applyAutomaticDomainSchedule fence inputs schedule)
        (s.replaceDomainSchedule inputs.domain schedule) .applied
  | domainAndSchedule {inputs domain schedule mutation} :
      (domain.status ≠ .stopped → s.domainRestoreInstallations.lookup domain.id = none) →
      s.domainMutations.lookup domain.id = mutation →
      s.domainPlanningInputs domain.id = inputs →
      DomainStep s (.putDomainAndSchedule inputs domain schedule mutation)
        ((s.putDomain domain).replaceDomainSchedule domain.id schedule) .applied
  | put {domain mutation} :
      (domain.status ≠ .stopped → s.domainRestoreInstallations.lookup domain.id = none) →
      s.domainMutations.lookup domain.id = mutation →
      DomainStep s (.putDomain domain mutation) (s.putDomain domain) .applied
  | started {domain start clock authority mutation} :
      s.domainRestoreInstallations.lookup domain = none →
      s.domainMutations.lookup domain = mutation →
      DomainStep s (.startDomain domain start clock authority mutation)
        (s.commitDomainStart domain start clock authority).1 .applied
  | stopped {domain mutation} : s.domainMutations.lookup domain = mutation →
      DomainStep s (.stopDomain domain mutation) (s.commitDomainStop domain).1 .applied
  | paused {domain mutation} : s.domainMutations.lookup domain = mutation →
      DomainStep s (.pauseDomain domain mutation)
        (s.moveDomainStatus domain .running .paused).1 .applied
  | resumed {domain mutation} : s.domainRestoreInstallations.lookup domain = none →
      s.domainMutations.lookup domain = mutation →
      DomainStep s (.resumeDomain domain mutation)
        (s.moveDomainStatus domain .paused .running).1 .applied
  | reconciled {domain version expected owner} : s.domainMutations.lookup domain = none →
      DomainStep s (.reconcileDomainClockAuthority domain version expected owner)
        (s.reconcileDomainClockAuthority domain version expected owner).1 .applied
  | user {user} : DomainStep s (.createUser user) (s.createUser user) .applied
  | resources {c resources} : ResourceStep s c resources →
      DomainStep s c { s with resources := resources } .applied
  | usersRefused {reference users imported conflict answer execution restore} :
      s.commandExecutions.entries.lookup reference = some execution →
      execution.restoreExecution = some restore → restore.isRecorded .users = false →
      (∀ user ∈ users, user.name ∉ s.users) →
      importUsersFrom .fail users ⟨0, 0, 0⟩ s.users = (imported, .error conflict) →
      DomainStep s (.applyRestoreStep reference .users (.users users .fail))
        { s with users := imported } (.conflict answer)
  | installing {reference domain tenure execution restore lease} :
      s.commandExecutions.entries.lookup reference = some execution →
      execution.restoreExecution = some restore →
      restore.isRecorded (.importResources domain) = true →
      restore.isRecorded (.applyModels domain) = false →
      execution.domainMutation domain = some lease →
      s.domainMutations.lookup domain = some lease → s.isStopped domain = true →
      (s.domainRestoreInstallations.lookup domain).map (·.execution) = some reference →
      DomainStep s (.beginRestoreStateInstallation reference domain tenure) { s with
        domainRestoreInstallations := s.domainRestoreInstallations.insert domain (.installing
          ⟨tenure.leaderId, tenure.term, reference, lease.recoveryFence, s.revision⟩) } .applied
  | cordoned {nodeId cordoned} : DomainStep s (.setNodeCordoned nodeId cordoned)
      (s.setNodeCordoned nodeId cordoned) .applied
  | fenced {identity} : DomainStep s (.fenceNodeAdmission identity)
      (s.fenceNodeAdmission identity) .applied

open StateMachineData in
theorem DomainStep.shape (h : DomainStep s c s' response) :
    (∃ parameters schedule domains authorities users cordoned fences,
      s' = { s with
        parameters := parameters
        schedule := schedule
        domains := domains
        domainClockAuthorities := authorities
        users := users
        cordonedNodeIds := cordoned
        nodeAdmissionFences := fences }) ∨
      (∃ resources, ResourceStep s c resources ∧ response = .applied ∧
        s' = { s with resources := resources }) ∨
      ∃ reference domain tenure authority,
        c = .beginRestoreStateInstallation reference domain tenure ∧
        authority.generation = s.revision ∧ s.isStopped domain = true ∧
        s' = { s with domainRestoreInstallations :=
          s.domainRestoreInstallations.insert domain (.installing authority) } := by
  cases h with
  | resources h => exact .inr (.inl ⟨_, h, rfl, rfl⟩)
  | installing _ _ _ _ _ _ hd => exact .inr (.inr ⟨_, _, _, _, rfl, rfl, hd, rfl⟩)
  | seeded | put | usersRefused | cordoned => exact .inl ⟨_, _, _, _, _, _, _, rfl⟩
  | scheduled | automatic | partitions | domainAndSchedule =>
    obtain ⟨_, h⟩ := replaceDomainSchedule_shape _ _ _
    exact .inl ⟨_, _, _, _, _, _, _, h⟩
  | started =>
    obtain ⟨_, _, h⟩ := commitDomainStart_shape _ _ _ _ _
    exact .inl ⟨_, _, _, _, _, _, _, h⟩
  | stopped =>
    obtain ⟨_, _, h⟩ := commitDomainStop_shape _ _
    exact .inl ⟨_, _, _, _, _, _, _, h⟩
  | paused | resumed =>
    obtain ⟨_, h⟩ := moveDomainStatus_shape _ _ _ _
    exact .inl ⟨_, _, _, _, _, _, _, h⟩
  | reconciled =>
    obtain ⟨_, h⟩ := reconcileDomainClockAuthority_shape _ _ _ _ _
    exact .inl ⟨_, _, _, _, _, _, _, h⟩
  | user =>
    obtain ⟨_, h⟩ := createUser_shape _ _
    exact .inl ⟨_, _, _, _, _, _, _, h⟩
  | fenced =>
    obtain ⟨_, h⟩ := fenceNodeAdmission_shape _ _
    exact .inl ⟨_, _, _, _, _, _, _, h⟩

def ConsensusCommand.mayRepeat : ConsensusCommand → Bool
  | .seedClusterParameters _ | .alterClusterParameters _ _ | .admitCommandExecution _ _ _
  | .acquireCommandDomainMutation _ _ _ _ | .releaseCommandDomainMutation _ _ _ _
  | .finishCommandExecution _ _ _ _ _ | .reconcileOwnershipHandoffPreparations _ => true
  | _ => false

open StateMachineData in
inductive Transition (env : Environment) (s : StateMachineData) :
    ConsensusCommand → StateMachineData → ConsensusResponse → Prop
  | conflict {c conflict} : Transition env s c s (.conflict conflict)
  | error {c error} : Transition env s c s (.transaction (.error error))
  | unchanged {c} : c.mayRepeat = true → Transition env s c s .applied
  | domain {c s' response} : DomainStep s c s' response → Transition env s c s' response
  | transaction {c a} : TransactionStep env s c a → Transition env s c a.state a.response
  | altered {reference inputs execution applying changes record} :
      s.commandExecutions.entries.lookup reference = some execution →
      execution.state = .applying applying → applying.effect = .alterCluster changes none →
      Transition env s (.alterClusterParameters reference inputs) { s with
        commandExecutions := s.commandExecutions.replace env.issuedAt { execution with
          state := .applying { applying with effect := .alterCluster changes (some record) } }
        parameters := some record } .applied
  | admitted {execution domains policy leases} :
      s.commandExecutions.entries.lookup execution.reference = none →
      s.commandExecutions.validateAdmission env.issuedAt execution.reference policy = .ok () →
      s.admitDomainMutations (.command execution.reference) domains = .ok leases →
      Transition env s (.admitCommandExecution execution domains policy)
        { s.storeDomainMutations leases with
          commandExecutions := s.commandExecutions.insertAdmitted
            (leases.foldl (fun execution e => execution.bindDomainMutation e.1 e.2) execution)
            policy } .applied
  | acquired {reference owner digest domain execution lease} :
      s.commandExecutions.entries.lookup reference = some execution →
      execution.isApplying = true → execution.domainMutation domain = none →
      s.admitDomainMutation domain (.command reference) = .ok lease →
      Transition env s (.acquireCommandDomainMutation reference owner digest domain) { s with
        domainMutations := s.domainMutations.insert domain lease
        commandExecutions := s.commandExecutions.replace env.issuedAt
          (execution.bindDomainMutation domain lease) } .applied
  | released {reference owner digest domain execution lease} :
      s.commandExecutions.entries.lookup reference = some execution →
      execution.isApplying = true → execution.domainMutation domain = some lease →
      s.domainMutations.lookup domain = some lease →
      Transition env s (.releaseCommandDomainMutation reference owner digest domain) { s with
        domainMutations := s.domainMutations.erase domain
        commandExecutions := s.commandExecutions.replace env.issuedAt
          (execution.releaseDomainMutation domain) } .applied
  | finished {reference owner digest finishedAt result execution finished} :
      s.commandExecutions.entries.lookup reference = some execution →
      execution.isApplying = true →
      (∀ domain lease, execution.domainMutation domain = some lease →
        s.domainMutations.lookup domain = some lease) →
      execution.intoFinished s.revision finishedAt result = some finished →
      Transition env s (.finishCommandExecution reference owner digest finishedAt result) { s with
        domainMutations := s.domainMutations.retain
          fun domain _ => (execution.domainMutation domain).isNone
        commandExecutions := s.commandExecutions.replace env.issuedAt finished } .applied
  | reclaimed {finishedBefore retryFence} :
      Transition env s (.reclaimCommandExecutions finishedBefore retryFence) { s with
        commandExecutions := s.commandExecutions.reclaim env.issuedAt finishedBefore retryFence }
        .applied
  | recorded {reference step effect restore execution} :
      s.commandExecutions.entries.lookup reference = some execution →
      execution.restoreExecution = some restore → restore.isRecorded step = true →
      Transition env s (.applyRestoreStep reference step effect) s .applied
  | restored {reference step effect restore s' users execution} :
      s.commandExecutions.entries.lookup reference = some execution →
      execution.restoreExecution = some restore → restore.isRecorded step = false →
      restore.missingPrerequisite step = none → RestoreEffect s reference step effect s' users →
      Transition env s (.applyRestoreStep reference step effect) { s' with
        commandExecutions := s.commandExecutions.replace env.issuedAt
          (execution.recordRestoreStep step users) } .applied
  | removed {finishedBefore} : Transition env s (.removeFinishedTransactions finishedBefore)
      (s.removeFinishedTransactions finishedBefore).1 .applied

namespace Transition

variable {env : Environment} {s : StateMachineData} {c : ConsensusCommand}

theorem ofConflict (h : x.Yields fun r => Transition env s c r.1 .applied) :
    Transition env s c (Applied.ofConflict s x).state (Applied.ofConflict s x).response := by
  match x, h with
  | .ok r, h => exact h r rfl
  | .error _, _ => exact .conflict

theorem ofTransaction (h : x.Yields (TransactionStep env s c)) :
    Transition env s c (Applied.ofTransaction s x).state (Applied.ofTransaction s x).response := by
  match x, h with
  | .ok a, h => exact .transaction (h a rfl)
  | .error _, _ => exact .error

theorem ofResources (h : x.Yields (ResourceStep s c)) :
    Transition env s c (Applied.ofConflict s (s.changeResources x)).state
      (Applied.ofConflict s (s.changeResources x)).response := by
  match x, h with
  | .ok r, h => exact .domain (.resources (h r rfl))
  | .error _, _ => exact .conflict

theorem ofImport (h : x.Yields fun s' => Transition env s c s' .applied) :
    Transition env s c (Applied.ofImport s x).state (Applied.ofImport s x).response := by
  match x, h with
  | .ok s', h => exact h s' rfl
  | .error _, _ => exact .conflict

theorem restoreStep (h : Transition env s (.applyRestoreStep reference step effect) s' response) :
    (s' = s ∧ response ≠ .applied) ∨
    (∃ users imported conflict answer execution restore, step = .users ∧
      effect = .users users .fail ∧
      s.commandExecutions.entries.lookup reference = some execution ∧
      execution.restoreExecution = some restore ∧ restore.isRecorded .users = false ∧
      (∀ user ∈ users, user.name ∉ s.users) ∧
      StateMachineData.importUsersFrom .fail users ⟨0, 0, 0⟩ s.users = (imported, .error conflict) ∧
      s' = { s with users := imported } ∧ response = .conflict answer) ∨
    ∃ execution restore, s.commandExecutions.entries.lookup reference = some execution ∧
      execution.restoreExecution = some restore ∧ response = .applied ∧
      (restore.isRecorded step = true ∧ s' = s ∨
        restore.isRecorded step = false ∧ restore.missingPrerequisite step = none ∧
          ∃ s'' users, RestoreEffect s reference step effect s'' users ∧ s' = { s'' with
            commandExecutions := s.commandExecutions.replace env.issuedAt
              (execution.recordRestoreStep step users) }) := by
  cases h with
  | conflict => exact .inl ⟨rfl, nofun⟩
  | error => exact .inl ⟨rfl, nofun⟩
  | unchanged h => cases h
  | domain h =>
    cases h with
    | resources h => cases h
    | usersRefused hl hr hrec hn h =>
      exact .inr (.inl ⟨_, _, _, _, _, _, rfl, rfl, hl, hr, hrec, hn, h, rfl, rfl⟩)
  | transaction h => obtain ⟨_, ⟨⟩⟩ | ⟨_, _, ⟨⟩⟩ := h.command
  | recorded hl hr h => exact .inr (.inr ⟨_, _, hl, hr, rfl, .inl ⟨h, rfl⟩⟩)
  | restored hl hr hn hm h =>
    exact .inr (.inr ⟨_, _, hl, hr, rfl, .inr ⟨hn, hm, _, _, h, rfl⟩⟩)

theorem lastAppliedLogId
    (h : Transition env s c s' response) : s'.lastAppliedLogId = s.lastAppliedLogId := by
  cases h with
  | conflict | error | unchanged | altered | admitted | acquired | released | finished | reclaimed
  | recorded | removed => rfl
  | domain h =>
    obtain ⟨_, _, _, _, _, _, _, h⟩ | ⟨_, _, _, h⟩ | ⟨_, _, _, _, _, _, _, h⟩ := h.shape
    all_goals rw [h]
  | transaction h =>
    obtain ⟨_, _, _, _, _, _, _, _, h⟩ := h.shape
    rw [h]
  | restored _ _ _ _ h =>
    obtain ⟨_, _, _, _, h⟩ := h.shape
    rw [h]

end Transition

namespace StateMachineData

variable {env : Environment} {s : StateMachineData} {reference : CommandExecutionReference}

theorem alterClusterParameters_yields :
    (s.alterClusterParameters env reference inputs).Yields fun r =>
      Transition env s (.alterClusterParameters reference inputs) r.1 .applied := by
  unfold alterClusterParameters
  split
  · exact .error
  · rename_i execution hl
    split
    · exact .error
    · exact .error
    · rename_i a ha
      split
      · rename_i changes applied he
        split
        · exact .ok (.unchanged rfl)
        · rename_i hn
          split
          · exact .error
          · split
            · exact .error
            · have hnone : applied = none := by simpa using hn
              subst hnone
              exact .ok (.altered hl ha he)
      · exact .error

theorem admitCommandExecution_yields {execution : CommandExecution} {domains : List DomainName}
    {policy : CommandExecutionAdmissionPolicy} :
    (s.admitCommandExecution env execution domains policy).Yields fun r =>
      Transition env s (.admitCommandExecution execution domains policy) r.1 .applied := by
  unfold admitCommandExecution
  dsimp only
  split
  · split
    · exact .error
    · split
      · exact .ok (.unchanged rfl)
      · exact .error
  · rename_i hl
    exact .mapError_bind fun _ hv => .mapError_bind fun leases hm => .pure (.admitted hl hv hm)

theorem ensureApplying_eq_ok :
    ensureApplying execution reference = .ok u ↔ execution.isApplying = true :=
  ensure_eq_ok

variable {domain : DomainName}

theorem acquireCommandDomainMutation_yields :
    (s.acquireCommandDomainMutation env reference owner digest domain).Yields fun r =>
      Transition env s (.acquireCommandDomainMutation reference owner digest domain) r.1
        .applied := by
  refine .bind fun execution hb => .bind fun _ ha => ?_
  split
  · exact .mapError_bind fun _ _ => .pure (.unchanged rfl)
  · rename_i hn
    exact .mapError_bind fun lease hlease => .pure
      (.acquired (boundExecution_yields _ hb) (ensureApplying_eq_ok.mp ha) hn hlease)

theorem releaseCommandDomainMutation_yields :
    (s.releaseCommandDomainMutation env reference owner digest domain).Yields fun r =>
      Transition env s (.releaseCommandDomainMutation reference owner digest domain) r.1
        .applied := by
  refine .bind fun execution hb => .bind fun _ ha => ?_
  split
  · exact .pure (.unchanged rfl)
  · rename_i lease hs
    exact .mapError_bind fun _ hv => .pure (.released (boundExecution_yields _ hb)
      (ensureApplying_eq_ok.mp ha) hs (validateDomainMutation_eq_ok.mp hv))

theorem foldl_releaseDomainMutation (l : List (DomainName × DomainMutationLease)) :
    ∀ s : StateMachineData, l.foldl (fun s e => s.releaseDomainMutation e.1) s = { s with
      domainMutations := l.foldl (fun m e => m.erase e.1) s.domainMutations } := by
  induction l with
  | nil => exact fun _ => rfl
  | cons e l ih => exact fun s => ih (s.releaseDomainMutation e.1)

theorem domainMutations_finish (execution : CommandExecution) :
    execution.domainMutations.ascending.foldl (fun m e => m.erase e.1) s.domainMutations =
      s.domainMutations.retain fun domain _ => (execution.domainMutation domain).isNone := by
  refine Finmap.ext_lookup fun domain => ?_
  rw [Finmap.lookup_foldl_erase, Finmap.lookup_retain]
  have hmem : domain ∈ execution.domainMutations.ascending.map Prod.fst ↔
      (execution.domainMutation domain).isSome = true := by
    simp only [List.mem_map, Prod.exists, Finmap.mem_ascending, exists_and_right, exists_eq_right,
      CommandExecution.domainMutation, Option.isSome_iff_exists]
  cases hd : execution.domainMutation domain with
  | none =>
    rw [if_neg (by simp [hmem, hd])]
    cases s.domainMutations.lookup domain <;> rfl
  | some lease =>
    rw [if_pos (by simp [hmem, hd])]
    cases s.domainMutations.lookup domain <;> rfl

theorem finishCommandExecution_yields :
    (s.finishCommandExecution env reference owner digest finishedAt result).Yields fun r =>
      Transition env s (.finishCommandExecution reference owner digest finishedAt result) r.1
        .applied := by
  refine .bind fun execution hb => ?_
  split
  · rename_i a ha
    refine .bind fun _ hv => ?_
    have hleases : ∀ domain lease, execution.domainMutation domain = some lease →
        s.domainMutations.lookup domain = some lease := by
      intro domain lease hlease
      have := Except.Yields.forM _ hv (domain, lease) (Finmap.mem_ascending.mpr hlease)
      exact validateDomainMutation_eq_ok.mp (mapError_eq_ok.mp this)
    split
    · rename_i finished hf
      rw [foldl_releaseDomainMutation, domainMutations_finish]
      exact .pure (.finished (boundExecution_yields _ hb)
        (by simp [CommandExecution.isApplying, ha]) hleases hf)
    · rename_i hf
      simp [CommandExecution.intoFinished, ha] at hf
  · split
    · exact .pure (.unchanged rfl)
    · exact .error
  · exact .error

variable {mutation : Option DomainMutationLease}

theorem validateDomainRecord_yields {domain : DomainState} :
    (s.validateDomainRecord domain mutation).Yields fun _ =>
      (domain.status ≠ .stopped → s.domainRestoreInstallations.lookup domain.id = none) ∧
        s.domainMutations.lookup domain.id = mutation := by
  refine .bind fun _ hg u h => ⟨fun hs => ?_, validateDomainMutation_eq_ok.mp (mapError_eq_ok.mp h)⟩
  exact validateStartGate_yields _ hg (by simpa using hs)

variable {inputs : DomainPlanningInputs} {schedule : Option DomainSchedule}

theorem changeSchedule_yields
    (h : s.domainPlanningInputs inputs.domain = inputs →
      DomainStep s c (s.replaceDomainSchedule inputs.domain schedule) .applied) :
    (s.changeSchedule inputs schedule).Yields fun r => Transition env s c r.1 .applied :=
  .mapError_bind fun _ hi => .pure (.domain (h (validateDomainPlanningInputs_eq_ok.mp hi)))

theorem changeDomain_transition
    (h : (starts = true → s.domainRestoreInstallations.lookup domain = none) →
      s.domainMutations.lookup domain = mutation → DomainStep s c (change s).1 .applied) :
    Transition env s c (Applied.ofConflict s (s.changeDomain domain mutation starts change)).state
      (Applied.ofConflict s (s.changeDomain domain mutation starts change)).response := by
  refine .ofConflict (.bind fun _ hg => .mapError_bind fun _ hm => .pure (.domain ?_))
  exact h (validateStartGate_yields _ hg) (validateDomainMutation_eq_ok.mp hm)

theorem beginRestoreStateInstallation_yields :
    (s.beginRestoreStateInstallation leaderTerm reference domain tenure).Yields fun r =>
      Transition env s (.beginRestoreStateInstallation reference domain tenure) r.1 .applied := by
  refine .ensure_bind fun _ => ?_
  split
  · exact .error
  · rename_i execution hl
    split
    · exact .error
    · rename_i restore hr
      refine .ensure_bind fun ho => ?_
      split
      · exact .error
      · rename_i lease hlease
        exact .mapError_bind fun _ hm => .ensure_bind fun hs => .ensure_bind fun hb => .pure
          (.domain (.installing hl hr ho.1 ho.2 hlease (validateDomainMutation_eq_ok.mp hm) hs hb))

theorem applyRestoreStep_transition (step : RestoreStep) (effect : RestoreStepEffect) :
    Transition env s (.applyRestoreStep reference step effect)
      (Applied.ofRestore (s.applyRestoreStep env reference step effect)).state
      (Applied.ofRestore (s.applyRestoreStep env reference step effect)).response := by
  unfold applyRestoreStep
  split
  · exact .conflict
  · rename_i restore hr
    obtain ⟨execution, hl, hex⟩ := applyingRestore_eq_ok.mp hr
    split
    · exact .recorded hl hex ‹_›
    · rename_i hrec
      split
      · exact .conflict
      · rename_i hmissing
        obtain ⟨s', users, changes, he, heff⟩ | ⟨conflict, he⟩ |
            ⟨users, imported, conflict, rfl, rfl, hnew, himp, he⟩ :=
          s.applyRestoreStepEffect_cases reference step effect
        · have hsame : s'.commandExecutions = s.commandExecutions := by cases heff <;> rfl
          simp only [he, recordRestoreStep, hsame, hl]
          exact .restored hl hex (by simpa using hrec) hmissing heff
        · simp only [he]
          exact .conflict
        · simp only [he]
          exact .domain (.usersRefused hl hex (by simpa using hrec) hnew himp)

theorem transition (leaderTerm : Nat) (c : ConsensusCommand) :
    Transition env s c (applyConsensusCommandAt env leaderTerm s c).state
      (applyConsensusCommandAt env leaderTerm s c).response := by
  cases c with
  | seedClusterParameters values =>
    refine .ofConflict (.ok ?_)
    unfold seedClusterParameters
    split
    · exact .unchanged rfl
    · rename_i h
      exact .domain (.seeded (by simpa using h))
  | alterClusterParameters => exact .ofConflict alterClusterParameters_yields
  | admitCommandExecution => exact .ofConflict admitCommandExecution_yields
  | acquireCommandDomainMutation => exact .ofConflict acquireCommandDomainMutation_yields
  | releaseCommandDomainMutation => exact .ofConflict releaseCommandDomainMutation_yields
  | finishCommandExecution => exact .ofConflict finishCommandExecution_yields
  | reclaimCommandExecutions => exact .reclaimed
  | replaceDomainSchedule =>
    exact .ofConflict (.mapError_bind fun _ hm =>
      changeSchedule_yields (.scheduled (validateDomainMutation_eq_ok.mp hm)))
  | updateKafkaPartitionSchedule => exact .ofConflict (changeSchedule_yields .partitions)
  | applyAutomaticDomainSchedule =>
    exact .ofConflict (.mapError_bind fun _ hm => .ensure_bind fun _ =>
      changeSchedule_yields (.automatic (validateDomainMutation_eq_ok.mp hm)))
  | reconcileOwnershipHandoffPreparations => exact .unchanged rfl
  | putDomainAndSchedule =>
    refine .ofConflict (.bind fun _ hv => .ensure_bind fun hid => .mapError_bind fun _ hi => .pure ?_)
    obtain ⟨hg, hm⟩ := validateDomainRecord_yields _ hv
    exact .domain (.domainAndSchedule hg hm (hid ▸ validateDomainPlanningInputs_eq_ok.mp hi))
  | putDomain =>
    refine .ofConflict (.bind fun _ hv => .pure ?_)
    obtain ⟨hg, hm⟩ := validateDomainRecord_yields _ hv
    exact .domain (.put hg hm)
  | startDomain => exact changeDomain_transition fun hg hm => .started (hg rfl) hm
  | stopDomain => exact changeDomain_transition fun _ hm => .stopped hm
  | pauseDomain => exact changeDomain_transition fun _ hm => .paused hm
  | resumeDomain => exact changeDomain_transition fun hg hm => .resumed (hg rfl) hm
  | reconcileDomainClockAuthority => exact changeDomain_transition fun _ hm => .reconciled hm
  | createUser => exact .domain .user
  | createResourceCatalog => exact .ofResources (.ok .catalog)
  | beginResourceUpload => exact .ofResources fun _ h => .begun h
  | publishResourceUpload => exact .ofResources fun _ h => .published h
  | putResourceReplica => exact .ofResources (.ok .replica)
  | completeResourceUpload => exact .ofResources fun _ h => .completed h
  | failResourceUpload => exact .ofResources fun _ h => .failed h
  | applyRestoreStep reference step effect => exact applyRestoreStep_transition step effect
  | beginRestoreStateInstallation => exact .ofConflict beginRestoreStateInstallation_yields
  | importResourceVersion =>
    refine .ofImport (.bind fun restore hr => .ensure_bind fun hc => .ensure_bind fun _ => ?_)
    split
    · exact .pure (.domain (.resources (.imported hr hc ‹_›)))
    · exact .error
  | setNodeCordoned => exact .domain .cordoned
  | fenceNodeAdmission => exact .domain .fenced
  | openTransaction =>
    exact .ofTransaction (.ensure_bind fun hl => .ensure_bind fun hc =>
      .pure (.opened (Finmap.lookup_eq_none.mpr hl) hc))
  | queueTransactionStatement => exact .ofTransaction queueTransactionStatement_yields
  | touchTransaction =>
    exact .ofTransaction (.bind fun t hl => .bind fun t' ht => .pure
      (.touched (transaction_eq_ok.mp hl) (ReplicatedTransaction.touch_yields t' ht)))
  | startTransactionCommit => exact .ofTransaction startTransactionCommit_yields
  | failTransactionCommitAdmission => exact .ofTransaction failTransactionCommitAdmission_yields
  | advanceTransactionCommit => exact .ofTransaction advanceTransactionCommit_yields
  | completeTransactionApplication => exact .ofTransaction completeTransactionApplication_yields
  | finishEmptyTransactionCommit =>
    exact .ofTransaction (endTransaction_yields rfl fun _ =>
      ReplicatedTransaction.finishEmptyCommit_yields)
  | revertTransaction =>
    exact .ofTransaction (endTransaction_yields rfl fun _ => ReplicatedTransaction.revert_yields)
  | expireTransaction => exact .ofTransaction expireTransaction_yields
  | removeFinishedTransactions => exact .removed

variable {entry : Entry}

theorem applyEntry_rule {P : StateMachineData → Prop} (hm : ∀ membership, P { s with
      lastAppliedLogId := some entry.logId, lastMembership := membership })
    (hc : ∀ c s' response revision, entry.payload = .normal c →
      Transition env { s with lastAppliedLogId := some entry.logId } c s' response →
      P { s' with runtimeRevision := revision }) :
    P (s.applyEntry env entry).state := by
  unfold applyEntry
  dsimp only
  split
  · exact hm s.lastMembership
  · exact hm _
  · rename_i c h
    split
    · exact hc _ _ _ _ h (transition entry.logId.term c)
    · exact hc _ _ _ _ h (transition entry.logId.term c)

theorem lastAppliedLogId_applyEntry :
    (s.applyEntry env entry).state.lastAppliedLogId = some entry.logId :=
  applyEntry_rule (P := fun t => t.lastAppliedLogId = some entry.logId) (fun _ => rfl)
    fun _ _ _ _ _ h => h.lastAppliedLogId

theorem applyEntry_normal (hp : entry.payload = .normal c) :
    ∃ revision,
      let a := applyConsensusCommandAt env entry.logId.term
        { s with lastAppliedLogId := some entry.logId } c
      s.applyEntry env entry =
        ⟨{ a.state with runtimeRevision := revision }, a.response, a.changes⟩ := by
  unfold applyEntry
  rw [hp]
  dsimp only
  split <;> exact ⟨_, rfl⟩

theorem applyEntry_transition (hp : entry.payload = .normal c) :
    ∃ s' revision, Transition env { s with lastAppliedLogId := some entry.logId } c s'
        (s.applyEntry env entry).response ∧
      (s.applyEntry env entry).state = { s' with runtimeRevision := revision } := by
  obtain ⟨revision, h⟩ := applyEntry_normal hp
  rw [h]
  exact ⟨_, revision, transition entry.logId.term c, rfl⟩

end StateMachineData

def stateMachine (env : Environment) : System StateMachineData Entry where
  guard _ _ := True
  next s entry := (s.applyEntry env entry).state

def Entry.Meets (ok : StateMachineData → ConsensusCommand → Prop) (s : StateMachineData)
    (entry : Entry) : Prop :=
  ∀ c, entry.payload = .normal c → ok { s with lastAppliedLogId := some entry.logId } c

def ConsensusResponse.isRefusal : ConsensusResponse → Bool
  | conflict _ | transaction (.error _) => true
  | applied | transaction (.ok _) => false

def Entry.Follows (s : StateMachineData) (entry : Entry) : Prop :=
  ∀ logId, s.lastAppliedLogId = some logId → logId.index < entry.logId.index

/-! ### Runs of concrete commands -/

def Environment.fixed : Environment where
  issuedAt _ := .ok 10
  topologyDigest topology := if topology = .empty then some "topology" else none
  sourceDigest _ := "source"
  changedParameters values _ := .ok values

def Entry.sequence (commands : List ConsensusCommand) : List Entry :=
  commands.zipIdx.map fun e => ⟨⟨1, e.2 + 1⟩, .normal e.1⟩

def stateAfter (commands : List ConsensusCommand) : StateMachineData :=
  (Entry.sequence commands).foldl (stateMachine .fixed).next .initial

variable {commands : List ConsensusCommand}

variable {ok : StateMachineData → Entry → Prop}

theorem restrict_run_stateAfter
    (h : ∀ c ∈ commands, ∀ s entry, entry.payload = .normal c → ok s entry) :
    ((stateMachine .fixed).restrict ok).Run .initial (stateAfter commands) := by
  refine System.Run.foldl (S := (stateMachine .fixed).restrict ok) _ (fun entry hin s => ?_) _
  obtain ⟨e, he, rfl⟩ := List.mem_map.mp hin
  exact ⟨trivial, h e.1 (List.fst_mem_of_mem_zipIdx he) s _ rfl⟩

theorem stateAfter_concat (commands : List ConsensusCommand) (c : ConsensusCommand) :
    stateAfter (commands ++ [c]) = ((stateAfter commands).applyEntry .fixed
      ⟨⟨1, commands.length + 1⟩, .normal c⟩).state := by
  simp only [stateAfter, Entry.sequence, List.zipIdx_append, List.map_append, List.foldl_append]
  rw [Nat.zero_add]
  rfl

theorem follows_stateAfter (commands : List ConsensusCommand) (payload : EntryPayload) :
    Entry.Follows (stateAfter commands) ⟨⟨1, commands.length + 1⟩, payload⟩ := by
  rcases commands.eq_nil_or_concat' with rfl | ⟨before, c, rfl⟩
  · rintro _ ⟨⟩
  · intro logId hl
    rw [stateAfter_concat, StateMachineData.lastAppliedLogId_applyEntry] at hl
    cases hl
    simp

theorem restrict_run_concat (commands : List ConsensusCommand) (c : ConsensusCommand)
    (h : ((stateMachine .fixed).restrict ok).Run .initial (stateAfter commands))
    (hok : ok (stateAfter commands) ⟨⟨1, commands.length + 1⟩, .normal c⟩) :
    ((stateMachine .fixed).restrict ok).Run .initial (stateAfter (commands ++ [c])) := by
  rw [stateAfter_concat]
  exact h.tail ⟨trivial, hok⟩

end Nervix.Consensus
