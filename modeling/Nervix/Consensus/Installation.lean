import Nervix.Consensus.RestoreSteps

/-!
# Installation of restored domains

A domain that a restore creates carries an installation record until its models are applied under
the authority that began last.
-/

namespace Nervix.Consensus

open Except (ensure_eq_ok mapError_eq_ok)
open Finmap
open StateMachineData (applyEntry applyEntry_transition isStopped_iff lastAppliedLogId_applyEntry
  storeTransaction)

namespace StateMachineData

variable {s s' : StateMachineData} {domain d : DomainName}

theorem isStopped_congr (h : s'.domains = s.domains) : s'.isStopped d = s.isStopped d := by
  rw [isStopped, h, isStopped]

theorem isStopped_insert
    (hs : s'.domains = s.domains.insert domain state) (h : s.isStopped d = true)
    (hd : d = domain → state.status = .stopped) : s'.isStopped d = true := by
  rw [isStopped, hs, lookup_insert_eq]
  split
  · simpa using hd ‹_›
  · exact h

theorem domains_moveClockAuthority :
    (s.moveClockAuthority state domain owner).domains = s.domains := by
  obtain ⟨_, h⟩ := s.moveClockAuthority_shape domain state owner
  rw [h]

theorem isStopped_moveDomainStatus (hx : expected ≠ .stopped)
    (h : s.isStopped d = true) : (s.moveDomainStatus domain expected next).1.isStopped d = true := by
  unfold moveDomainStatus
  split
  · exact h
  · rename_i state hl
    split
    · rename_i he
      refine isStopped_insert rfl h fun hd => ?_
      subst hd
      obtain ⟨state', hl', hs⟩ := isStopped_iff.mp h
      cases hl.symm.trans hl'
      exact absurd (he.symm.trans hs) hx
    · exact h

end StateMachineData

def ConsensusCommand.KeepsStopped (s : StateMachineData) : ConsensusCommand → Prop
  | .applyRestoreStep _ _ (.domain state _) => state.status = .stopped
  | .advanceTransactionCommit _ _ _ _ _ (some (.putDomainAndSchedule _ next _)) _ =>
    (∃ record, s.domainRestoreInstallations.lookup next.id = some record) → next.status = .stopped
  | _ => True

def Entry.KeepsStopped (env : Environment) (s : StateMachineData) (entry : Entry) : Prop :=
  (s.applyEntry env entry).response.isRefusal = false → entry.Meets (fun s c => c.KeepsStopped s) s

def StateMachineData.RestoredStopped (s : StateMachineData) : Prop :=
  ∀ d record, s.domainRestoreInstallations.lookup d = some record → s.isStopped d = true

section commands
variable {env : Environment} {s s' : StateMachineData} {c : ConsensusCommand}
  {response : ConsensusResponse}

open StateMachineData

theorem restoredStopped_of_kept (h : s.RestoredStopped)
    (hi : s'.domainRestoreInstallations = s.domainRestoreInstallations)
    (hk : ∀ {d record}, s.domainRestoreInstallations.lookup d = some record →
      s.isStopped d = true → s'.isStopped d = true) : s'.RestoredStopped := by
  intro d record hl
  rw [hi] at hl
  exact hk hl (h d record hl)

namespace StateMachineData.RestoredStopped

variable (hs : s.RestoredStopped)
include hs

theorem scheduled : (s.replaceDomainSchedule domain next).RestoredStopped := by
  obtain ⟨_, h⟩ := s.replaceDomainSchedule_shape domain next
  rw [h]
  exact hs

theorem put
    (hg : ∀ record, s.domainRestoreInstallations.lookup domain.id = some record →
      domain.status = .stopped) : (s.putDomain domain).RestoredStopped := by
  refine restoredStopped_of_kept hs rfl fun hl hd => isStopped_insert rfl hd fun he => ?_
  subst he
  exact hg _ hl

theorem started
    (hg : s.domainRestoreInstallations.lookup domain = none) :
    (s.commitDomainStart domain start clock authority).1.RestoredStopped := by
  obtain ⟨_, _, h⟩ := s.commitDomainStart_shape domain start clock authority
  refine restoredStopped_of_kept hs (by rw [h]) fun hl hd => ?_
  unfold commitDomainStart
  split
  · exact hd
  · refine isStopped_insert domains_moveClockAuthority hd fun he => ?_
    subst he
    cases hl.symm.trans hg

theorem stopped : (s.commitDomainStop domain).1.RestoredStopped := by
  obtain ⟨_, _, h⟩ := s.commitDomainStop_shape domain
  refine restoredStopped_of_kept hs (by rw [h]) fun _ hd => ?_
  unfold commitDomainStop
  split
  · exact hd
  · exact isStopped_insert domains_moveClockAuthority hd fun _ => rfl

theorem moved (hx : expected ≠ .stopped) :
    (s.moveDomainStatus domain expected next).1.RestoredStopped := by
  obtain ⟨_, h⟩ := s.moveDomainStatus_shape domain expected next
  exact restoredStopped_of_kept hs (by rw [h]) fun _ hd => isStopped_moveDomainStatus hx hd

end StateMachineData.RestoredStopped

theorem status_of_gate {domain : DomainState}
    (hg : domain.status ≠ .stopped → s.domainRestoreInstallations.lookup domain.id = none)
    (record) (hl : s.domainRestoreInstallations.lookup domain.id = some record) :
    domain.status = .stopped := by
  by_contra hn
  cases hl.symm.trans (hg hn)

theorem DomainStep.restoredStopped (h : DomainStep s c s' response) (hs : s.RestoredStopped) :
    s'.RestoredStopped := by
  cases h with
  | seeded | resources | usersRefused | cordoned => exact hs
  | scheduled | automatic | partitions => exact hs.scheduled
  | domainAndSchedule hg => exact (hs.put (status_of_gate hg)).scheduled
  | put hg => exact hs.put (status_of_gate hg)
  | started hg => exact hs.started hg
  | stopped => exact hs.stopped
  | paused | resumed => exact hs.moved (by decide)
  | reconciled =>
    obtain ⟨_, h⟩ := reconcileDomainClockAuthority_shape _ _ _ _ _
    rw [h]
    exact hs
  | user =>
    obtain ⟨_, h⟩ := createUser_shape _ _
    rw [h]
    exact hs
  | fenced =>
    obtain ⟨_, h⟩ := fenceNodeAdmission_shape _ _
    rw [h]
    exact hs
  | installing _ _ _ _ _ _ hd =>
    intro d record hl
    rw [lookup_insert_eq] at hl
    split at hl
    · subst d
      exact hd
    · exact hs d record hl

theorem restoredStopped_applyStep
    (hv : s.validateStep t first ⟨s.revision, next, result, effect, completion⟩ = .ok ())
    (hc : ∀ inputs state schedule, effect = some (.putDomainAndSchedule inputs state schedule) →
      (∃ record, s.domainRestoreInstallations.lookup state.id = some record) →
      state.status = .stopped)
    (he : s'.domains = s.domains)
    (hi : s'.domainRestoreInstallations = s.domainRestoreInstallations)
    (hs : s.RestoredStopped) : (s'.applyStep domain effect).1.RestoredStopped := by
  have hs' : s'.RestoredStopped :=
    restoredStopped_of_kept hs hi fun _ hd => (isStopped_congr he).trans hd
  cases effect with
  | none => exact hs'
  | some effect =>
    cases effect with
    | replaceDomainSchedule => exact hs'.scheduled
    | putDomainAndSchedule =>
      exact (hs'.put fun record hl => hc _ _ _ rfl ⟨record, hi ▸ hl⟩).scheduled
    | startDomain =>
      suffices (s.validateStep t first _).Yields fun _ => s.domainRestoreInstallations.lookup _ = none
        from hs'.started (hi ▸ this () hv)
      refine .bind fun _ _ => .ensure_bind fun _ => .ensure_bind fun _ => .bind fun _ hg => ?_
      intro _ _
      exact lookup_eq_none.mpr (ensure_eq_ok.mp (mapError_eq_ok.mp hg))
    | stopDomain => exact hs'.stopped
    | createResourceCatalog | resetWasmState => exact hs'

theorem TransactionStep.restoredStopped (h : TransactionStep env s c a)
    (hc : a.response.isRefusal = false → c.KeepsStopped s) (hs : s.RestoredStopped) : a.state.RestoredStopped := by
  cases h with
  | answered | opened | touched | queued | stale | admitted | failed => exact hs
  | @ended _ _ _ t' =>
    obtain ⟨_, h⟩ := s.retainLatestPreview_shape t'
    rw [storeTransaction, h]
    exact hs
  | @begun _ _ _ _ _ effect _ t _ _ _ _ reports _ _ _ _ _ hv =>
    refine @restoredStopped_applyStep s { s with transactionReports := reports } _ _ _ _ _ _ _ hv ?_
      rfl rfl hs
    rintro inputs state schedule rfl hr
    exact hc rfl hr
  | completed =>
    obtain ⟨_, _, _, h⟩ := completed_shape _ _ _ _ _ _
    rw [storeTransaction, h]
    exact hs

theorem RestoreEffect.restoredStopped {reference : CommandExecutionReference} {step : RestoreStep}
    {effect : RestoreStepEffect} {users : Option RestoredUsers}
    (h : RestoreEffect s reference step effect s' users)
    (hc : (ConsensusCommand.applyRestoreStep reference step effect).KeepsStopped s)
    (hs : s.RestoredStopped) : s'.RestoredStopped := by
  cases h with
  | users | imported => exact hs
  | created =>
    intro d record hl
    rw [lookup_insert_eq] at hl
    rw [isStopped, lookup_insert_eq]
    split at hl
    · have hstopped : _ = DomainStatus.stopped := hc
      rw [if_pos ‹_›]
      simpa using hstopped
    · rw [if_neg ‹_›]
      exact hs d record hl
  | installed =>
    intro d record hl
    rw [lookup_erase_eq] at hl
    split at hl <;> [cases hl; exact hs d record hl]
  | resumed =>
    intro d record hl
    rw [lookup_erase_eq] at hl
    split at hl <;> [cases hl; skip]
    rw [isStopped, lookup_insert_of_ne _ ‹_›]
    exact hs d record hl

theorem Transition.restoredStopped (h : Transition env s c s' response)
    (hc : response.isRefusal = false → c.KeepsStopped s) (hs : s.RestoredStopped) :
    s'.RestoredStopped := by
  cases h with
  | conflict | error | unchanged | altered | admitted | acquired | released | finished | reclaimed
  | recorded | removed => exact hs
  | domain h => exact h.restoredStopped hs
  | transaction h => exact h.restoredStopped hc hs
  | restored _ _ _ _ h => exact h.restoredStopped (hc rfl) hs

inductive RecordStep (s : StateMachineData) (d : DomainName) (c : ConsensusCommand)
    (response : ConsensusResponse) : Option DomainRestoreInstallation → Prop
  | same : RecordStep s d c response (s.domainRestoreInstallations.lookup d)
  | created {reference} : s.domains.lookup d = none →
      RecordStep s d c response (some (.pending reference))
  | begun {reference tenure authority} : c = .beginRestoreStateInstallation reference d tenure →
      authority.generation = s.revision →
      RecordStep s d c response (some (.installing authority))
  | installed {reference authority clock restore} :
      c = .applyRestoreStep reference (.applyModels d) (.installedState authority clock) →
      response = .applied → s.progress reference = some restore →
      restore.isRecorded (.applyModels d) = false → s.Installs d authority →
      RecordStep s d c response none

theorem Transition.recordStep (h : Transition env s c s' response) (d : DomainName) :
    RecordStep s d c response (s'.domainRestoreInstallations.lookup d) := by
  cases h with
  | conflict | error | unchanged | altered | admitted | acquired | released | finished | reclaimed
  | recorded | removed => exact .same
  | transaction h =>
    obtain ⟨_, _, _, _, _, _, _, _, h⟩ := h.shape
    rw [h]
    exact .same
  | domain h =>
    obtain ⟨_, _, _, _, _, _, _, rfl⟩ | ⟨_, _, _, rfl⟩ | ⟨_, domain, _, _, rfl, hg, _, rfl⟩ := h.shape
    · exact .same
    · exact .same
    · rw [lookup_insert_eq]
      split
      · subst d
        exact .begun rfl hg
      · exact .same
  | @restored reference step effect restore s'' users execution hl hr hn _ h =>
    have hp : s.progress reference = some restore := progress_eq_some.mpr ⟨execution, hl, hr⟩
    cases h with
    | users | imported => exact .same
    | created _ _ _ hd _ =>
      rw [lookup_insert_eq]
      split
      · subst d
        exact .created hd
      · exact .same
    | installed _ hi =>
      rw [lookup_erase_eq]
      split
      · subst d
        exact .installed rfl rfl hp hn hi
      · exact .same
    | resumed _ hi _ =>
      rw [lookup_erase_eq]
      split
      · subst d
        exact .installed rfl rfl hp hn hi
      · exact .same

end commands

def restoreRuns (env : Environment) : System StateMachineData Entry :=
  (stateMachine env).restrict fun s entry =>
    entry.Follows s ∧ entry.KeepsStopped env s

def StateMachineData.AppliesModels (env : Environment) (s : StateMachineData) (d : DomainName)
    (entry : Entry) : Prop :=
  ∃ reference authority clock,
    entry.payload =
      .normal (.applyRestoreStep reference (.applyModels d) (.installedState authority clock)) ∧
    s.domainRestoreInstallations.lookup d = some (.installing authority) ∧
    s.AppliesStep env entry reference (.applyModels d)

section runs
variable {env : Environment} {s t : StateMachineData} {entry : Entry} {d : DomainName}

theorem restoredStopped_applyEntry (hk : entry.KeepsStopped env s) (hs : s.RestoredStopped) :
    (s.applyEntry env entry).state.RestoredStopped := by
  cases hp : entry.payload with
  | blank | membership =>
    unfold applyEntry
    rw [hp]
    exact hs
  | normal c =>
    obtain ⟨s', revision, ht, hs'⟩ := @applyEntry_transition env s entry c hp
    rw [hs']
    exact ht.restoredStopped (fun h => hk h c hp) hs

theorem restoredStopped_of_run (h : (restoreRuns env).Run s t) (hs : s.RestoredStopped) :
    t.RestoredStopped :=
  h.inv (P := fun t => t.RestoredStopped) hs fun ih hg => restoredStopped_applyEntry hg.2.2 ih

inductive EntryRecordStep (env : Environment) (s : StateMachineData) (d : DomainName)
    (entry : Entry) : Option DomainRestoreInstallation → Prop
  | same : EntryRecordStep env s d entry (s.domainRestoreInstallations.lookup d)
  | created {reference} : s.domains.lookup d = none →
      EntryRecordStep env s d entry (some (.pending reference))
  | begun {reference tenure authority} :
      entry.payload = .normal (.beginRestoreStateInstallation reference d tenure) →
      authority.generation = entry.logId.index →
      EntryRecordStep env s d entry (some (.installing authority))
  | installed : s.AppliesModels env d entry → EntryRecordStep env s d entry none

theorem recordStep_applyEntry (env : Environment) (s : StateMachineData) (d : DomainName)
    (entry : Entry) : EntryRecordStep env s d entry
      ((s.applyEntry env entry).state.domainRestoreInstallations.lookup d) := by
  cases hp : entry.payload with
  | blank | membership =>
    unfold applyEntry
    rw [hp]
    exact .same
  | normal c =>
    obtain ⟨s', revision, ht, hs⟩ := @applyEntry_transition env s entry c hp
    have hstep := ht.recordStep d
    rw [hs]
    generalize s'.domainRestoreInstallations.lookup d = record at hstep
    cases hstep with
    | same => exact .same
    | created hd => exact .created hd
    | begun hc hg =>
      subst hc
      exact .begun hp hg
    | installed hc ha hr hn hi =>
      subst hc
      exact .installed ⟨_, _, _, hp, hi.installing, ⟨_, hp⟩, ha, _, hr, hn⟩

def StateMachineData.GenerationsApplied (s : StateMachineData) : Prop :=
  ∀ d authority, s.domainRestoreInstallations.lookup d = some (.installing authority) →
    ∃ logId, s.lastAppliedLogId = some logId ∧ authority.generation ≤ logId.index

theorem generationsApplied_applyEntry (hf : entry.Follows s) (hs : s.GenerationsApplied) :
    (s.applyEntry env entry).state.GenerationsApplied := by
  intro d authority hl
  refine ⟨entry.logId, lastAppliedLogId_applyEntry, ?_⟩
  have hstep := recordStep_applyEntry env s d entry
  rw [hl] at hstep
  generalize hr : some (DomainRestoreInstallation.installing authority) = record at hstep
  cases hstep with
  | same =>
    obtain ⟨logId, ha, hle⟩ := hs d authority hr.symm
    exact hle.trans (hf logId ha).le
  | created => cases hr
  | begun _ hg =>
    cases hr
    exact hg.le
  | installed => cases hr

theorem authority_of_begin
    (hp : entry.payload = .normal (.beginRestoreStateInstallation reference d tenure))
    (ha : (s.applyEntry env entry).response = .applied) :
    ∃ authority, (s.applyEntry env entry).state.domainRestoreInstallations.lookup d =
        some (.installing authority) ∧ authority.execution = reference ∧
      authority.generation = entry.logId.index := by
  obtain ⟨s', revision, ht, hs⟩ := @applyEntry_transition env s entry _ hp
  rw [hs]
  generalize (s.applyEntry env entry).response = response at ha ht
  cases ht with
  | conflict | error => cases ha
  | unchanged h => cases h
  | transaction h => obtain ⟨_, ⟨⟩⟩ | ⟨_, _, ⟨⟩⟩ := h.command
  | domain h =>
    cases h with
    | resources h => cases h
    | installing => exact ⟨_, lookup_insert _, rfl, rfl⟩

theorem generation_of_run (h : (restoreRuns env).Run s t)
    (ha : ∃ logId, s.lastAppliedLogId = some logId ∧ n ≤ logId.index)
    (hs : ∀ authority, s.domainRestoreInstallations.lookup d = some (.installing authority) →
      n ≤ authority.generation) :
    ∀ authority, t.domainRestoreInstallations.lookup d = some (.installing authority) →
      n ≤ authority.generation := by
  refine (h.inv (P := fun t => (∃ logId, t.lastAppliedLogId = some logId ∧ n ≤ logId.index) ∧
    ∀ authority, t.domainRestoreInstallations.lookup d = some (.installing authority) →
      n ≤ authority.generation) ⟨ha, hs⟩ fun {t entry} ih hg => ?_).2
  obtain ⟨⟨logId, hlast, hle⟩, ih⟩ := ih
  have hlt : n ≤ entry.logId.index := hle.trans (hg.2.1 logId hlast).le
  refine ⟨⟨_, lastAppliedLogId_applyEntry, hlt⟩, fun authority hl => ?_⟩
  have hstep := recordStep_applyEntry env t d entry
  rw [show (t.applyEntry env entry).state.domainRestoreInstallations.lookup d = _ from hl] at hstep
  generalize hr : some (DomainRestoreInstallation.installing authority) = record at hstep
  cases hstep with
  | same => exact ih authority hr.symm
  | created => cases hr
  | begun _ hgen =>
    cases hr
    exact hgen ▸ hlt
  | installed => cases hr

theorem record_of_run
    (h : ((restoreRuns env).restrict fun s entry => ¬s.AppliesModels env d entry).Run s t)
    (hs : ∃ record, s.domainRestoreInstallations.lookup d = some record) :
    ∃ record, t.domainRestoreInstallations.lookup d = some record := by
  refine h.inv (P := fun t => ∃ record, t.domainRestoreInstallations.lookup d = some record) hs
    fun {t entry} ih hg => ?_
  have hstep := recordStep_applyEntry env t d entry
  have hnext : ∀ record, EntryRecordStep env t d entry record → ∃ r, record = some r := by
    intro record hstep
    cases hstep with
    | same => exact ih
    | created => exact ⟨_, rfl⟩
    | begun => exact ⟨_, rfl⟩
    | installed h => exact absurd h hg.2
  exact hnext _ hstep

end runs

structure StoppedUntilInstalled (env : Environment) (s : StateMachineData) : Prop where
  stopped : ∀ {entry reference d t}, (restoreRuns env).guard s entry →
    s.AppliesStep env entry reference (.createDomain d) →
    ((restoreRuns env).restrict fun s entry => ¬s.AppliesModels env d entry).Run
      (s.applyEntry env entry).state t → t.isStopped d = true
  begun : ∀ {entry reference d tenure},
    entry.payload = .normal (.beginRestoreStateInstallation reference d tenure) →
    (s.applyEntry env entry).response = .applied →
    ∃ authority, (s.applyEntry env entry).state.domainRestoreInstallations.lookup d =
        some (.installing authority) ∧ authority.execution = reference ∧
      authority.generation = entry.logId.index
  latest : ∀ {entry d record}, s.domainRestoreInstallations.lookup d = some record →
    (s.applyEntry env entry).state.domainRestoreInstallations.lookup d = some record ∨
      (∃ reference tenure,
        entry.payload = .normal (.beginRestoreStateInstallation reference d tenure)) ∨
      s.AppliesModels env d entry
  earlier : ∀ {entry : Entry} {d authority}, entry.Follows s →
    s.domainRestoreInstallations.lookup d = some (.installing authority) →
    authority.generation < entry.logId.index
  superseded : ∀ {entry reference d tenure authority t}, (restoreRuns env).guard s entry →
    entry.payload = .normal (.beginRestoreStateInstallation reference d tenure) →
    (s.applyEntry env entry).response = .applied → authority.generation < entry.logId.index →
    (restoreRuns env).Run (s.applyEntry env entry).state t →
    (∀ u, t.validateRestoreStateInstallation d authority ≠ .ok u) ∧
      ∀ {later execution clock},
        later.payload = .normal (.applyRestoreStep execution (.applyModels d)
          (.installedState authority clock)) →
        ¬t.AppliesStep env later execution (.applyModels d)

theorem stoppedUntilInstalled_of_run {env : Environment} {s : StateMachineData}
    (h : (restoreRuns env).Run .initial s) : StoppedUntilInstalled env s where
  stopped := by
    intro entry reference d t hg happ hrun
    have hs : s.RestoredStopped := restoredStopped_of_run h nofun
    have ht := restoredStopped_of_run (hrun.mono rfl fun hg => hg.1)
      (restoredStopped_applyEntry hg.2.2 hs)
    obtain ⟨effect, hp⟩ := happ.1
    obtain ⟨_, _, s', users, -, -, -, heff, -, hi⟩ := applied_of_appliesStep hp happ
    have hpending : ∃ record, (s.applyEntry env entry).state.domainRestoreInstallations.lookup d =
        some record := by
      rw [hi]
      cases heff
      exact ⟨_, lookup_insert _⟩
    obtain ⟨record, hl⟩ := record_of_run hrun hpending
    exact ht d record hl
  begun hp ha := authority_of_begin hp ha
  latest := by
    intro entry d record hl
    have hs : s.RestoredStopped := restoredStopped_of_run h nofun
    have hnext : ∀ record', EntryRecordStep env s d entry record' → record' = some record ∨
        (∃ reference tenure,
          entry.payload = .normal (.beginRestoreStateInstallation reference d tenure)) ∨
        s.AppliesModels env d entry := by
      intro record' hstep
      cases hstep with
      | same => exact .inl hl
      | created hd =>
        obtain ⟨state, hl', -⟩ := isStopped_iff.mp (hs d record hl)
        cases hd.symm.trans hl'
      | begun hp => exact .inr (.inl ⟨_, _, hp⟩)
      | installed h => exact .inr (.inr h)
    exact hnext _ (recordStep_applyEntry env s d entry)
  earlier := by
    intro entry d authority hf hl
    have hs : s.GenerationsApplied := h.inv (P := fun t => t.GenerationsApplied) nofun
      fun ih hg => generationsApplied_applyEntry hg.2.1 ih
    obtain ⟨logId, hlast, hle⟩ := hs d authority hl
    exact hle.trans_lt (hf logId hlast)
  superseded := by
    intro entry reference d tenure authority t hg hp ha hlt hrun
    obtain ⟨begun, hl, -, hgen⟩ := authority_of_begin hp ha
    have hlater := generation_of_run (n := entry.logId.index) hrun
      ⟨_, lastAppliedLogId_applyEntry, le_refl _⟩ fun authority hl' => by
        cases hl.symm.trans hl'
        exact hgen.ge
    have hnot : ¬t.Installs d authority := fun hi =>
      absurd (hlater authority hi.installing) (Nat.not_le.mpr hlt)
    refine ⟨fun u hv => hnot (StateMachineData.installs_of_validate u hv),
      fun hp' happ => ?_⟩
    obtain ⟨_, _, s', users, -, -, -, heff, -, -⟩ := applied_of_appliesStep hp' happ
    cases heff with
    | installed _ hi | resumed _ hi _ =>
      exact hnot ⟨hi.installing, hi.restore, hi.lease, hi.stopped⟩

def domainRestore : ConsensusCommand :=
  .admitCommandExecution (.applyingAtPosition "r" "u" (some "d") none "q" 11
    (.restore (.new ⟨.domain "d" none, .stopped, "request"⟩ "archive"))) ["d"] ⟨5, 20, 4⟩

def createRestored (status : DomainStatus) : ConsensusCommand :=
  .applyRestoreStep "r" (.createDomain "d")
    (.domain ⟨"d", ⟨.unpaced, "placement"⟩, status, 0, "start", none⟩ [])

theorem stoppedUntilInstalled_of_creation :
    let s := stateAfter [domainRestore, createRestored .stopped]
    s.domainRestoreInstallations.lookup "d" = some (.pending "r") ∧
      StoppedUntilInstalled .fixed s := by
  refine ⟨by decide, stoppedUntilInstalled_of_run ?_⟩
  refine restrict_run_concat [domainRestore] _ (restrict_run_concat [] _ .refl
    ⟨follows_stateAfter _ _, ?_⟩) ⟨follows_stateAfter _ _, ?_⟩
  · rintro - _ ⟨⟩
    trivial
  · rintro - _ ⟨⟩
    rfl

/-- A restored domain that the archive recorded as running runs while its state is pending. -/
theorem restored_domain_runs : let s := stateAfter [domainRestore, createRestored .running]
    s.domainRestoreInstallations.lookup "d" = some (.pending "r") ∧ s.isStopped "d" = false :=
  ⟨by decide, by decide⟩

end Nervix.Consensus
