import Nervix.Consensus.Executions

/-!
# Steps of a restore

A restore records each step with its execution. A recorded step stays recorded while the restore
applies, and a restore that ended never applies again, so no step happens twice. A refused step
leaves the state as it was, apart from an import of users that names a new user twice.
-/

namespace Nervix.Consensus

def StateMachineData.progress (s : StateMachineData) (reference : CommandExecutionReference) :
    Option RestoreExecution :=
  (s.commandExecutions.entries.lookup reference).bind (·.restoreExecution)

def StateMachineData.AppliesStep (env : Environment) (s : StateMachineData) (entry : Entry)
    (reference : CommandExecutionReference) (step : RestoreStep) : Prop :=
  (∃ effect, entry.payload = .normal (.applyRestoreStep reference step effect)) ∧
    (s.applyEntry env entry).response = .applied ∧
    ∃ restore, s.progress reference = some restore ∧ restore.isRecorded step = false

theorem StateMachineData.progress_eq_some {s : StateMachineData} :
    s.progress reference = some restore ↔ ∃ execution,
      s.commandExecutions.entries.lookup reference = some execution ∧
        execution.restoreExecution = some restore :=
  Option.bind_eq_some_iff

namespace CommandExecution

variable {e : CommandExecution} {restore : RestoreExecution}

theorem isApplying_of_restore (h : e.restoreExecution = some restore) : e.isApplying = true := by
  obtain ⟨a, ha, -⟩ := isApplying_of_restoreExecution h
  exact isApplying_iff.mpr ⟨a, ha⟩

theorem restoreExecution_bindDomainMutation :
    (e.bindDomainMutation domain lease).restoreExecution = e.restoreExecution := by
  obtain ⟨reference, state⟩ := e
  cases state <;> rfl

theorem restoreExecution_releaseDomainMutation :
    (e.releaseDomainMutation domain).restoreExecution = e.restoreExecution := by
  obtain ⟨reference, state⟩ := e
  cases state <;> rfl

theorem restoreExecution_foldl_bind : ∀ (leases : List (DomainName × DomainMutationLease))
    (e : CommandExecution),
    (leases.foldl (fun e l => e.bindDomainMutation l.1 l.2) e).restoreExecution = e.restoreExecution
  | [], _ => rfl
  | _ :: leases, _ =>
    (restoreExecution_foldl_bind leases _).trans restoreExecution_bindDomainMutation

theorem restoreExecution_recordRestoreStep (h : e.restoreExecution = some restore) :
    (e.recordRestoreStep step users).restoreExecution = some (restore.record step users) := by
  obtain ⟨a, ha, he⟩ := isApplying_of_restoreExecution h
  obtain ⟨reference, state⟩ := e
  subst ha
  simp [recordRestoreStep, he, restoreExecution, effect]

end CommandExecution

theorem RestoreExecution.isRecorded_record {restore : RestoreExecution} {step step' : RestoreStep}
    {users : Option RestoredUsers} :
    (restore.record step users).isRecorded step' = true ↔
      step' = step ∨ restore.isRecorded step' = true := by
  simp [isRecorded, record]

namespace CommandExecutionRecords

variable {issuedAt : RetryIssuedAt} {r r' : CommandExecutionRecords}
  {reference : CommandExecutionReference} {step : RestoreStep}

def Done (issuedAt : RetryIssuedAt) (r : CommandExecutionRecords)
    (reference : CommandExecutionReference) (step : RestoreStep) : Prop :=
  (∃ e, r.entries.lookup reference = some e ∧
    ∀ restore, e.restoreExecution = some restore → restore.isRecorded step = true) ∨
  r.entries.lookup reference = none ∧ r.Passed issuedAt reference

theorem Done.later (h : Done issuedAt r reference step) (hl : Later issuedAt r r') :
    Done issuedAt r' reference step := by
  rcases h with ⟨e, he, hrec⟩ | ⟨hn, hp⟩
  · rcases hl.retained he with ⟨e', he', hprec⟩ | hgone
    · refine .inl ⟨e', he', fun restore' hr' => ?_⟩
      obtain ⟨restore, hr, hsub⟩ := hprec.progress hr'
      have hin := hrec restore hr
      simp only [RestoreExecution.isRecorded, decide_eq_true_eq] at hin ⊢
      exact hsub hin
    · exact .inr hgone
  · exact .inr ⟨hl.forgotten hn hp, hp.later hl⟩

end CommandExecutionRecords

section steps
variable {env : Environment} {s s' t : StateMachineData} {entry later : Entry}
  {reference : CommandExecutionReference} {step : RestoreStep} {c : ConsensusCommand}
  {response : ConsensusResponse}

theorem not_appliesStep_of_done (h : s.commandExecutions.Done env.issuedAt reference step) :
    ¬s.AppliesStep env entry reference step := by
  rintro ⟨-, -, restore, hp, hn⟩
  obtain ⟨e, he, hr⟩ := StateMachineData.progress_eq_some.mp hp
  rcases h with ⟨e', he', hrec⟩ | ⟨hnone, -⟩
  · cases he.symm.trans he'
    rw [hrec restore hr] at hn
    cases hn
  · cases he.symm.trans hnone

theorem lookup_replace
    (hl : s.commandExecutions.entries.lookup reference = some e) (he : e.Evolves e')
    (hi : s.commandExecutions.Indexed env.issuedAt) :
    (s.commandExecutions.replace env.issuedAt e').entries.lookup k =
      if k = reference then some e' else s.commandExecutions.entries.lookup k := by
  have href := hi.keyed hl
  subst href
  have hl' : s.commandExecutions.entries.lookup e'.reference = some e := he.reference.symm ▸ hl
  rw [(CommandExecutionRecords.replace_entries hl').1, Finmap.lookup_insert_eq, he.reference]

theorem applied_of_appliesStep
    (hp : entry.payload = .normal (.applyRestoreStep reference step effect))
    (h : s.AppliesStep env entry reference step) :
    ∃ e restore s' users, s.commandExecutions.entries.lookup reference = some e ∧
      e.restoreExecution = some restore ∧ restore.missingPrerequisite step = none ∧
      RestoreEffect { s with lastAppliedLogId := some entry.logId } reference step effect s' users ∧
      (s.applyEntry env entry).state.commandExecutions =
        s.commandExecutions.replace env.issuedAt (e.recordRestoreStep step users) ∧
      (s.applyEntry env entry).state.domainRestoreInstallations =
        s'.domainRestoreInstallations := by
  obtain ⟨-, ha, restore, hr, hn⟩ := h
  obtain ⟨s', revision, ht, hs⟩ := @StateMachineData.applyEntry_transition env s entry _ hp
  rw [ha] at ht
  rw [hs]
  obtain ⟨e, he, her⟩ := StateMachineData.progress_eq_some.mp hr
  obtain ⟨-, hne⟩ | ⟨_, _, _, _, _, _, -, -, -, -, -, -, -, -, ⟨⟩⟩ |
    ⟨e', restore', hl, hr', -, ⟨hrec, -⟩ | ⟨-, hm, s'', users, heff, rfl⟩⟩ := ht.restoreStep
  · exact absurd rfl hne
  · cases he.symm.trans hl
    cases her.symm.trans hr'
    rw [hrec] at hn
    cases hn
  · exact ⟨e', restore', s'', users, hl, hr', hm, heff, rfl, rfl⟩

section
variable (hi : s.commandExecutions.Indexed env.issuedAt)
  (h : s.AppliesStep env entry reference step)
include hi h

theorem progress_of_appliesStep :
    ∃ restore users, s.progress reference = some restore ∧ restore.missingPrerequisite step = none ∧
      (s.applyEntry env entry).state.progress reference = some (restore.record step users) := by
  obtain ⟨effect, hp⟩ := h.1
  obtain ⟨e, restore, s', users, hl, hr, hm, -, hexec, -⟩ := applied_of_appliesStep hp h
  refine ⟨restore, users, StateMachineData.progress_eq_some.mpr ⟨e, hl, hr⟩, hm,
    StateMachineData.progress_eq_some.mpr
      ⟨_, ?_, CommandExecution.restoreExecution_recordRestoreStep hr⟩⟩
  rw [hexec]
  exact (lookup_replace hl (CommandExecution.evolves_recordRestoreStep hr) hi).trans (if_pos rfl)

theorem done_of_appliesStep :
    (s.applyEntry env entry).state.commandExecutions.Done env.issuedAt reference step := by
  obtain ⟨restore, users, -, -, hp⟩ := progress_of_appliesStep hi h
  obtain ⟨e, he, hr⟩ := StateMachineData.progress_eq_some.mp hp
  refine .inl ⟨e, he, fun restore' hr' => ?_⟩
  cases hr.symm.trans hr'
  exact RestoreExecution.isRecorded_record.mpr (.inl rfl)

end

theorem progress_of_replace (hl : s.commandExecutions.entries.lookup k = some e)
    (he : e.Evolves e') (hi : s.commandExecutions.Indexed env.issuedAt)
    (hr : e'.restoreExecution = e.restoreExecution ∨ e'.restoreExecution = none)
    (hs : s'.commandExecutions = s.commandExecutions.replace env.issuedAt e')
    (hp : s'.progress reference = some restore) : s.progress reference = some restore := by
  rw [StateMachineData.progress, hs, lookup_replace hl he hi] at hp
  split at hp
  · subst k
    rw [StateMachineData.progress, hl]
    rcases hr with hr | hr
    · exact hr.symm.trans hp
    · cases hr.symm.trans hp
  · exact hp

theorem Transition.recorded_before (h : Transition env s c s' response) (hf : c.ProposesFresh)
    (hi : s.commandExecutions.Indexed env.issuedAt)
    (hp : s'.progress reference = some restore') (hrec : restore'.isRecorded step = true) :
    ∃ restore, s.progress reference = some restore ∧ (restore.isRecorded step = true ∨
      response = .applied ∧ (∃ effect, c = .applyRestoreStep reference step effect) ∧
        restore.isRecorded step = false) := by
  have hkept : s.progress reference = some restore' → ∃ restore,
      s.progress reference = some restore ∧ (restore.isRecorded step = true ∨
        response = .applied ∧ (∃ effect, c = .applyRestoreStep reference step effect) ∧
          restore.isRecorded step = false) := fun h => ⟨restore', h, .inl hrec⟩
  cases h with
  | conflict | error | unchanged | recorded | removed => exact hkept hp
  | transaction ht =>
    obtain ⟨_, _, _, _, _, _, _, _, h⟩ := ht.shape
    rw [h] at hp
    exact hkept hp
  | domain hd =>
    obtain ⟨_, _, _, _, _, _, _, h⟩ | ⟨_, _, _, h⟩ | ⟨_, _, _, _, _, _, _, h⟩ := hd.shape
    all_goals
      rw [h] at hp
      exact hkept hp
  | altered hl ha he =>
    exact hkept (progress_of_replace hl (CommandExecution.evolves_alterCluster ha he) hi
      (.inr rfl) rfl hp)
  | @admitted execution domains policy leases hl _ _ =>
    obtain ⟨ha, href, -⟩ := CommandExecution.isApplying_foldl_bind leases execution hf.applying
    obtain ⟨e, he, hr⟩ := StateMachineData.progress_eq_some.mp hp
    rw [CommandExecutionRecords.insertAdmitted, Finmap.lookup_insert_eq, href] at he
    split at he
    · cases he
      rw [CommandExecution.restoreExecution_foldl_bind] at hr
      obtain ⟨a, ha, he⟩ := CommandExecution.isApplying_of_restoreExecution hr
      obtain ⟨a', ha', -, hc⟩ := hf
      cases ha.symm.trans ha'
      simp [RestoreExecution.isRecorded, hc _ he] at hrec
    · exact hkept (StateMachineData.progress_eq_some.mpr ⟨e, he, hr⟩)
  | acquired hl ha _ _ =>
    exact hkept (progress_of_replace hl (CommandExecution.evolves_bindDomainMutation ha) hi
      (.inl CommandExecution.restoreExecution_bindDomainMutation) rfl hp)
  | released hl ha _ _ =>
    exact hkept (progress_of_replace hl (CommandExecution.evolves_releaseDomainMutation ha) hi
      (.inl CommandExecution.restoreExecution_releaseDomainMutation) rfl hp)
  | finished hl _ _ hfin =>
    refine hkept (progress_of_replace hl (CommandExecution.evolves_intoFinished hfin) hi
      (.inr ?_) rfl hp)
    unfold CommandExecution.intoFinished at hfin
    split at hfin <;> cases hfin
    rfl
  | reclaimed =>
    obtain ⟨e, he, hr⟩ := StateMachineData.progress_eq_some.mp hp
    have happly := CommandExecution.isApplying_of_restore hr
    exact hkept (StateMachineData.progress_eq_some.mpr
      ⟨e, ((CommandExecutionRecords.reclaims_reclaim hi).2.2 happly).mp he, hr⟩)
  | @restored k step' effect restore s'' users execution hl hr hn _ heff =>
    rw [StateMachineData.progress] at hp
    dsimp only at hp
    rw [lookup_replace hl (CommandExecution.evolves_recordRestoreStep hr) hi] at hp
    split at hp
    · subst k
      rw [Option.bind_some, CommandExecution.restoreExecution_recordRestoreStep hr] at hp
      cases hp
      refine ⟨restore, StateMachineData.progress_eq_some.mpr ⟨execution, hl, hr⟩, ?_⟩
      rcases RestoreExecution.isRecorded_record.mp hrec with rfl | hold
      · exact .inr ⟨rfl, ⟨effect, rfl⟩, hn⟩
      · exact .inl hold
    · exact hkept hp

theorem recorded_before_entry (hm : entry.Meets (fun _ c => c.ProposesFresh) s)
    (hi : s.commandExecutions.Indexed env.issuedAt)
    (hp : (s.applyEntry env entry).state.progress reference = some restore')
    (hrec : restore'.isRecorded step = true) :
    (∃ restore, s.progress reference = some restore ∧ restore.isRecorded step = true) ∨
      s.AppliesStep env entry reference step := by
  cases hc : entry.payload with
  | blank | membership =>
    unfold StateMachineData.applyEntry at hp
    rw [hc] at hp
    exact .inl ⟨restore', hp, hrec⟩
  | normal c =>
    obtain ⟨s', revision, ht, hs⟩ := @StateMachineData.applyEntry_transition env s entry c hc
    rw [hs] at hp
    obtain ⟨restore, hr, hold | ⟨ha, ⟨effect, rfl⟩, hn⟩⟩ := ht.recorded_before (hm c hc) hi hp hrec
    · exact .inl ⟨restore, hr, hold⟩
    · exact .inr ⟨⟨effect, hc⟩, ha, restore, hr, hn⟩

namespace StateMachineData

theorem mem_importUsersFrom :
    ∀ {users : List UserCredentials} {restored : RestoredUsers}
      {stored : Records UserName UserCredentials}, name ∈ stored →
      name ∈ (importUsersFrom policy users restored stored).1
  | [], _, _, h => h
  | user :: users, _, stored, h => by
    have hinsert : name ∈ stored.insert user.name user := Finmap.mem_insert.mpr (.inr h)
    unfold importUsersFrom
    split
    · split
      · exact mem_importUsersFrom h
      · exact mem_importUsersFrom hinsert
      · exact h
    · exact mem_importUsersFrom hinsert

theorem importUsersFrom_of_nodup : ∀ {users : List UserCredentials} {restored : RestoredUsers}
    {stored : Records UserName UserCredentials}, (users.map (·.name)).Nodup →
    (∀ user ∈ users, user.name ∉ stored) →
    ∃ imported restored', importUsersFrom .fail users restored stored = (imported, .ok restored')
  | [], _, _, _, _ => ⟨_, _, rfl⟩
  | user :: users, restored, stored, hd, hn => by
    obtain ⟨hu, hd⟩ := List.nodup_cons.mp hd
    unfold importUsersFrom
    rw [if_neg (hn user List.mem_cons_self)]
    refine importUsersFrom_of_nodup hd fun x hx hin => ?_
    rcases Finmap.mem_insert.mp hin with he | hin
    · exact hu (List.mem_map.mpr ⟨x, hx, he⟩)
    · exact hn x (List.mem_cons_of_mem user hx) hin

def RepeatsNewUser (s : StateMachineData) (entry : Entry) : Prop :=
  ∃ reference users restore,
    entry.payload = .normal (.applyRestoreStep reference .users (.users users .fail)) ∧
    s.progress reference = some restore ∧ restore.isRecorded .users = false ∧
    (∀ user ∈ users, user.name ∉ s.users) ∧ ¬(users.map (·.name)).Nodup

structure SameProgress (s s' : StateMachineData) : Prop where
  users : s'.users = s.users
  domains : s'.domains = s.domains
  resources : s'.resources = s.resources
  installations : s'.domainRestoreInstallations = s.domainRestoreInstallations
  executions : s'.commandExecutions = s.commandExecutions

theorem users_applyRestoreStep {users : List UserCredentials} {restore : RestoreExecution}
    (hp : s.progress reference = some restore) (hn : restore.isRecorded .users = false)
    (hnew : ∀ user ∈ users, user.name ∉ s.users) :
    (s.applyRestoreStep env reference .users (.users users .fail)).1.users =
      (importUsersFrom .fail users ⟨0, 0, 0⟩ s.users).1 := by
  obtain ⟨execution, hl, hex⟩ := progress_eq_some.mp hp
  have hr : s.applyingRestore reference = .ok restore :=
    applyingRestore_eq_ok.mpr ⟨execution, hl, hex⟩
  have hm : restore.missingPrerequisite .users = none := rfl
  have hfind : users.find? (fun user => decide (user.name ∈ s.users)) = none :=
    List.find?_eq_none.mpr fun user hu => by simpa using hnew user hu
  rcases hi : importUsersFrom .fail users ⟨0, 0, 0⟩ s.users with ⟨imported, result⟩
  unfold applyRestoreStep
  simp only [hr, hn, Bool.false_eq_true, if_false, hm, applyRestoreStepEffect, importUsers, if_true,
    hfind, hi]
  cases result with
  | error conflict => rfl
  | ok restored => simp only [Except.map, recordRestoreStep, hl]

theorem sameProgress_of_restoreStep
    (hp : entry.payload = .normal (.applyRestoreStep reference step effect))
    (ha : ¬s.AppliesStep env entry reference step) (hn : ¬s.RepeatsNewUser entry) :
    s.SameProgress (s.applyEntry env entry).state := by
  obtain ⟨s', revision, ht, hs⟩ := @applyEntry_transition env s entry _ hp
  rw [hs]
  obtain ⟨rfl, -⟩ | ⟨users, imported, c, answer, execution, restore, rfl, rfl, hl, hr, hrec, hnew, hi,
    -, -⟩ | ⟨execution, restore, hl, hr, happlied, ⟨-, rfl⟩ | ⟨hrec, -⟩⟩ := ht.restoreStep
  · exact ⟨rfl, rfl, rfl, rfl, rfl⟩
  · by_cases hd : (users.map (·.name)).Nodup
    · obtain ⟨_, _, hok⟩ := importUsersFrom_of_nodup hd hnew
      rw [hi] at hok
      cases hok
    · exact absurd ⟨reference, users, restore, hp, progress_eq_some.mpr ⟨execution, hl, hr⟩, hrec,
        hnew, hd⟩ hn
  · exact ⟨rfl, rfl, rfl, rfl, rfl⟩
  · exact absurd ⟨⟨effect, hp⟩, happlied, restore, progress_eq_some.mpr ⟨execution, hl, hr⟩, hrec⟩ ha

theorem sameProgress_of_import
    (hp : entry.payload = .normal (.importResourceVersion reference key resource replica))
    (ha : (s.applyEntry env entry).response = .conflict conflict) :
    s.SameProgress (s.applyEntry env entry).state := by
  obtain ⟨s', revision, ht, hs⟩ := @applyEntry_transition env s entry _ hp
  rw [hs]
  generalize (s.applyEntry env entry).response = response at ha ht
  cases ht with
  | conflict | error => exact ⟨rfl, rfl, rfl, rfl, rfl⟩
  | unchanged h => cases h
  | domain h =>
    cases h with
    | resources => cases ha
  | transaction h => obtain ⟨_, ⟨⟩⟩ | ⟨_, _, ⟨⟩⟩ := h.command

theorem state_ofRestore (x : StateMachineData × Except RestoreStepConflict StateMachineChanges) :
    (Applied.ofRestore x).state = x.1 := by
  obtain ⟨_, _ | _⟩ := x <;> rfl

theorem not_sameProgress_of_repeats (h : s.RepeatsNewUser entry) :
    ¬s.SameProgress (s.applyEntry env entry).state := by
  obtain ⟨reference, users, restore, hp, hr, hrec, hnew, hd⟩ := h
  intro hsame
  obtain ⟨revision, h⟩ := @applyEntry_normal env s entry _ hp
  have husers : (s.applyEntry env entry).state.users =
      (importUsersFrom .fail users ⟨0, 0, 0⟩ s.users).1 := by
    rw [h]
    refine (congrArg StateMachineData.users (state_ofRestore _)).trans ?_
    exact @users_applyRestoreStep env { s with lastAppliedLogId := some entry.logId } _ _ _ hr hrec
      hnew
  cases users with
  | nil => exact hd List.nodup_nil
  | cons user users =>
    have hnot := hnew user List.mem_cons_self
    rw [hsame.users, importUsersFrom, if_neg hnot] at husers
    refine hnot ?_
    rw [husers]
    exact mem_importUsersFrom (Finmap.mem_insert.mpr (.inl rfl))

end StateMachineData

end steps

def freshRuns (env : Environment) : System StateMachineData Entry :=
  (stateMachine env).restrict (Entry.Meets fun _ c => c.ProposesFresh)

theorem freshRuns_executionRuns (h : (freshRuns env).Run s t) : (executionRuns env).Run s t :=
  h.mono rfl fun hg => ⟨trivial, fun c hc => (hg.2 c hc).applying⟩

section runs
variable {env : Environment} {s t : StateMachineData} {entry : Entry}
  {reference : CommandExecutionReference} {step : RestoreStep}

theorem applied_of_recorded (h : (freshRuns env).Run .initial s)
    (hp : s.progress reference = some restore) (hrec : restore.isRecorded step = true) :
    ∃ s₀ entry₀, (freshRuns env).Run .initial s₀ ∧ s₀.AppliesStep env entry₀ reference step ∧
      (freshRuns env).Run (s₀.applyEntry env entry₀).state s := by
  induction h generalizing restore with
  | refl => cases hp
  | @tail t entry hrun hg ih =>
    have hi := indexed_of_run (freshRuns_executionRuns hrun)
    rcases recorded_before_entry hg.2 hi hp hrec with ⟨restore₀, hp₀, hrec₀⟩ | happ
    · obtain ⟨s₀, entry₀, hrun₀, happ₀, hrest⟩ := ih hp₀ hrec₀
      exact ⟨s₀, entry₀, hrun₀, happ₀, hrest.tail hg⟩
    · exact ⟨t, entry, hrun, happ, .refl⟩

end runs

inductive StepNeeds (restore : RestoreExecution) : RestoreStep → RestoreStep → Prop
  | users {policy domain} : restore.restore.scope = .cluster policy →
      StepNeeds restore (.createDomain domain) .users
  | domain {domain} : StepNeeds restore (.importResources domain) (.createDomain domain)
  | resources {domain} : StepNeeds restore (.applyModels domain) (.importResources domain)

structure RestoresInOrder (env : Environment) (s : StateMachineData) : Prop where
  once : ∀ {entry later reference step t}, entry.Meets (fun _ c => c.ProposesFresh) s →
    s.AppliesStep env entry reference step →
    (freshRuns env).Run (s.applyEntry env entry).state t →
    ¬t.AppliesStep env later reference step
  otherwise : ∀ {entry reference step effect},
    entry.payload = .normal (.applyRestoreStep reference step effect) →
    ¬s.AppliesStep env entry reference step → ¬s.RepeatsNewUser entry →
    s.SameProgress (s.applyEntry env entry).state
  ordered : ∀ {entry reference step needed restore}, s.AppliesStep env entry reference step →
    s.progress reference = some restore → StepNeeds restore step needed →
    ∃ s₀ entry₀, (freshRuns env).Run .initial s₀ ∧ s₀.AppliesStep env entry₀ reference needed ∧
      (freshRuns env).Run (s₀.applyEntry env entry₀).state s
  refused : ∀ {entry reference step effect conflict},
    entry.payload = .normal (.applyRestoreStep reference step effect) →
    (s.applyEntry env entry).response = .conflict conflict →
    (s.SameProgress (s.applyEntry env entry).state ↔ ¬s.RepeatsNewUser entry)
  importRefused : ∀ {entry reference key resource replica conflict},
    entry.payload = .normal (.importResourceVersion reference key resource replica) →
    (s.applyEntry env entry).response = .conflict conflict →
    s.SameProgress (s.applyEntry env entry).state

theorem restoresInOrder_of_run {env : Environment} {s : StateMachineData}
    (h : (freshRuns env).Run .initial s) : RestoresInOrder env s where
  once := by
    intro entry later reference step t hm happ hrun
    have hi := indexed_of_run (freshRuns_executionRuns h)
    have hnext := (@step_applyEntry s entry env fun c hc => (hm c hc).applying).indexed hi
    exact not_appliesStep_of_done ((done_of_appliesStep hi happ).later
      (later_of_run (freshRuns_executionRuns hrun) hnext))
  otherwise hp ha hn := StateMachineData.sameProgress_of_restoreStep hp ha hn
  ordered := by
    intro entry reference step needed restore happ hp hn
    have hi := indexed_of_run (freshRuns_executionRuns h)
    obtain ⟨restore', users, hp', hm, -⟩ := progress_of_appliesStep hi happ
    cases hp.symm.trans hp'
    have hneeds : restore.prerequisite step = some needed := by
      cases hn with
      | users hs => simp [RestoreExecution.prerequisite, hs]
      | domain | resources => rfl
    refine applied_of_recorded h hp ?_
    simpa [RestoreExecution.missingPrerequisite, hneeds, RestoreExecution.isRecorded] using hm
  refused := by
    intro entry reference step effect conflict hp ha
    have hnot : ¬s.AppliesStep env entry reference step := by
      rintro ⟨-, happlied, -⟩
      cases ha.symm.trans happlied
    exact ⟨fun hsame hrep => StateMachineData.not_sameProgress_of_repeats hrep hsame,
      StateMachineData.sameProgress_of_restoreStep hp hnot⟩
  importRefused hp ha := StateMachineData.sameProgress_of_import hp ha

def clusterRestore : ConsensusCommand :=
  .admitCommandExecution (.applyingAtPosition "r" "u" none none "q" 11
    (.restore (.new ⟨.cluster .fail, .stopped, "request"⟩ "archive"))) [] ⟨5, 20, 4⟩

theorem restoresInOrder_of_users :
    let s := stateAfter [clusterRestore, .applyRestoreStep "r" .users (.users [⟨"a", "hash"⟩] .fail)]
    (s.progress "r").any (·.isRecorded .users) = true ∧ RestoresInOrder .fixed s := by
  refine ⟨by decide, restoresInOrder_of_run
    (restrict_run_stateAfter fun c hc s entry hp c' hc' => ?_)⟩
  cases hp.symm.trans hc'
  simp only [List.mem_cons, List.not_mem_nil, or_false] at hc
  rcases hc with rfl | rfl
  · refine ⟨_, rfl, rfl, fun restore hr => ?_⟩
    cases hr
    rfl
  · trivial

/-- An import that names a new user twice is refused and leaves the user. -/
theorem restoreStep_refused_with_effect : let s := stateAfter [clusterRestore]
    let entry : Entry := ⟨⟨1, 2⟩, .normal (.applyRestoreStep "r" .users
      (.users [⟨"a", "hash"⟩, ⟨"a", "other"⟩] .fail))⟩
    (s.applyEntry .fixed entry).response =
        .conflict (.reason (RestoreStepConflict.userExists "a").toText) ∧
      s.users.lookup "a" = none ∧
      (s.applyEntry .fixed entry).state.users.lookup "a" = some ⟨"a", "hash"⟩ :=
  ⟨rfl, by decide, by decide⟩

end Nervix.Consensus
