import Nervix.Consensus.TransactionProgress

/-!
# Retained reports along runs

Commands issue operations on the report records as they move transactions.
-/

namespace Nervix.Consensus

inductive RetainedReports.Steps (digest : TopologyDigest) :
    RetainedReports → List ReportOperation → RetainedReports → Prop
  | nil {m} : Steps digest m [] m
  | cons {m m₁ m' operation operations} : m.Step digest operation m₁ →
      Steps digest m₁ operations m' → Steps digest m (operation :: operations) m'

theorem RetainedReports.Steps.append (h : Steps digest m operations m₁)
    (h' : Steps digest m₁ operations' m₂) : Steps digest m (operations ++ operations') m₂ := by
  induction h with
  | nil => exact h'
  | cons hstep _ ih => exact .cons hstep (ih h')

namespace TransactionReportRecords

variable {digest : TopologyDigest} {r r' : TransactionReportRecords}
  {identity : TransactionPreviewIdentity}

theorem performAll_refines {operations : List ReportOperation} {m : RetainedReports}
    (h : r.Refines digest m) (hfree : digest.CollisionFree)
    (hp : r.performAll digest operations = .ok r') :
    ∃ m', RetainedReports.Steps digest m operations m' ∧ r'.Refines digest m' := by
  induction operations generalizing r m with
  | nil =>
    cases performAll_nil.mp hp
    exact ⟨m, .nil, h⟩
  | cons operation operations ih =>
    obtain ⟨r₁, h₁, hp⟩ := performAll_cons.mp hp
    obtain ⟨m₁, hstep, href⟩ := perform_yields h hfree r₁ h₁
    obtain ⟨m', hsteps, href'⟩ := ih href hp
    exact ⟨m', .cons hstep hsteps, href'⟩

theorem refines_empty : empty.Refines digest ∅ where
  sound := sound_empty
  reads identity report := by
    constructor
    · exact nofun
    · intro h
      obtain ⟨header, hh⟩ := header_of_report h
      cases hh

section
variable (hs : r.Sound digest)
include hs

theorem Sound.mem_headers_iff :
    identity ∈ r.headers ↔ identity ∈ r.revisionsOf identity.transactionId := by
  simp [hs.mem_revisionsOf]

theorem Sound.mem_of_insert
    (hp : r.perform digest (.insert archive) = .ok r') (hi : identity ∈ r.headers) :
    identity ∈ r'.headers := by
  obtain ⟨hs', hrev⟩ := insert_sound hs r' hp
  rw [hs'.mem_headers_iff, hrev]
  have hmem := hs.mem_headers_iff.mp hi
  split
  · unfold addRevision
    split
    · exact hmem
    · exact List.mem_append_left _ hmem
  · exact hmem

theorem Sound.mem_of_revisionsOf_eq (hs' : r'.Sound digest)
    (h : ∀ transactionId, r'.revisionsOf transactionId = r.revisionsOf transactionId)
    (hi : identity ∈ r.headers) : identity ∈ r'.headers := by
  rw [hs'.mem_headers_iff, h]
  exact hs.mem_headers_iff.mp hi

theorem Sound.collected_of_retain
    (hp : r.perform digest (.retainRevision preview) = .ok r') (hi : identity ∈ r.headers)
    (hn : identity ∉ r'.headers) : r'.Collected := by
  cases hp
  refine collected_retainRevision hs fun he => hn ?_
  rw [he]
  exact hi

theorem Sound.collected_of_insert_retain {report : TransactionReportArchive}
    (hp : r.performAll digest [.insert report, .retainRevision report.identity] = .ok r')
    (hi : identity ∈ r.headers) (hn : identity ∉ r'.headers) : r'.Collected := by
  obtain ⟨r₁, h₁, hp⟩ := performAll_cons.mp hp
  obtain ⟨r₂, h₂, hp⟩ := performAll_cons.mp hp
  cases performAll_nil.mp hp
  exact (insert_sound hs r₁ h₁).1.collected_of_retain h₂ (hs.mem_of_insert h₁ hi) hn

end

end TransactionReportRecords

section moves
variable {env : Environment} {s s' : StateMachineData} {id : TransactionId}
  {t t' : ReplicatedTransaction} {c : ConsensusCommand} {operations : List ReportOperation}
  {r : TransactionReportRecords} {response : ConsensusResponse}
  {identity : TransactionPreviewIdentity}

open TransactionReportRecords

theorem Moves.collected (hm : Moves env s id t c response t' operations)
    (hs : s.transactionReports.Sound env.topologyDigest)
    (hp : s.transactionReports.performAll env.topologyDigest operations = .ok r)
    (hi : identity ∈ s.transactionReports.headers) (hn : identity ∉ r.headers) : r.Collected := by
  cases hm with
  | touched =>
    cases performAll_nil.mp hp
    exact absurd hi hn
  | ended =>
    unfold ReplicatedTransaction.retainLatest at hp
    cases hl : t'.latestPreview with
    | none =>
      rw [hl] at hp
      cases performAll_nil.mp hp
      exact absurd hi hn
    | some preview =>
      rw [hl] at hp
      obtain ⟨r₁, h₁, hp⟩ := performAll_cons.mp hp
      cases performAll_nil.mp hp
      exact hs.collected_of_retain h₁ hi hn
  | queued =>
    obtain ⟨r₁, h₁, hp⟩ := performAll_cons.mp hp
    cases performAll_nil.mp hp
    exact absurd (hs.mem_of_insert h₁ hi) hn
  | stale => exact hs.collected_of_insert_retain hp hi hn
  | admitted => exact hs.collected_of_insert_retain hp hi hn
  | failed =>
    obtain ⟨r₁, h₁, hp⟩ := performAll_cons.mp hp
    obtain ⟨r₂, h₂, hp⟩ := performAll_cons.mp hp
    obtain ⟨r₃, h₃, hp⟩ := performAll_cons.mp hp
    cases performAll_nil.mp hp
    have hs₁ := (insert_sound hs r₁ h₁).1
    obtain ⟨hs₂, hrev⟩ := failExecutionStep_sound hs₁ r₂ h₂
    exact hs₂.collected_of_retain h₃
      (hs₁.mem_of_revisionsOf_eq hs₂ hrev (hs.mem_of_insert h₁ hi)) hn
  | begun =>
    obtain ⟨r₁, h₁, hp⟩ := performAll_cons.mp hp
    cases performAll_nil.mp hp
    obtain ⟨hs₁, hrev⟩ := replaceExecutionStep_sound hs _ h₁
    exact absurd (hs.mem_of_revisionsOf_eq hs₁ hrev hi) hn
  | completed =>
    obtain ⟨r₁, h₁, hp⟩ := performAll_cons.mp hp
    obtain ⟨hs₁, hrev⟩ := replaceExecutionStep_sound hs r₁ h₁
    have hi₁ := hs.mem_of_revisionsOf_eq hs₁ hrev hi
    split at hp
    · cases performAll_nil.mp hp
      exact absurd hi₁ hn
    · obtain ⟨r₂, h₂, hp⟩ := performAll_cons.mp hp
      cases performAll_nil.mp hp
      exact hs₁.collected_of_retain h₂ hi₁ hn

theorem TransactionChange.collected (h : TransactionChange env s c response s')
    (hs : s.transactionReports.Sound env.topologyDigest)
    (hi : identity ∈ s.transactionReports.headers)
    (hn : identity ∉ s'.transactionReports.headers) : s'.transactionReports.Collected := by
  cases h with
  | same _ hr =>
    rw [hr] at hn
    exact absurd hi hn
  | opened _ _ hr =>
    rw [hr] at hn
    exact absurd hi hn
  | moved _ hm _ hp => exact hm.collected hs hp hi hn
  | @removed finishedBefore _ _ he =>
    subst he
    have hmem := hs.mem_headers_iff.mp hi
    obtain ⟨hs', hrev⟩ := removeTransactions_sound
      (s.finishedTransactionRemovals finishedBefore) hs
    have hgone : identity.transactionId ∈ s.finishedTransactionRemovals finishedBefore := by
      by_contra hkept
      refine hn (hs'.mem_headers_iff.mpr ?_)
      rw [hrev, if_neg hkept]
      exact hmem
    refine collected_removeTransactions hs ⟨_, hgone, ?_⟩
    unfold revisionsOf at hmem
    cases hl : s.transactionReports.revisions.lookup identity.transactionId with
    | none => simp [hl] at hmem
    | some identities => exact Finmap.mem_of_lookup_eq_some hl

end moves

def Entry.ExpiresOne (env : Environment) (s : StateMachineData) (entry : Entry) : Prop :=
  ∀ id owner activity t, entry.payload = .normal (.touchTransaction id owner activity) →
    (s.applyEntry env entry).state.transactions.lookup id = some t → t.state.isLive = false →
    (s.transactionReports.revisionsOf id).length ≤ 1

def reportRuns (env : Environment) : System StateMachineData Entry :=
  (stateMachine env).restrict fun s entry =>
    entry.Meets (fun _ c => c.OpensFresh) s ∧ entry.ExpiresOne env s

inductive Entry.Issues (env : Environment) (s : StateMachineData) (entry : Entry) :
    List ReportOperation → Prop
  | none : (s.applyEntry env entry).state.transactionReports = s.transactionReports →
      Issues env s entry []
  | moved {c id t t' operations} : entry.payload = .normal c → s.transactions.lookup id = some t →
      Moves env { s with lastAppliedLogId := some entry.logId } id t c
        (s.applyEntry env entry).response t' operations →
      (s.applyEntry env entry).state.transactions.lookup id = some t' →
      Issues env s entry operations
  | removed {finishedBefore} : entry.payload = .normal (.removeFinishedTransactions finishedBefore) →
      Issues env s entry [.removeTransactions (s.finishedTransactionRemovals finishedBefore)]

inductive IssuedRun (env : Environment) : StateMachineData → List ReportOperation → Prop
  | initial : IssuedRun env .initial []
  | entry {s issued entry operations} : IssuedRun env s issued → (reportRuns env).guard s entry →
      entry.Issues env s operations →
      IssuedRun env (s.applyEntry env entry).state (issued ++ operations)

structure ReportsKept (env : Environment) (s : StateMachineData) : Prop where
  readable : ∃ issued m, IssuedRun env s issued ∧
    RetainedReports.Steps env.topologyDigest ∅ issued m ∧
    (∀ identity, identity ∈ m ↔ identity ∈ s.transactionReports.headers) ∧
    ∀ identity report, m.lookup identity = some report ↔
      s.transactionReports.report identity = .ok report
  indexed : s.transactionReports.hasConsistentRevisionIndex = true
  refused : ∀ {entry}, (s.applyEntry env entry).response.isRefusal = true →
    (∀ expected current,
      (s.applyEntry env entry).response ≠ .transaction (.error (.previewStale expected current))) →
    (s.applyEntry env entry).state.transactionReports = s.transactionReports
  finished : ∀ {id t}, s.transactions.lookup id = some t → t.state.isLive = false →
    s.transactionReports.revisionsOf id = t.latestPreview.toList
  collected : ∀ {entry identity}, identity ∈ s.transactionReports.headers →
    identity ∉ (s.applyEntry env entry).state.transactionReports.headers →
    (s.applyEntry env entry).state.transactionReports.Collected
  careful : ∀ {entry}, ¬entry.ExpiresOne env s → ∃ id t,
    (s.applyEntry env entry).state.transactions.lookup id = some t ∧ t.state.isLive = false ∧
      (s.applyEntry env entry).state.transactionReports.revisionsOf id ≠ t.latestPreview.toList

section runs
variable {env : Environment} {s s' : StateMachineData} {entry : Entry} {id : TransactionId}
  {t t' : ReplicatedTransaction} {c : ConsensusCommand} {response : ConsensusResponse}

open TransactionReportRecords

def StateMachineData.FinishedRetained (s : StateMachineData) : Prop :=
  ∀ id t, s.transactions.lookup id = some t → t.state.isLive = false →
    s.transactionReports.revisionsOf id = t.latestPreview.toList

theorem ReplicatedTransaction.Linked.eq_toList
    (h : t.Linked identities) (hl : identities.length ≤ 1) :
    identities = t.latestPreview.toList := by
  unfold ReplicatedTransaction.Linked at h
  cases hp : t.latestPreview with
  | none =>
    rw [hp] at h
    exact h
  | some preview =>
    rw [hp] at h
    match identities, hl, h with
    | [_], _, h => rw [List.mem_singleton.mp h, Option.toList_some]

theorem TransactionChange.finishedRetained (h : TransactionChange env s c response s')
    (hf : c.OpensFresh) (hk : s.KeepsTransactions env.topologyDigest)
    (hone : ∀ id owner activity t, c = .touchTransaction id owner activity →
      s'.transactions.lookup id = some t → t.state.isLive = false →
      (s.transactionReports.revisionsOf id).length ≤ 1)
    (hs : s.FinishedRetained) : s'.FinishedRetained := by
  intro id t hl hend
  cases h with
  | same ht hr =>
    rw [ht] at hl
    rw [hr]
    exact hs id t hl hend
  | opened _ ht hr =>
    rw [ht] at hl
    rw [hr]
    obtain ⟨rfl, rfl⟩ | ⟨-, hl⟩ := Finmap.lookup_insert_eq_some.mp hl
    · obtain ⟨_, _, _, _, _, rfl⟩ := hf.eq_open
      cases hend
    · exact hs id t hl hend
  | moved hl₀ hm ht hr =>
    obtain ⟨identities, ⟨-, hown, hothers⟩, hlink, hlatest⟩ := hm.revisions hk.reports (hk.linked hl₀) hr
    have hl' := hl
    rw [ht] at hl
    obtain ⟨rfl, rfl⟩ | ⟨hne, hl⟩ := Finmap.lookup_insert_eq_some.mp hl
    · rw [hown]
      rcases hlatest with hlive | hlatest | ⟨⟨owner, activity, rfl⟩, rfl⟩
      · rw [hend] at hlive
        cases hlive
      · exact hlatest
      · exact hlink.eq_toList (hone _ _ _ _ rfl hl' hend)
    · rw [hothers id hne]
      exact hs id t hl hend
  | @removed finishedBefore _ _ he =>
    subst he
    rw [StateMachineData.lookup_removeFinishedTransactions] at hl
    split at hl
    · cases hl
    · rename_i hn
      refine ((removeTransactions_sound _ hk.reports).2 id).trans ?_
      rw [if_neg hn]
      exact hs id t hl hend

theorem finishedRetained_applyEntry (hf : entry.Meets (fun _ c => c.OpensFresh) s)
    (hone : entry.ExpiresOne env s) (hk : s.KeepsTransactions env.topologyDigest)
    (hs : s.FinishedRetained) : (s.applyEntry env entry).state.FinishedRetained := by
  obtain ⟨ht, hr, -⟩ | ⟨c, s', revision, hp, hc, he⟩ := s.applyEntry_transactions env entry
  · unfold StateMachineData.FinishedRetained
    rw [ht, hr]
    exact hs
  · have hnext := hc.finishedRetained (hf c hp) (hk.of_eq rfl rfl) (fun id owner activity t hct hl =>
      hone id owner activity t (hct ▸ hp) (by rw [he]; exact hl)) hs
    rw [he]
    exact hnext

theorem issues_applyEntry (hfree : env.topologyDigest.CollisionFree)
    (h : s.transactionReports.Refines env.topologyDigest m) :
    ∃ operations m', entry.Issues env s operations ∧
      RetainedReports.Steps env.topologyDigest m operations m' ∧
      (s.applyEntry env entry).state.transactionReports.Refines env.topologyDigest m' := by
  obtain ⟨-, hr, -⟩ | ⟨c, s', revision, hp, hc, he⟩ := s.applyEntry_transactions env entry
  · exact ⟨[], m, .none hr, .nil, hr ▸ h⟩
  · cases hc with
    | same _ hr =>
      have hr' : (s.applyEntry env entry).state.transactionReports = s.transactionReports := by
        rw [he]
        exact hr
      exact ⟨[], m, .none hr', .nil, hr' ▸ h⟩
    | opened _ _ hr =>
      have hr' : (s.applyEntry env entry).state.transactionReports = s.transactionReports := by
        rw [he]
        exact hr
      exact ⟨[], m, .none hr', .nil, hr' ▸ h⟩
    | moved hl hm ht hr =>
      obtain ⟨m', hsteps, href⟩ := performAll_refines h hfree hr
      refine ⟨_, m', .moved hp hl hm ?_, hsteps, ?_⟩
      · rw [he]
        rw [ht, Finmap.lookup_insert]
      · rw [he]
        exact href
    | @removed finishedBefore _ _ hs' =>
      refine ⟨_, _, .removed hp, .cons .removed .nil, ?_⟩
      rw [he, hs']
      exact removeTransactions_refines h

theorem reports_of_touch (hp : entry.payload = .normal (.touchTransaction id owner activity)) :
    (s.applyEntry env entry).state.transactionReports = s.transactionReports := by
  have hstored : ∀ (u : StateMachineData) mutation, (u.mutateTransaction id mutation).Yields
      fun a => a.state.transactionReports = u.transactionReports := by
    intro u mutation
    exact .bind fun _ _ => .bind fun _ _ => .pure rfl
  obtain ⟨revision, h⟩ := @StateMachineData.applyEntry_normal env s entry _ hp
  rw [h]
  unfold applyConsensusCommandAt Applied.ofTransaction
  dsimp only
  split
  · rename_i a ha
    exact hstored { s with lastAppliedLogId := some entry.logId } _ a ha
  · rfl

theorem reports_of_refused (hr : (s.applyEntry env entry).response.isRefusal = true)
    (hstale : ∀ expected current,
      (s.applyEntry env entry).response ≠ .transaction (.error (.previewStale expected current))) :
    (s.applyEntry env entry).state.transactionReports = s.transactionReports := by
  obtain ⟨-, h, -⟩ | ⟨c, -, -, hp, -⟩ := s.applyEntry_transactions env entry
  · exact h
  · obtain ⟨s', revision, ht, hs⟩ := @StateMachineData.applyEntry_transition env s entry c hp
    rw [hs]
    generalize (s.applyEntry env entry).response = response at ht hr hstale
    cases ht with
    | conflict | error => rfl
    | domain h =>
      obtain ⟨_, _, _, _, _, _, _, rfl⟩ | ⟨_, -, rfl, rfl⟩ | ⟨_, _, _, _, -, -, -, rfl⟩ := h.shape <;>
        rfl
    | transaction h =>
      cases h with
      | stale => exact absurd rfl (hstale _ _)
      | _ => cases hr
    | _ => cases hr

structure StateMachineData.TracesReports (env : Environment) (s : StateMachineData) : Prop where
  keeps : s.KeepsTransactions env.topologyDigest
  finished : s.FinishedRetained
  traced : ∃ issued m, IssuedRun env s issued ∧
    RetainedReports.Steps env.topologyDigest ∅ issued m ∧
    s.transactionReports.Refines env.topologyDigest m

theorem tracesReports_applyEntry (hfree : env.topologyDigest.CollisionFree)
    (hg : (reportRuns env).guard s entry) (h : s.TracesReports env) :
    (s.applyEntry env entry).state.TracesReports env := by
  obtain ⟨hkeeps, hfinished, issued, m, hissued, hsteps, href⟩ := h
  obtain ⟨operations, m', hissues, hsteps', href'⟩ := issues_applyEntry hfree href
  exact ⟨keepsTransactions_applyEntry hg.2.1 hkeeps,
    finishedRetained_applyEntry hg.2.1 hg.2.2 hkeeps hfinished, issued ++ operations, m',
    .entry hissued hg hissues, hsteps.append hsteps', href'⟩

end runs

def queuedOperation (n : TransactionOperationNumber) : StoredOperationImpactReport :=
  ⟨⟨n, ⟨"d", "body"⟩, ⟨n, n, le_refl n⟩, .complete, "reasons", ⟨.empty, "changes"⟩⟩,
    "topology", "topology"⟩

def queuedStep (n : TransactionOperationNumber) : StoredExecutionStepImpactReport :=
  ⟨⟨⟨n, n, le_refl n⟩, ⟨.complete, .noPause, ⟨.empty, "changes"⟩⟩,
      ⟨.unattempted, [], ⟨.empty, "changes"⟩⟩⟩,
    ⟨"topology", "topology"⟩, ⟨"topology", "topology"⟩⟩

def queueLast (reference : CommandExecutionReference) (numbers : List TransactionOperationNumber) :
    ConsensusCommand :=
  .queueTransactionStatement "t" "u" "d" ⟨1, 100⟩
    ⟨⟨reference, numbers.length - 1, "source", .other "body"⟩, ⟨true, "queued", [], false, none⟩⟩
    ⟨⟨⟨"t", numbers.length, "b"⟩, "d", .complete, numbers.length, numbers.length⟩,
      numbers.map queuedOperation, numbers.map queuedStep, [⟨"topology", .empty⟩]⟩ ⟨10, 1000⟩

theorem collisionFree_fixed : Environment.fixed.topologyDigest.CollisionFree := by
  intro t u id ht hu
  simp only [Environment.fixed, Option.ite_none_right_eq_some] at ht hu
  rw [ht.1, hu.1]

end Nervix.Consensus
