import Nervix.Theory.Records
import Nervix.Theory.System

/-!
# Checkpoint replication

The owner of a placement records what each replica reported holding and offers its newest checkpoint
through one announcer at a time.
-/

namespace Nervix.CheckpointReplication

variable {ν : Type} [DecidableEq ν]

structure ReplicaProgress (ν : Type) where
  held : Records ν Nat

namespace ReplicaProgress

variable (progress : ReplicaProgress ν) (replica : ν) (replicas : Finset ν) (revision : Nat)

def record : ReplicaProgress ν × Bool :=
  match progress.held.lookup replica with
  | none => (⟨progress.held.insert replica revision⟩, true)
  | some held =>
    if held ≥ revision then (progress, false)
    else (⟨progress.held.insert replica revision⟩, true)

def holds : Bool :=
  match progress.held.lookup replica with
  | some held => decide (held ≥ revision)
  | none => false

def awaiting : Finset ν := replicas.filter fun replica => progress.holds replica revision = false

def holding : Nat := (replicas.filter fun replica => progress.holds replica revision = true).card

end ReplicaProgress

inductive Announcement
  | idle
  | offering (revision : Nat)
  | retired
  deriving DecidableEq

structure ReplicationState (ν : Type) where
  progress : ReplicaProgress ν
  announcement : Announcement

structure Announcer where
  finished : Bool
  deriving DecidableEq

inductive AnnouncerStep (ν : Type)
  | offer (revision : Nat) (lagging : Finset ν)
  | finished
  deriving DecidableEq

namespace ReplicationState

variable (state : ReplicationState ν)

def offer (revision : Nat) : ReplicationState ν × Option Announcer :=
  match state.announcement with
  | .idle => ({ state with announcement := .offering revision }, some ⟨false⟩)
  | .offering offered => ({ state with announcement := .offering (max offered revision) }, none)
  | .retired => (state, none)

def record (replica : ν) (revision : Nat) : ReplicationState ν × Bool :=
  let (progress, raised) := state.progress.record replica revision
  ({ state with progress }, raised)

def drop : ReplicationState ν := { state with announcement := .retired }

end ReplicationState

namespace Announcer

variable (announcer : Announcer) (state : ReplicationState ν)

def next (replicas : Finset ν) : Announcer × ReplicationState ν × AnnouncerStep ν :=
  match state.announcement with
  | .offering revision =>
    let lagging := state.progress.awaiting replicas revision
    if lagging = ∅ then (⟨true⟩, { state with announcement := .idle }, .finished)
    else (announcer, state, .offer revision lagging)
  | _ => (⟨true⟩, state, .finished)

def drop : ReplicationState ν :=
  if announcer.finished then state
  else match state.announcement with
    | .offering _ => { state with announcement := .idle }
    | _ => state

end Announcer

inductive Action (ν : Type)
  | offer (revision : Nat)
  | record (replica : ν) (revision : Nat)
  | next (id : Nat) (replicas : Finset ν)
  | dropAnnouncer (id : Nat)
  | dropReplication

inductive Event (ν : Type)
  | offered (revision : Nat) (created : Option Nat)
  | reported (replica : ν) (revision : Nat)
  | stepped (id : Nat) (replicas : Finset ν) (step : AnnouncerStep ν)
  | dropped (id : Nat)
  | retired

structure Moment (ν : Type) where
  state : ReplicationState ν
  announcers : Nat → Option Announcer
  created : Nat
  events : List (Event ν)

namespace Moment

variable (m : Moment ν)

def start : Moment ν := ⟨⟨⟨∅⟩, .idle⟩, fun _ => none, 0, []⟩

def Live (id : Nat) : Prop := m.announcers id = some ⟨false⟩

def offer (revision : Nat) : Moment ν :=
  match m.state.offer revision with
  | (state, none) => { m with state, events := .offered revision none :: m.events }
  | (state, some announcer) =>
    { state, announcers := Function.update m.announcers m.created (some announcer)
      created := m.created + 1, events := .offered revision (some m.created) :: m.events }

def next (id : Nat) (announcer : Announcer) (replicas : Finset ν) : Moment ν :=
  let (announcer, state, step) := announcer.next m.state replicas
  { m with
    state, announcers := Function.update m.announcers id (some announcer)
    events := .stepped id replicas step :: m.events }

def dropAnnouncer (id : Nat) (announcer : Announcer) : Moment ν :=
  { m with
    state := announcer.drop m.state, announcers := Function.update m.announcers id none
    events := .dropped id :: m.events }

def act : Action ν → Moment ν
  | .offer revision => m.offer revision
  | .record replica revision =>
    { m with
      state := (m.state.record replica revision).1, events := .reported replica revision :: m.events }
  | .next id replicas =>
    match m.announcers id with
    | some announcer => m.next id announcer replicas
    | none => m
  | .dropAnnouncer id =>
    match m.announcers id with
    | some announcer => m.dropAnnouncer id announcer
    | none => m
  | .dropReplication => { m with state := m.state.drop, events := .retired :: m.events }

end Moment

def replication (ν : Type) [DecidableEq ν] : System (Moment ν) (Action ν) where
  guard m
    | .next id _ => m.Live id
    | .dropAnnouncer id => m.announcers id ≠ none
    | _ => True
  next := Moment.act

def offeredSince (id : Nat) : List (Event ν) → List Nat
  | [] => []
  | .offered revision created :: events =>
    if created = some id then [revision] else revision :: offeredSince id events
  | _ :: events => offeredSince id events

def Reported (events : List (Event ν)) (replica : ν) (revision : Nat) : Prop :=
  ∃ reported, .reported replica reported ∈ events ∧ revision ≤ reported

namespace ReplicaProgress

variable {progress : ReplicaProgress ν} {replica : ν} {replicas : Finset ν} {revision : Nat}

theorem holds_iff :
    progress.holds replica revision = true ↔
      ∃ held, progress.held.lookup replica = some held ∧ revision ≤ held := by
  rw [holds]
  cases progress.held.lookup replica <;> simp

theorem holds_record (reporter : ν) (reported : Nat) :
    (progress.record reporter reported).1.holds replica revision = true ↔
      progress.holds replica revision = true ∨ replica = reporter ∧ revision ≤ reported := by
  simp only [holds_iff, record]
  cases hheld : progress.held.lookup reporter with
  | none =>
    by_cases heq : replica = reporter
    · subst heq
      simp [hheld, Finmap.lookup_insert]
    · simp [heq, Finmap.lookup_insert_eq]
  | some held =>
    by_cases hle : held ≥ reported
    · simp only [hle, if_true]
      refine ⟨.inl, ?_⟩
      rintro (h | ⟨rfl, h⟩)
      · exact h
      · exact ⟨held, hheld, h.trans hle⟩
    · simp only [hle, if_false]
      by_cases heq : replica = reporter
      · subst heq
        simp only [Finmap.lookup_insert, Option.some.injEq, exists_eq_left', hheld, true_and]
        omega
      · simp [heq, Finmap.lookup_insert_eq]

end ReplicaProgress

structure Moment.Sound (m : Moment ν) : Prop where
  numbered : ∀ id, m.announcers id ≠ none → id < m.created
  idle : m.state.announcement = .idle → ∀ id, ¬ m.Live id
  offering : ∀ revision, m.state.announcement = .offering revision → ∃ id, m.Live id ∧
    (∀ id', m.Live id' → id' = id) ∧ IsGreatest {r | r ∈ offeredSince id m.events} revision
  progress : ∀ replica revision,
    m.state.progress.holds replica revision = true ↔ Reported m.events replica revision

namespace Moment.Sound

variable {m : Moment ν}

theorem start : (Moment.start : Moment ν).Sound where
  numbered := by simp [Moment.start]
  idle := by simp [Moment.start, Live]
  offering := by simp [Moment.start]
  progress := by simp [Moment.start, Reported, ReplicaProgress.holds_iff]

section
variable (h : m.Sound)
include h

theorem offer (revision : Nat) : (m.offer revision).Sound := by
  have hprogress : ∀ created replica r, Reported (.offered revision created :: m.events) replica r ↔
      Reported m.events replica r := by simp [Reported]
  cases hannounced : m.state.announcement with
  | idle =>
    have hnone := h.idle hannounced
    simp only [Moment.offer, ReplicationState.offer, hannounced]
    refine ⟨fun id hid => ?_, nofun, fun r hr => ⟨m.created, ?_, fun id hid => ?_, ?_⟩,
      fun replica r => (h.progress replica r).trans (hprogress ..).symm⟩
    · by_cases heq : id = m.created
      · exact heq ▸ Nat.lt_succ_self _
      · simp only [Function.update_of_ne heq] at hid
        exact Nat.lt_succ_of_lt (h.numbered id hid)
    · simp [Live]
    · by_contra hne
      simp only [Live, Function.update_of_ne hne] at hid
      exact hnone id hid
    · cases hr
      simp [offeredSince]
  | offering offered =>
    obtain ⟨id, hlive, hunique, hmem, hmax⟩ := h.offering offered hannounced
    simp only [Moment.offer, ReplicationState.offer, hannounced]
    refine ⟨h.numbered, nofun, fun r hr => ⟨id, hlive, hunique, ?_⟩,
      fun replica r => (h.progress replica r).trans (hprogress ..).symm⟩
    cases hr
    refine ⟨?_, fun r hr => ?_⟩
    · rcases max_choice offered revision with hmax | hmax
      · exact hmax.symm ▸ List.mem_cons_of_mem _ hmem
      · exact hmax.symm ▸ List.mem_cons_self
    · rcases List.mem_cons.mp hr with rfl | hr
      · exact le_max_right ..
      · exact (hmax hr).trans (le_max_left ..)
  | retired =>
    simp only [Moment.offer, ReplicationState.offer, hannounced]
    refine ⟨h.numbered, fun hidle => ?_, fun r hr => ?_,
      fun replica r => (h.progress replica r).trans (hprogress ..).symm⟩
    · cases hannounced.symm.trans hidle
    · cases hannounced.symm.trans hr

theorem record (replica : ν) (revision : Nat) :
    (m.act (.record replica revision)).Sound := by
  refine ⟨h.numbered, h.idle, h.offering, fun replica' r => ?_⟩
  have hcons : Reported (.reported replica revision :: m.events) replica' r ↔
      Reported m.events replica' r ∨ replica' = replica ∧ r ≤ revision := by
    simp [Reported, or_and_right, exists_or, and_assoc, or_comm]
  exact (ReplicaProgress.holds_record replica revision).trans
    ((or_congr_left (h.progress replica' r)).trans hcons.symm)

theorem next {id : Nat} (hlive : m.Live id) (replicas : Finset ν) :
    (m.next id ⟨false⟩ replicas).Sound := by
  have hnumbered : ∀ (a : Announcer) id', Function.update m.announcers id (some a) id' ≠ none →
      id' < m.created := by
    intro a id' hid'
    by_cases heq : id' = id
    · exact heq ▸ h.numbered id (by simp [show m.announcers id = _ from hlive])
    · rw [Function.update_of_ne heq] at hid'
      exact h.numbered id' hid'
  have hprogress : ∀ step replica r, Reported (.stepped id replicas step :: m.events) replica r ↔
      Reported m.events replica r := by simp [Reported]
  have hself : Function.update m.announcers id (some ⟨false⟩) = m.announcers := by
    rw [← show m.announcers id = some ⟨false⟩ from hlive, Function.update_eq_self]
  cases hannounced : m.state.announcement with
  | offering revision =>
    simp only [Moment.next, Announcer.next, hannounced]
    split_ifs with hlagging
    · refine ⟨hnumbered _, fun _ id' hid' => ?_, nofun,
        fun replica r => (h.progress replica r).trans (hprogress ..).symm⟩
      obtain ⟨owner, -, hunique, -⟩ := h.offering revision hannounced
      by_cases heq : id' = id
      · simp [Live, heq] at hid'
      · simp only [Live, Function.update_of_ne heq] at hid'
        exact heq ((hunique id' hid').trans (hunique id hlive).symm)
    · simp only [hself]
      exact ⟨h.numbered, h.idle, h.offering,
        fun replica r => (h.progress replica r).trans (hprogress ..).symm⟩
  | idle => exact (h.idle hannounced id hlive).elim
  | retired =>
    simp only [Moment.next, Announcer.next, hannounced]
    refine ⟨hnumbered _, fun hidle => ?_, fun r hr => ?_,
      fun replica r => (h.progress replica r).trans (hprogress ..).symm⟩
    · cases hannounced.symm.trans hidle
    · cases hannounced.symm.trans hr

theorem dropAnnouncer {id : Nat} {announcer : Announcer}
    (hid : m.announcers id = some announcer) : (m.dropAnnouncer id announcer).Sound := by
  have hlive : ∀ id', (m.dropAnnouncer id announcer).Live id' ↔ id' ≠ id ∧ m.Live id' := by
    intro id'
    by_cases heq : id' = id <;> simp [Moment.dropAnnouncer, Live, heq]
  have hnumbered : ∀ id', Function.update m.announcers id none id' ≠ none → id' < m.created := by
    intro id' hid'
    by_cases heq : id' = id
    · simp [heq] at hid'
    · rw [Function.update_of_ne heq] at hid'
      exact h.numbered id' hid'
  have hprogress : ∀ replica r, Reported (.dropped id :: m.events) replica r ↔
      Reported m.events replica r := by simp [Reported]
  cases announcer with | mk finished => ?_
  cases finished with
  | true =>
    have hlive' : ∀ id', (m.dropAnnouncer id ⟨true⟩).Live id' ↔ m.Live id' := by
      refine fun id' => (hlive id').trans (and_iff_right_of_imp ?_)
      rintro hid' rfl
      cases hid.symm.trans hid'
    refine ⟨hnumbered, fun hidle id' hid' => h.idle hidle id' ((hlive' id').mp hid'), fun r hr => ?_,
      fun replica r => (h.progress replica r).trans (hprogress ..).symm⟩
    obtain ⟨owner, howner, hunique, hgreatest⟩ := h.offering r hr
    exact ⟨owner, (hlive' owner).mpr howner, fun id' hid' => hunique id' ((hlive' id').mp hid'),
      hgreatest⟩
  | false =>
    cases hannounced : m.state.announcement with
    | idle => exact (h.idle hannounced id hid).elim
    | offering revision =>
      have hdrop : (⟨false⟩ : Announcer).drop m.state = { m.state with announcement := .idle } := by
        simp [Announcer.drop, hannounced]
      obtain ⟨owner, -, hunique, -⟩ := h.offering revision hannounced
      refine ⟨hnumbered, fun _ id' hid' => ?_, fun r hr => ?_, fun replica r => ?_⟩
      · obtain ⟨hne, hid'⟩ := (hlive id').mp hid'
        exact hne ((hunique id' hid').trans (hunique id hid).symm)
      · simp [Moment.dropAnnouncer, hdrop] at hr
      · simp only [Moment.dropAnnouncer, hdrop]
        exact (h.progress replica r).trans (hprogress ..).symm
    | retired =>
      have hdrop : (⟨false⟩ : Announcer).drop m.state = m.state := by
        simp [Announcer.drop, hannounced]
      refine ⟨hnumbered, fun hidle => ?_, fun r hr => ?_, fun replica r => ?_⟩
      · simp [Moment.dropAnnouncer, hdrop, hannounced] at hidle
      · simp [Moment.dropAnnouncer, hdrop, hannounced] at hr
      · simp only [Moment.dropAnnouncer, hdrop]
        exact (h.progress replica r).trans (hprogress ..).symm

theorem retire : (m.act .dropReplication).Sound where
  numbered := h.numbered
  idle := nofun
  offering := nofun
  progress replica r := (h.progress replica r).trans (by simp [Moment.act, Reported])

theorem act {action : Action ν} (hguard : (replication ν).guard m action) :
    (m.act action).Sound := by
  cases action with
  | offer revision => exact h.offer revision
  | record replica revision => exact h.record replica revision
  | next id replicas =>
    rw [Moment.act, show m.announcers id = some ⟨false⟩ from hguard]
    exact h.next hguard replicas
  | dropAnnouncer id =>
    obtain ⟨announcer, hid⟩ := Option.ne_none_iff_exists'.mp hguard
    rw [Moment.act, hid]
    exact h.dropAnnouncer hid
  | dropReplication => exact h.retire

end

theorem of_run (h : (replication ν).Run .start m) : m.Sound :=
  h.inv start fun h hguard => h.act hguard

theorem offering_iff (h : m.Sound) (hretired : m.state.announcement ≠ .retired) :
    (∃ revision, m.state.announcement = .offering revision) ↔ ∃! id, m.Live id := by
  cases hannounced : m.state.announcement with
  | idle => simpa using fun ⟨id, hid, _⟩ => h.idle hannounced id hid
  | offering revision =>
    obtain ⟨id, hlive, hunique, -⟩ := h.offering revision hannounced
    simpa using ⟨id, hlive, hunique⟩
  | retired => exact (hretired hannounced).elim

theorem offer_ne_none_iff (h : m.Sound) (revision : Nat) :
    (m.state.offer revision).2 ≠ none ↔ m.state.announcement ≠ .retired ∧ ∀ id, ¬ m.Live id := by
  cases hannounced : m.state.announcement with
  | idle => simpa [ReplicationState.offer, hannounced] using h.idle hannounced
  | offering offered =>
    obtain ⟨id, hlive, -⟩ := h.offering offered hannounced
    simpa [ReplicationState.offer, hannounced] using ⟨id, hlive⟩
  | retired => simp [ReplicationState.offer, hannounced]

end Moment.Sound

theorem Reported.mono (hrun : (replication ν).Run m m') (h : Reported m.events replica revision) :
    Reported m'.events replica revision := by
  refine hrun.inv (P := fun m => Reported m.events replica revision) h ?_
  rintro m action ⟨reported, hmem, hle⟩ hguard
  refine ⟨reported, ?_, hle⟩
  cases action with
  | offer r =>
    simp only [replication, Moment.act, Moment.offer]
    split <;> exact List.mem_cons_of_mem _ hmem
  | record | dropReplication => exact List.mem_cons_of_mem _ hmem
  | next id =>
    simp only [replication, Moment.act, show m.announcers id = _ from hguard]
    exact List.mem_cons_of_mem _ hmem
  | dropAnnouncer id =>
    obtain ⟨announcer, hid⟩ := Option.ne_none_iff_exists'.mp hguard
    simp only [replication, Moment.act, hid]
    exact List.mem_cons_of_mem _ hmem

/-- **No offer is lost.** At every moment of a run, one announcer is live while a revision is offered
and an offer creates one exactly when none is. A step of the live announcer either offers the
largest revision since its creation to the replicas that have not reported it, or finishes when all
of them have. Progress never falls. -/
theorem no_offer_lost {m : Moment ν} (h : (replication ν).Run .start m) :
    (m.state.announcement ≠ .retired →
      ((∃ revision, m.state.announcement = .offering revision) ↔ ∃! id, m.Live id)) ∧
    (∀ revision, (m.state.offer revision).2 ≠ none ↔
      m.state.announcement ≠ .retired ∧ ∀ id, ¬ m.Live id) ∧
    (∀ id, m.Live id → ∀ replicas, match ((⟨false⟩ : Announcer).next m.state replicas).2.2 with
      | .finished => m.state.announcement ≠ .retired → ∃ revision,
        IsGreatest {r | r ∈ offeredSince id m.events} revision ∧
        ∀ replica ∈ replicas, Reported m.events replica revision
      | .offer revision lagging =>
        IsGreatest {r | r ∈ offeredSince id m.events} revision ∧
        ∀ replica, replica ∈ lagging ↔ replica ∈ replicas ∧ ¬ Reported m.events replica revision) ∧
    ∀ m', (replication ν).Run m m' → ∀ replica held,
      m.state.progress.held.lookup replica = some held →
      ∃ held', m'.state.progress.held.lookup replica = some held' ∧ held ≤ held' := by
  have hsound := Moment.Sound.of_run h
  refine ⟨hsound.offering_iff, hsound.offer_ne_none_iff, fun id hlive replicas => ?_,
    fun m' hrun replica held hheld => ?_⟩
  · have hawaiting : ∀ revision replica, replica ∈ m.state.progress.awaiting replicas revision ↔
        replica ∈ replicas ∧ ¬ Reported m.events replica revision := by
      intro revision replica
      rw [ReplicaProgress.awaiting, Finset.mem_filter, ← hsound.progress, Bool.not_eq_true]
    cases hannounced : m.state.announcement with
    | idle => exact (hsound.idle hannounced id hlive).elim
    | retired => simp [Announcer.next, hannounced]
    | offering revision =>
      obtain ⟨owner, -, hunique, hgreatest⟩ := hsound.offering revision hannounced
      rw [← hunique id hlive] at hgreatest
      by_cases hlagging : m.state.progress.awaiting replicas revision = ∅
      · simp only [Announcer.next, hannounced, hlagging, if_true]
        refine fun _ => ⟨revision, hgreatest, fun replica hreplica => ?_⟩
        by_contra hnot
        exact Finset.eq_empty_iff_forall_notMem.mp hlagging replica
          ((hawaiting revision replica).mpr ⟨hreplica, hnot⟩)
      · simp only [Announcer.next, hannounced, hlagging, if_false]
        exact ⟨hgreatest, hawaiting revision⟩
  · have hholds := ReplicaProgress.holds_iff.mpr ⟨held, hheld, le_rfl⟩
    have hreported := ((hsound.progress replica held).mp hholds).mono hrun
    exact ReplicaProgress.holds_iff.mp
      (((Moment.Sound.of_run (h.trans hrun)).progress replica held).mpr hreported)

def offeredTwice : Moment Nat :=
  [.offer 3, .record 1 3, .record 1 2, .offer 5].foldl Moment.act .start

theorem run_offeredTwice : (replication Nat).Run .start offeredTwice :=
  .foldl (S := replication Nat) [.offer 3, .record 1 3, .record 1 2, .offer 5]
    (by simp [replication]) .start

theorem offeredTwice_not_lost : (∃! id, offeredTwice.Live id) ∧
    ((⟨false⟩ : Announcer).next offeredTwice.state {1}).2.2 = .offer 5 {1} ∧
    ¬ Reported offeredTwice.events 1 5 := by
  obtain ⟨hlive, -, hnext, -⟩ := no_offer_lost run_offeredTwice
  have hstep : ((⟨false⟩ : Announcer).next offeredTwice.state {1}).2.2 = .offer 5 {1} := by decide
  have hlagging := hnext 0 rfl {1}
  exact ⟨(hlive (by decide)).mp ⟨5, by decide⟩, hstep, ((hlagging.2 1).mp (by decide)).2⟩

end Nervix.CheckpointReplication
