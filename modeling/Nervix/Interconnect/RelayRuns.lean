import Nervix.Interconnect.RelayAdmissions

/-!
# A relay position is admitted at most once

Any interleaving of the owner's operations and of decisions on its records, from a freshly bound
owner on.
-/

namespace Nervix.Interconnect

open RelayPeerOwner
open RelayAdmissionRecord (Follows)
open List

structure RelayPeerCapacity where
  attempts : Nat
  watermarks : Nat

structure Moment where
  owner : RelayPeerOwner
  history : List Position
  answers : List (RelayAttemptKey × Verdict)
  acknowledged : List RecordId

inductive OwnerEvent
  | retiredStatus (attempt : RelayAttemptKey) (now : Nat)
  | grantPosition (attempt : RelayAttemptKey) (now : Nat)
  | register (attempt : RelayAttemptKey) (admissionKey : RelayAdmissionKey)
      (grantId expiresAt now : Nat)
  | claimGrant (grantId senderEpoch receiverEpoch now : Nat)
  | expireGrant (grantId now : Nat)
  | control (attempt : RelayAttemptKey) (cancel : Bool) (now : Nat)
  | completedAdmission (key : RelayAdmissionKey) (outcome : RemoteAckOutcome) (now : Nat)
  | retire (record : RecordId) (now : Nat)
  | sweep (now : Nat) (expired : List RecordId)
  | status (record : RecordId)
  | markBodyReceived (record : RecordId)
  | admitRecord (record : RecordId)
  | reject (record : RecordId) (reason : String)
  | cancel (record : RecordId)

namespace Moment

section
variable (m : Moment) (attempt : RelayAttemptKey)

def bound (capacity : RelayPeerCapacity) (epoch bindingSequence createdAt : Nat) : Moment where
  owner :=
    { capacity := capacity.attempts
      createdAt := createdAt
      run := .bound epoch bindingSequence
      grants := ∅
      attempts := ∅
      activeChannels := ∅
      admissions := ∅
      watermarks := .new capacity.watermarks
      evicted := 0
      records := fun _ => .new ⟨⟨"", 0, 0, 0⟩, 0⟩ ⟨"", ""⟩ 0 0
      allocated := 0 }
  history := []
  answers := []
  acknowledged := []

def tell (k : RelayAttemptKey) (verdict : Option Verdict) : List (RelayAttemptKey × Verdict) :=
  m.answers ++ (verdict.map fun v => (k, v)).toList

def move (owner : RelayPeerOwner) : Moment := { m with owner := owner }

def decide (r : RecordId) (f : RelayAdmissionRecord → RelayAdmissionRecord) : Moment :=
  m.move (m.owner.setRecord r (f (m.owner.records r)))

def register (admissionKey : RelayAdmissionKey) (grantId expiresAt now : Nat) : Moment :=
  let r := m.owner.allocated
  let (owner, answer) :=
    (m.owner.allocate (.new attempt admissionKey grantId now)).register grantId expiresAt r now
  { owner := owner
    history := granted m.history attempt r answer
    answers := m.tell attempt (RelayGrantRegistration.verdict answer)
    acknowledged := m.acknowledged }

def control (cancel : Bool) (now : Nat) : Moment :=
  let (owner, answer) := m.owner.control attempt cancel now
  { owner := owner
    history := if m.owner.cancels attempt now answer then m.history ++ [⟨attempt, none⟩]
      else m.history
    answers := m.tell attempt answer.1.verdict
    acknowledged := m.acknowledged }

def completedAdmission (key : RelayAdmissionKey) (outcome : RemoteAckOutcome)
    (now : Nat) : Moment :=
  { m with
    owner := (m.owner.completedAdmission key outcome now).1
    acknowledged := match outcome with
      | .ack => m.acknowledged ++ (m.owner.admissions.lookup key).toList
      | .noAck _ | .alive | .progress => m.acknowledged }

def retiredStatus (now : Nat) : Moment :=
  { m with
    owner := (m.owner.retiredStatus attempt now).1
    answers := m.tell attempt ((m.owner.retiredStatus attempt now).2.bind (·.verdict)) }

def status (r : RecordId) : Moment :=
  { m with
    answers := m.tell (m.owner.records r).attempt (m.owner.records r).status.verdict }

end

end Moment

def relayOwner : System Moment OwnerEvent where
  guard m
    | .retire r _ => (m.owner.records r).status.isTerminal = true
    | .sweep now expired => expired.Nodup ∧
        ∀ r, r ∈ expired ↔ (m.owner.sweepWatermarks now).Expired now r
    | .status r => ∃ k, ⟨k, some r⟩ ∈ m.history
    | .admitRecord r => (m.owner.records r).phase = .bodyReceived
    | _ => True
  next m
    | .retiredStatus attempt now => m.retiredStatus attempt now
    | .grantPosition attempt now => m.move (m.owner.grantPosition attempt now).1
    | .register attempt admissionKey grantId expiresAt now =>
      m.register attempt admissionKey grantId expiresAt now
    | .claimGrant grantId senderEpoch receiverEpoch now =>
      m.move (m.owner.claimGrant grantId senderEpoch receiverEpoch now).1
    | .expireGrant grantId now => m.move (m.owner.expireGrant grantId now)
    | .control attempt cancel now => m.control attempt cancel now
    | .completedAdmission key outcome now => m.completedAdmission key outcome now
    | .retire r now => m.move (m.owner.retire r (m.owner.records r).status now)
    | .sweep now expired => m.move (m.owner.sweep now expired)
    | .status r => m.status r
    | .markBodyReceived r => m.decide r (·.markBodyReceived)
    | .admitRecord r => m.decide r (·.markAdmitted)
    | .reject r reason => m.decide r (·.reject reason)
    | .cancel r => m.decide r (·.cancel)

namespace Moment

variable {m m' : Moment} {epoch : Nat}

structure Sound (epoch : Nat) (m : Moment) : Prop where
  owner : m.owner.Sound epoch m.history m.acknowledged
  answers : ∀ a ∈ m.answers, Answered epoch m.history m.owner.records a.1 a.2

structure Keeps (m m' : Moment) : Prop where
  history : ∀ p ∈ m.history, p ∈ m'.history
  verdict : ∀ p ∈ m.history, ∀ v, p.verdict m.owner.records = some v →
    p.verdict m'.owner.records = some v

theorem Keeps.refl (m : Moment) : Keeps m m := ⟨fun _ h => h, fun _ _ _ h => h⟩

theorem Keeps.trans (h : Keeps m m') (h' : Keeps m' m'') : Keeps m m'' :=
  ⟨fun p hp => h'.history p (h.history p hp),
    fun p hp v hv => h'.verdict p (h.history p hp) v (h.verdict p hp v hv)⟩

theorem mem_tell (h : a ∈ m.tell k verdict) : a ∈ m.answers ∨ a.1 = k ∧ verdict = some a.2 := by
  rcases mem_append.mp h with h | h
  · exact .inl h
  · cases verdict with
    | none => exact absurd h not_mem_nil
    | some v =>
      obtain rfl := mem_singleton.mp h
      exact .inr ⟨rfl, rfl⟩

theorem Sound.step (h : m.Sound epoch) (hk : Keeps m m')
    (hs : m'.owner.Sound epoch m'.history m'.acknowledged) (ha : m'.answers = m.tell k verdict)
    (hv : ∀ v, verdict = some v → Answered epoch m'.history m'.owner.records k v) :
    m'.Sound epoch ∧ Keeps m m' := by
  refine ⟨⟨hs, fun a hm => ?_⟩, hk⟩
  rw [ha] at hm
  rcases mem_tell hm with hm | ⟨rfl, hva⟩
  · exact (h.answers a hm).mono hk.history hk.verdict
  · exact hv a.2 hva

theorem tell_none (m : Moment) (k : RelayAttemptKey) : m.tell k none = m.answers :=
  append_nil _

section
variable (h : m.Sound epoch)
include h

theorem Sound.moves {owner : RelayPeerOwner}
    (hm : Moves epoch m.history m.acknowledged m.owner owner) :
    (m.move owner).Sound epoch ∧ Keeps m (m.move owner) :=
  h.step ⟨fun _ hp => hp, fun p _ => verdict_of_follows hm.records p⟩ hm.sound
    (m.tell_none ⟨⟨"", 0, 0, 0⟩, 0⟩).symm fun _ hv => nomatch hv

theorem Sound.decide (hf : Follows (m.owner.records r) (f (m.owner.records r)))
    (ha : (f (m.owner.records r)).choice = .admitted →
      (f (m.owner.records r)).phase = .bodyReceived ∨ r ∈ m.acknowledged) :
    (m.decide r f).Sound epoch ∧ Keeps m (m.decide r f) :=
  h.moves (h.owner.moves_setRecord hf ha)

theorem Sound.register (attempt : RelayAttemptKey)
    (admissionKey : RelayAdmissionKey) (grantId expiresAt now : Nat) :
    (m.register attempt admissionKey grantId expiresAt now).Sound epoch ∧
      Keeps m (m.register attempt admissionKey grantId expiresAt now) := by
  have hrecord : (m.owner.allocate (.new attempt admissionKey grantId now)).records
      m.owner.allocated = .new attempt admissionKey grantId now := Function.update_self ..
  have hreg := (h.owner.allocate (.new attempt admissionKey grantId now) rfl).registers
    (r := m.owner.allocated) (Nat.lt_succ_self _) grantId expiresAt now
  have hold : ∀ p ∈ m.history, ∀ v, p.verdict m.owner.records = some v → p.verdict
      (m.owner.allocate (.new attempt admissionKey grantId now)).records = some v := by
    intro p hp v hv
    obtain ⟨k, _ | r⟩ := p
    · exact hv
    · unfold Position.verdict at hv ⊢
      dsimp only [allocate, setRecord] at hv ⊢
      rwa [Function.update_of_ne (h.owner.registered k r hp).1.ne]
  have hsub : ∀ answer, ∀ p ∈ m.history, p ∈ granted m.history attempt m.owner.allocated answer := by
    intro answer p hp
    cases answer <;> first | exact hp | exact mem_append_left _ hp
  refine h.step ⟨hsub _, fun p hp v hv => ?_⟩ ?_ rfl fun v hv => ?_
  · exact verdict_of_follows hreg.records p v (hold p hp v hv)
  · have hsound := hreg.sound
    rw [hrecord] at hsound
    exact hsound
  · have hanswered := hreg.verdict v hv
    rw [hrecord] at hanswered
    exact hanswered.mono (hsub _) fun _ _ _ hv => hv

theorem Sound.completedAdmission (key : RelayAdmissionKey)
    (outcome : RemoteAckOutcome) (now : Nat) :
    (m.completedAdmission key outcome now).Sound epoch ∧
      Keeps m (m.completedAdmission key outcome now) := by
  have hmono : m.owner.Sound epoch m.history (m.completedAdmission key outcome now).acknowledged :=
    { h.owner with
      admitted := fun r hc => (h.owner.admitted r hc).imp_right fun hr => by
        cases outcome with
        | ack => exact mem_append_left _ hr
        | noAck reason => exact hr
        | alive => exact hr
        | progress => exact hr }
  have hmoves := hmono.moves_completedAdmission key outcome now fun r hr ho => by
    subst ho
    refine mem_append_right _ ?_
    rw [hr]
    exact mem_singleton_self r
  exact h.step ⟨fun _ hp => hp, fun p _ => verdict_of_follows hmoves.records p⟩ hmoves.sound
    (m.tell_none ⟨⟨"", 0, 0, 0⟩, 0⟩).symm fun _ hv => nomatch hv

theorem Sound.retiredStatus (attempt : RelayAttemptKey) (now : Nat) :
    (m.retiredStatus attempt now).Sound epoch ∧ Keeps m (m.retiredStatus attempt now) := by
  have hm := h.owner.moves_retiredStatus attempt now
  refine h.step ⟨fun _ hp => hp, fun p _ => verdict_of_follows hm.records p⟩ hm.sound rfl ?_
  intro v hv
  obtain ⟨status, hs, hv⟩ := Option.bind_eq_some_iff.mp hv
  exact (h.owner.answered (h.owner.verdict_retiredStatus hs hv)).mono (fun _ hp => hp)
    fun p _ => verdict_of_follows hm.records p

theorem Sound.status (hr : ∃ k, ⟨k, some r⟩ ∈ m.history) :
    (m.status r).Sound epoch ∧ Keeps m (m.status r) := by
  obtain ⟨k, hk⟩ := hr
  refine h.step ⟨fun _ hp => hp, fun _ _ _ hv => hv⟩ h.owner rfl fun v hv => h.owner.answered ⟨_, hk, ?_, hv⟩
  exact (h.owner.registered k r hk).2.symm

theorem Sound.next (hg : relayOwner.guard m e) :
    (relayOwner.next m e).Sound epoch ∧ Keeps m (relayOwner.next m e) := by
  cases e with
  | retiredStatus attempt now => exact h.retiredStatus attempt now
  | grantPosition attempt now => exact h.moves (h.owner.moves_grantPosition attempt now)
  | register attempt admissionKey grantId expiresAt now =>
    exact h.register attempt admissionKey grantId expiresAt now
  | claimGrant grantId senderEpoch receiverEpoch now =>
    refine h.moves ?_
    unfold claimGrant
    split
    · exact .refl h.owner
    · split
      · exact .refl h.owner
      · dsimp only
        split
        · exact .refl h.owner
        · exact (Moves.refl h.owner).congr rfl rfl rfl rfl rfl
  | expireGrant grantId now => exact h.moves (h.owner.moves_expireGrant grantId now)
  | control attempt cancel now =>
    have hc := h.owner.controls attempt cancel now
    refine h.step ⟨fun p hp => ?_, fun p _ => verdict_of_follows hc.records p⟩ hc.sound rfl hc.verdict
    dsimp only [relayOwner, Moment.control]
    split
    · exact mem_append_left _ hp
    · exact hp
  | completedAdmission key outcome now => exact h.completedAdmission key outcome now
  | retire r now =>
    obtain ⟨v, hv⟩ : ∃ v, (m.owner.records r).status.verdict = some v := by
      have hterminal : (m.owner.records r).status.isTerminal = true := hg
      refine RelayAdmissionRecord.exists_verdict fun hc => ?_
      cases hp : (m.owner.records r).phase <;>
        simp [RelayAdmissionRecord.status, hc, hp, RelayAdmissionStatus.isTerminal] at hterminal
    exact h.moves (h.owner.moves_retire hv now)
  | sweep now expired => exact h.moves (h.owner.moves_sweep now expired)
  | status r => exact h.status hg
  | markBodyReceived r =>
    refine h.decide .markBodyReceived fun hc => ?_
    unfold RelayAdmissionRecord.markBodyReceived at hc ⊢
    split at hc
    case h_1 hp _ => cases hp.symm.trans hc
    case h_2 => exact h.owner.admitted r hc
  | admitRecord r =>
    refine h.decide .markAdmitted fun _ => .inl ?_
    unfold RelayAdmissionRecord.markAdmitted
    split <;> exact hg
  | reject r reason =>
    refine h.decide (f := fun record => record.reject reason) .reject fun hc => ?_
    have heq := RelayAdmissionRecord.reject_eq_self hc
    rw [heq] at hc ⊢
    exact h.owner.admitted r hc
  | cancel r => exact h.moves (h.owner.moves_cancelRecord r)

end

theorem sound_bound (capacity : RelayPeerCapacity) (epoch bindingSequence createdAt : Nat) :
    (bound capacity epoch bindingSequence createdAt).Sound epoch where
  owner :=
    { run := ⟨bindingSequence, rfl⟩
      accounts := .new capacity.watermarks
      registered := fun _ _ h => absurd h not_mem_nil
      epochs := fun _ h => absurd h not_mem_nil
      admitted := fun _ h => nomatch h }
  answers := fun _ h => absurd h not_mem_nil

structure Lawful (m : Moment) : Prop where
  once : (m.history.map (·.key)).Nodup
  ordered : ∀ channel, positions m.history channel = List.range (positions m.history channel).length
  preceded : ∀ p ∈ m.history, ∀ q ∈ m.history,
    q.key = ⟨p.key.channel, p.key.sequence + 1⟩ → ∃ v, p.verdict m.owner.records = some v
  single : ∀ k k' r r', m.owner.attempts.lookup k = some r →
    m.owner.attempts.lookup k' = some r' → k.channel = k'.channel → k = k'
  agreed : ∀ k v v', (k, v) ∈ m.answers → (k, v') ∈ m.answers → v = v'
  admitted : ∀ k, (k, .admitted) ∈ m.answers → ∃ r, ⟨k, some r⟩ ∈ m.history ∧
    (m.owner.records r).choice = .admitted ∧
    ((m.owner.records r).phase = .bodyReceived ∨ r ∈ m.acknowledged)

theorem nodup_keys {history : List Position}
    (h : ∀ channel, (positions history channel).Nodup) : (history.map (·.key)).Nodup := by
  induction history with
  | nil => exact nodup_nil
  | cons p history ih =>
    have hsub : ∀ channel, (positions history channel).Sublist (positions (p :: history) channel) :=
      fun channel => ((sublist_cons_self p history).filter _).map _
    refine nodup_cons.mpr ⟨fun hm => ?_, ih fun channel => (h channel).sublist (hsub channel)⟩
    obtain ⟨q, hq, hk⟩ := mem_map.mp hm
    have hp := h p.key.channel
    rw [positions, filter_cons_of_pos (by simp), map_cons, nodup_cons] at hp
    exact hp.1 (mem_positions.mpr ⟨q, hq, hk⟩)

theorem Sound.lawful (h : m.Sound epoch) : m.Lawful where
  once := nodup_keys fun channel => by
    rw [h.owner.accounts.ordered]
    exact nodup_range
  ordered := h.owner.accounts.ordered
  preceded p hp q hq hkey := by
    refine h.owner.accounts.decided p hp ?_
    cases hr : m.owner.attempts.lookup p.key with
    | none => rfl
    | some r =>
      -- a held attempt is the last position of its channel
      have hlast := (h.owner.accounts.held p.key r hr).2
      have hlt := mem_positions.mpr ⟨q, hq, hkey⟩
      rw [h.owner.accounts.ordered, mem_range] at hlt
      omega
  single k k' r r' hr hr' hc := by
    have hk := (h.owner.accounts.held k r hr).2
    have hk' := (h.owner.accounts.held k' r' hr').2
    cases k
    cases k'
    dsimp only at hc hk hk'
    subst hc
    congr
    omega
  agreed k v v' hv hv' := by
    rcases h.answers _ hv with ⟨he, p, hp, rfl, hpv⟩ | ⟨hne, rfl⟩
    · rcases h.answers _ hv' with ⟨-, q, hq, hk, hqv⟩ | ⟨hne, -⟩
      · obtain rfl := h.owner.accounts.position_eq hq hp hk
        exact Option.some.inj (hpv.symm.trans hqv)
      · exact absurd he hne
    · rcases h.answers _ hv' with ⟨he, -⟩ | ⟨-, rfl⟩
      · exact absurd he hne
      · rfl
  admitted k hk := by
    rcases h.answers _ hk with ⟨-, p, hp, rfl, hv⟩ | ⟨-, hv⟩
    · obtain ⟨key, _ | r⟩ := p
      · cases hv
      · refine ⟨r, hp, ?_⟩
        have hchoice : (m.owner.records r).choice = .admitted := by
          have hstatus := RelayAdmissionStatus.verdict_eq_some.mp hv
          unfold RelayAdmissionRecord.status at hstatus
          cases hc : (m.owner.records r).choice with
          | admitted => rfl
          | pending =>
            rw [hc] at hstatus
            cases hp : (m.owner.records r).phase <;> simp [hp, Verdict.status] at hstatus
          | cancelled =>
            rw [hc] at hstatus
            cases hp : (m.owner.records r).rejection <;> simp [hp, Verdict.status] at hstatus
        exact ⟨hchoice, h.owner.admitted r hchoice⟩
    · cases hv

/-- **A relay position is admitted at most once and its outcome never changes.** -/
theorem lawful_of_relayOwner {capacity : RelayPeerCapacity} {epoch bindingSequence createdAt : Nat}
    (h : relayOwner.Run (bound capacity epoch bindingSequence createdAt) m)
    (h' : relayOwner.Run m m') : m'.Lawful ∧ Keeps m m' := by
  have hm : m.Sound epoch := h.inv (P := Sound epoch)
    (sound_bound capacity epoch bindingSequence createdAt) fun h hg => (h.next hg).1
  have hm' : m'.Sound epoch ∧ Keeps m m' := h'.inv (P := fun m' => m'.Sound epoch ∧ Keeps m m')
    ⟨hm, .refl m⟩ fun h hg => ⟨(h.1.next hg).1, h.2.trans (h.1.next hg).2⟩
  exact ⟨hm'.1.lawful, hm'.2⟩

def onChannel (sequence : Nat) : RelayAttemptKey := ⟨⟨"peer", 7, 1, 3⟩, sequence⟩

def firstAdmitted : Moment :=
  [.register (onChannel 0) ⟨"peer", "first"⟩ 11 100 0, .markBodyReceived 0, .admitRecord 0,
    .control (onChannel 0) true 1].foldl relayOwner.next (bound ⟨1, 2⟩ 7 0 0)

def secondGranted : Moment :=
  [.grantPosition (onChannel 1) 2, .register (onChannel 1) ⟨"peer", "second"⟩ 12 100 3,
    .register (onChannel 0) ⟨"peer", "third"⟩ 13 100 4].foldl relayOwner.next firstAdmitted

theorem secondGranted_lawful :
    (secondGranted.Lawful ∧ Keeps firstAdmitted secondGranted) ∧
      secondGranted.history.map (·.key) = [onChannel 0, onChannel 1] ∧
      secondGranted.answers = [(onChannel 0, .admitted), (onChannel 0, .admitted)] := by
  have hfirst : relayOwner.Run (bound ⟨1, 2⟩ 7 0 0) firstAdmitted :=
    .of_allows ⟨trivial, trivial, rfl, trivial, trivial⟩
  have hsecond : relayOwner.Run firstAdmitted secondGranted :=
    .of_allows ⟨trivial, trivial, trivial, trivial⟩
  exact ⟨lawful_of_relayOwner hfirst hsecond, rfl, rfl⟩

end Moment

end Nervix.Interconnect
