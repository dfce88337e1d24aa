import Nervix.Interconnect.RelayWatermarks

/-!
# The relay owner of a peer

The owner serializes the relay protocol of one authenticated peer: it grants positions of channels,
answers what became of them, and retires each attempt into its channel's watermark.
-/

namespace Nervix.Interconnect

structure RelayAdmissionKey where
  peerNodeId : String
  registration : String
deriving DecidableEq

inductive ChosenAdmission
  | pending
  | admitted
  | cancelled
deriving DecidableEq

inductive RelayBodyPhase
  | reserved (grantId : Nat)
  | bodyReceived
deriving DecidableEq

structure RelayAdmissionRecord where
  attempt : RelayAttemptKey
  admissionKey : RelayAdmissionKey
  choice : ChosenAdmission
  phase : RelayBodyPhase
  rejection : Option String
  capacity : Bool
  lastProgress : Nat

namespace RelayAdmissionRecord

def new (attempt : RelayAttemptKey) (admissionKey : RelayAdmissionKey) (grantId now : Nat) :
    RelayAdmissionRecord :=
  ⟨attempt, admissionKey, .pending, .reserved grantId, none, true, now⟩

variable (record : RelayAdmissionRecord)

def releaseCapacity : RelayAdmissionRecord := { record with capacity := false }

def reportProgress (now : Nat) : RelayAdmissionRecord := { record with lastProgress := now }

def isUnadmitted : Bool := record.choice = .pending

def reservedGrantId : Option Nat :=
  match record.choice, record.phase with
  | .pending, .reserved grantId => some grantId
  | _, _ => none

def status : RelayAdmissionStatus :=
  match record.choice with
  | .pending =>
    match record.phase with
    | .reserved _ => .reserved
    | .bodyReceived => .bodyReceived
  | .admitted => .admitted
  | .cancelled =>
    match record.rejection with
    | some reason => .rejected reason
    | none => .cancelled

def markBodyReceived : RelayAdmissionRecord :=
  match record.choice, record.phase with
  | .pending, .reserved _ => { record with phase := .bodyReceived }
  | _, _ => record

def markAdmitted : RelayAdmissionRecord :=
  if record.choice = .pending then { record with choice := .admitted } else record

def reject (reason : String) : RelayAdmissionRecord :=
  if record.choice = .pending then
    { record with choice := .cancelled, rejection := some reason }
  else record

def cancel : RelayAdmissionRecord :=
  if record.choice = .pending then { record with choice := .cancelled } else record

end RelayAdmissionRecord

abbrev RecordId := Nat

structure RelayGrant where
  expiresAt : Nat
  admission : RecordId

inductive RelayPeerRun
  | starting
  | awaitingMembership (epoch bindingSequence : Nat)
  | bound (epoch bindingSequence : Nat)
  | ended

inductive RelayGrantPosition
  | next
  | busy
  | outOfOrder
deriving DecidableEq

inductive RelayGrantDisposition
  | sendBody (grantId : Nat)
  | bodyReceived
  | admitted
  | rejected (reason : String)
  | cancelled
  | retired
deriving DecidableEq

def RelayGrantDisposition.ofStatus : RelayAdmissionStatus → RelayGrantDisposition
  | .admitted => admitted
  | .rejected reason => rejected reason
  | .cancelled => cancelled
  | .reserved | .bodyReceived | .retired | .unknown | .indeterminate => retired

inductive RelayGrantRegistration
  | registered
  | existing (record : RecordId)
  | retired (disposition : RelayGrantDisposition)
  | invalidSequence
  | channelBusy
  | admissionBusy
deriving DecidableEq

inductive RemoteAckOutcome
  | ack
  | noAck (reason : String)
  | alive
  | progress

structure RelayPeerOwner where
  capacity : Nat
  createdAt : Nat
  run : RelayPeerRun
  grants : Records Nat RelayGrant
  attempts : Records RelayAttemptKey RecordId
  activeChannels : Records RelayChannelKey Nat
  admissions : Records RelayAdmissionKey RecordId
  watermarks : RelayChannelWatermarks
  evicted : Nat
  records : RecordId → RelayAdmissionRecord
  allocated : RecordId

namespace RelayPeerOwner

variable (s : RelayPeerOwner)

section
variable (attempt : RelayAttemptKey) (now : Nat) (r : RecordId)

def acceptsEpoch (epoch : Nat) : Bool :=
  match s.run with
  | .bound current _ => current = epoch
  | .starting | .awaitingMembership _ _ | .ended => false

def setRecord (record : RelayAdmissionRecord) : RelayPeerOwner :=
  { s with records := Function.update s.records r record }

def allocate (record : RelayAdmissionRecord) : RelayPeerOwner :=
  { s.setRecord s.allocated record with allocated := s.allocated + 1 }

def holdsAttempt (channel : RelayChannelKey) : Bool :=
  decide (∃ k ∈ s.attempts.keys, k.channel = channel)

def forgotten (channel : RelayChannelKey) : Bool :=
  s.watermarks.isForgotten channel && !s.holdsAttempt channel

def retiredStatus : RelayPeerOwner × Option RelayAdmissionStatus :=
  match s.watermarks.consult attempt.channel now with
  | (watermarks, none) =>
    ({ s with watermarks := watermarks },
      if s.forgotten attempt.channel then some .retired else none)
  | (watermarks, some watermark) =>
    ({ s with watermarks := watermarks },
      if attempt.sequence < watermark.sequence then some .retired
      else if attempt.sequence = watermark.sequence then some watermark.status
      else none)

def canFollow : Bool :=
  match s.watermarks.get attempt.channel with
  | none => attempt.sequence = 0 && !s.forgotten attempt.channel
  | some watermark =>
    watermark.sequence + 1 < 2 ^ 64 && watermark.sequence + 1 = attempt.sequence

def channelBusy : RelayPeerOwner × Bool :=
  match s.activeChannels.lookup attempt.channel with
  | none => (s, false)
  | some sequence =>
    let idle := { s with activeChannels := s.activeChannels.erase attempt.channel }
    match s.attempts.lookup ⟨attempt.channel, sequence⟩ with
    | some r => if (s.records r).isUnadmitted then (s, true) else (idle, false)
    | none => (idle, false)

def recordWatermark (status : RelayAdmissionStatus) (now : Nat) : RelayPeerOwner :=
  let (watermarks, forgot) := s.watermarks.record attempt status s.holdsAttempt now
  { s with watermarks := watermarks, evicted := s.evicted + if forgot then 1 else 0 }

def retire (status : RelayAdmissionStatus) (now : Nat) : RelayPeerOwner :=
  let record := s.records r
  if s.attempts.lookup record.attempt = some r then
    let s' := s.recordWatermark record.attempt status now
    { s' with
      attempts := s.attempts.erase record.attempt
      activeChannels :=
        if s.activeChannels.lookup record.attempt.channel = some record.attempt.sequence then
          s.activeChannels.erase record.attempt.channel
        else s.activeChannels
      admissions :=
        if s.admissions.lookup record.admissionKey = some r then
          s.admissions.erase record.admissionKey
        else s.admissions
      records := Function.update s.records r record.releaseCapacity }
  else s

def retireResolvedPredecessor : RelayPeerOwner :=
  match attempt.sequence with
  | 0 => s
  | sequence + 1 =>
    match s.attempts.lookup ⟨attempt.channel, sequence⟩ with
    | none => s
    | some r =>
      if (s.records r).isUnadmitted then s else s.retire r (s.records r).status now

def grantPosition : RelayPeerOwner × RelayGrantPosition :=
  let (s, busy) := s.channelBusy attempt
  if busy then (s, .busy)
  else
    let s := s.retireResolvedPredecessor attempt now
    (s, if s.canFollow attempt then .next else .outOfOrder)

def enterGrant (grantId expiresAt : Nat) (r : RecordId) : RelayPeerOwner :=
  let record := s.records r
  { s with
    activeChannels := s.activeChannels.insert record.attempt.channel record.attempt.sequence
    admissions := s.admissions.insert record.admissionKey r
    attempts := s.attempts.insert record.attempt r
    grants := s.grants.insert grantId ⟨expiresAt, r⟩ }

def register (grantId expiresAt : Nat) (r : RecordId) (now : Nat) :
    RelayPeerOwner × RelayGrantRegistration :=
  let record := s.records r
  if !s.acceptsEpoch record.attempt.channel.senderEpoch then
    (s.setRecord r record.cancel, .retired .cancelled)
  else
    match s.attempts.lookup record.attempt with
    | some existing => (s, .existing existing)
    | none =>
      match s.retiredStatus record.attempt now with
      | (s, some status) => (s, .retired (.ofStatus status))
      | (s, none) =>
        let s := s.retireResolvedPredecessor record.attempt now
        if !s.canFollow record.attempt then (s, .invalidSequence)
        else if s.activeChannels.lookup record.attempt.channel ≠ none then (s, .channelBusy)
        else if s.admissions.lookup record.admissionKey ≠ none then (s, .admissionBusy)
        else if s.grants.lookup grantId ≠ none ∨ s.capacity ≤ s.attempts.keys.card then
          (s, .channelBusy)
        else (s.enterGrant grantId expiresAt r, .registered)

def claimGrant (grantId senderEpoch receiverEpoch now : Nat) : RelayPeerOwner × Option RelayGrant :=
  if !s.acceptsEpoch senderEpoch then (s, none)
  else
    match s.grants.lookup grantId with
    | none => (s, none)
    | some grant =>
      let channel := (s.records grant.admission).attempt.channel
      if channel.senderEpoch ≠ senderEpoch ∨ channel.receiverEpoch ≠ receiverEpoch ∨
          grant.expiresAt ≤ now then (s, none)
      else ({ s with grants := s.grants.erase grantId }, some grant)

def cancelRecord : RelayPeerOwner := s.setRecord r (s.records r).cancel

def expireGrant (grantId now : Nat) : RelayPeerOwner :=
  match s.grants.lookup grantId with
  | none => s
  | some grant =>
    if now < grant.expiresAt then s
    else
      let s := { s.cancelRecord grant.admission with grants := s.grants.erase grantId }
      s.retire grant.admission (s.records grant.admission).status now

def control (cancel : Bool) (now : Nat) : RelayPeerOwner × RelayAdmissionStatus × Option RecordId :=
  if !s.acceptsEpoch attempt.channel.senderEpoch then (s, .indeterminate, none)
  else
    match s.attempts.lookup attempt with
    | some r =>
      if cancel then
        let s' := s.cancelRecord r
        let grants :=
          match (s.records r).reservedGrantId with
          | some grantId => s.grants.erase grantId
          | none => s.grants
        ({ s' with grants := grants }, (s'.records r).status, some r)
      else (s, (s.records r).status, some r)
    | none =>
      match s.retiredStatus attempt now with
      | (s, some status) => (s, status, none)
      | (s, none) =>
        if !cancel then (s, .unknown, none)
        else
          let s := s.retireResolvedPredecessor attempt now
          if s.activeChannels.lookup attempt.channel = none ∧ s.canFollow attempt then
            (s.recordWatermark attempt .cancelled now, .cancelled, none)
          else (s, .unknown, none)

def completedAdmission (key : RelayAdmissionKey) (outcome : RemoteAckOutcome) (now : Nat) :
    RelayPeerOwner × Option RecordId :=
  match s.admissions.lookup key with
  | none => (s, none)
  | some r =>
    let record := (s.records r).reportProgress now
    match outcome with
    | .noAck reason => (s.setRecord r (record.reject reason), some r)
    | .ack => (s.setRecord r record.markAdmitted, some r)
    | .alive | .progress => (s.setRecord r record, none)

def endInbound : RelayPeerOwner :=
  { s with
    records := fun r =>
      if ∃ k ∈ s.attempts.keys, s.attempts.lookup k = some r then
        (s.records r).cancel.releaseCapacity
      else s.records r
    grants := ∅
    attempts := ∅
    activeChannels := ∅
    admissions := ∅
    watermarks := { RelayChannelWatermarks.new s.watermarks.capacity with
      nextPosition := s.watermarks.nextPosition
      below := by simp [RelayChannelWatermarks.new] } }

def Expired : Prop :=
  s.attempts.lookup (s.records r).attempt = some r ∧
    relayChannelRetention ≤ now - (s.records r).lastProgress

def sweepWatermarks : RelayPeerOwner :=
  let s :=
    match s.run with
    | .awaitingMembership _ _ =>
      if relayChannelRetention ≤ now - s.createdAt then { s.endInbound with run := .ended } else s
    | .starting | .bound _ _ | .ended => s
  { s with watermarks := s.watermarks.expire now s.holdsAttempt }

def expireAttempt (now : Nat) : RelayPeerOwner :=
  let s := s.cancelRecord r
  s.retire r (s.records r).status now

def sweep (expired : List RecordId) : RelayPeerOwner :=
  expired.foldl (fun s r => s.expireAttempt r now) (s.sweepWatermarks now)

end

end RelayPeerOwner

end Nervix.Interconnect
