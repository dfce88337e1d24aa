import Nervix.Runtime.Ack.Root

/-!
# Forwarded records

A `PendingRemoteAck` holds the acknowledgements of one record that another node resolves. What the
registry does to it under its slot's guard is a function of the record here, with the calls it makes
on the record's acknowledgements beside it.
-/

namespace Nervix.RemoteAck

open Nervix.Ack (AckOutcome)

def REMOTE_RELAY_TOTAL_TIMEOUT : Nat := 300
def REMOTE_ACK_SILENCE_TIMEOUT : Nat := 15
def REMOTE_ACK_SILENCE_SWEEP_INTERVAL : Nat := 1
def REMOTE_ACK_SILENT_SWEEPS : Nat := REMOTE_ACK_SILENCE_TIMEOUT / REMOTE_ACK_SILENCE_SWEEP_INTERVAL
def ADMISSION_SWEEPS : Nat := REMOTE_RELAY_TOTAL_TIMEOUT / REMOTE_ACK_SILENCE_SWEEP_INTERVAL

inductive AckCall
  | alive
  | park
  | dropGuard
  | ackSuccess
  | noAck (reason : String)
  deriving DecidableEq, Repr

inductive RemoteAckPhase
  | awaitingAdmission (sweeps : Nat)
  | admitted (silentSweeps : Nat)
  deriving DecidableEq, Repr

structure PendingRemoteAck (α : Type) where
  receiver : String
  acks : α
  phase : RemoteAckPhase := .awaitingAdmission 0
  requiredWait : Bool := false
  progressSequence : Option Nat := none
  deriving DecidableEq, Repr

inductive Event
  | report (progress : Option (Nat × Bool))
  | admits
  | sweep
  deriving DecidableEq, Repr

inductive Ending
  | resolve (outcome : AckOutcome)
  | clear
  | expire
  | shutdown
  deriving DecidableEq, Repr

namespace PendingRemoteAck

variable {α : Type} (r : PendingRemoteAck α)

def new (receiver : String) (acks : α) : PendingRemoteAck α where
  receiver
  acks

def report : PendingRemoteAck α × List AckCall :=
  match r.phase with
  | .awaitingAdmission _ => (r, [.alive])
  | .admitted _ => ({ r with phase := .admitted 0 }, [.alive])

def progress (sequence : Nat) (parked : Bool) : PendingRemoteAck α × List AckCall :=
  if r.progressSequence.any (sequence ≤ ·) then (r, [])
  else if parked then
    ({ r with progressSequence := some sequence, requiredWait := true },
      if r.requiredWait then [] else [.park])
  else
    ({ r with progressSequence := some sequence, requiredWait := false },
      if r.requiredWait then [.dropGuard] else [])

def applyProgress : Option (Nat × Bool) → PendingRemoteAck α × List AckCall
  | none => r.report
  | some (sequence, parked) =>
    let (r, calls) := r.progress sequence parked
    (r.report.1, calls ++ r.report.2)

def admits : PendingRemoteAck α :=
  match r.phase with
  | .awaitingAdmission _ => { r with phase := .admitted 0 }
  | .admitted _ => r

def swept : PendingRemoteAck α × Bool :=
  match r.phase with
  | .awaitingAdmission sweeps =>
    ({ r with phase := .awaitingAdmission (sweeps + 1) }, ADMISSION_SWEEPS < sweeps + 1)
  | .admitted silentSweeps =>
    ({ r with phase := .admitted (silentSweeps + 1) }, REMOTE_ACK_SILENT_SWEEPS < silentSweeps + 1)

def expirationReason : String :=
  match r.phase with
  | .awaitingAdmission _ =>
    "node '" ++ r.receiver ++ "' did not admits the forwarded record within 5m"
  | .admitted _ =>
    "node '" ++ r.receiver ++ "' reported nothing about the forwarded record for 15s"

def drop : List AckCall := if r.requiredWait then [.dropGuard] else []

def finish : Ending → List AckCall
  | .resolve .ack => .ackSuccess :: r.drop
  | .resolve (.noAck error) => .noAck error :: r.drop
  | .clear => r.drop
  | .expire => .noAck r.expirationReason :: r.drop
  | .shutdown => .noAck "remote correlation owner ended" :: r.drop

def apply : Event → PendingRemoteAck α × List AckCall
  | .report progress => r.applyProgress progress
  | .admits => (r.admits, [])
  | .sweep => (r.swept.1, [])

def after (events : List Event) : PendingRemoteAck α := events.foldl (fun r e => (r.apply e).1) r

def calls (r : PendingRemoteAck α) : List Event → Ending → List AckCall
  | [], ending => r.finish ending
  | e :: events, ending => (r.apply e).2 ++ (r.apply e).1.calls events ending

@[simp] theorem requiredWait_report : r.report.1.requiredWait = r.requiredWait := by
  unfold report
  split <;> rfl

@[simp] theorem requiredWait_admits : r.admits.requiredWait = r.requiredWait := by
  unfold admits
  split <;> rfl

@[simp] theorem requiredWait_swept : r.swept.1.requiredWait = r.requiredWait := by
  unfold swept
  split <;> rfl

@[simp] theorem calls_report : r.report.2 = [.alive] := by
  unfold report
  split <;> rfl

theorem calls_apply (e : Event) : ∃ tail, (tail = [] ∨ tail = [.alive]) ∧
    (r.apply e).2 = (if r.requiredWait = (r.apply e).1.requiredWait then []
      else if r.requiredWait then [.dropGuard] else [.park]) ++ tail := by
  cases e with
  | report p =>
    refine ⟨[.alive], .inr rfl, ?_⟩
    rcases p with _ | ⟨sequence, parked⟩
    · simp [apply, applyProgress]
    · simp only [apply, applyProgress, requiredWait_report, calls_report, progress]
      cases r.progressSequence.any (sequence ≤ ·) <;> cases parked <;>
        cases hr : r.requiredWait <;> simp [hr]
  | admits | sweep => exact ⟨[], .inl rfl, by simp [apply]⟩

end PendingRemoteAck

end Nervix.RemoteAck
