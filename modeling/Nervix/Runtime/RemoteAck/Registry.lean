import Nervix.Runtime.RemoteAck.Record

/-!
# The registry of remote correlations

`RemoteDispatchRegistry` gives each delivery and each admission a routing position, whose slot holds
the correlation behind a guard.
-/

namespace Nervix.RemoteAck

def U64_MAX : Nat := 2 ^ 64 - 1
def ROW_POSITIONS : Nat := 2 ^ 24
def CLAIMS_CLOSED : Nat := 2 ^ 63

inductive RemoteDispatchError
  | correlationCapacity (capacity : Nat)
  | correlationIdentityExhausted
  | correlationMemory
  deriving DecidableEq, Repr

inductive RelayAdmissionUpdate
  | pending
  | alive
  | admitted
  | rejected (reason : String)
  deriving DecidableEq, Repr

structure ConcurrentQueue where
  items : List Nat := []
  closed : Bool := false
  deriving DecidableEq, Repr

inductive PopError
  | empty
  | closed
  deriving DecidableEq, Repr

inductive PushError
  | full
  | closed
  deriving DecidableEq, Repr

namespace ConcurrentQueue

def pop (q : ConcurrentQueue) : Except PopError (Nat × ConcurrentQueue) :=
  match q.items with
  | position :: items => .ok (position, { q with items })
  | [] => .error (if q.closed then .closed else .empty)

def push (capacity : Nat) (q : ConcurrentQueue) (position : Nat) :
    Except PushError ConcurrentQueue :=
  if q.closed then .error .closed
  else if q.items.length < capacity then .ok { q with items := q.items ++ [position] }
  else .error .full

def close (q : ConcurrentQueue) : ConcurrentQueue := { q with closed := true }

end ConcurrentQueue

def closeClaims (word : Nat) : Nat := if word < CLAIMS_CLOSED then word + CLAIMS_CLOSED else word

def firstClaims (word : Nat) : Nat := word % CLAIMS_CLOSED

def claimedPositions (capacity deliveries admissions : Nat) : List Nat :=
  List.range deliveries ++ (List.range admissions).map (capacity + ·)

structure DeliveryAcks (α : Type) where
  rows : List (Option (PendingRemoteAck α))
  remaining : Nat

structure AdmissionSender where
  update : RelayAdmissionUpdate := .pending
  isClosed : Bool := false
  deriving DecidableEq, Repr

inductive RemoteCorrelationState (α : Type)
  | records (acks : DeliveryAcks α)
  | admission (sender : AdmissionSender)

structure RemoteCorrelation (α : Type) where
  route : Nat
  state : RemoteCorrelationState α

inductive CorrelationSlot (α : Type)
  | opened (generation : Nat) (correlation : Option (RemoteCorrelation α))
  | closed

inductive Registration (α : Type)
  | records (receiver : String) (acks : List (Option α))
  | admission

inductive Cause
  | ending (ending : Ending)
  | receiverDropped
  deriving DecidableEq, Repr

inductive Entry (α : Type)
  | registered (route : Nat) (registration : Registration α)
  | event (id : Nat) (event : Event)
  | ended (id : Nat) (cause : Cause) (record : Option (PendingRemoteAck α))

variable {α : Type}

def Entry.failed : Entry α → Option String
  | ended _ (.ending .expire) (some r) => some r.receiver
  | _ => none

def Registration.state : Registration α → RemoteCorrelationState α
  | records receiver acks => .records
      { rows := acks.map (·.map (PendingRemoteAck.new receiver))
        remaining := acks.countP (·.isSome) }
  | admission => .admission {}

def route (capacity position generation : Nat) : Option Nat :=
  let next := generation + 1
  let base := next * (2 * capacity)
  if next ≤ U64_MAX ∧ base ≤ U64_MAX ∧ base + position ≤ U64_MAX ∧
      base + position ≤ U64_MAX / ROW_POSITIONS then
    some (base + position)
  else none

def position (capacity id : Nat) : Nat := id / ROW_POSITIONS % (2 * capacity)

def RemoteCorrelation.record (c : RemoteCorrelation α) (id : Nat) : Option (PendingRemoteAck α) :=
  if c.route = id / ROW_POSITIONS then
    match c.state with
    | .records acks => acks.rows[id % ROW_POSITIONS]?.join
    | .admission _ => none
  else none

def RemoteCorrelation.setRecord (c : RemoteCorrelation α) (id : Nat) (r : PendingRemoteAck α) :
    RemoteCorrelation α :=
  match c.state with
  | .records acks =>
    { c with state := .records { acks with rows := acks.rows.set (id % ROW_POSITIONS) (some r) } }
  | .admission _ => c

structure Visit (α : Type) where
  slot : CorrelationSlot α
  entries : List (Entry α) := []
  done : Bool := false
  freed : Bool := false

namespace CorrelationSlot

section
variable (id : Nat) (slot : CorrelationSlot α)

def admitAck : Visit α :=
  match slot with
  | opened generation (some c) =>
    match c.record id with
    | some r =>
      match r.phase with
      | .awaitingAdmission _ =>
        { slot := opened generation (some (c.setRecord id r.admits)), entries := [.event id .admits] }
      | .admitted _ => { slot }
    | none => { slot }
  | _ => { slot }

def applyProgress (progress : Option (Nat × Bool)) (slot : CorrelationSlot α) : Visit α :=
  match slot with
  | opened generation (some c) =>
    if c.route = id / ROW_POSITIONS then
      match c.state with
      | .records _ =>
        match c.record id with
        | some r =>
          { slot := opened generation (some (c.setRecord id (r.applyProgress progress).1))
            entries := [.event id (.report progress)]
            done := true }
        | none => { slot }
      | .admission sender =>
        if id % ROW_POSITIONS = 0 then
          if sender.isClosed then
            { slot := opened generation none
              entries := [.ended id .receiverDropped none]
              done := true
              freed := true }
          else
            { slot := opened generation
                (some { c with state := .admission { sender with update := .alive } })
              done := true }
        else { slot }
    else { slot }
  | _ => { slot }

def take (ending : Ending) (slot : CorrelationSlot α) : Visit α :=
  match slot with
  | opened generation (some c) =>
    if c.route = id / ROW_POSITIONS then
      match c.state with
      | .records acks =>
        match acks.rows[id % ROW_POSITIONS]?.join with
        | some r =>
          let rest : DeliveryAcks α :=
            { rows := acks.rows.set (id % ROW_POSITIONS) none, remaining := acks.remaining - 1 }
          { slot := opened generation
              (if rest.remaining = 0 then none else some { c with state := .records rest })
            entries := [.ended id (.ending ending) (some r)]
            done := true
            freed := rest.remaining = 0 }
        | none => { slot }
      | .admission _ =>
        if id % ROW_POSITIONS = 0 then
          { slot := opened generation none
            entries := [.ended id (.ending ending) none]
            done := true
            freed := true }
        else { slot }
    else { slot }
  | _ => { slot }

def dropReceiver : Visit α :=
  match slot with
  | opened generation (some ⟨route, .admission sender⟩) =>
    if route * ROW_POSITIONS = id then
      { slot := opened generation (some ⟨route, .admission { sender with isClosed := true }⟩) }
    else { slot }
  | _ => { slot }

def rowEntries (f : Nat → PendingRemoteAck α → List (Entry α)) :
    Nat → List (Option (PendingRemoteAck α)) → List (Entry α)
  | _, [] => []
  | id, none :: rows => rowEntries f (id + 1) rows
  | id, some r :: rows => f id r ++ rowEntries f (id + 1) rows

def sweepRow (row : Option (PendingRemoteAck α)) : Option (PendingRemoteAck α) :=
  row.bind fun r => if r.swept.2 then none else some r.swept.1

def sweepEntries (r : PendingRemoteAck α) : List (Entry α) :=
  .event id .sweep :: if r.swept.2 then [.ended id (.ending .expire) (some r.swept.1)] else []

def failSilentAcks : Visit α :=
  match slot with
  | opened generation (some c) =>
    match c.state with
    | .records acks =>
      let entries := rowEntries sweepEntries (c.route * ROW_POSITIONS) acks.rows
      let expired := entries.filterMap Entry.failed
      let rest : DeliveryAcks α :=
        { rows := acks.rows.map sweepRow, remaining := acks.remaining - expired.length }
      { slot := opened generation
          (if rest.remaining = 0 then none else some { c with state := .records rest })
        entries
        freed := rest.remaining = 0 }
    | .admission sender =>
      if sender.isClosed then
        { slot := opened generation none
          entries := [.ended (c.route * ROW_POSITIONS) .receiverDropped none]
          freed := true }
      else { slot }
  | _ => { slot }

def shutdownEntries (r : PendingRemoteAck α) : List (Entry α) :=
  [.ended id (.ending .shutdown) (some r)]

def shutdown : Visit α :=
  match slot with
  | opened _ (some ⟨route, .records acks⟩) =>
    { slot := closed, entries := rowEntries shutdownEntries (route * ROW_POSITIONS) acks.rows }
  | opened _ (some ⟨route, .admission _⟩) =>
    { slot := closed
      entries := [.ended (route * ROW_POSITIONS) (.ending .shutdown) none] }
  | _ => { slot := closed }

end

end CorrelationSlot

inductive Operation
  | admitAck (id : Nat)
  | applyProgress (id : Nat) (progress : Option (Nat × Bool))
  | resolveAck (id : Nat) (outcome : Ack.AckOutcome)
  | clearAck (id : Nat)
  | dropReceiver (id : Nat)
  deriving DecidableEq, Repr

namespace Operation

def id : Operation → Nat
  | admitAck id | applyProgress id _ | resolveAck id _ | clearAck id | dropReceiver id => id

def visit (slot : CorrelationSlot α) : Operation → Visit α
  | admitAck id => slot.admitAck id
  | applyProgress id progress => slot.applyProgress id progress
  | resolveAck id outcome => slot.take id (.resolve outcome)
  | clearAck id => slot.take id .clear
  | dropReceiver id => slot.dropReceiver id

end Operation

structure Registry (α : Type) where
  slots : Nat → CorrelationSlot α := fun _ => .opened 0 none
  deliveries : ConcurrentQueue := {}
  admissions : ConcurrentQueue := {}
  nextDelivery : Nat := 0
  nextAdmission : Nat := 0
  history : Nat → List (Entry α) := fun _ => []

namespace Registry

def visit (s : Registry α) (position : Nat) (slot : CorrelationSlot α) (entries : List (Entry α)) :
    Registry α :=
  { s with
    slots := Function.update s.slots position slot
    history := Function.update s.history position (s.history position ++ entries) }

end Registry

namespace Registration

def free (s : Registry α) : Registration α → ConcurrentQueue
  | records .. => s.deliveries
  | admission => s.admissions

def setFree (s : Registry α) (q : ConcurrentQueue) : Registration α → Registry α
  | records .. => { s with deliveries := q }
  | admission => { s with admissions := q }

def next (s : Registry α) : Registration α → Nat
  | records .. => s.nextDelivery
  | admission => s.nextAdmission

def setNext (s : Registry α) (word : Nat) : Registration α → Registry α
  | records .. => { s with nextDelivery := word }
  | admission => { s with nextAdmission := word }

def offset (capacity : Nat) : Registration α → Nat
  | records .. => 0
  | admission => capacity

end Registration

inductive Call (α : Type)
  | storeAcks (receiver : String) (acks : List (Option α))
  | registerAdmission
  | pop (registration : Registration α)
  | claimLoad (registration : Registration α)
  | claimCas (registration : Registration α) (position : Nat)
  | occupy (registration : Registration α) (position : Nat)
  | stored (registrations : List (Option Nat))
  | admission (id : Nat)
  | cancelled
  | refused (error : RemoteDispatchError)
  | operate (operation : Operation)
  | recycle (position : Nat) (after : Call α)
  | returned (done : Bool)
  | sweepDeliveries
  | sweepAdmissions (deliveries : Nat)
  | sweep (positions : List Nat) (failed : List String)
  | closeDeliveries
  | closeAdmissions (deliveries : Nat)
  | closeDeliveryQueue (deliveries admissions : Nat)
  | closeAdmissionQueue (deliveries admissions : Nat)
  | endPositions (positions : List Nat)
  | panicked

open Call

def rowIds : Nat → List (Option α) → List (Option Nat)
  | _, [] => []
  | id, a :: acks => a.map (fun _ => id) :: rowIds (id + 1) acks

def Registration.ok (route : Nat) : Registration α → Call α
  | records _ acks => stored (rowIds (route * ROW_POSITIONS) acks)
  | admission => .admission (route * ROW_POSITIONS)

def Call.Begins : Call α → Prop
  | storeAcks .. | registerAdmission | operate _ | sweepDeliveries | closeDeliveries => True
  | _ => False

def Call.afterVisit (position : Nat) (freed : Bool) (after : Call α) : Call α :=
  if freed then recycle position after else after

inductive CallStep (capacity : Nat) (s : Registry α) : Call α → Registry α → Call α → Prop
  -- `store_acks`, whose memory may be refused, and `register_admission`
  | storeTooMany : ROW_POSITIONS < acks.length →
      CallStep capacity s (storeAcks receiver acks) s (refused .correlationIdentityExhausted)
  | storeNothing : acks.length ≤ ROW_POSITIONS → acks.countP (·.isSome) = 0 →
      CallStep capacity s (storeAcks receiver acks) s (stored (acks.map fun _ => none))
  | storeRefused : acks.length ≤ ROW_POSITIONS → acks.countP (·.isSome) ≠ 0 →
      CallStep capacity s (storeAcks receiver acks) s (refused .correlationMemory)
  | storeCancelled : acks.length ≤ ROW_POSITIONS → acks.countP (·.isSome) ≠ 0 →
      CallStep capacity s (storeAcks receiver acks) s cancelled
  | storeCharged : acks.length ≤ ROW_POSITIONS → acks.countP (·.isSome) ≠ 0 →
      CallStep capacity s (storeAcks receiver acks) s (pop (.records receiver acks))
  | registerAdmission : CallStep capacity s registerAdmission s (pop .admission)
  -- `register` and `claim_fresh`
  | pop : (registration.free s).pop = .ok (p, q) →
      CallStep capacity s (pop registration) (registration.setFree s q)
        (occupy registration p)
  | popEmpty : (registration.free s).pop = .error .empty →
      CallStep capacity s (pop registration) s (claimLoad registration)
  | popClosed : (registration.free s).pop = .error .closed →
      CallStep capacity s (pop registration) s (refused (.correlationCapacity capacity))
  | claimLoad : CallStep capacity s (claimLoad registration) s
      (claimCas registration (registration.next s))
  | claimExhausted : capacity ≤ p →
      CallStep capacity s (claimCas registration p) s
        (refused (.correlationCapacity capacity))
  | claim : p < capacity → registration.next s = p →
      CallStep capacity s (claimCas registration p) (registration.setNext s (p + 1))
        (occupy registration (p + registration.offset capacity))
  | claimRetry : p < capacity → registration.next s ≠ p →
      CallStep capacity s (claimCas registration p) s
        (claimCas registration (registration.next s))
  | occupyClosed : s.slots p = .closed →
      CallStep capacity s (occupy registration p) s
        (refused (.correlationCapacity capacity))
  | occupyOccupied : s.slots p = .opened generation (some c) →
      CallStep capacity s (occupy registration p) s panicked
  | occupyExhausted : s.slots p = .opened generation none → route capacity p generation = none →
      CallStep capacity s (occupy registration p) (s.visit p .closed [])
        (refused .correlationIdentityExhausted)
  | occupy : s.slots p = .opened generation none → route capacity p generation = some r →
      CallStep capacity s (occupy registration p)
        (s.visit p (.opened (generation + 1) (some ⟨r, registration.state⟩))
          [.registered r registration])
        (registration.ok r)
  -- the operations by id, which visit the slot that the id names
  | operate : op.visit (s.slots (position capacity op.id)) = v →
      CallStep capacity s (operate op) (s.visit (position capacity op.id) v.slot v.entries)
        ((returned v.done).afterVisit (position capacity op.id) v.freed)
  -- `recycle`
  | recycleDelivery : p < capacity → s.deliveries.push capacity p = .ok q →
      CallStep capacity s (recycle p after) { s with deliveries := q } after
  | recycleAdmission : capacity ≤ p → s.admissions.push capacity p = .ok q →
      CallStep capacity s (recycle p after) { s with admissions := q } after
  | recycleClosed : (if p < capacity then s.deliveries else s.admissions).push capacity
        p = .error .closed →
      CallStep capacity s (recycle p after) s after
  | recycleFull : (if p < capacity then s.deliveries else s.admissions).push capacity
        p = .error .full →
      CallStep capacity s (recycle p after) s panicked
  -- `fail_silent_acks`
  | sweepDeliveries : CallStep capacity s sweepDeliveries s
      (sweepAdmissions (firstClaims s.nextDelivery))
  | sweepAdmissions : CallStep capacity s (sweepAdmissions deliveries) s
      (sweep (claimedPositions capacity deliveries (firstClaims s.nextAdmission)) [])
  | sweep : (s.slots p).failSilentAcks = v →
      CallStep capacity s (sweep (p :: positions) failed) (s.visit p v.slot v.entries)
        ((sweep positions (failed ++ v.entries.filterMap Entry.failed)).afterVisit p v.freed)
  -- `shutdown`
  | closeDeliveries : CallStep capacity s closeDeliveries
      { s with nextDelivery := closeClaims s.nextDelivery }
      (closeAdmissions (firstClaims s.nextDelivery))
  | closeAdmissions : CallStep capacity s (closeAdmissions deliveries)
      { s with nextAdmission := closeClaims s.nextAdmission }
      (closeDeliveryQueue deliveries (firstClaims s.nextAdmission))
  | closeDeliveryQueue : CallStep capacity s (closeDeliveryQueue deliveries admissions)
      { s with deliveries := s.deliveries.close } (closeAdmissionQueue deliveries admissions)
  | closeAdmissionQueue : CallStep capacity s (closeAdmissionQueue deliveries admissions)
      { s with admissions := s.admissions.close }
      (endPositions (claimedPositions capacity deliveries admissions))
  | endPosition : (s.slots p).shutdown = v →
      CallStep capacity s (endPositions (p :: positions))
        (s.visit p v.slot v.entries) (endPositions positions)

def registry (α : Type) (capacity : Nat) : Machine (Registry α) (Call α) where
  start _ call := call.Begins
  step s call s' next := ∃ call', CallStep capacity s call s' call' ∧ next = {call'}

def Registry.new : Config (Registry α) (Call α) := ⟨{}, 0⟩

end Nervix.RemoteAck
