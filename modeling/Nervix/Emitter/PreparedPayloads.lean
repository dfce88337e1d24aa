import Nervix.Emitter.Packing
import Nervix.Theory.SortedMap
import Nervix.Theory.System

/-!
# Prepared payloads

An emitter retains every payload it prepared, with the rows it carries, until the connector answers
for it. This module models the buffered batches with the state of their rows, the retained
payloads, the write of them, and what the connector's answers for a write resolve.
-/

namespace Nervix.Emitter

open List

abbrev Timestamp := Int

namespace EmitterRecordPosition

instance : LinearOrder EmitterRecordPosition :=
  LinearOrder.lift' (fun p => toLex (p.batchIndex, p.rowIndex)) fun p q h => by
    cases p
    cases q
    cases h
    rfl

end EmitterRecordPosition

inductive BufferedRow
  | pending
  | prepared
  | delivered
  | staged
  | rejected
deriving DecidableEq, Repr

def BufferedRow.isResolved : BufferedRow → Bool
  | .pending | .prepared => false
  | .delivered | .staged | .rejected => true

inductive AckCall
  | success
  | noAck (reason : String)
  | messageError
deriving DecidableEq, Repr

structure PublishRow where
  state : BufferedRow := .pending
  acks : List AckCall := []
deriving DecidableEq, Repr

structure BatchHeader (κ : Type) where
  carrier : Nat
  branch : κ
  executionNow : Timestamp
deriving DecidableEq

structure EmitterPublishBatch (κ : Type) where
  header : BatchHeader κ
  rows : List PublishRow

inductive DeliveredAcknowledgements
  | host
  | connector

inductive EmitterRuntimeError (φ : Type)
  | encodeBatch (detail : String)
  | deliveryRowOutOfBounds (row rowCount : Nat)
  | rejectionRowOutOfBounds (row rowCount : Nat)
  | preparedRowOutOfBounds (row rowCount : Nat)
  | rowAlreadyPrepared (row : Nat)
  | unknownEmitterRecord (record records : Nat)
  | emitterRecordAnsweredTwice (record : Nat)
  | unansweredEmitterRecords (unanswered records : Nat)
  | publishFailure (error : φ)

inductive Fault (φ : Type)
  | error (error : EmitterRuntimeError φ)
  | asserted (guarantee : String)

open EmitterPublishBatch

section Batches

variable {κ φ : Type}

namespace EmitterPublishBatch

section
variable (batch : EmitterPublishBatch κ) (row : Nat)

def put (state : BufferedRow) (calls : List AckCall) : EmitterPublishBatch κ :=
  { batch with rows := batch.rows.modify row fun r => ⟨state, r.acks ++ calls⟩ }

def markDelivered (acknowledgements : DeliveredAcknowledgements) (batch : EmitterPublishBatch κ)
    (row : Nat) : Except (EmitterRuntimeError φ) (EmitterPublishBatch κ) :=
  match batch.rows[row]? with
  | none => .error (.deliveryRowOutOfBounds row batch.rows.length)
  | some r =>
    if r.state.isResolved then .ok batch
    else
      match acknowledgements with
      | .host => .ok (batch.put row .delivered [.success])
      | .connector => .ok (batch.put row .staged [])

def markRejectedAfterDelivery : Except (EmitterRuntimeError φ) (EmitterPublishBatch κ) :=
  match batch.rows[row]? with
  | none => .error (.rejectionRowOutOfBounds row batch.rows.length)
  | some r => if r.state.isResolved then .ok batch else .ok (batch.put row .rejected [.messageError])

def markPrepared : Except (EmitterRuntimeError φ) (EmitterPublishBatch κ) :=
  match batch.rows[row]? with
  | none => .error (.preparedRowOutOfBounds row batch.rows.length)
  | some r =>
    if r.state ≠ .pending then .error (.rowAlreadyPrepared row)
    else .ok (batch.put row .prepared [])

def releasePrepared : Except (EmitterRuntimeError φ) (EmitterPublishBatch κ) :=
  match batch.rows[row]? with
  | none => .error (.rejectionRowOutOfBounds row batch.rows.length)
  | some r => if r.state = .prepared then .ok (batch.put row .pending []) else .ok batch

def retireUnresolved : EmitterPublishBatch κ :=
  { batch with
    rows := batch.rows.map fun r =>
      if r.state.isResolved then r
      else { r with acks := r.acks ++ [.noAck "emitter source branch retired"] } }

end

end EmitterPublishBatch

def rowAt (batches : List (EmitterPublishBatch κ)) (p : EmitterRecordPosition) :
    Option PublishRow :=
  batches[p.batchIndex]?.bind (·.rows[p.rowIndex]?)

def headerAt (batches : List (EmitterPublishBatch κ)) (p : EmitterRecordPosition) :
    Option (BatchHeader κ) :=
  batches[p.batchIndex]?.map (·.header)

def markAll (mark : EmitterPublishBatch κ → Nat →
      Except (EmitterRuntimeError φ) (EmitterPublishBatch κ))
    (missing : Nat → String) (batches : List (EmitterPublishBatch κ)) :
    List EmitterRecordPosition → List (EmitterPublishBatch κ) × Except (EmitterRuntimeError φ) Unit
  | [] => (batches, .ok ())
  | m :: members =>
    match batches[m.batchIndex]? with
    | none => (batches, .error (.encodeBatch (missing m.batchIndex)))
    | some batch =>
      match mark batch m.rowIndex with
      | .error error => (batches, .error error)
      | .ok batch => markAll mark missing (batches.set m.batchIndex batch) members

end Batches

/-! ### Rows that move together -/

section Moves

variable {κ φ : Type} {batches batches' batches'' : List (EmitterPublishBatch κ)}
  {members members' : List EmitterRecordPosition} {source target : BufferedRow}
  {calls : List AckCall}

def PublishRow.moved (target : BufferedRow) (calls : List AckCall) (r : PublishRow) : PublishRow :=
  ⟨target, r.acks ++ calls⟩

structure MovedAt (members : List EmitterRecordPosition) (target : BufferedRow)
    (calls : List AckCall) (batches batches' : List (EmitterPublishBatch κ)) : Prop where
  rows (p : EmitterRecordPosition) : rowAt batches' p =
    if p ∈ members then (rowAt batches p).map (PublishRow.moved target calls)
    else rowAt batches p
  headers : batches'.map (·.header) = batches.map (·.header)

theorem MovedAt.refl : MovedAt [] target calls batches batches :=
  ⟨fun p => by rw [if_neg not_mem_nil], rfl⟩

variable {p : EmitterRecordPosition}

theorem MovedAt.trans (h : MovedAt members target calls batches batches')
    (h' : MovedAt members' target calls batches' batches'')
    (hdisjoint : ∀ m ∈ members, m ∉ members') :
    MovedAt (members ++ members') target calls batches batches'' := by
  refine ⟨fun p => ?_, h'.headers.trans h.headers⟩
  rw [h'.rows, h.rows]
  by_cases hp : p ∈ members
  · rw [if_neg (hdisjoint p hp), if_pos hp, if_pos (mem_append_left _ hp)]
  · simp only [mem_append, hp, false_or, if_false]

theorem headerAt_eq (batches : List (EmitterPublishBatch κ)) (p : EmitterRecordPosition) :
    headerAt batches p = (batches.map (·.header))[p.batchIndex]? := by
  rw [headerAt, getElem?_map]

theorem MovedAt.headerAt (h : MovedAt members target calls batches batches')
    (p : EmitterRecordPosition) : headerAt batches' p = headerAt batches p := by
  rw [headerAt_eq, headerAt_eq, h.headers]

theorem movedAt_set_put (hbatch : batches[m.batchIndex]? = some batch) :
    MovedAt [m] target calls batches
      (batches.set m.batchIndex (batch.put m.rowIndex target calls)) := by
  obtain ⟨hlt, hget⟩ := List.getElem?_eq_some_iff.mp hbatch
  constructor
  · intro p
    obtain ⟨i, r⟩ := p
    obtain ⟨j, q⟩ := m
    simp only [rowAt, mem_singleton, EmitterRecordPosition.mk.injEq]
    by_cases hi : i = j
    · subst hi
      simp only [getElem?_set_self hlt, hbatch, Option.bind_some, true_and,
        put, getElem?_modify]
      by_cases hr : r = q
      · subst hr
        simp only [if_true]
        rfl
      · simp only [if_neg hr, if_neg (Ne.symm hr)]
        exact Option.map_id'
    · simp only [hi, false_and, if_false, getElem?_set_ne (Ne.symm hi)]
  · rw [map_set]
    refine ext_getElem? fun i => ?_
    by_cases hi : m.batchIndex = i
    · subst hi
      rw [getElem?_set_self (by rwa [length_map]), getElem?_map, hbatch]
      rfl
    · rw [getElem?_set_ne hi]

def Moves (mark : EmitterPublishBatch κ → Nat →
      Except (EmitterRuntimeError φ) (EmitterPublishBatch κ))
    (source target : BufferedRow) (calls : List AckCall) : Prop :=
  ∀ (batch : EmitterPublishBatch κ) (row : Nat) (r : PublishRow), batch.rows[row]? = some r →
    r.state = source → mark batch row = .ok (batch.put row target calls)

theorem moves_markPrepared :
    Moves (markPrepared (κ := κ) (φ := φ)) .pending .prepared [] := by
  intro batch row r hr hstate
  rw [markPrepared, hr]
  simp only [hstate, ne_eq, not_true_eq_false, if_false]

theorem moves_markDelivered :
    Moves (markDelivered (κ := κ) (φ := φ) .host) .prepared .delivered
      [.success] := by
  intro batch row r hr hstate
  rw [markDelivered, hr]
  simp only [hstate, BufferedRow.isResolved, Bool.false_eq_true, if_false]

theorem moves_releasePrepared :
    Moves (releasePrepared (κ := κ) (φ := φ)) .prepared .pending [] := by
  intro batch row r hr hstate
  rw [releasePrepared, hr]
  simp only [hstate, if_true]

theorem moves_markRejectedAfterDelivery :
    Moves (markRejectedAfterDelivery (κ := κ) (φ := φ)) .pending .rejected
      [.messageError] := by
  intro batch row r hr hstate
  rw [markRejectedAfterDelivery, hr]
  simp only [hstate, BufferedRow.isResolved, Bool.false_eq_true, if_false]

def StandsAt (batches : List (EmitterPublishBatch κ)) (state : BufferedRow)
    (p : EmitterRecordPosition) : Prop :=
  ∃ r, rowAt batches p = some r ∧ r.state = state

theorem MovedAt.standsAt (h : MovedAt members target calls batches batches') (hp : p ∉ members) :
    StandsAt batches' state p ↔ StandsAt batches state p := by
  rw [StandsAt, StandsAt, h.rows, if_neg hp]

theorem MovedAt.standsAt_target (h : MovedAt members target calls batches batches') (hp : p ∈ members)
    (hstands : StandsAt batches state p) : StandsAt batches' state' p ↔ state' = target := by
  obtain ⟨r, hr, _⟩ := hstands
  rw [StandsAt, h.rows, if_pos hp, hr]
  constructor
  · rintro ⟨r', hr', rfl⟩
    cases hr'
    rfl
  · rintro rfl
    exact ⟨_, rfl, rfl⟩

theorem markAll_eq_ok (missing : Nat → String)
    (hmark : Moves mark source target calls) (hnodup : members.Nodup)
    (hsource : ∀ m ∈ members, StandsAt batches source m) :
    ∃ batches', markAll mark missing batches members = (batches', .ok ()) ∧
      MovedAt members target calls batches batches' := by
  induction members generalizing batches with
  | nil => exact ⟨batches, rfl, .refl⟩
  | cons m members ih =>
    obtain ⟨hm, hnodup⟩ := nodup_cons.mp hnodup
    obtain ⟨r, hr, hstate⟩ := hsource m mem_cons_self
    obtain ⟨batch, hbatch, hrow⟩ := Option.bind_eq_some_iff.mp hr
    have hmoved : MovedAt [m] target calls batches
        (batches.set m.batchIndex (batch.put m.rowIndex target calls)) := movedAt_set_put hbatch
    have hrest : ∀ m' ∈ members, StandsAt
        (batches.set m.batchIndex (batch.put m.rowIndex target calls)) source m' := by
      intro m' hm'
      refine (hmoved.standsAt ?_).mpr (hsource m' (mem_cons_of_mem m hm'))
      rw [mem_singleton]
      exact fun heq => hm (heq ▸ hm')
    obtain ⟨batches', hmarked, hmoved'⟩ := ih hnodup hrest
    refine ⟨batches', ?_, ?_⟩
    · rw [markAll, hbatch]
      simp only [hmark batch m.rowIndex r hrow hstate]
      exact hmarked
    · exact hmoved.trans hmoved' (List.forall_mem_singleton.mpr hm)

end Moves

structure PreparedPayload (χ : Type) where
  members : List EmitterRecordPosition
  occurredAt : Timestamp
  content : χ

structure StructuredMessageError (δ : Type) where
  occurredAt : Timestamp
  detail : δ
deriving DecidableEq

structure RejectedEmitterMember (δ ι : Type) where
  id : ι
  error : StructuredMessageError δ

structure PerRecordOutcome (δ φ : Type) where
  delivered : List Nat := []
  rejected : List (RejectedEmitterMember δ Nat) := []
  infrastructureError : Option φ := none

structure CheckedAnswers (δ φ : Type) where
  delivered : List Nat
  rejected : List (RejectedEmitterMember δ Nat)
  unresolved : Option (EmitterRuntimeError φ)

namespace CheckedAnswers

variable {δ φ : Type}

section
variable (outcome : PerRecordOutcome δ φ)

def recordAnswer (answered : List Bool) (record : Nat) :
    Except (EmitterRuntimeError φ) (List Bool) :=
  match answered[record]? with
  | none => .error (.unknownEmitterRecord record answered.length)
  | some true => .error (.emitterRecordAnsweredTwice record)
  | some false => .ok (answered.set record true)

def unresolvedBy (records : Nat) : Option (EmitterRuntimeError φ) :=
  let answeredRecords := outcome.delivered.length + outcome.rejected.length
  match outcome.infrastructureError with
  | some error => some (.publishFailure error)
  | none =>
    if answeredRecords < records then
      some (.unansweredEmitterRecords (records - answeredRecords) records)
    else none

def check (records : Nat) : Except (EmitterRuntimeError φ) (CheckedAnswers δ φ) := do
  let answered ← outcome.delivered.foldlM recordAnswer (List.replicate records false)
  let _ ← (outcome.rejected.map (·.id)).foldlM recordAnswer answered
  return ⟨outcome.delivered, outcome.rejected, unresolvedBy outcome records⟩

def answeredRecords : List Nat :=
  outcome.delivered ++ outcome.rejected.map (·.id)

end

structure WellFormed (outcome : PerRecordOutcome δ φ) (records : Nat) : Prop where
  nodup : (answeredRecords outcome).Nodup
  known : ∀ i ∈ answeredRecords outcome, i < records

theorem foldlM_recordAnswer (ids : List Nat) (answered : List Bool) :
    (∃ answered', ids.foldlM (recordAnswer (φ := φ)) answered = .ok answered') ↔
      ids.Nodup ∧ ∀ i ∈ ids, answered[i]? = some false := by
  induction ids generalizing answered with
  | nil => exact ⟨fun _ => ⟨.nil, nofun⟩, fun _ => ⟨answered, rfl⟩⟩
  | cons i ids ih =>
    rw [foldlM_cons, recordAnswer]
    match hi : answered[i]? with
    | none =>
      refine ⟨fun ⟨_, h⟩ => (nomatch h), fun ⟨_, h⟩ => ?_⟩
      have := (h i mem_cons_self).symm.trans hi
      cases this
    | some true =>
      refine ⟨fun ⟨_, h⟩ => (nomatch h), fun ⟨_, h⟩ => ?_⟩
      have := (h i mem_cons_self).symm.trans hi
      cases this
    | some false =>
      have hlt := (List.getElem?_eq_some_iff.mp hi).1
      have hset : ∀ j, (answered.set i true)[j]? = some false ↔
          j ≠ i ∧ answered[j]? = some false := by
        intro j
        by_cases hj : i = j
        · subst hj
          simp [getElem?_set_self hlt]
        · rw [getElem?_set_ne hj]
          exact (and_iff_right (Ne.symm hj)).symm
      refine (ih (answered.set i true)).trans ?_
      simp only [hset, nodup_cons, forall_mem_cons, hi, true_and]
      constructor
      · rintro ⟨hnodup, hids⟩
        exact ⟨⟨fun h => (hids i h).1 rfl, hnodup⟩, fun j hj => (hids j hj).2⟩
      · rintro ⟨⟨hni, hnodup⟩, hids⟩
        exact ⟨hnodup, fun j hj => ⟨fun h => hni (h ▸ hj), hids j hj⟩⟩

variable {outcome : PerRecordOutcome δ φ} {records : Nat}

theorem WellFormed.mem_of_length
    (h : WellFormed outcome records) (hlen : records ≤ (answeredRecords outcome).length)
    (hi : i < records) : i ∈ answeredRecords outcome := by
  have hsub : answeredRecords outcome ⊆ List.range records :=
    fun j hj => mem_range.mpr (h.known j hj)
  have hperm := (subperm_of_subset h.nodup hsub).perm_of_length_le
    (by rwa [length_range])
  exact hperm.mem_iff.mpr (mem_range.mpr hi)

theorem wellFormed_iff :
    WellFormed outcome records ↔ ∃ answered, (answeredRecords outcome).foldlM
      (recordAnswer (φ := φ)) (List.replicate records false) = .ok answered := by
  rw [foldlM_recordAnswer]
  simp only [getElem?_replicate, Option.ite_none_right_eq_some, and_true]
  exact ⟨fun h => ⟨h.nodup, h.known⟩, fun h => ⟨h.1, h.2⟩⟩

theorem check_of_wellFormed (h : WellFormed outcome records) : check outcome records =
      .ok ⟨outcome.delivered, outcome.rejected, unresolvedBy outcome records⟩ := by
  obtain ⟨answered, ha⟩ := wellFormed_iff.mp h
  rw [answeredRecords, foldlM_append] at ha
  obtain ⟨delivered, hd, hr⟩ := Except.bind_eq_ok.mp ha
  exact Except.bind_eq_ok.mpr ⟨delivered, hd, Except.bind_eq_ok.mpr ⟨answered, hr, rfl⟩⟩

theorem check_of_not_wellFormed
    (h : ¬ WellFormed outcome records) : ∃ error, check outcome records = .error error := by
  cases hc : check outcome records with
  | error error => exact ⟨error, rfl⟩
  | ok checked =>
    obtain ⟨delivered, hd, hc⟩ := Except.bind_eq_ok.mp hc
    obtain ⟨answered, hr, _⟩ := Except.bind_eq_ok.mp hc
    refine absurd (wellFormed_iff.mpr ⟨answered, ?_⟩) h
    rw [answeredRecords, foldlM_append]
    exact Except.bind_eq_ok.mpr ⟨delivered, hd, hr⟩

theorem WellFormed.unresolvedBy_eq_none
    (h : WellFormed outcome records) : unresolvedBy outcome records = none ↔
      outcome.infrastructureError = none ∧ ∀ i < records, i ∈ answeredRecords outcome := by
  have hlen : (answeredRecords outcome).length =
      outcome.delivered.length + outcome.rejected.length := by
    rw [answeredRecords, length_append, length_map]
  rw [unresolvedBy]
  cases outcome.infrastructureError with
  | some error => exact ⟨nofun, nofun⟩
  | none =>
    simp only [true_and, ite_eq_right_iff, reduceCtorEq, imp_false, Nat.not_lt]
    constructor
    · intro hle i hi
      exact h.mem_of_length (hlen ▸ hle) hi
    · intro hall
      have hsub : List.range records ⊆ answeredRecords outcome :=
        fun i hi => hall i (mem_range.mp hi)
      have := (subperm_of_subset nodup_range hsub).length_le
      rwa [length_range, hlen] at this

end CheckedAnswers

structure RowAnswers (δ φ : Type) where
  rejected : List (RejectedEmitterMember δ EmitterRecordPosition)
  unresolved : Option (EmitterRuntimeError φ)

structure Store (κ χ : Type) where
  batches : List (EmitterPublishBatch κ) := []
  retained : SortedMap EmitterRecordPosition (PreparedPayload χ) := {}

namespace Store

variable {κ χ δ φ ω : Type}

def retain (s : Store κ χ) (payload : PreparedPayload χ) : Store κ χ × Except (Fault φ) Unit :=
  match markAll markPrepared
      (fun index => s!"a prepared payload references missing emitter batch {index}")
      s.batches payload.members with
  | (batches, .error error) => ({ s with batches }, .error (.error error))
  | (batches, .ok ()) =>
    match payload.members.head? with
    | none =>
      ({ s with batches },
        .error (.asserted
          "a payload is prepared only from a candidate with at least one member"))
    | some first => (⟨batches, s.retained.insert first payload⟩, .ok ())

def nextWrite (written : χ → Nat → Timestamp → ω) (s : Store κ χ) :
    List ω × List EmitterRecordPosition :=
  (s.retained.entries.mapIdx fun record e => written e.2.content record e.2.occurredAt,
    s.retained.keys)

def take (s : Store κ χ) (firstMembers : List EmitterRecordPosition) (record : Nat) :
    Option (PreparedPayload χ × Store κ χ) := do
  let firstMember ← firstMembers[record]?
  let payload ← s.retained.get firstMember
  return (payload, { s with retained := s.retained.remove firstMember })

def settle (mark : EmitterPublishBatch κ → Nat →
      Except (EmitterRuntimeError φ) (EmitterPublishBatch κ))
    (missing : Nat → String) (firstMembers : List EmitterRecordPosition) (s : Store κ χ) :
    List Nat → Store κ χ × Except (Fault φ) (List (List EmitterRecordPosition))
  | [] => (s, .ok [])
  | record :: records =>
    match s.take firstMembers record with
    | none =>
      (s, .error (.asserted
        "the write was built from the retained payloads, and an answered payload leaves them once"))
    | some (payload, s) =>
      match markAll mark missing s.batches payload.members with
      | (batches, .error error) => ({ s with batches }, .error (.error error))
      | (batches, .ok ()) =>
        match settle mark missing firstMembers { s with batches } records with
        | (s, .error fault) => (s, .error fault)
        | (s, .ok members) => (s, .ok (payload.members :: members))

def rejection (batches : List (EmitterPublishBatch κ)) (error : StructuredMessageError δ)
    (m : EmitterRecordPosition) : Option (RejectedEmitterMember δ EmitterRecordPosition) :=
  (headerAt batches m).map fun header => ⟨m, { error with occurredAt := header.executionNow }⟩

def rejections (batches : List (EmitterPublishBatch κ))
    (rejected : List (RejectedEmitterMember δ Nat)) (members : List (List EmitterRecordPosition)) :
    List (RejectedEmitterMember δ EmitterRecordPosition) :=
  (rejected.zip members).flatMap fun (r, ms) => ms.filterMap (rejection batches r.error)

def answers (s : Store κ χ) (firstMembers : List EmitterRecordPosition)
    (outcome : PerRecordOutcome δ φ) : Store κ χ × Except (Fault φ) (RowAnswers δ φ) :=
  match CheckedAnswers.check outcome firstMembers.length with
  | .error error => (s, .error (.error error))
  | .ok checked =>
    match s.settle (markDelivered .host)
        (fun index => s!"emitter confirmation references missing emitter batch {index}")
        firstMembers checked.delivered with
    | (s, .error fault) => (s, .error fault)
    | (s, .ok _) =>
      match s.settle releasePrepared
          (fun index => s!"emitter rejection references missing emitter batch {index}")
          firstMembers (checked.rejected.map (·.id)) with
      | (s, .error fault) => (s, .error fault)
      | (s, .ok members) =>
        (s, .ok ⟨rejections s.batches checked.rejected members, checked.unresolved⟩)

def membersOf (s : Store κ χ) (firstMembers : List EmitterRecordPosition) (record : Nat) :
    List EmitterRecordPosition :=
  ((firstMembers[record]?.bind s.retained.get).map (·.members)).getD []

structure Tidy (s : Store κ χ) : Prop where
  prepared {e} : e ∈ s.retained.entries → ∀ m ∈ e.2.members, StandsAt s.batches .prepared m
  nodup {e} : e ∈ s.retained.entries → e.2.members.Nodup
  alone {e e' m} : e ∈ s.retained.entries → e' ∈ s.retained.entries → m ∈ e.2.members →
    m ∈ e'.2.members → e = e'

structure Settled (firstMembers : List EmitterRecordPosition) (target : BufferedRow)
    (calls : List AckCall) (records : List Nat) (s s' : Store κ χ) : Prop where
  moved : MovedAt (records.flatMap (s.membersOf firstMembers)) target calls s.batches s'.batches
  retained : s'.retained.entries =
    s.retained.entries.filter fun e => ∀ i ∈ records, firstMembers[i]? ≠ some e.1

variable {s : Store κ χ} {firstMembers : List EmitterRecordPosition}

theorem membersOf_eq
    (hfirst : firstMembers[record]? = some first) (hget : (first, payload) ∈ s.retained.entries) :
    s.membersOf firstMembers record = payload.members := by
  rw [membersOf, hfirst, Option.bind_some, SortedMap.get_eq_some_iff.mpr hget]
  rfl

theorem exists_of_mem_membersOf (h : m ∈ s.membersOf firstMembers record) :
    ∃ e ∈ s.retained.entries, firstMembers[record]? = some e.1 ∧ m ∈ e.2.members := by
  rw [membersOf] at h
  cases hfirst : firstMembers[record]? with
  | none =>
    rw [hfirst] at h
    cases h
  | some first =>
    rw [hfirst, Option.bind_some] at h
    cases hget : s.retained.get first with
    | none =>
      rw [hget] at h
      cases h
    | some payload =>
      rw [hget] at h
      exact ⟨(first, payload), SortedMap.get_eq_some_iff.mp hget, rfl, h⟩

variable {target : BufferedRow} {calls : List AckCall} {batches : List (EmitterPublishBatch κ)}

theorem Tidy.remove (h : s.Tidy) (hget : (first, payload) ∈ s.retained.entries)
    (hmoved : MovedAt payload.members target calls s.batches batches) :
    Tidy (⟨batches, s.retained.remove first⟩ : Store κ χ) := by
  refine ⟨fun he m hm => ?_, fun he => h.nodup (SortedMap.mem_remove.mp he).1, fun he he' =>
    h.alone (SortedMap.mem_remove.mp he).1 (SortedMap.mem_remove.mp he').1⟩
  obtain ⟨he, hne⟩ := SortedMap.mem_remove.mp he
  refine (hmoved.standsAt fun hm' => ?_).mpr (h.prepared he m hm)
  exact hne (congrArg Prod.fst (h.alone he hget hm hm'))

theorem settle_eq_ok (missing : Nat → String) (hmark : Moves mark .prepared target calls) (hfirst : firstMembers.Nodup) (hs : s.Tidy) (hnodup : records.Nodup)
    (hretained : ∀ i ∈ records, ∃ k ∈ s.retained.keys, firstMembers[i]? = some k) :
    ∃ s', s.settle mark missing firstMembers records =
        (s', .ok (records.map (s.membersOf firstMembers))) ∧
      Settled firstMembers target calls records s s' ∧ s'.Tidy := by
  induction records generalizing s with
  | nil =>
    refine ⟨s, rfl, ⟨.refl, ?_⟩, hs⟩
    exact (filter_eq_self.mpr fun e _ => by simp).symm
  | cons i records ih =>
    obtain ⟨hi, hnodup⟩ := nodup_cons.mp hnodup
    obtain ⟨k, hk, hki⟩ := hretained i mem_cons_self
    obtain ⟨⟨first, payload⟩, hget, rfl⟩ := mem_map.mp hk
    obtain ⟨batches, hmarked, hmoved⟩ :=
      markAll_eq_ok missing hmark (hs.nodup hget) (hs.prepared hget)
    have hs' := hs.remove hget hmoved
    -- No other record of the write carries the payload that leaves.
    have hother : ∀ j ∈ records, ∃ k ∈ s.retained.keys, k ≠ first ∧ firstMembers[j]? = some k := by
      intro j hj
      obtain ⟨k, hk, hkj⟩ := hretained j (mem_cons_of_mem i hj)
      refine ⟨k, hk, ?_, hkj⟩
      rintro rfl
      have hlt := (List.getElem?_eq_some_iff.mp hki).1
      have hij := (getElem?_inj hlt hfirst).mp (hki.trans hkj.symm)
      exact hi (hij ▸ hj)
    have hmembers : ∀ j ∈ records,
        (⟨batches, s.retained.remove first⟩ : Store κ χ).membersOf firstMembers j =
          s.membersOf firstMembers j := by
      intro j hj
      obtain ⟨k, _, hne, hkj⟩ := hother j hj
      rw [membersOf, membersOf, hkj, Option.bind_some, Option.bind_some,
        SortedMap.get_remove_of_ne hne]
    obtain ⟨s', hsettled, hsettle, htidy⟩ := ih hs' hnodup fun j hj => by
      obtain ⟨k, hk, hne, hkj⟩ := hother j hj
      obtain ⟨e, he, rfl⟩ := mem_map.mp hk
      exact ⟨e.1, mem_map.mpr ⟨e, SortedMap.mem_remove.mpr ⟨he, hne⟩, rfl⟩, hkj⟩
    have hi' : s.membersOf firstMembers i = payload.members := membersOf_eq hki hget
    refine ⟨s', ?_, ⟨?_, ?_⟩, htidy⟩
    · have htake : s.take firstMembers i =
          some (payload, ⟨s.batches, s.retained.remove first⟩) := by
        rw [take, hki]
        simp only [Option.bind_eq_bind, Option.bind_some, SortedMap.get_eq_some_iff.mpr hget]
        rfl
      rw [settle, htake]
      simp only [hmarked, hsettled, map_cons, hi', map_congr_left hmembers]
    · have hmoves := hsettle.moved
      rw [flatMap_congr hmembers] at hmoves
      rw [flatMap_cons, hi']
      refine hmoved.trans hmoves fun m hm hm' => ?_
      obtain ⟨j, hj, hmj⟩ := mem_flatMap.mp hm'
      obtain ⟨e, he, hej, hme⟩ := exists_of_mem_membersOf hmj
      obtain ⟨k, _, hne, hkj⟩ := hother j hj
      have hfirst' := congrArg Prod.fst (hs.alone he hget hme hm)
      exact hne (Option.some_inj.mp (hkj.symm.trans (hej.trans (congrArg some hfirst'))))
    · rw [hsettle.retained, SortedMap.remove, filter_filter]
      refine filter_congr fun e _ => ?_
      rw [Bool.eq_iff_iff]
      simp only [Bool.and_eq_true, decide_eq_true_eq, forall_mem_cons, hki, Option.some_inj, ne_eq]
      rw [and_comm, eq_comm]

/-! ### The answers for a write -/

structure Answered (firstMembers : List EmitterRecordPosition) (outcome : PerRecordOutcome δ φ)
    (s s' : Store κ χ) (answers : RowAnswers δ φ) : Prop where
  rows (p : EmitterRecordPosition) : rowAt s'.batches p =
    if p ∈ outcome.delivered.flatMap (s.membersOf firstMembers) then
      (rowAt s.batches p).map (PublishRow.moved .delivered [.success])
    else if p ∈ (outcome.rejected.map (·.id)).flatMap (s.membersOf firstMembers) then
      (rowAt s.batches p).map (PublishRow.moved .pending [])
    else rowAt s.batches p
  headers : s'.batches.map (·.header) = s.batches.map (·.header)
  retained : s'.retained.entries = s.retained.entries.filter fun e =>
    ∀ i ∈ CheckedAnswers.answeredRecords outcome, firstMembers[i]? ≠ some e.1
  rejected : answers.rejected = outcome.rejected.flatMap fun r =>
    (s.membersOf firstMembers r.id).filterMap (rejection s.batches r.error)
  unresolved : answers.unresolved = none ↔ outcome.infrastructureError = none ∧
    ∀ i < firstMembers.length, i ∈ CheckedAnswers.answeredRecords outcome

theorem Settled.membersOf
    (h : Settled firstMembers target calls records s s') (hfirst : firstMembers.Nodup)
    (hi : i ∉ records) : s'.membersOf firstMembers i = s.membersOf firstMembers i := by
  rw [Store.membersOf, Store.membersOf]
  cases hk : firstMembers[i]? with
  | none => rfl
  | some k =>
    have hget : s'.retained.get k = s.retained.get k := by
      ext payload
      rw [SortedMap.get_eq_some_iff, SortedMap.get_eq_some_iff, h.retained, mem_filter,
        decide_eq_true_eq]
      refine and_iff_left fun j hj hkj => hi ?_
      have hlt := (List.getElem?_eq_some_iff.mp hk).1
      exact (getElem?_inj hlt hfirst).mp (hk.trans hkj.symm) ▸ hj
    rw [Option.bind_some, Option.bind_some, hget]

theorem record_inj (hfirst : firstMembers.Nodup)
    {i j : Nat} {k : EmitterRecordPosition} (hi : firstMembers[i]? = some k)
    (hj : firstMembers[j]? = some k) : i = j :=
  (List.getElem?_inj (List.getElem?_eq_some_iff.mp hi).1 hfirst).mp (hi.trans hj.symm)

theorem rejections_map
    (rejected : List (RejectedEmitterMember δ Nat)) (members : Nat → List EmitterRecordPosition) :
    rejections batches rejected ((rejected.map (·.id)).map members) =
      rejected.flatMap fun r => (members r.id).filterMap (rejection batches r.error) := by
  induction rejected with
  | nil => rfl
  | cons r rejected ih =>
    rw [flatMap_cons, ← ih]
    rfl

theorem answers_of_wellFormed {outcome : PerRecordOutcome δ φ} (hs : s.Tidy)
    (hfirst : firstMembers.Nodup) (hretained : ∀ k ∈ firstMembers, k ∈ s.retained.keys)
    (hwf : CheckedAnswers.WellFormed outcome firstMembers.length) :
    ∃ s' answers, s.answers firstMembers outcome = (s', .ok answers) ∧
      Answered firstMembers outcome s s' answers ∧ s'.Tidy := by
  obtain ⟨hdelivered, hrejected, hdisjoint⟩ := nodup_append.mp hwf.nodup
  have hkey : ∀ i ∈ CheckedAnswers.answeredRecords outcome,
      ∃ k ∈ s.retained.keys, firstMembers[i]? = some k := fun i hi => by
    have hget := getElem?_eq_getElem (hwf.known i hi)
    exact ⟨_, hretained _ (mem_of_getElem? hget), hget⟩
  have hnotDelivered : ∀ i ∈ outcome.rejected.map (·.id), i ∉ outcome.delivered :=
    fun i hi hi' => hdisjoint i hi' i hi rfl
  -- The delivered records are settled first, which leaves the rejected ones where they are.
  obtain ⟨s₁, hsettle₁, hsettled₁, hs₁⟩ := settle_eq_ok
    (fun index => s!"emitter confirmation references missing emitter batch {index}")
    (moves_markDelivered (φ := φ)) hfirst hs hdelivered
    fun i hi => hkey i (mem_append_left _ hi)
  have hmembers : ∀ i ∈ outcome.rejected.map (·.id),
      s₁.membersOf firstMembers i = s.membersOf firstMembers i :=
    fun i hi => hsettled₁.membersOf hfirst (hnotDelivered i hi)
  obtain ⟨s₂, hsettle₂, hsettled₂, hs₂⟩ := settle_eq_ok
    (fun index => s!"emitter rejection references missing emitter batch {index}")
    (moves_releasePrepared (φ := φ)) hfirst hs₁ hrejected fun i hi => by
      obtain ⟨k, hk, hki⟩ := hkey i (mem_append_right _ hi)
      obtain ⟨e, he, rfl⟩ := mem_map.mp hk
      refine ⟨e.1, mem_map.mpr ⟨e, ?_, rfl⟩, hki⟩
      rw [hsettled₁.retained, mem_filter, decide_eq_true_eq]
      exact ⟨he, fun j hj hkj => hnotDelivered i hi (record_inj hfirst hki hkj ▸ hj)⟩
  have hmoved := hsettled₂.moved
  rw [flatMap_congr hmembers] at hmoved
  rw [map_congr_left hmembers] at hsettle₂
  refine ⟨s₂, ⟨rejections s₂.batches outcome.rejected
      ((outcome.rejected.map (·.id)).map (s.membersOf firstMembers)),
    CheckedAnswers.unresolvedBy outcome firstMembers.length⟩, ?_,
    ⟨?_, ?_, ?_, ?_, hwf.unresolvedBy_eq_none⟩, hs₂⟩
  · rw [answers, CheckedAnswers.check_of_wellFormed hwf]
    simp only [hsettle₁, hsettle₂]
  · intro p
    rw [hmoved.rows, hsettled₁.moved.rows]
    by_cases hp : p ∈ outcome.delivered.flatMap (s.membersOf firstMembers)
    · rw [if_neg fun hp' => ?_, if_pos hp, if_pos hp]
      obtain ⟨i, hi, hpi⟩ := mem_flatMap.mp hp
      obtain ⟨j, hj, hpj⟩ := mem_flatMap.mp hp'
      obtain ⟨e, he, hei, hpe⟩ := exists_of_mem_membersOf hpi
      obtain ⟨e', he', hej, hpe'⟩ := exists_of_mem_membersOf hpj
      cases hs.alone he he' hpe hpe'
      exact hnotDelivered j hj (record_inj hfirst hei hej ▸ hi)
    · simp only [if_neg hp]
  · exact hmoved.headers.trans hsettled₁.moved.headers
  · rw [hsettled₂.retained, hsettled₁.retained, filter_filter]
    refine filter_congr fun e _ => ?_
    rw [Bool.eq_iff_iff]
    simp only [Bool.and_eq_true, decide_eq_true_eq, CheckedAnswers.answeredRecords,
      forall_mem_append]
    exact and_comm
  · rw [rejections_map]
    refine flatMap_congr fun r _ => filterMap_congr fun m _ => ?_
    rw [rejection, rejection, hmoved.headerAt, hsettled₁.moved.headerAt]

theorem answers_of_not_wellFormed (s : Store κ χ)
    (hwf : ¬ CheckedAnswers.WellFormed outcome firstMembers.length) :
    ∃ error, s.answers firstMembers outcome = (s, .error (.error error)) := by
  obtain ⟨error, herror⟩ := CheckedAnswers.check_of_not_wellFormed hwf
  refine ⟨error, ?_⟩
  rw [answers, herror]

end Store

end Nervix.Emitter
