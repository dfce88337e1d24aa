import Nervix.Runtime.StateStore.Protocol
import Nervix.Runtime.KafkaOffset.Snapshot

/-!
# The replicated Kafka offset state

A `ReplicatedKafkaOffsetState` publishes a table of the recorded partitions, in which every
partition has a cell that later tables share. A commit of a recorded partition stores to its cell
and takes the next revision, without the barrier of the assignment authority.
-/

namespace Nervix.KafkaOffset

open Assignment (StateAssignmentToken Request Client)

inductive KafkaStartApplication
  | canonical
  | unit
  deriving DecidableEq, Repr

inductive Publication
  | recorded
  | started (generation : Nat)
  | released (count index : Nat)
  deriving DecidableEq, Repr

def Publication.drops (key : TopicPartition) : Publication → Bool
  | recorded => false
  | started _ => true
  | released count index => owner count key.2 = index

inductive Change
  | store (key : TopicPartition) (cell : Nat) (offset : Int64)
  | publish (table : KafkaOffsetTable Nat) (why : Publication)
  | advance (lsm : Nat)

def Change.lsm? : Change → Option Nat
  | advance lsm => some lsm
  | _ => none

def Change.drops (key : TopicPartition) : Change → Bool
  | publish _ why => why.drops key
  | _ => false

structure Offsets where
  cells : List (TopicPartition × Int64) := []
  table : KafkaOffsetTable Nat := {}
  lsm : Nat := 0
  wrapped : Bool := false
  log : List Change := []

namespace Offsets

section
variable (s : Offsets)

def load (cell : Nat) : Int64 := ((s.cells[cell]?).map (·.2)).getD 0

def store (key : TopicPartition) (cell : Nat) (offset : Int64) : Offsets :=
  { s with
    cells := s.cells.modify cell fun c => (c.1, offset)
    log := s.log ++ [.store key cell offset] }

def allocate (key : TopicPartition) (offset : Int64) : Offsets :=
  { s with
    cells := s.cells ++ [(key, offset)]
    log := s.log ++ [.store key s.cells.length offset] }

def publish (table : KafkaOffsetTable Nat) (why : Publication) : Offsets :=
  { s with table, log := s.log ++ [.publish table why] }

def advance : Offsets :=
  { s with lsm := s.lsm + 1, log := s.log ++ [.advance (s.lsm + 1)] }

def overflow : Offsets := { s with lsm := 0, wrapped := true }

def recordAll (s : Offsets) (table : KafkaOffsetTable Nat) :
    List (TopicPartition × Int64) → Offsets × KafkaOffsetTable Nat
  | [] => (s, table)
  | (key, offset) :: positions =>
    (s.allocate key offset).recordAll (table.recordPartition key s.cells.length) positions

def recordUnrecordedStarts (s : Offsets) (table : KafkaOffsetTable Nat) :
    List (TopicPartition × Int64) → Offsets × KafkaOffsetTable Nat × Bool
  | [] => (s, table, false)
  | (key, offset) :: positions =>
    if (table.slot key).isNone then
      let (s, table, _) := (s.allocate key offset).recordUnrecordedStarts
        (table.recordPartition key s.cells.length) positions
      (s, table, true)
    else s.recordUnrecordedStarts table positions

def restored : Option (Nat × KafkaOffsetSnapshot) → Offsets
  | none => {}
  | some (lsm, snapshot) =>
    let (s, table) := recordAll {} { appliedStartGeneration := snapshot.appliedStartGeneration }
      (snapshot.offsets.map fun e => (e.partitionKey, e.nextOffset))
    { s with table, lsm, log := [] }

end

end Offsets

structure CapturedKafkaOffsets where
  lsm : Nat
  table : KafkaOffsetTable Nat
  taken : Nat

structure Encoder extends CapturedKafkaOffsets where
  changed : Bool := false
  remaining : List (TopicPartition × Nat)
  entries : List KafkaOffsetEntrySnapshot := []

inductive Finish
  | commit (key : TopicPartition) (offset : Int64) (cell since stored : Nat)
  | released
  | started (table : KafkaOffsetTable Nat)

inductive Action
  -- `move_recorded_offset`, also as the beginning of `record_first_offset`
  | move (token : StateAssignmentToken) (first : Bool) (key : TopicPartition) (offset : Int64)
  | storeSlot (key : TopicPartition) (offset : Int64) (cell loaded : Nat)
  | unrecorded (token : StateAssignmentToken) (key : TopicPartition) (offset : Int64)
  | clone (key : TopicPartition) (offset : Int64)
  | committed (key : TopicPartition) (offset : Int64) (lsm cell since stored : Nat)
  -- `acknowledge_start_seed`
  | acknowledge (generation : Nat) (selection : IngestorUnitSelection)
  | acknowledged
  -- `apply_start_for`
  | start (application : KafkaStartApplication) (generation : Nat)
      (offsets : List (TopicPartition × Int64))
  | current (table : KafkaOffsetTable Nat)
  -- the ends of what changes the recorded partitions
  | publishing (table : KafkaOffsetTable Nat) (why : Publication) (finish : Finish)
  | advancing (finish : Finish)
  | overflowed
  -- `capture_after` and `latest_snapshot`
  | capture (afterLsm : Option Nat)
  | captureTable (lsm : Nat)
  | captured (captured : CapturedKafkaOffsets)
  | skipped
  | latest
  | latestTable (lsm : Nat)
  -- `encode`
  | encode (captured : CapturedKafkaOffsets) (changed : Bool)
  | encoding (encoder : Encoder)
  | encoded (lsm taken : Nat) (changed : Bool) (snapshot : KafkaOffsetSnapshot)

open Action

def KafkaOffsetTable.slots (table : KafkaOffsetTable Nat) : List (TopicPartition × Nat) :=
  table.topics.entries.map fun e => (e.1, e.2)

inductive EncodeStep (s : Offsets) : Action → Action → Prop
  | read : e.remaining = (key, cell) :: rest →
      EncodeStep s (encoding e) (encoding { e with
        remaining := rest
        entries := e.entries ++ [⟨key.1, key.2, s.load cell⟩] })
  | sort : e.remaining = [] →
      EncodeStep s (encoding e) (encoded e.lsm e.taken e.changed
        { appliedStartGeneration := e.table.appliedStartGeneration
          offsets := e.entries.mergeSort KafkaOffsetTable.entryLe
          format := KAFKA_OFFSET_FORMAT })

def Finish.published (since : Nat) : Finish → Finish
  | commit key offset cell _ stored => commit key offset cell since stored
  | finish => finish

def Finish.advanced (lsm now : Nat) : Finish → Action
  | commit key offset cell since stored => committed key offset lsm cell since stored
  | released => acknowledged
  | started table => encode ⟨lsm, table, now⟩ true

def KafkaOffsetTable.seeds (table : KafkaOffsetTable Nat) (count index : Nat) : Bool :=
  table.topics.entries.any fun e => owner count e.1.2 = index

def KafkaOffsetTable.release (table : KafkaOffsetTable Nat) (count index : Nat) :
    KafkaOffsetTable Nat :=
  { table with topics := table.topics.retain fun key => owner count key.2 ≠ index }

inductive Step (s : Offsets) : Action → Offsets → Action → Prop
  | found : s.table.slot key = some cell →
      Step s (move token first key offset) s (storeSlot key offset cell s.log.length)
  | unrecorded : s.table.slot key = none →
      Step s (move token false key offset) s (unrecorded token key offset)
  | first : s.table.slot key = none → Step s (move token true key offset) s (clone key offset)
  | store : Step s (storeSlot key offset cell loaded) (s.store key cell offset)
      (advancing (.commit key offset cell loaded s.log.length))
  | clone : Step s (clone key offset) (s.allocate key offset)
      (publishing (s.table.recordPartition key s.cells.length) .recorded
        (.commit key offset s.cells.length 0 s.log.length))
  | publish : Step s (publishing table why finish) (s.publish table why)
      (advancing (finish.published (s.log.length + 1)))
  | advance : s.lsm + 1 < 2 ^ 64 →
      Step s (advancing finish) s.advance (finish.advanced (s.lsm + 1) (s.log.length + 1))
  | overflow : ¬ s.lsm + 1 < 2 ^ 64 → Step s (advancing finish) s.overflow overflowed
  -- `acknowledge_start_seed`
  | notInstance : (∀ index, selection.unit ≠ .instanceOf index) →
      Step s (acknowledge requested selection) s acknowledged
  | notSeeded : selection.unit = .instanceOf index →
      (index = 0 ∨ selection.count ≤ index ∨ s.table.appliedStartGeneration ≠ some requested ∨
        s.table.seeds selection.count index = false) →
      Step s (acknowledge requested selection) s acknowledged
  | release : selection.unit = .instanceOf index → index ≠ 0 → index < selection.count →
      s.table.appliedStartGeneration = some requested →
      s.table.seeds selection.count index = true →
      Step s (acknowledge requested selection) s
        (publishing (s.table.release selection.count index)
          (.released selection.count index) .released)
  -- `apply_start_for`
  | older : s.table.appliedStartGeneration = some applied → requested < applied →
      Step s (start application requested offsets) s (current s.table)
  | same : s.table.appliedStartGeneration = some requested →
      (application = .canonical ∨ (s.recordUnrecordedStarts s.table offsets).2.2 = false) →
      Step s (start application requested offsets) s (current s.table)
  | extend : s.table.appliedStartGeneration = some requested →
      s.recordUnrecordedStarts s.table offsets = (s', table, true) →
      Step s (start .unit requested offsets) s' (publishing table .recorded (.started table))
  | restart : (∀ applied, s.table.appliedStartGeneration = some applied → applied < requested) →
      s.recordAll { appliedStartGeneration := some requested } offsets = (s', table) →
      Step s (start application requested offsets) s'
        (publishing table (.started requested) (.started table))
  | current : Step s (current table) s (encode ⟨s.lsm, table, s.log.length⟩ false)
  -- `capture_after` and `latest_snapshot`
  | skip : afterLsm = some lsm → s.lsm ≤ lsm → Step s (capture afterLsm) s skipped
  | capture : (∀ lsm, afterLsm = some lsm → lsm < s.lsm) →
      Step s (capture afterLsm) s (captureTable s.lsm)
  | captureTable : Step s (captureTable lsm) s (captured ⟨lsm, s.table, s.log.length⟩)
  | latest : Step s latest s (latestTable s.lsm)
  | latestTable : Step s (latestTable lsm) s (encode ⟨lsm, s.table, s.log.length⟩ false)
  -- `encode` under the barrier
  | iterate : remaining.Perm c.table.slots →
      Step s (encode c changed) s (encoding { toCapturedKafkaOffsets := c, changed, remaining })
  | encode : EncodeStep s a a' → Step s a s a'

inductive After (s : Offsets) : Action → Action → Prop
  | iterate : remaining.Perm c.table.slots →
      After s (captured c) (encoding { toCapturedKafkaOffsets := c, remaining })
  | encode : EncodeStep s a a' → After s a a'

def Action.Done : Action → Prop
  | unrecorded .. | committed .. | acknowledged | captured _ | skipped | encoded .. | overflowed =>
    True
  | _ => False

def Requested : Request Action → Prop
  | .rebind .. => True
  | .authorize token required a =>
    required = .originate ∧ ∃ key offset, a = move token false key offset
  | .authorizeExclusive _ required a => required = .originate ∧
    ((∃ generation selection, a = acknowledge generation selection) ∨
      ∃ application generation offsets, a = start application generation offsets)
  | .serializeWith f => (∃ afterLsm, f = fun _ => capture afterLsm) ∨ f = fun _ => latest

def Next : Action → Request Action → Prop
  | unrecorded token key offset, r =>
    r = .authorizeExclusive token .originate (move token true key offset)
  | _, _ => False

def client : Client Offsets Action where
  step := Step
  done := Action.Done
  request _ := Requested
  after := After
  next := Next

end Nervix.KafkaOffset
