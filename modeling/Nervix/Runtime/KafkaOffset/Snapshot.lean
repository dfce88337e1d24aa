import Nervix.Theory.FiniteMap

/-!
# Kafka offset checkpoints

The checkpoint of a Kafka ingestor records where each partition resumes and the explicit start its
positions belong to. A change of the number of ingestor units projects the checkpoint of every old
unit to every new one and merges what a new unit got.
-/

namespace Nervix.KafkaOffset

abbrev TopicPartition := String × Int32

structure KafkaOffsetEntrySnapshot where
  topic : String
  partition : Int32
  nextOffset : Int64
  deriving DecidableEq, Repr

def KafkaOffsetEntrySnapshot.partitionKey (e : KafkaOffsetEntrySnapshot) : TopicPartition :=
  (e.topic, e.partition)

structure KafkaOffsetSnapshot where
  appliedStartGeneration : Option Nat
  offsets : List KafkaOffsetEntrySnapshot
  format : String
  deriving DecidableEq, Repr

def KAFKA_OFFSET_FORMAT : String := "NervixKafkaState"

inductive KafkaOffsetCheckpointError
  | formatSignature
  | instanceSelection
  | foreignPartition (sourceIndex count : Nat) (topic : String) (partition : Int32)
  deriving DecidableEq, Repr

inductive RuntimePersistenceError
  | decodeState (cause : Option KafkaOffsetCheckpointError)
  | cancelled
  deriving DecidableEq, Repr

inductive Payload
  | archive (snapshot : KafkaOffsetSnapshot)
  | invalid
  deriving DecidableEq, Repr

def accessOffsetSnapshot : Payload → Except RuntimePersistenceError KafkaOffsetSnapshot
  | .archive snapshot =>
    if snapshot.format = KAFKA_OFFSET_FORMAT then .ok snapshot
    else .error (.decodeState (some .formatSignature))
  | .invalid => .error (.decodeState none)

structure KafkaOffsetTable (ρ : Type) where
  appliedStartGeneration : Option Nat := none
  topics : AList fun _ : TopicPartition => ρ := ∅

namespace KafkaOffsetTable
variable {ρ : Type}

def slot (table : KafkaOffsetTable ρ) (key : TopicPartition) : Option ρ := table.topics.lookup key

def recordPartition (table : KafkaOffsetTable ρ) (key : TopicPartition) (slot : ρ) :
    KafkaOffsetTable ρ :=
  { table with topics := table.topics.insert key slot }

def entryLe (left right : KafkaOffsetEntrySnapshot) : Bool :=
  left.topic < right.topic || left.topic = right.topic && left.partition ≤ right.partition

def encodeWith (table : KafkaOffsetTable ρ) (load : ρ → Int64) : KafkaOffsetSnapshot where
  appliedStartGeneration := table.appliedStartGeneration
  offsets := (table.topics.entries.map fun e => ⟨e.1.1, e.1.2, load e.2⟩).mergeSort entryLe
  format := KAFKA_OFFSET_FORMAT

def encode (table : KafkaOffsetTable Int64) : KafkaOffsetSnapshot := table.encodeWith id

end KafkaOffsetTable

inductive UnitKind
  | single
  | partition (index : UInt32)
  | instanceOf (index : Nat)
  deriving DecidableEq, Repr

structure IngestorUnitSelection where
  unit : UnitKind
  count : Nat
  deriving DecidableEq, Repr

def owner (count : Nat) (partition : Int32) : Nat := partition.toUInt32.toNat % count

def instanceIndex (unit : UnitKind) (count : Nat) : Except RuntimePersistenceError Nat :=
  match unit with
  | .instanceOf index =>
    if index < count then .ok index else .error (.decodeState (some .instanceSelection))
  | _ => .error (.decodeState (some .instanceSelection))

/-! Both loops below check for a cancellation before each entry. The number of checks that pass is
`cancellation`, or `none` if it never fires. -/

def projectEntries (count index : Nat) : Option Nat → List KafkaOffsetEntrySnapshot →
    Except RuntimePersistenceError (List KafkaOffsetEntrySnapshot)
  | _, [] => .ok []
  | some 0, _ :: _ => .error .cancelled
  | cancellation, e :: es => do
    let rest ← projectEntries count index (cancellation.map (· - 1)) es
    return if owner count e.partition = index then e :: rest else rest

def projectOffsetSnapshot (payload : Payload) (selection : IngestorUnitSelection)
    (cancellation : Option Nat) : Except RuntimePersistenceError Payload := do
  let index ← instanceIndex selection.unit selection.count
  let archived ← accessOffsetSnapshot payload
  let offsets ← projectEntries selection.count index cancellation archived.offsets
  return .archive
    { appliedStartGeneration := archived.appliedStartGeneration
      offsets
      format := KAFKA_OFFSET_FORMAT }

structure IngestorOffsetCheckpoint where
  unit : UnitKind
  payload : Payload

inductive SelectedPosition
  | pending (offset : Int64)
  | owned (offset : Int64)
  deriving DecidableEq, Repr

def SelectedPosition.offset : SelectedPosition → Int64
  | pending offset | owned offset => offset

abbrev Selected := AList fun _ : TopicPartition => SelectedPosition

def selectEntry (sourceCount sourceIndex : Nat) (selected : Selected)
    (e : KafkaOffsetEntrySnapshot) : Except RuntimePersistenceError Selected :=
  if sourceIndex = owner sourceCount e.partition then
    .ok (selected.insert e.partitionKey (.owned e.nextOffset))
  else if sourceIndex = 0 then
    match selected.lookup e.partitionKey with
    | some (.owned _) => .ok selected
    | _ => .ok (selected.insert e.partitionKey (.pending e.nextOffset))
  else
    .error (.decodeState (some (.foreignPartition sourceIndex sourceCount e.topic e.partition)))

def selectEntries (sourceCount sourceIndex : Nat) : Option Nat → Selected →
    List KafkaOffsetEntrySnapshot → Except RuntimePersistenceError (Option Nat × Selected)
  | cancellation, selected, [] => .ok (cancellation, selected)
  | some 0, _, _ :: _ => .error .cancelled
  | cancellation, selected, e :: es => do
    let selected ← selectEntry sourceCount sourceIndex selected e
    selectEntries sourceCount sourceIndex (cancellation.map (· - 1)) selected es

def selectCheckpoints (generation : Option Nat) (sourceCount : Nat) : Option Nat → Selected →
    List IngestorOffsetCheckpoint → Except RuntimePersistenceError Selected
  | _, selected, [] => .ok selected
  | cancellation, selected, checkpoint :: checkpoints => do
    let sourceIndex ← instanceIndex checkpoint.unit sourceCount
    let incoming ← accessOffsetSnapshot checkpoint.payload
    if incoming.appliedStartGeneration ≠ generation then
      selectCheckpoints generation sourceCount cancellation selected checkpoints
    else
      let (cancellation, selected) ←
        selectEntries sourceCount sourceIndex cancellation selected incoming.offsets
      selectCheckpoints generation sourceCount cancellation selected checkpoints

def maxGeneration (generations : List (Option Nat)) : Option Nat := generations.max?.join

def appliedStartGenerations (payloads : List IngestorOffsetCheckpoint) :
    Except RuntimePersistenceError (List (Option Nat)) :=
  payloads.mapM fun checkpoint =>
    (accessOffsetSnapshot checkpoint.payload).map (·.appliedStartGeneration)

def mergeOffsetSnapshots (payloads : List IngestorOffsetCheckpoint) (sourceCount : Nat)
    (cancellation : Option Nat) : Except RuntimePersistenceError Payload := do
  let generation := maxGeneration (← appliedStartGenerations payloads)
  let selected ← selectCheckpoints generation sourceCount cancellation ∅ payloads
  let table : KafkaOffsetTable Int64 :=
    selected.entries.foldl (fun table e => table.recordPartition e.1 e.2.offset)
      { appliedStartGeneration := generation }
  return .archive table.encode

end Nervix.KafkaOffset
