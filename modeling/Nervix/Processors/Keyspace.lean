import Nervix.Theory.ExpiryMap
import Nervix.Theory.System
import Nervix.Processors.KeyParts

/-!
# Deduplicator keyspaces

The keys that one deduplicator branch admitted within its `MAX TIME`, what the branch publishes of
them, and the keyspaces that are rebuilt from the published keys, directly or through a snapshot.
-/

namespace Nervix.Processors

open List

structure DeduplicatorKey where
  parts : RowKey

instance : BEq DeduplicatorKey := ⟨fun a b => decide (a.parts.ordinal = b.parts.ordinal)⟩

theorem DeduplicatorKey.beq_iff {a b : DeduplicatorKey} :
    (a == b) = true ↔ a.parts.ordinal = b.parts.ordinal := decide_eq_true_iff

instance : EquivBEq DeduplicatorKey where
  rfl := DeduplicatorKey.beq_iff.mpr rfl
  symm h := DeduplicatorKey.beq_iff.mpr (DeduplicatorKey.beq_iff.mp h).symm
  trans h h' :=
    DeduplicatorKey.beq_iff.mpr
      ((DeduplicatorKey.beq_iff.mp h).trans (DeduplicatorKey.beq_iff.mp h'))

structure PublishedDeduplicatorKey where
  key : DeduplicatorKey
  seenAt : Timestamp

structure PublishedGenerations (τ : Type) where
  revision : Nat
  value : τ
  liveDirty : Bool

namespace PublishedGenerations

variable {τ : Type}

def restored (revision : Nat) (value : τ) : PublishedGenerations τ := ⟨revision, value, false⟩

def markLiveDirty (g : PublishedGenerations τ) : PublishedGenerations τ :=
  { g with liveDirty := true }

def publish (g : PublishedGenerations τ) (value : τ) : PublishedGenerations τ :=
  ⟨g.revision + 1, value, false⟩

end PublishedGenerations

inductive DeduplicatorKeyPartSnapshot
  | null
  | boolean (value : Bool)
  | int64 (value : Int64)
  | uint64 (value : UInt64)
  | float64 (bits : UInt64)
  | utf8 (value : List UInt8)
  | bytes (value : List UInt8)
  | datetime (value : Int64)

structure DeduplicatorEntrySnapshot where
  key : List DeduplicatorKeyPartSnapshot
  seenAt : Timestamp

structure DeduplicatorSnapshot where
  entries : List DeduplicatorEntrySnapshot

def DeduplicatorKeyPartSnapshot.ofPart : ReorderKeyPart → DeduplicatorKeyPartSnapshot
  | .null => null
  | .boolean value => boolean value
  | .int64 value => int64 value
  | .uint64 value => uint64 value
  | .float64 value => float64 value.bits
  | .utf8 value => utf8 value
  | .bytes value => bytes value
  | .datetime value => datetime value

def DeduplicatorKeyPartSnapshot.toPart : DeduplicatorKeyPartSnapshot → ReorderKeyPart
  | null => .null
  | boolean value => .boolean value
  | int64 value => .int64 value
  | uint64 value => .uint64 value
  | float64 bits => .float64 ⟨bits⟩
  | utf8 value => .utf8 value
  | bytes value => .bytes value
  | datetime value => .datetime value

@[simp] theorem DeduplicatorKeyPartSnapshot.toPart_ofPart (part : ReorderKeyPart) :
    (ofPart part).toPart = part := by
  cases part <;> rfl

def DeduplicatorEntrySnapshot.ofPublished (p : PublishedDeduplicatorKey) :
    DeduplicatorEntrySnapshot :=
  ⟨p.key.parts.map DeduplicatorKeyPartSnapshot.ofPart, p.seenAt⟩

def DeduplicatorEntrySnapshot.toKey (e : DeduplicatorEntrySnapshot) : DeduplicatorKey :=
  ⟨e.key.map DeduplicatorKeyPartSnapshot.toPart⟩

structure SnapshotArchive where
  toBytes : DeduplicatorSnapshot → Option (List UInt8)
  fromBytes : List UInt8 → Option DeduplicatorSnapshot
  fromBytes_toBytes {s b} : toBytes s = some b → fromBytes b = some s

inductive RuntimePersistenceError
  | encodeState
  | invalidDeduplicatorSnapshotHeader
  | decodeState
  | duplicateDeduplicatorKey
deriving DecidableEq

def snapshotHeader : List UInt8 :=
  [0x4e, 0x45, 0x52, 0x56, 0x49, 0x58, 0x20, 0x44, 0x45, 0x44, 0x55, 0x50, 0x20, 0x4b, 0x45, 0x59]

def encodeDeduplicatorSnapshot (archive : SnapshotArchive) (keys : List PublishedDeduplicatorKey) :
    Except RuntimePersistenceError (List UInt8) :=
  match archive.toBytes ⟨keys.map .ofPublished⟩ with
  | none => .error .encodeState
  | some bytes => .ok (snapshotHeader ++ bytes)

def decodeEntries (recentKeys : ExpiryMap DeduplicatorKey Timestamp) :
    List DeduplicatorEntrySnapshot →
      Except RuntimePersistenceError (ExpiryMap DeduplicatorKey Timestamp)
  | [] => .ok recentKeys
  | entry :: entries =>
    let inserted := recentKeys.insert entry.toKey entry.seenAt
    if inserted.2 then decodeEntries inserted.1 entries else .error .duplicateDeduplicatorKey

def decodeDeduplicatorSnapshot (archive : SnapshotArchive) (payload : List UInt8) :
    Except RuntimePersistenceError (ExpiryMap DeduplicatorKey Timestamp) :=
  if payload.take snapshotHeader.length = snapshotHeader then
    match archive.fromBytes (payload.drop snapshotHeader.length) with
    | none => .error .decodeState
    | some snapshot => decodeEntries {} snapshot.entries
  else .error .invalidDeduplicatorSnapshotHeader

structure DeduplicatorKeyspace where
  generations : PublishedGenerations (List PublishedDeduplicatorKey)
  recentKeys : ExpiryMap DeduplicatorKey Timestamp

def publishedKeys (recentKeys : ExpiryMap DeduplicatorKey Timestamp) :
    List PublishedDeduplicatorKey :=
  recentKeys.entries.map fun e => ⟨e.1, e.2⟩

namespace DeduplicatorKeyspace

section
variable (k : DeduplicatorKeyspace)

def keyspace (generations : PublishedGenerations (List PublishedDeduplicatorKey)) :
    DeduplicatorKeyspace where
  generations := generations
  recentKeys := .ofEntries (generations.value.map fun p => (p.key, p.seenAt))

def pruneExpired (now : Timestamp) (maxTime : Nat) : DeduplicatorKeyspace :=
  { k with
    recentKeys := k.recentKeys.removeOldestWhile fun seenAt =>
      decide (checkedAddDurationToTimestamp seenAt maxTime ≤ now) }

def reserveNewKey (key : DeduplicatorKey) (seenAt : Timestamp)
    (maxTime : Nat) : DeduplicatorKeyspace × Bool :=
  let k := k.pruneExpired seenAt maxTime
  let inserted := k.recentKeys.insert key seenAt
  if inserted.2 then (⟨k.generations.markLiveDirty, inserted.1⟩, true) else (k, false)

def removeReservedKeys (keys : List DeduplicatorKey) : DeduplicatorKeyspace :=
  if keys.isEmpty then k
  else ⟨k.generations.markLiveDirty, keys.foldl ExpiryMap.remove k.recentKeys⟩

def publish : DeduplicatorKeyspace :=
  if k.generations.liveDirty then
    { k with generations := k.generations.publish (publishedKeys k.recentKeys) }
  else k

def rebuild : DeduplicatorKeyspace := keyspace k.generations

def restore (archive : SnapshotArchive) (k : DeduplicatorKeyspace) :
    Except RuntimePersistenceError DeduplicatorKeyspace := do
  let payload ← encodeDeduplicatorSnapshot archive k.generations.value
  let recentKeys ← decodeDeduplicatorSnapshot archive payload
  return keyspace (.restored k.generations.revision (publishedKeys recentKeys))

def empty : DeduplicatorKeyspace := keyspace (.restored 0 [])

end

variable {k k' : DeduplicatorKeyspace} {key : DeduplicatorKey} {seenAt now : Timestamp}
  {maxTime : Nat}

structure Timely (entries : List (DeduplicatorKey × Timestamp)) (now : Timestamp) : Prop where
  sorted : entries.Pairwise fun a b => a.2 ≤ b.2
  seen : ∀ e ∈ entries, e.2 ≤ now

def alive (entries : List (DeduplicatorKey × Timestamp)) (now : Timestamp) (maxTime : Nat) :
    List (DeduplicatorKey × Timestamp) :=
  entries.filter fun e => decide (now < checkedAddDurationToTimestamp e.2 maxTime)

variable {entries : List (DeduplicatorKey × Timestamp)}

theorem mem_alive :
    e ∈ alive entries now maxTime ↔
      e ∈ entries ∧ now < checkedAddDurationToTimestamp e.2 maxTime := by
  simp [alive]

theorem alive_alive (hnow : now ≤ now') (hmax : maxTime' ≤ maxTime) :
    alive (alive entries now maxTime) now' maxTime' = alive entries now' maxTime' := by
  rw [alive, alive, filter_filter]
  refine filter_congr fun e _ => ?_
  have hle := checkedAddDurationToTimestamp_mono (le_refl e.2) hmax
  rw [Bool.and_eq_left_iff_imp]
  intro h
  exact decide_eq_true (lt_of_le_of_lt hnow (lt_of_lt_of_le (of_decide_eq_true h) hle))

theorem Timely.mono (h : Timely entries now) (hnow : now ≤ now') : Timely entries now' :=
  ⟨h.sorted, fun e he => (h.seen e he).trans hnow⟩

theorem Timely.sublist
    (h : Timely entries now) (hsub : entries'.Sublist entries) : Timely entries' now :=
  ⟨h.sorted.sublist hsub, fun e he => h.seen e (hsub.subset he)⟩

theorem Timely.concat (h : Timely entries now)
    (key : DeduplicatorKey) : Timely (entries ++ [(key, now)]) now := by
  refine ⟨pairwise_append.mpr ⟨h.sorted, pairwise_singleton _ _, ?_⟩, ?_⟩
  · intro a ha b hb
    obtain rfl := mem_singleton.mp hb
    exact h.seen a ha
  · intro e he
    rcases mem_append.mp he with he | he
    · exact h.seen e he
    · obtain rfl := mem_singleton.mp he
      exact le_refl _

theorem reserveNewKey_cases (h : Timely k.recentKeys.entries now) (key : DeduplicatorKey)
    (seenAt : Timestamp) (maxTime : Nat) :
    let entries := alive k.recentKeys.entries seenAt maxTime
    let r := k.reserveNewKey key seenAt maxTime
    (entries.any (fun e => e.1 == key) = true ∧ r.2 = false ∧
      r.1.generations = k.generations ∧ r.1.recentKeys.entries = entries) ∨
    (entries.any (fun e => e.1 == key) = false ∧ r.2 = true ∧
      r.1.generations = k.generations.markLiveDirty ∧
      r.1.recentKeys.entries = entries ++ [(key, seenAt)]) := by
  intro entries r
  have hentries : (k.pruneExpired seenAt maxTime).recentKeys.entries = entries := by
    refine (dropWhile_eq_filter ?_).trans ?_
    rotate_left
    · refine filter_congr fun e _ => ?_
      rw [← decide_not]
      exact decide_eq_decide.mpr not_le
    · refine h.sorted.imp fun {a b} hab hb => ?_
      exact decide_eq_true
        ((checkedAddDurationToTimestamp_mono hab (le_refl maxTime)).trans (of_decide_eq_true hb))
  have hany : (k.pruneExpired seenAt maxTime).recentKeys.contains key =
      entries.any fun e => e.1 == key := by
    rw [ExpiryMap.contains, hentries]
  cases hc : (k.pruneExpired seenAt maxTime).recentKeys.contains key with
  | true =>
    have hr : r = (k.pruneExpired seenAt maxTime, false) := by
      simp only [r, reserveNewKey, ExpiryMap.insert_of_contains hc, Bool.false_eq_true, if_false]
    rw [hr]
    exact .inl ⟨hany.symm.trans hc, rfl, rfl, hentries⟩
  | false =>
    have hinserted := ExpiryMap.entries_insert (v := seenAt) hc
    have hsnd : ((k.pruneExpired seenAt maxTime).recentKeys.insert key seenAt).2 = true := by
      rw [ExpiryMap.insert_snd, hc]
      rfl
    have hr : r = (⟨(k.pruneExpired seenAt maxTime).generations.markLiveDirty,
        ((k.pruneExpired seenAt maxTime).recentKeys.insert key seenAt).1⟩, true) := by
      simp only [r, reserveNewKey, hsnd, if_true]
    rw [hr]
    exact .inr ⟨hany.symm.trans hc, rfl, rfl, by rw [hinserted, hentries]⟩

theorem entries_removeReservedKeys (keys : List DeduplicatorKey) :
    (k.removeReservedKeys keys).recentKeys.entries =
      k.recentKeys.entries.filter fun e => !keys.any fun key => e.1 == key := by
  rw [removeReservedKeys]
  split
  case isTrue h =>
    rw [isEmpty_iff.mp h]
    simp
  case isFalse =>
    generalize k.recentKeys = m
    clear * -
    induction keys generalizing m with
    | nil => simp
    | cons key keys ih =>
      rw [foldl_cons, ih, ExpiryMap.remove, filter_filter]
      refine filter_congr fun e _ => ?_
      rw [any_cons, Bool.not_or, Bool.and_comm]

def published (k : DeduplicatorKeyspace) : List (DeduplicatorKey × Timestamp) :=
  k.generations.value.map fun p => (p.key, p.seenAt)

theorem map_publishedKeys (m : ExpiryMap DeduplicatorKey Timestamp) :
    (publishedKeys m).map (fun p => (p.key, p.seenAt)) = m.entries := by
  simp [publishedKeys, Function.comp_def]

theorem entries_rebuild (h : k.published.Pairwise fun a b => (a.1 == b.1) = false) :
    k.rebuild.recentKeys.entries = k.published :=
  ExpiryMap.entries_ofEntries h

theorem decodeEntries_eq_ok (entries : List DeduplicatorEntrySnapshot)
    (h : (m.entries ++ entries.map fun e => (e.toKey, e.seenAt)).Pairwise
      fun a b => (a.1 == b.1) = false) :
    ∃ m', decodeEntries m entries = .ok m' ∧
      m'.entries = m.entries ++ entries.map fun e => (e.toKey, e.seenAt) := by
  induction entries generalizing m with
  | nil => exact ⟨m, rfl, by simp⟩
  | cons entry entries ih =>
    have hnew : m.contains entry.toKey = false := by
      rw [Bool.eq_false_iff]
      intro hc
      obtain ⟨a, ha, hk⟩ := ExpiryMap.contains_iff.mp hc
      have := (pairwise_append.mp h).2.2 a ha _ mem_cons_self
      simp [hk] at this
    have hentries := ExpiryMap.entries_insert (v := entry.seenAt) hnew
    obtain ⟨m', hm', he⟩ := ih (m := (m.insert entry.toKey entry.seenAt).1)
      (by rw [hentries]; simpa using h)
    refine ⟨m', ?_, by rw [he, hentries]; simp⟩
    rw [decodeEntries]
    simp only [ExpiryMap.insert_snd, hnew, Bool.not_false, if_true]
    exact hm'

theorem restore_cases (archive : SnapshotArchive)
    (h : k.published.Pairwise fun a b => (a.1 == b.1) = false) :
    (archive.toBytes ⟨k.generations.value.map .ofPublished⟩ = none ∧
      k.restore archive = .error .encodeState) ∨
    ∃ k', k.restore archive = .ok k' ∧ k'.generations.liveDirty = false ∧
      k'.published = k.published ∧ k'.recentKeys.entries = k.published := by
  cases hbytes : archive.toBytes ⟨k.generations.value.map .ofPublished⟩ with
  | none =>
    refine .inl ⟨rfl, ?_⟩
    simp [restore, encodeDeduplicatorSnapshot, hbytes, Bind.bind, Except.bind]
  | some bytes =>
    have hmap : (k.generations.value.map DeduplicatorEntrySnapshot.ofPublished).map
        (fun e => (e.toKey, e.seenAt)) = k.published := by
      simp [published, Function.comp_def, DeduplicatorEntrySnapshot.ofPublished,
        DeduplicatorEntrySnapshot.toKey]
    obtain ⟨m, hm, he⟩ := decodeEntries_eq_ok (m := {})
      (k.generations.value.map .ofPublished) (by simpa [hmap] using h)
    have hdecode : decodeDeduplicatorSnapshot archive (snapshotHeader ++ bytes) = .ok m := by
      simp [decodeDeduplicatorSnapshot, archive.fromBytes_toBytes hbytes, hm]
    have hentries : m.entries = k.published := by rw [he, hmap]; rfl
    refine .inr ⟨keyspace (.restored k.generations.revision (publishedKeys m)), ?_, rfl, ?_, ?_⟩
    · simp [restore, encodeDeduplicatorSnapshot, hbytes, hdecode, Bind.bind, Except.bind, pure,
        Except.pure]
    · exact (map_publishedKeys m).trans hentries
    · rw [keyspace]
      simp only [PublishedGenerations.restored, map_publishedKeys, ExpiryMap.ofEntries_entries]
      exact hentries

inductive Use
  | reserve (key : DeduplicatorKey) (seenAt : Timestamp) (maxTime : Nat)
  | remove (keys : List DeduplicatorKey)

inductive Call
  | use (u : Use)
  | publish
  | rebuild
  | restore (archive : SnapshotArchive)

def use (k : DeduplicatorKeyspace) : Use → DeduplicatorKeyspace
  | .reserve key seenAt maxTime => (k.reserveNewKey key seenAt maxTime).1
  | .remove keys => k.removeReservedKeys keys

def call (k : DeduplicatorKeyspace) : Call → DeduplicatorKeyspace
  | .use u => k.use u
  | .publish => k.publish
  | .rebuild => k.rebuild
  | .restore archive => (k.restore archive).toOption.getD k

def answers (k : DeduplicatorKeyspace) : List Use → List Bool
  | [] => []
  | .reserve key seenAt maxTime :: us =>
    (k.reserveNewKey key seenAt maxTime).2 :: (k.use (.reserve key seenAt maxTime)).answers us
  | .remove keys :: us => (k.use (.remove keys)).answers us

structure Ledger where
  retained : List (DeduplicatorKey × Timestamp) := []
  published : List (DeduplicatorKey × Timestamp) := []
  changed : Bool := false

def Ledger.record (l : Ledger) : Call → Ledger
  | .use (.reserve key seenAt maxTime) =>
    let retained := alive l.retained seenAt maxTime
    if retained.any fun e => e.1 == key then { l with retained }
    else { l with retained := retained ++ [(key, seenAt)], changed := true }
  | .use (.remove keys) =>
    if keys.isEmpty then l
    else
      { l with
        retained := l.retained.filter fun e => !keys.any fun key => e.1 == key
        changed := true }
  | .publish => if l.changed then { l with published := l.retained, changed := false } else l
  | .rebuild => { l with retained := l.published }
  | .restore _ => { l with retained := l.published, changed := false }

def Ledger.of : List Call → Ledger
  | [] => {}
  | c :: calls => (Ledger.of calls).record c

structure Moment where
  keyspace : DeduplicatorKeyspace
  original : DeduplicatorKeyspace
  now : Timestamp
  calls : List Call

def Moment.start (now : Timestamp) : Moment := ⟨empty, empty, now, []⟩

def Moment.next (m : Moment) (c : Call) : Moment where
  keyspace := m.keyspace.call c
  original :=
    match c with
    | .publish => if m.keyspace.generations.liveDirty then m.keyspace else m.original
    | _ => m.original
  now :=
    match c with
    | .use (.reserve _ seenAt _) => seenAt
    | _ => m.now
  calls := c :: m.calls

def keyspaces : System Moment Call where
  guard m
    | .use (.reserve _ seenAt _) => m.now ≤ seenAt
    | .restore archive => ∃ k, m.keyspace.restore archive = .ok k
    | _ => True
  next := Moment.next

structure Moment.Sound (m : Moment) : Prop where
  timely : Timely m.keyspace.recentKeys.entries m.now
  timelyPublished : Timely m.keyspace.published m.now
  distinct : m.keyspace.published.Pairwise fun a b => (a.1 == b.1) = false
  ledger : Ledger.of m.calls = ⟨m.keyspace.recentKeys.entries, m.keyspace.published,
    m.keyspace.generations.liveDirty⟩
  original : m.original.recentKeys.entries = m.keyspace.published

theorem Moment.Sound.start (now : Timestamp) : (Moment.start now).Sound where
  timely := ⟨.nil, by nofun⟩
  timelyPublished := ⟨.nil, by nofun⟩
  distinct := .nil
  ledger := rfl
  original := rfl

theorem published_eq_of_value (h : k'.generations.value = k.generations.value) :
    k'.published = k.published := by
  rw [published, published, h]

variable {m : Moment}

section
variable (h : m.Sound)
include h

theorem Moment.Sound.reserve (hnow : m.now ≤ seenAt) :
    (m.next (.use (.reserve key seenAt maxTime))).Sound := by
  have halive : Timely (alive m.keyspace.recentKeys.entries seenAt maxTime) seenAt :=
    (h.timely.mono hnow).sublist filter_sublist
  rcases reserveNewKey_cases h.timely key seenAt maxTime with
    ⟨hany, -, hg, he⟩ | ⟨hany, -, hg, he⟩
  · have hp := published_eq_of_value (congrArg PublishedGenerations.value hg)
    refine ⟨?_, ?_, ?_, ?_, h.original.trans hp.symm⟩
    · exact he ▸ halive
    · exact hp ▸ h.timelyPublished.mono hnow
    · exact hp ▸ h.distinct
    · change (Ledger.of m.calls).record _ = Ledger.mk (reserveNewKey _ _ _ _).1.recentKeys.entries
        (reserveNewKey _ _ _ _).1.published (reserveNewKey _ _ _ _).1.generations.liveDirty
      rw [h.ledger, he, hp, hg]
      simp only [Ledger.record, hany, if_true]
  · have hp := published_eq_of_value
      ((congrArg PublishedGenerations.value hg).trans (rfl : _ = m.keyspace.generations.value))
    refine ⟨?_, ?_, ?_, ?_, h.original.trans hp.symm⟩
    · exact he ▸ halive.concat key
    · exact hp ▸ h.timelyPublished.mono hnow
    · exact hp ▸ h.distinct
    · change (Ledger.of m.calls).record _ = Ledger.mk (reserveNewKey _ _ _ _).1.recentKeys.entries
        (reserveNewKey _ _ _ _).1.published (reserveNewKey _ _ _ _).1.generations.liveDirty
      rw [h.ledger, he, hp, hg]
      simp only [Ledger.record, hany, Bool.false_eq_true, if_false]
      rfl

theorem Moment.Sound.remove (keys : List DeduplicatorKey) :
    (m.next (.use (.remove keys))).Sound := by
  have hg : (m.keyspace.removeReservedKeys keys).generations.value =
      m.keyspace.generations.value := by
    rw [removeReservedKeys]
    split <;> rfl
  have hp := published_eq_of_value hg
  have he := entries_removeReservedKeys (k := m.keyspace) keys
  refine ⟨?_, ?_, ?_, ?_, h.original.trans hp.symm⟩
  · exact he ▸ h.timely.sublist filter_sublist
  · exact hp ▸ h.timelyPublished
  · exact hp ▸ h.distinct
  · change (Ledger.of m.calls).record _ = Ledger.mk (removeReservedKeys _ _).recentKeys.entries
      (removeReservedKeys _ _).published (removeReservedKeys _ _).generations.liveDirty
    rw [h.ledger, he, hp, Ledger.record, removeReservedKeys]
    split
    case isTrue hk =>
      rw [isEmpty_iff.mp hk]
      simp
    case isFalse => rfl

theorem Moment.Sound.publish : (m.next .publish).Sound := by
  cases hd : m.keyspace.generations.liveDirty with
  | false =>
    have hk : m.keyspace.publish = m.keyspace := by simp [DeduplicatorKeyspace.publish, hd]
    have hm : (m.next .publish).keyspace = m.keyspace := hk
    have ho : (m.next .publish).original = m.original := by simp [Moment.next, hd]
    refine ⟨?_, ?_, ?_, ?_, ?_⟩
    · exact hm ▸ h.timely
    · exact hm ▸ h.timelyPublished
    · exact hm ▸ h.distinct
    · change (Ledger.of m.calls).record .publish = _
      rw [hm, h.ledger, Ledger.record, hd]
      simp
    · rw [ho, hm, h.original]
  | true =>
    have hp : m.keyspace.publish.published = m.keyspace.recentKeys.entries := by
      simp only [DeduplicatorKeyspace.publish, hd, if_true]
      exact map_publishedKeys _
    have he : m.keyspace.publish.recentKeys = m.keyspace.recentKeys := by
      simp [DeduplicatorKeyspace.publish, hd]
    have hm : (m.next .publish).keyspace = m.keyspace.publish := rfl
    have ho : (m.next .publish).original = m.keyspace := by simp [Moment.next, hd]
    refine ⟨?_, ?_, ?_, ?_, ?_⟩
    · rw [hm, he]
      exact h.timely
    · rw [hm, hp]
      exact h.timely
    · rw [hm, hp]
      exact m.keyspace.recentKeys.distinct
    · change (Ledger.of m.calls).record .publish = _
      rw [hm, hp, he, h.ledger, Ledger.record, hd]
      simp [DeduplicatorKeyspace.publish, hd, PublishedGenerations.publish]
    · rw [ho, hm, hp]

theorem Moment.Sound.rebuild : (m.next .rebuild).Sound := by
  have he : m.keyspace.rebuild.recentKeys.entries = m.keyspace.published :=
    entries_rebuild h.distinct
  refine ⟨?_, h.timelyPublished, h.distinct, ?_, h.original⟩
  · exact he ▸ h.timelyPublished
  · change (Ledger.of m.calls).record .rebuild = _
    rw [h.ledger]
    exact congrArg (fun es => Ledger.mk es _ _) he.symm

theorem Moment.Sound.restore
    (hok : ∃ k, m.keyspace.restore archive = .ok k) : (m.next (.restore archive)).Sound := by
  rcases restore_cases archive h.distinct with ⟨-, herr⟩ | ⟨k, hk, hd, hp, he⟩
  · obtain ⟨k, hk⟩ := hok
    rw [herr] at hk
    cases hk
  · have hm : (m.next (.restore archive)).keyspace = k := by
      simp [Moment.next, call, hk, Except.toOption]
    refine ⟨?_, ?_, ?_, ?_, ?_⟩
    · rw [hm, he]
      exact h.timelyPublished
    · rw [hm, hp]
      exact h.timelyPublished
    · rw [hm, hp]
      exact h.distinct
    · change (Ledger.of m.calls).record (.restore archive) = _
      rw [hm, h.ledger, he, hp, hd]
      rfl
    · rw [hm, hp]
      exact h.original

theorem Moment.Sound.next (hg : keyspaces.guard m c) : (m.next c).Sound := by
  cases c with
  | use u =>
    cases u with
    | reserve key seenAt maxTime => exact h.reserve hg
    | remove keys => exact h.remove keys
  | publish => exact h.publish
  | rebuild => exact h.rebuild
  | restore archive => exact h.restore hg

end

theorem sound_of_run (h : keyspaces.Run (.start now) m) : m.Sound :=
  h.inv (.start now) fun hm hg => hm.next hg

theorem answers_congr (h : k.recentKeys = k'.recentKeys) (us : List Use) :
    k.answers us = k'.answers us := by
  induction us generalizing k k' with
  | nil => rfl
  | cons u us ih =>
    have hprune (now : Timestamp) (maxTime : Nat) :
        (k.pruneExpired now maxTime).recentKeys = (k'.pruneExpired now maxTime).recentKeys := by
      rw [pruneExpired, pruneExpired, h]
    cases u with
    | reserve key seenAt maxTime =>
      have hr : (k.reserveNewKey key seenAt maxTime).2 = (k'.reserveNewKey key seenAt maxTime).2 ∧
          (k.reserveNewKey key seenAt maxTime).1.recentKeys =
            (k'.reserveNewKey key seenAt maxTime).1.recentKeys := by
        simp only [reserveNewKey, hprune]
        split <;> exact ⟨rfl, by simp only [hprune]⟩
      exact congrArg₂ List.cons hr.1 (ih hr.2)
    | remove keys =>
      refine ih (ExpiryMap.ext ?_)
      simp only [use, entries_removeReservedKeys, h]

def Within (maxTime : Nat) : Timestamp → List Use → Prop
  | _, [] => True
  | now, .reserve _ seenAt maxTime' :: us => now ≤ seenAt ∧ maxTime' ≤ maxTime ∧
      Within maxTime seenAt us
  | now, .remove _ :: us => Within maxTime now us

theorem answers_eq_of_alive (ht : Timely k.recentKeys.entries now)
    (ht' : Timely k'.recentKeys.entries now)
    (h : alive k.recentKeys.entries now maxTime = alive k'.recentKeys.entries now maxTime) (hus : Within maxTime now us) : k.answers us = k'.answers us := by
  induction us generalizing k k' with
  | nil => rfl
  | cons u us ih =>
    cases u with
    | reserve key seenAt maxTime' =>
      obtain ⟨hnow, hmax, -⟩ := hus
      have heq : alive k.recentKeys.entries seenAt maxTime' =
          alive k'.recentKeys.entries seenAt maxTime' := by
        rw [← alive_alive hnow hmax, h, alive_alive hnow hmax]
      have hc := reserveNewKey_cases ht key seenAt maxTime'
      have hc' := reserveNewKey_cases ht' key seenAt maxTime'
      simp only [heq] at hc
      -- Once both have pruned, the keyspaces hold the same keys.
      have hsame : (k.reserveNewKey key seenAt maxTime').2 =
            (k'.reserveNewKey key seenAt maxTime').2 ∧
          (k.reserveNewKey key seenAt maxTime').1.recentKeys.entries =
            (k'.reserveNewKey key seenAt maxTime').1.recentKeys.entries := by
        rcases hc with ⟨hany, ha, -, he⟩ | ⟨hany, ha, -, he⟩ <;>
          rcases hc' with ⟨hany', ha', -, he'⟩ | ⟨hany', ha', -, he'⟩
        · exact ⟨ha.trans ha'.symm, he.trans he'.symm⟩
        · rw [hany] at hany'
          cases hany'
        · rw [hany] at hany'
          cases hany'
        · exact ⟨ha.trans ha'.symm, he.trans he'.symm⟩
      exact congrArg₂ List.cons hsame.1 (answers_congr (ExpiryMap.ext hsame.2) us)
    | remove keys =>
      refine ih ?_ ?_ ?_ hus
      · exact entries_removeReservedKeys (k := k) keys ▸ ht.sublist filter_sublist
      · exact entries_removeReservedKeys (k := k') keys ▸ ht'.sublist filter_sublist
      · simp only [use, entries_removeReservedKeys]
        simp only [alive, filter_filter] at h ⊢
        simp only [Bool.and_comm (decide _)]
        rw [← filter_filter, ← filter_filter]
        exact congrArg _ h

def AtLeast (maxTime : Nat) (calls : List Call) : Prop :=
  ∀ key seenAt maxTime', .use (.reserve key seenAt maxTime') ∈ calls → maxTime ≤ maxTime'

theorem alive_published (maxTime : Nat) (hrun : keyspaces.Run (.start start) m)
    (hcalls : AtLeast maxTime m.calls) (hclean : m.keyspace.generations.liveDirty = false) :
    alive m.keyspace.published m.now maxTime =
      alive m.keyspace.recentKeys.entries m.now maxTime := by
  induction hrun with
  | refl => rfl
  | @tail m c hrun hg ih =>
    have hsound := sound_of_run hrun
    replace ih := ih fun key seenAt maxTime' hmem => hcalls key seenAt maxTime'
      (mem_cons_of_mem _ hmem)
    cases c with
    | use u =>
      cases u with
      | reserve key seenAt maxTime' =>
        have hmax : maxTime ≤ maxTime' := hcalls key seenAt maxTime' mem_cons_self
        rcases reserveNewKey_cases hsound.timely key seenAt maxTime' with
          ⟨-, -, hgen, he⟩ | ⟨-, -, hgen, -⟩
        · have hclean' : m.keyspace.generations.liveDirty = false :=
            (congrArg PublishedGenerations.liveDirty hgen).symm.trans hclean
          have hp := published_eq_of_value (congrArg PublishedGenerations.value hgen)
          change alive (reserveNewKey _ _ _ _).1.published seenAt maxTime =
            alive (reserveNewKey _ _ _ _).1.recentKeys.entries seenAt maxTime
          rw [he, hp, alive_alive (le_refl seenAt) hmax, ← alive_alive hg (le_refl maxTime),
            ih hclean', alive_alive hg (le_refl maxTime)]
        · have hdirty : (m.keyspace.reserveNewKey key seenAt maxTime').1.generations.liveDirty =
              true := by
            rw [hgen]
            rfl
          exact absurd (hdirty.symm.trans hclean) (by simp)
      | remove keys =>
        change (m.keyspace.removeReservedKeys keys).generations.liveDirty = false at hclean
        change alive (m.keyspace.removeReservedKeys keys).published m.now maxTime =
          alive (m.keyspace.removeReservedKeys keys).recentKeys.entries m.now maxTime
        rw [removeReservedKeys] at hclean ⊢
        split at hclean
        case isTrue hk =>
          rw [if_pos hk]
          exact ih hclean
        case isFalse => cases hclean
    | publish =>
      cases hd : m.keyspace.generations.liveDirty with
      | false =>
        have hk : m.keyspace.publish = m.keyspace := by simp [publish, hd]
        change alive m.keyspace.publish.published m.now maxTime =
          alive m.keyspace.publish.recentKeys.entries m.now maxTime
        rw [hk]
        exact ih hd
      | true =>
        have hp : m.keyspace.publish.published = m.keyspace.publish.recentKeys.entries := by
          simp only [publish, hd, if_true]
          exact map_publishedKeys _
        exact congrArg (fun es => alive es m.now maxTime) hp
    | rebuild =>
      exact congrArg (fun es => alive es m.now maxTime) (entries_rebuild hsound.distinct).symm
    | restore archive =>
      rcases restore_cases archive hsound.distinct with ⟨-, herr⟩ | ⟨k, hk, -, hp, he⟩
      · obtain ⟨k, hk⟩ := hg
        rw [herr] at hk
        cases hk
      · have hm : (m.next (.restore archive)).keyspace = k := by
          simp [Moment.next, call, hk, Except.toOption]
        change alive (m.next (.restore archive)).keyspace.published m.now maxTime =
          alive (m.next (.restore archive)).keyspace.recentKeys.entries m.now maxTime
        rw [hm, hp, he]

theorem publish_clean : k.publish.generations.liveDirty = false := by
  rw [publish]
  split
  case isTrue => rfl
  case isFalse h => simpa using h

/-- **Deduplication window.** In every run a row is new exactly if no reservation of an equal key
that the calls so far retain is within its time; a duplicate leaves the reservation it repeats as
it was; a keyspace rebuilt from the published keys, or restored from a snapshot of them, answers
as the keyspace did that published them; and when publishing finds nothing to publish, the rebuilt
keyspace still answers as the present one, unless reservations are asked for under a longer time
than before. -/
theorem window_law {start : Timestamp} (hrun : keyspaces.Run (.start start) m) :
    (∀ key seenAt maxTime, m.now ≤ seenAt →
      ((m.keyspace.reserveNewKey key seenAt maxTime).2 = true ↔
        ¬∃ e ∈ (Ledger.of m.calls).retained, (e.1 == key) = true ∧
          seenAt < checkedAddDurationToTimestamp e.2 maxTime)) ∧
    (∀ key seenAt maxTime, m.now ≤ seenAt →
      (m.keyspace.reserveNewKey key seenAt maxTime).2 = false →
        ∃ e ∈ (Ledger.of m.calls).retained, ∀ e',
          (e' ∈ (m.keyspace.reserveNewKey key seenAt maxTime).1.recentKeys.entries ∧
            (e'.1 == key) = true ↔ e' = e)) ∧
    (∀ us, m.keyspace.rebuild.answers us = m.original.answers us) ∧
    (∀ archive, archive.toBytes ⟨m.keyspace.generations.value.map .ofPublished⟩ ≠ none →
      ∃ k, m.keyspace.restore archive = .ok k ∧ ∀ us, k.answers us = m.original.answers us) ∧
    (∀ maxTime us, AtLeast maxTime m.calls → Within maxTime m.now us →
      m.keyspace.publish.rebuild.answers us = m.keyspace.answers us) := by
  have hsound := sound_of_run hrun
  have hretained : (Ledger.of m.calls).retained = m.keyspace.recentKeys.entries := by
    rw [hsound.ledger]
  have hcount (key : DeduplicatorKey) (seenAt : Timestamp) (maxTime : Nat) :
      ((alive m.keyspace.recentKeys.entries seenAt maxTime).any fun e => e.1 == key) = true ↔
        ∃ e ∈ m.keyspace.recentKeys.entries, (e.1 == key) = true ∧
          seenAt < checkedAddDurationToTimestamp e.2 maxTime := by
    simp only [any_eq_true, mem_alive]
    exact ⟨fun ⟨e, ⟨he, hlt⟩, hk⟩ => ⟨e, he, hk, hlt⟩, fun ⟨e, he, hk, hlt⟩ => ⟨e, ⟨he, hlt⟩, hk⟩⟩
  rw [hretained]
  refine ⟨?_, ?_, ?_, ?_, ?_⟩
  · intro key seenAt maxTime _
    rw [← hcount]
    rcases reserveNewKey_cases hsound.timely key seenAt maxTime with
      ⟨hany, ha, -⟩ | ⟨hany, ha, -⟩
    · simp [hany, ha]
    · simp [hany, ha]
  · intro key seenAt maxTime _ hfalse
    rcases reserveNewKey_cases hsound.timely key seenAt maxTime with
      ⟨hany, -, -, he⟩ | ⟨-, ha, -⟩
    · obtain ⟨e, hmem, hk⟩ := any_eq_true.mp hany
      refine ⟨e, (mem_alive.mp hmem).1, fun e' => ⟨fun ⟨hmem', hk'⟩ => ?_, ?_⟩⟩
      · exact ExpiryMap.eq_of_mem (mem_alive.mp (he ▸ hmem')).1 (mem_alive.mp hmem).1
          (BEq.trans hk' (BEq.symm hk))
      · rintro rfl
        exact ⟨he ▸ hmem, hk⟩
    · rw [ha] at hfalse
      cases hfalse
  · exact fun us => answers_congr
      (ExpiryMap.ext ((entries_rebuild hsound.distinct).trans hsound.original.symm)) us
  · intro archive hbytes
    rcases restore_cases archive hsound.distinct with ⟨hnone, -⟩ | ⟨k, hk, -, -, he⟩
    · exact absurd hnone hbytes
    · exact ⟨k, hk, answers_congr (ExpiryMap.ext (he.trans hsound.original.symm))⟩
  · intro maxTime us hcalls hus
    have hpublished : keyspaces.Run (.start start) (m.next .publish) :=
      hrun.tail (i := Call.publish) trivial
    have hsound' := sound_of_run hpublished
    have hentries := entries_rebuild hsound'.distinct
    have halive := alive_published maxTime hpublished
      (fun key seenAt maxTime' hmem => by
        rcases mem_cons.mp hmem with h | h
        · cases h
        · exact hcalls key seenAt maxTime' h) publish_clean
    have hsame : m.keyspace.publish.recentKeys = m.keyspace.recentKeys := by
      rw [publish]
      split <;> rfl
    rw [← answers_congr hsame]
    refine answers_eq_of_alive ?_ hsound'.timely ?_ hus
    · exact hentries ▸ hsound'.timelyPublished
    · exact (congrArg (fun es => alive es m.now maxTime) hentries).trans halive

def reservedOnce : List Call :=
  [.use (.reserve ⟨[.int64 7]⟩ 10 10), .publish, .rebuild]

theorem reservedOnce_window : let m := reservedOnce.foldl keyspaces.next (.start 0)
    (m.keyspace.reserveNewKey ⟨[.int64 7]⟩ 19 10).2 = false ∧
      (m.keyspace.reserveNewKey ⟨[.int64 7]⟩ 20 10).2 = true := by
  intro m
  have hrun : keyspaces.Run (.start 0) m :=
    .tail (i := Call.rebuild) (.tail (i := Call.publish) (.tail .refl
      (i := Call.use (.reserve ⟨[.int64 7]⟩ 10 10)) (by decide : (0 : Timestamp) ≤ 10))
      trivial) trivial
  have hlaw := (window_law hrun).1 ⟨[.int64 7]⟩
  refine ⟨?_, (hlaw 20 10 (by decide)).mpr (by decide)⟩
  decide

end DeduplicatorKeyspace

end Nervix.Processors
