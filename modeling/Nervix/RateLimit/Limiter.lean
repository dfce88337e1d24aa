import Nervix.Theory.Gcra
import Nervix.Theory.OrderedMap

/-!
# The rate limiter

A limiter holds the allowances of one execution unit. An admission charges every allowance, each
with the charge of its clause, holds the charged cells by leases, and commits or refunds all of them
in the end.
-/

namespace Nervix.RateLimit

open Gcra

def u64Max : Nat := 2 ^ 64 - 1

inductive QuotaError
  | zeroCount
  | zeroPeriod
  | countExceedsPeriod
  | burstRange
  | horizonRange
  | ttlRange
  deriving DecidableEq, Repr

@[ext]
structure Quota where
  replenishInterval : Nat
  burst : Nat
  horizon : Nat
  interval_pos : 0 < replenishInterval
  burst_pos : 0 < burst
  horizon_eq : horizon = burst * replenishInterval
  horizon_le : horizon ≤ u64Max / 2

instance : DecidableEq Quota := fun _ _ => decidable_of_iff _ Quota.ext_iff.symm

theorem ceilDiv_pos (hcount : count ≠ 0) (hperiod : period ≠ 0) : 0 < period ⌈/⌉ count := by
  refine Nat.pos_of_ne_zero fun h => hperiod ?_
  have := le_smul_ceilDiv (b := period) (Nat.pos_of_ne_zero hcount)
  rw [h, smul_zero] at this
  exact Nat.le_zero.mp this

def Quota.new (count period burst : Nat) : Except QuotaError Quota :=
  if hcount : count = 0 then .error .zeroCount
  else if hperiod : period = 0 then .error .zeroPeriod
  else if count > period then .error .countExceedsPeriod
  else if hburst : burst = 0 ∨ burst ≥ 2 ^ 32 then .error .burstRange
  else if hhorizon : burst * (period ⌈/⌉ count) > u64Max / 2 then .error .horizonRange
  else .ok {
    replenishInterval := period ⌈/⌉ count
    burst := burst
    horizon := burst * (period ⌈/⌉ count)
    interval_pos := ceilDiv_pos hcount hperiod
    burst_pos := Nat.pos_of_ne_zero fun h => hburst (.inl h)
    horizon_eq := rfl
    horizon_le := Nat.le_of_not_gt hhorizon }

def Quota.policy (quota : Quota) : Policy where
  interval := quota.replenishInterval
  burst := quota.burst
  interval_pos := quota.interval_pos

@[ext]
structure KeyedOptions where
  ttl : Nat
  maxKeys : Nat
  shards : Nat
  ttl_pos : 0 < ttl
  shards_pos : 0 < shards

instance : DecidableEq KeyedOptions := fun _ _ => decidable_of_iff _ KeyedOptions.ext_iff.symm

def KeyedOptions.new (ttl maxKeys shards : Nat) (shards_pos : 0 < shards) :
    Except QuotaError KeyedOptions :=
  if h : ttl = 0 ∨ ttl > u64Max then .error .ttlRange
  else .ok ⟨ttl, maxKeys, shards, Nat.pos_of_ne_zero fun h0 => h (.inl h0), shards_pos⟩

abbrev Instant := Nat

abbrev KeyFingerprint := BitVec 128

instance : LawfulBEq KeyFingerprint := inferInstance

inductive Clause
  | direct (quota : Quota)
  | keyed (quota : Quota) (keys : KeyedOptions)
  deriving DecidableEq

def Clause.quota : Clause → Quota
  | direct quota | keyed quota _ => quota

inductive Charge
  | direct (cost : ℕ+)
  | keyed (key : KeyFingerprint) (cost : ℕ+)
  deriving DecidableEq

def Charge.cost : Charge → ℕ+
  | direct cost | keyed _ cost => cost

inductive Admission
  | admitted
  | waitUntil (deadline : Instant)
  | neverAdmissible (clause cost burst : Nat)
  | keyBudgetExhausted (clause limit : Nat)
  deriving DecidableEq, Repr

inductive AdmissionError
  | chargeCount
  | chargeKind (clause : Nat)
  | clockRegressed
  | clockRange
  | visitRange
  | generationState
  deriving DecidableEq, Repr

structure KeyStatistics where
  active : Nat := 0
  evicted : Nat := 0
  deriving DecidableEq, Repr

structure Entry where
  cell : Nat
  lastSeen : Nat
  ordinal : Nat
  deriving DecidableEq, Repr

abbrev Shard := OrderedMap KeyFingerprint Entry

structure KeyedStore where
  options : KeyedOptions
  shards : Nat → Shard := fun _ => {}
  visits : Nat := 0
  evictions : Nat := 0
  removed : List KeyFingerprint := []

inductive LeaseEntry
  | present
  | across
  | vacant (cell : Nat) (victim : Option Nat)
  deriving DecidableEq, Repr

structure KeyLease where
  key : KeyFingerprint
  now : Nat
  ordinal : Nat
  entry : LeaseEntry
  deriving DecidableEq

namespace KeyedStore

variable (store : KeyedStore)

section
variable (key : KeyFingerprint) (now : Nat)

def shard : Nat := key.toNat % store.options.shards

def setShard (i : Nat) (shard : Shard) : KeyedStore :=
  { store with shards := Function.update store.shards i shard }

def get : Option Entry := (store.shards (store.shard key)).get key

def contains : Bool := (store.get key).isSome

def nextOrdinal : Except AdmissionError (KeyedStore × Nat) :=
  if store.visits + 1 ≤ u64Max then .ok ({ store with visits := store.visits + 1 }, store.visits)
  else .error .visitRange

def expired (ttl now : Nat) : List (KeyFingerprint × Entry) → Option Nat
  | [] => some 0
  | (_, entry) :: rest =>
    if now < entry.lastSeen then none
    else if now - entry.lastSeen < ttl then some 0
    else (expired ttl now rest).map (· + 1)

def removeOldest (i n : Nat) : KeyedStore :=
  { store.setShard i ((store.shards i).drop n) with
    removed := ((store.shards i).oldestKeys n).reverse ++ store.removed }

def expire (now i : Nat) : Option KeyedStore :=
  (expired store.options.ttl now (store.shards i).entries).map (store.removeOldest i)

def expireAll : Option KeyedStore :=
  (List.range store.options.shards).foldlM (fun store i => store.expire now i) store

def active : Nat :=
  ((List.range store.options.shards).map fun i => (store.shards i).length).sum

def victim : Option Nat :=
  ((List.range store.options.shards).foldl (fun (least : Option (Nat × Nat)) i =>
    match (store.shards i).oldest, least with
    | none, _ => least
    | some (_, entry), none => some (entry.ordinal, i)
    | some (_, entry), some (ordinal, _) =>
      if entry.ordinal < ordinal then some (entry.ordinal, i) else least) none).map Prod.snd

def lease (entry : LeaseEntry) : KeyedStore × Except AdmissionError (Option KeyLease) :=
  match store.nextOrdinal with
  | .ok (store, ordinal) => (store, .ok (some ⟨key, now, ordinal, entry⟩))
  | .error e => (store, .error e)

def prepare : Option (KeyedStore × Except AdmissionError (Option KeyLease)) := do
  if store.options.maxKeys = 0 then
    return (store, .ok none)
  let store ← store.expire now (store.shard key)
  if store.contains key then
    return store.lease key now .present
  let store ← store.expireAll now
  if store.contains key then
    return store.lease key now .across
  let victim := if store.active ≥ store.options.maxKeys then store.victim else none
  return store.lease key now (.vacant 0 victim)

def cell (lease : KeyLease) : Option Nat :=
  match lease.entry with
  | .present | .across => (store.get lease.key).map Entry.cell
  | .vacant cell _ => some cell

def setCell (lease : KeyLease) (cell : Nat) : KeyedStore × KeyLease :=
  match lease.entry with
  | .present | .across =>
    (store.setShard (store.shard lease.key)
      ((store.shards (store.shard lease.key)).modify lease.key ({ · with cell := cell })), lease)
  | .vacant _ victim => (store, { lease with entry := .vacant cell victim })

def insert (entry : Entry) : Option KeyedStore :=
  ((store.shards (store.shard key)).insert key entry).map (store.setShard (store.shard key))

def touch (lease : KeyLease) : Option KeyedStore := do
  let entry ← store.get lease.key
  let shard := (store.shards (store.shard lease.key)).remove lease.key
  (store.setShard (store.shard lease.key) shard).insert lease.key
    { entry with lastSeen := max entry.lastSeen lease.now, ordinal := lease.ordinal }

def evict : Option Nat → Option KeyedStore
  | none => some store
  | some i =>
    if (store.shards i).oldest.isSome then
      some { store.removeOldest i 1 with evictions := store.evictions + 1 }
    else none

def commit (lease : KeyLease) : Option KeyedStore :=
  match lease.entry with
  | .present | .across => store.touch lease
  | .vacant cell victim => do
    let store ← store.evict victim
    store.insert lease.key ⟨cell, lease.now, lease.ordinal⟩

def statistics : Option (KeyedStore × KeyStatistics) :=
  (store.expireAll now).map fun store => (store, ⟨store.active, store.evictions⟩)

end

end KeyedStore

inductive Allowance
  | direct (quota : Quota) (cell : Nat)
  | keyed (quota : Quota) (store : KeyedStore)

def Allowance.clause : Allowance → Clause
  | direct quota _ => .direct quota
  | keyed quota store => .keyed quota store.options

def Allowance.quota (a : Allowance) : Quota := a.clause.quota

inductive Lease
  | direct (quota : Quota) (cell refund : Nat)
  | keyed (quota : Quota) (store : KeyedStore) (lease : KeyLease) (refund : Nat)

namespace Lease

def cell : Lease → Option Nat
  | direct _ cell _ => some cell
  | keyed _ store lease _ => store.cell lease

def setCell : Lease → Nat → Lease
  | direct quota _ refund, cell => direct quota cell refund
  | keyed quota store lease refund, cell =>
    keyed quota (store.setCell lease cell).1 (store.setCell lease cell).2 refund

def quota : Lease → Quota
  | direct quota .. | keyed quota .. => quota

def commit : Lease → Option Allowance
  | direct quota cell _ => some (.direct quota cell)
  | keyed quota store lease _ => (store.commit lease).map (.keyed quota)

def rollback : Lease → Allowance
  | direct quota _ refund => .direct quota refund
  | keyed quota store lease refund => .keyed quota (store.setCell lease refund).1

def checkN (now offset cost : Nat) (lease : Lease) : Option (Lease × Option Instant) := do
  let before ← lease.cell
  match lease.quota.policy.check (before - offset) cost with
  | some next => if offset + next ≤ u64Max then some (lease.setCell (offset + next), none) else none
  | none => some (lease, some
      (now + (before - offset + cost * lease.quota.replenishInterval
        - lease.quota.burst * lease.quota.replenishInterval)))

end Lease

inductive Slot
  | free (allowance : Allowance)
  | leased (lease : Lease)

def Slot.rollback : Slot → Allowance
  | free allowance => allowance
  | leased lease => lease.rollback

def Slot.commit : Slot → Option Allowance
  | free allowance => some allowance
  | leased lease => lease.commit

inductive Charged
  | charged
  | wait (deadline : Instant)
  | exhausted (clause limit : Nat)
  | failed (error : AdmissionError)
  deriving DecidableEq

def Charged.outcome (wait : Option Instant) (exhausted : Option (Nat × Nat)) :
    Charged → Except AdmissionError (Option Instant × Option (Nat × Nat))
  | charged => .ok (wait, exhausted)
  | .wait deadline => .ok (some (match wait with
    | some previous => max previous deadline
    | none => deadline), exhausted)
  | .exhausted clause limit => .ok (wait, some (clause, limit))
  | failed error => .error error

def Lease.charge (now offset cost : Nat) (lease : Lease) : Option (Slot × Charged) :=
  match lease.checkN now offset cost with
  | none => none
  | some (lease, none) => some (.leased lease, .charged)
  | some (lease, some deadline) => some (.leased lease, .wait deadline)

def Allowance.charge (now offset index : Nat) : Allowance → Charge → Option (Slot × Charged)
  | direct quota cell, .direct cost => (Lease.direct quota cell cell).charge now offset cost
  | keyed quota store, .keyed key cost => do
    match ← store.prepare key offset with
    | (store, .error e) => return (.free (.keyed quota store), .failed e)
    | (store, .ok none) =>
      return (.free (.keyed quota store), .exhausted index store.options.maxKeys)
    | (store, .ok (some lease)) =>
      let refund ← store.cell lease
      (Lease.keyed quota store lease refund).charge now offset cost
  | _, _ => none

structure Limiter where
  clauses : List Allowance
  epoch : Instant
  latest : Instant

namespace Limiter

def new (clauses : List Clause) (epoch : Instant) : Limiter where
  clauses := clauses.map fun
    | .direct quota => .direct quota 0
    | .keyed quota keys => .keyed quota { options := keys }
  epoch := epoch
  latest := epoch

variable (clockMax : Nat)

def offset (limiter : Limiter) (now : Instant) : Except AdmissionError Nat :=
  if now < limiter.latest then .error .clockRegressed
  else if now - limiter.epoch > u64Max then .error .clockRange
  else .ok (now - limiter.epoch)

def sameKind : Allowance → Charge → Bool
  | .direct .., .direct _ | .keyed .., .keyed .. => true
  | _, _ => false

def validateClauses (now offset : Nat) :
    Nat → List Allowance → List Charge → Except AdmissionError Unit
  | index, allowance :: allowances, charge :: charges =>
    if sameKind allowance charge = false then .error (.chargeKind index)
    else if offset + allowance.quota.horizon > u64Max ∨
        now + allowance.quota.horizon > clockMax then .error .clockRange
    else validateClauses now offset (index + 1) allowances charges
  | _, _, _ => .ok ()

def validate (limiter : Limiter) (charges : List Charge) (now : Instant) :
    Except AdmissionError Nat :=
  if charges.length ≠ limiter.clauses.length then .error .chargeCount
  else do
    let offset ← limiter.offset now
    validateClauses clockMax now offset 0 limiter.clauses charges
    return offset

def neverAdmissible : Nat → List Allowance → List Charge → Option Admission
  | index, allowance :: allowances, charge :: charges =>
    if charge.cost > allowance.quota.burst then
      some (.neverAdmissible index charge.cost allowance.quota.burst)
    else neverAdmissible (index + 1) allowances charges
  | _, _, _ => none

def chargeClauses (now offset : Nat) : Nat → List Allowance → List Charge → Option Instant →
    Option (Nat × Nat) →
    Option (List Slot × Except AdmissionError (Option Instant × Option (Nat × Nat)))
  | index, allowance :: allowances, charge :: charges, wait, exhausted =>
    match allowance.charge now offset index charge with
    | none => none
    | some (slot, made) =>
      match made.outcome wait exhausted with
      | .error e => some (slot :: allowances.map .free, .error e)
      | .ok (wait, exhausted) =>
        (chargeClauses now offset (index + 1) allowances charges wait exhausted).map
          fun (slots, result) => (slot :: slots, result)
  | _, allowances, _, wait, exhausted => some (allowances.map .free, .ok (wait, exhausted))

def admitAt (limiter : Limiter) (charges : List Charge) (now : Instant) :
    Option (Limiter × Except AdmissionError Admission) :=
  match limiter.validate clockMax charges now with
  | .error e => some (limiter, .error e)
  | .ok offset =>
    match neverAdmissible 0 limiter.clauses charges with
    | some outcome => some (limiter, .ok outcome)
    | none => do
      let (slots, result) ← chargeClauses now offset 0 limiter.clauses charges none none
      let refunded := { limiter with clauses := slots.map Slot.rollback, latest := now }
      match result with
      | .error e => return (refunded, .error e)
      | .ok (_, some (clause, limit)) => return (refunded, .ok (.keyBudgetExhausted clause limit))
      | .ok (some deadline, none) => return (refunded, .ok (.waitUntil deadline))
      | .ok (none, none) =>
        let clauses ← slots.mapM Slot.commit
        return ({ limiter with clauses := clauses, latest := now }, .ok .admitted)

def expireClauses (offset : Nat) :
    List Allowance → KeyStatistics → Option (List Allowance × KeyStatistics)
  | [], result => some ([], result)
  | .direct quota cell :: allowances, result => do
    let (allowances, result) ← expireClauses offset allowances result
    return (.direct quota cell :: allowances, result)
  | .keyed quota store :: allowances, result => do
    let (store, current) ← store.statistics offset
    let (allowances, result) ← expireClauses offset allowances
      ⟨result.active + current.active, result.evicted + current.evicted⟩
    return (.keyed quota store :: allowances, result)

def keyStatistics (limiter : Limiter) (now : Instant) :
    Option (Limiter × Except AdmissionError KeyStatistics) :=
  match limiter.offset now with
  | .error e => some (limiter, .error e)
  | .ok offset => do
    let (clauses, result) ← expireClauses offset limiter.clauses {}
    return ({ limiter with clauses := clauses, latest := now }, .ok result)

end Limiter

end Nervix.RateLimit
