import Nervix.RateLimit.Limiter

/-!
# Saved allowances

A generation is what a limiter saves of its allowances at one instant: the debt of every clause, and
of a keyed clause the debt, age and visit of each key that still has a debt. Restoring it builds a
limiter whose epoch lies before the last use of every saved key.
-/

namespace Nervix.RateLimit

structure KeyGeneration where
  key : KeyFingerprint
  remaining : Nat
  age : Nat
  ordinal : Nat
  deriving DecidableEq

inductive ClauseGeneration
  | direct (quota : Quota) (remaining : Option Nat)
  | keyed (quota : Quota) (options : KeyedOptions) (keys : List KeyGeneration)
  deriving DecidableEq

structure Generation where
  clauses : List ClauseGeneration
  deriving DecidableEq

structure RestorePlan where
  declarations : List Clause
  maximumAge : Nat
  deriving DecidableEq

def prepareKeys (quota : Quota) (options : KeyedOptions) :
    List KeyFingerprint → Option KeyGeneration → Nat → List KeyGeneration →
    Except AdmissionError Nat
  | _, _, maximumAge, [] => .ok maximumAge
  | identities, previous, maximumAge, key :: keys =>
    if key.remaining = 0 ∨ key.remaining > quota.horizon ∨
        key.age + key.remaining > quota.horizon ∨ key.age ≥ options.ttl ∨ key.ordinal = u64Max ∨
        key.key ∈ identities then .error .generationState
    else if previous.any fun previous =>
        previous.ordinal ≥ key.ordinal || previous.age < key.age then .error .generationState
    else prepareKeys quota options (key.key :: identities) (some key) (max maximumAge key.age) keys

def ClauseGeneration.prepare (maximumAge : Nat) :
    ClauseGeneration → Except AdmissionError (Clause × Nat)
  | direct quota remaining =>
    if remaining.any fun remaining => remaining = 0 ∨ remaining > quota.horizon then
      .error .generationState
    else .ok (.direct quota, maximumAge)
  | keyed quota options keys => do
    if keys.length > options.maxKeys then
      throw .generationState
    let maximumAge ← prepareKeys quota options [] none maximumAge keys
    return (.keyed quota options, maximumAge)

def prepareClauses : Nat → List ClauseGeneration → Except AdmissionError RestorePlan
  | maximumAge, [] => .ok ⟨[], maximumAge⟩
  | maximumAge, clause :: clauses => do
    let (declaration, maximumAge) ← clause.prepare maximumAge
    let plan ← prepareClauses maximumAge clauses
    return { plan with declarations := declaration :: plan.declarations }

def Generation.prepare (generation : Generation) : Except AdmissionError RestorePlan :=
  prepareClauses 0 generation.clauses

namespace KeyedStore

variable (store : KeyedStore)

def entries : List (KeyFingerprint × Entry) :=
  (List.range store.options.shards).flatMap fun i => (store.shards i).entries

def keyGeneration (ttl now : Nat) (e : KeyFingerprint × Entry) : Option (Option KeyGeneration) :=
  if now < e.2.lastSeen then none
  else if now - e.2.lastSeen < ttl ∧ e.2.cell > now then
    some (some ⟨e.1, e.2.cell - now, now - e.2.lastSeen, e.2.ordinal⟩)
  else some none

def generation (now : Nat) : Option (List KeyGeneration) :=
  (store.entries.mapM (keyGeneration store.options.ttl now)).map fun keys =>
    keys.reduceOption.insertionSort (·.ordinal ≤ ·.ordinal)

def restore (now : Nat) :
    KeyedStore → Nat → List KeyGeneration → Option (Except AdmissionError KeyedStore)
  | store, nextVisit, [] => some (.ok { store with visits := nextVisit })
  | store, _, key :: keys =>
    if now + key.remaining > u64Max then some (.error .clockRange)
    else if now < key.age then none
    else do
      let store ← store.insert key.key ⟨now + key.remaining, now - key.age, key.ordinal⟩
      if key.ordinal + 1 ≤ u64Max then restore now store (key.ordinal + 1) keys else none

end KeyedStore

def Allowance.generation (offset : Nat) : Allowance → Option ClauseGeneration
  | direct quota cell =>
    some (.direct quota (if cell > offset then some (cell - offset) else none))
  | keyed quota store => (store.generation offset).map (.keyed quota store.options)

def Allowance.restore (offset : Nat) :
    Allowance → ClauseGeneration → Option (Except AdmissionError Allowance)
  | direct quota _, .direct _ remaining =>
    if offset + remaining.getD 0 > u64Max then some (.error .clockRange)
    else some (.ok (.direct quota (offset + remaining.getD 0)))
  | keyed quota store, .keyed _ _ keys =>
    (store.restore offset 0 keys).map (Except.map (.keyed quota))
  | _, _ => none

def restoreClauses (offset : Nat) : List Allowance → List ClauseGeneration →
    Option (Except AdmissionError (List Allowance))
  | allowance :: allowances, state :: states => do
    match ← allowance.restore offset state with
    | .error e => return .error e
    | .ok allowance =>
      return (← restoreClauses offset allowances states).map (allowance :: ·)
  | allowances, _ => some (.ok allowances)

namespace Limiter

def generation (limiter : Limiter) (now : Instant) : Option (Except AdmissionError Generation) :=
  match limiter.offset now with
  | .error e => some (.error e)
  | .ok offset => (limiter.clauses.mapM (Allowance.generation offset)).map fun clauses =>
    .ok ⟨clauses⟩

def fromGeneration (generation : Generation) (now : Instant) :
    Option (Except AdmissionError Limiter) :=
  match generation.prepare with
  | .error e => some (.error e)
  | .ok plan =>
    if now < plan.maximumAge then some (.error .clockRange)
    else do
      let limiter := new plan.declarations (now - plan.maximumAge)
      let clauses ← restoreClauses plan.maximumAge limiter.clauses generation.clauses
      return clauses.map fun clauses => { limiter with clauses := clauses, latest := now }

end Limiter

end Nervix.RateLimit
