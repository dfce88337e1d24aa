import Nervix.Theory.Checks
import Nervix.RateLimit.Rate

/-!
# Reachable limiters

A limiter is built from its declarations or from a saved generation, and then serves calls. All of
them show a ledger, so what holds of one keyed store in order holds of every keyed clause.
-/

namespace Nervix.RateLimit

open Recency
open Option
open List hiding erase insert keys mem_keys pure_def
open KeyedStore

namespace KeyedStore

variable {store : KeyedStore} {l : List (KeyFingerprint × Entry)} {now : Nat}

def saved (ttl now : Nat) (e : KeyFingerprint × Entry) : Option KeyGeneration :=
  if now - e.2.lastSeen < ttl ∧ e.2.cell > now then
    some ⟨e.1, e.2.cell - now, now - e.2.lastSeen, e.2.ordinal⟩
  else none

theorem saved_eq_some :
    saved ttl now e = some key ↔ now - e.2.lastSeen < ttl ∧ e.2.cell > now ∧
      key = ⟨e.1, e.2.cell - now, now - e.2.lastSeen, e.2.ordinal⟩ := by
  rw [saved, ite_none_right_eq_some, Option.some.injEq, and_assoc, eq_comm]

theorem mapM_keyGeneration {ttl : Nat} {entries : List (KeyFingerprint × Entry)}
    (h : ∀ e ∈ entries, e.2.lastSeen ≤ now) :
    entries.mapM (keyGeneration ttl now) = some (entries.map (saved ttl now)) := by
  induction entries with
  | nil => rfl
  | cons e entries ih =>
    obtain ⟨he, hrest⟩ := forall_mem_cons.mp h
    have hkey : keyGeneration ttl now e = some (saved ttl now e) := by
      rw [keyGeneration, if_neg (Nat.not_lt.mpr he), saved]
      split <;> rfl
    rw [mapM_cons, hkey, ih hrest]
    rfl

theorem Ordered.generation (h : Ordered now store l) :
    store.generation now = some (l.filterMap (saved store.options.ttl now)) := by
  have hseen : ∀ e ∈ store.entries, e.2.lastSeen ≤ now :=
    fun e he => h.seen e (h.perm.mem_iff.mp he)
  rw [KeyedStore.generation, mapM_keyGeneration hseen, map_some, reduceOption,
    filterMap_map, Function.id_comp]
  have htotal : Std.Total fun a b : KeyGeneration => a.ordinal ≤ b.ordinal :=
    ⟨fun a b => Nat.le_total a.ordinal b.ordinal⟩
  have htrans : IsTrans KeyGeneration fun a b => a.ordinal ≤ b.ordinal :=
    ⟨fun _ _ _ hab hbc => Nat.le_trans hab hbc⟩
  have hstrict : (l.filterMap (saved store.options.ttl now)).Pairwise
      fun a b => a.ordinal < b.ordinal := by
    refine h.order.filterMap _ fun e e' hee' b hb b' hb' => ?_
    obtain ⟨-, -, rfl⟩ := saved_eq_some.mp hb
    obtain ⟨-, -, rfl⟩ := saved_eq_some.mp hb'
    exact hee'.1
  have hperm := (perm_insertionSort (fun a b : KeyGeneration => a.ordinal ≤ b.ordinal)
    (store.entries.filterMap (saved store.options.ttl now))).trans (h.perm.filterMap _)
  refine congrArg some (hperm.eq_of_pairwise ?_ (pairwise_insertionSort _ _)
    (hstrict.imp Nat.le_of_lt))
  intro a b ha hb hab hba
  have heq : a.ordinal = b.ordinal := Nat.le_antisymm hab hba
  exact inj_on_of_nodup_map (pairwise_map.mpr (hstrict.imp Nat.ne_of_lt))
    (hperm.mem_iff.mp ha) hb heq

end KeyedStore

def ClauseGeneration.account (now : Instant) : ClauseGeneration → Account
  | direct quota remaining => .direct quota (now + remaining.getD 0)
  | keyed quota options keys =>
    .keyed quota options (keys.map fun key => (key.key, ⟨now + key.remaining, now - key.age⟩)) 0

def KeyGeneration.Fits (key : KeyGeneration) : Prop := key.ordinal ≤ u64Max

def Generation.Fits (generation : Generation) : Prop :=
  ∀ quota options keys, .keyed quota options keys ∈ generation.clauses →
    ∀ key ∈ keys, KeyGeneration.Fits key

structure KeyGeneration.Valid (quota : Quota) (options : KeyedOptions) (key : KeyGeneration) :
    Prop where
  remaining : 0 < key.remaining
  horizon : key.age + key.remaining ≤ quota.horizon
  alive : key.age < options.ttl
  ordinal : key.ordinal ≠ u64Max

def KeyGeneration.Before (a b : KeyGeneration) : Prop := a.ordinal < b.ordinal ∧ b.age ≤ a.age

def maximumAge (age : Nat) (keys : List KeyGeneration) : Nat :=
  keys.foldl (fun age key => max age key.age) age

theorem maximumAge_le_iff {age bound : Nat} {keys : List KeyGeneration} :
    maximumAge age keys ≤ bound ↔ age ≤ bound ∧ ∀ key ∈ keys, key.age ≤ bound := by
  induction keys generalizing age with
  | nil => simp [maximumAge]
  | cons key keys ih =>
    have hcons : maximumAge age (key :: keys) = maximumAge (max age key.age) keys := rfl
    rw [hcons, ih, max_le_iff, forall_mem_cons, and_assoc]

theorem prepareKeys_eq_ok {quota : Quota} {options : KeyedOptions}
    {identities : List KeyFingerprint} {previous : Option KeyGeneration} {age age' : Nat}
    {keys : List KeyGeneration} :
    prepareKeys quota options identities previous age keys = .ok age' ↔
      maximumAge age keys = age' ∧ (∀ key ∈ keys, key.Valid quota options) ∧
      (∀ key ∈ keys, key.key ∉ identities) ∧ (keys.map KeyGeneration.key).Nodup ∧
      (∀ a ∈ previous, ∀ b ∈ keys, a.Before b) ∧ keys.Pairwise KeyGeneration.Before := by
  induction keys generalizing identities previous age with
  | nil => simp [prepareKeys, maximumAge]
  | cons key keys ih =>
    have hvalid : ¬ (key.remaining = 0 ∨ key.remaining > quota.horizon ∨
        key.age + key.remaining > quota.horizon ∨ key.age ≥ options.ttl ∨ key.ordinal = u64Max ∨
        key.key ∈ identities) ↔ key.Valid quota options ∧ key.key ∉ identities := by
      constructor
      · intro h
        simp only [not_or] at h
        obtain ⟨h₁, h₂, h₃, h₄, h₅, h₆⟩ := h
        exact ⟨⟨by omega, by omega, by omega, h₅⟩, h₆⟩
      · rintro ⟨⟨h₁, h₂, h₃, h₄⟩, h₅⟩ h
        rcases h with h | h | h | h | h | h
        · omega
        · omega
        · omega
        · omega
        · exact h₄ h
        · exact h₅ h
    have hbefore : ¬ (previous.any fun previous =>
        previous.ordinal ≥ key.ordinal || previous.age < key.age) = true ↔
        ∀ a ∈ previous, a.Before key := by
      cases previous with
      | none => simp
      | some a => simp [KeyGeneration.Before]
    rw [prepareKeys]
    split
    · rename_i hinvalid
      simp only [reduceCtorEq, false_iff]
      rintro ⟨-, hall, hnew, -⟩
      exact hvalid.mpr ⟨hall key mem_cons_self, hnew key mem_cons_self⟩ hinvalid
    rename_i hkey
    obtain ⟨hkey, hnew⟩ := hvalid.mp hkey
    split
    · rename_i hlate
      simp only [reduceCtorEq, false_iff]
      rintro ⟨-, -, -, -, hprevious, -⟩
      exact hbefore.mpr (fun a ha => hprevious a ha key mem_cons_self) hlate
    rename_i hprevious
    have hprevious := hbefore.mp hprevious
    rw [ih]
    constructor
    · rintro ⟨rfl, hall, hothers, hnodup, hafter, hpair⟩
      have hafter := hafter key rfl
      refine ⟨rfl, forall_mem_cons.mpr ⟨hkey, hall⟩, forall_mem_cons.mpr ⟨hnew,
        fun k hk => not_mem_of_not_mem_cons (hothers k hk)⟩, nodup_cons.mpr ⟨?_, hnodup⟩,
        fun a ha => forall_mem_cons.mpr ⟨hprevious a ha, fun b hb => ?_⟩,
        pairwise_cons.mpr ⟨hafter, hpair⟩⟩
      · intro hmem
        obtain ⟨k, hk, heq⟩ := List.mem_map.mp hmem
        exact ne_of_not_mem_cons (hothers k hk) heq
      · have h₁ := hprevious a ha
        have h₂ := hafter b hb
        exact ⟨h₁.1.trans h₂.1, h₂.2.trans h₁.2⟩
    · rintro ⟨rfl, hall, hothers, hnodup, -, hpair⟩
      obtain ⟨hkeys, hnodup⟩ := nodup_cons.mp hnodup
      obtain ⟨hafter, hpair⟩ := pairwise_cons.mp hpair
      have hnew' : ∀ k ∈ keys, k.key ∉ key.key :: identities := fun k hk =>
        not_mem_cons_of_ne_of_not_mem (fun heq => hkeys (List.mem_map.mpr ⟨k, hk, heq⟩))
          (hothers k (mem_cons_of_mem _ hk))
      refine ⟨rfl, (forall_mem_cons.mp hall).2, hnew', hnodup, ?_, hpair⟩
      rintro _ ⟨⟩
      exact hafter

/-! Restoring the keys of one clause inserts them in their order. -/

namespace KeyedStore

variable {quota : Quota} {options : KeyedOptions} {now : Nat} {keys : List KeyGeneration}

def restored (now : Nat) (key : KeyGeneration) : KeyFingerprint × Entry :=
  (key.key, ⟨now + key.remaining, now - key.age, key.ordinal⟩)

theorem restore_spec (store : KeyedStore) (nextVisit : Nat) (hoptions : store.options = options)
    (h : Ordered now { store with visits := nextVisit } l)
    (hcapacity : l.length + keys.length ≤ options.maxKeys)
    (hvalid : ∀ key ∈ keys, key.Valid quota options) (hfits : ∀ key ∈ keys, key.Fits)
    (hage : ∀ key ∈ keys, key.age ≤ now) (hnodup : (keys.map KeyGeneration.key).Nodup)
    (hnew : ∀ key ∈ keys, key.key ∉ Recency.keys l)
    (hlater : ∀ e ∈ l, ∀ key ∈ keys, e.2.ordinal < key.ordinal ∧ e.2.lastSeen ≤ now - key.age)
    (hpair : keys.Pairwise KeyGeneration.Before) :
    (∃ key ∈ keys, now + key.remaining > u64Max) ∧
        store.restore now nextVisit keys = some (.error .clockRange) ∨
      (∀ key ∈ keys, now + key.remaining ≤ u64Max) ∧ ∃ store',
        store.restore now nextVisit keys = some (.ok store') ∧ store'.options = options ∧
        store'.evictions = store.evictions ∧ Ordered now store' (l ++ keys.map (restored now)) := by
  induction keys generalizing store l nextVisit with
  | nil =>
    refine .inr ⟨by simp, { store with visits := nextVisit }, rfl, hoptions, rfl, ?_⟩
    rwa [map_nil, append_nil]
  | cons key keys ih =>
    obtain ⟨hkey, hvalid⟩ := forall_mem_cons.mp hvalid
    obtain ⟨hkeyFits, hfits⟩ := forall_mem_cons.mp hfits
    obtain ⟨hkeyAge, hage⟩ := forall_mem_cons.mp hage
    obtain ⟨hkeyNew, hnew⟩ := forall_mem_cons.mp hnew
    obtain ⟨hother, hnodup⟩ := nodup_cons.mp hnodup
    obtain ⟨hafter, hpair⟩ := pairwise_cons.mp hpair
    rw [length_cons] at hcapacity
    have hordinal : key.ordinal + 1 ≤ u64Max := Nat.lt_of_le_of_ne hkeyFits hkey.ordinal
    by_cases hrange : now + key.remaining > u64Max
    · exact .inl ⟨⟨key, mem_cons_self, hrange⟩, by rw [restore, if_pos hrange]⟩
    have h₁ : Ordered now { store with visits := key.ordinal + 1 } l :=
      { h with
        below := fun e he => (hlater e he key mem_cons_self).1.trans (Nat.lt_succ_self _)
        visits := hordinal }
    have hroom : l.length < store.options.maxKeys := by
      rw [hoptions]
      omega
    obtain ⟨store₁, hinsert, hoptions₁, hvisits₁, hevictions₁, -, h₂⟩ := h₁.insert key.key
      ⟨now + key.remaining, now - key.age, key.ordinal⟩ hkeyNew hroom
      (fun e he => hlater e he key mem_cons_self) (Nat.lt_succ_self _) (Nat.sub_le ..)
    obtain ⟨shard, hshard, rfl⟩ := map_eq_some_iff.mp hinsert
    have hstep : store.restore now nextVisit (key :: keys) =
        (store.setShard (store.shard key.key) shard).restore now (key.ordinal + 1) keys := by
      have hinsert' : store.insert key.key ⟨now + key.remaining, now - key.age, key.ordinal⟩ =
          some (store.setShard (store.shard key.key) shard) :=
        congrArg (Option.map (store.setShard (store.shard key.key))) hshard
      rw [restore, if_neg hrange, if_neg (Nat.not_lt.mpr hkeyAge), hinsert']
      exact if_pos hordinal
    have hlength : (l ++ [restored now key]).length + keys.length ≤ options.maxKeys := by
      rw [length_append, length_singleton]
      omega
    have hlater' : ∀ e ∈ l ++ [restored now key], ∀ key' ∈ keys,
        e.2.ordinal < key'.ordinal ∧ e.2.lastSeen ≤ now - key'.age := by
      intro e he key' hkey'
      rcases mem_append.mp he with he | he
      · exact hlater e he key' (mem_cons_of_mem _ hkey')
      · obtain rfl := mem_singleton.mp he
        exact ⟨(hafter key' hkey').1, Nat.sub_le_sub_left (hafter key' hkey').2 _⟩
    have hnew' : ∀ key' ∈ keys, key'.key ∉ Recency.keys (l ++ [restored now key]) := by
      intro key' hkey' hmem
      rcases mem_keys_concat.mp hmem with hmem | heq
      · exact hnew key' hkey' hmem
      · exact hother (heq ▸ List.mem_map_of_mem hkey')
    have hrest := ih (store.setShard (store.shard key.key) shard) _ hoptions h₂ hlength hvalid hfits hage hnodup hnew' hlater' hpair
    rw [hstep, map_cons]
    rcases hrest with ⟨⟨key', hkey', hbad⟩, heq⟩ | ⟨hgood, store', heq, H⟩
    · exact .inl ⟨⟨key', mem_cons_of_mem _ hkey', hbad⟩, heq⟩
    · refine .inr ⟨forall_mem_cons.mpr ⟨Nat.not_lt.mp hrange, hgood⟩, store', heq, ?_⟩
      rwa [append_assoc] at H

end KeyedStore

namespace ClauseGeneration

def clause : ClauseGeneration → Clause
  | direct quota _ => .direct quota
  | keyed quota options _ => .keyed quota options

def keys : ClauseGeneration → List KeyGeneration
  | direct .. => []
  | keyed _ _ keys => keys

def Valid : ClauseGeneration → Prop
  | direct quota remaining => ∀ r ∈ remaining, 0 < r ∧ r ≤ quota.horizon
  | keyed quota options keys => keys.length ≤ options.maxKeys ∧
    (∀ key ∈ keys, key.Valid quota options) ∧ (keys.map KeyGeneration.key).Nodup ∧
    keys.Pairwise KeyGeneration.Before

theorem prepare_eq_ok {state : ClauseGeneration} :
    state.prepare age = .ok plan ↔
      state.Valid ∧ plan = (state.clause, maximumAge age state.keys) := by
  cases state with
  | direct quota remaining =>
    have hany : (remaining.any fun remaining => remaining = 0 ∨ remaining > quota.horizon) = false ↔
        (direct quota remaining).Valid := by
      cases remaining with
      | none => simp [Valid]
      | some r =>
        simp only [any_some, decide_eq_false_iff_not, Valid, mem_some_iff, forall_eq']
        omega
    rw [← hany, prepare]
    cases remaining.any fun remaining => decide (remaining = 0 ∨ remaining > quota.horizon) with
    | true => simp
    | false =>
      rw [if_neg Bool.false_ne_true, Except.ok.injEq, eq_comm]
      exact (and_iff_right rfl).symm
  | keyed quota options keys =>
    by_cases hlength : keys.length > options.maxKeys
    · have hnot : ¬ (keyed quota options keys).Valid := fun h => Nat.not_le.mpr hlength h.1
      simp [prepare, hlength, hnot, throw, throwThe, MonadExceptOf.throw, bind, Except.bind]
    · simp only [prepare, hlength, if_false, pure, Except.pure, Except.bind_eq_ok]
      constructor
      · rintro ⟨age', hkeys, heq⟩
        obtain ⟨rfl, hvalid, -, hnodup, -, hpair⟩ := prepareKeys_eq_ok.mp hkeys
        exact ⟨⟨Nat.not_lt.mp hlength, hvalid, hnodup, hpair⟩, (Except.ok.inj heq).symm⟩
      · rintro ⟨⟨-, hvalid, hnodup, hpair⟩, rfl⟩
        exact ⟨_, prepareKeys_eq_ok.mpr ⟨rfl, hvalid, fun _ _ => not_mem_nil, hnodup,
          fun _ h => (not_mem_none _ h).elim, hpair⟩, rfl⟩

end ClauseGeneration

theorem prepareClauses_eq_ok :
    prepareClauses age clauses = .ok plan ↔ (∀ state ∈ clauses, state.Valid) ∧
      plan = ⟨clauses.map ClauseGeneration.clause,
        maximumAge age (clauses.flatMap ClauseGeneration.keys)⟩ := by
  induction clauses generalizing age plan with
  | nil => simp [prepareClauses, maximumAge, eq_comm]
  | cons state clauses ih =>
    have hage : maximumAge age ((state :: clauses).flatMap ClauseGeneration.keys) =
        maximumAge (maximumAge age state.keys) (clauses.flatMap ClauseGeneration.keys) := by
      rw [flatMap_cons, maximumAge, foldl_append]
      rfl
    simp only [prepareClauses, Except.bind_eq_ok, ClauseGeneration.prepare_eq_ok, ih, pure,
      Except.pure, Except.ok.injEq, hage, forall_mem_cons, map_cons]
    constructor
    · rintro ⟨_, ⟨hstate, rfl⟩, _, ⟨hall, rfl⟩, rfl⟩
      exact ⟨⟨hstate, hall⟩, rfl⟩
    · rintro ⟨⟨hstate, hall⟩, rfl⟩
      exact ⟨_, ⟨hstate, rfl⟩, _, ⟨hall, rfl⟩, rfl⟩

/-! ### Saved clauses -/

theorem Quota.le_horizon {quota : Quota} (h : a ≤ quota.horizon) (hb : b ≤ u64Max / 2) :
    b + a ≤ u64Max := by
  have := quota.horizon_le
  omega

structure Allowance.Saves (offset : Nat) (a : Allowance) (state : ClauseGeneration) : Prop where
  saved : a.generation offset = some state
  clause : state.clause = a.clause
  valid : state.Valid
  fits : ∀ key ∈ state.keys, key.Fits
  age : ∀ key ∈ state.keys, key.age ≤ offset

theorem Allowance.Shows.saves {a : Allowance} (h : a.Shows epoch now b) :
    ∃ state, a.Saves (now - epoch) state := by
  cases h with
  | @direct quota cell hcell =>
    refine ⟨_, rfl, rfl, ?_, fun _ h => (not_mem_nil h).elim,
      fun _ h => (not_mem_nil h).elim⟩
    intro r hr
    rw [mem_def, ite_none_right_eq_some, Option.some.injEq] at hr
    omega
  | @keyed quota store l hordered hhorizons =>
    have hmem : ∀ key ∈ l.filterMap (saved store.options.ttl (now - epoch)),
        ∃ e ∈ l, now - epoch - e.2.lastSeen < store.options.ttl ∧ e.2.cell > now - epoch ∧
          key = ⟨e.1, e.2.cell - (now - epoch), now - epoch - e.2.lastSeen, e.2.ordinal⟩ := by
      intro key hkey
      obtain ⟨e, he, hsaved⟩ := mem_filterMap.mp hkey
      exact ⟨e, he, saved_eq_some.mp hsaved⟩
    refine ⟨.keyed quota store.options _, by rw [generation, hordered.generation]; rfl, rfl,
      ⟨?_, ?_, ?_, ?_⟩, ?_, ?_⟩
    · exact (length_filterMap_le ..).trans hordered.capacity
    · intro key hkey
      obtain ⟨e, he, halive, hdebt, rfl⟩ := hmem key hkey
      have h₁ := hhorizons e he
      have h₂ := hordered.seen e he
      have h₃ := hordered.below e he
      have h₄ := hordered.visits
      exact ⟨Nat.sub_pos_of_lt hdebt, by simp only; omega, halive, by simp only; omega⟩
    · refine pairwise_map.mpr ((pairwise_map.mp hordered.nodup).filterMap _ ?_)
      intro e e' hne key hkey key' hkey'
      obtain ⟨-, -, rfl⟩ := saved_eq_some.mp hkey
      obtain ⟨-, -, rfl⟩ := saved_eq_some.mp hkey'
      exact hne
    · refine hordered.order.filterMap _ fun e e' hee' key hkey key' hkey' => ?_
      obtain ⟨-, -, rfl⟩ := saved_eq_some.mp hkey
      obtain ⟨-, -, rfl⟩ := saved_eq_some.mp hkey'
      exact ⟨hee'.1, Nat.sub_le_sub_left hee'.2 _⟩
    · intro key hkey
      obtain ⟨e, he, -, -, rfl⟩ := hmem key hkey
      exact ((hordered.below e he).trans_le hordered.visits).le
    · intro key hkey
      obtain ⟨e, he, -, -, rfl⟩ := hmem key hkey
      exact Nat.sub_le ..

/-! ### Restored clauses -/

def ClauseGeneration.InRange (offset : Nat) : ClauseGeneration → Prop
  | direct _ remaining => offset + remaining.getD 0 ≤ u64Max
  | keyed _ _ keys => ∀ key ∈ keys, offset + key.remaining ≤ u64Max

def Clause.fresh : Clause → Allowance
  | direct quota => .direct quota 0
  | keyed quota keys => .keyed quota { options := keys, shards := fun _ => ⟨[], nodup_nil⟩ }

section
variable {epoch now : Instant} (hepoch : epoch ≤ now)
include hepoch

theorem Allowance.restore_fresh {state : ClauseGeneration} (hvalid : state.Valid)
    (hfits : ∀ key ∈ state.keys, key.Fits) (hage : ∀ key ∈ state.keys, key.age ≤ now - epoch) :
    (¬ state.InRange (now - epoch) ∧
      state.clause.fresh.restore (now - epoch) state = some (.error .clockRange)) ∨
    (state.InRange (now - epoch) ∧ ∃ a,
      state.clause.fresh.restore (now - epoch) state = some (.ok a) ∧
      a.Shows epoch now (state.account now) ∧ a.generation (now - epoch) = some state) := by
  cases state with
  | direct quota remaining =>
    by_cases hrange : now - epoch + remaining.getD 0 > u64Max
    · exact .inl ⟨Nat.not_le.mpr hrange, if_pos hrange⟩
    · refine .inr ⟨Nat.not_lt.mp hrange, _, if_neg hrange, ?_, ?_⟩
      · have haccount : (ClauseGeneration.direct quota remaining).account now =
            .direct quota (epoch + (now - epoch + remaining.getD 0)) := by
          rw [← Nat.add_assoc, Nat.add_sub_cancel' hepoch]
          rfl
        have hremaining : remaining.getD 0 ≤ quota.horizon := by
          cases remaining with
          | none => exact Nat.zero_le _
          | some r => exact (hvalid r rfl).2
        rw [haccount]
        exact .direct (Nat.add_le_add_left hremaining _)
      · cases remaining with
        | none => simp [generation]
        | some r => simp [generation, (hvalid r rfl).1]
  | keyed quota options keys =>
    obtain ⟨hlength, hkeys, hnodup, hpair⟩ := hvalid
    have hspec := restore_spec { options := options } 0 rfl .new (by simpa using hlength) hkeys hfits hage hnodup
      (fun _ _ => not_mem_nil) (by simp) hpair
    simp only [ClauseGeneration.clause, Clause.fresh, restore, ClauseGeneration.InRange]
    rcases hspec with ⟨⟨key, hkey, hbad⟩, heq⟩ | ⟨hgood, store', heq, hoptions, hevictions, h'⟩
    · refine .inl ⟨fun h => Nat.not_le.mpr hbad (h key hkey), ?_⟩
      rw [heq]
      rfl
    · refine .inr ⟨hgood, .keyed quota store', by rw [heq]; rfl, ?_⟩
      rw [nil_append] at h'
      have hsaved : (keys.map (restored (now - epoch))).filterMap
          (saved options.ttl (now - epoch)) = keys := by
        rw [filterMap_map]
        refine (filterMap_congr fun key hkey => ?_).trans filterMap_some
        have h₁ := (hkeys key hkey).alive
        have h₂ : key.age ≤ now - epoch := hage key hkey
        have h₃ := (hkeys key hkey).remaining
        have hage' : now - epoch - (now - epoch - key.age) = key.age := Nat.sub_sub_self h₂
        simp [saved, restored, hage', h₁, h₃]
      have hhorizons : ∀ e ∈ keys.map (restored (now - epoch)),
          e.2.cell ≤ e.2.lastSeen + quota.horizon := by
        intro e he
        obtain ⟨key, hkey, rfl⟩ := List.mem_map.mp he
        have h₁ := (hkeys key hkey).horizon
        simp only [restored]
        omega
      have hlive : live options.ttl (now - epoch)
          (keys.map (restored (now - epoch))) =
            keys.map (restored (now - epoch)) := by
        refine filter_eq_self.mpr fun e he => decide_eq_true ?_
        obtain ⟨key, hkey, rfl⟩ := List.mem_map.mp he
        have h₁ := (hkeys key hkey).alive
        simp only [restored]
        omega
      have hdebts : debts epoch options.ttl (now - epoch)
          (keys.map (restored (now - epoch))) =
            keys.map fun key => (key.key, ⟨now + key.remaining, now - key.age⟩) := by
        rw [debts, hlive, List.map_map]
        refine map_congr_left fun key hkey => ?_
        have h₂ : key.age ≤ now - epoch := hage key hkey
        have hhorizon : epoch + (now - epoch + key.remaining) = now + key.remaining := by
          rw [← Nat.add_assoc, Nat.add_sub_cancel' hepoch]
        have hseen : epoch + (now - epoch - key.age) = now - key.age := by
          unfold Instant at *
          omega
        simp [restored, Entry.debt, hhorizon, hseen]
      have hshows := Shows.keyed h' hhorizons
      rw [hoptions, hevictions, hdebts] at hshows
      refine ⟨hshows, ?_⟩
      rw [generation, h'.generation, hoptions, hsaved]
      rfl

theorem restoreClauses_fresh (hvalid : ∀ state ∈ states, state.Valid)
    (hfits : ∀ state ∈ states, ∀ key ∈ state.keys, key.Fits)
    (hage : ∀ state ∈ states, ∀ key ∈ state.keys, key.age ≤ now - epoch) :
    ((∃ state ∈ states, ¬ state.InRange (now - epoch)) ∧
      restoreClauses (now - epoch) (states.map fun state => state.clause.fresh) states =
        some (.error .clockRange)) ∨
    ((∀ state ∈ states, state.InRange (now - epoch)) ∧ ∃ after,
      restoreClauses (now - epoch) (states.map fun state => state.clause.fresh) states =
        some (.ok after) ∧
      List.Forall₂ (Allowance.Shows epoch now) after (states.map (ClauseGeneration.account now)) ∧
      after.mapM (Allowance.generation (now - epoch)) = some states) := by
  induction states with
  | nil => exact .inr ⟨by simp, [], rfl, .nil, rfl⟩
  | cons state states ih =>
    obtain ⟨hstate, hvalid⟩ := forall_mem_cons.mp hvalid
    obtain ⟨hstateFits, hfits⟩ := forall_mem_cons.mp hfits
    obtain ⟨hstateAge, hage⟩ := forall_mem_cons.mp hage
    simp only [map_cons, restoreClauses]
    rcases Allowance.restore_fresh hepoch hstate hstateFits hstateAge with
      ⟨hbad, heq⟩ | ⟨hgood, a, heq, ha, hsaved⟩
    · exact .inl ⟨⟨state, mem_cons_self, hbad⟩, by rw [heq]; rfl⟩
    · rcases ih hvalid hfits hage with
        ⟨⟨state', hmem, hbad⟩, hrest⟩ | ⟨hall, after, hrest, hafter, hagain⟩
      · exact .inl ⟨⟨state', mem_cons_of_mem _ hmem, hbad⟩, by rw [heq, hrest]; rfl⟩
      · exact .inr ⟨forall_mem_cons.mpr ⟨hgood, hall⟩, a :: after, by rw [heq, hrest]; rfl,
          .cons ha hafter, by rw [mapM_cons, hsaved, hagain]; rfl⟩

end

namespace Limiter

theorem maximumAge_le_u64Max {clauses : List ClauseGeneration}
    (hvalid : ∀ state ∈ clauses, state.Valid) :
    maximumAge 0 (clauses.flatMap ClauseGeneration.keys) ≤ u64Max / 2 := by
  refine maximumAge_le_iff.mpr ⟨Nat.zero_le _, fun key hkey => ?_⟩
  obtain ⟨state, hstate, hkey⟩ := mem_flatMap.mp hkey
  cases state with
  | direct => cases hkey
  | keyed quota options keys =>
    have h₁ := ((hvalid _ hstate).2.1 key hkey).horizon
    have h₂ := quota.horizon_le
    omega

structure Restorable (generation : Generation) (now : Instant) : Prop where
  valid : ∀ state ∈ generation.clauses, state.Valid
  age : maximumAge 0 (generation.clauses.flatMap ClauseGeneration.keys) ≤ now
  range : ∀ state ∈ generation.clauses,
    state.InRange (maximumAge 0 (generation.clauses.flatMap ClauseGeneration.keys))

theorem fromGeneration_spec {generation : Generation} (hfits : generation.Fits) (now : Instant) :
    (∃ e, fromGeneration generation now = some (.error e) ∧ ¬ Restorable generation now) ∨
    ∃ limiter, fromGeneration generation now = some (.ok limiter) ∧ limiter.latest = now ∧
      limiter.Shows (generation.clauses.map (ClauseGeneration.account now)) ∧
      limiter.generation now = some (.ok generation) := by
  cases hprepare : generation.prepare with
  | error e =>
    refine .inl ⟨e, by rw [fromGeneration, hprepare], fun h => ?_⟩
    have hok : generation.prepare = .ok _ := prepareClauses_eq_ok.mpr ⟨h.valid, rfl⟩
    rw [hprepare] at hok
    cases hok
  | ok plan =>
    obtain ⟨hvalid, rfl⟩ := prepareClauses_eq_ok.mp hprepare
    generalize hmax : maximumAge 0 (generation.clauses.flatMap ClauseGeneration.keys) = age at hprepare
    by_cases hage : now < age
    · refine .inl ⟨.clockRange, by rw [fromGeneration, hprepare]; exact if_pos hage, fun h => ?_⟩
      exact Nat.not_le.mpr hage (hmax ▸ h.age)
    have hepoch : now - age ≤ now := Nat.sub_le ..
    have hoffset : now - (now - age) = age := Nat.sub_sub_self (Nat.not_lt.mp hage)
    have hages : ∀ state ∈ generation.clauses, ∀ key ∈ state.keys, key.age ≤ now - (now - age) := by
      intro state hstate key hkey
      rw [hoffset, ← hmax]
      exact (maximumAge_le_iff.mp le_rfl).2 key (mem_flatMap.mpr ⟨state, hstate, hkey⟩)
    have hfits' : ∀ state ∈ generation.clauses, ∀ key ∈ state.keys, key.Fits := by
      intro state hstate key hkey
      cases state with
      | direct => cases hkey
      | keyed quota options keys => exact hfits quota options keys hstate key hkey
    have hnew : (new (generation.clauses.map ClauseGeneration.clause) (now - age)).clauses =
        generation.clauses.map fun state => state.clause.fresh := by
      rw [new, List.map_map]
      refine map_congr_left fun state _ => ?_
      cases state <;> rfl
    have hrestore := restoreClauses_fresh hepoch hvalid hfits' hages
    rw [hoffset, ← hnew] at hrestore
    rcases hrestore with ⟨⟨state, hstate, hbad⟩, heq⟩ | ⟨-, after, heq, hafter, hagain⟩
    · refine .inl ⟨.clockRange, ?_, fun h => hbad (hmax ▸ h.range state hstate)⟩
      rw [fromGeneration, hprepare]
      simp only [hage, if_false, heq, bind_eq_bind, bind_some]
      rfl
    · refine .inr ⟨{ new (generation.clauses.map ClauseGeneration.clause) (now - age) with
        clauses := after, latest := now }, ?_, rfl, ⟨hepoch, hafter⟩, ?_⟩
      · rw [fromGeneration, hprepare]
        simp only [hage, if_false, heq, bind_eq_bind, bind_some]
        rfl
      · have hhalf := hmax ▸ maximumAge_le_u64Max hvalid
        have hrange : ¬ age > u64Max := by omega
        simp only [Limiter.generation, offset, new, Nat.lt_irrefl, if_false, hoffset, hrange, hagain,
          map_some]

inductive Reachable (clockMax : Nat) : Limiter → Prop
  | new (clauses : List Clause) (epoch : Instant) : Reachable clockMax (Limiter.new clauses epoch)
  | restored {generation : Generation} {now : Instant} {limiter : Limiter} : generation.Fits →
      fromGeneration generation now = some (.ok limiter) → Reachable clockMax limiter
  | admitted {charges : List Charge} {now : Instant} {limiter limiter' : Limiter}
      {outcome : Except AdmissionError Admission} : Reachable clockMax limiter →
      limiter.admitAt clockMax charges now = some (limiter', outcome) → Reachable clockMax limiter'
  | counted {now : Instant} {limiter limiter' : Limiter}
      {result : Except AdmissionError KeyStatistics} : Reachable clockMax limiter →
      limiter.keyStatistics now = some (limiter', result) → Reachable clockMax limiter'

theorem Reachable.shows (h : Reachable clockMax limiter) :
    ∃ ledger, limiter.Shows ledger := by
  induction h with
  | new clauses epoch => exact ⟨_, .new clauses epoch⟩
  | restored hfits hrestored =>
    rcases fromGeneration_spec hfits _ with ⟨e, heq, -⟩ | ⟨limiter, heq, -, hshows, -⟩
    · rw [hrestored] at heq
      cases heq
    · rw [hrestored] at heq
      cases heq
      exact ⟨_, hshows⟩
  | admitted _ hadm ih =>
    obtain ⟨ledger, hshows⟩ := ih
    obtain ⟨_, _, ledger', heq, -, hshows'⟩ := hshows.admitAt clockMax _ _
    rw [hadm] at heq
    cases heq
    exact ⟨ledger', hshows'⟩
  | counted _ hcount ih =>
    obtain ⟨ledger, hshows⟩ := ih
    obtain ⟨_, _, ledger', heq, -, hshows'⟩ := hshows.keyStatistics _
    rw [hcount] at heq
    cases heq
    exact ⟨ledger', hshows'⟩

theorem Shows.generation {limiter : Limiter} (h : limiter.Shows ledger) (now : Instant) :
    (∃ e, limiter.offset now = .error e ∧ limiter.generation now = some (.error e)) ∨
    (limiter.offset now = .ok (now - limiter.epoch) ∧ ∃ generation,
      limiter.generation now = some (.ok generation) ∧
      List.Forall₂ (Allowance.Saves (now - limiter.epoch)) limiter.clauses generation.clauses) := by
  cases hoffset : limiter.offset now with
  | error e => exact .inl ⟨e, rfl, by rw [Limiter.generation, hoffset]⟩
  | ok offset =>
    obtain ⟨hlatest, rfl, -⟩ := offset_eq_ok hoffset
    refine .inr ⟨rfl, ?_⟩
    obtain ⟨states, heq, hstates⟩ : ∃ states,
        limiter.clauses.mapM (Allowance.generation (now - limiter.epoch)) = some states ∧
        List.Forall₂ (Allowance.Saves (now - limiter.epoch)) limiter.clauses states := by
      have hclauses := h.expire hlatest
      generalize limiter.clauses = allowances, ledger.map (Account.expire now) = ledger' at hclauses
      induction hclauses with
      | nil => exact ⟨[], rfl, .nil⟩
      | cons hab _ ih =>
        obtain ⟨states, heq, hstates⟩ := ih
        obtain ⟨state, hsaves⟩ := hab.saves
        exact ⟨state :: states, by rw [mapM_cons, hsaves.saved, heq]; rfl,
          .cons hsaves hstates⟩
    exact ⟨⟨states⟩, by rw [Limiter.generation, hoffset]; simp only [heq, map_some], hstates⟩

end Limiter

namespace KeyedStore

variable {store : KeyedStore} {l : List (KeyFingerprint × Entry)} {now : Nat}

structure EvictsOldest (key : KeyFingerprint) (store store' : KeyedStore) : Prop where
  retained : store'.contains key = true
  evicted : store'.evictions = store.evictions ∧
      (∀ e ∈ store.entries, e.1 ≠ key → e ∈ store'.entries) ∨
    store'.evictions = store.evictions + 1 ∧ ∃ victim ∈ store.entries, victim.1 ≠ key ∧
      (∀ e ∈ store.entries, victim.2.ordinal ≤ e.2.ordinal) ∧ victim ∉ store'.entries ∧
      ∀ e ∈ store.entries, e ≠ victim → e ∈ store'.entries

structure Retains (quota : Quota) (now : Nat) (store : KeyedStore) : Prop where
  capacity : store.active ≤ store.options.maxKeys
  distinct : (store.entries.map fun e => e.2.ordinal).Nodup
  below : ∀ e ∈ store.entries, e.2.ordinal < store.visits
  order : ∀ i, (store.shards i).entries.Pairwise fun a b =>
    a.2.ordinal < b.2.ordinal ∧ a.2.lastSeen ≤ b.2.lastSeen
  horizon : ∀ e ∈ store.entries, e.2.cell ≤ e.2.lastSeen + quota.horizon
  expires : ∀ t, now ≤ t → ∀ i, ∃ store', store.expire t i = some store' ∧
    (store'.shards i).entries =
      (store.shards i).entries.filter (fun e => t - e.2.lastSeen < store.options.ttl) ∧
    ∀ j, j ≠ i → store'.shards j = store.shards j
  evicts : ∀ t, now ≤ t → ∀ key store₁ lease,
    store.prepare key t = some (store₁, .ok (some lease)) → ∀ cell, ∃ store₂,
      (store₁.setCell lease cell).1.commit (store₁.setCell lease cell).2 = some store₂ ∧
      EvictsOldest key store₁ store₂

theorem Ordered.expire_exact (h : Ordered now store l) (i : Nat) :
    ∃ store', store.expire now i = some store' ∧
      (store'.shards i).entries =
        (store.shards i).entries.filter (fun e => now - e.2.lastSeen < store.options.ttl) ∧
      ∀ j, j ≠ i → store'.shards j = store.shards j := by
  obtain ⟨store', heq, hexpires, -, -, h'⟩ := h.expire i
  have hshard : ∀ key, store'.shard key = store.shard key := fun key => by
    rw [shard, hexpires.options, shard]
  refine ⟨store', heq, ?_, fun j hj => OrderedMap.ext ?_⟩
  · rw [h'.shards, h.shards, List.filter_filter, List.filter_filter]
    refine filter_congr fun e _ => ?_
    by_cases hi : store.shard e.1 = i
    · simp [hshard, hi]
    · simp [hshard, hi]
  · rw [h'.shards, h.shards, List.filter_filter]
    refine filter_congr fun e _ => ?_
    by_cases hi : store.shard e.1 = j
    · simp [hshard, hi, hj]
    · simp [hshard, hi]

theorem Ordered.commit_evicts (h : Ordered now store l)
    (hfinds : Finds now store l key entry) (hkeys : store.options.maxKeys ≠ 0)
    (hvisits : store.visits + 1 ≤ u64Max) (cell : Nat) :
    let store₁ : KeyedStore := { store with visits := store.visits + 1 }
    let lease : KeyLease := ⟨key, now, store.visits, entry⟩
    ∃ store₂, (store₁.setCell lease cell).1.commit (store₁.setCell lease cell).2 = some store₂ ∧
      EvictsOldest key store₁ store₂ := by
  intro store₁ lease
  obtain ⟨store₂, hcommit, -, -, hevictions, -, h₂⟩ := h.commit hfinds hkeys hvisits cell
  refine ⟨store₂, hcommit, h₂.contains_iff.mpr ?_, ?_⟩
  · unfold use
    split <;> exact mem_keys_concat.mpr (.inr rfl)
  have hmem : ∀ e, e ∈ store₁.entries ↔ e ∈ l := fun e => h.perm.mem_iff
  have hmem₂ : ∀ e, e ∈ store₂.entries ↔ e ∈ use store.options.maxKeys l key
      ⟨cell, now, store.visits⟩ := fun e => h₂.perm.mem_iff
  simp only [hmem, hmem₂]
  by_cases hkey : key ∈ keys l
  · rw [if_neg fun hn => hn.1 hkey] at hevictions
    refine .inl ⟨hevictions, fun e he hne => ?_⟩
    rw [use, if_pos hkey]
    exact mem_append_left _ (mem_erase.mpr ⟨he, hne⟩)
  by_cases hfull : store.options.maxKeys ≤ l.length
  · rw [if_pos ⟨hkey, hfull⟩] at hevictions
    cases l with
    | nil => exact absurd (Nat.le_zero.mp hfull) hkeys
    | cons victim rest =>
      have hfirst := (pairwise_cons.mp h.order).1
      refine .inr ⟨hevictions, victim, mem_cons_self,
        fun heq => hkey (heq ▸ mem_keys_of_mem mem_cons_self), ?_, ?_, ?_⟩
      · intro e he
        rcases mem_cons.mp he with rfl | he
        · exact le_rfl
        · exact (hfirst e he).1.le
      · rw [use, if_neg hkey, room, if_pos hfull, tail_cons]
        intro hmem
        rcases mem_append.mp hmem with hmem | hmem
        · exact absurd (hfirst victim hmem).1 (lt_irrefl _)
        · obtain rfl := mem_singleton.mp hmem
          exact hkey (mem_keys_of_mem mem_cons_self)
      · intro e he hne
        rw [use, if_neg hkey, room, if_pos hfull, tail_cons]
        exact mem_append_left _ ((mem_cons.mp he).resolve_left hne)
  · rw [if_neg fun hn => hfull hn.2] at hevictions
    refine .inl ⟨hevictions, fun e he _ => ?_⟩
    rw [use, if_neg hkey, room, if_neg hfull]
    exact mem_append_left _ he

theorem Ordered.retains (h : Ordered now store l)
    (hhorizons : ∀ e ∈ l, e.2.cell ≤ e.2.lastSeen + quota.horizon) : store.Retains quota now where
  capacity := h.active_eq ▸ h.capacity
  distinct := by
    refine ((h.perm.map _).nodup_iff).mpr (pairwise_map.mpr (h.order.imp fun hab => ?_))
    exact hab.1.ne
  below e he := h.below e (h.perm.mem_iff.mp he)
  order i := by
    rw [h.shards]
    exact h.order.filter _
  horizon e he := hhorizons e (h.perm.mem_iff.mp he)
  expires t ht := (h.mono ht).expire_exact
  evicts t ht key store₁ lease hprepare cell := by
    by_cases hkeys : store.options.maxKeys = 0
    · rw [prepare_of_maxKeys_eq_zero hkeys] at hprepare
      cases hprepare
    obtain ⟨store₂, l₂, entry, heq, hexpires, -, -, h₂, -, -, hfinds⟩ := (h.mono ht).prepare key hkeys
    rw [heq] at hprepare
    by_cases hvisits : store₂.visits + 1 ≤ u64Max
    · simp only [KeyedStore.lease, nextOrdinal, hvisits, if_true] at hprepare
      cases hprepare
      exact h₂.commit_evicts hfinds (hexpires.options ▸ hkeys) hvisits cell
    · simp only [KeyedStore.lease, nextOrdinal, hvisits, if_false] at hprepare
      cases hprepare

end KeyedStore

/-- **Retention.** In every reachable limiter each keyed clause retains its keys in the order of
their visits, within its capacity and with horizons within the quota, expiry and eviction take the
oldest ones, and no call panics. -/
theorem keyedStores_retain {clockMax : Nat} {limiter : Limiter} (h : limiter.Reachable clockMax) :
    (∀ quota store, .keyed quota store ∈ limiter.clauses →
      store.Retains quota (limiter.latest - limiter.epoch)) ∧
    (∀ charges now, (limiter.admitAt clockMax charges now).isSome) ∧
    (∀ now, (limiter.keyStatistics now).isSome) ∧ (∀ now, (limiter.generation now).isSome) ∧
    ∀ generation now, generation.Fits → (Limiter.fromGeneration generation now).isSome := by
  obtain ⟨ledger, hshows⟩ := h.shows
  refine ⟨fun quota store hmem => ?_, fun charges now => ?_, fun now => ?_, fun now => ?_,
    fun generation now hfits => ?_⟩
  · obtain ⟨i, hi⟩ := mem_iff_getElem?.mp hmem
    obtain ⟨b, -, hb⟩ := Limiter.getElem?_of_forall₂ hshows.clauses hi
    cases hb with
    | keyed hordered hhorizons => exact hordered.retains hhorizons
  · obtain ⟨_, _, _, heq, -⟩ := hshows.admitAt clockMax charges now
    exact isSome_iff_exists.mpr ⟨_, heq⟩
  · obtain ⟨_, _, _, heq, -⟩ := hshows.keyStatistics now
    exact isSome_iff_exists.mpr ⟨_, heq⟩
  · rcases hshows.generation now with ⟨e, -, heq⟩ | ⟨-, _, heq, -⟩
    · exact isSome_iff_exists.mpr ⟨_, heq⟩
    · exact isSome_iff_exists.mpr ⟨_, heq⟩
  · rcases Limiter.fromGeneration_spec hfits now with ⟨e, heq, -⟩ | ⟨limiter', heq, -⟩
    · exact isSome_iff_exists.mpr ⟨_, heq⟩
    · exact isSome_iff_exists.mpr ⟨_, heq⟩

def tenCells : Quota where
  replenishInterval := 10
  burst := 10
  horizon := 100
  interval_pos := by decide
  burst_pos := by decide
  horizon_eq := by decide
  horizon_le := by decide

def oneKey : KeyedOptions where
  ttl := 1000
  maxKeys := 1
  shards := 2
  ttl_pos := by decide
  shards_pos := by decide

def admittedOnce : Limiter :=
  (((Limiter.new [.keyed tenCells oneKey] 0).admitAt 10000 [.keyed 7 3] 5).map Prod.fst).getD
    (Limiter.new [] 0)

theorem reachable_admittedOnce : admittedOnce.Reachable 10000 := by
  have hcall : (Limiter.new [.keyed tenCells oneKey] 0).admitAt 10000 [.keyed 7 3] 5 =
      some (admittedOnce, .ok .admitted) := rfl
  exact .admitted (.new _ _) hcall

theorem admittedOnce_retains :
    admittedOnce.Reachable 10000 ∧ ∀ quota store, .keyed quota store ∈ admittedOnce.clauses →
      store.Retains quota (admittedOnce.latest - admittedOnce.epoch) :=
  ⟨reachable_admittedOnce, (keyedStores_retain reachable_admittedOnce).1⟩

end Nervix.RateLimit
