import Nervix.Theory.Interleaving
import Nervix.BranchInstances.Registry

/-!
# Published branch membership

The owner of a set of branches keeps its membership equal to the keys of its registry and publishes
it as one value.
-/

namespace Nervix.BranchInstances

open Option BranchInstanceRegistry

variable {K V ε : Type} [DecidableEq K]

def OwnerLifetime.after : Option Nat → Option Nat
  | none => some 1
  | some previous => if previous < u64Max then some (previous + 1) else none

@[ext] structure BranchMembership (K : Type) where
  owner : Option Nat
  unbranched : Bool
  branches : Finset K
  deriving DecidableEq

namespace BranchMembership

variable (membership : BranchMembership K)

def empty (owner : Option Nat) : BranchMembership K := ⟨owner, false, ∅⟩

def isEmpty : Bool := !membership.unbranched && decide (membership.branches = ∅)

def without (released : List (K × V)) : BranchMembership K :=
  { membership with
    branches := released.foldl (fun branches e => branches.erase e.1) membership.branches }

end BranchMembership

structure OwnedBranches (K V : Type) where
  instances : BranchInstanceRegistry K V
  membership : BranchMembership K

structure BranchAdmission (K V : Type) where
  branch : Option V
  evicted : List (K × V)

namespace OwnedBranches

variable (owned : OwnedBranches K V)

def claimed (lifetime : Nat) : OwnedBranches K V := ⟨{}, .empty (some lifetime)⟩

def admitBranch (key : K) (now : Timestamp) (create : K → Nat → Except ε V) :
    Option (OwnedBranches K V × Except ε (GetOrCreateBranchInstance V)) := do
  match ← owned.instances.touch key now with
  | (instances, some state) => return ({ owned with instances }, .ok ⟨state, false⟩)
  | (instances, none) =>
    match ← instances.getOrTryCreateWith key now create with
    | (instances, .error e) => return ({ owned with instances }, .error e)
    | (instances, .ok created) =>
      let branches := insert key owned.membership.branches
      return (⟨instances, { owned.membership with branches }⟩, .ok created)

def admitUnbranched : OwnedBranches K V × Bool :=
  if owned.membership.unbranched then (owned, false)
  else ({ owned with membership := { owned.membership with unbranched := true } }, true)

def releaseBeyond : Option ℕ+ → Option (OwnedBranches K V × List (K × V))
  | none => some (owned, [])
  | some capacity => do
    let (instances, evicted) ← owned.instances.evictLruToCapacity capacity
    return (⟨instances, owned.membership.without evicted⟩, evicted)

def admits (key : Option K) (now : Timestamp) (capacity : Option ℕ+)
    (create : K → Nat → Except ε V) :
    Option (OwnedBranches K V × Bool × Except ε (BranchAdmission K V)) := do
  match key with
  | some key =>
    match ← owned.admitBranch key now create with
    | (owned, .error e) => return (owned, false, .error e)
    | (owned, .ok admitted) =>
      let (owned, evicted) ← owned.releaseBeyond capacity
      return (owned, admitted.created || !evicted.isEmpty, .ok ⟨some admitted.state, evicted⟩)
  | none =>
    let (owned, changed) := owned.admitUnbranched
    let (owned, evicted) ← owned.releaseBeyond capacity
    return (owned, changed || !evicted.isEmpty, .ok ⟨none, evicted⟩)

def expire (now : Timestamp) (maxIdle : Nat) :
    Option (OwnedBranches K V × Bool × List (K × V)) := do
  let (instances, expired) ← owned.instances.expire now maxIdle
  if expired.isEmpty then return ({ owned with instances }, false, expired)
  return (⟨instances, owned.membership.without expired⟩, true, expired)

end OwnedBranches

structure BranchPresence (K : Type) where
  published : BranchMembership K := .empty none
  stores : Nat := 0

inductive Owner (K V : Type)
  | claiming (current : Option (BranchPresence K))
  | idle (owned : OwnedBranches K V)
  | publishing (membership : BranchMembership K) (current : Option (BranchPresence K))
    (owned : Option (OwnedBranches K V))
  | dropped (lifetime : Option Nat)

def Owner.returned (membership : BranchMembership K) : Option (OwnedBranches K V) → Owner K V
  | some owned => .idle owned
  | none => .dropped membership.owner

open BranchPresence

namespace BranchPresence

variable (presence : BranchPresence K)

def compareAndSwap (current : BranchPresence K) (new : BranchMembership K) :
    Option (BranchPresence K) :=
  if current.stores = presence.stores then some ⟨new, presence.stores + 1⟩ else none

def claim : Option (BranchPresence K) → Option (BranchPresence K × Owner K V)
  | none => some (presence, .claiming (some presence))
  | some current => do
    let lifetime ← OwnerLifetime.after current.published.owner
    match presence.compareAndSwap current (.empty (some lifetime)) with
    | some presence => return (presence, .idle (.claimed lifetime))
    | none => return (presence, .claiming (some presence))

def publish (membership : BranchMembership K) (owned : Option (OwnedBranches K V)) :
    Option (BranchPresence K) → BranchPresence K × Owner K V
  | none =>
    if presence.published.owner ≠ membership.owner then (presence, .returned membership owned)
    else (presence, .publishing membership (some presence) owned)
  | some current =>
    match presence.compareAndSwap current membership with
    | some presence => (presence, .returned membership owned)
    | none => (presence, .publishing membership none owned)

end BranchPresence

namespace OwnedBranches

def finish (owned : OwnedBranches K V) (changed : Bool) : Owner K V :=
  if changed then .publishing owned.membership none (some owned) else .idle owned

def drop (owned : OwnedBranches K V) : Owner K V :=
  if owned.membership.isEmpty then .dropped owned.membership.owner
  else .publishing (.empty owned.membership.owner) none none

end OwnedBranches

inductive OwnerStep (ε : Type) : BranchPresence K → Owner K V → BranchPresence K → Owner K V → Prop
  | claim {presence presence' : BranchPresence K} {current : Option (BranchPresence K)}
      {owner : Owner K V} : presence.claim current = some (presence', owner) →
      OwnerStep ε presence (.claiming current) presence' owner
  | admits {presence : BranchPresence K} {owned owned' : OwnedBranches K V} {key : Option K}
      {now : Timestamp} {capacity : Option ℕ+} {create : K → Nat → Except ε V} {changed : Bool}
      {result : Except ε (BranchAdmission K V)} :
      owned.admits key now capacity create = some (owned', changed, result) →
      OwnerStep ε presence (.idle owned) presence (owned'.finish changed)
  | expire {presence : BranchPresence K} {owned owned' : OwnedBranches K V} {now : Timestamp}
      {maxIdle : Nat} {changed : Bool} {expired : List (K × V)} :
      owned.expire now maxIdle = some (owned', changed, expired) →
      OwnerStep ε presence (.idle owned) presence (owned'.finish changed)
  | drop {presence : BranchPresence K} {owned : OwnedBranches K V} :
      OwnerStep ε presence (.idle owned) presence owned.drop
  | publish {presence : BranchPresence K} {membership : BranchMembership K}
      {current : Option (BranchPresence K)} {owned : Option (OwnedBranches K V)} :
      OwnerStep ε presence (.publishing membership current owned)
        (presence.publish membership owned current).1 (presence.publish membership owned current).2

def owners (K V ε : Type) [DecidableEq K] : Machine (BranchPresence K) (Owner K V) where
  start _ owner := owner = .claiming none
  step presence owner presence' next :=
    ∃ owner', OwnerStep ε presence owner presence' owner' ∧ next = {owner'}

namespace BranchInstanceRegistry

variable {registry registry' : BranchInstanceRegistry K V} {key : K} {now : Timestamp}

def keys (registry : BranchInstanceRegistry K V) : Finset K :=
  (registry.entries.entries.map Prod.fst).toFinset

theorem mem_keys : key ∈ registry.keys ↔ key ∈ registry.entries.entries.map Prod.fst :=
  List.mem_toFinset

theorem notMem_keys (h : registry.entries.get key = none) : key ∉ registry.keys :=
  mt mem_keys.mp (OrderedMap.get_eq_none_iff.mp h)

theorem keys_release (h : registry.release n = some (registry', released)) :
    registry'.keys = registry.keys \ (released.map Prod.fst).toFinset ∧
      (released.map Prod.fst).toFinset ⊆ registry.keys := by
  obtain ⟨hkeys, hcases⟩ := release_cases h
  rw [hkeys]
  refine ⟨?_, fun k hk => ?_⟩
  · rcases hcases with ⟨hnil, rfl⟩ | ⟨-, rfl⟩
    · rw [hnil, List.toFinset_nil, Finset.sdiff_empty]
    · ext k
      rw [Finset.mem_sdiff, mem_keys, mem_keys, List.mem_toFinset]
      exact OrderedMap.mem_map_fst_drop
  · exact mem_keys.mpr (((List.take_sublist n _).map _).subset (List.mem_toFinset.mp hk))

end BranchInstanceRegistry

theorem BranchMembership.without_eq (membership : BranchMembership K) (released : List (K × V)) :
    membership.without released =
      { membership with
        branches := membership.branches \ (released.map Prod.fst).toFinset } := by
  obtain ⟨owner, unbranched, branches⟩ := membership
  simp only [without, BranchMembership.mk.injEq, true_and]
  induction released generalizing branches with
  | nil => simp
  | cons e released ih =>
    rw [List.foldl_cons, ih]
    ext k
    simp only [Finset.mem_sdiff, Finset.mem_erase, List.map_cons, List.toFinset_cons,
      Finset.mem_insert]
    tauto

namespace OwnedBranches

variable {owned owned' : OwnedBranches K V}

def Sound (owned : OwnedBranches K V) : Prop :=
  owned.membership.branches = owned.instances.keys

theorem Sound.claimed (lifetime : Nat) : (claimed lifetime : OwnedBranches K V).Sound := rfl

structure Releases (owned owned' : OwnedBranches K V) (released : List (K × V)) : Prop where
  sound : owned'.Sound
  owner : owned'.membership.owner = owned.membership.owner
  unbranched : owned'.membership.unbranched = owned.membership.unbranched
  branches : owned'.membership.branches =
    owned.membership.branches \ (released.map Prod.fst).toFinset
  subset : (released.map Prod.fst).toFinset ⊆ owned.membership.branches

theorem Releases.of_release {instances : BranchInstanceRegistry K V} {n : Nat}
    {released : List (K × V)} (h : owned.Sound)
    (hrelease : owned.instances.release n = some (instances, released)) :
    owned.Releases ⟨instances, owned.membership.without released⟩ released := by
  obtain ⟨hkeys, hsubset⟩ := keys_release hrelease
  refine ⟨?_, ?_, ?_, ?_, h.symm ▸ hsubset⟩
  all_goals simp only [Sound, BranchMembership.without_eq, hkeys, show _ = _ from h]

theorem releaseBeyond_releases {capacity : Option ℕ+} {evicted : List (K × V)} (h : owned.Sound)
    (hrelease : owned.releaseBeyond capacity = some (owned', evicted)) :
    owned.Releases owned' evicted := by
  cases capacity with
  | none =>
    cases hrelease
    exact ⟨h, rfl, rfl, by simp, by simp⟩
  | some capacity =>
    obtain ⟨⟨instances, evicted'⟩, hevict, heq⟩ := bind_eq_some_iff.mp hrelease
    cases heq
    exact .of_release h hevict

theorem newest_notMem_evicted (hnewest : owned.instances.entries.entries = front ++ [(key, entry)])
    (hrelease : owned.releaseBeyond capacity = some (owned', evicted)) :
    key ∉ evicted.map Prod.fst := by
  cases capacity with
  | none =>
    cases hrelease
    simp
  | some capacity =>
    obtain ⟨⟨instances, evicted'⟩, hevict, heq⟩ := bind_eq_some_iff.mp hrelease
    cases heq
    rw [(release_cases hevict).1]
    refine OrderedMap.notMem_oldestKeys hnewest (Nat.sub_lt ?_ capacity.pos)
    rw [OrderedMap.length, hnewest, List.length_append]
    exact Nat.succ_pos _

structure Changes (owned owned' : OwnedBranches K V) (changed : Bool) : Prop where
  sound : owned'.Sound
  owner : owned'.membership.owner = owned.membership.owner
  changed : changed = true ↔ owned'.membership ≠ owned.membership

theorem Releases.changes (h : owned.Releases owned' released) :
    owned.Changes owned' (!released.isEmpty) := by
  refine ⟨h.sound, h.owner, ?_⟩
  cases released with
  | nil =>
    have hsame : owned'.membership = owned.membership :=
      BranchMembership.ext h.owner h.unbranched (by simpa using h.branches)
    simp [hsame]
  | cons e released =>
    simp only [List.isEmpty_cons, Bool.not_false, true_iff]
    intro hsame
    have hmem : e.1 ∈ owned.membership.branches := h.subset (by simp)
    rw [← hsame, h.branches] at hmem
    simp at hmem

theorem expire_changes {now : Timestamp} {maxIdle : Nat} {changed : Bool} {expired : List (K × V)}
    (h : owned.Sound) (hexpire : owned.expire now maxIdle = some (owned', changed, expired)) :
    owned.Changes owned' changed := by
  obtain ⟨⟨instances, expired'⟩, hrelease, heq⟩ := bind_eq_some_iff.mp hexpire
  have hreleases := Releases.of_release h hrelease
  cases expired' with
  | nil =>
    cases heq
    exact hreleases.changes
  | cons e expired' =>
    cases heq
    exact hreleases.changes

theorem admitBranch_cases (h : owned.Sound)
    (hadm : owned.admitBranch key now create = some (owned', result)) :
    (∃ e, result = .error e ∧ owned' = owned) ∨
    ∃ state created, result = .ok ⟨state, created⟩ ∧ owned'.Sound ∧
      (∃ front entry, owned'.instances.entries.entries = front ++ [(key, entry)]) ∧
      (created = false ∧ owned'.membership = owned.membership ∨
        created = true ∧ key ∉ owned.membership.branches ∧ owned'.membership =
          { owned.membership with branches := insert key owned.membership.branches }) := by
  obtain ⟨⟨touched, state⟩, htouch, hadm⟩ := bind_eq_some_iff.mp hadm
  rcases touch_cases htouch with ⟨hnone, rfl, rfl⟩ | ⟨entry, hget, rfl, rfl⟩
  · obtain ⟨⟨instances, created⟩, hcreate, hadm⟩ := bind_eq_some_iff.mp hadm
    rcases getOrTryCreateWith_cases hcreate with
      ⟨entry, hget, -, -⟩ | ⟨e, -, rfl, rfl⟩ | ⟨state, -, rfl, rfl⟩
    · cases hnone.symm.trans hget
    · cases hadm
      exact .inl ⟨e, rfl, rfl⟩
    · cases hadm
      refine .inr ⟨state, true, rfl, ?_, ⟨_, _, OrderedMap.entries_put hnone⟩, .inr ⟨rfl, ?_, rfl⟩⟩
      · refine (congrArg (insert key) h).trans (Finset.ext fun k => ?_)
        rw [Finset.mem_insert, mem_keys, mem_keys]
        simp only [OrderedMap.entries_put hnone, List.map_append, List.mem_append, List.map_cons,
          List.map_nil, List.mem_singleton, or_comm]
      · exact h.symm ▸ notMem_keys hnone
  · cases hadm
    refine .inr ⟨entry.state, false, rfl, ?_, ⟨_, { entry with lastIngestion := now },
      OrderedMap.entries_moveToEnd ?_⟩, .inl ⟨rfl, rfl⟩⟩
    · refine Eq.trans h (Finset.ext fun k => Iff.symm ?_)
      rw [mem_keys, mem_keys]
      exact OrderedMap.mem_map_fst_moveToEnd.trans (by rw [OrderedMap.map_fst_modify])
    · rw [OrderedMap.get_modify, if_pos rfl, hget]
      rfl

theorem admit_changes
    (h : owned.Sound) (hadm : owned.admits key now capacity create = some (owned', changed, result)) :
    owned.Changes owned' changed ∧ (∀ e, result = .error e → owned' = owned) := by
  cases key with
  | none =>
    simp only [admits, bind_eq_bind, pure_def, bind_eq_some_iff] at hadm
    obtain ⟨⟨released, evicted⟩, hrelease, heq⟩ := hadm
    cases heq
    refine ⟨?_, nofun⟩
    by_cases hunbranched : owned.membership.unbranched = true
    · rw [admitUnbranched, if_pos hunbranched] at hrelease ⊢
      exact (releaseBeyond_releases h hrelease).changes
    · rw [admitUnbranched, if_neg hunbranched] at hrelease ⊢
      have hsound : Sound ⟨owned.instances, { owned.membership with unbranched := true }⟩ := h
      have hreleases := releaseBeyond_releases hsound hrelease
      refine ⟨hreleases.sound, hreleases.owner, iff_of_true (by simp) fun hsame => hunbranched ?_⟩
      rw [← hsame]
      exact hreleases.unbranched
  | some key =>
    simp only [admits, bind_eq_bind, pure_def, bind_eq_some_iff] at hadm
    obtain ⟨⟨admitted, outcome⟩, hbranch, hrest⟩ := hadm
    rcases admitBranch_cases h hbranch with
      ⟨e, rfl, rfl⟩ | ⟨state, created, rfl, hsound, ⟨front, entry, hnewest⟩, hmembership⟩
    · cases hrest
      exact ⟨⟨h, rfl, by simp⟩, fun _ _ => rfl⟩
    · obtain ⟨⟨released, evicted⟩, hrelease, heq⟩ := bind_eq_some_iff.mp hrest
      cases heq
      refine ⟨?_, nofun⟩
      have hreleases := releaseBeyond_releases hsound hrelease
      have hnot := newest_notMem_evicted hnewest hrelease
      obtain ⟨hsound', howner, hchanged⟩ := hreleases.changes
      rcases hmembership with ⟨rfl, hsame⟩ | ⟨rfl, hkey, hinsert⟩
      · rw [hsame] at howner hchanged
        exact ⟨hsound', howner, by simpa using hchanged⟩
      · refine ⟨hsound', howner.trans (by rw [hinsert]), iff_of_true rfl fun hsame => hkey ?_⟩
        rw [← hsame, hreleases.branches, hinsert, Finset.mem_sdiff, List.mem_toFinset]
        exact ⟨Finset.mem_insert_self .., hnot⟩

end OwnedBranches

def BranchPresence.Knows (presence current : BranchPresence K) : Prop :=
  current.stores ≤ presence.stores ∧ (current.stores = presence.stores → current = presence)

namespace Owner

variable {presence presence' : BranchPresence K} {owner owner' : Owner K V}

def lifetime : Owner K V → Option Nat
  | claiming _ => none
  | idle owned => owned.membership.owner
  | publishing membership _ _ => membership.owner
  | dropped lifetime => lifetime

def owned : Owner K V → Option (OwnedBranches K V)
  | idle owned => some owned
  | publishing _ _ owned => owned
  | _ => none

def Sound (presence : BranchPresence K) : Owner K V → Prop
  | claiming current => ∀ loaded ∈ current, presence.Knows loaded
  | idle owned => owned.Sound ∧ owned.membership.owner ≠ none ∧
    (owned.membership.owner = presence.published.owner → presence.published = owned.membership)
  | publishing membership current owned => membership.owner ≠ none ∧
    (∀ loaded ∈ current, presence.Knows loaded ∧ loaded.published.owner = membership.owner) ∧
    (∀ o ∈ owned, o.Sound ∧ o.membership = membership) ∧
    (owned = none → membership = .empty membership.owner)
  | dropped lifetime => lifetime ≠ none ∧
    (lifetime = presence.published.owner → presence.published = .empty lifetime)

inductive Effect (presence : BranchPresence K) (owner : Owner K V) :
    BranchPresence K → Owner K V → Prop
  | kept {owner' : Owner K V} :
    owner'.lifetime = owner.lifetime → owner'.Sound presence → Effect presence owner presence owner'
  | claimed {presence' : BranchPresence K} {owner' : Owner K V} {lifetime : Nat} :
    owner.lifetime = none → OwnerLifetime.after presence.published.owner = some lifetime →
    owner'.lifetime = some lifetime → presence'.published.owner = some lifetime →
    presence'.stores = presence.stores + 1 → owner'.Sound presence' →
    Effect presence owner presence' owner'
  | published {presence' : BranchPresence K} {owner' : Owner K V} {lifetime : Nat} :
    owner.lifetime = some lifetime → owner'.lifetime = some lifetime →
    presence.published.owner = some lifetime → presence'.published.owner = some lifetime →
    presence'.stores = presence.stores + 1 → owner'.Sound presence' →
    Effect presence owner presence' owner'

theorem Effect.finish {owned owned' : OwnedBranches K V} {changed : Bool}
    (h : (idle owned).Sound presence) (hchanges : owned.Changes owned' changed) :
    Effect presence (idle owned) presence (owned'.finish changed) := by
  obtain ⟨-, hclaimed, hcurrent⟩ := h
  obtain ⟨hsound, howner, hchanged⟩ := hchanges
  cases changed with
  | true =>
    refine .kept howner ⟨howner ▸ hclaimed, nofun, ?_, nofun⟩
    rintro _ ⟨⟩
    exact ⟨hsound, rfl⟩
  | false =>
    have hsame : owned'.membership = owned.membership := by simpa using hchanged
    exact .kept howner ⟨hsound, hsame ▸ hclaimed, hsame ▸ hcurrent⟩

theorem Effect.drop {owned : OwnedBranches K V} (h : (idle owned).Sound presence) :
    Effect presence (idle owned) presence owned.drop := by
  obtain ⟨-, hclaimed, hcurrent⟩ := h
  rw [OwnedBranches.drop]
  split
  · rename_i hempty
    simp only [BranchMembership.isEmpty, Bool.and_eq_true, Bool.not_eq_true', decide_eq_true_eq]
      at hempty
    refine .kept rfl ⟨hclaimed, fun howner => (hcurrent howner).trans ?_⟩
    exact BranchMembership.ext rfl hempty.1 hempty.2
  · exact .kept rfl ⟨hclaimed, nofun, nofun, fun _ => rfl⟩

theorem Effect.claim (h : (claiming current : Owner K V).Sound presence)
    (hclaim : presence.claim current = some (presence', owner')) :
    Effect presence (claiming current) presence' owner' := by
  cases current with
  | none =>
    cases hclaim
    refine .kept rfl ?_
    rintro _ ⟨⟩
    exact ⟨le_rfl, fun _ => rfl⟩
  | some loaded =>
    simp only [BranchPresence.claim, BranchPresence.compareAndSwap, bind_eq_bind,
      bind_eq_some_iff] at hclaim
    obtain ⟨lifetime, hafter, hclaim⟩ := hclaim
    by_cases hstores : loaded.stores = presence.stores
    · rw [if_pos hstores] at hclaim
      cases hclaim
      obtain rfl := (h loaded rfl).2 hstores
      exact .claimed rfl hafter rfl rfl rfl ⟨.claimed lifetime, nofun, fun _ => rfl⟩
    · rw [if_neg hstores] at hclaim
      cases hclaim
      refine .kept rfl ?_
      rintro _ ⟨⟩
      exact ⟨le_rfl, fun _ => rfl⟩

theorem Effect.publish {membership : BranchMembership K} {current : Option (BranchPresence K)}
    {owned : Option (OwnedBranches K V)} (h : (publishing membership current owned).Sound presence) :
    Effect presence (publishing membership current owned)
      (presence.publish membership owned current).1
      (presence.publish membership owned current).2 := by
  obtain ⟨hclaimed, hloaded, howned, hdrop⟩ := h
  cases current with
  | none =>
    by_cases howner : presence.published.owner = membership.owner
    · simp only [BranchPresence.publish, howner, ne_eq, not_true_eq_false, if_false]
      refine .kept rfl ⟨hclaimed, ?_, howned, hdrop⟩
      rintro _ ⟨⟩
      exact ⟨⟨le_rfl, fun _ => rfl⟩, howner⟩
    · simp only [BranchPresence.publish, howner, ne_eq, not_false_eq_true, if_true]
      cases owned with
      | none => exact .kept rfl ⟨hclaimed, fun h => (howner h.symm).elim⟩
      | some owned =>
        obtain ⟨hsound, rfl⟩ := howned owned rfl
        exact .kept rfl ⟨hsound, hclaimed, fun h => (howner h.symm).elim⟩
  | some loaded =>
    obtain ⟨hknows, howner⟩ := hloaded loaded rfl
    by_cases hstores : loaded.stores = presence.stores
    · obtain rfl := hknows.2 hstores
      obtain ⟨lifetime, hlifetime⟩ := ne_none_iff_exists'.mp hclaimed
      simp only [BranchPresence.publish, BranchPresence.compareAndSwap, if_true]
      cases owned with
      | none =>
        exact .published hlifetime hlifetime (howner.trans hlifetime) hlifetime rfl
          ⟨hclaimed, fun _ => hdrop rfl⟩
      | some owned =>
        obtain ⟨hsound, rfl⟩ := howned owned rfl
        exact .published hlifetime hlifetime (howner.trans hlifetime) hlifetime rfl
          ⟨hsound, hclaimed, fun _ => rfl⟩
    · simp only [BranchPresence.publish, BranchPresence.compareAndSwap, hstores, if_false]
      exact .kept rfl ⟨hclaimed, nofun, howned, hdrop⟩

end Owner

theorem OwnerStep.effect {presence presence' : BranchPresence K} {owner owner' : Owner K V}
    (h : OwnerStep ε presence owner presence' owner') (hsound : owner.Sound presence) :
    owner.Effect presence presence' owner' := by
  cases h with
  | claim hclaim => exact .claim hsound hclaim
  | admits hadm => exact .finish hsound (OwnedBranches.admit_changes hsound.1 hadm).1
  | expire hexpire => exact .finish hsound (OwnedBranches.expire_changes hsound.1 hexpire)
  | drop => exact .drop hsound
  | publish => exact .publish hsound

theorem Owner.Sound.stored {presence presence' : BranchPresence K} {owner : Owner K V}
    (h : owner.Sound presence) (hstores : presence'.stores = presence.stores + 1)
    (hother : owner.lifetime ≠ presence'.published.owner) : owner.Sound presence' := by
  have hknows : ∀ loaded, presence.Knows loaded → presence'.Knows loaded := by
    intro loaded hloaded
    have hlt : loaded.stores < presence'.stores := hstores ▸ Nat.lt_succ_of_le hloaded.1
    exact ⟨hlt.le, fun heq => absurd heq hlt.ne⟩
  cases owner with
  | claiming current => exact fun loaded hloaded => hknows loaded (h loaded hloaded)
  | idle owned => exact ⟨h.1, h.2.1, fun heq => (hother heq).elim⟩
  | publishing membership current owned =>
    refine ⟨h.1, fun loaded hloaded => ?_, h.2.2⟩
    exact ⟨hknows loaded (h.2.1 loaded hloaded).1, (h.2.1 loaded hloaded).2⟩
  | dropped lifetime => exact ⟨h.1, fun heq => (hother heq).elim⟩

def Owner.of (lifetime : Nat) (owner : Owner K V) : Nat :=
  if owner.lifetime = some lifetime then 1 else 0

def BranchPresence.started (presence : BranchPresence K) (lifetime : Nat) : Nat :=
  if 0 < lifetime ∧ lifetime ≤ presence.published.owner.getD 0 then 1 else 0

structure SoundOwners (c : Config (BranchPresence K) (Owner K V)) : Prop where
  owners : ∀ owner ∈ c.calls, owner.Sound c.shared
  lifetimes : ∀ lifetime, weigh (Owner.of lifetime) c.calls = c.shared.started lifetime
  first : c.shared.published.owner ≠ some 0

theorem OwnerLifetime.after_eq_some
    (h : after owner = some lifetime) : lifetime = owner.getD 0 + 1 := by
  cases owner with
  | none =>
    cases h
    rfl
  | some previous =>
    rw [after, ite_none_right_eq_some] at h
    exact (Option.some.inj h.2).symm

theorem sound_of_stored {presence presence' : BranchPresence K} {others : Multiset (Owner K V)}
    {lifetime : Nat} (h : ∀ owner ∈ others, owner.Sound presence)
    (hnone : weigh (Owner.of lifetime) others = 0)
    (howner : presence'.published.owner = some lifetime)
    (hstores : presence'.stores = presence.stores + 1) :
    ∀ owner ∈ others, owner.Sound presence' := by
  intro owner hmem
  refine (h owner hmem).stored hstores fun heq => ?_
  have hzero := weigh_eq_zero_iff.mp hnone owner hmem
  rw [Owner.of, if_pos (heq.trans howner)] at hzero
  cases hzero

theorem SoundOwners.step {presence presence' : BranchPresence K} {owner owner' : Owner K V}
    {others : Multiset (Owner K V)} (h : SoundOwners ⟨presence, owner ::ₘ others⟩)
    (hstep : OwnerStep ε presence owner presence' owner') :
    SoundOwners ⟨presence', {owner'} + others⟩ := by
  obtain ⟨howners, hlifetimes, hfirst⟩ := h
  obtain ⟨hsound, hothers⟩ := Multiset.forall_mem_cons.mp howners
  simp only [weigh_cons] at hlifetimes
  have hof : owner'.lifetime = owner.lifetime →
      ∀ lifetime, Owner.of lifetime owner' = Owner.of lifetime owner :=
    fun heq _ => by rw [Owner.of, Owner.of, heq]
  suffices (∀ o ∈ others, o.Sound presence') ∧ owner'.Sound presence' ∧ ∀ lifetime,
      Owner.of lifetime owner' + weigh (Owner.of lifetime) others = presence'.started lifetime by
    refine ⟨fun o ho => ?_, fun lifetime => ?_, ?_⟩
    · rw [Multiset.mem_add, Multiset.mem_singleton] at ho
      rcases ho with rfl | ho
      · exact this.2.1
      · exact this.1 o ho
    · rw [weigh_add, weigh_singleton]
      exact this.2.2 lifetime
    · cases hstep.effect hsound with
      | kept => exact hfirst
      | claimed _ hafter _ hpublished =>
        rw [hpublished, OwnerLifetime.after_eq_some hafter]
        simp
      | published _ _ hcurrent hpublished => exact hpublished.trans hcurrent.symm ▸ hfirst
  cases hstep.effect hsound with
  | kept heq hsound' =>
    exact ⟨hothers, hsound', fun lifetime => by rw [hof heq, hlifetimes]⟩
  | @claimed _ _ lifetime hnone hafter heq hpublished hstores hsound' =>
    have hnext := OwnerLifetime.after_eq_some hafter
    have hzero : ∀ l, Owner.of l owner = 0 := fun l => by simp [Owner.of, hnone]
    have hfresh := hlifetimes lifetime
    rw [hzero, Nat.zero_add, started, if_neg (by omega)] at hfresh
    refine ⟨sound_of_stored hothers hfresh hpublished hstores, hsound', fun l => ?_⟩
    have hl := hlifetimes l
    rw [hzero, Nat.zero_add] at hl
    rw [hl]
    simp only [Owner.of, heq, Option.some.injEq, started, hpublished, getD_some]
    split_ifs <;> omega
  | @published _ _ lifetime hlifetime hlifetime' hcurrent hpublished hstores hsound' =>
    have hsame : ∀ l, presence'.started l = presence.started l := fun l => by
      rw [started, started, hpublished, hcurrent]
    have hone := hlifetimes lifetime
    have hfresh : weigh (Owner.of lifetime) others = 0 := by
      rw [Owner.of, if_pos hlifetime, started] at hone
      split_ifs at hone <;> omega
    refine ⟨sound_of_stored hothers hfresh hpublished hstores, hsound', fun l => ?_⟩
    rw [hof (hlifetime'.trans hlifetime.symm), hlifetimes, hsame]

theorem soundOwners {c : Config (BranchPresence K) (Owner K V)}
    (h : (owners K V ε).Reachable ⟨{}, 0⟩ c) : SoundOwners c := by
  refine h.inv ⟨by simp, fun lifetime => ?_, nofun⟩ ?_ ?_
  · rw [weigh_zero, started, if_neg]
    rintro ⟨hpos, hle⟩
    exact absurd hle (Nat.not_le.mpr hpos)
  · rintro presence _ others ⟨howners, hlifetimes, hfirst⟩ rfl
    refine ⟨Multiset.forall_mem_cons.mpr ⟨nofun, howners⟩, fun lifetime => ?_, hfirst⟩
    rw [weigh_cons, hlifetimes]
    exact Nat.zero_add _
  · rintro presence owner presence' _ others h ⟨owner', hstep, rfl⟩
    exact h.step hstep

/-- **Published membership.** On a presence that any number of owners claim, change and drop: the
membership of each owner is the key set of its registry. What is published belongs to the latest
claim, is that owner's membership whenever it is between operations, and is empty once it is
dropped. A superseded owner stores nothing, an operation publishes exactly when it changed the
membership, and a failed creation changes nothing. -/
theorem published_membership {c : Config (BranchPresence K) (Owner K V)}
    (h : (owners K V ε).Reachable ⟨{}, 0⟩ c) :
    (∀ owner ∈ c.calls, ∀ owned ∈ owner.owned, owned.membership.branches = owned.instances.keys) ∧
    (∀ owner ∈ c.calls, ∀ lifetime ∈ owner.lifetime,
      ∃ latest ∈ c.shared.published.owner, lifetime ≤ latest) ∧
    (∀ latest ∈ c.shared.published.owner, weigh (Owner.of latest) c.calls = 1) ∧
    (∀ owned, .idle owned ∈ c.calls → owned.membership.owner = c.shared.published.owner →
      c.shared.published = owned.membership) ∧
    (∀ lifetime, .dropped lifetime ∈ c.calls → lifetime = c.shared.published.owner →
      c.shared.published = .empty lifetime) ∧
    (∀ owner ∈ c.calls, owner.lifetime ≠ none → owner.lifetime ≠ c.shared.published.owner →
      ∀ presence' owner', OwnerStep ε c.shared owner presence' owner' → presence' = c.shared) ∧
    (∀ owned, .idle owned ∈ c.calls →
      (∀ key now capacity create owned' changed (result : Except ε (BranchAdmission K V)),
        owned.admits key now capacity create = some (owned', changed, result) →
        (owned'.finish changed = .idle owned' ↔ owned'.membership = owned.membership) ∧
        ∀ e, result = .error e → owned'.finish changed = .idle owned) ∧
      ∀ now maxIdle owned' changed expired,
        owned.expire now maxIdle = some (owned', changed, expired) →
        (owned'.finish changed = .idle owned' ↔ owned'.membership = owned.membership)) := by
  have hsound := soundOwners h
  have hfinish : ∀ {owned owned' : OwnedBranches K V} {changed : Bool},
      owned.Changes owned' changed →
      (owned'.finish changed = .idle owned' ↔ owned'.membership = owned.membership) := by
    intro owned owned' changed hchanges
    rw [← not_iff_not, ← ne_eq, ← ne_eq, ← hchanges.changed, OwnedBranches.finish]
    cases changed <;> simp
  refine ⟨fun owner hmem owned howned => ?_, fun owner hmem lifetime hlifetime => ?_,
    fun latest hlatest => ?_, fun owned hmem => (hsound.owners _ hmem).2.2,
    fun lifetime hmem => (hsound.owners _ hmem).2,
    fun owner hmem hclaimed hother presence' owner' hstep => ?_, fun owned hmem => ⟨?_, ?_⟩⟩
  · have howner := hsound.owners owner hmem
    cases owner with
    | claiming | dropped => cases howned
    | idle =>
      cases howned
      exact howner.1
    | publishing => exact (howner.2.2.1 owned howned).1
  · have hone : 1 ≤ weigh (Owner.of lifetime) c.calls := by
      refine le_trans ?_ (le_weigh_of_mem hmem)
      rw [Owner.of, if_pos (mem_def.mp hlifetime)]
    rw [hsound.lifetimes, started] at hone
    cases howner : c.shared.published.owner with
    | none =>
      rw [howner] at hone
      split_ifs at hone with hle
      · exact absurd hle.2 (Nat.not_le.mpr hle.1)
      · cases hone
    | some latest =>
      rw [howner] at hone
      split_ifs at hone with hle
      · exact ⟨latest, rfl, hle.2⟩
      · cases hone
  · rw [hsound.lifetimes, started, hlatest, if_pos]
    refine ⟨Nat.pos_of_ne_zero fun hzero => hsound.first ?_, le_rfl⟩
    rw [hlatest, hzero]
  · cases hstep.effect (hsound.owners owner hmem) with
    | kept => rfl
    | claimed hnone => exact (hclaimed hnone).elim
    | published hlifetime _ hcurrent => exact (hother (hlifetime.trans hcurrent.symm)).elim
  · intro key now capacity create owned' changed result hadm
    obtain ⟨hchanges, herror⟩ := OwnedBranches.admit_changes (hsound.owners _ hmem).1 hadm
    refine ⟨hfinish hchanges, fun e he => ?_⟩
    obtain rfl := herror e he
    exact (hfinish hchanges).mpr rfl
  · intro now maxIdle owned' changed expired hexpire
    exact hfinish (OwnedBranches.expire_changes (hsound.owners _ hmem).1 hexpire)

theorem reachable_step (h : (owners K V ε).Reachable c₀ ⟨presence, owner ::ₘ others⟩)
    (hstep : OwnerStep ε presence owner presence' owner') :
    (owners K V ε).Reachable c₀ ⟨presence', owner' ::ₘ others⟩ :=
  h.step₁ ⟨owner', hstep, rfl⟩

def heldBranch : OwnedBranches Nat Unit :=
  ⟨⟨⟨[(7, ⟨0, 1, ()⟩)], by simp⟩, 1⟩, ⟨some 1, false, {7}⟩⟩

theorem reachable_superseded :
    (owners Nat Unit Unit).Reachable ⟨{}, 0⟩
      ⟨⟨.empty (some 2), 3⟩, {.idle (.claimed 2), .idle heldBranch}⟩ := by
  have hadm : (OwnedBranches.claimed 1 : OwnedBranches Nat Unit).admits (some 7) 0 none
      (fun _ _ => (.ok () : Except Unit Unit)) =
      some (heldBranch, true, .ok ⟨some (), []⟩) := rfl
  have h : (owners Nat Unit Unit).Reachable ⟨{}, 0⟩ _ := .start .refl rfl
  have h := reachable_step h (.claim rfl)
  have h := reachable_step h (.claim rfl)
  have h := reachable_step h (.admits hadm)
  have h := reachable_step h .publish
  have h := reachable_step h .publish
  have h := h.start rfl
  have h := reachable_step h (.claim rfl)
  exact reachable_step h (.claim rfl)

theorem superseded_membership :
    (⟨.empty (some 2), 3⟩ : BranchPresence Nat).published =
      (OwnedBranches.claimed 2 : OwnedBranches Nat Unit).membership ∧
    heldBranch.membership.branches = heldBranch.instances.keys ∧
    ∀ presence' owner', OwnerStep Unit ⟨.empty (some 2), 3⟩ (.idle heldBranch) presence' owner' →
      presence' = ⟨.empty (some 2), 3⟩ := by
  obtain ⟨hkeys, -, -, hidle, -, hsuperseded, -⟩ := published_membership reachable_superseded
  have hheld : .idle heldBranch ∈
      ({.idle (.claimed 2), .idle heldBranch} : Multiset (Owner Nat Unit)) := by simp
  exact ⟨hidle (.claimed 2) (by simp) rfl, hkeys _ hheld heldBranch rfl,
    hsuperseded _ hheld nofun nofun⟩

end Nervix.BranchInstances
