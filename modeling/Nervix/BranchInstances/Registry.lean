import Nervix.Theory.OrderedMap
import Nervix.Theory.System

/-!
# The branch instance registry

The branches of one owner in the order of their last use, with the revision of what a lifecycle
checkpoint saves of them. A replica acknowledges a checkpoint by its revision alone, so a revision
must stand for one branch set.
-/

namespace Nervix.BranchInstances

open Option

abbrev Timestamp := Int

def u64Max : Nat := 2 ^ 64 - 1

variable {K V ε : Type}

structure BranchInstanceEntry (V : Type) where
  lastIngestion : Timestamp
  incarnation : Nat
  state : V

structure BranchInstanceRegistry (K V : Type) where
  entries : OrderedMap K (BranchInstanceEntry V) := {}
  version : Nat := 0

structure BranchInstanceSnapshotEntry (K : Type) where
  key : K
  lastIngestion : Timestamp
  incarnation : Nat
  deriving DecidableEq

structure GetOrCreateBranchInstance (V : Type) where
  state : V
  created : Bool

namespace BranchInstanceRegistry

variable (registry : BranchInstanceRegistry K V)

/-! ## Operations

An operation is `none` where the code panics because the version has no successor. -/

def setVersion (version : Nat) : BranchInstanceRegistry K V := { registry with version }

def snapshotEntries : List (BranchInstanceSnapshotEntry K) :=
  registry.entries.entries.map fun e => ⟨e.1, e.2.lastIngestion, e.2.incarnation⟩

def nextVersion : Option Nat :=
  if registry.version < u64Max then some (registry.version + 1) else none

def bumpVersion : Option (BranchInstanceRegistry K V) :=
  registry.nextVersion.map registry.setVersion

def release (n : Nat) : Option (BranchInstanceRegistry K V × List (K × V)) :=
  let released := (registry.entries.entries.take n).map fun e => (e.1, e.2.state)
  let registry := { registry with entries := registry.entries.drop n }
  if released.isEmpty then some (registry, released)
  else registry.bumpVersion.map fun registry => (registry, released)

def idle (now : Timestamp) (maxIdle : Nat) (e : K × BranchInstanceEntry V) : Bool :=
  decide (e.2.lastIngestion ≤ now ∧ (maxIdle : Int) ≤ now - e.2.lastIngestion)

def expire (now : Timestamp) (maxIdle : Nat) : Option (BranchInstanceRegistry K V × List (K × V)) :=
  registry.release (registry.entries.entries.takeWhile (idle now maxIdle)).length

def evictLruToCapacity (maxEntries : Nat) : Option (BranchInstanceRegistry K V × List (K × V)) :=
  registry.release (registry.entries.length - maxEntries)

def drain : Option (BranchInstanceRegistry K V × List (K × V)) :=
  registry.release registry.entries.length

variable [DecidableEq K]

def insertRestored (key : K) (lastIngestion : Timestamp) (incarnation : Nat) (state : V) :
    BranchInstanceRegistry K V :=
  { registry with entries := registry.entries.put key ⟨lastIngestion, incarnation, state⟩ }

def insertChanged (key : K) (lastIngestion : Timestamp) (state : V) :
    Option (BranchInstanceRegistry K V) := do
  let incarnation ← registry.nextVersion
  (registry.insertRestored key lastIngestion incarnation state).bumpVersion

def touch (key : K) (now : Timestamp) : Option (BranchInstanceRegistry K V × Option V) :=
  match registry.entries.get key with
  | none => some (registry, none)
  | some entry => do
    let entries := registry.entries.modify key fun entry => { entry with lastIngestion := now }
    let registry ← { registry with entries : BranchInstanceRegistry K V }.bumpVersion
    return ({ registry with entries := registry.entries.moveToEnd key }, some entry.state)

def getOrTryCreateWith (key : K) (now : Timestamp) (create : K → Nat → Except ε V) :
    Option (BranchInstanceRegistry K V × Except ε (GetOrCreateBranchInstance V)) := do
  match ← registry.touch key now with
  | (registry, some state) => return (registry, .ok ⟨state, false⟩)
  | (registry, none) =>
    let incarnation ← registry.nextVersion
    match create key incarnation with
    | .error e => return (registry, .error e)
    | .ok state =>
      let registry ← (registry.insertRestored key now incarnation state).bumpVersion
      return (registry, .ok ⟨state, true⟩)

def remove (key : K) : Option (BranchInstanceRegistry K V × Option V) :=
  match registry.entries.get key with
  | none => some (registry, none)
  | some entry =>
    { registry with entries := registry.entries.remove key }.bumpVersion.map fun registry =>
      (registry, some entry.state)

variable {registry registry' : BranchInstanceRegistry K V} {key : K} {now : Timestamp}

theorem bumpVersion_eq_some :
    registry.bumpVersion = some registry' ↔
      registry.version < u64Max ∧ registry' = registry.setVersion (registry.version + 1) := by
  simp only [bumpVersion, nextVersion, map_eq_some_iff, ite_none_right_eq_some]
  constructor
  · rintro ⟨_, ⟨h, ⟨⟩⟩, rfl⟩
    exact ⟨h, rfl⟩
  · rintro ⟨h, rfl⟩
    exact ⟨_, ⟨h, rfl⟩, rfl⟩

theorem nextVersion_eq_some {version : Nat} (h : registry.nextVersion = some version) :
    version = registry.version + 1 := by
  rw [nextVersion, ite_none_right_eq_some] at h
  exact (Option.some.inj h.2).symm

theorem release_cases (h : registry.release n = some (registry', released)) :
    released.map Prod.fst = registry.entries.oldestKeys n ∧
    (registry.entries.oldestKeys n = [] ∧ registry' = registry ∨
      registry.entries.oldestKeys n ≠ [] ∧
        registry' = ⟨registry.entries.drop n, registry.version + 1⟩) := by
  have hkeys : ((registry.entries.entries.take n).map fun e => (e.1, e.2.state)).map Prod.fst =
      registry.entries.oldestKeys n := by
    rw [List.map_map]
    rfl
  simp only [release] at h
  split at h
  · rename_i hempty
    cases h
    have htake : registry.entries.entries.take n = [] := by simpa using hempty
    refine ⟨hkeys, .inl ⟨by rw [OrderedMap.oldestKeys, htake, List.map_nil], ?_⟩⟩
    have hdrop := List.take_append_drop n registry.entries.entries
    rw [htake, List.nil_append] at hdrop
    rw [OrderedMap.ext (m := registry.entries.drop n) hdrop]
  · rename_i hne
    obtain ⟨bumped, hbump, heq⟩ := map_eq_some_iff.mp h
    obtain ⟨-, rfl⟩ := bumpVersion_eq_some.mp hbump
    cases heq
    refine ⟨hkeys, .inr ⟨fun hnil => hne ?_, rfl⟩⟩
    rw [← hkeys, List.map_eq_nil_iff] at hnil
    rw [hnil, List.isEmpty_nil]

theorem touch_cases (h : registry.touch key now = some (registry', state)) :
    registry.entries.get key = none ∧ registry' = registry ∧ state = none ∨
    ∃ entry, registry.entries.get key = some entry ∧ state = some entry.state ∧
      registry' = ⟨(registry.entries.modify key fun entry =>
        { entry with lastIngestion := now }).moveToEnd key, registry.version + 1⟩ := by
  rw [touch] at h
  cases hget : registry.entries.get key with
  | none =>
    rw [hget] at h
    cases h
    exact .inl ⟨rfl, rfl, rfl⟩
  | some entry =>
    simp only [hget, bind_eq_bind, pure_def, bind_eq_some_iff] at h
    obtain ⟨bumped, hbump, heq⟩ := h
    obtain ⟨-, rfl⟩ := bumpVersion_eq_some.mp hbump
    cases heq
    exact .inr ⟨entry, rfl, rfl, rfl⟩

theorem getOrTryCreateWith_cases {create : K → Nat → Except ε V}
    {result : Except ε (GetOrCreateBranchInstance V)}
    (h : registry.getOrTryCreateWith key now create = some (registry', result)) :
    (∃ entry, registry.entries.get key = some entry ∧ result = .ok ⟨entry.state, false⟩ ∧
      registry' = ⟨(registry.entries.modify key fun entry =>
        { entry with lastIngestion := now }).moveToEnd key, registry.version + 1⟩) ∨
    (∃ e, registry.entries.get key = none ∧ registry' = registry ∧ result = .error e) ∨
    ∃ state, registry.entries.get key = none ∧ result = .ok ⟨state, true⟩ ∧
      registry' = ⟨registry.entries.put key ⟨now, registry.version + 1, state⟩,
        registry.version + 1⟩ := by
  simp only [getOrTryCreateWith, bind_eq_bind, pure_def, bind_eq_some_iff] at h
  obtain ⟨⟨touched, state⟩, htouch, h⟩ := h
  rcases touch_cases htouch with ⟨hget, rfl, rfl⟩ | ⟨entry, hget, rfl, rfl⟩
  · obtain ⟨incarnation, hnext, h⟩ := bind_eq_some_iff.mp h
    obtain rfl := nextVersion_eq_some hnext
    split at h
    · cases h
      exact .inr (.inl ⟨_, hget, rfl, rfl⟩)
    · obtain ⟨bumped, hbump, heq⟩ := bind_eq_some_iff.mp h
      obtain ⟨-, rfl⟩ := bumpVersion_eq_some.mp hbump
      cases heq
      exact .inr (.inr ⟨_, hget, rfl, rfl⟩)
  · cases h
    exact .inl ⟨entry, hget, rfl, rfl⟩

end BranchInstanceRegistry

open BranchInstanceRegistry

variable [DecidableEq K]

inductive Action (K V ε : Type)
  | getOrTryCreateWith (key : K) (now : Timestamp) (create : K → Nat → Except ε V)
  | touch (key : K) (now : Timestamp)
  | remove (key : K)
  | expire (now : Timestamp) (maxIdle : Nat)
  | evictLruToCapacity (maxEntries : Nat)
  | insertChanged (key : K) (lastIngestion : Timestamp) (state : V)
  | drain

def BranchInstanceRegistry.apply (registry : BranchInstanceRegistry K V) :
    Action K V ε → Option (BranchInstanceRegistry K V × Option K)
  | .getOrTryCreateWith key now create =>
    (registry.getOrTryCreateWith key now create).map fun r =>
      (r.1, match r.2 with
        | .ok ⟨_, true⟩ => some key
        | _ => none)
  | .touch key now => (registry.touch key now).map fun r => (r.1, none)
  | .remove key => (registry.remove key).map fun r => (r.1, none)
  | .expire now maxIdle => (registry.expire now maxIdle).map fun r => (r.1, none)
  | .evictLruToCapacity maxEntries =>
    (registry.evictLruToCapacity maxEntries).map fun r => (r.1, none)
  | .insertChanged key lastIngestion state =>
    (registry.insertChanged key lastIngestion state).map fun registry => (registry, some key)
  | .drain => registry.drain.map fun r => (r.1, none)

structure Moment (K V : Type) where
  registry : BranchInstanceRegistry K V
  created : List (K × Nat) := []

def BranchInstanceRegistry.creation (registry : BranchInstanceRegistry K V) (key : Option K) :
    List (K × Nat) :=
  (key.bind fun key => (registry.entries.get key).map fun entry => (key, entry.incarnation)).toList

def registrySystem (K V ε : Type) [DecidableEq K] : System (Moment K V) (Action K V ε) where
  guard m action := m.registry.apply action ≠ none
  next m action :=
    match m.registry.apply action with
    | some (registry, key) => ⟨registry, registry.creation key ++ m.created⟩
    | none => m

inductive BranchInstanceRegistry.Changes (registry : BranchInstanceRegistry K V) :
    BranchInstanceRegistry K V → List (K × Nat) → Prop
  | same : Changes registry registry []
  | changed {registry' : BranchInstanceRegistry K V} : registry'.version = registry.version + 1 →
    (∀ e' ∈ registry'.entries.entries, ∃ e ∈ registry.entries.entries,
      e.2.incarnation = e'.2.incarnation) →
    Changes registry registry' []
  | created {registry' : BranchInstanceRegistry K V} {key : K} :
    registry'.version = registry.version + 1 →
    (∀ e' ∈ registry'.entries.entries, e'.2.incarnation = registry.version + 1 ∨
      ∃ e ∈ registry.entries.entries, e.2.incarnation = e'.2.incarnation) →
    Changes registry registry' [(key, registry.version + 1)]

namespace BranchInstanceRegistry

variable {registry registry' : BranchInstanceRegistry K V} {key : K}

theorem Changes.of_release
    (h : registry.release n = some (registry', released)) : registry.Changes registry' [] := by
  rcases (release_cases h).2 with ⟨-, rfl⟩ | ⟨-, rfl⟩
  · exact .same
  · exact .changed rfl fun e he => ⟨e, List.mem_of_mem_drop he, rfl⟩

theorem Changes.touched (now : Timestamp) :
    registry.Changes ⟨(registry.entries.modify key fun entry =>
      { entry with lastIngestion := now }).moveToEnd key, registry.version + 1⟩ [] := by
  refine .changed rfl fun e' he' => ?_
  obtain ⟨e, he, rfl⟩ := List.mem_map.mp (OrderedMap.mem_entries_moveToEnd.mp he')
  refine ⟨e, he, ?_⟩
  split <;> rfl

theorem Changes.put (now : Timestamp) (state : V) :
    let registry' : BranchInstanceRegistry K V :=
      ⟨registry.entries.put key ⟨now, registry.version + 1, state⟩, registry.version + 1⟩
    registry.Changes registry' (registry'.creation (some key)) := by
  intro registry'
  have hcreation : registry'.creation (some key) = [(key, registry.version + 1)] := by
    simp [registry', creation, OrderedMap.get_put]
  rw [hcreation]
  refine .created rfl fun e' he' => ?_
  rcases OrderedMap.mem_entries_put.mp he' with rfl | ⟨he, -⟩
  · exact .inl rfl
  · exact .inr ⟨e', he, rfl⟩

theorem apply_changes {action : Action K V ε} {key : Option K}
    (h : registry.apply action = some (registry', key)) :
    registry.Changes registry' (registry'.creation key) := by
  cases action with
  | getOrTryCreateWith k now create =>
    obtain ⟨⟨after, result⟩, hcreate, heq⟩ := map_eq_some_iff.mp h
    rcases getOrTryCreateWith_cases hcreate with
      ⟨entry, -, rfl, rfl⟩ | ⟨e, -, rfl, rfl⟩ | ⟨state, -, rfl, rfl⟩
    · cases heq
      exact .touched now
    · cases heq
      exact .same
    · cases heq
      exact .put now state
  | touch k now =>
    obtain ⟨⟨after, result⟩, htouch, heq⟩ := map_eq_some_iff.mp h
    cases heq
    rcases touch_cases htouch with ⟨-, rfl, -⟩ | ⟨entry, -, -, rfl⟩
    · exact .same
    · exact .touched now
  | remove k =>
    obtain ⟨⟨after, result⟩, hremove, heq⟩ := map_eq_some_iff.mp h
    cases heq
    rw [remove] at hremove
    split at hremove
    · cases hremove
      exact .same
    · obtain ⟨bumped, hbump, heq⟩ := map_eq_some_iff.mp hremove
      obtain ⟨-, rfl⟩ := bumpVersion_eq_some.mp hbump
      cases heq
      exact .changed rfl fun e he => ⟨e, List.mem_of_mem_filter he, rfl⟩
  | insertChanged k lastIngestion state =>
    obtain ⟨after, hinsert, heq⟩ := map_eq_some_iff.mp h
    cases heq
    obtain ⟨incarnation, hnext, hbump⟩ := bind_eq_some_iff.mp hinsert
    obtain rfl := nextVersion_eq_some hnext
    obtain ⟨-, rfl⟩ := bumpVersion_eq_some.mp hbump
    exact .put lastIngestion state
  | expire | evictLruToCapacity | drain =>
    obtain ⟨⟨after, result⟩, hrelease, heq⟩ := map_eq_some_iff.mp h
    cases heq
    exact .of_release hrelease

end BranchInstanceRegistry

structure Moment.Sound (m : Moment K V) : Prop where
  entries : ∀ e ∈ m.registry.entries.entries, e.2.incarnation ≤ m.registry.version
  created : ∀ c ∈ m.created, c.2 ≤ m.registry.version
  rising : m.created.Pairwise fun c c' => c'.2 < c.2

structure Moment.Follows (m m' : Moment K V) : Prop where
  version : m.registry.version ≤ m'.registry.version
  same : m.registry.version = m'.registry.version → m'.registry = m.registry
  created : ∃ later, m'.created = later ++ m.created ∧ ∀ c ∈ later, m.registry.version < c.2

namespace Moment

variable {m m' m₀ : Moment K V} {created : List (K × Nat)}

theorem Sound.changes (h : m.Sound) (hchanges : m.registry.Changes registry' created) :
    Sound ⟨registry', created ++ m.created⟩ := by
  cases hchanges with
  | same => exact h
  | changed hversion hentries =>
    have hle := Nat.le.intro hversion.symm
    refine ⟨fun e' he' => ?_, fun c hc => (h.created c hc).trans hle, h.rising⟩
    obtain ⟨e, he, heq⟩ := hentries e' he'
    exact heq ▸ (h.entries e he).trans hle
  | created hversion hentries =>
    have hle := Nat.le.intro hversion.symm
    refine ⟨fun e' he' => ?_, List.forall_mem_cons.mpr ⟨hversion.ge, fun c hc => ?_⟩,
      List.pairwise_cons.mpr ⟨fun c hc => Nat.lt_succ_of_le (h.created c hc), h.rising⟩⟩
    · rcases hentries e' he' with heq | ⟨e, he, heq⟩
      · exact heq ▸ hversion.ge
      · exact heq ▸ (h.entries e he).trans hle
    · exact (h.created c hc).trans hle

theorem Follows.changes (h : m₀.Follows m) (hchanges : m.registry.Changes registry' created) :
    m₀.Follows ⟨registry', created ++ m.created⟩ := by
  obtain ⟨hle, hsame, later, heq, hlater⟩ := h
  cases hchanges with
  | same => exact ⟨hle, hsame, later, heq, hlater⟩
  | changed hversion =>
    refine ⟨hle.trans (Nat.le.intro hversion.symm), fun hv => ?_, later, heq, hlater⟩
    exact absurd (hv.trans hversion) (Nat.lt_succ_of_le hle).ne
  | @created _ key hversion =>
    refine ⟨hle.trans (Nat.le.intro hversion.symm), fun hv => ?_,
      (key, m.registry.version + 1) :: later, by rw [heq]; rfl,
      List.forall_mem_cons.mpr ⟨Nat.lt_succ_of_le hle, hlater⟩⟩
    exact absurd (hv.trans hversion) (Nat.lt_succ_of_le hle).ne

theorem Sound.run (h : m.Sound) (hrun : (registrySystem K V ε).Run m m') :
    m'.Sound ∧ m.Follows m' := by
  refine hrun.inv (P := fun m' => m'.Sound ∧ m.Follows m')
    ⟨h, le_rfl, fun _ => rfl, [], rfl, by simp⟩ fun {m' action} hm' hguard => ?_
  obtain ⟨⟨registry', key⟩, happly⟩ := ne_none_iff_exists'.mp hguard
  simp only [registrySystem, happly]
  have hchanges := apply_changes happly
  exact ⟨hm'.1.changes hchanges, hm'.2.changes hchanges⟩

end Moment

/-- **Revisions identify branch sets.** In a run from restored branches, two moments of one version
save the same entries, the version never falls, and a branch that is created has an incarnation
larger than any that was seen or created before. -/
theorem version_identifies {registry : BranchInstanceRegistry K V} {m m' : Moment K V}
    (hrestored : ∀ e ∈ registry.entries.entries, e.2.incarnation ≤ registry.version)
    (hm : (registrySystem K V ε).Run ⟨registry, []⟩ m) (hm' : (registrySystem K V ε).Run m m') :
    m.registry.version ≤ m'.registry.version ∧
    (m.registry.version = m'.registry.version →
      m.registry.snapshotEntries = m'.registry.snapshotEntries) ∧
    m'.created.Pairwise (fun c c' => c'.2 < c.2) ∧
    ∃ later, m'.created = later ++ m.created ∧ ∀ c ∈ later,
      (∀ entry ∈ m.registry.snapshotEntries, entry.incarnation < c.2) ∧
      ∀ c' ∈ m.created, c'.2 < c.2 := by
  have hstart : Moment.Sound ⟨registry, []⟩ := ⟨hrestored, by simp, .nil⟩
  obtain ⟨hsound, -⟩ := hstart.run hm
  obtain ⟨hsound', hversion, hsame, later, heq, hlater⟩ := hsound.run hm'
  refine ⟨hversion, fun hv => (congrArg snapshotEntries (hsame hv)).symm, hsound'.rising, later, heq,
    fun c hc => ⟨fun entry hentry => ?_, fun c' hc' => ?_⟩⟩
  · obtain ⟨e, he, rfl⟩ := List.mem_map.mp hentry
    exact (hsound.entries e he).trans_lt (hlater c hc)
  · exact (hsound.created c' hc').trans_lt (hlater c hc)

def restoredOne : BranchInstanceRegistry Nat Unit := ⟨⟨[(1, ⟨0, 3, ()⟩)], by simp⟩, 3⟩

/-- Branch 2 is created after a failed attempt, and branch 1 is removed and inserted again. -/
theorem restoredOne_identifies :
    ∃ m : Moment Nat Unit, (registrySystem Nat Unit Unit).Run ⟨restoredOne, []⟩ m ∧
      m.created = [(1, 6), (2, 4)] ∧ m.created.Pairwise (fun c c' => c'.2 < c.2) ∧
      restoredOne.version ≤ m.registry.version := by
  have hrun := ((((System.Run.refl (S := registrySystem Nat Unit Unit) (s := ⟨restoredOne, []⟩)).tail
    (i := .getOrTryCreateWith 2 5 fun _ _ => .error ()) nofun).tail
    (i := .getOrTryCreateWith 2 6 fun _ _ => .ok ()) nofun).tail
    (i := .remove 1) nofun).tail (i := .insertChanged 1 7 ()) nofun
  have hrestored : ∀ e ∈ restoredOne.entries.entries, e.2.incarnation ≤ restoredOne.version := by
    simp [restoredOne]
  obtain ⟨hversion, -, hrising, -⟩ := version_identifies hrestored .refl hrun
  exact ⟨_, hrun, rfl, hrising, hversion⟩

end Nervix.BranchInstances
