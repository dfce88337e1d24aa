import Nervix.Theory.Recency
import Nervix.RateLimit.Generation

/-!
# The keys that a limiter retains

The shards of a keyed store are the parts of one list: the retained keys in the order of their last
visit. Visits are numbered and instants do not decrease, so the list is ordered by both, expiry takes
its front, and the least recently used key of all is the oldest one of its shard.
-/

namespace Nervix.RateLimit

open Recency
open Option
open List hiding erase insert keys mem_keys pure_def

namespace KeyedStore

variable {store store' : KeyedStore} {l : List (KeyFingerprint × Entry)} {key : KeyFingerprint}
variable {now : Nat}

def live (ttl now : Nat) (l : List (KeyFingerprint × Entry)) : List (KeyFingerprint × Entry) :=
  l.filter fun e => now - e.2.lastSeen < ttl

structure Ordered (now : Nat) (store : KeyedStore) (l : List (KeyFingerprint × Entry)) : Prop where
  shards : ∀ i, (store.shards i).entries = l.filter fun e => store.shard e.1 = i
  nodup : (keys l).Nodup
  order : l.Pairwise fun a b => a.2.ordinal < b.2.ordinal ∧ a.2.lastSeen ≤ b.2.lastSeen
  below : ∀ e ∈ l, e.2.ordinal < store.visits
  seen : ∀ e ∈ l, e.2.lastSeen ≤ now
  capacity : l.length ≤ store.options.maxKeys
  visits : store.visits ≤ u64Max

theorem shard_lt (store : KeyedStore) (key : KeyFingerprint) :
    store.shard key < store.options.shards := Nat.mod_lt _ store.options.shards_pos

theorem Ordered.mono (h : Ordered now store l) (hle : now ≤ now') : Ordered now' store l :=
  { h with seen := fun e he => (h.seen e he).trans hle }

theorem Ordered.new {options : KeyedOptions} : Ordered now { options := options } [] where
  shards _ := rfl
  nodup := nodup_nil
  order := .nil
  below := by simp
  seen := by simp
  capacity := Nat.zero_le _
  visits := Nat.zero_le _

theorem get_setShard {i : Nat} {shard : Shard} : (store.setShard i shard).get key =
    if store.shard key = i then shard.get key else store.get key := by
  change (Function.update store.shards i shard (store.shard key)).get key = _
  rw [Function.update_apply]
  split <;> rfl

/-- What is not counted as removed stays, the visited key apart. -/
structure Keeps (visited : Option KeyFingerprint) (store store' : KeyedStore) : Prop where
  removed : ∀ key, store.removed.count key ≤ store'.removed.count key
  kept : ∀ key, some key ≠ visited → store'.removed.count key = store.removed.count key →
    store'.get key = store.get key

theorem Keeps.refl : Keeps visited store store := ⟨fun _ => le_rfl, fun _ _ _ => rfl⟩

theorem Keeps.trans (h₁ : Keeps none store₁ store₂) (h₂ : Keeps visited store₂ store₃) :
    Keeps visited store₁ store₃ := by
  refine ⟨fun key => (h₁.removed key).trans (h₂.removed key), fun key hne h => ?_⟩
  have := h₁.removed key
  have := h₂.removed key
  rw [h₂.kept key hne (by omega), h₁.kept key (by simp) (by omega)]

theorem Keeps.removeOldest : Keeps none store (store.removeOldest i n) := by
  refine ⟨fun key => ?_, fun key _ h => ?_⟩
  · simp [KeyedStore.removeOldest]
  have hmem : key ∉ (store.shards i).oldestKeys n := by
    rw [← count_eq_zero]
    simpa [KeyedStore.removeOldest, count_append] using h
  change (store.setShard i ((store.shards i).drop n)).get key = _
  rw [get_setShard]
  split
  · subst i
    rw [OrderedMap.get_drop hmem]
    rfl
  · rfl

section
variable (h : Ordered now store l)
include h

theorem Ordered.get_eq_some_iff : store.get key = some entry ↔ (key, entry) ∈ l := by
  rw [KeyedStore.get, OrderedMap.get_eq_some_iff, h.shards]
  simp

theorem Ordered.contains_iff : store.contains key = true ↔ key ∈ keys l := by
  simp only [contains, isSome_iff_exists, h.get_eq_some_iff, mem_keys]

theorem Ordered.get_eq_none_iff : store.get key = none ↔ key ∉ keys l := by
  rw [← h.contains_iff, contains, Bool.not_eq_true, isSome_eq_false_iff, isNone_iff_eq_none]

theorem Ordered.get_congr (h' : Ordered now' store' l')
    (hmem : ∀ entry, (key, entry) ∈ l' ↔ (key, entry) ∈ l) : store'.get key = store.get key := by
  refine Option.ext fun entry => ?_
  rw [h'.get_eq_some_iff, h.get_eq_some_iff, hmem]

theorem Ordered.nodup_list : l.Nodup := .of_map _ h.nodup

theorem Ordered.perm : store.entries.Perm l := by
  have hmem : ∀ i, ∀ e, e ∈ (store.shards i).entries ↔ e ∈ l ∧ store.shard e.1 = i := by
    intro i e
    rw [h.shards]
    simp
  have hnodup : store.entries.Nodup := by
    refine nodup_flatMap.mpr ⟨fun i _ => .of_map _ (store.shards i).nodup, ?_⟩
    refine nodup_range.imp_of_mem fun {i j} _ _ hij e hi hj => hij ?_
    rw [← ((hmem i e).mp hi).2, ((hmem j e).mp hj).2]
  refine (perm_ext_iff_of_nodup hnodup h.nodup_list).mpr fun e => ?_
  simp only [entries, mem_flatMap, mem_range, hmem]
  exact ⟨fun ⟨_, _, he, _⟩ => he, fun he => ⟨_, store.shard_lt e.1, he, rfl⟩⟩

theorem Ordered.active_eq : store.active = l.length := by
  rw [← h.perm.length_eq, entries, length_flatMap]
  rfl

theorem Ordered.filter
    (hoptions : store'.options = store.options) (hvisits : store'.visits = store.visits)
    (hshards : ∀ i, (store'.shards i).entries = (store.shards i).entries.filter p) :
    Ordered now store' (l.filter p) where
  shards i := by
    have hshard : ∀ key, store'.shard key = store.shard key := fun key => by
      rw [shard, hoptions, shard]
    simp only [hshards, h.shards, hshard]
    exact filter_comm ..
  nodup := h.nodup.sublist (filter_sublist.map _)
  order := h.order.filter _
  below e he := hvisits ▸ h.below e (mem_of_mem_filter he)
  seen e he := h.seen e (mem_of_mem_filter he)
  capacity := by
    rw [hoptions]
    exact (length_filter_le ..).trans h.capacity
  visits := hvisits ▸ h.visits

end

theorem expired_spec {entries : List (KeyFingerprint × Entry)}
    (horder : entries.Pairwise fun a b => a.2.lastSeen ≤ b.2.lastSeen)
    (hseen : ∀ e ∈ entries, e.2.lastSeen ≤ now) :
    ∃ n, expired ttl now entries = some n ∧ entries.drop n = live ttl now entries ∧
      ∀ e ∈ entries.take n, ttl ≤ now - e.2.lastSeen := by
  induction horder with
  | nil => exact ⟨0, rfl, rfl, by simp⟩
  | @cons e rest hle hrest ih =>
    have hnow : ¬ now < e.2.lastSeen := Nat.not_lt.mpr (hseen e mem_cons_self)
    by_cases hlive : now - e.2.lastSeen < ttl
    · refine ⟨0, by simp [expired, hnow, hlive], ?_, by simp⟩
      refine (filter_eq_self.mpr fun x hx => decide_eq_true ?_).symm
      rcases mem_cons.mp hx with rfl | hx
      · exact hlive
      · have := hle x hx
        omega
    · obtain ⟨n, hn, hdrop, htake⟩ := ih fun x hx => hseen x (mem_cons_of_mem _ hx)
      refine ⟨n + 1, by simp [expired, hnow, hlive, hn], ?_, ?_⟩
      · rw [drop_succ_cons, hdrop, live, live, filter_cons_of_neg (by simpa using hlive)]
      · simpa [hn] using ⟨Nat.not_lt.mp hlive, fun a b => htake (a, b)⟩

structure Expires (now : Nat) (store store' : KeyedStore) : Prop where
  options : store'.options = store.options
  visits : store.visits ≤ store'.visits
  evictions : store'.evictions = store.evictions
  shards : ∀ i, ∃ n, (store'.shards i).entries = (store.shards i).entries.drop n ∧
    ∀ e ∈ (store.shards i).entries.take n, store.options.ttl ≤ now - e.2.lastSeen

theorem Expires.refl : Expires now store store :=
  ⟨rfl, le_rfl, rfl, fun _ => ⟨0, rfl, by simp⟩⟩

theorem Expires.trans (h₁ : Expires now store₁ store₂)
    (h₂ : Expires now store₂ store₃) : Expires now store₁ store₃ := by
  refine ⟨h₂.options.trans h₁.options, h₁.visits.trans h₂.visits,
    h₂.evictions.trans h₁.evictions, fun i => ?_⟩
  obtain ⟨n, hn, hdead⟩ := h₁.shards i
  obtain ⟨m, hm, hdead'⟩ := h₂.shards i
  refine ⟨n + m, by rw [hm, hn, drop_drop], fun e he => ?_⟩
  rw [take_add, ← hn] at he
  rcases mem_append.mp he with he | he
  · exact hdead e he
  · exact h₁.options ▸ hdead' e he

theorem Ordered.expire (h : Ordered now store l) (i : Nat) :
    ∃ store', store.expire now i = some store' ∧ Expires now store store' ∧
      Keeps none store store' ∧ store'.visits = store.visits ∧ Ordered now store' (l.filter fun e => store.shard e.1 = i →
        now - e.2.lastSeen < store.options.ttl) := by
  have hsublist : (store.shards i).entries.Sublist l := h.shards i ▸ filter_sublist
  obtain ⟨n, hn, hdrop, htake⟩ := @expired_spec now store.options.ttl _
    ((h.order.sublist hsublist).imp And.right) fun e he => h.seen e (hsublist.subset he)
  refine ⟨store.removeOldest i n, by rw [KeyedStore.expire, hn, map_some], ?_, .removeOldest, rfl, ?_⟩
  · refine ⟨rfl, le_rfl, rfl, fun j => ?_⟩
    by_cases hj : j = i
    · subst j
      exact ⟨n, by simp [removeOldest, setShard, OrderedMap.drop], htake⟩
    · exact ⟨0, by simp [removeOldest, setShard, Function.update_of_ne hj], by simp⟩
  · refine h.filter rfl rfl fun j => ?_
    by_cases hj : j = i
    · subst j
      have hentries : ((store.removeOldest i n).shards i).entries = (store.shards i).entries.drop n := by
        simp [removeOldest, setShard, OrderedMap.drop]
      rw [hentries, hdrop, live]
      refine filter_congr fun e he => ?_
      have hshard : store.shard e.1 = i := by
        rw [h.shards] at he
        simpa using (mem_filter.mp he).2
      simp [hshard]
    · have hentries : ((store.removeOldest i n).shards j).entries = (store.shards j).entries := by
        simp [removeOldest, setShard, Function.update_of_ne hj]
      rw [hentries]
      refine (filter_eq_self.mpr fun e he => ?_).symm
      have hshard : store.shard e.1 = j := by
        rw [h.shards] at he
        simpa using (mem_filter.mp he).2
      simp [hshard, hj]

theorem Ordered.expireAll (h : Ordered now store l) :
    ∃ store', store.expireAll now = some store' ∧ Expires now store store' ∧
      Keeps none store store' ∧ store'.visits = store.visits ∧
      Ordered now store' (live store.options.ttl now l) := by
  have hfold : ∀ (is : List Nat) {store₁ : KeyedStore} {l₁ : List (KeyFingerprint × Entry)},
      Ordered now store₁ l₁ → ∃ store', is.foldlM (fun store i => store.expire now i) store₁ =
        some store' ∧ Expires now store₁ store' ∧ Keeps none store₁ store' ∧
        store'.visits = store₁.visits ∧ Ordered now store' (l₁.filter fun e =>
          store₁.shard e.1 ∈ is → now - e.2.lastSeen < store₁.options.ttl) := by
    intro is
    induction is with
    | nil => exact fun h₁ => ⟨_, rfl, .refl, .refl, rfl, by simpa using h₁⟩
    | cons i is ih =>
      intro store₁ l₁ h₁
      obtain ⟨store₂, heq₂, hexpires₂, hkeeps₂, hvisits₂, h₂⟩ := h₁.expire i
      obtain ⟨store₃, heq₃, hexpires₃, hkeeps₃, hvisits₃, h₃⟩ := ih h₂
      refine ⟨store₃, by rw [foldlM_cons, heq₂]; exact heq₃, hexpires₂.trans hexpires₃,
        hkeeps₂.trans hkeeps₃, hvisits₃.trans hvisits₂, ?_⟩
      have hshard : ∀ key, store₂.shard key = store₁.shard key := fun key => by
        rw [shard, hexpires₂.options, shard]
      simp only [hshard, hexpires₂.options, List.filter_filter] at h₃
      convert h₃ using 2
      funext e
      grind
  obtain ⟨store', heq, hexpires, hkeeps, hvisits, h'⟩ := hfold (List.range store.options.shards) h
  refine ⟨store', heq, hexpires, hkeeps, hvisits, ?_⟩
  rw [live]
  convert h' using 2
  funext e
  simp [store.shard_lt]

theorem live_filter
    (hp : ∀ e, now - e.2.lastSeen < ttl → p e = true) : live ttl now (l.filter p) = live ttl now l := by
  rw [live, live, List.filter_filter]
  refine filter_congr fun e _ => ?_
  by_cases hlive : now - e.2.lastSeen < ttl
  · simp [hlive, hp e hlive]
  · simp [hlive]

theorem nodup_live (h : (keys l).Nodup) : (keys (live ttl now l)).Nodup :=
  h.sublist (filter_sublist.map _)

theorem live_live : live ttl now (live ttl now l) = live ttl now l :=
  live_filter fun _ he => decide_eq_true he

theorem live_erase : live ttl now (erase l key) = erase (live ttl now l) key :=
  filter_comm ..

theorem foldl_victim (oldest : Nat → Option (KeyFingerprint × Entry)) (hfirst : oldest i = some first)
    (hleast : ∀ j e, oldest j = some e → first.2.ordinal < e.2.ordinal ∨ j = i) (is : List Nat)
    (least : Option (Nat × Nat))
    (hsofar : ∀ ordinal j, least = some (ordinal, j) → first.2.ordinal < ordinal ∨
      (ordinal, j) = (first.2.ordinal, i))
    (hfound : i ∈ is ∨ least = some (first.2.ordinal, i)) :
    is.foldl (fun (least : Option (Nat × Nat)) j =>
      match oldest j, least with
      | none, _ => least
      | some (_, entry), none => some (entry.ordinal, j)
      | some (_, entry), some (ordinal, _) =>
        if entry.ordinal < ordinal then some (entry.ordinal, j) else least) least =
      some (first.2.ordinal, i) := by
  induction is generalizing least with
  | nil => simpa using hfound
  | cons j is ih =>
    rw [foldl_cons]
    refine ih _ ?_ ?_
    · intro ordinal k hk
      split at hk
      · exact hsofar ordinal k hk
      all_goals rename_i e _ hj
      · cases hk
        rcases hleast j _ hj with hlt | rfl
        · exact .inl hlt
        · rw [hfirst] at hj
          cases hj
          exact .inr rfl
      · split at hk
        · cases hk
          rcases hleast j _ hj with hlt | rfl
          · exact .inl hlt
          · rw [hfirst] at hj
            cases hj
            exact .inr rfl
        · exact hsofar ordinal k hk
    · by_cases hj : j = i
      · subst j
        right
        rw [hfirst]
        match least, hsofar with
        | none, _ => rfl
        | some (ordinal, k), hsofar =>
          rcases hsofar ordinal k rfl with hlt | heq
          · simp [hlt]
          · cases heq
            simp
      · rcases hfound with hmem | rfl
        · exact .inl ((mem_cons.mp hmem).resolve_left fun h => hj h.symm)
        · right
          cases hoj : oldest j with
          | none => rfl
          | some e =>
            have hlt := (hleast j e hoj).resolve_right hj
            simp [Nat.not_lt.mpr hlt.le]

theorem Ordered.victim_eq (h : Ordered now store l) :
    store.victim = l.head?.map fun e => store.shard e.1 := by
  match l, h with
  | [], h =>
    have hnone : ∀ i, (store.shards i).oldest = none := fun i => by
      rw [OrderedMap.oldest, h.shards]
      rfl
    have hfold : ∀ is : List Nat, is.foldl (fun (least : Option (Nat × Nat)) i =>
        match (store.shards i).oldest, least with
        | none, _ => least
        | some (_, entry), none => some (entry.ordinal, i)
        | some (_, entry), some (ordinal, _) =>
          if entry.ordinal < ordinal then some (entry.ordinal, i) else least) none = none := by
      intro is
      induction is with
      | nil => rfl
      | cons i is ih => rw [foldl_cons, hnone]; exact ih
    exact congrArg (Option.map Prod.snd) (hfold _)
  | first :: rest, h =>
    have hfirst : (store.shards (store.shard first.1)).oldest = some first := by
      rw [OrderedMap.oldest, h.shards, filter_cons_of_pos (by simp), head?_cons]
    have hleast : ∀ j e, (store.shards j).oldest = some e →
        first.2.ordinal < e.2.ordinal ∨ j = store.shard first.1 := by
      intro j e he
      rw [OrderedMap.oldest, h.shards] at he
      obtain ⟨hmem, hshard⟩ := mem_filter.mp (mem_of_mem_head? he)
      rcases mem_cons.mp hmem with rfl | hmem
      · exact .inr (of_decide_eq_true hshard).symm
      · exact .inl ((pairwise_cons.mp h.order).1 e hmem).1
    exact congrArg (Option.map Prod.snd) (foldl_victim (fun i => (store.shards i).oldest)
      hfirst hleast _ none (by simp) (.inl (mem_range.mpr (store.shard_lt first.1))))

theorem shards_setShard {i j : Nat} {shard : Shard} :
    (store.setShard i shard).shards j = if j = i then shard else store.shards j :=
  Function.update_apply ..

theorem Ordered.remove (h : Ordered now store l) (key : KeyFingerprint) :
    Ordered now (store.setShard (store.shard key)
      ((store.shards (store.shard key)).remove key)) (erase l key) := by
  refine h.filter rfl rfl fun i => ?_
  rw [shards_setShard]
  split
  · subst i
    rfl
  · rename_i hi
    refine (filter_eq_self.mpr fun e he => ?_).symm
    rw [h.shards] at he
    have hshard := of_decide_eq_true (mem_filter.mp he).2
    exact decide_eq_true fun hkey : e.1 = key => hi (by rw [← hshard, hkey])

theorem Ordered.insert (h : Ordered now store l) (key : KeyFingerprint) (entry : Entry)
    (hkey : key ∉ keys l) (hroom : l.length < store.options.maxKeys)
    (hlast : ∀ e ∈ l, e.2.ordinal < entry.ordinal ∧ e.2.lastSeen ≤ entry.lastSeen)
    (hvisited : entry.ordinal < store.visits) (hnow : entry.lastSeen ≤ now) :
    ∃ store', store.insert key entry = some store' ∧ store'.options = store.options ∧
      store'.visits = store.visits ∧ store'.evictions = store.evictions ∧
      Keeps (some key) store store' ∧ Ordered now store' (l ++ [(key, entry)]) := by
  obtain ⟨shard, hshard⟩ := OrderedMap.insert_isSome (b := entry) (h.get_eq_none_iff.mpr hkey)
  have hentries := (OrderedMap.insert_eq_some hshard).2
  suffices h' : Ordered now (store.setShard (store.shard key) shard) (l ++ [(key, entry)]) by
    refine ⟨store.setShard _ shard, by rw [KeyedStore.insert, hshard]; rfl, rfl, rfl, rfl,
      ⟨fun _ => le_rfl, fun k hne _ => h.get_congr h' fun e => ?_⟩, h'⟩
    have hne : k ≠ key := fun hk => hne (congrArg some hk)
    simp [hne]
  constructor
  · intro i
    change _ = (l ++ [(key, entry)]).filter fun e => store.shard e.1 = i
    rw [shards_setShard, filter_append, ← h.shards]
    split
    · subst i
      simp [hentries]
    · rename_i hi
      simp [Ne.symm hi]
  · exact nodup_keys_concat h.nodup hkey
  · refine pairwise_append.mpr ⟨h.order, pairwise_singleton .., fun a ha b hb => ?_⟩
    obtain rfl := mem_singleton.mp hb
    exact hlast a ha
  · intro e he
    rcases mem_append.mp he with he | he
    · exact h.below e he
    · obtain rfl := mem_singleton.mp he
      exact hvisited
  · intro e he
    rcases mem_append.mp he with he | he
    · exact h.seen e he
    · obtain rfl := mem_singleton.mp he
      exact hnow
  · rw [length_append, length_singleton]
    exact hroom
  · exact h.visits

theorem Ordered.evict (h : Ordered now store (first :: l)) :
    ∃ store', store.evict (some (store.shard first.1)) = some store' ∧
      store'.options = store.options ∧ store'.visits = store.visits ∧
      store'.evictions = store.evictions + 1 ∧ Keeps none store store' ∧ Ordered now store' l := by
  have holdest : (store.shards (store.shard first.1)).oldest = some first := by
    rw [OrderedMap.oldest, h.shards, filter_cons_of_pos (by simp), head?_cons]
  have hkeeps : Keeps none store (store.removeOldest (store.shard first.1) 1) := .removeOldest
  refine ⟨{ store.removeOldest (store.shard first.1) 1 with evictions := store.evictions + 1 },
    by rw [KeyedStore.evict, holdest]; rfl, rfl, rfl, rfl, ⟨hkeeps.removed, hkeeps.kept⟩, ?_⟩
  constructor
  · intro i
    change ((store.setShard _ _).shards i).entries = l.filter fun e => store.shard e.1 = i
    rw [shards_setShard]
    split
    · subst i
      change ((store.shards (store.shard first.1)).entries.drop 1) = _
      rw [h.shards, filter_cons_of_pos (by simp)]
      rfl
    · rename_i hi
      rw [h.shards, filter_cons_of_neg (by simpa using Ne.symm hi)]
  · exact (nodup_cons.mp h.nodup).2
  · exact (pairwise_cons.mp h.order).2
  · exact fun e he => h.below e (mem_cons_of_mem _ he)
  · exact fun e he => h.seen e (mem_cons_of_mem _ he)
  · exact Nat.le_of_succ_le h.capacity
  · exact h.visits

theorem Ordered.makeRoom (h : Ordered now store l) (hkeys : store.options.maxKeys ≠ 0) :
    ∃ store', store.evict (if store.options.maxKeys ≤ l.length then
        l.head?.map fun e => store.shard e.1 else none) = some store' ∧
      store'.options = store.options ∧ store'.visits = store.visits ∧
      store'.evictions = store.evictions + (if store.options.maxKeys ≤ l.length then 1 else 0) ∧
      Keeps none store store' ∧ Ordered now store' (room store.options.maxKeys l) := by
  by_cases hfull : store.options.maxKeys ≤ l.length
  · match l, h with
    | [], _ => exact absurd (Nat.le_zero.mp hfull) hkeys
    | first :: rest, h =>
      simp only [room, hfull, if_true]
      exact h.evict
  · simp only [room, hfull, if_false]
    exact ⟨store, rfl, rfl, rfl, rfl, .refl, h⟩

inductive Finds (now : Nat) (store : KeyedStore) (l : List (KeyFingerprint × Entry))
    (key : KeyFingerprint) : LeaseEntry → Prop
  | present : key ∈ keys (live store.options.ttl now l) → Finds now store l key .present
  | across : key ∈ keys (live store.options.ttl now l) → Finds now store l key .across
  | vacant : key ∉ keys l → live store.options.ttl now l = l →
      Finds now store l key (.vacant 0
        (if store.options.maxKeys ≤ l.length then l.head?.map fun e => store.shard e.1 else none))

theorem prepare_of_maxKeys_eq_zero (h : store.options.maxKeys = 0) :
    store.prepare key now = some (store, .ok none) := by
  simp [prepare, h]

theorem Ordered.prepare (h : Ordered now store l) (key : KeyFingerprint) (hkeys : store.options.maxKeys ≠ 0) :
    ∃ store₁ l₁ entry, store.prepare key now = some (store₁.lease key now entry) ∧
      Expires now store store₁ ∧ Keeps none store store₁ ∧ store₁.visits = store.visits ∧
      Ordered now store₁ l₁ ∧ l₁.Sublist l ∧ live store.options.ttl now l₁ = live store.options.ttl now l ∧
      Finds now store₁ l₁ key entry := by
  obtain ⟨store₁, heq₁, hexpires₁, hkeeps₁, hvisits₁, h₁⟩ := h.expire (store.shard key)
  obtain ⟨store₂, heq₂, hexpires₂, hkeeps₂, hvisits₂, h₂⟩ := h₁.expireAll
  have hlive : ∀ {p : KeyFingerprint × Entry → Prop} [DecidablePred p],
      live store.options.ttl now (l.filter fun e => p e → now - e.2.lastSeen < store.options.ttl) =
        live store.options.ttl now l := live_filter fun e he => by simp [he]
  rw [hexpires₁.options, hlive] at h₂
  have hexpires := hexpires₁.trans hexpires₂
  have hkeeps := hkeeps₁.trans hkeeps₂
  have hvisits := hvisits₂.trans hvisits₁
  simp only [KeyedStore.prepare, hkeys, if_false, heq₁, heq₂, pure_def, bind_eq_bind, bind_some]
  by_cases hfirst : store₁.contains key = true
  · refine ⟨store₁, _, .present, by rw [if_pos hfirst], hexpires₁, hkeeps₁, hvisits₁, h₁,
      filter_sublist, hlive, .present ?_⟩
    obtain ⟨entry, hentry⟩ := mem_keys.mp (h₁.contains_iff.mp hfirst)
    have halive := of_decide_eq_true (mem_filter.mp hentry).2 rfl
    refine mem_keys.mpr ⟨entry, mem_filter.mpr ⟨hentry, decide_eq_true ?_⟩⟩
    rwa [hexpires₁.options]
  · by_cases hsecond : store₂.contains key = true
    · refine ⟨store₂, _, .across, by rw [if_neg hfirst, if_pos hsecond], hexpires, hkeeps,
        hvisits, h₂, filter_sublist, live_live, .across ?_⟩
      rw [hexpires.options, live_live]
      exact h₂.contains_iff.mp hsecond
    · refine ⟨store₂, _, .vacant 0 _, by rw [if_neg hfirst, if_neg hsecond], hexpires,
        hkeeps, hvisits, h₂, filter_sublist, live_live, ?_⟩
      rw [h₂.active_eq, h₂.victim_eq]
      refine .vacant (fun hkey => hsecond (h₂.contains_iff.mpr hkey)) ?_
      rw [hexpires.options, live_live]

def horizonIn (l : List (KeyFingerprint × Entry)) (key : KeyFingerprint) : Nat :=
  ((find l key).map Entry.cell).getD 0

theorem Ordered.cell_eq (h : Ordered now store l)
    (hfinds : Finds now store l key entry) (ordinal visits : Nat) :
    ({ store with visits := visits } : KeyedStore).cell ⟨key, now, ordinal, entry⟩ =
      some (horizonIn (live store.options.ttl now l) key) := by
  cases hfinds with
  | present hkey | across hkey =>
    obtain ⟨b, hb⟩ := mem_keys.mp hkey
    change (store.get key).map Entry.cell = _
    rw [h.get_eq_some_iff.mpr (mem_of_mem_filter hb), horizonIn,
      (find_eq_some_iff (nodup_live h.nodup)).mpr hb]
    rfl
  | vacant hkey hlive =>
    rw [hlive, horizonIn, find_eq_none_iff.mpr hkey]
    rfl

theorem Ordered.horizonIn_eq (h : Ordered now store l) (hfinds : Finds now store l key entry) :
    ((store.get key).map Entry.cell).getD 0 = horizonIn (live store.options.ttl now l) key := by
  have hcell := h.cell_eq hfinds 0 store.visits
  cases hfinds with
  | present | across => rw [show (store.get key).map Entry.cell = _ from hcell, getD_some]
  | vacant hkey =>
    rw [h.get_eq_none_iff.mpr hkey]
    exact Option.some.inj hcell

theorem Finds.live_use (h : Finds now store l key entry) (cell ordinal : Nat) :
    live store.options.ttl now (use store.options.maxKeys l key ⟨cell, now, ordinal⟩) =
      use store.options.maxKeys (live store.options.ttl now l) key ⟨cell, now, ordinal⟩ := by
  have hconcat : ∀ l', live store.options.ttl now (l' ++ [(key, ⟨cell, now, ordinal⟩)]) =
      live store.options.ttl now l' ++ [(key, ⟨cell, now, ordinal⟩)] := by
    intro l'
    simp [live, filter_append, store.options.ttl_pos]
  cases h with
  | present hkey | across hkey =>
    have hkey' : key ∈ keys l := (filter_sublist.map _).subset hkey
    rw [use, if_pos hkey', use, if_pos hkey, hconcat, live_erase]
  | vacant hkey hlive =>
    have hroom : live store.options.ttl now (room store.options.maxKeys l) =
        room store.options.maxKeys l :=
      filter_eq_self.mpr fun e he => filter_eq_self.mp hlive e (room_suffix.subset he)
    rw [hlive, use, if_neg hkey, hconcat, hroom]

theorem Finds.evicts_iff (h : Finds now store l key entry) :
    (key ∉ keys l ∧ store.options.maxKeys ≤ l.length) ↔
      key ∉ keys (live store.options.ttl now l) ∧
        store.options.maxKeys ≤ (live store.options.ttl now l).length := by
  cases h with
  | present hkey | across hkey =>
    have hkey' : key ∈ keys l := (filter_sublist.map _).subset hkey
    simp [hkey, hkey']
  | vacant hkey hlive => rw [hlive]

theorem setShard_self : store.setShard i (store.shards i) = store := by
  simp [setShard]

theorem setShard_setShard {i : Nat} {shard shard' : Shard} :
    (store.setShard i shard).setShard i shard' = store.setShard i shard' := by
  simp [setShard]

theorem setCell_self {lease : KeyLease} {refund : Nat} (h : store.cell lease = some refund) :
    (store.setCell lease refund).1 = store := by
  obtain ⟨key, now, ordinal, entry⟩ := lease
  cases entry with
  | present | across =>
    have hcell : (store.get key).map Entry.cell = some refund := h
    change store.setShard (store.shard key) (OrderedMap.modify ..) = store
    rw [OrderedMap.modify_eq_self, setShard_self]
    intro entry hentry
    have hentry : store.get key = some entry := hentry
    rw [hentry, map_some] at hcell
    rw [← Option.some.inj hcell]
  | vacant => rfl

theorem setCell_setCell {lease : KeyLease} {cell refund : Nat} :
    ((store.setCell lease cell).1.setCell (store.setCell lease cell).2 refund).1 =
      (store.setCell lease refund).1 := by
  obtain ⟨key, now, ordinal, entry⟩ := lease
  cases entry with
  | present | across =>
    change (store.setShard (store.shard key) _).setShard (store.shard key)
      (((store.setShard (store.shard key) _).shards (store.shard key)).modify key _) =
        store.setShard _ (OrderedMap.modify ..)
    rw [setShard_setShard, shards_setShard, if_pos rfl, OrderedMap.modify_modify]
  | vacant => rfl

theorem Ordered.touch (h : Ordered now store l) (hkey : (key, entry) ∈ l)
    (cell ordinal : Nat) (leased : LeaseEntry) (hlast : ∀ e ∈ l, e.2.ordinal < ordinal)
    (hvisited : ordinal < store.visits) :
    ∃ store', (store.setShard (store.shard key) ((store.shards (store.shard key)).modify key
        ({ · with cell := cell }))).touch ⟨key, now, ordinal, leased⟩ = some store' ∧
      store'.options = store.options ∧ store'.visits = store.visits ∧
      store'.evictions = store.evictions ∧ Keeps (some key) store store' ∧
      Ordered now store' (erase l key ++ [(key, ⟨cell, now, ordinal⟩)]) := by
  have hget : (store.setShard (store.shard key) ((store.shards (store.shard key)).modify key
      ({ · with cell := cell }))).get key = some { entry with cell := cell } := by
    rw [get_setShard, if_pos rfl, OrderedMap.get_modify, if_pos rfl]
    exact congrArg (Option.map _) (h.get_eq_some_iff.mpr hkey)
  have hlt := length_erase_lt (mem_keys_of_mem hkey)
  obtain ⟨store', hinsert, hoptions, hvisits, hevictions, hkeeps, h'⟩ := (h.remove key).insert key ⟨cell, now, ordinal⟩
    (fun hk => (mem_keys_erase.mp hk).2 rfl) (lt_of_lt_of_le hlt h.capacity)
    (fun e he => ⟨hlast e (mem_erase.mp he).1, h.seen e (mem_erase.mp he).1⟩) hvisited le_rfl
  refine ⟨store', ?_, hoptions, hvisits, hevictions, ⟨hkeeps.removed, fun k hne _ => ?_⟩, h'⟩
  on_goal 2 =>
    refine h.get_congr h' fun e => ?_
    have hne : k ≠ key := fun hk => hne (congrArg some hk)
    simp [mem_erase, hne]
  simp only [KeyedStore.touch, hget, bind_eq_bind, bind_some]
  change ((store.setShard (store.shard key) _).setShard (store.shard key)
    (((store.setShard (store.shard key) _).shards (store.shard key)).remove key)).insert key _ = _
  rw [setShard_setShard, shards_setShard, if_pos rfl, OrderedMap.remove_modify,
    max_eq_right (h.seen _ hkey)]
  exact hinsert

theorem Ordered.commit (h : Ordered now store l)
    (hfinds : Finds now store l key entry) (hkeys : store.options.maxKeys ≠ 0)
    (hvisits : store.visits + 1 ≤ u64Max) (cell : Nat) :
    let store₁ : KeyedStore := { store with visits := store.visits + 1 }
    let lease : KeyLease := ⟨key, now, store.visits, entry⟩
    ∃ store', (store₁.setCell lease cell).1.commit (store₁.setCell lease cell).2 = some store' ∧
      store'.options = store.options ∧ store'.visits = store.visits + 1 ∧
      store'.evictions = store.evictions +
        (if key ∉ keys l ∧ store.options.maxKeys ≤ l.length then 1 else 0) ∧
      Keeps (some key) store store' ∧ Ordered now store' (use store.options.maxKeys l key ⟨cell, now, store.visits⟩) := by
  intro store₁ lease
  have h₁ : Ordered now store₁ l :=
    { h with below := fun e he => (h.below e he).trans (Nat.lt_succ_self _), visits := hvisits }
  cases hfinds with
  | present hkey | across hkey =>
    obtain ⟨b, hb⟩ := mem_keys.mp hkey
    have hb := mem_of_mem_filter hb
    have hkey := mem_keys_of_mem hb
    obtain ⟨store', htouch, hoptions, hvisited, hevictions, hkeeps, h'⟩ :=
      h₁.touch hb cell store.visits _ h.below (Nat.lt_succ_self _)
    refine ⟨store', htouch, hoptions, hvisited, ?_, ⟨hkeeps.removed, hkeeps.kept⟩, ?_⟩
    · rw [hevictions, if_neg fun hn => hn.1 hkey]
      rfl
    · rwa [use, if_pos hkey]
  | vacant hkey hlive =>
    obtain ⟨store₂, hevict, hoptions₂, hvisits₂, hevictions₂, hkeeps₂, h₂⟩ := h₁.makeRoom hkeys
    have hroom : (room store.options.maxKeys l).length < store₂.options.maxKeys := by
      rw [hoptions₂]
      exact length_room_lt h.capacity hkeys
    obtain ⟨store', hinsert, hoptions, hvisited, hevictions, hkeeps, h'⟩ :=
      h₂.insert key ⟨cell, now, store.visits⟩
      (fun hk => hkey (keys_subset_of_suffix room_suffix hk)) hroom
      (fun e he => ⟨h.below e (room_suffix.subset he), h.seen e (room_suffix.subset he)⟩)
      (hvisits₂ ▸ Nat.lt_succ_self _) le_rfl
    have hkept := hkeeps₂.trans hkeeps
    refine ⟨store', ?_, hoptions.trans hoptions₂, hvisited.trans hvisits₂, ?_,
      ⟨hkept.removed, hkept.kept⟩, ?_⟩
    · change (store₁.evict (if store₁.options.maxKeys ≤ l.length then
        l.head?.map fun e => store₁.shard e.1 else none) >>= fun store => store.insert key _) = _
      rw [hevict]
      exact hinsert
    · rw [hevictions, hevictions₂]
      simp only [hkey, not_false_eq_true, true_and]
      rfl
    · rwa [use, if_neg hkey]

end KeyedStore
end Nervix.RateLimit
