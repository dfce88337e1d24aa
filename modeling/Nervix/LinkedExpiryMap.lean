import Nervix.Theory.Checks
import Nervix.Theory.ExpiryMap

/-!
# The linked expiry map

A hash index over allocated entries whose addresses stand in an intrusive list, the oldest entry
first. It answers as the map in expiration order of `Nervix.Theory.ExpiryMap`. A key is the handle
that its holders share, and the test on keys compares what is behind the handles.
-/

namespace Nervix

open List Except Std

namespace LinkedExpiryMap

/-- The allocation behind an `Arc<Entry>`, with its count of owners. -/
structure Entry (κ ν : Type*) where
  key : κ
  value : ν
  strong : Nat := 1

/-- The branches that no operation should take, and the accesses that would be undefined. -/
inductive Failure where
  | verified
  | assured
  | unreachable
  | debugAssertion
  | alreadyLinked
  | dangling

/-- A new allocation stands at an address that no live one has. -/
structure Allocator where
  choose : List Nat → Nat
  fresh : ∀ live, choose live ∉ live

inductive Operation (κ ν : Type*) where
  -- `insert` comes here with a handle of its own.
  | insertShared (allocator : Allocator) (key : κ) (value : ν)
  | containsKey (key : κ)
  | get (key : κ)
  | getShared (key : κ)
  -- The caller updates the value while it holds the borrow.
  | renew (key : κ) (update : ν → ν)
  | oldest
  | removeOldest
  | remove (key : κ)
  | iter
  | iterShared
  | clear
  | len
  | isEmpty

inductive Answer (κ ν : Type*) where
  | flag (b : Bool)
  | value (v : Option ν)
  | entry (e : Option (κ × ν))
  | entries (l : List (κ × ν))
  | sized (l : List (κ × ν)) (remaining : Nat)
  | count (n : Nat)
  | done

end LinkedExpiryMap

structure LinkedExpiryMap (κ ν : Type*) [BEq κ] [Hashable κ] where
  order : List Nat := []
  entries : HashMap κ Nat := {}
  heap : HashMap Nat (LinkedExpiryMap.Entry κ ν) := {}

namespace LinkedExpiryMap

variable {κ ν : Type*} [BEq κ] [Hashable κ]

section
variable (m : LinkedExpiryMap κ ν)

def deref (p : Nat) : Except Failure (Entry κ ν) :=
  match m.heap[p]? with
  | none => error .dangling
  | some e => ok e

def read (p : Nat) : Except Failure (κ × ν) := do
  let e ← m.deref p
  ok (e.key, e.value)

def pushBack (p : Nat) : Except Failure (LinkedExpiryMap κ ν) :=
  if p ∈ m.order then error .alreadyLinked else ok { m with order := m.order ++ [p] }

def unlink (p : Nat) : Except Failure (LinkedExpiryMap κ ν) :=
  if p ∈ m.order then ok { m with order := m.order.erase p } else error .verified

def insertShared (allocator : Allocator) (key : κ) (value : ν) :
    Except Failure (Answer κ ν × LinkedExpiryMap κ ν) :=
  if m.entries.contains key then ok (.flag false, m)
  else do
    let p := allocator.choose m.heap.keys
    let m ← pushBack { m with
      entries := m.entries.insert key p, heap := m.heap.insert p ⟨key, value, 1⟩ } p
    ok (.flag true, m)

def getShared (key : κ) : Except Failure (Option (κ × ν)) := m.entries[key]?.mapM m.read

def renew (key : κ) (update : ν → ν) : Except Failure (Answer κ ν × LinkedExpiryMap κ ν) :=
  match m.entries[key]? with
  | none => ok (.entry none, m)
  | some p => do
    let m ← m.unlink p
    let e ← m.deref p
    if e.strong ≠ 1 then error .assured
    let m ← m.pushBack p
    ok (.entry (some (e.key, e.value)),
      { m with heap := m.heap.insert p { e with value := update e.value } })

/-- `Arc::try_unwrap` on the handle that the index gave up. -/
def release (p : Nat) : Except Failure (Answer κ ν × LinkedExpiryMap κ ν) := do
  let e ← m.deref p
  if e.strong ≠ 1 then error .unreachable
  ok (.value (some e.value), { m with heap := m.heap.erase p })

def removeOldest : Except Failure (Answer κ ν × LinkedExpiryMap κ ν) :=
  match m.order.head? with
  | none => ok (.value none, m)
  | some p => do
    let e ← m.deref p
    match m.entries[e.key]?, m.order with
    | some q, linked :: order =>
      if q ≠ p ∨ linked ≠ p then error .debugAssertion
      else release { m with order, entries := m.entries.erase e.key } q
    | _, _ => error .verified

def remove (key : κ) : Except Failure (Answer κ ν × LinkedExpiryMap κ ν) :=
  match m.entries[key]? with
  | none => ok (.value none, m)
  | some p => do
    let m ← unlink { m with entries := m.entries.erase key } p
    m.release p

/-- `Iter::next` to its end, with the number of entries that remain. -/
def walk : List Nat → Nat → Except Failure (List (κ × ν))
  | [], _ => ok []
  | _ :: _, 0 => error .assured
  | p :: order, remaining + 1 => do
    let e ← m.read p
    let rest ← walk order remaining
    ok (e :: rest)

def apply : Operation κ ν → Except Failure (Answer κ ν × LinkedExpiryMap κ ν)
  | .insertShared allocator k v => m.insertShared allocator k v
  | .containsKey k => ok (.flag (m.entries.contains k), m)
  | .get k => do ok (.value ((← m.getShared k).map Prod.snd), m)
  | .getShared k => do ok (.entry (← m.getShared k), m)
  | .renew k update => m.renew k update
  | .oldest => do ok (.entry (← m.order.head?.mapM m.read), m)
  | .removeOldest => m.removeOldest
  | .remove k => m.remove k
  | .iter => do ok (.sized (← m.walk m.order m.entries.size) m.entries.size, m)
  | .iterShared => do ok (.entries (← m.order.mapM m.read), m)
  | .clear => ok (.done, {})
  | .len => ok (.count m.entries.size, m)
  | .isEmpty => ok (.flag m.entries.isEmpty, m)

end

def run : LinkedExpiryMap κ ν → List (Operation κ ν) →
    Except Failure (List (Answer κ ν) × LinkedExpiryMap κ ν)
  | m, [] => ok ([], m)
  | m, o :: os => do
    let (answer, m) ← m.apply o
    let (answers, m) ← run m os
    ok (answer :: answers, m)

end LinkedExpiryMap

namespace ExpiryMap

open LinkedExpiryMap

variable {κ ν : Type*} [BEq κ]

def apply (m : ExpiryMap κ ν) : Operation κ ν → Answer κ ν × ExpiryMap κ ν
  | .insertShared _ k v => (.flag (m.insert k v).2, (m.insert k v).1)
  | .containsKey k => (.flag (m.contains k), m)
  | .get k => (.value ((m.get k).map Prod.snd), m)
  | .getShared k => (.entry (m.get k), m)
  | .renew k update => (.entry (m.get k), m.renew k update)
  | .oldest => (.entry m.entries.head?, m)
  | .removeOldest => (.value (m.entries.head?.map Prod.snd), m.removeOldest)
  | .remove k => (.value ((m.get k).map Prod.snd), m.remove k)
  | .iter => (.sized m.entries m.entries.length, m)
  | .iterShared => (.entries m.entries, m)
  | .clear => (.done, ⟨[], .nil⟩)
  | .len => (.count m.entries.length, m)
  | .isEmpty => (.flag m.entries.isEmpty, m)

def run (m : ExpiryMap κ ν) : List (Operation κ ν) → List (Answer κ ν) × ExpiryMap κ ν
  | [] => ([], m)
  | o :: os => ((m.apply o).1 :: ((m.apply o).2.run os).1, ((m.apply o).2.run os).2)

end ExpiryMap

namespace LinkedExpiryMap

variable {κ ν : Type*} [BEq κ] [Hashable κ] {m : LinkedExpiryMap κ ν} {a : ExpiryMap κ ν}
  {nodes : List (Nat × κ × ν)} {p q : Nat} {k : κ} {x y : κ × ν}

/-- List, index and memory hold the same entries, each of them once. -/
structure Views (m : LinkedExpiryMap κ ν) (nodes : List (Nat × κ × ν)) : Prop where
  order : m.order = nodes.map Prod.fst
  linked : m.order.Nodup
  heap : ∀ {p e}, m.heap[p]? = some e ↔ (p, e.key, e.value) ∈ nodes ∧ e.strong = 1
  index : ∀ {k p}, m.entries[k]? = some p ↔ ∃ x, (p, x) ∈ nodes ∧ (x.1 == k) = true
  size : m.entries.size = m.order.length

/-- The map in expiration order that a linked map shows, the oldest entry first. -/
def Refines (m : LinkedExpiryMap κ ν) (a : ExpiryMap κ ν) : Prop :=
  ∃ nodes, m.Views nodes ∧ a.entries = nodes.map Prod.snd

namespace Views

theorem mem_order (h : m.Views nodes) : p ∈ m.order ↔ ∃ x, (p, x) ∈ nodes := by
  simp [h.order]

theorem heap_eq (h : m.Views nodes) (hx : (p, x) ∈ nodes) : m.heap[p]? = some ⟨x.1, x.2, 1⟩ :=
  h.heap.mpr ⟨hx, rfl⟩

theorem read (h : m.Views nodes) (hx : (p, x) ∈ nodes) : m.read p = ok x := by
  rw [LinkedExpiryMap.read, deref, h.heap_eq hx]
  rfl

theorem mapM_read (h : m.Views nodes) : m.order.mapM m.read = ok (nodes.map Prod.snd) := by
  rw [mapM_eq_ok, h.order, forall₂_map_left_iff, forall₂_map_right_iff, forall₂_same]
  exact fun n hn => h.read hn

theorem walk (h : m.Views nodes) (hl : l ⊆ nodes) :
    m.walk (l.map Prod.fst) l.length = ok (l.map Prod.snd) := by
  induction l with
  | nil => rfl
  | cons n l ih =>
    obtain ⟨hn, hl⟩ := cons_subset.mp hl
    rw [map_cons, length_cons, LinkedExpiryMap.walk, h.read hn, ih hl]
    rfl

theorem key_iff (h : m.Views nodes) (hx : (p, x) ∈ nodes) (hk : (x.1 == k) = true)
    (hy : (q, y) ∈ nodes) : (y.1 == k) = true ↔ q = p := by
  refine ⟨fun hyk => ?_, fun hqp => ?_⟩
  · have hp := h.index.mpr ⟨x, hx, hk⟩
    rwa [h.index.mpr ⟨y, hy, hyk⟩, Option.some_inj] at hp
  · have hxy := h.heap_eq hx
    rw [← hqp, h.heap_eq hy] at hxy
    grind

theorem entries_remove (h : m.Views nodes) (ha : a.entries = nodes.map Prod.snd)
    (hx : (p, x) ∈ nodes) (hk : (x.1 == k) = true) :
    (a.remove k).entries = (nodes.filter fun n => n.1 != p).map Prod.snd := by
  have hfilter : (a.remove k).entries = (nodes.map Prod.snd).filter fun e => !(e.1 == k) := by
    rw [← ha, ExpiryMap.remove]
  rw [hfilter, filter_map]
  refine congrArg _ (filter_congr fun n hn => ?_)
  have := h.key_iff hx hk hn
  grind

variable [EquivBEq κ]

theorem lookup (h : m.Views nodes) (ha : a.entries = nodes.map Prod.snd) (k : κ) :
    (m.entries[k]? = none ∧ a.get k = none) ∨
      ∃ p x, m.entries[k]? = some p ∧ (p, x) ∈ nodes ∧ (x.1 == k) = true ∧ a.get k = some x := by
  cases hk : m.entries[k]? with
  | none =>
    refine .inl ⟨rfl, find?_eq_none.mpr fun x hx hxk => ?_⟩
    obtain ⟨n, hn, rfl⟩ := mem_map.mp (ha ▸ hx)
    rw [h.index.mpr ⟨_, hn, hxk⟩] at hk
    cases hk
  | some p =>
    obtain ⟨x, hx, hxk⟩ := h.index.mp hk
    refine .inr ⟨p, x, rfl, hx, hxk, ExpiryMap.get_eq_some.mpr ⟨?_, hxk⟩⟩
    rw [ha]
    exact mem_map_of_mem hx

variable [LawfulHashable κ]

theorem mem_entries (h : m.Views nodes) :
    k ∈ m.entries ↔ ∃ p x, (p, x) ∈ nodes ∧ (x.1 == k) = true := by
  rw [HashMap.mem_iff_isSome_getElem?, Option.isSome_iff_exists]
  exact exists_congr fun p => h.index

theorem appended (h : m.Views nodes) (hk : k ∉ m.entries) (hp : p ∉ m.order) :
    Views { order := m.order ++ [p], entries := m.entries.insert k p,
            heap := m.heap.insert p ⟨k, v, 1⟩ } (nodes ++ [(p, k, v)]) := by
  refine ⟨by simp [h.order], h.linked.append (nodup_singleton p) (disjoint_singleton.mpr hp),
    fun {q e} => ?_, fun {k' q} => ?_, by simp [HashMap.size_insert, h.size, hk]⟩
  · rw [h.mem_order] at hp
    rw [HashMap.getElem?_insert]
    split <;> grind [h.heap, Entry]
  · rw [h.mem_entries] at hk
    rw [HashMap.getElem?_insert]
    cases hk' : k == k' with
    | true =>
      have hself : (k == k) = true := BEq.rfl
      simp only [← BEq.congr_right hk']
      grind
    | false =>
      simp only [Bool.false_eq_true, if_false, h.index, mem_append, mem_singleton]
      grind

theorem removed (h : m.Views nodes) (hx : (p, x) ∈ nodes) (hk : (x.1 == k) = true) :
    Views { order := m.order.erase p, entries := m.entries.erase k, heap := m.heap.erase p }
      (nodes.filter fun n => n.1 != p) := by
  refine ⟨?_, h.linked.erase p, fun {q e} => ?_, fun {k' q} => ?_, ?_⟩
  · rw [h.linked.erase_eq_filter, h.order, filter_map]
    rfl
  · rw [HashMap.getElem?_erase]
    split <;> grind [h.heap]
  · rw [HashMap.getElem?_erase]
    cases hk' : k == k' with
    | true =>
      simp only [← BEq.congr_right hk']
      refine ⟨nofun, fun ⟨y, hy, hyk⟩ => ?_⟩
      obtain ⟨hy, hne⟩ := mem_filter.mp hy
      simp [(h.key_iff hx hk hy).mp hyk] at hne
    | false =>
      have hne : ∀ y, (p, y) ∈ nodes → ¬(y.1 == k') = true := fun y hy hyk => by
        rw [BEq.congr_left (BEq.symm ((h.key_iff hx hk hy).mpr rfl)), hyk] at hk'
        cases hk'
      simp only [Bool.false_eq_true, if_false, h.index, mem_filter]
      grind
  · rw [HashMap.size_erase, if_pos (h.mem_entries.mpr ⟨p, x, hx, hk⟩), h.size,
      length_erase_of_mem (h.mem_order.mpr ⟨x, hx⟩)]

theorem renewed (h : m.Views nodes) (hx : (p, x) ∈ nodes) :
    Views { m with order := m.order.erase p ++ [p], heap := m.heap.insert p ⟨x.1, v, 1⟩ }
      ((nodes.filter fun n => n.1 != p) ++ [(p, x.1, v)]) := by
  have hp := h.mem_order.mpr ⟨x, hx⟩
  have hr := (h.removed hx BEq.rfl).appended (k := x.1) (v := v) (by simp)
    h.linked.not_mem_erase
  have hperm : (m.order.erase p ++ [p]).length = m.order.length :=
    ((perm_append_singleton _ _).trans (perm_cons_erase hp).symm).length_eq
  refine ⟨hr.order, hr.linked, fun {q e} => ?_, fun {k q} => ?_, h.size.trans hperm.symm⟩
  · rw [← hr.heap]
    grind
  · rw [← hr.index, HashMap.getElem?_insert, HashMap.getElem?_erase]
    split
    · rw [h.index.mpr ⟨x, hx, ‹_›⟩]
    · rfl

end Views

namespace Refines

theorem size (h : m.Refines a) : m.entries.size = a.entries.length := by
  obtain ⟨nodes, h, ha⟩ := h
  rw [h.size, h.order, ha, length_map, length_map]

theorem oldest (h : m.Refines a) : m.order.head?.mapM m.read = ok a.entries.head? := by
  obtain ⟨nodes, h, ha⟩ := h
  rw [h.order, ha]
  cases nodes with
  | nil => rfl
  | cons n nodes =>
    rw [map_cons, head?_cons, Option.mapM_some, h.read mem_cons_self]
    rfl

theorem iter (h : m.Refines a) : m.walk m.order m.entries.size = ok a.entries := by
  rw [h.size]
  obtain ⟨nodes, h, ha⟩ := h
  rw [ha, h.order, length_map, h.walk (Subset.refl _)]

theorem iterShared (h : m.Refines a) : m.order.mapM m.read = ok a.entries := by
  obtain ⟨nodes, h, ha⟩ := h
  rw [ha, h.mapM_read]

variable [EquivBEq κ]

theorem getShared (h : m.Refines a) : m.getShared k = ok (a.get k) := by
  obtain ⟨nodes, h, ha⟩ := h
  rw [LinkedExpiryMap.getShared]
  obtain ⟨hk, hg⟩ | ⟨p, x, hk, hx, -, hg⟩ := h.lookup ha k <;> rw [hk, hg]
  · rfl
  · rw [Option.mapM_some, h.read hx]
    rfl

variable [LawfulHashable κ]

theorem contains (h : m.Refines a) : m.entries.contains k = a.contains k := by
  obtain ⟨nodes, h, ha⟩ := h
  rw [ExpiryMap.contains_eq_isSome, HashMap.contains_eq_isSome_getElem?]
  obtain ⟨hk, hg⟩ | ⟨p, x, hk, -, -, hg⟩ := h.lookup ha k <;> rw [hk, hg] <;> rfl

theorem insertShared (h : m.Refines a) (allocator : Allocator) (k : κ) (v : ν) :
    ∃ m', m.insertShared allocator k v = ok (.flag (a.insert k v).2, m') ∧
      m'.Refines (a.insert k v).1 := by
  rw [LinkedExpiryMap.insertShared, h.contains]
  cases hk : a.contains k with
  | true =>
    rw [ExpiryMap.insert_of_contains hk]
    exact ⟨m, rfl, h⟩
  | false =>
    have hnew : k ∉ m.entries := by simp [← HashMap.contains_iff_mem, h.contains, hk]
    obtain ⟨nodes, h, ha⟩ := h
    have hp : allocator.choose m.heap.keys ∉ m.order := fun hp => by
      obtain ⟨x, hx⟩ := h.mem_order.mp hp
      refine allocator.fresh m.heap.keys (HashMap.mem_keys.mpr ?_)
      rw [HashMap.mem_iff_isSome_getElem?, h.heap_eq hx]
      rfl
    refine ⟨_, ?_, _, h.appended hnew hp (v := v), ?_⟩
    · simp [pushBack, hp, ExpiryMap.insert_snd, hk, bind, Except.bind]
    · rw [ExpiryMap.entries_insert hk, ha, map_append]
      rfl

theorem renew (h : m.Refines a) (k : κ) (update : ν → ν) :
    ∃ m', m.renew k update = ok (.entry (a.get k), m') ∧ m'.Refines (a.renew k update) := by
  obtain ⟨nodes, h, ha⟩ := h
  obtain ⟨hk, hg⟩ | ⟨p, x, hk, hx, hxk, hg⟩ := h.lookup ha k
  · refine ⟨m, by rw [LinkedExpiryMap.renew, hk, hg], nodes, h, ?_⟩
    rw [ExpiryMap.renew, hg]
    exact ha
  · refine ⟨_, ?_, _, h.renewed hx (v := update x.2), ?_⟩
    · simp [LinkedExpiryMap.renew, hk, hg, unlink, pushBack, h.mem_order.mpr ⟨x, hx⟩, deref,
        h.heap_eq hx, h.linked.not_mem_erase, bind, Except.bind]
    · rw [ExpiryMap.entries_renew hg, h.entries_remove ha hx hxk, map_append]
      rfl

theorem remove (h : m.Refines a) (k : κ) :
    ∃ m', m.remove k = ok (.value ((a.get k).map Prod.snd), m') ∧ m'.Refines (a.remove k) := by
  obtain ⟨nodes, h, ha⟩ := h
  obtain ⟨hk, hg⟩ | ⟨p, x, hk, hx, hxk, hg⟩ := h.lookup ha k
  · refine ⟨m, by rw [LinkedExpiryMap.remove, hk, hg]; rfl, nodes, h, ?_⟩
    rw [← ha]
    exact filter_eq_self.mpr fun x hx => by simpa using find?_eq_none.mp hg x hx
  · refine ⟨_, ?_, _, h.removed hx hxk, h.entries_remove ha hx hxk⟩
    simp [LinkedExpiryMap.remove, hk, hg, unlink, release, h.mem_order.mpr ⟨x, hx⟩, deref,
      h.heap_eq hx, bind, Except.bind]

theorem removeOldest (h : m.Refines a) :
    ∃ m', m.removeOldest = ok (.value (a.entries.head?.map Prod.snd), m') ∧
      m'.Refines a.removeOldest := by
  obtain ⟨nodes, h, ha⟩ := h
  cases nodes with
  | nil =>
    refine ⟨m, by simp [LinkedExpiryMap.removeOldest, h.order, ha], [], h, ?_⟩
    simp [ExpiryMap.removeOldest, ha]
  | cons n nodes =>
    have hn : (n.1, n.2) ∈ n :: nodes := mem_cons_self
    obtain ⟨m', hm, hr⟩ := Refines.remove ⟨_, h, ha⟩ n.2.1
    have hg : a.get n.2.1 = some n.2 := ExpiryMap.get_eq_some.mpr ⟨by simp [ha], BEq.rfl⟩
    refine ⟨m', ?_, by rwa [ExpiryMap.removeOldest_eq_remove ha]⟩
    rw [ha, map_cons, head?_cons, ← hg, ← hm]
    simp [LinkedExpiryMap.removeOldest, LinkedExpiryMap.remove, h.order,
      h.index.mpr ⟨n.2, hn, BEq.rfl⟩, deref, h.heap_eq hn, unlink, bind, Except.bind]

theorem empty : Refines ({} : LinkedExpiryMap κ ν) {} :=
  ⟨[], ⟨rfl, nodup_nil, by simp, by simp, by simp⟩, rfl⟩

theorem apply (h : m.Refines a) (o : Operation κ ν) :
    ∃ m', m.apply o = ok ((a.apply o).1, m') ∧ m'.Refines (a.apply o).2 := by
  cases o with
  | insertShared allocator k v => exact h.insertShared allocator k v
  | renew k update => exact h.renew k update
  | removeOldest => exact h.removeOldest
  | remove k => exact h.remove k
  | clear => exact ⟨_, rfl, empty⟩
  | containsKey k => exact ⟨m, by rw [LinkedExpiryMap.apply, h.contains]; rfl, h⟩
  | get k | getShared k => exact ⟨m, by rw [LinkedExpiryMap.apply, h.getShared]; rfl, h⟩
  | oldest => exact ⟨m, by rw [LinkedExpiryMap.apply, h.oldest]; rfl, h⟩
  | iter => exact ⟨m, by rw [LinkedExpiryMap.apply, h.iter, h.size]; rfl, h⟩
  | iterShared => exact ⟨m, by rw [LinkedExpiryMap.apply, h.iterShared]; rfl, h⟩
  | len => exact ⟨m, by rw [LinkedExpiryMap.apply, h.size]; rfl, h⟩
  | isEmpty =>
    refine ⟨m, ?_, h⟩
    rw [LinkedExpiryMap.apply, HashMap.isEmpty_eq_size_eq_zero, h.size, ExpiryMap.apply]
    cases a.entries <;> rfl

theorem run (h : m.Refines a) (os : List (Operation κ ν)) :
    ∃ m', m.run os = ok ((a.run os).1, m') ∧ m'.Refines (a.run os).2 := by
  induction os generalizing m a with
  | nil => exact ⟨m, rfl, h⟩
  | cons o os ih =>
    obtain ⟨m₁, hm₁, hr₁⟩ := h.apply o
    obtain ⟨m₂, hm₂, hr₂⟩ := ih hr₁
    refine ⟨m₂, ?_, hr₂⟩
    simp only [LinkedExpiryMap.run, hm₁, hm₂, bind, Except.bind]
    rfl

end Refines

/-- Every sequence of operations on a new map fails nowhere, is answered as by the map in
expiration order, and leaves list, index and memory with the same entries, each of them once. -/
theorem run_refines [EquivBEq κ] [LawfulHashable κ] (os : List (Operation κ ν)) :
    ∃ m, run ({} : LinkedExpiryMap κ ν) os = ok ((ExpiryMap.run {} os).1, m) ∧
      m.Refines (ExpiryMap.run {} os).2 :=
  Refines.empty.run os

def Allocator.next : Allocator where
  choose live := live.sum + 1
  fresh live h := by
    have := List.le_sum_of_mem h
    omega

theorem run_refines_renewed_entry :
    ∃ m, run ({} : LinkedExpiryMap Nat Nat) [.insertShared .next 1 10, .insertShared .next 2 20,
        .renew 1 (· + 1), .insertShared .next 2 30, .removeOldest, .iter] =
      ok ([.flag true, .flag true, .entry (some (1, 10)), .flag false, .value (some 20),
        .sized [(1, 11)] 1], m) :=
  (run_refines _).imp fun _ h => h.1

end LinkedExpiryMap
end Nervix
