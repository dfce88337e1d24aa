import Mathlib

/-!
# Insertion-ordered maps

Finite maps whose entries stand in the order in which their keys were inserted, the oldest first.
-/

namespace Nervix

open List

structure OrderedMap (κ β : Type*) where
  entries : List (κ × β) := []
  nodup : (entries.map Prod.fst).Nodup := by simp

namespace OrderedMap

variable {κ β : Type*}

theorem ext : ∀ {m m' : OrderedMap κ β}, m.entries = m'.entries → m = m'
  | ⟨_, _⟩, ⟨_, _⟩, rfl => rfl

section
variable (m : OrderedMap κ β)

def oldest : Option (κ × β) := m.entries.head?

def length : Nat := m.entries.length

def drop (n : Nat) : OrderedMap κ β where
  entries := m.entries.drop n
  nodup := m.nodup.sublist ((drop_sublist n _).map _)

def oldestKeys (n : Nat) : List κ := (m.entries.take n).map Prod.fst

end

variable [DecidableEq κ]

section
variable (m : OrderedMap κ β)

def get (k : κ) : Option β :=
  (m.entries.find? fun e => e.1 = k).map Prod.snd

def contains (k : κ) : Bool := (m.get k).isSome

def remove (k : κ) : OrderedMap κ β where
  entries := m.entries.filter fun e => e.1 ≠ k
  nodup := m.nodup.sublist (filter_sublist.map _)

def modify (k : κ) (f : β → β) : OrderedMap κ β where
  entries := m.entries.map fun e => if e.1 = k then (e.1, f e.2) else e
  nodup := by
    have h : ∀ e : κ × β, (if e.1 = k then (e.1, f e.2) else e).1 = e.1 := by
      intro e
      split <;> rfl
    simpa [Function.comp_def, h] using m.nodup

end

variable {m : OrderedMap κ β} {k k' : κ} {b : β}

theorem get_eq_none_iff : m.get k = none ↔ k ∉ m.entries.map Prod.fst := by
  simp only [get, Option.map_eq_none_iff, find?_eq_none, decide_eq_true_eq, mem_map,
    not_exists, not_and]

theorem get_eq_some_iff : m.get k = some b ↔ (k, b) ∈ m.entries := by
  constructor
  · intro h
    obtain ⟨e, he, rfl⟩ := Option.map_eq_some_iff.mp h
    obtain ⟨hk, hmem⟩ := find?_eq_some_iff_append.mp he
    obtain ⟨as, bs, hm, -⟩ := hmem
    rw [hm, ← of_decide_eq_true hk]
    simp
  · intro h
    cases hget : m.get k with
    | none => exact absurd (mem_map_of_mem h) (get_eq_none_iff.mp hget)
    | some b' =>
      obtain ⟨e, he, rfl⟩ := Option.map_eq_some_iff.mp hget
      have hk := find?_some he
      obtain rfl : e.1 = k := of_decide_eq_true hk
      have hmem := mem_of_find?_eq_some he
      have := inj_on_of_nodup_map m.nodup hmem h rfl
      rw [this]

def insert (m : OrderedMap κ β) (k : κ) (b : β) : Option (OrderedMap κ β) :=
  if h : m.get k = none then
    some {
      entries := m.entries ++ [(k, b)]
      nodup := by
        rw [map_append]
        exact List.Nodup.append m.nodup (nodup_singleton _)
          (disjoint_singleton.mpr (get_eq_none_iff.mp h)) }
  else none

theorem insert_eq_some (h : m.insert k b = some m') :
    m.get k = none ∧ m'.entries = m.entries ++ [(k, b)] := by
  simp only [insert] at h
  split at h
  · cases h
    exact ⟨‹_›, rfl⟩
  · cases h

theorem insert_isSome (h : m.get k = none) : ∃ m', m.insert k b = some m' := by
  simp [insert, h]

theorem get_insert (h : m.insert k b = some m') :
    m'.get k' = if k' = k then some b else m.get k' := by
  obtain ⟨hnone, hm⟩ := insert_eq_some h
  refine Option.ext fun c => ?_
  rw [get_eq_some_iff, hm]
  split
  · subst k'
    have hmem : ∀ c, (k, c) ∉ m.entries := fun c hc => by
      rw [← get_eq_some_iff, hnone] at hc
      cases hc
    simp [hmem, eq_comm]
  · simp [get_eq_some_iff, ‹k' ≠ k›]

theorem get_remove : (m.remove k).get k' = if k' = k then none else m.get k' := by
  refine Option.ext fun c => ?_
  split <;> simp_all [remove, get_eq_some_iff]

theorem get_modify : (m.modify k f).get k' = if k' = k then (m.get k').map f else m.get k' := by
  refine Option.ext fun c => ?_
  split
  · subst k'
    simp only [modify, mem_map, Option.map_eq_some_iff, get_eq_some_iff]
    constructor
    · rintro ⟨e, he, h⟩
      split at h
      · cases h
        exact ⟨e.2, he, rfl⟩
      · cases h
        exact absurd rfl ‹¬_›
    · rintro ⟨b, hb, rfl⟩
      exact ⟨(k, b), hb, by simp⟩
  · simp only [modify, mem_map, get_eq_some_iff]
    constructor
    · rintro ⟨e, he, h⟩
      split at h
      · cases h
        exact absurd (by assumption) ‹¬e.1 = k›
      · cases h
        exact he
    · intro h
      exact ⟨_, h, by simp [‹k' ≠ k›]⟩

theorem remove_modify : (m.modify k f).remove k = m.remove k := by
  refine ext ?_
  simp only [remove, modify]
  induction m.entries with
  | nil => rfl
  | cons e entries ih =>
    by_cases he : e.1 = k
    · simpa [he] using ih
    · simpa [he] using ih

theorem modify_modify : (m.modify k f).modify k g = m.modify k fun b => g (f b) := by
  refine ext ?_
  simp only [modify, map_map]
  refine map_congr_left fun e _ => ?_
  by_cases he : e.1 = k
  · simp [he]
  · simp [he]

theorem modify_eq_self (h : ∀ b, m.get k = some b → f b = b) : m.modify k f = m := by
  refine ext ((map_congr_left fun e he => ?_).trans (map_id _))
  by_cases hk : e.1 = k
  · obtain ⟨_, b⟩ := e
    obtain rfl : _ = k := hk
    rw [if_pos rfl, h b (get_eq_some_iff.mpr he)]
    rfl
  · rw [if_neg hk]
    rfl

theorem get_drop (h : k ∉ m.oldestKeys n) : (m.drop n).get k = m.get k := by
  refine Option.ext fun c => ?_
  rw [get_eq_some_iff, get_eq_some_iff]
  constructor
  · exact fun hmem => mem_of_mem_drop hmem
  · intro hmem
    rw [← take_append_drop n m.entries] at hmem
    obtain hmem | hmem := mem_append.mp hmem
    · exact absurd (mem_map_of_mem hmem) h
    · exact hmem

def put (m : OrderedMap κ β) (k : κ) (b : β) : OrderedMap κ β :=
  (m.insert k b).getD (m.modify k fun _ => b)

theorem get_put : (m.put k b).get k' = if k' = k then some b else m.get k' := by
  rw [put]
  cases hinsert : m.insert k b with
  | some m' => exact get_insert hinsert
  | none =>
    have hsome : m.get k ≠ none := fun hnone => by
      obtain ⟨m', h⟩ := insert_isSome (b := b) hnone
      cases hinsert.symm.trans h
    obtain ⟨c, hc⟩ := Option.ne_none_iff_exists'.mp hsome
    rw [Option.getD_none, get_modify]
    split
    · subst k'
      rw [hc, Option.map_some]
    · rfl

theorem mem_entries_put : e ∈ (m.put k b).entries ↔ e = (k, b) ∨ e ∈ m.entries ∧ e.1 ≠ k := by
  obtain ⟨k', c⟩ := e
  rw [← get_eq_some_iff, ← get_eq_some_iff, get_put]
  by_cases hk : k' = k
  · simp [hk, eq_comm]
  · simp [hk]

def moveToEnd (m : OrderedMap κ β) (k : κ) : OrderedMap κ β where
  entries := (m.entries.filter fun e => e.1 ≠ k) ++ m.entries.filter fun e => e.1 = k
  nodup := by
    have hperm := filter_append_perm (fun e => decide (e.1 = k)) m.entries
    simp only [ne_eq, decide_not]
    exact ((perm_append_comm.trans hperm).map _).nodup_iff.mpr m.nodup

theorem mem_entries_moveToEnd : e ∈ (m.moveToEnd k).entries ↔ e ∈ m.entries := by
  simp only [moveToEnd, mem_append, mem_filter, ne_eq, decide_not, Bool.not_eq_true',
    decide_eq_false_iff_not, decide_eq_true_eq, ← and_or_left, em', and_true]

theorem mem_map_fst_moveToEnd :
    k' ∈ (m.moveToEnd k).entries.map Prod.fst ↔ k' ∈ m.entries.map Prod.fst := by
  simp only [mem_map, mem_entries_moveToEnd]

theorem map_fst_modify : (m.modify k f).entries.map Prod.fst = m.entries.map Prod.fst := by
  rw [modify, map_map]
  refine map_congr_left fun e _ => ?_
  simp only [Function.comp_apply]
  split <;> rfl

theorem entries_put (h : m.get k = none) : (m.put k b).entries = m.entries ++ [(k, b)] := by
  obtain ⟨m', hm'⟩ := insert_isSome (b := b) h
  rw [put, hm', Option.getD_some, (insert_eq_some hm').2]

theorem entries_moveToEnd (h : m.get k = some b) :
    (m.moveToEnd k).entries = (m.remove k).entries ++ [(k, b)] := by
  obtain ⟨front, back, hm⟩ := append_of_mem (get_eq_some_iff.mp h)
  have hnodup := m.nodup
  simp only [hm, map_append, map_cons, nodup_append, nodup_cons, mem_cons, mem_map, ne_eq] at hnodup
  have hfront : front.filter (fun e => decide (e.1 = k)) = [] := by
    refine filter_eq_nil_iff.mpr fun e he hk => ?_
    exact hnodup.2.2 e.1 ⟨e, he, rfl⟩ k (.inl rfl) (of_decide_eq_true hk)
  have hback : back.filter (fun e => decide (e.1 = k)) = [] := by
    refine filter_eq_nil_iff.mpr fun e he hk => ?_
    exact hnodup.2.1.1 ⟨e, he, of_decide_eq_true hk⟩
  have hself : m.entries.filter (fun e => decide (e.1 = k)) = [(k, b)] := by
    rw [hm, filter_append, hfront, filter_cons_of_pos (by simp), hback, nil_append]
  exact congrArg ((m.remove k).entries ++ ·) hself

theorem notMem_oldestKeys (h : m.entries = front ++ [(k, b)])
    (hn : n < m.length) : k ∉ m.oldestKeys n := by
  have hnodup := m.nodup
  rw [length, h, length_append] at hn
  rw [h, map_append, nodup_append] at hnodup
  rw [oldestKeys, h, take_append_of_le_length (Nat.le_of_lt_succ hn)]
  intro hmem
  obtain ⟨e, he, hk⟩ := mem_map.mp hmem
  exact hnodup.2.2 e.1 (mem_map_of_mem (mem_of_mem_take he)) k (by simp) hk

theorem mem_map_fst_drop :
    k ∈ (m.drop n).entries.map Prod.fst ↔ k ∈ m.entries.map Prod.fst ∧ k ∉ m.oldestKeys n := by
  have hnodup := m.nodup
  rw [← take_append_drop n m.entries, map_append, nodup_append] at hnodup
  rw [← take_append_drop n m.entries, map_append, mem_append]
  constructor
  · intro h
    exact ⟨.inr h, fun hold => hnodup.2.2 k hold k h rfl⟩
  · rintro ⟨h | h, hnot⟩
    · exact (hnot h).elim
    · exact h

end OrderedMap

end Nervix
