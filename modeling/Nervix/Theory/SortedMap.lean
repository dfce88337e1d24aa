import Mathlib

/-!
# Sorted maps

Finite maps whose entries stand in the order of their keys.
-/

namespace Nervix

open List

structure SortedMap (κ ν : Type*) [LinearOrder κ] where
  entries : List (κ × ν) := []
  sorted : entries.Pairwise (fun a b => a.1 < b.1) := by simp

namespace SortedMap

variable {κ ν : Type*} [LinearOrder κ]

section
variable (m : SortedMap κ ν)

def keys : List κ := m.entries.map Prod.fst

def get (k : κ) : Option ν :=
  (m.entries.find? fun e => e.1 = k).map Prod.snd

def remove (k : κ) : SortedMap κ ν where
  entries := m.entries.filter fun e => e.1 ≠ k
  sorted := m.sorted.filter _

def insert (k : κ) (v : ν) : SortedMap κ ν where
  entries := m.entries.filter (fun e => e.1 < k) ++ (k, v) :: m.entries.filter fun e => k < e.1
  sorted := by
    refine pairwise_append.mpr ⟨m.sorted.filter _, pairwise_cons.mpr ⟨?_, ?_⟩, ?_⟩
    · intro e he
      exact of_decide_eq_true (mem_filter.mp he).2
    · exact m.sorted.filter _
    · intro a ha b hb
      have hak : a.1 < k := of_decide_eq_true (mem_filter.mp ha).2
      rcases mem_cons.mp hb with rfl | hb
      · exact hak
      · exact lt_trans hak (of_decide_eq_true (mem_filter.mp hb).2)

def popFirst : Option (κ × ν) × SortedMap κ ν :=
  (m.entries.head?, { entries := m.entries.tail, sorted := m.sorted.tail })

end

variable {m : SortedMap κ ν} {k k' : κ} {v : ν}

theorem nodup_keys (m : SortedMap κ ν) : m.keys.Nodup :=
  pairwise_map.mpr (m.sorted.imp fun h => ne_of_lt h)

theorem eq_of_mem (h : (k, v) ∈ m.entries) (h' : (k, v') ∈ m.entries) : v = v' :=
  congrArg Prod.snd (inj_on_of_nodup_map m.nodup_keys h h' rfl)

theorem get_eq_some_iff : m.get k = some v ↔ (k, v) ∈ m.entries := by
  constructor
  · intro h
    obtain ⟨⟨k', v'⟩, hfind, rfl⟩ := Option.map_eq_some_iff.mp h
    have hk : k' = k := by simpa using find?_some hfind
    exact hk ▸ mem_of_find?_eq_some hfind
  · intro h
    cases hfind : m.entries.find? fun e => e.1 = k with
    | none =>
      have := find?_eq_none.mp hfind (k, v) h
      simp at this
    | some e =>
      obtain ⟨k', v'⟩ := e
      have hk : k' = k := by simpa using find?_some hfind
      subst hk
      rw [get, hfind, Option.map_some, eq_of_mem h (mem_of_find?_eq_some hfind)]

theorem mem_remove : e ∈ (m.remove k).entries ↔ e ∈ m.entries ∧ e.1 ≠ k := by
  simp only [remove, mem_filter, decide_eq_true_eq]

theorem popFirst_of_nil (h : m.entries = []) : m.popFirst.1 = none := by
  simp only [popFirst, h, head?_nil]

theorem popFirst_of_cons (h : m.entries = e :: l) :
    m.popFirst.1 = some e ∧ m.popFirst.2.entries = l := by
  simp only [popFirst, h, head?_cons, tail_cons, and_self]

theorem perm_remove (h : (k, v) ∈ m.entries) : m.entries.Perm ((k, v) :: (m.remove k).entries) := by
  have hrest : m.entries.filter (fun e => decide (e.1 = k)) = [(k, v)] := by
    refine perm_singleton.mp ((perm_ext_iff_of_nodup ?_ (nodup_singleton _)).mpr ?_)
    · exact (List.Nodup.of_map _ m.nodup_keys).filter _
    · rintro ⟨k', v'⟩
      rw [mem_filter, decide_eq_true_eq, mem_singleton, Prod.mk.injEq]
      constructor
      · rintro ⟨hmem, rfl⟩
        exact ⟨rfl, eq_of_mem hmem h⟩
      · rintro ⟨rfl, rfl⟩
        exact ⟨h, rfl⟩
  have hperm := filter_append_perm (fun e : κ × ν => decide (e.1 = k)) m.entries
  rw [hrest] at hperm
  refine hperm.symm.trans (List.Perm.of_eq ?_)
  simp only [remove, cons_append, nil_append, decide_not]

theorem get_remove_of_ne (h : k' ≠ k) : (m.remove k).get k' = m.get k' := by
  ext v
  rw [get_eq_some_iff, get_eq_some_iff, mem_remove]
  exact and_iff_left h

theorem entries_insert_of_lt (h : ∀ e ∈ m.entries, e.1 < k) :
    (m.insert k v).entries = m.entries ++ [(k, v)] := by
  have hbelow : m.entries.filter (fun e => e.1 < k) = m.entries :=
    filter_eq_self.mpr fun e he => decide_eq_true (h e he)
  have habove : m.entries.filter (fun e => k < e.1) = [] :=
    filter_eq_nil_iff.mpr fun e he => by
      rw [decide_eq_true_eq]
      exact not_lt_of_gt (h e he)
  simp only [insert, hbelow, habove]

end SortedMap

end Nervix
