import Mathlib

/-!
# Keyed records

Mathlib's `Finmap` as the record families of a store: what a lookup finds after each operation,
keeping the records that meet a condition, replacing the record under a key, and writing a list of
records under consecutive keys.
-/

namespace Nervix

abbrev Records (κ β : Type) := Finmap fun _ : κ => β

end Nervix

namespace List

theorem takeWhile_eq_filter_of_pairwise :
    ∀ {l : List α}, l.Pairwise (fun a b => p b = true → p a = true) → l.takeWhile p = l.filter p
  | [], _ => rfl
  | a :: l, h => by
    obtain ⟨ha, hl⟩ := List.pairwise_cons.mp h
    cases hp : p a with
    | true => simp [hp, takeWhile_eq_filter_of_pairwise hl]
    | false =>
      have hnone : l.filter p = [] := by
        refine List.filter_eq_nil_iff.mpr fun b hb hpb => ?_
        exact absurd (ha b hb hpb) (by simp [hp])
      simp [hp, hnone]

end List

namespace Finmap

variable {κ β : Type}

def retain (p : κ → β → Bool) (m : Finmap fun _ : κ => β) : Finmap fun _ : κ => β :=
  ⟨m.entries.filter fun e => p e.1 e.2, Multiset.nodup_keys.mp <|
    Multiset.nodup_of_le (Multiset.map_le_map (Multiset.filter_le _ _))
      (Multiset.nodup_keys.mpr m.nodupKeys)⟩

theorem mem_entries_retain {m : Finmap fun _ : κ => β} : e ∈ (m.retain p).entries ↔ e ∈ m.entries ∧ p e.1 e.2 = true :=
  Multiset.mem_filter

theorem card_keys_le {m m' : Finmap fun _ : κ => β} (h : ∀ k, k ∈ m → k ∈ m') :
    m.keys.card ≤ m'.keys.card :=
  Finset.card_le_card fun k hk => mem_keys.mpr (h k (mem_keys.mp hk))

variable [DecidableEq κ]

theorem lookup_insert_eq (m : Finmap fun _ : κ => β) (k k' : κ) (b : β) :
    (m.insert k b).lookup k' = if k' = k then some b else m.lookup k' := by
  split
  · subst k'
    exact lookup_insert m
  · exact lookup_insert_of_ne m ‹_›

theorem lookup_insert_eq_some {m : Finmap fun _ : κ => β} :
    (m.insert k b).lookup k' = some b' ↔ (k' = k ∧ b = b') ∨ (k' ≠ k ∧ m.lookup k' = some b') := by
  rw [lookup_insert_eq]
  split <;> simp [*]

theorem lookup_erase_eq (m : Finmap fun _ : κ => β) (k k' : κ) :
    (m.erase k).lookup k' = if k' = k then none else m.lookup k' := by
  split
  · subst k'
    exact lookup_erase k m
  · exact lookup_erase_ne ‹_›

theorem lookup_retain (p : κ → β → Bool) (m : Finmap fun _ : κ => β) (k : κ) :
    (m.retain p).lookup k = (m.lookup k).filter (p k) := by
  refine Option.ext fun b => ?_
  rw [lookup_eq_some_iff, mem_entries_retain, ← lookup_eq_some_iff, Option.filter_eq_some_iff]

theorem mem_of_mem_retain {m : Finmap fun _ : κ => β} (h : k ∈ m.retain p) : k ∈ m := by
  obtain ⟨b, hb⟩ := mem_iff.mp h
  rw [lookup_retain, Option.filter_eq_some_iff] at hb
  exact mem_iff.mpr ⟨b, hb.1⟩

theorem card_keys_insert_le {m : Finmap fun _ : κ => β} (h : m.keys.card ≤ n)
    (hk : k ∉ m → m.keys.card < n) : (m.insert k b).keys.card ≤ n := by
  have hsub : (m.insert k b).keys ⊆ Insert.insert k m.keys := fun k' hk' => by
    rw [Finset.mem_insert, mem_keys]
    exact mem_insert.mp (mem_keys.mp hk')
  by_cases hm : k ∈ m
  · rw [Finset.insert_eq_of_mem (mem_keys.mpr hm)] at hsub
    exact (Finset.card_le_card hsub).trans h
  · exact ((Finset.card_le_card hsub).trans (Finset.card_insert_le _ _)).trans (hk hm)

theorem lookup_foldl_erase (f : α → κ) (k : κ) : ∀ (l : List α)
    (m : Finmap fun _ : κ => β), (l.foldl (fun m a => m.erase (f a)) m).lookup k =
      if k ∈ l.map f then none else m.lookup k
  | [], m => by simp
  | a :: l, m => by
    rw [List.foldl_cons, lookup_foldl_erase f k l, lookup_erase_eq]
    by_cases ha : k = f a <;> simp [ha]

def count (p : β → Bool) (m : Finmap fun _ : κ => β) : Nat :=
  (m.entries.filter fun e => p e.2).card

def ascending [LinearOrder κ] (m : Finmap fun _ : κ => β) : List (κ × β) :=
  (m.keys.sort (· ≤ ·)).filterMap fun k => (m.lookup k).map fun b => (k, b)

theorem mem_ascending [LinearOrder κ] {m : Finmap fun _ : κ => β} :
    (k, b) ∈ m.ascending ↔ m.lookup k = some b := by
  simp only [ascending, List.mem_filterMap, Finset.mem_sort, mem_keys, Option.map_eq_some_iff,
    Prod.mk.injEq]
  constructor
  · rintro ⟨k', -, b', h, rfl, rfl⟩
    exact h
  · intro h
    exact ⟨k, mem_iff.mpr ⟨b, h⟩, b, h, rfl, rfl⟩

theorem nodup_ascending [LinearOrder κ] (m : Finmap fun _ : κ => β) : m.ascending.Nodup := by
  refine List.Nodup.filterMap ?_ (Finset.sort_nodup ..)
  intro k k' x hk hk'
  obtain ⟨b, -, rfl⟩ := Option.map_eq_some_iff.mp hk
  obtain ⟨b', -, he⟩ := Option.map_eq_some_iff.mp hk'
  exact (Prod.mk.inj he).1.symm

/-! ### Lists under consecutive keys -/

def insertAll (m : Finmap fun _ : κ × Nat => β) (k : κ) (l : List β) :
    Finmap fun _ : κ × Nat => β :=
  l.zipIdx.foldl (fun m e => m.insert (k, e.2) e.1) m

def eraseAll (m : Finmap fun _ : κ × Nat => β) (k : κ) (n : Nat) : Finmap fun _ : κ × Nat => β :=
  (List.range n).foldl (fun m i => m.erase (k, i)) m

theorem lookup_foldl_insert (k k' : κ) (i : Nat) : ∀ (l : List β) (j : Nat)
    (m : Finmap fun _ : κ × Nat => β),
    ((l.zipIdx j).foldl (fun m e => m.insert (k, e.2) e.1) m).lookup (k', i) =
      if k' = k ∧ j ≤ i ∧ i < j + l.length then l[i - j]? else m.lookup (k', i)
  | [], j, m => by
    have h : ¬(k' = k ∧ j ≤ i ∧ i < j + ([] : List β).length) := by
      simp only [List.length_nil]
      omega
    rw [if_neg h]
    rfl
  | b :: l, j, m => by
    rw [List.zipIdx_cons, List.foldl_cons, lookup_foldl_insert k k' i l (j + 1),
      lookup_insert_eq, List.length_cons]
    by_cases hk : k' = k
    · subst hk
      rcases Nat.lt_trichotomy i j with hlt | rfl | hgt
      · have h₁ : ¬(j + 1 ≤ i ∧ i < j + 1 + l.length) := by omega
        have h₂ : ¬(j ≤ i ∧ i < j + (l.length + 1)) := by omega
        simp only [true_and, h₁, h₂, Prod.mk.injEq, show i ≠ j by omega, if_false]
      · have h₁ : ¬(i + 1 ≤ i ∧ i < i + 1 + l.length) := by omega
        simp only [true_and, h₁, if_false, if_true, Nat.sub_self, le_refl, List.getElem?_cons_zero,
          show i < i + (l.length + 1) by omega]
      · obtain ⟨d, rfl⟩ : ∃ d, i = j + (d + 1) := ⟨i - j - 1, by omega⟩
        have h₁ : (j + 1 ≤ j + (d + 1) ∧ j + (d + 1) < j + 1 + l.length) ↔ d < l.length := by omega
        have h₂ : (j ≤ j + (d + 1) ∧ j + (d + 1) < j + (l.length + 1)) ↔ d < l.length := by omega
        simp only [true_and, h₁, h₂, show j + (d + 1) - (j + 1) = d by omega,
          show j + (d + 1) - j = d + 1 by omega, List.getElem?_cons_succ, Prod.mk.injEq,
          show j + (d + 1) ≠ j by omega, if_false]
    · simp [hk]

theorem lookup_insertAll (m : Finmap fun _ : κ × Nat => β) (k k' : κ) (l : List β) (i : Nat) :
    (m.insertAll k l).lookup (k', i) =
      if k' = k ∧ i < l.length then l[i]? else m.lookup (k', i) := by
  rw [insertAll, lookup_foldl_insert]
  simp

theorem lookup_eraseAll (m : Finmap fun _ : κ × Nat => β) (k k' : κ) (n i : Nat) :
    (m.eraseAll k n).lookup (k', i) = if k' = k ∧ i < n then none else m.lookup (k', i) := by
  induction n with
  | zero => simp [eraseAll]
  | succ n ih =>
    rw [eraseAll, List.range_succ, List.foldl_append, List.foldl_cons, List.foldl_nil, ← eraseAll,
      lookup_erase_eq, ih]
    by_cases hk : k' = k
    · subst hk
      by_cases hi : i = n
      · simp [hi]
      · have h : i < n + 1 ↔ i < n := by omega
        simp [hi, h]
    · simp [hk]

end Finmap
