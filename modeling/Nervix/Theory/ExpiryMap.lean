import Mathlib

/-!
# Maps in expiration order

Finite maps whose entries stand in the order in which they were inserted, the oldest first. Keys
are compared by a test that is an equivalence and may identify keys that are not equal.
-/

namespace Nervix

open List

theorem dropWhile_eq_filter :
    ∀ {l : List α}, l.Pairwise (fun a b => p b = true → p a = true) →
      l.dropWhile p = l.filter fun a => !p a
  | [], _ => rfl
  | a :: l, h => by
    obtain ⟨ha, hl⟩ := pairwise_cons.mp h
    cases hp : p a with
    | true => simpa [dropWhile_cons, hp] using dropWhile_eq_filter hl
    | false =>
      have hall : ∀ b ∈ l, p b = false := fun b hb => by
        by_contra hb'
        rw [ha b hb (by simpa using hb')] at hp
        cases hp
      rw [dropWhile_cons_of_neg (by simp [hp]), filter_cons_of_pos (by simp [hp]),
        filter_eq_self.mpr fun b hb => by simp [hall b hb]]

structure ExpiryMap (κ ν : Type*) [BEq κ] where
  entries : List (κ × ν) := []
  distinct : entries.Pairwise (fun a b => (a.1 == b.1) = false) := by simp

namespace ExpiryMap

variable {κ ν : Type*} [BEq κ]

theorem ext : ∀ {m m' : ExpiryMap κ ν}, m.entries = m'.entries → m = m'
  | ⟨_, _⟩, ⟨_, _⟩, rfl => rfl

section
variable (m : ExpiryMap κ ν)

def contains (k : κ) : Bool := m.entries.any fun e => e.1 == k

def removeOldestWhile (p : ν → Bool) : ExpiryMap κ ν where
  entries := m.entries.dropWhile fun e => p e.2
  distinct := m.distinct.sublist (dropWhile_sublist _)

def remove (k : κ) : ExpiryMap κ ν where
  entries := m.entries.filter fun e => !(e.1 == k)
  distinct := m.distinct.sublist filter_sublist

def insert (k : κ) (v : ν) : ExpiryMap κ ν × Bool :=
  if h : m.contains k = true then (m, false)
  else
    ({ entries := m.entries ++ [(k, v)]
       distinct := by
        refine pairwise_append.mpr ⟨m.distinct, pairwise_singleton _ _, ?_⟩
        intro a ha b hb
        obtain rfl := mem_singleton.mp hb
        simpa using fun hk => h (any_eq_true.mpr ⟨a, ha, hk⟩) },
      true)

def get (k : κ) : Option (κ × ν) := m.entries.find? fun e => e.1 == k

def removeOldest : ExpiryMap κ ν where
  entries := m.entries.tail
  distinct := m.distinct.tail

def renew (k : κ) (f : ν → ν) : ExpiryMap κ ν :=
  match m.get k with
  | none => m
  | some e => ((m.remove k).insert e.1 (f e.2)).1

end

variable {m : ExpiryMap κ ν} {k : κ} {v : ν}

theorem contains_iff : m.contains k = true ↔ ∃ e ∈ m.entries, (e.1 == k) = true := by
  simp [contains]

theorem eq_of_mem [EquivBEq κ] (he : e ∈ m.entries) (he' : e' ∈ m.entries)
    (hk : (e.1 == e'.1) = true) : e = e' := by
  by_contra hne
  have : Std.Symm fun a b : κ × ν => (a.1 == b.1) = false :=
    ⟨fun a b h => by rw [BEq.comm]; exact h⟩
  have hfalse := m.distinct.forall he he' hne
  rw [hk] at hfalse
  cases hfalse

theorem contains_eq_isSome : m.contains k = (m.get k).isSome := by
  simp [contains, get, List.isSome_find?]

theorem mem_of_get_eq_some (h : m.get k = some e) : e ∈ m.entries ∧ (e.1 == k) = true := by
  have hk := find?_some h
  exact ⟨mem_of_find?_eq_some h, hk⟩

theorem get_eq_some [EquivBEq κ] : m.get k = some e ↔ e ∈ m.entries ∧ (e.1 == k) = true := by
  refine ⟨mem_of_get_eq_some, fun ⟨he, hk⟩ => ?_⟩
  obtain ⟨e', h⟩ : ∃ e', m.get k = some e' :=
    Option.isSome_iff_exists.mp (find?_isSome.mpr ⟨e, he, hk⟩)
  obtain ⟨he', hk'⟩ := mem_of_get_eq_some h
  rw [h, eq_of_mem he' he (BEq.trans hk' (BEq.symm hk))]

theorem removeOldest_eq_remove [EquivBEq κ] (h : m.entries = e :: l) :
    m.removeOldest = m.remove e.1 := by
  have hd := m.distinct
  rw [h, pairwise_cons] at hd
  have hl : l.filter (fun x => !(x.1 == e.1)) = l :=
    filter_eq_self.mpr fun x hx => by rw [BEq.comm, hd.1 x hx, Bool.not_false]
  exact ext (by simp [removeOldest, remove, h, hl])

theorem insert_of_contains (h : m.contains k = true) : m.insert k v = (m, false) :=
  dif_pos h

theorem insert_snd : (m.insert k v).2 = !m.contains k := by
  rw [insert]
  split <;> simp_all

theorem entries_insert (h : m.contains k = false) :
    (m.insert k v).1.entries = m.entries ++ [(k, v)] := by
  rw [insert, dif_neg (by simp [h])]

theorem entries_renew [EquivBEq κ] (h : m.get k = some e) :
    (m.renew k f).entries = (m.remove k).entries ++ [(e.1, f e.2)] := by
  have hk := (get_eq_some.mp h).2
  simp only [renew, h]
  refine entries_insert (Bool.eq_false_iff.mpr fun hc => ?_)
  obtain ⟨x, hx, hxk⟩ := contains_iff.mp hc
  simpa [BEq.trans hxk hk] using (mem_filter.mp hx).2

theorem distinct_nil : ([] : List (κ × ν)).Pairwise (fun a b => (a.1 == b.1) = false) := .nil

def ofEntries (entries : List (κ × ν)) : ExpiryMap κ ν :=
  entries.foldl (fun m e => (m.insert e.1 e.2).1) ⟨[], distinct_nil⟩

theorem entries_foldl_insert (m : ExpiryMap κ ν)
    (h : (m.entries ++ l).Pairwise (fun a b => (a.1 == b.1) = false)) :
    (l.foldl (fun m e => (m.insert e.1 e.2).1) m).entries = m.entries ++ l := by
  induction l generalizing m with
  | nil => simp
  | cons e l ih =>
    have hnew : m.contains e.1 = false := by
      rw [Bool.eq_false_iff]
      intro hc
      obtain ⟨a, ha, hk⟩ := contains_iff.mp hc
      have := (pairwise_append.mp h).2.2 a ha e mem_cons_self
      simp [hk] at this
    have hentries := entries_insert (v := e.2) hnew
    rw [foldl_cons, ih _ (by rw [hentries]; simpa using h), hentries, append_assoc]
    rfl

theorem entries_ofEntries {l : List (κ × ν)}
    (h : l.Pairwise (fun a b => (a.1 == b.1) = false)) : (ofEntries l).entries = l := by
  rw [ofEntries, entries_foldl_insert {} (by simpa using h), nil_append]

@[simp] theorem ofEntries_entries : ofEntries m.entries = m :=
  ext (entries_ofEntries m.distinct)

end ExpiryMap

end Nervix
