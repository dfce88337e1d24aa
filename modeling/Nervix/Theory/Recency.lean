import Mathlib

/-!
# Least recently used entries

Entries of distinct keys in the order of their last use, the least recently used first. A use moves
its key to the end, and makes room for a new key by dropping the first entry.
-/

namespace Nervix.Recency

open List

theorem map_eq_map_iff_forall₂ {l : List α} {m : List β} :
    l.map f = m.map g ↔ Forall₂ (fun a b => f a = g b) l m := by
  rw [← forall₂_eq_eq_eq, forall₂_map_left_iff, forall₂_map_right_iff]

theorem map_eq_map_of_forall₂ (h : Forall₂ R l m)
    (hR : ∀ a b, R a b → f a = g b) : l.map f = m.map g :=
  map_eq_map_iff_forall₂.mpr (h.imp hR)

variable {κ β : Type*} {l m : List (κ × β)} {k : κ} {b b' : β} {cap : Nat}

def keys (l : List (κ × β)) : List κ := l.map Prod.fst

theorem mem_keys : k ∈ keys l ↔ ∃ b, (k, b) ∈ l := by
  simp [keys]

theorem mem_keys_of_mem (h : e ∈ l) : e.1 ∈ keys l := mem_map_of_mem h

theorem keys_append (l m : List (κ × β)) : keys (l ++ m) = keys l ++ keys m := map_append

theorem mem_keys_concat : k' ∈ keys (l ++ [(k, b)]) ↔ k' ∈ keys l ∨ k' = k := by
  simp [keys]

theorem nodup_keys_concat (h : (keys l).Nodup) (hk : k ∉ keys l) :
    (keys (l ++ [(k, b)])).Nodup := by
  rw [keys_append]
  exact h.append (nodup_singleton _) (disjoint_singleton.mpr hk)

theorem keys_map (f : β → γ) : keys (l.map (Prod.map id f)) = keys l := by
  simp [keys]

theorem keys_subset_of_suffix (h : l <:+ m) : keys l ⊆ keys m := (h.sublist.map _).subset

def room (cap : Nat) (l : List (κ × β)) : List (κ × β) := if cap ≤ l.length then l.tail else l

theorem room_suffix : room cap l <:+ l := by
  unfold room
  split
  · exact l.tail_suffix
  · exact suffix_rfl

theorem length_room_lt (h : l.length ≤ cap) (hcap : cap ≠ 0) : (room cap l).length < cap := by
  unfold room
  split
  · rw [length_tail]
    omega
  · omega

abbrev Matched (R : β → β → Prop) (d m : List (κ × β)) : Prop :=
  List.Forall₂ (fun a b => a.1 = b.1 ∧ R a.2 b.2) d m

section matched
variable {R : β → β → Prop} {d m₂ : List (κ × β)}

theorem Matched.keys_eq (h : Matched R d m) : keys d = keys m :=
  map_eq_map_of_forall₂ h fun _ _ hab => hab.1

theorem Matched.partner (h : Matched R d m) (he : e ∈ d) : ∃ e' ∈ m, e.1 = e'.1 ∧ R e.2 e'.2 := by
  induction h with
  | nil => cases he
  | cons hab _ ih =>
    rcases mem_cons.mp he with rfl | he
    · exact ⟨_, mem_cons_self, hab⟩
    · obtain ⟨e', he', hrel⟩ := ih he
      exact ⟨e', mem_cons_of_mem _ he', hrel⟩

theorem Matched.filter (h : Matched R d m)
    (hp : ∀ a b, a.1 = b.1 → R a.2 b.2 → p a = p b) : Matched R (d.filter p) (m.filter p) := by
  induction h with
  | nil => exact .nil
  | @cons a b _ _ hab _ ih =>
    have hpab := hp a b hab.1 hab.2
    cases ha : p a with
    | false =>
      rwa [filter_cons_of_neg (by simp [ha]),
        filter_cons_of_neg (by simp [← hpab, ha])]
    | true =>
      rw [filter_cons_of_pos ha, filter_cons_of_pos (hpab ▸ ha)]
      exact .cons hab ih

theorem Matched.of_suffix (h : Matched R d m₂) (hd : l <:+ d) (hm : m₂ <:+ m) :
    ∃ m₃, m₃ <:+ m ∧ Matched R l m₃ := by
  rw [suffix_iff_eq_drop] at hd
  rw [hd]
  exact ⟨_, (m₂.drop_suffix _).trans hm, forall₂_drop _ h⟩

theorem Matched.concat (h : Matched R d m) (hb : R b b') :
    Matched R (d ++ [(k, b)]) (m ++ [(k, b')]) :=
  rel_append h (.cons ⟨rfl, hb⟩ .nil)

end matched

variable [DecidableEq κ]

def erase (l : List (κ × β)) (k : κ) : List (κ × β) := l.filter fun e => e.1 ≠ k

theorem mem_erase : e ∈ erase l k ↔ e ∈ l ∧ e.1 ≠ k := by
  simp [erase]

theorem mem_keys_erase : k' ∈ keys (erase l k) ↔ k' ∈ keys l ∧ k' ≠ k := by
  simp [mem_keys, mem_erase]

theorem erase_of_notMem (h : k ∉ keys l) : erase l k = l := by
  refine filter_eq_self.mpr fun e he => decide_eq_true fun hk => h ?_
  exact hk ▸ mem_keys_of_mem he

theorem nodup_erase (h : (keys l).Nodup) : (keys (erase l k)).Nodup :=
  h.sublist (filter_sublist.map _)

theorem Matched.erase (h : Matched R d m) :
    Matched R (Recency.erase d k) (Recency.erase m k) :=
  h.filter fun a b hab _ => by rw [hab]

theorem erase_suffix (h : m₂ <:+ m) : erase m₂ k <:+ erase m k := by
  obtain ⟨m₁, rfl⟩ := h
  exact ⟨erase m₁ k, (filter_append ..).symm⟩

theorem length_erase_lt (h : k ∈ keys l) : (erase l k).length < l.length := by
  obtain ⟨b, hb⟩ := mem_keys.mp h
  exact length_filter_lt_length_iff_exists.mpr ⟨_, hb, by simp⟩

def find (l : List (κ × β)) (k : κ) : Option β := (l.find? fun e => e.1 = k).map Prod.snd

theorem find_eq_none_iff : find l k = none ↔ k ∉ keys l := by
  simp only [find, keys, Option.map_eq_none_iff, find?_eq_none, decide_eq_true_eq,
    mem_map, not_exists, not_and]

theorem find_eq_some_iff (h : (keys l).Nodup) : find l k = some b ↔ (k, b) ∈ l := by
  constructor
  · intro hb
    obtain ⟨e, he, rfl⟩ := Option.map_eq_some_iff.mp hb
    obtain rfl : e.1 = k := by simpa using find?_some he
    exact mem_of_find?_eq_some he
  · intro hb
    cases hfind : find l k with
    | none => exact absurd (mem_keys_of_mem hb) (find_eq_none_iff.mp hfind)
    | some b' =>
      obtain ⟨e, he, rfl⟩ := Option.map_eq_some_iff.mp hfind
      obtain rfl : e.1 = k := by simpa using find?_some he
      have heq := inj_on_of_nodup_map h (mem_of_find?_eq_some he) hb rfl
      rw [heq]

def use (cap : Nat) (l : List (κ × β)) (k : κ) (b : β) : List (κ × β) :=
  if k ∈ keys l then erase l k ++ [(k, b)] else room cap l ++ [(k, b)]

theorem mem_use (h : e ∈ use cap l k b) : e ∈ l ∨ e = (k, b) := by
  unfold use at h
  split at h
  · exact (mem_append.mp h).imp (fun he => (mem_erase.mp he).1) mem_singleton.mp
  · exact (mem_append.mp h).imp (fun he => room_suffix.subset he) mem_singleton.mp

theorem mem_use_self : (k, b) ∈ use cap l k b := by
  unfold use
  split <;> simp

theorem length_use (h : l.length ≤ cap) (hcap : 0 < cap) : (use cap l k b).length ≤ cap := by
  unfold use
  split
  · rename_i hk
    have hlt := length_erase_lt hk
    rw [length_append, length_singleton]
    omega
  · rw [length_append, length_singleton]
    exact length_room_lt h hcap.ne'

theorem nodup_use (h : (keys l).Nodup) : (keys (use cap l k b)).Nodup := by
  unfold use
  split
  · exact nodup_keys_concat (nodup_erase h) fun hk => (mem_keys_erase.mp hk).2 rfl
  · rename_i hk
    have hroom : (keys (room cap l)).Nodup := h.sublist (room_suffix.sublist.map _)
    exact nodup_keys_concat hroom fun hk' => hk (keys_subset_of_suffix room_suffix hk')

section map
variable {γ : Type*} (f : β → γ)

theorem find_map : find (l.map (Prod.map id f)) k = (find l k).map f := by
  simp [find, find?_map, Function.comp_def]

theorem use_map : (use cap l k b).map (Prod.map id f) = use cap (l.map (Prod.map id f)) k (f b) := by
  have herase : (erase l k).map (Prod.map id f) = erase (l.map (Prod.map id f)) k := by
    simp [erase, filter_map, Function.comp_def]
  have hroom : (room cap l).map (Prod.map id f) = room cap (l.map (Prod.map id f)) := by
    simp only [room, length_map, apply_ite (List.map (Prod.map id f)), map_tail]
  unfold use
  rw [keys_map]
  split
  · rw [map_append, herase]
    rfl
  · rw [map_append, hroom]
    rfl

end map

def common (l m : List (κ × β)) : List (κ × β) := l.filter fun e => e.1 ∈ keys m

structure Includes (R : β → β → Prop) (free : β → Prop) (l m : List (κ × β)) : Prop where
  suffix : ∃ m₂, m₂ <:+ m ∧ Matched R (common l m) m₂
  free : ∀ e ∈ l, e.1 ∉ keys m → free e.2

section inclusion
variable {R : β → β → Prop} {free : β → Prop} {l' m₂ : List (κ × β)}

theorem mem_common : e ∈ common l m ↔ e ∈ l ∧ e.1 ∈ keys m := by
  simp [common]

theorem common_append (l l' m : List (κ × β)) :
    common (l ++ l') m = common l m ++ common l' m := filter_append ..

theorem common_congr (h : ∀ e ∈ l, e.1 ∈ keys m ↔ e.1 ∈ keys n) : common l m = common l n :=
  filter_congr fun e he => by simp only [h e he]

theorem common_suffix (h : l' <:+ l) : common l' m <:+ common l m := by
  obtain ⟨l₁, rfl⟩ := h
  exact ⟨common l₁ m, (common_append ..).symm⟩

theorem common_erase : common (erase l k) m = erase (common l m) k := by
  simp only [common, erase, filter_filter, Bool.and_comm]

theorem common_concat (hl : k ∉ keys l) :
    common (l ++ [(k, b)]) (m ++ [(k, b')]) = common l m ++ [(k, b)] := by
  rw [common_append, common_congr (l := [(k, b)]) (n := [(k, b)]) (by simp [keys]),
    common_congr (n := m) fun e he => ?_]
  · simp [common, keys]
  · rw [mem_keys_concat, or_iff_left]
    exact fun hk => hl (hk ▸ mem_keys_of_mem he)

theorem notMem_of_suffix (hm : (keys (x :: m)).Nodup) (hs : m₂ <:+ m)
    (hmatch : Matched R (common l (x :: m)) m₂) : x.1 ∉ keys l := by
  intro hk
  obtain ⟨b, hb⟩ := mem_keys.mp hk
  have hmem : x.1 ∈ keys (common l (x :: m)) :=
    mem_keys.mpr ⟨b, mem_common.mpr ⟨hb, mem_cons_self⟩⟩
  rw [hmatch.keys_eq] at hmem
  exact (nodup_cons.mp hm).1 (keys_subset_of_suffix hs hmem)

theorem Includes.tails (hm : (keys m).Nodup) (hmatch : Matched R l m) :
    Includes R free l.tail m.tail := by
  cases hmatch with
  | nil => exact ⟨⟨[], suffix_rfl, .nil⟩, by simp⟩
  | @cons a x l m _ h =>
    have hall : ∀ e ∈ l, e.1 ∈ keys m := fun e he => Matched.keys_eq h ▸ mem_keys_of_mem he
    refine ⟨⟨m, suffix_rfl, ?_⟩, fun e he hn => absurd (hall e he) hn⟩
    rwa [tail_cons, tail_cons, common, filter_eq_self.mpr fun e he => decide_eq_true (hall e he)]

section
variable (h : Includes R free l m)
include h

theorem Includes.room (hm : (keys m).Nodup) (hl : l.length ≤ cap) :
    Includes R free (room cap l) (room cap m) := by
  obtain ⟨⟨m₂, hs, hmatch⟩, hfree⟩ := h
  have hsub : ∀ e ∈ Recency.room cap l, e ∈ l := fun e he => room_suffix.subset he
  by_cases hcap : cap ≤ m.length
  · match m, hm, hs, hmatch with
    | [], _, _, _ =>
      obtain rfl : l = [] := length_eq_zero_iff.mp (by simpa using hl.trans hcap)
      simp only [Recency.room, length_nil, tail_nil, ite_self]
      exact ⟨⟨[], suffix_rfl, .nil⟩, by simp⟩
    | x :: xs, hm, hs, hmatch =>
      rcases suffix_cons_iff.mp hs with rfl | hs
      · -- nothing is older than the common part, so `l` is full as well and its first entry is `x`
        have hlength := hmatch.length_eq
        have hfull : common l (x :: xs) = l :=
          filter_sublist.eq_of_length_le (by
            change l.length ≤ (common l (x :: xs)).length
            omega)
        rw [hfull] at hmatch hlength
        have hcap' : cap ≤ l.length := by omega
        rw [Recency.room, Recency.room, if_pos hcap, if_pos hcap']
        exact .tails hm hmatch
      · have hx := notMem_of_suffix hm hs hmatch
        have hkeys : ∀ e ∈ l, e.1 ∈ keys (x :: xs) ↔ e.1 ∈ keys xs := by
          intro e he
          have hne : e.1 ≠ x.1 := fun hk => hx (hk ▸ mem_keys_of_mem he)
          simp [keys, hne]
        have hroom : Recency.room cap (x :: xs) = xs := by
          rw [Recency.room, if_pos hcap, tail_cons]
        rw [common_congr hkeys] at hmatch
        rw [hroom]
        exact ⟨hmatch.of_suffix (common_suffix room_suffix) hs,
          fun e he hn => hfree e (hsub e he) ((hkeys e (hsub e he)).not.mpr hn)⟩
  · have hroom : Recency.room cap m = m := if_neg hcap
    rw [hroom]
    exact ⟨hmatch.of_suffix (common_suffix room_suffix) hs, fun e he => hfree e (hsub e he)⟩

theorem Includes.erase : Includes R free (erase l k) (erase m k) := by
  obtain ⟨⟨m₂, hs, hmatch⟩, hfree⟩ := h
  have hkeys : ∀ e ∈ Recency.erase l k, e.1 ∈ keys (Recency.erase m k) ↔ e.1 ∈ keys m := by
    intro e he
    rw [mem_keys_erase, and_iff_left (mem_erase.mp he).2]
  refine ⟨⟨Recency.erase m₂ k, erase_suffix hs, ?_⟩, fun e he hn => ?_⟩
  · rw [common_congr hkeys, common_erase]
    exact hmatch.erase
  · exact hfree e (mem_erase.mp he).1 ((hkeys e he).not.mp hn)

theorem Includes.concat (hl : k ∉ keys l) (hb : R b b') :
    Includes R free (l ++ [(k, b)]) (m ++ [(k, b')]) := by
  obtain ⟨⟨m₂, hs, hmatch⟩, hfree⟩ := h
  refine ⟨⟨m₂ ++ [(k, b')], ?_, ?_⟩, fun e he hn => ?_⟩
  · obtain ⟨m₁, rfl⟩ := hs
    exact ⟨m₁, (append_assoc ..).symm⟩
  · rw [common_concat hl]
    exact hmatch.concat hb
  · rw [mem_keys_concat, not_or] at hn
    rcases mem_append.mp he with he | he
    · exact hfree e he hn.1
    · exact absurd (congrArg Prod.fst (mem_singleton.mp he)) hn.2

theorem Includes.room_left : Includes R free (Recency.room cap l) m := by
  obtain ⟨⟨m₂, hs, hmatch⟩, hfree⟩ := h
  exact ⟨hmatch.of_suffix (common_suffix room_suffix) hs,
    fun e he => hfree e (room_suffix.subset he)⟩

theorem Includes.room_right (hm : (keys m).Nodup) (hl : l.length ≤ cap)
    (hk : k ∈ keys l) (hkm : k ∉ keys m) :
    Includes R free (Recency.erase l k) (Recency.room cap m) := by
  have hlt := length_erase_lt hk
  have hroom : Includes R free (Recency.room cap (Recency.erase l k))
      (Recency.room cap (Recency.erase m k)) := h.erase.room (nodup_erase hm) (by omega)
  rwa [erase_of_notMem hkm, Recency.room, if_neg (by omega)] at hroom

theorem Includes.use (hm : (keys m).Nodup) (hl : l.length ≤ cap)
    (hb : R b b') : Includes R free (use cap l k b) (use cap m k b') := by
  unfold Recency.use
  split <;> split
  · exact h.erase.concat (fun hk => (mem_keys_erase.mp hk).2 rfl) hb
  · exact (h.room_right hm hl ‹_› ‹_›).concat (fun hk => (mem_keys_erase.mp hk).2 rfl) hb
  · rename_i hk hkm
    have hroom : k ∉ keys (Recency.room cap l) :=
      fun hk' => hk (keys_subset_of_suffix room_suffix hk')
    have herase : Includes R free (Recency.erase (Recency.room cap l) k) (Recency.erase m k) :=
      h.room_left.erase
    rw [erase_of_notMem hroom] at herase
    exact herase.concat hroom hb
  · rename_i hk hkm
    exact (h.room hm hl).concat (fun hk' => hk (keys_subset_of_suffix room_suffix hk')) hb

theorem Includes.value (hb : (k, b) ∈ l) : (∃ b', (k, b') ∈ m ∧ R b b') ∨ k ∉ keys m ∧ free b := by
  obtain ⟨⟨m₂, hs, hmatch⟩, hfree⟩ := h
  by_cases hk : k ∈ keys m
  · obtain ⟨⟨_, b'⟩, hmem, rfl, hR⟩ := hmatch.partner (mem_common.mpr ⟨hb, hk⟩)
    exact .inl ⟨b', hs.subset hmem, hR⟩
  · exact .inr ⟨hk, hfree _ hb hk⟩

theorem Includes.filter {p : β → Bool} (hp : ∀ a b, R a b → p a = p b) :
    Includes R free (l.filter fun e => p e.2) (m.filter fun e => p e.2) := by
  have hkeys : ∀ e ∈ l.filter (fun e => p e.2),
      e.1 ∈ keys (m.filter fun e => p e.2) ↔ e.1 ∈ keys m := by
    intro e he
    obtain ⟨he, hpe⟩ := mem_filter.mp he
    refine ⟨fun hk => (filter_sublist.map _).subset hk, fun hk => ?_⟩
    obtain ⟨b', hb', hR⟩ := (h.value he).resolve_right fun hn => hn.1 hk
    exact mem_keys.mpr ⟨b', mem_filter.mpr ⟨hb', (hp _ _ hR).symm.trans hpe⟩⟩
  obtain ⟨⟨m₂, hs, hmatch⟩, hfree⟩ := h
  refine ⟨⟨m₂.filter fun e => p e.2, ?_, ?_⟩, fun e he hn => ?_⟩
  · obtain ⟨m₁, rfl⟩ := hs
    exact ⟨m₁.filter fun e => p e.2, (filter_append ..).symm⟩
  · rw [common_congr hkeys, common, filter_comm]
    exact hmatch.filter fun a b _ hR => hp _ _ hR
  · exact hfree e (mem_filter.mp he).1 ((hkeys e he).not.mp hn)

end

theorem Includes.of_filter (hl : (keys l).Nodup) (hR : ∀ b, R b b)
    (hfree : ∀ e ∈ l, p e = false → free e.2) : Includes R free l (l.filter p) := by
  have hkeys : ∀ e ∈ l, e.1 ∈ keys (l.filter p) ↔ p e = true := by
    intro e he
    constructor
    · intro hk
      obtain ⟨b, hb⟩ := mem_keys.mp hk
      obtain ⟨hb, hp⟩ := mem_filter.mp hb
      have heq := inj_on_of_nodup_map hl hb he rfl
      rwa [← heq]
    · exact fun hp => mem_keys_of_mem (mem_filter.mpr ⟨he, hp⟩)
  have hcommon : common l (l.filter p) = l.filter p :=
    filter_congr fun e he => by simp [hkeys e he]
  refine ⟨⟨l.filter p, suffix_rfl, ?_⟩, fun e he hn => ?_⟩
  · rw [hcommon]
    exact forall₂_same.mpr fun e _ => ⟨rfl, hR e.2⟩
  · exact hfree e he (Bool.eq_false_iff.mpr fun hp => hn ((hkeys e he).mpr hp))

end inclusion

end Nervix.Recency
