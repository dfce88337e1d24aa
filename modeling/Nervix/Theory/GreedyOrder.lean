import Mathlib

/-!
# Orders that keep dependencies

Orders of finitely many items in which each follows what it depends on, and the one that takes at
every place the least item that could stand there.
-/

namespace Nervix

open Relation (TransGen)

section

variable (items : Set ι) (dep : ι → ι → Prop)

/-- Every item once, each after every item it depends on. -/
structure Orders (order : List ι) : Prop where
  nodup : order.Nodup
  mem : i ∈ order ↔ i ∈ items
  after : order = pre ++ i :: post → dep d i → d ∈ pre

/-- What can follow `taken`: an item not among them whose dependencies all are. -/
def Next (taken : List ι) (i : ι) : Prop :=
  i ∈ items ∧ i ∉ taken ∧ ∀ d, dep d i → d ∈ taken

/-- At every place the least item that could stand there. -/
def Greedy [LE κ] (key : ι → κ) (order : List ι) : Prop :=
  ∀ pre i post, order = pre ++ i :: post →
    Next items dep pre i ∧ ∀ j, Next items dep pre j → key i ≤ key j

end

variable {items : Set ι} {dep : ι → ι → Prop} {order : List ι}

theorem Orders.next (h : Orders items dep order) (he : order = pre ++ i :: post) :
    Next items dep pre i := by
  refine ⟨h.mem.mp (by simp [he]), fun hi => ?_, fun d => h.after he⟩
  have hnodup := he ▸ h.nodup
  exact (List.nodup_append.mp hnodup).2.2 i hi i List.mem_cons_self rfl

theorem Orders.mem_of_transGen (h : Orders items dep order) (hd : TransGen dep d i) :
    ∀ pre post, order = pre ++ i :: post → d ∈ pre := by
  induction hd with
  | single hd => exact fun pre post he => h.after he hd
  | tail _ hd ih =>
    intro pre post he
    obtain ⟨before, between, rfl⟩ := List.append_of_mem (h.after he hd)
    exact List.mem_append_left _ (ih before _ (by rw [he, List.append_assoc, List.cons_append]))

theorem Orders.acyclic (h : Orders items dep order) (hi : i ∈ items) : ¬TransGen dep i i := by
  intro hcycle
  obtain ⟨pre, post, he⟩ := List.append_of_mem (h.mem.mpr hi)
  exact (h.next he).2.1 (h.mem_of_transGen hcycle pre post he)

/-- Among the items outside `taken` of a set that has its own dependencies, one can follow. -/
theorem exists_next (hfinite : items.Finite) (hacyclic : ∀ i, ¬TransGen dep i i) {part : Set ι}
    (hpart : part ⊆ items) (hdep : ∀ d i, dep d i → i ∈ part → d ∈ part) (hi : i ∈ part)
    (htaken : i ∉ taken) : ∃ j ∈ part, Next items dep taken j := by
  let left := {j | j ∈ part ∧ j ∉ taken}
  have : Finite left := (hfinite.subset fun j hj => hpart hj.1).to_subtype
  have : IsTrans left (fun a b => TransGen dep a.1 b.1) := ⟨fun _ _ _ => TransGen.trans⟩
  have : Std.Irrefl (fun a b : left => TransGen dep a.1 b.1) := ⟨fun a => hacyclic a.1⟩
  obtain ⟨⟨j, hj, hjtaken⟩, -, hleast⟩ :=
    (Finite.wellFounded_of_trans_of_irrefl fun a b : left => TransGen dep a.1 b.1).has_min
      Set.univ ⟨⟨i, hi, htaken⟩, trivial⟩
  refine ⟨j, hj, hpart hj, hjtaken, fun d hd => ?_⟩
  by_contra hdtaken
  exact hleast ⟨d, hdep d j hd hj, hdtaken⟩ trivial (.single hd)

variable [LinearOrder κ] {key : ι → κ}

theorem Greedy.nil : Greedy items dep key [] := by
  intro pre i post he
  simp at he

theorem Greedy.concat (h : Greedy items dep key order) (hnext : Next items dep order i)
    (hleast : ∀ j, Next items dep order j → key i ≤ key j) :
    Greedy items dep key (order ++ [i]) := by
  intro pre j post he
  rcases List.eq_nil_or_concat post with rfl | ⟨post, k, rfl⟩
  · obtain ⟨rfl, hij⟩ := List.append_inj' he rfl
    obtain rfl := List.singleton_injective hij
    exact ⟨hnext, hleast⟩
  · rw [List.concat_eq_append, ← List.cons_append, ← List.append_assoc] at he
    exact h pre j post (List.append_inj' he rfl).1

theorem Greedy.nodup (h : Greedy items dep key order) : order.Nodup := by
  induction order using List.reverseRecOn with
  | nil => exact List.nodup_nil
  | append_singleton order i ih =>
    refine List.nodup_append.mpr ⟨ih fun pre j post he => ?_, List.nodup_singleton i, ?_⟩
    · exact h pre j (post ++ [i]) (by rw [he]; simp)
    · rintro j hj _ hi rfl
      exact (h order i [] rfl).1.2.1 (List.mem_singleton.mp hi ▸ hj)

theorem Greedy.next_of_mem (h : Greedy items dep key order) (hi : i ∈ order) :
    ∃ pre, Next items dep pre i ∧ ∀ d ∈ pre, d ∈ order := by
  obtain ⟨pre, post, rfl⟩ := List.append_of_mem hi
  exact ⟨pre, (h pre i post rfl).1, fun d hd => List.mem_append_left _ hd⟩

theorem Greedy.orders (h : Greedy items dep key order) (hall : ∀ i ∈ items, i ∈ order) :
    Orders items dep order where
  nodup := h.nodup
  mem := ⟨fun hi => (h.next_of_mem hi).choose_spec.1.1, hall _⟩
  after he hd := (h _ _ _ he).1.2.2 _ hd

/-- A greedy order is the least one, item by item. -/
theorem Greedy.le (h : Greedy items dep key order) (hkey : ∀ i j, key i = key j → i = j)
    (horders : Orders items dep order) (horders' : Orders items dep order') :
    order.map key ≤ order'.map key := by
  have hlen : order.length = order'.length :=
    ((List.perm_ext_iff_of_nodup horders.nodup horders'.nodup).mpr fun i =>
      horders.mem.trans horders'.mem.symm).length_eq
  refine not_lt.mp fun hlt => ?_
  rcases List.lt_iff_exists.mp hlt with ⟨-, hshort⟩ | ⟨n, hn', hn, hsame, hless⟩
  · simp [hlen] at hshort
  · simp only [List.length_map, List.getElem_map] at hn hn' hsame hless
    have hpre : order'.take n = order.take n := by
      refine List.ext_getElem (by simp; omega) fun m hm _ => ?_
      rw [List.length_take] at hm
      simpa using hkey _ _ (hsame m (by omega))
    have hnext : Next items dep (order'.take n) order'[n] :=
      horders'.next (by rw [List.cons_getElem_drop_succ, List.take_append_drop])
    have hle := (h (order.take n) order[n] (order.drop (n + 1)) (by simp)).2 _ (hpre ▸ hnext)
    exact absurd hless (not_lt.mpr hle)

end Nervix
