import Mathlib

/-!
# Finite maps

Mathlib's `AList` as the finite maps of a program, with an operation that its maps have and the
library lacks: keeping the entries whose key meets a condition.
-/

namespace AList

section
variable {κ β : Type*}

def retain (p : κ → Bool) (m : AList fun _ : κ => β) : AList fun _ : κ => β :=
  ⟨m.entries.filter fun e => p e.1, m.nodupKeys.sublist List.filter_sublist⟩

theorem mem_entries_retain {m : AList fun _ : κ => β} :
    e ∈ (m.retain p).entries ↔ e ∈ m.entries ∧ p e.1 = true := List.mem_filter

end

variable {κ β : Type*} [DecidableEq κ]

theorem lookup_retain (p : κ → Bool) (m : AList fun _ : κ => β) (k : κ) :
    (m.retain p).lookup k = if p k then m.lookup k else none := by
  refine Option.ext fun b => ?_
  have h : b ∈ (m.retain p).lookup k ↔ b ∈ m.lookup k ∧ p k = true := by
    rw [AList.mem_lookup_iff, AList.mem_lookup_iff, mem_entries_retain]
  cases hp : p k <;> simpa [hp] using h

theorem lookup_insert_eq (m : AList fun _ : κ => β) (k k' : κ) (b : β) :
    (m.insert k b).lookup k' = if k = k' then some b else m.lookup k' := by
  split
  · subst k'
    exact lookup_insert m
  · exact lookup_insert_ne (Ne.symm ‹_›)

end AList
