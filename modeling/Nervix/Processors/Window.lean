import Nervix.Processors.KeyParts

/-!
# The rows that a window retains

A window is the list of the timestamps of its rows, the oldest row first.
-/

namespace Nervix.Processors.Window

open List

structure WindowBounds where
  widthMessages : Option Nat := none
  stepMessages : Option Nat := none
  widthDuration : Option Nat := none
  stepDuration : Option Nat := none

section
variable (b : WindowBounds) (now : Timestamp)

def timestampElapsed (start stop : Timestamp) : Nat := (stop - start).toNat

def windowWidthMet : List Timestamp → Bool
  | [] => false
  | first :: rest => b.widthMessages.any (· ≤ rest.length + 1) ||
      b.widthDuration.any (· ≤ timestampElapsed first now)

def advanceWindow (entries : List Timestamp) : List Timestamp :=
  match b.stepDuration, entries.drop (b.stepMessages.getD 0) with
  | some step, first :: rest =>
    (first :: rest).dropWhile (· < checkedAddDurationToTimestamp first step)
  | _, entries => entries

/-- `routed` says which emissions reach their routes; `none` is a loop that outlives its fuel.
Without a program for every route the window is cleared before the loop. -/
def flushReady (routed : Nat → Bool) : Nat → List Timestamp → Option (List Timestamp)
  | 0, entries => if windowWidthMet b now entries then none else some entries
  | fuel + 1, entries =>
    if windowWidthMet b now entries then
      if routed fuel then flushReady routed fuel (advanceWindow b entries) else some []
    else some entries

end

variable {b : WindowBounds} {entries : List Timestamp}

/-! ### The flush loop ends -/

structure WindowBounds.Steps (b : WindowBounds) : Prop where
  configured : b.stepMessages.isSome ∨ b.stepDuration.isSome
  messages : ∀ n ∈ b.stepMessages, 0 < n
  duration : ∀ d ∈ b.stepDuration, 0 < d

theorem advanceWindow_suffix_drop :
    advanceWindow b entries <:+ entries.drop (b.stepMessages.getD 0) := by
  unfold advanceWindow
  split
  case h_1 heq =>
    rw [heq]
    exact dropWhile_suffix _
  case h_2 => exact suffix_rfl

theorem advanceWindow_suffix : advanceWindow b entries <:+ entries :=
  advanceWindow_suffix_drop.trans (drop_suffix _ _)

section
variable (hsteps : b.Steps) (h : b.stepMessages.isSome ∨ ∀ t ∈ entries, t < Timestamp.max)
include hsteps h

theorem length_advanceWindow_lt (hne : entries ≠ []) :
    (advanceWindow b entries).length < entries.length := by
  have hpos := length_pos_iff.mpr hne
  cases hm : b.stepMessages with
  | some n =>
    have hsuffix : advanceWindow b entries <:+ entries.drop n := by
      simpa [hm] using advanceWindow_suffix_drop (b := b)
    have hle := hsuffix.length_le
    have hn := hsteps.messages n hm
    rw [length_drop] at hle
    omega
  | none =>
    obtain ⟨d, hd⟩ := Option.isSome_iff_exists.mp (hsteps.configured.resolve_left (by simp [hm]))
    have hdpos := hsteps.duration d hd
    obtain ⟨first, rest, rfl⟩ := exists_cons_of_ne_nil hne
    have hmax := h.resolve_left (by simp [hm]) first mem_cons_self
    have hfirst : first < checkedAddDurationToTimestamp first d :=
      lt_min (lt_add_of_pos_right first (Int.natCast_pos.mpr hdpos)) hmax
    simp only [advanceWindow, hm, hd, Option.getD_none, drop_zero, dropWhile_cons, hfirst,
      decide_true, if_true, length_cons]
    exact Nat.lt_succ_of_le (dropWhile_suffix _).length_le

theorem flushReady_eq_some (hlen : entries.length ≤ fuel) :
    ∃ rest, flushReady b now routed fuel entries = some rest := by
  induction fuel generalizing entries with
  | zero =>
    obtain rfl := length_eq_zero_iff.mp (Nat.le_zero.mp hlen)
    exact ⟨[], rfl⟩
  | succ fuel ih =>
    rw [flushReady]
    split
    · rename_i hmet
      split
      · have hne : entries ≠ [] := by
          rintro rfl
          exact absurd hmet Bool.false_ne_true
        have hlt := length_advanceWindow_lt hsteps h hne
        exact ih (h.imp_right fun h t ht => h t (advanceWindow_suffix.subset ht)) (by omega)
      · exact ⟨[], rfl⟩
    · exact ⟨entries, rfl⟩

end

def stepOne : WindowBounds := { widthMessages := some 1, stepDuration := some 1 }

theorem steps_stepOne : stepOne.Steps := ⟨.inr rfl, by simp [stepOne], by simp [stepOne]⟩

-- The cutoff of the last timestamp is the timestamp itself, and its row stays.
end Nervix.Processors.Window
