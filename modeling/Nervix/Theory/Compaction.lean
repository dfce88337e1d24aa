import Mathlib

/-!
# Compaction

Where the elements of a list stand once the others are filtered out.
-/

namespace Nervix

variable {α : Type*}

def rank (keep : α → Bool) (l : List α) (i : Nat) : Nat := (l.take i).countP keep

variable {keep : α → Bool} {l : List α} {i j : Nat} {a b : α}

@[simp]
theorem rank_zero : rank keep l 0 = 0 := rfl

@[simp]
theorem rank_cons_succ : rank keep (b :: l) (i + 1) = rank keep l i + if keep b then 1 else 0 :=
  List.countP_cons

theorem getElem?_filter_rank (ha : l[i]? = some a) (hkeep : keep a) :
    (l.filter keep)[rank keep l i]? = some a := by
  induction l generalizing i with
  | nil => cases ha
  | cons b l ih =>
    cases i with
    | zero =>
      cases ha
      rw [List.filter_cons_of_pos hkeep, rank_zero]
      rfl
    | succ i =>
      rw [rank_cons_succ]
      by_cases hb : keep b
      · rw [List.filter_cons_of_pos hb, if_pos hb]
        exact ih ha
      · rw [List.filter_cons_of_neg hb, if_neg hb]
        exact ih ha

theorem rank_lt_rank (hij : i < j) (ha : l[i]? = some a) (hkeep : keep a) :
    rank keep l i < rank keep l j := by
  induction l generalizing i j with
  | nil => cases ha
  | cons b l ih =>
    obtain ⟨j, rfl⟩ := Nat.exists_eq_succ_of_ne_zero (Nat.ne_zero_of_lt hij)
    cases i with
    | zero =>
      cases ha
      rw [rank_zero, rank_cons_succ, if_pos hkeep]
      exact Nat.succ_pos _
    | succ i =>
      rw [rank_cons_succ, rank_cons_succ]
      exact Nat.add_lt_add_right (ih (Nat.lt_of_succ_lt_succ hij) ha) _

theorem exists_rank_eq (ha : (l.filter keep)[j]? = some a) :
    ∃ i, l[i]? = some a ∧ keep a ∧ rank keep l i = j := by
  induction l generalizing j with
  | nil => cases ha
  | cons b l ih =>
    by_cases hb : keep b
    · rw [List.filter_cons_of_pos hb] at ha
      cases j with
      | zero =>
        cases ha
        exact ⟨0, rfl, hb, rfl⟩
      | succ j =>
        obtain ⟨i, hi, hkeep, hrank⟩ := ih ha
        exact ⟨i + 1, hi, hkeep, by rw [rank_cons_succ, if_pos hb, hrank]⟩
    · rw [List.filter_cons_of_neg hb] at ha
      obtain ⟨i, hi, hkeep, hrank⟩ := ih ha
      exact ⟨i + 1, hi, hkeep, by rw [rank_cons_succ, if_neg hb, hrank, Nat.add_zero]⟩

end Nervix
