import Mathlib

/-!
# The two stacks of a window's aggregate

An aggregate of rows is an element of a monoid: the product merges the aggregate of older rows with
that of the rows after them, and `1` is the aggregate of no rows.
-/

namespace Nervix.Processors

open List
open FreeMonoid (of)

/-- The last entry of `front` is the aggregate of the oldest row and every newer row of the front. -/
structure TwoStacks (A : Type) [Monoid A] where
  front : List A := []
  back : A := 1

namespace TwoStacks

variable {A R : Type} [Monoid A]

def admits (s : TwoStacks A) (newer : A) : TwoStacks A := { s with back := s.back * newer }

def aggregate (s : TwoStacks A) : A :=
  match s.front.getLast? with
  | some front => front * s.back
  | none => s.back

/-- `none` where the assertion of the source fails: a refold covers every surviving row. -/
def retractOldestRuns (s : TwoStacks A) (count retained : Nat) (runs : List R)
    (refoldRun : R → A → List A → A × List A) : Option (TwoStacks A) :=
  if count ≤ s.front.length then some { s with front := s.front.take (s.front.length - count) }
  else
    let refolded := runs.foldl (fun p run => refoldRun run p.1 p.2) (1, [])
    if refolded.2.length = retained - count then some ⟨refolded.2, 1⟩ else none

/-- Visits the rows of a run from the newest and pushes one suffix aggregate for each. -/
def refoldRun (rows : List A) (newer : A) (front : List A) : A × List A :=
  rows.reverse.foldl (fun p row => (row * p.1, p.2 ++ [row * p.1])) (newer, front)

/-- The runs hold, from the newest to the oldest, the rows that survive. -/
def Surviving (refold : R → A → List A → A × List A) (runs : List R) (survivors : List A) : Prop :=
  ∃ rows : R → List A, runs.reverse.flatMap rows = survivors ∧
    ∀ run newer front, refold run newer front = refoldRun (rows run) newer front

/-- The stacks that admissions and retractions leave, with the aggregates of the retained rows. -/
inductive Reachable (R : Type) : List A → TwoStacks A → Prop
  | new : Reachable R [] {}
  | admits {rows s} (run : List A) : Reachable R rows s →
      Reachable R (rows ++ run) (s.admits run.prod)
  | retract {rows s s' count refold} {runs : List R} : Reachable R rows s →
      count ≤ rows.length → Surviving refold runs (rows.drop count) →
      s.retractOldestRuns count rows.length runs refold = some s' → Reachable R (rows.drop count) s'

/-! ### What the stacks cover -/

variable {s : TwoStacks A} {rows : List A} {runs : List R} {count : Nat}
variable {refold : R → A → List A → A × List A}

def suffixes : List A → List A
  | [] => []
  | row :: rows => (row :: rows).prod :: suffixes rows

theorem length_suffixes (rows : List A) : (suffixes rows).length = rows.length := by
  induction rows with
  | nil => rfl
  | cons row rows ih => rw [suffixes, length_cons, ih, length_cons]

theorem suffixes_drop (rows : List A) (count : Nat) :
    suffixes (rows.drop count) = (suffixes rows).drop count := by
  induction rows generalizing count with
  | nil => simp [suffixes]
  | cons row rows ih =>
    cases count with
    | zero => rfl
    | succ count => exact ih count

def Covers (rows : List A) (s : TwoStacks A) : Prop :=
  ∃ older newer, rows = older ++ newer ∧ s.front = (suffixes older).reverse ∧ s.back = newer.prod

theorem refoldRun_suffixes (rows l : List A) :
    refoldRun rows l.prod (suffixes l).reverse =
      ((rows ++ l).prod, (suffixes (rows ++ l)).reverse) := by
  rw [refoldRun, foldl_reverse]
  induction rows with
  | nil => rfl
  | cons row rows ih => simp [ih, suffixes]

theorem Surviving.foldl_eq (h : Surviving refold runs survivors) :
    runs.foldl (fun p run => refold run p.1 p.2) (1, []) =
      (survivors.prod, (suffixes survivors).reverse) := by
  obtain ⟨rows, rfl, hrefold⟩ := h
  -- The runs come from the newest, so the fold adds each of them in front of the rows so far.
  induction runs using reverseRecOn with
  | nil => rfl
  | append_singleton runs run ih =>
    rw [foldl_append, ih, reverse_append, flatMap_append]
    simp [hrefold, refoldRun_suffixes]

theorem Covers.aggregate_eq (h : Covers rows s) : s.aggregate = rows.prod := by
  obtain ⟨older, newer, rfl, hfront, hback⟩ := h
  rw [aggregate, hfront, hback, getLast?_reverse, prod_append]
  cases older with
  | nil => exact (one_mul _).symm
  | cons row older => rfl

theorem Covers.length_le (h : Covers rows s) : s.front.length ≤ rows.length := by
  obtain ⟨older, newer, rfl, hfront, -⟩ := h
  simp [hfront, length_suffixes]

theorem Covers.retract (h : Covers rows s) (hruns : Surviving refold runs (rows.drop count)) :
    ∃ s', s.retractOldestRuns count rows.length runs refold = some s' ∧
      Covers (rows.drop count) s' := by
  rw [retractOldestRuns, hruns.foldl_eq]
  split
  · rename_i hcount
    obtain ⟨older, newer, rfl, hfront, hback⟩ := h
    rw [hfront, length_reverse, length_suffixes] at hcount
    refine ⟨_, rfl, older.drop count, newer, drop_append_of_le_length hcount, ?_, hback⟩
    rw [suffixes_drop, reverse_drop, hfront, length_reverse]
  · rw [if_pos (by simp [length_suffixes])]
    exact ⟨_, rfl, rows.drop count, [], (append_nil _).symm, rfl, rfl⟩

theorem Reachable.covers (h : Reachable R rows s) : Covers rows s := by
  induction h with
  | new => exact ⟨[], [], rfl, rfl, rfl⟩
  | admits run _ ih =>
    obtain ⟨older, newer, rfl, hfront, hback⟩ := ih
    exact ⟨older, newer ++ run, append_assoc .., hfront, by
      rw [TwoStacks.admits, hback, prod_append]⟩
  | retract _ _ hruns hs ih =>
    obtain ⟨s', hs', hcovers⟩ := ih.retract hruns
    cases hs.symm.trans hs'
    exact hcovers

/-- **The stacks cover exactly the retained rows.** -/
theorem covers_retained {A R : Type} [Monoid A] {rows : List A} {s : TwoStacks A}
    (h : Reachable R rows s) :
    s.aggregate = rows.prod ∧ s.front.length ≤ rows.length ∧
      ∀ {refold : R → A → List A → A × List A} {runs count}, count ≤ rows.length →
        Surviving refold runs (rows.drop count) →
        s.retractOldestRuns count rows.length runs refold ≠ none := by
  refine ⟨h.covers.aggregate_eq, h.covers.length_le, fun _ hruns => ?_⟩
  obtain ⟨s', hs', -⟩ := h.covers.retract hruns
  simp [hs']

-- The retraction empties the front and refolds the row that survives it.
theorem covers_retained_crossing :
    ∃ s, Reachable (List (FreeMonoid Nat)) [of 3] s ∧ s.aggregate = of 3 := by
  have hadmitted : Reachable (List (FreeMonoid Nat)) [of 1, of 2, of 3] _ :=
    .admits [of 3] (.admits [of 1, of 2] .new)
  have hruns : Surviving refoldRun [[of 3]] ([of 1, of 2, of 3].drop 2) :=
    ⟨id, rfl, fun _ _ _ => rfl⟩
  obtain ⟨s, hs, -⟩ := hadmitted.covers.retract hruns
  have h := hadmitted.retract (by decide) hruns hs
  exact ⟨s, h, (covers_retained h).1⟩

end TwoStacks

end Nervix.Processors
