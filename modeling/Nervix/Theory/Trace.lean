import Nervix.Theory.System

/-!
# Infinite traces

A trace is a run that never ends. What leads to a goal is proved with a rank: no step raises it
while the goal is not reached, and steps that lower it keep coming.
-/

namespace Nervix.System

open List

variable {σ ι : Type*} {S : System σ ι} {s : σ}

structure Trace (S : System σ ι) (s : σ) where
  state : Nat → σ
  input : Nat → ι
  start : state 0 = s
  allowed : ∀ n, S.guard (state n) (input n)
  step : ∀ n, state (n + 1) = S.next (state n) (input n)

namespace Trace

theorem run (t : S.Trace s) (n : Nat) : S.Run s (t.state n) := by
  induction n with
  | zero =>
    rw [t.start]
    exact .refl
  | succ n ih =>
    rw [t.step]
    exact ih.tail (t.allowed n)

theorem keeps_or_reaches (t : S.Trace s) {P Q : σ → Prop}
    (hstep : ∀ n, P (t.state n) → Q (t.state (n + 1)) ∨ P (t.state (n + 1)))
    (h : P (t.state n)) (d : Nat) : (∃ m, n ≤ m ∧ Q (t.state m)) ∨ P (t.state (n + d)) := by
  induction d with
  | zero => exact .inr h
  | succ d ih =>
    rcases ih with hQ | hP
    · exact .inl hQ
    · rcases hstep (n + d) hP with hQ | hP
      · exact .inl ⟨n + d + 1, by omega, hQ⟩
      · exact .inr hP

theorem meets (t : S.Trace s) {P : σ → Prop} (helpful : ι → Prop)
    (hkeep : ∀ n, P (t.state n) → ¬ helpful (t.input n) → P (t.state (n + 1))) (h : P (t.state n)) (hfair : ∃ m, n ≤ m ∧ helpful (t.input m)) :
    ∃ m, n ≤ m ∧ P (t.state m) ∧ helpful (t.input m) := by
  obtain ⟨m, hm, hhelp⟩ := hfair
  obtain ⟨d, rfl⟩ := Nat.exists_eq_add_of_le hm
  clear hm
  induction d generalizing n with
  | zero => exact ⟨n, Nat.le_refl n, h, hhelp⟩
  | succ d ih =>
    by_cases hn : helpful (t.input n)
    · exact ⟨n, Nat.le_refl n, h, hn⟩
    · rw [show n + (d + 1) = n + 1 + d by omega] at hhelp
      obtain ⟨m, hm, hP⟩ := ih (hkeep n h hn) hhelp
      exact ⟨m, by omega, hP⟩

theorem leadsTo (t : S.Trace s) {P Q : σ → Prop} (rank : σ → Nat) (helpful : σ → ι → Prop)
    (hfair : ∀ n, P (t.state n) → ∃ m, n ≤ m ∧ helpful (t.state m) (t.input m))
    (hstep : ∀ n, P (t.state n) → Q (t.state (n + 1)) ∨
      P (t.state (n + 1)) ∧ rank (t.state (n + 1)) ≤ rank (t.state n) ∧
        (helpful (t.state n) (t.input n) → rank (t.state (n + 1)) < rank (t.state n))) (h : P (t.state n)) : ∃ m, n ≤ m ∧ Q (t.state m) := by
  induction hr : rank (t.state n) using Nat.strongRecOn generalizing n with
  | _ r ih =>
    obtain ⟨m, hm, hhelp⟩ := hfair n h
    obtain ⟨d, rfl⟩ := Nat.exists_eq_add_of_le hm
    have hkeep := t.keeps_or_reaches (P := fun u => P u ∧ rank u ≤ r) (Q := Q)
      (fun n hn => (hstep n hn.1).imp_right fun h => ⟨h.1, Nat.le_trans h.2.1 hn.2⟩)
      ⟨h, Nat.le_of_eq hr⟩ d
    rcases hkeep with hQ | ⟨hP, hle⟩
    · exact hQ
    · rcases hstep (n + d) hP with hQ | ⟨hP', -, hlt⟩
      · exact ⟨n + d + 1, by omega, hQ⟩
      · obtain ⟨k, hk, hQ⟩ := ih _ (Nat.lt_of_lt_of_le (hlt hhelp) hle) hP' rfl
        exact ⟨k, by omega, hQ⟩

end Trace

theorem Allows.guard_take : ∀ {l : List ι} {s : σ} {n : Nat}, S.Allows s l → (hn : n < l.length) →
    S.guard ((l.take n).foldl S.next s) (l.get ⟨n, hn⟩)
  | _ :: _, _, 0, h, _ => h.1
  | _ :: _, _, n + 1, h, hn => guard_take (n := n) h.2 (Nat.lt_of_succ_lt_succ hn)

def Trace.idling (l : List ι) (i : ι) (hl : S.Allows s l) (hi : S.guard (l.foldl S.next s) i)
    (hidle : S.next (l.foldl S.next s) i = l.foldl S.next s) : S.Trace s where
  state n := (l.take n).foldl S.next s
  input n := l.getD n i
  start := by rw [take_zero, foldl_nil]
  allowed n := by
    by_cases hn : n < l.length
    · rw [getD_eq_getElem l i hn]
      exact hl.guard_take hn
    · rw [getD_eq_default l i (Nat.le_of_not_lt hn), take_of_length_le (by omega)]
      exact hi
  step n := by
    by_cases hn : n < l.length
    · rw [getD_eq_getElem l i hn, take_succ_eq_append_getElem hn, foldl_append,
        foldl_cons, foldl_nil]
    · rw [getD_eq_default l i (Nat.le_of_not_lt hn), take_of_length_le (by omega),
        take_of_length_le (by omega), hidle]

end Nervix.System
