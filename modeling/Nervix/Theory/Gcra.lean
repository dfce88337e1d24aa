import Mathlib

/-!
# The generic cell rate algorithm

A cell holds one number, its *horizon*: the instant at which its allowance is whole again. A charge
of `cost` cells moves the horizon up by `cost` intervals and is refused when that would take it more
than one burst into the future.
-/

namespace Nervix.Gcra

structure Policy where
  interval : Nat
  burst : Nat
  interval_pos : 0 < interval

variable (P : Policy)

def Policy.check (debt cost : Nat) : Option Nat :=
  if debt + cost * P.interval ≤ P.burst * P.interval then some (debt + cost * P.interval) else none

def Policy.charge (horizon now cost : Nat) : Option Nat :=
  (P.check (horizon - now) cost).map (now + ·)

def Policy.Backed (s spent horizon : Nat) : Prop := spent = 0 ∨ s + spent * P.interval ≤ horizon

variable {P} {s t now horizon horizon' spent cost : Nat}

theorem Policy.charge_eq_some_iff : P.charge horizon now cost = some horizon' ↔
    horizon' = max horizon now + cost * P.interval ∧ horizon' ≤ now + P.burst * P.interval := by
  simp only [charge, check]
  split
  · simp only [Option.map_some, Option.some.injEq]
    omega
  · simp only [Option.map_none, reduceCtorEq, false_iff]
    omega

theorem Policy.charge_mono (hdebt : horizon - now ≤ larger - now)
    (h : P.charge larger now cost = some larger') :
    ∃ horizon', P.charge horizon now cost = some horizon' ∧ horizon' ≤ larger' := by
  obtain ⟨hlarger, hle⟩ := charge_eq_some_iff.mp h
  have hmax : max horizon now ≤ max larger now := by omega
  have hhorizon : max horizon now + cost * P.interval ≤ larger' := by
    rw [hlarger]
    exact Nat.add_le_add_right hmax _
  exact ⟨_, charge_eq_some_iff.mpr ⟨rfl, hhorizon.trans hle⟩, hhorizon⟩

theorem Policy.Backed.zero : P.Backed s 0 horizon := .inl rfl

theorem Policy.Backed.charge (h : P.Backed s spent horizon) (hs : s ≤ now)
    (hcharge : P.charge horizon now cost = some horizon') :
    P.Backed s (spent + cost) horizon' := by
  obtain ⟨rfl, -⟩ := charge_eq_some_iff.mp hcharge
  right
  rw [add_mul]
  obtain rfl | h := h
  · have := le_max_right horizon now
    omega
  · have := le_max_left horizon now
    omega

theorem Policy.Backed.le (h : P.Backed s spent horizon) (hst : s ≤ t)
    (hle : horizon ≤ t + P.burst * P.interval) : spent ≤ P.burst + (t - s) / P.interval := by
  obtain rfl | h := h
  · exact Nat.zero_le _
  have hspent : spent * P.interval ≤ (t - s) + P.burst * P.interval := by omega
  have := (Nat.le_div_iff_mul_le P.interval_pos).mpr hspent
  rw [Nat.add_mul_div_right _ _ P.interval_pos] at this
  omega

theorem mul_le_of_le_ceilDiv (hcount : 0 < count) (h : spent ≤ burst + t / (period ⌈/⌉ count)) :
    spent * period ≤ burst * period + count * t := by
  have hperiod : period ≤ count * (period ⌈/⌉ count) := le_smul_ceilDiv hcount
  have hdiv : t / (period ⌈/⌉ count) * period ≤ count * t :=
    calc t / (period ⌈/⌉ count) * period
      _ ≤ t / (period ⌈/⌉ count) * (count * (period ⌈/⌉ count)) := Nat.mul_le_mul_left _ hperiod
      _ = count * (t / (period ⌈/⌉ count) * (period ⌈/⌉ count)) := by ring
      _ ≤ count * t := Nat.mul_le_mul_left _ (Nat.div_mul_le_self _ _)
  calc spent * period
    _ ≤ (burst + t / (period ⌈/⌉ count)) * period := Nat.mul_le_mul_right _ h
    _ = burst * period + t / (period ⌈/⌉ count) * period := by ring
    _ ≤ burst * period + count * t := Nat.add_le_add_left hdiv _

end Nervix.Gcra
