import Mathlib

/-!
# Halving a candidate

A candidate of some length is measured, and halved for as long as it measures too much. The
measure may keep a state of its own, and nothing is assumed about how it depends on the length.
-/

namespace Nervix

inductive Report (φ ω ε : Type*)
  | fits (result : φ)
  | exceeds (excess : ω)
  | failed (error : ε)

structure Narrowed (φ ω ε : Type*) where
  length : Nat
  pos : 0 < length
  report : Report φ ω ε
  measured : Nat

variable {σ φ ω ε : Type*}

def narrow (measure : σ → Nat → σ × Report φ ω ε) (s : σ) (length : Nat) (pos : 0 < length) :
    σ × Narrowed φ ω ε :=
  match measure s length with
  | (s, .fits result) => (s, ⟨length, pos, .fits result, 1⟩)
  | (s, .failed error) => (s, ⟨length, pos, .failed error, 1⟩)
  | (s, .exceeds excess) =>
    if length = 1 then (s, ⟨length, pos, .exceeds excess, 1⟩)
    else
      let (s, n) := narrow measure s ((length + 1) / 2) (by omega)
      (s, { n with measured := n.measured + 1 })
termination_by length

structure Narrowed.Of (measure : σ → Nat → σ × Report φ ω ε) (length : Nat)
    (n : Narrowed φ ω ε) : Prop where
  le : n.length ≤ length
  reported : ∃ s, (measure s n.length).2 = n.report
  exceeds {excess} : n.report = .exceeds excess → n.length = 1
  measured : n.measured ≤ Nat.clog 2 length + 1

theorem narrow_of (measure : σ → Nat → σ × Report φ ω ε) (s : σ) (length : Nat)
    (pos : 0 < length) : (narrow measure s length pos).2.Of measure length := by
  induction length using Nat.strongRecOn generalizing s with
  | ind length ih =>
    rw [narrow]
    split
    case h_1 s' result hm =>
      exact ⟨le_refl _, ⟨s, by rw [hm]⟩, nofun, Nat.le_add_left 1 _⟩
    case h_2 s' error hm =>
      exact ⟨le_refl _, ⟨s, by rw [hm]⟩, nofun, Nat.le_add_left 1 _⟩
    case h_3 s' excess hm =>
      split
      case isTrue hone =>
        exact ⟨le_refl _, ⟨s, by rw [hm]⟩, fun _ => hone, Nat.le_add_left 1 _⟩
      case isFalse hmany =>
        have hhalf := ih ((length + 1) / 2) (by omega) s' (by omega)
        have hclog : Nat.clog 2 length = Nat.clog 2 ((length + 1) / 2) + 1 :=
          Nat.clog_of_two_le Nat.one_lt_two (by omega)
        refine ⟨hhalf.le.trans (by omega), hhalf.reported, hhalf.exceeds, ?_⟩
        rw [hclog]
        exact Nat.succ_le_succ hhalf.measured

end Nervix
