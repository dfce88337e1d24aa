import Mathlib

/-!
# Checked computations

Computations that check conditions in order and stop at the first that fails. `x.Yields P` says that
`P` holds of the result if `x` comes to its end; the rules follow the shape of the computation.
-/

namespace Except

variable {ε ε' : Type*}

def ensure (p : Prop) [Decidable p] (error : ε) : Except ε Unit :=
  if p then .ok () else .error error

theorem ensure_eq_ok {p : Prop} [Decidable p] {error : ε} {u : Unit} :
    ensure p error = .ok u ↔ p := by
  unfold ensure
  split <;> simp [*]

theorem ensure_bind_eq_ok {p : Prop} [Decidable p] {error : ε} {β : Type} {f : Unit → Except ε β}
    {b : β} : (ensure p error >>= f) = .ok b ↔ p ∧ f () = .ok b := by
  unfold ensure
  split <;> simp [bind, Except.bind, *]

theorem mapError_eq_ok {α : Type*} {x : Except ε α} {f : ε → ε'} {a : α} :
    x.mapError f = .ok a ↔ x = .ok a := by
  cases x <;> simp [Except.mapError]

theorem bind_eq_ok {α β : Type u} {x : Except ε α} {f : α → Except ε β} {b : β} :
    (x >>= f) = .ok b ↔ ∃ a, x = .ok a ∧ f a = .ok b := by
  cases x <;> simp [bind, Except.bind]

theorem mapM_eq_ok {α β : Type*} {f : α → Except ε β} {l : List α} {bs : List β} :
    l.mapM f = .ok bs ↔ List.Forall₂ (fun a b => f a = .ok b) l bs := by
  induction l generalizing bs with
  | nil => simp [pure, Except.pure, eq_comm]
  | cons a l ih =>
    simp only [List.mapM_cons, bind_eq_ok, List.forall₂_cons_left_iff, ih, pure, Except.pure,
      Except.ok.injEq]
    constructor
    · rintro ⟨b, hb, bs', hbs, rfl⟩
      exact ⟨b, bs', hb, hbs, rfl⟩
    · rintro ⟨b, bs', hb, hbs, rfl⟩
      exact ⟨b, hb, bs', hbs, rfl⟩

def Yields {α : Type*} (x : Except ε α) (P : α → Prop) : Prop := ∀ a, x = .ok a → P a

namespace Yields

variable {α β : Type u} {x : Except ε α} {f : α → Except ε β} {P : α → Prop} {Q : β → Prop}

theorem ok (h : P a) : (Except.ok a : Except ε α).Yields P := by
  rintro _ ⟨⟩
  exact h

theorem pure (h : P a) : (Pure.pure a : Except ε α).Yields P := ok h

theorem error : (Except.error e : Except ε α).Yields P := nofun

theorem bind (h : ∀ a, x = .ok a → (f a).Yields Q) : (x >>= f).Yields Q := by
  cases x with
  | error e => exact error
  | ok a => exact h a rfl

theorem ensure_bind {β : Type} {Q : β → Prop} {p : Prop} [Decidable p] {e : ε}
    {g : Unit → Except ε β}
    (h : p → (g ()).Yields Q) : (Except.ensure p e >>= g).Yields Q :=
  bind fun _ ha => h (ensure_eq_ok.mp ha)

theorem mapError_bind {y : Except ε' α} {g : ε' → ε} (h : ∀ a, y = .ok a → (f a).Yields Q) :
    (y.mapError g >>= f).Yields Q :=
  bind fun a ha => h a (mapError_eq_ok.mp ha)

theorem forM {l : List α} {check : α → Except ε PUnit} :
    (l.forM check).Yields fun _ => ∀ a ∈ l, check a = .ok ⟨⟩ := by
  induction l with
  | nil => exact fun _ _ => nofun
  | cons a l ih =>
    refine bind (x := check a) (f := fun _ => l.forM check) fun _ ha u h b hb => ?_
    obtain rfl | hb := List.mem_cons.mp hb
    · exact ha
    · exact ih u h b hb

end Yields

end Except
