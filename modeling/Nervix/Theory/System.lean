import Mathlib

/-!
# Runs of a deterministic system

A system moves from state to state by inputs, each of which it may meet only in some states. Its
runs take any inputs in any order; restricting it adds a condition to every step.
-/

namespace Nervix

structure System (σ ι : Type*) where
  guard : σ → ι → Prop
  next : σ → ι → σ

namespace System

variable {σ ι : Type*} {S : System σ ι} {s t u : σ}

inductive Run (S : System σ ι) (s : σ) : σ → Prop
  | refl : S.Run s s
  | tail {t i} : S.Run s t → S.guard t i → S.Run s (S.next t i)

def restrict (S : System σ ι) (ok : σ → ι → Prop) : System σ ι where
  guard s i := S.guard s i ∧ ok s i
  next := S.next

theorem Run.trans (h : S.Run s t) (h' : S.Run t u) : S.Run s u := by
  induction h' with
  | refl => exact h
  | tail _ hg ih => exact ih.tail hg

theorem Run.head (hg : S.guard s i) (h : S.Run (S.next s i) t) : S.Run s t :=
  (Run.refl.tail hg).trans h

theorem Run.foldl (l : List ι) (hg : ∀ i ∈ l, ∀ s, S.guard s i) (s : σ) :
    S.Run s (l.foldl S.next s) := by
  induction l generalizing s with
  | nil => exact .refl
  | cons i l ih =>
    exact .head (hg i List.mem_cons_self s)
      (ih (fun j hj => hg j (List.mem_cons_of_mem i hj)) (S.next s i))

def Allows (S : System σ ι) (s : σ) : List ι → Prop
  | [] => True
  | i :: l => S.guard s i ∧ S.Allows (S.next s i) l

instance Allows.decidable [∀ s i, Decidable (S.guard s i)] :
    ∀ (s : σ) (l : List ι), Decidable (S.Allows s l)
  | _, [] => .isTrue trivial
  | s, i :: l => @instDecidableAnd _ _ inferInstance (Allows.decidable (S.next s i) l)

theorem Run.of_allows : ∀ {l : List ι} {s : σ}, S.Allows s l → S.Run s (l.foldl S.next s)
  | [], _, _ => .refl
  | _ :: _, _, h => .head h.1 (of_allows h.2)

theorem Run.mono {S' : System σ ι} (h : S.Run s t) (hnext : S'.next = S.next)
    (hguard : ∀ {s i}, S.guard s i → S'.guard s i) : S'.Run s t := by
  induction h with
  | refl => exact .refl
  | tail _ hg ih =>
    rw [← hnext]
    exact ih.tail (hguard hg)

theorem Run.inv {P : σ → Prop} (h : S.Run s t) (h0 : P s)
    (hstep : ∀ {t i}, P t → S.guard t i → P (S.next t i)) : P t := by
  induction h with
  | refl => exact h0
  | tail _ hg ih => exact hstep ih hg

theorem Run.rel {P : σ → Prop} {R : σ → σ → Prop} (h : S.Run s t) (h0 : P s)
    (hinv : ∀ {t i}, P t → S.guard t i → P (S.next t i)) (hrefl : R s s)
    (hstep : ∀ {t i}, P t → R s t → S.guard t i → R s (S.next t i)) : R s t :=
  (h.inv (P := fun t => P t ∧ R s t) ⟨h0, hrefl⟩
    fun ht hg => ⟨hinv ht.1 hg, hstep ht.1 ht.2 hg⟩).2

end System

end Nervix
