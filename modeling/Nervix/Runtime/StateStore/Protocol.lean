import Nervix.Runtime.StateStore.Assignment

/-!
# Protocols behind an authority

What the code behind an authority keeps is shown once for each of its actions: an invariant of the
data, and what an action knows about the data at each of its operations.
-/

namespace Nervix.Assignment

open Call Request
open Multiset

inductive Mode
  | shared
  | alone
  | ended
  deriving DecidableEq, Repr

variable {δ α : Type*}

def Request.Asks (initial : Mode → α → Prop) : Request α → Prop
  | rebind .. => True
  | authorize _ _ a => initial .shared a
  | authorizeExclusive _ _ a => initial .alone a
  | serializeWith f => ∀ b, initial .alone (f b)

structure Protocol (A : Client δ α) where
  Inv : δ → Prop
  Initial : Mode → α → Prop
  Knows : Mode → δ → α → Prop
  request : A.request d r → r.Asks Initial
  begin : Inv d → Initial m a → Knows m d a
  step : m ≠ .ended → Inv d → Knows m d a → A.step d a d' a' → Inv d' ∧ Knows m d' a'
  others : m ≠ .ended → Inv d → Knows m d a → A.step d a d' a' →
    (m = .shared ∨ k ≠ .alone) → Knows k d b → Knows k d' b
  done : Inv d → Knows m d a → A.done a → Knows .ended d a
  after : Inv d → Knows .ended d a → A.after d a a' → Knows .ended d a'
  next : Inv d → Knows .ended d a → A.next a r → r.Asks Initial

namespace Protocol
variable {A : Client δ α} (P : Protocol A)

def CallKnows (d : δ) : Call α → Prop
  | requested r => r.Asks P.Initial
  | comparing _ _ a => P.Initial .shared a
  | excluding _ _ a => P.Initial .alone a
  | serializing f => ∀ b, P.Initial .alone (f b)
  | acting _ _ a => P.Knows .shared d a
  | actingAlone _ _ a | actingSerial _ a => P.Knows .alone d a
  | leaving _ a | unlocking a | returned a => P.Knows .ended d a
  | _ => True

variable {P} {d₀ d d' : δ} {a a' : α} {m : Mode} {c : Config (State δ) (Call α)}

theorem CallKnows.mono (hm : m ≠ .ended) (hinv : P.Inv d) (hknows : P.Knows m d a)
    (hs : A.step d a d' a') (hholds : m = .shared ∨ call.holds = 0) (h : P.CallKnows d call) :
    P.CallKnows d' call := by
  have hothers : ∀ k b, (m = .shared ∨ k ≠ .alone) → P.Knows k d b → P.Knows k d' b :=
    fun k b hk => P.others hm hinv hknows hs hk
  cases call with
  | acting => exact hothers _ _ (.inr nofun) h
  | actingAlone | actingSerial => exact hothers _ _ (.inl (hholds.resolve_right nofun)) h
  | leaving | unlocking | returned => exact hothers _ _ (.inr nofun) h
  | _ => exact h

theorem act
    (hr : (machine A).Reachable (init d₀) ⟨s, call ::ₘ cs⟩) (hm : m ≠ .ended) (hinv : P.Inv s.data)
    (hcalls : ∀ e ∈ call ::ₘ cs, P.CallKnows s.data e) (hknows : P.Knows m s.data a)
    (hs : A.step s.data a d' a') (hholds : m = .shared ∨ call.holds = 1)
    (hcall' : P.Knows m d' a' → P.CallKnows d' call') :
    P.Inv d' ∧ ∀ e ∈ {call'} + cs, P.CallKnows d' e := by
  obtain ⟨hinv', hknows'⟩ := P.step hm hinv hknows hs
  refine ⟨hinv', fun e he => ?_⟩
  rcases mem_cons.mp he with rfl | he
  · exact hcall' hknows'
  · refine CallKnows.mono hm hinv hknows hs ?_ (hcalls e (mem_cons_of_mem he))
    exact hholds.imp_right fun hone => holds_of_mem hr hone he

theorem keep (hcalls : ∀ e ∈ call ::ₘ cs, P.CallKnows d e)
    (hcall' : P.CallKnows d call → P.CallKnows d call') :
    ∀ e ∈ {call'} + cs, P.CallKnows d e := by
  intro e he
  rcases mem_cons.mp he with rfl | he
  · exact hcall' (hcalls call (mem_cons_self ..))
  · exact hcalls e (mem_cons_of_mem he)

theorem inv (h0 : P.Inv d₀) (h : (machine A).Reachable (init d₀) c) :
    P.Inv c.shared.data ∧ ∀ call ∈ c.calls, P.CallKnows c.shared.data call := by
  suffices (machine A).Reachable (init d₀) c ∧
    P.Inv c.shared.data ∧ ∀ call ∈ c.calls, P.CallKnows c.shared.data call from this.2
  refine h.inv ⟨.refl, h0, nofun⟩ (fun {s call cs} ih hs => ⟨ih.1.start hs, ih.2.1, ?_⟩)
    fun {s call s' next cs} ih hs => ⟨ih.1.step hs, ?_⟩
  · obtain ⟨r, hr, rfl⟩ := hs
    intro e he
    rcases mem_cons.mp he with rfl | he
    · exact P.request hr
    · exact ih.2.2 e he
  · obtain ⟨hr, hinv, hcalls⟩ := ih
    obtain ⟨call', hs, rfl⟩ := hs
    have hcall := hcalls call (mem_cons_self ..)
    cases hs with
    | act hs => exact act (m := .shared) hr nofun hinv hcalls hcall hs (.inl rfl) id
    | actAlone hs => exact act (m := .alone) hr nofun hinv hcalls hcall hs (.inr rfl) id
    | actSerial hs => exact act (m := .alone) hr nofun hinv hcalls hcall hs (.inr rfl) id
    | current | currentExclusive => exact ⟨hinv, keep hcalls (P.begin hinv)⟩
    | loadSerial => exact ⟨hinv, keep hcalls fun hf => P.begin hinv (hf _)⟩
    | finish hdone | finishAlone hdone | finishSerial hdone =>
      exact ⟨hinv, keep hcalls fun hknows => P.done hinv hknows hdone⟩
    | after hs => exact ⟨hinv, keep hcalls fun hknows => P.after hinv hknows hs⟩
    | next hs => exact ⟨hinv, keep hcalls fun hknows => P.next hinv hknows hs⟩
    | admits | lockExclusive | lockSerial | leave | unlock => exact ⟨hinv, keep hcalls id⟩
    | _ => exact ⟨hinv, keep hcalls fun _ => trivial⟩

def callWeight (w : α → Nat) : Call α → Nat
  | acting _ _ a | actingAlone _ _ a | actingSerial _ a | leaving _ a | unlocking a
  | returned a => w a
  | _ => 0

theorem weigh_le (P : Protocol A) (h0 : P.Inv d₀) (h : (machine A).Reachable (init d₀) c)
    (g : δ → Nat) (w : α → Nat) (hinitial : ∀ {m a}, P.Initial m a → w a = 0)
    (hstep : ∀ {m d a d' a'}, P.Inv d → P.Knows m d a → A.step d a d' a' → w a' + g d ≤ w a + g d')
    (hafter : ∀ {d a a'}, A.after d a a' → w a' = w a) :
    weigh (callWeight w) c.calls ≤ g c.shared.data := by
  have hle := h.weigh_le_inv (fun _ => 0) (fun s => g s.data) (callWeight w) (Nat.zero_le _)
    (fun {s call} hs => by obtain ⟨r, -, rfl⟩ := hs; rfl) fun {s call s' next cs} hr hs => ?_
  · simpa using hle
  obtain ⟨call', hs, rfl⟩ := hs
  obtain ⟨hinv, hcalls⟩ := P.inv h0 hr
  have hcall := hcalls call (mem_cons_self ..)
  rw [weigh_singleton, Nat.zero_add, Nat.zero_add]
  cases hs with
  | act hs | actAlone hs | actSerial hs => exact hstep hinv hcall hs
  | current | currentExclusive =>
    have hzero := hinitial hcall
    simp only [callWeight, hzero]
    exact Nat.le_refl _
  | loadSerial =>
    have hzero := hinitial (hcall s.binding)
    simp only [callWeight, hzero]
    exact Nat.le_refl _
  | after hs => exact (congrArg (· + g s.data) (hafter hs)).le
  | next => exact Nat.add_le_add_right (Nat.zero_le _) _
  | _ => exact Nat.le_refl _

end Protocol

end Nervix.Assignment
