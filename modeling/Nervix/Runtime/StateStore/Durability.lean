import Nervix.Theory.Interleaving

/-!
# The durability barrier

`DurabilityBarrier` shares one synchronization of the storage among the writers that wait for it. A
writer takes a ticket, and a *round* (`DurabilityRound`) claims the barrier, covers every ticket
issued before its flush starts, and records the outcome of the flush in the barrier.
-/

namespace Nervix.Durability

open Multiset

inductive FlushOutcome
  | success
  | failure
  | panic
  deriving DecidableEq, Repr

structure Barrier where
  issued : Nat := 0
  synchronized : Nat := 0
  failed : Bool := false
  running : Bool := false
  rounds : Nat := 0
  finished : Nat := 0
  deriving DecidableEq, Repr

namespace Barrier

section
variable (b : Barrier)

def issue : Nat × Barrier :=
  (b.issued + 1, { b with issued := b.issued + 1 })

def claim : Option Barrier :=
  if b.running then none else some { b with running := true }

def succeeded (covered : Nat) : Barrier :=
  { b with synchronized := max b.synchronized covered }

def fail : Barrier := { b with failed := true }

def free : Barrier := { b with running := false }

def notifyWaiters : Barrier := { b with finished := b.finished + 1 }

end

end Barrier

inductive Event
  | issue (ticket : Nat)
  | start (round : Nat)
  | finish (round : Nat) (outcome : FlushOutcome)
  deriving DecidableEq, Repr

def Event.isFailure : Event → Bool
  | .finish _ .failure | .finish _ .panic => true
  | _ => false

structure State where
  barrier : Barrier := {}
  claims : Nat := 0
  results : Nat → Option Bool := fun _ => none
  log : List Event := []

inductive Stage
  | queued
  | loaded (covered : Nat)
  | started (covered : Nat)
  | flushed (covered : Nat) (outcome : FlushOutcome)
  | recorded (ok : Bool)
  | freed (ok : Bool)
  | done
  deriving DecidableEq, Repr

inductive Call
  | issuing
  | enabling (ticket : Nat)
  | checkingSynchronized (ticket seen : Nat)
  | checkingFailed (ticket seen : Nat)
  | claiming (ticket seen : Nat)
  | waiting (ticket seen : Nat)
  | reserving (ticket round : Nat)
  | releasing (ticket : Nat)
  | waking (ticket : Nat)
  | awaiting (ticket round : Nat)
  | returned (ticket : Nat) (ok : Bool)
  | cancelled (ticket : Nat)
  | round (id : Nat) (stage : Stage)
  deriving DecidableEq, Repr

open Call Stage
open scoped List

inductive CallStep (s : State) : Call → State → Multiset Call → Prop
  | issue : CallStep s issuing
      { s with barrier := s.barrier.issue.2, log := s.log ++ [.issue s.barrier.issue.1] }
      {enabling s.barrier.issue.1}
  | enable : CallStep s (enabling t) s {checkingSynchronized t s.barrier.finished}
  | synchronized : t ≤ s.barrier.synchronized →
      CallStep s (checkingSynchronized t seen) s {returned t true}
  | unsynchronized : ¬ t ≤ s.barrier.synchronized →
      CallStep s (checkingSynchronized t seen) s {checkingFailed t seen}
  | refused : s.barrier.failed = true → CallStep s (checkingFailed t seen) s {returned t false}
  | unrefused : s.barrier.failed = false → CallStep s (checkingFailed t seen) s {claiming t seen}
  | claim : s.barrier.claim = some b → CallStep s (claiming t seen)
      { s with barrier := b, claims := s.claims + 1 } {reserving t s.claims}
  | busy : s.barrier.claim = none → CallStep s (claiming t seen) s {waiting t seen}
  | wake : seen < s.barrier.finished → CallStep s (waiting t seen) s {enabling t}
  | abandon : CallStep s (reserving t r) s {releasing t}
  | submit : CallStep s (reserving t r) s {awaiting t r, round r queued}
  | release : CallStep s (releasing t) { s with barrier := s.barrier.free } {waking t}
  | notify : CallStep s (waking t) { s with barrier := s.barrier.notifyWaiters } {returned t false}
  | notifyCancelled : CallStep s (waking t) { s with barrier := s.barrier.notifyWaiters }
      {cancelled t}
  | resume : s.results r = some true → CallStep s (awaiting t r) s {enabling t}
  | reject : s.results r = some false → CallStep s (awaiting t r) s {returned t false}
  | cancelEnabling : CallStep s (enabling t) s {cancelled t}
  | cancelWaiting : CallStep s (waiting t seen) s {cancelled t}
  | cancelAwaiting : CallStep s (awaiting t r) s {cancelled t}
  | drop : CallStep s (round r queued) s {round r (recorded false)}
  | load : CallStep s (round r queued) { s with log := s.log ++ [.start r] }
      {round r (loaded s.barrier.issued)}
  | count : CallStep s (round r (loaded covered))
      { s with barrier := { s.barrier with rounds := s.barrier.rounds + 1 } }
      {round r (started covered)}
  | flush (o : FlushOutcome) : CallStep s (round r (started covered))
      { s with log := s.log ++ [.finish r o] } {round r (flushed covered o)}
  | succeed : CallStep s (round r (flushed covered .success))
      { s with barrier := s.barrier.succeeded covered } {round r (recorded true)}
  | fail : o ≠ .success → CallStep s (round r (flushed covered o))
      { s with barrier := s.barrier.fail } {round r (recorded false)}
  | free : CallStep s (round r (recorded ok)) { s with barrier := s.barrier.free }
      {round r (freed ok)}
  | report : CallStep s (round r (freed ok))
      { s with barrier := s.barrier.notifyWaiters
               results := Function.update s.results r (some ok) } {round r done}

def machine : Machine State Call where
  start _ c := c = issuing
  step := CallStep

def init : Config State Call := ⟨{}, 0⟩

def Call.holds : Call → Nat
  | reserving .. | releasing _ => 1
  | round _ queued | round _ (loaded _) | round _ (started _) | round _ (flushed ..)
  | round _ (recorded _) => 1
  | _ => 0

theorem holds_eq_running (h : machine.Reachable init c) :
    weigh Call.holds c.calls = c.shared.barrier.running.toNat := by
  refine h.inv ?_ (fun ih hs => ?_) fun {s c s' next cs} ih hs => ?_
  · rfl
  · cases hs; simpa [Call.holds] using ih
  · have hle := Bool.toNat_le s.barrier.running
    cases hs with
    | claim hb =>
      simp only [Barrier.claim] at hb
      split at hb <;> simp_all [Call.holds]
      simp [← hb]
    | release | free =>
      simp only [weigh_cons, weigh_add, weigh_singleton, Call.holds, Barrier.free] at ih ⊢
      simp only [Bool.toNat_false]
      omega
    | _ => simp_all [Call.holds, Barrier.issue, Barrier.notifyWaiters, Barrier.succeeded,
        Barrier.fail]

def Durable (log : List Event) (ticket : Nat) : Prop :=
  ∃ r, [.issue ticket, .start r, .finish r .success] <+ log

def untilFailure (log : List Event) : List Event := log.takeWhile (! ·.isFailure)

theorem Durable.mono (h : Durable log t) (hl : log <+ log') : Durable log' t :=
  let ⟨r, hr⟩ := h
  ⟨r, hr.trans hl⟩

theorem untilFailure_append (log new : List Event) :
    untilFailure log <+ untilFailure (log ++ new) := by
  unfold untilFailure
  rw [List.takeWhile_append]
  split
  · rename_i h
    rw [( List.takeWhile_prefix _).eq_of_length h]
    exact List.sublist_append_left ..
  · exact .refl _

theorem untilFailure_eq_self (h : ∀ e ∈ log, e.isFailure = false) : untilFailure log = log := by
  rw [untilFailure, List.takeWhile_eq_self_iff]
  simpa using h

def Call.Knows (cut : List Event → List Event) (log : List Event) : Call → Prop
  | returned t true => Durable (cut log) t
  | enabling t | checkingSynchronized t _ | checkingFailed t _ | claiming t _ | waiting t _
  | reserving t _ | awaiting t _ => 0 < t
  | round r (loaded covered) | round r (started covered) =>
    ∀ t, 0 < t → t ≤ covered → [.issue t, .start r] <+ log
  | round _ (flushed covered .success) => ∀ t, 0 < t → t ≤ covered → Durable (cut log) t
  | _ => True

structure CoverInv (cut : List Event → List Event) (c : Config State Call) : Prop where
  issued : ∀ t, 0 < t → t ≤ c.shared.barrier.issued → .issue t ∈ c.shared.log
  synchronized : ∀ t, 0 < t → t ≤ c.shared.barrier.synchronized → Durable (cut c.shared.log) t
  calls : ∀ d ∈ c.calls, d.Knows cut c.shared.log

section
variable {cut : List Event → List Event}

theorem CoverInv.init (cut : List Event → List Event) : CoverInv cut init :=
  ⟨fun t h0 ht => absurd (Nat.lt_of_lt_of_le h0 ht) (by decide),
    fun t h0 ht => absurd (Nat.lt_of_lt_of_le h0 ht) (by decide), by simp [Durability.init]⟩

theorem CoverInv.begin (H : CoverInv cut ⟨s, cs⟩) (hs : machine.start s d) :
    CoverInv cut ⟨s, d ::ₘ cs⟩ where
  issued := H.issued
  synchronized := H.synchronized
  calls e he := by
    rcases mem_cons.mp he with rfl | he
    · cases hs; trivial
    · exact H.calls e he

theorem CoverInv.frame (H : CoverInv cut ⟨s, d ::ₘ cs⟩) (hlog : s'.log = s.log)
    (hissued : s'.barrier.issued = s.barrier.issued)
    (hsync : ∀ t, 0 < t → t ≤ s'.barrier.synchronized → Durable (cut s.log) t)
    (hnext : ∀ e ∈ next, e.Knows cut s.log) : CoverInv cut ⟨s', next + cs⟩ where
  issued t h0 ht := hlog ▸ H.issued t h0 (hissued ▸ ht)
  synchronized t h0 ht := hlog ▸ hsync t h0 ht
  calls e he := by
    rw [hlog]
    rcases mem_add.mp he with he | he
    · exact hnext e he
    · exact H.calls e (mem_cons_of_mem he)

variable (hcut : ∀ log new, cut log <+ cut (log ++ new))
include hcut

theorem Call.Knows.append {d : Call} (h : d.Knows cut log) : d.Knows cut (log ++ new) := by
  cases d with
  | returned t ok =>
    cases ok with
    | false => trivial
    | true => exact Durable.mono h (hcut ..)
  | round r stage =>
    cases stage with
    | loaded | started =>
      exact fun t h0 ht => (h t h0 ht).trans (List.sublist_append_left ..)
    | flushed covered o =>
      cases o with
      | success => exact fun t h0 ht => (h t h0 ht).mono (hcut ..)
      | _ => trivial
    | _ => trivial
  | _ => exact h

theorem CoverInv.extend {s s' : State} (H : CoverInv cut ⟨s, d ::ₘ cs⟩)
    (hlog : s'.log = s.log ++ new)
    (hissued : ∀ t, 0 < t → t ≤ s'.barrier.issued → t ≤ s.barrier.issued ∨ .issue t ∈ new)
    (hsync : s'.barrier.synchronized = s.barrier.synchronized)
    (hnext : ∀ e ∈ next, e.Knows cut s'.log) : CoverInv cut ⟨s', next + cs⟩ where
  issued t h0 ht := by
    rw [hlog]
    rcases hissued t h0 ht with ht | ht
    · exact List.mem_append_left _ (H.issued t h0 ht)
    · exact List.mem_append_right _ ht
  synchronized t h0 ht := by
    rw [hlog]
    exact (H.synchronized t h0 (hsync ▸ ht)).mono (hcut ..)
  calls e he := by
    rcases mem_add.mp he with he | he
    · exact hnext e he
    · exact hlog ▸ (H.calls e (mem_cons_of_mem he)).append hcut

theorem CoverInv.step (H : CoverInv cut ⟨s, d ::ₘ cs⟩) (hs : CallStep s d s' next)
    (hok : ∀ r, s'.log = s.log ++ [.finish r .success] → cut s'.log = s'.log) :
    CoverInv cut ⟨s', next + cs⟩ := by
  have hd := H.calls d (mem_cons_self ..)
  have hsync := H.synchronized
  cases hs with
  | issue =>
    refine H.extend hcut rfl (fun t h0 ht => ?_) rfl ?_
    · simp only [Barrier.issue] at ht ⊢
      by_cases h : t ≤ s.barrier.issued
      · exact .inl h
      · right; simp; omega
    · simp [Call.Knows, Barrier.issue]
  | load =>
    refine H.extend hcut rfl (fun t _ ht => .inl ht) rfl ?_
    simp only [mem_singleton, forall_eq, Call.Knows]
    intro t h0 ht
    exact (List.singleton_sublist.mpr (H.issued t h0 ht)).append (.refl _)
  | flush o =>
    refine H.extend hcut rfl (fun t _ ht => .inl ht) rfl ?_
    simp only [mem_singleton, forall_eq]
    cases o with
    | success =>
      intro t h0 ht
      rw [hok _ rfl]
      exact ⟨_, (hd t h0 ht).append (.refl _)⟩
    | _ => trivial
  | succeed =>
    refine H.frame rfl rfl (fun t h0 ht => ?_) (by simp [Call.Knows])
    rcases le_max_iff.mp ht with ht | ht
    · exact hsync t h0 ht
    · exact hd t h0 ht
  | synchronized ht =>
    exact H.frame rfl rfl hsync (by simpa [Call.Knows] using hsync _ hd ht)
  | claim hb =>
    simp only [Barrier.claim] at hb
    split at hb <;> simp only [reduceCtorEq, Option.some.injEq] at hb
    subst hb
    exact H.frame rfl rfl hsync (by simpa [Call.Knows] using hd)
  | _ => exact H.frame rfl rfl hsync (by simp_all [Call.Knows])

end

def Call.failing : Call → Nat
  | round _ (flushed _ .failure) | round _ (flushed _ .panic) => 1
  | _ => 0

theorem Call.failing_le_holds (d : Call) : d.failing ≤ d.holds := by
  unfold failing holds
  split <;> simp

theorem failed_of_failure (h : machine.Reachable init c) (he : e ∈ c.shared.log)
    (hf : e.isFailure = true) :
    c.shared.barrier.failed = true ∨ 0 < weigh Call.failing c.calls := by
  revert he
  refine h.inv ?_ (fun ih hs => ?_) fun {s c s' next cs} ih hs => ?_
  · simp [init]
  · cases hs; simpa [Call.failing] using ih
  · intro he
    cases hs with
    | issue | load =>
      rcases List.mem_append.mp he with he | he
      · simpa [Call.failing, Barrier.issue] using ih he
      · cases List.mem_singleton.mp he; cases hf
    | flush o =>
      rcases List.mem_append.mp he with he | he
      · have := ih he
        simp only [weigh_cons, weigh_add, weigh_singleton] at this ⊢
        exact this.imp_right fun hw => Nat.add_pos_right _ (by simpa [Call.failing] using hw)
      · cases List.mem_singleton.mp he
        cases o with
        | success => cases hf
        | _ =>
          right
          rw [weigh_add]
          exact Nat.add_pos_left Nat.one_pos _
    | claim hb =>
      simp only [Barrier.claim] at hb
      split at hb <;> simp only [reduceCtorEq, Option.some.injEq] at hb
      subst hb
      simpa [Call.failing] using ih he
    | fail => left; rfl
    | _ => simpa [Call.failing, Barrier.free, Barrier.notifyWaiters, Barrier.succeeded]
        using ih he

def AtMostOneRound (c : Config State Call) : Prop := weigh Call.holds c.calls ≤ 1

def OkIsCovered (c : Config State Call) : Prop :=
  ∀ t, returned t true ∈ c.calls → Durable c.shared.log t

def FailStop (c : Config State Call) : Prop :=
  ∀ t, returned t true ∈ c.calls → Durable (untilFailure c.shared.log) t

def SuccessOnlyBeforeFailure (s : State) (_ : Call) (s' : State) (_ : Multiset Call) : Prop :=
  ∀ r, s'.log = s.log ++ [.finish r .success] → s.barrier.failed = false

theorem atMostOneRound (h : machine.Reachable init c) : AtMostOneRound c := by
  rw [AtMostOneRound, holds_eq_running h]
  exact Bool.toNat_le _

theorem okIsCovered (h : machine.Reachable init c) : OkIsCovered c := by
  have H : CoverInv id c := by
    refine h.inv (.init _) (fun ih hs => ih.begin hs) fun ih hs => ?_
    exact ih.step (fun _ _ => List.sublist_append_left ..) hs fun _ _ => rfl
  exact fun t ht => H.calls _ ht

theorem no_failure_of_flush (h : machine.Reachable init ⟨s, d ::ₘ cs⟩) (hd : d.holds = 1)
    (hd' : d.failing = 0) (hf : s.barrier.failed = false) (he : e ∈ s.log) :
    e.isFailure = false := by
  by_contra hc
  have hone := atMostOneRound h
  have hle : weigh Call.failing cs ≤ weigh Call.holds cs :=
    weigh_le_weigh fun e _ => Call.failing_le_holds e
  rcases failed_of_failure h he (by simpa using hc) with h' | h'
  · simp [hf] at h'
  · simp only [AtMostOneRound, weigh_cons] at hone h'
    omega

theorem failStop (h : (machine.restrict SuccessOnlyBeforeFailure).Reachable init c) :
    FailStop c := by
  have H : machine.Reachable init c ∧ CoverInv untilFailure c := by
    refine h.inv ⟨.refl, .init _⟩ (fun ih hs => ⟨ih.1.start hs, ih.2.begin hs⟩) fun ih hs => ?_
    refine ⟨ih.1.step hs.1, ih.2.step untilFailure_append hs.1 fun r hr => ?_⟩
    have hfailed := hs.2 r hr
    refine untilFailure_eq_self fun e he => ?_
    rw [hr] at he
    rcases List.mem_append.mp he with he | he
    · cases hs.1 with
      | flush => exact no_failure_of_flush ih.1 rfl rfl hfailed he
      | issue | load => simp at hr
      | _ => simp at hr
    · cases List.mem_singleton.mp he; rfl
  exact fun t ht => H.2.calls _ ht

theorem one_writer_reachable :
    ∃ c, (machine.restrict SuccessOnlyBeforeFailure).Reachable init c ∧
      returned 1 true ∈ c.calls := by
  have free : ∀ {s d s' next}, s'.log = s.log ∨ s.barrier.failed = false →
      CallStep s d s' next → (machine.restrict SuccessOnlyBeforeFailure).step s d s' next :=
    fun h hs => ⟨hs, fun r hr => h.resolve_left fun h => by simp [h] at hr⟩
  have h : (machine.restrict SuccessOnlyBeforeFailure).Reachable init init := .refl
  have h := h.start (c := issuing) rfl
  have h := h.step₁ (free (.inr rfl) .issue)
  have h := h.step₁ (free (.inr rfl) .enable)
  have h := h.step₁ (free (.inr rfl) (.unsynchronized (by decide)))
  have h := h.step₁ (free (.inr rfl) (.unrefused rfl))
  have h := h.step₁ (free (.inr rfl) (.claim rfl))
  have h := (h.step₂ (free (.inr rfl) .submit)).perm (cons_swap ..)
  have h := h.step₁ (free (.inr rfl) .load)
  have h := h.step₁ (free (.inr rfl) .count)
  have h := h.step₁ (free (.inr rfl) (.flush .success))
  have h := h.step₁ (free (.inr rfl) .succeed)
  have h := h.step₁ (free (.inr rfl) .free)
  have h := (h.step₁ (free (.inr rfl) .report)).perm (cons_swap ..)
  have h := h.step₁ (free (.inr rfl) (.resume rfl))
  have h := h.step₁ (free (.inr rfl) .enable)
  have h := h.step₁ (free (.inr rfl) (.synchronized (by decide)))
  exact ⟨_, h, by simp [Barrier.issue]⟩

end Nervix.Durability
