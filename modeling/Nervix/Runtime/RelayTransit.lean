import Nervix.Theory.Interleaving

/-!
# The batches that a relay holds

A publisher counts its batch in before it offers it to the buffer of an owner task, and the task
counts it out once it has fanned it out. Any number of publishers, routed deliveries, owner tasks
and readers of the count run interleaved.
-/

namespace Nervix.RelayTransit

open Multiset

structure Relay (υ β : Type) where
  admitted : Nat := 0
  handedOn : Nat := 0
  ownerBuffers : υ → Option Nat := fun _ => none
  activated : Nat := 0
  buffered : List (Nat × β) := []
  registered : Nat → Bool := fun _ => false
  closed : Nat → Bool := fun _ => false
  dropped : Nat := 0

variable {υ β : Type} [DecidableEq υ]

open Relay

namespace Relay

variable (s : Relay υ β)

def admits : Relay υ β := { s with admitted := s.admitted + 1 }

def handOn : Relay υ β := { s with handedOn := s.handedOn + 1 }

def held : Nat := s.admitted - s.handedOn

def activateOwnerBuffer (unit : υ) : Relay υ β :=
  { s with
    ownerBuffers := Function.update s.ownerBuffers unit (some s.activated)
    registered := Function.update s.registered s.activated true
    activated := s.activated + 1 }

def deactivateOwnerBuffer (unit : υ) (buffer : Nat) : Relay υ β :=
  if s.ownerBuffers unit = some buffer then
    { s with ownerBuffers := Function.update s.ownerBuffers unit none }
  else s

def deliver (buffer : Nat) (batch : β) : Relay υ β :=
  if s.closed buffer then { s with dropped := s.dropped + 1 }
  else { s with buffered := s.buffered ++ [(buffer, batch)] }

theorem deactivateOwnerBuffer_eq (unit : υ) (buffer : Nat) :
    ∃ table, s.deactivateOwnerBuffer unit buffer = { s with ownerBuffers := table } := by
  unfold deactivateOwnerBuffer
  split
  · exact ⟨_, rfl⟩
  · exact ⟨s.ownerBuffers, rfl⟩

def isEmpty (buffer : Nat) : Prop := ∀ e ∈ s.buffered, e.1 ≠ buffer

def take (buffer : Nat) : Relay υ β :=
  { s with buffered := s.buffered.eraseP (·.1 = buffer) }

def deregister (buffer : Nat) : Relay υ β :=
  { s with registered := Function.update s.registered buffer false }

def close (buffer : Nat) : Relay υ β :=
  { s with closed := Function.update s.closed buffer true }

end Relay

inductive Call (υ β : Type)
  | enqueueOwnerBatch (unit : υ) (batch : β)
  | beginAdmission (buffer : Nat) (batch : β)
  | publish (buffer : Nat) (batch : β)
  | broadcast (buffer : Nat) (batch : β)
  | injectRemoteMessage
  | routed
  | spawn (unit : υ)
  | own (unit : υ) (buffer : Nat)
  | drain (unit : υ) (buffer : Nat)
  | fanout (unit : υ) (buffer : Nat) (ending : Bool)
  | deactivate (unit : υ) (buffer : Nat)
  | leave (buffer : Nat)
  | close (buffer : Nat)
  | held
  | heldAfter (handedOn : Nat)
  | read (held : Option Nat)
  | returned

open Call

namespace Call

def Begins : Call υ β → Prop
  | enqueueOwnerBatch .. | injectRemoteMessage | spawn _ | held => True
  | _ => False

def holds : Call υ β → Nat
  | publish .. | broadcast .. | routed | fanout .. => 1
  | _ => 0

def owns (b : Nat) : Call υ β → Nat
  | own _ buffer | drain _ buffer | fanout _ buffer _ | deactivate _ buffer | leave buffer =>
    if buffer = b then 1 else 0
  | _ => 0

def Ended : Call υ β → Prop
  | returned | held | heldAfter _ | read _ => True
  | _ => False

end Call

inductive CallStep (s : Relay υ β) : Call υ β → Relay υ β → Call υ β → Prop
  -- `enqueue_owner_batch`, whose future may be dropped while it waits for room
  | found {unit batch buffer} : s.ownerBuffers unit = some buffer →
      CallStep s (enqueueOwnerBatch unit batch) s (beginAdmission buffer batch)
  | unavailable {unit batch} : s.ownerBuffers unit = none →
      CallStep s (enqueueOwnerBatch unit batch) s returned
  | admits {buffer batch} : CallStep s (beginAdmission buffer batch) s.admits (publish buffer batch)
  | publication {buffer batch} : s.registered buffer = true →
      CallStep s (publish buffer batch) s (broadcast buffer batch)
  | noConsumer {buffer batch} : s.registered buffer = false →
      CallStep s (publish buffer batch) s.handOn returned
  | consumerLeft {buffer batch} : s.closed buffer = true →
      CallStep s (broadcast buffer batch) s.handOn returned
  | cancelled {buffer batch} : CallStep s (broadcast buffer batch) s.handOn returned
  | deliver {buffer batch} : CallStep s (broadcast buffer batch) (s.deliver buffer batch) returned
  -- `inject_remote_message`
  | routed : CallStep s injectRemoteMessage s.admits routed
  | reached : CallStep s Call.routed s.handOn returned
  -- the owner task, which ends by shutdown or a lost clock, or is aborted where it waits
  | spawn {unit} : CallStep s (spawn unit) (s.activateOwnerBuffer unit) (own unit s.activated)
  | recv {unit buffer} : ¬s.isEmpty buffer →
      CallStep s (own unit buffer) (s.take buffer) (fanout unit buffer false)
  | ending {unit buffer} : CallStep s (own unit buffer) s (drain unit buffer)
  | tryRecv {unit buffer} : ¬s.isEmpty buffer →
      CallStep s (drain unit buffer) (s.take buffer) (fanout unit buffer true)
  | empty {unit buffer} : s.isEmpty buffer →
      CallStep s (drain unit buffer) s (deactivate unit buffer)
  | handedOn {unit buffer ending} : CallStep s (fanout unit buffer ending) s.handOn
      (if ending then drain unit buffer else own unit buffer)
  | deactivate {unit buffer} : CallStep s (deactivate unit buffer)
      (s.deactivateOwnerBuffer unit buffer) (leave buffer)
  | abort {unit buffer} : CallStep s (own unit buffer) s (leave buffer)
  | abortDrain {unit buffer} : CallStep s (drain unit buffer) s (leave buffer)
  | abortFanout {unit buffer ending} :
      CallStep s (fanout unit buffer ending) s.handOn (leave buffer)
  | leave {buffer} : CallStep s (leave buffer) (s.deregister buffer) (close buffer)
  | close {buffer} : CallStep s (close buffer) (s.close buffer) returned
  -- `held` reads the handed-on total first
  | held : CallStep s held s (heldAfter s.handedOn)
  | heldAfter {handedOn} : CallStep s (heldAfter handedOn) s
      (read (if handedOn ≤ s.admitted then some (s.admitted - handedOn) else none))

def relay (υ β : Type) [DecidableEq υ] : Machine (Relay υ β) (Call υ β) where
  start _ call := call.Begins
  step s call s' next := ∃ call', CallStep s call s' call' ∧ next = {call'}

def Relay.new : Config (Relay υ β) (Call υ β) := ⟨{}, 0⟩

variable {c : Config (Relay υ β) (Call υ β)}

theorem Call.Begins.weights {call : Call υ β} (h : call.Begins) (b : Nat) :
    call.holds = 0 ∧ call.owns b = 0 := by
  cases call <;> first | exact ⟨rfl, rfl⟩ | exact h.elim

theorem Relay.length_take {s : Relay υ β} (h : ¬s.isEmpty buffer) :
    (s.take buffer).buffered.length + 1 = s.buffered.length := by
  simp only [isEmpty, ne_eq, not_forall, not_not] at h
  obtain ⟨e, he, hb⟩ := h
  have hlen := List.length_eraseP_of_mem (p := fun e => decide (e.1 = buffer)) he (by simpa using hb)
  have hpos := List.length_pos_of_mem he
  simp only [take]
  omega

theorem conserved (h : (relay υ β).Reachable Relay.new c) :
    c.shared.handedOn + c.shared.buffered.length + c.shared.dropped + weigh holds c.calls =
      c.shared.admitted := by
  refine h.weigh_inv (fun s => s.handedOn + s.buffered.length + s.dropped) (·.admitted) holds
    rfl (fun _ hb => (hb.weights 0).1) ?_
  rintro s call s' _ cs - - ⟨call', hs, rfl⟩
  rw [weigh_singleton]
  cases hs with
  | recv he | tryRecv he =>
    have := Relay.length_take he
    simp only [holds]
    simp only [Relay.take] at this ⊢
    omega
  | deliver =>
    unfold Relay.deliver
    split <;> simp [holds] <;> omega
  | handedOn =>
    split <;> simp [holds, Relay.handOn] <;> omega
  | @deactivate unit buffer =>
    obtain ⟨table, heq⟩ := s.deactivateOwnerBuffer_eq unit buffer
    simp only [heq, holds]
  | _ => simp [holds, Relay.admits, Relay.handOn, Relay.activateOwnerBuffer, Relay.deregister,
      Relay.close] <;> omega

theorem CallStep.shape {s s' : Relay υ β} {call call' : Call υ β} (h : CallStep s call s' call') :
    (∃ unit, call = .spawn unit ∧ s' = s.activateOwnerBuffer unit ∧ call' = .own unit s.activated) ∨
    (∃ buffer, call = .leave buffer ∧ s' = s.deregister buffer ∧ call' = .close buffer) ∨
    (s'.activated = s.activated ∧ s'.registered = s.registered ∧
      ∀ b, call'.owns b = call.owns b) := by
  cases h with
  | spawn => exact .inl ⟨_, rfl, rfl, rfl⟩
  | leave => exact .inr (.inl ⟨_, rfl, rfl, rfl⟩)
  | deliver =>
    unfold Relay.deliver
    split <;> exact .inr (.inr ⟨rfl, rfl, fun _ => rfl⟩)
  | handedOn => split <;> exact .inr (.inr ⟨rfl, rfl, fun _ => rfl⟩)
  | @deactivate unit buffer =>
    obtain ⟨table, heq⟩ := s.deactivateOwnerBuffer_eq unit buffer
    rw [heq]
    exact .inr (.inr ⟨rfl, rfl, fun _ => rfl⟩)
  | _ => exact .inr (.inr ⟨rfl, rfl, fun _ => rfl⟩)

theorem lt_activated (h : (relay υ β).Reachable new c) {b : Nat} :
    c.shared.registered b = true → b < c.shared.activated := by
  refine h.inv (P := fun c => c.shared.registered b = true → b < c.shared.activated) nofun
    (fun ih _ => ih) ?_
  rintro s call s' _ cs ih ⟨call', hs, rfl⟩ hb
  obtain ⟨unit, rfl, rfl, rfl⟩ | ⟨buffer, rfl, rfl, rfl⟩ | ⟨ha, hreg, -⟩ := hs.shape
  · by_cases hb' : b = s.activated
    · exact Nat.lt_succ_of_le (Nat.le_of_eq hb')
    · exact Nat.lt_succ_of_lt (ih ((Function.update_of_ne hb' _ _).symm.trans hb))
  · by_cases hb' : b = buffer
    · simp [deregister, hb'] at hb
    · exact ih ((Function.update_of_ne hb' _ _).symm.trans hb)
  · exact ha ▸ ih (hreg ▸ hb)

theorem owns_eq (h : (relay υ β).Reachable new c) (b : Nat) :
    weigh (owns b) c.calls = (c.shared.registered b).toNat := by
  have heq := h.weigh_inv (fun _ => 0) (fun s => (s.registered b).toNat) (owns b) rfl
    (fun _ hb => (hb.weights b).2) ?_
  · simpa using heq
  rintro s call s' _ cs hr hw ⟨call', hs, rfl⟩
  rw [weigh_singleton]
  obtain ⟨unit, rfl, rfl, rfl⟩ | ⟨buffer, rfl, rfl, rfl⟩ | ⟨-, hreg, hcall⟩ := hs.shape
  · by_cases hb : b = s.activated
    · have hfree : s.registered b = false := by
        by_contra hreg
        exact Nat.lt_irrefl b (hb ▸ lt_activated hr (b := b) (by simpa using hreg))
      simp [owns, activateOwnerBuffer, hb, hb ▸ hfree]
    · simp [owns, activateOwnerBuffer, hb, Ne.symm hb]
  · by_cases hb : b = buffer
    · subst hb
      cases hreg : s.registered b <;> simp [owns, deregister, hreg] at hw ⊢
    · simp [owns, deregister, hb, Ne.symm hb]
  · rw [hcall b, hreg]

def Reads (c : Config (Relay υ β) (Call υ β)) : Prop :=
  ∀ call ∈ c.calls, (∀ n, call = heldAfter n → n ≤ c.shared.handedOn) ∧ call ≠ read none

theorem CallStep.handedOn_le {s s' : Relay υ β} {call call' : Call υ β}
    (h : CallStep s call s' call') : s.handedOn ≤ s'.handedOn := by
  cases h with
  | deliver =>
    unfold Relay.deliver
    split <;> exact Nat.le_refl _
  | @deactivate unit buffer =>
    obtain ⟨table, heq⟩ := s.deactivateOwnerBuffer_eq unit buffer
    exact heq ▸ Nat.le_refl _
  | _ => first | exact Nat.le_refl _ | exact Nat.le_succ _

theorem reads (h : (relay υ β).Reachable new c) : Reads c := by
  suffices (relay υ β).Reachable new c ∧ Reads c from this.2
  refine h.inv ⟨.refl, by simp [Reads, new]⟩ (fun {s call cs} ih hb => ⟨ih.1.start hb, ?_⟩)
    fun {s call s' _ cs} ih hs => ⟨ih.1.step hs, ?_⟩
  · intro d hd
    rcases mem_cons.mp hd with rfl | hd
    · cases d <;> first | exact False.elim hb | exact ⟨nofun, nofun⟩
    · exact ih.2 d hd
  · obtain ⟨hr, hreads⟩ := ih
    obtain ⟨call', hs, rfl⟩ := hs
    intro d hd
    rcases mem_add.mp hd with hd | hd
    · cases mem_singleton.mp hd
      cases hs with
      | held => exact ⟨fun n hn => by cases hn; exact Nat.le_refl _, nofun⟩
      | @heldAfter n =>
        have hn := (hreads _ (mem_cons_self _ _)).1 n rfl
        have hc : s.handedOn ≤ s.admitted := by
          have := conserved hr
          dsimp only at this
          omega
        rw [if_pos (hn.trans hc)]
        exact ⟨nofun, nofun⟩
      | handedOn => split <;> exact ⟨nofun, nofun⟩
      | _ => exact ⟨nofun, nofun⟩
    · obtain ⟨hn, hnone⟩ := hreads d (mem_cons_of_mem hd)
      exact ⟨fun n heq => (hn n heq).trans hs.handedOn_le, hnone⟩

def Attended (s : Relay υ β) : Call υ β → Relay υ β → Multiset (Call υ β) → Prop
  | leave buffer, _, _ => s.isEmpty buffer
  | broadcast buffer _, s', _ =>
    (s.registered buffer = true ∧ s.closed buffer = false) ∨ s' = s.handOn
  | _, _, _ => True

structure Kept (s : Relay υ β) : Prop where
  attended : ∀ e ∈ s.buffered, s.registered e.1 = true
  dropped : s.dropped = 0

theorem Kept.step (hr : (relay υ β).Reachable new ⟨s, call ::ₘ cs⟩) (h : Kept s)
    (hs : CallStep s call s' call') (hok : Attended s call s' {call'}) : Kept s' := by
  cases hs with
  | spawn =>
    refine ⟨fun e he => ?_, h.dropped⟩
    have hreg := h.attended e he
    exact (Function.update_of_ne (Nat.ne_of_lt (lt_activated hr hreg)) _ _).trans hreg
  | leave =>
    exact ⟨fun e he => (Function.update_of_ne (hok e he) _ _).trans (h.attended e he), h.dropped⟩
  | deliver =>
    rcases hok with ⟨hreg, hopen⟩ | heq
    · rw [deliver, hopen]
      refine ⟨fun e he => ?_, h.dropped⟩
      rcases List.mem_append.mp he with he | he
      · exact h.attended e he
      · cases List.mem_singleton.mp he
        exact hreg
    · exact heq ▸ ⟨h.attended, h.dropped⟩
  | recv | tryRecv => exact ⟨fun e he => h.attended e (List.mem_of_mem_eraseP he), h.dropped⟩
  | @deactivate unit buffer =>
    obtain ⟨table, heq⟩ := s.deactivateOwnerBuffer_eq unit buffer
    exact heq ▸ ⟨h.attended, h.dropped⟩
  | _ => exact ⟨h.attended, h.dropped⟩

theorem kept (h : ((relay υ β).restrict Attended).Reachable new c) : Kept c.shared := by
  suffices (relay υ β).Reachable new c ∧ Kept c.shared from this.2
  refine h.inv ⟨.refl, nofun, rfl⟩ (fun ih hb => ⟨ih.1.start hb, ih.2⟩) ?_
  rintro s call s' _ cs ⟨hr, hk⟩ ⟨⟨call', hs, rfl⟩, hok⟩
  exact ⟨hr.step ⟨call', hs, rfl⟩, hk.step hr hs hok⟩

theorem held_covers_batches :
    (∀ c, (relay υ β).Reachable Relay.new c → read none ∉ c.calls ∧
      weigh holds c.calls + c.shared.buffered.length ≤ c.shared.held) ∧
    ∀ c, ((relay υ β).restrict Attended).Reachable Relay.new c → (∀ call ∈ c.calls, call.Ended) →
      c.shared.held = 0 := by
  constructor
  · intro c h
    have hc := conserved h
    refine ⟨fun hmem => (reads h _ hmem).2 rfl, ?_⟩
    rw [Relay.held]
    omega
  · intro c h hended
    have hr := h.of_restrict
    have hk := kept h
    have hzero : ∀ w : Call υ β → Nat, (∀ call, call.Ended → w call = 0) → weigh w c.calls = 0 :=
      fun w hw => weigh_eq_zero_iff.mpr fun call hc => hw call (hended call hc)
    have hholds := hzero holds fun call he => by cases call <;> first | rfl | exact he.elim
    have hempty : c.shared.buffered = [] := by
      refine List.eq_nil_iff_forall_not_mem.mpr fun e he => ?_
      have howns := hzero (owns e.1) fun call he => by cases call <;> first | rfl | exact he.elim
      rw [owns_eq hr, hk.attended e he] at howns
      cases howns
    have hc := conserved hr
    rw [hholds, hempty, hk.dropped] at hc
    simp only [List.length_nil, Nat.add_zero] at hc
    rw [Relay.held, hc, Nat.sub_self]

theorem ended_of_returned :
    ∀ call ∈ (returned ::ₘ returned ::ₘ 0 : Multiset (Call Unit Unit)), call.Ended := by
  intro call hc
  simp only [mem_cons, notMem_zero, or_false, or_self] at hc
  subst hc
  trivial

theorem aborted_owner_leaves_batch : ∃ c : Config (Relay Unit Unit) (Call Unit Unit),
    (relay Unit Unit).Reachable new c ∧ (∀ call ∈ c.calls, call.Ended) ∧
      c.shared.held = 1 := by
  have h : (relay Unit Unit).Reachable new new := .refl
  replace h := (h.start (c := spawn ()) trivial).step₁ ⟨_, .spawn, rfl⟩
  replace h := (h.start (c := enqueueOwnerBatch () ()) trivial).step₁ ⟨_, .found rfl, rfl⟩
  replace h := (h.step₁ ⟨_, .admits, rfl⟩).step₁ ⟨_, .publication rfl, rfl⟩
  replace h := (h.step₁ ⟨_, .deliver, rfl⟩).perm (cons_swap ..)
  replace h := (h.step₁ ⟨_, .abort, rfl⟩).step₁ ⟨_, .leave, rfl⟩
  replace h := h.step₁ ⟨_, .close, rfl⟩
  refine ⟨_, h, ended_of_returned, rfl⟩

theorem held_covers_batches_handed_on : ∃ c : Config (Relay Unit Unit) (Call Unit Unit),
    ((relay Unit Unit).restrict Attended).Reachable new c ∧ c.shared.admitted = 1 ∧
      c.shared.held = 0 := by
  have h : ((relay Unit Unit).restrict Attended).Reachable new new := .refl
  replace h := (h.start (c := spawn ()) trivial).step₁ ⟨⟨_, .spawn, rfl⟩, trivial⟩
  replace h := (h.start (c := enqueueOwnerBatch () ()) trivial).step₁
    ⟨⟨_, .found rfl, rfl⟩, trivial⟩
  replace h := (h.step₁ ⟨⟨_, .admits, rfl⟩, trivial⟩).step₁ ⟨⟨_, .publication rfl, rfl⟩, trivial⟩
  replace h := (h.step₁ ⟨⟨_, .deliver, rfl⟩, .inl ⟨rfl, rfl⟩⟩).perm (cons_swap ..)
  replace h := h.step₁ ⟨⟨_, .recv fun he => he (0, ()) (List.mem_singleton.mpr rfl) rfl, rfl⟩,
    trivial⟩
  replace h := (h.step₁ ⟨⟨_, .handedOn, rfl⟩, trivial⟩).step₁ ⟨⟨_, .ending, rfl⟩, trivial⟩
  replace h := (h.step₁ ⟨⟨_, .empty nofun, rfl⟩, trivial⟩).step₁ ⟨⟨_, .deactivate, rfl⟩, trivial⟩
  replace h := (h.step₁ ⟨⟨_, .leave, rfl⟩, nofun⟩).step₁ ⟨⟨_, .close, rfl⟩, trivial⟩
  refine ⟨_, h, rfl, held_covers_batches.2 _ h ended_of_returned⟩

end Nervix.RelayTransit
