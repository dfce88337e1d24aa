import Nervix.Runtime.RemoteAck.Positions

/-!
# Correlations resolve their own delivery, once

The slot and the history of every position agree in every run. With the life of an id this gives
what the registry promises: an id is issued once, one that was never issued or has ended names
nothing, a record that is stored is taken once, and after a shutdown nothing is left.
-/

namespace Nervix.RemoteAck

open Call
open CorrelationSlot (failSilentAcks rowEntries shutdown slot_shutdown sweepEntries sweepRow)
open Registry (Claimed claimed history_visit new occupancy slots_visit visit)

variable {α : Type} {capacity p id : Nat} {s s' : Registry α} {call call' : Call α}
  {c : Config (Registry α) (Call α)} {slot : CorrelationSlot α}

theorem Operation.agree_visit (op : Operation) (H : Agree capacity p slot history) :
    Agree capacity p (op.visit slot).slot (history ++ (op.visit slot).entries) := by
  cases op with
  | admitAck id => exact H.admitAck id
  | applyProgress id progress => exact H.applyProgress id progress
  | resolveAck id outcome => exact H.take id nofun
  | clearAck id => exact H.take id nofun
  | dropReceiver id => exact H.dropReceiver id

theorem agree_visit (H : ∀ p, Agree capacity p (s.slots p) (s.history p))
    (h : Agree capacity q slot (s.history q ++ entries)) :
    ∀ p, Agree capacity p ((s.visit q slot entries).slots p)
      ((s.visit q slot entries).history p) := by
  intro p
  by_cases hq : q = p
  · subst hq
    simpa using h
  · simpa [hq] using H p

theorem agree (hcap : 2 * capacity ≤ Ack.USIZE_MAX)
    (h : (registry α capacity).Reachable new c) :
    ∀ p, Agree capacity p (c.shared.slots p) (c.shared.history p) := by
  suffices (registry α capacity).Reachable new c ∧
    ∀ p, Agree capacity p (c.shared.slots p) (c.shared.history p) from this.2
  refine h.inv ⟨.refl, fun p => ⟨fun id => .fresh, nofun, nofun⟩⟩
    (fun ih hs => ⟨ih.1.start hs, ih.2⟩) fun {s call s' next cs} ih hs => ⟨ih.1.step hs, ?_⟩
  obtain ⟨hr, H⟩ := ih
  obtain ⟨call', hs, -⟩ := hs
  have hwf := wf_of_reachable hcap hr _ (Multiset.mem_cons_self ..)
  cases hs with
  | occupyExhausted hslot =>
    rename_i q _ _ _
    refine agree_visit H ((H q).visit (fun id => ?_) nofun nofun)
    have hlife := (H q).life id
    dsimp only at hlife
    rw [hslot] at hlife
    simpa [CorrelationSlot.live] using hlife
  | occupy hslot hroute =>
    rename_i q _ _ _
    have hclaims := claims_le hcap hr
    have hclaimed : s.Claimed capacity q := claimed_of_pos hcap hr (by
      simp only [weigh_cons, Call.holds, if_true]
      omega)
    have hq : q < 2 * capacity := by
      simp only [Claimed] at hclaimed hclaims
      omega
    have hq' := H q
    dsimp only at hq'
    rw [hslot] at hq'
    exact agree_visit H (hq'.register hq hroute hwf)
  | operate hv =>
    subst hv
    exact agree_visit H (Operation.agree_visit _ (H _))
  | sweep hv =>
    subst hv
    exact agree_visit H (H _).failSilentAcks
  | endPosition hv =>
    subst hv
    exact agree_visit H (H _).shutdown
  | pop | claim => cases ‹Registration α› <;> exact H
  | _ => exact H

theorem history_eq_nil (hcap : 2 * capacity ≤ Ack.USIZE_MAX)
    (h : (registry α capacity).Reachable new c) :
    ∀ p, ¬ c.shared.Claimed capacity p → c.shared.history p = [] := by
  suffices (registry α capacity).Reachable new c ∧
    ∀ p, ¬ c.shared.Claimed capacity p → c.shared.history p = [] from this.2
  refine h.inv ⟨.refl, fun _ _ => rfl⟩ (fun ih hs => ⟨ih.1.start hs, ih.2⟩)
    fun {s call s' next cs} ih hs => ⟨ih.1.step hs, fun p hp => ?_⟩
  obtain ⟨hr, ih⟩ := ih
  obtain ⟨call', hs, -⟩ := hs
  have hnot : ¬ s.Claimed capacity p := fun hclaimed => hp (hs.claimed hcap hclaimed)
  have hempty : (s.slots p).stored = 0 := by
    have hle : s.occupancy p + _ ≤ s.claimed capacity p := held_le hcap hr p
    simp only [claimed, if_neg hnot, occupancy] at hle
    omega
  have hslot : s.slots p = .closed ∨ ∃ g, s.slots p = .opened g none := by
    generalize s.slots p = slot at hempty ⊢
    rcases slot with ⟨g, _ | c⟩ | _
    · exact .inr ⟨g, rfl⟩
    · cases hempty
    · exact .inl rfl
  have hheld : ∀ registration, call ≠ .occupy registration p := by
    rintro registration rfl
    refine hnot (claimed_of_pos hcap hr ?_)
    simp only [weigh_cons, Call.holds, if_true]
    omega
  have hvisit : ∀ q slot' entries, (q = p → entries = []) →
      (s.visit q slot' entries).history p = [] := by
    intro q slot' entries hentries
    by_cases hq : q = p
    · simpa [hq, hentries hq] using ih p hnot
    · simpa [hq] using ih p hnot
  cases hs with
  | occupyExhausted | occupy =>
    refine hvisit _ _ _ fun hq => ?_
    subst hq
    exact absurd rfl (hheld _)
  | operate hv =>
    rename_i v op
    subst hv
    refine hvisit _ _ _ fun hq => ?_
    rw [hq]
    rcases hslot with hslot | ⟨g, hslot⟩ <;> rw [hslot] <;> cases op <;> rfl
  | sweep hv =>
    subst hv
    refine hvisit _ _ _ fun hq => ?_
    subst hq
    rcases hslot with hslot | ⟨g, hslot⟩ <;> rw [hslot] <;> rfl
  | endPosition hv =>
    subst hv
    refine hvisit _ _ _ fun hq => ?_
    subst hq
    rcases hslot with hslot | ⟨g, hslot⟩ <;> rw [hslot] <;> rfl
  | pop | claim => cases ‹Registration α› <;> exact ih p hnot
  | _ => exact ih p hnot

theorem CallStep.slots_closed (hs : CallStep capacity s call s' call') (h : s.slots p = .closed) :
    s'.slots p = .closed := by
  have hvisit : ∀ q slot' entries, (q = p → slot' = .closed) →
      (s.visit q slot' entries).slots p = .closed := by
    intro q slot' entries hslot
    rw [slots_visit]
    split
    · exact hslot ‹_›
    · exact h
  cases hs with
  | occupyExhausted hslot | occupy hslot =>
    refine hvisit _ _ _ fun hq => ?_
    cases hslot.symm.trans (hq ▸ h)
  | operate hv =>
    rename_i v op
    subst hv
    refine hvisit _ _ _ fun hq => ?_
    rw [hq, h]
    cases op <;> rfl
  | sweep hv =>
    subst hv
    refine hvisit _ _ _ fun hq => ?_
    rw [hq, h]
    rfl
  | endPosition hv =>
    subst hv
    exact hvisit _ _ _ fun _ => slot_shutdown _
  | pop | claim => cases ‹Registration α› <;> exact h
  | _ => exact h

def Call.Knows (capacity : Nat) (s : Registry α) : Call α → Prop
  | closeAdmissions deliveries =>
    CLAIMS_CLOSED ≤ s.nextDelivery ∧ deliveries = firstClaims s.nextDelivery
  | closeDeliveryQueue deliveries admissions | closeAdmissionQueue deliveries admissions =>
    (CLAIMS_CLOSED ≤ s.nextDelivery ∧ deliveries = firstClaims s.nextDelivery) ∧
      CLAIMS_CLOSED ≤ s.nextAdmission ∧ admissions = firstClaims s.nextAdmission
  | endPositions positions => (CLAIMS_CLOSED ≤ s.nextDelivery ∧ CLAIMS_CLOSED ≤ s.nextAdmission) ∧
      ∀ p, s.Claimed capacity p → p ∉ positions → s.slots p = .closed
  | recycle _ after => after.Knows capacity s
  | _ => True

section
variable (hcap : 2 * capacity ≤ Ack.USIZE_MAX)
include hcap

theorem CallStep.words (hs : CallStep capacity s call s' call') :
    (CLAIMS_CLOSED ≤ s.nextDelivery → s'.nextDelivery = s.nextDelivery) ∧
      (CLAIMS_CLOSED ≤ s.nextAdmission → s'.nextAdmission = s.nextAdmission) := by
  rcases hs.claims with ⟨-, -, hwords⟩ | ⟨registration, p, hlt, hnext, rfl⟩
  · exact hwords
  · have hsmall : p < CLAIMS_CLOSED := by
      simp only [Ack.USIZE_MAX, CLAIMS_CLOSED] at hcap ⊢
      omega
    cases registration with
    | records =>
      have hword : s.nextDelivery = p := hnext
      exact ⟨fun hle => by omega, fun _ => rfl⟩
    | admission =>
      have hword : s.nextAdmission = p := hnext
      exact ⟨fun _ => rfl, fun hle => by omega⟩

theorem Call.Knows.mono (hs : CallStep capacity s call s' call') :
    ∀ {d : Call α}, d.Knows capacity s → d.Knows capacity s'
  | closeAdmissions _, h => by
    obtain ⟨hclosed, hd⟩ := h
    have hword := (hs.words hcap).1 hclosed
    exact ⟨hword ▸ hclosed, hword ▸ hd⟩
  | closeDeliveryQueue _ _, h | closeAdmissionQueue _ _, h => by
    obtain ⟨⟨hclosed, hd⟩, hclosed', ha⟩ := h
    have hword := (hs.words hcap).1 hclosed
    have hword' := (hs.words hcap).2 hclosed'
    exact ⟨⟨hword ▸ hclosed, hword ▸ hd⟩, hword' ▸ hclosed', hword' ▸ ha⟩
  | endPositions _, h => by
    obtain ⟨⟨hclosed, hclosed'⟩, hslots⟩ := h
    have hword := (hs.words hcap).1 hclosed
    have hword' := (hs.words hcap).2 hclosed'
    refine ⟨⟨hword ▸ hclosed, hword' ▸ hclosed'⟩, fun p hp hnot => ?_⟩
    refine hs.slots_closed (hslots p ?_ hnot)
    simpa [Claimed, hword, hword'] using hp
  | recycle _ after, h => Call.Knows.mono hs (d := after) h
  | storeAcks .., _ | registerAdmission, _ | pop _, _ | claimLoad _, _ | claimCas .., _
  | occupy .., _ | stored _, _ | admission _, _ | cancelled, _ | refused _, _ | operate _, _
  | returned _, _ | sweepDeliveries, _ | sweepAdmissions _, _ | sweep .., _ | closeDeliveries, _
  | panicked, _ => trivial

theorem knows (h : (registry α capacity).Reachable new c) :
    ∀ call ∈ c.calls, call.Knows capacity c.shared := by
  refine h.inv nofun (fun {s call cs} ih hs => ?_) fun {s call s' next cs} ih hs => ?_
  · intro d hd
    rcases Multiset.mem_cons.mp hd with rfl | hd
    · cases d <;> trivial
    · exact ih d hd
  · obtain ⟨call', hs, rfl⟩ := hs
    intro d hd
    rcases Multiset.mem_cons.mp hd with rfl | hd
    · have hcall : call.Knows capacity s := ih _ (Multiset.mem_cons_self ..)
      have hmono := Call.Knows.mono hcap hs hcall
      have hvisit : ∀ (s : Registry α) (q : Nat) (freed : Bool) (after : Call α),
          after.Knows capacity s → (after.afterVisit q freed).Knows capacity s := by
        intro s q freed after hafter
        cases freed <;> exact hafter
      cases hs with
      | operate | sweep => exact hvisit _ _ _ _ trivial
      | occupy => cases ‹Registration α› <;> trivial
      | recycleDelivery | recycleAdmission | recycleClosed => exact hmono
      | closeDeliveries => exact ⟨le_closeClaims _, (firstClaims_closeClaims _).symm⟩
      | closeAdmissions => exact ⟨hcall, le_closeClaims _, (firstClaims_closeClaims _).symm⟩
      | closeDeliveryQueue => exact hcall
      | closeAdmissionQueue =>
        obtain ⟨⟨hdeliveries, rfl⟩, hadmissions, rfl⟩ := hcall
        exact ⟨⟨hdeliveries, hadmissions⟩, fun p hp hnot => absurd (mem_claimedPositions.mpr hp) hnot⟩
      | endPosition hv =>
        rename_i q v positions
        refine ⟨hmono.1, fun p hp hnot => ?_⟩
        by_cases hq : q = p
        · rw [slots_visit, if_pos hq, ← hv, slot_shutdown]
        · exact hmono.2 p hp (by simp [Ne.symm hq, hnot])
      | _ => trivial
    · exact Call.Knows.mono hcap hs (ih d (Multiset.mem_cons_of_mem hd))

end

def Call.received (id : Nat) : Call α → Nat
  | stored registrations => registrations.count (some id)
  | admission id' => if id' = id then 1 else 0
  | recycle _ after => after.received id
  | _ => 0

theorem count_rowIds (base id : Nat) (acks : List (Option β)) :
    (rowIds base acks).count (some id) = (rowAt base acks id).isSome.toNat := by
  induction acks generalizing base with
  | nil => simp [rowIds, rowAt]
  | cons a acks ih =>
    rw [rowIds, List.count_cons, ih, rowAt_cons]
    by_cases hid : base = id
    · have hlater : rowAt (base + 1) acks id = none := if_neg (by omega)
      cases a <;> simp [hid ▸ hlater, hid]
    · cases a <;> simp [hid]

theorem Registration.received_ok {registration : Registration α} (hfits : registration.Fits)
    (r id : Nat) : (registration.ok r).received id =
      if r = id / ROW_POSITIONS ∧ registration.issues (id % ROW_POSITIONS) then 1 else 0 := by
  cases registration with
  | records receiver acks =>
    simp only [Registration.ok, Call.received, count_rowIds, rowAt_route hfits.1,
      Registration.issues]
    by_cases hroute : r = id / ROW_POSITIONS
    · simp only [hroute, if_true, true_and]
      cases acks[id % ROW_POSITIONS]?.join <;> simp
    · simp [hroute]
  | admission =>
    have hid : r * ROW_POSITIONS = id ↔ r = id / ROW_POSITIONS ∧ id % ROW_POSITIONS = 0 := by
      simp only [ROW_POSITIONS]
      omega
    simp [Registration.ok, Call.received, Registration.issues, hid]

theorem Operation.about_visit (op : Operation) (slot : CorrelationSlot α) :
    About op.id (op.visit slot).entries := by
  have hnil : ∀ id, About id ([] : List (Entry α)) := nofun
  have hevent : ∀ id e, About id ([.event id e] : List (Entry α)) :=
    fun id e x hx => .inl ⟨e, List.mem_singleton.mp hx⟩
  have hended : ∀ id cause r, About id ([.ended id cause r] : List (Entry α)) :=
    fun id cause r x hx => .inr ⟨cause, r, List.mem_singleton.mp hx⟩
  have htake : ∀ id ending, About id (slot.take id ending).entries := by
    intro id ending
    unfold CorrelationSlot.take
    repeat' split
    all_goals first | exact hended _ _ _ | exact hnil _
  cases op with
  | admitAck id =>
    simp only [Operation.visit, Operation.id, CorrelationSlot.admitAck]
    repeat' split
    all_goals first | exact hevent _ _ | exact hnil _
  | applyProgress id progress =>
    simp only [Operation.visit, Operation.id, CorrelationSlot.applyProgress]
    repeat' split
    all_goals first | exact hevent _ _ | exact hended _ _ _ | exact hnil _
  | resolveAck id outcome => exact htake _ _
  | clearAck id => exact htake _ _
  | dropReceiver id =>
    simp only [Operation.visit, Operation.id, CorrelationSlot.dropReceiver]
    repeat' split
    all_goals exact hnil _

theorem not_registered_failSilentAcks (slot : CorrelationSlot α) (r : Nat)
    (registration : Registration α) : .registered r registration ∉ slot.failSilentAcks.entries := by
  unfold failSilentAcks
  split
  · split
    · exact not_registered_mem_rowEntries about_sweepEntries r registration
    · split <;> simp
  · simp

theorem not_registered_shutdown (slot : CorrelationSlot α) (r : Nat)
    (registration : Registration α) : .registered r registration ∉ slot.shutdown.entries := by
  unfold shutdown
  split
  · exact not_registered_mem_rowEntries about_shutdownEntries r registration
  · simp
  · simp

theorem received_eq (hcap : 2 * capacity ≤ Ack.USIZE_MAX)
    (h : (registry α capacity).Reachable new c) (id : Nat) :
    weigh (Call.received id) c.calls =
      (issued (c.shared.history (position capacity id)) id).length := by
  have hweigh := h.weigh_inv (fun _ => 0)
    (fun s => (issued (s.history (position capacity id)) id).length) (Call.received id) rfl
    (fun {s call cs} _ hs => by cases call <;> first | rfl | exact hs.elim)
    fun {s call s' next cs} hr _ hs => ?_
  · rw [← hweigh, Nat.zero_add]
  obtain ⟨call', hs, rfl⟩ := hs
  have hwf := wf_of_reachable hcap hr _ (Multiset.mem_cons_self ..)
  rw [weigh_singleton, Nat.zero_add, Nat.zero_add]
  have hvisit : ∀ (q : Nat) (slot : CorrelationSlot α) (entries : List (Entry α)),
      (∀ r registration, .registered r registration ∉ entries) →
      issued ((s.visit q slot entries).history (position capacity id)) id =
        issued (s.history (position capacity id)) id := by
    intro q slot entries hentries
    rw [history_visit]
    split
    · exact issued_append hentries
    · rfl
  have hafter : ∀ (q : Nat) (freed : Bool) (after : Call α), after.received id = 0 →
      (after.afterVisit q freed).received id = 0 := by
    intro q freed after hafter
    cases freed <;> exact hafter
  cases hs with
  | storeNothing =>
    have hcount : ∀ acks : List (Option α), (acks.map fun _ => none).count (some id) = 0 :=
      fun acks => List.count_eq_zero.mpr (by simp)
    simp only [Call.received, hcount]
  | occupyExhausted =>
    rw [hvisit _ _ _ (by simp)]
    rfl
  | occupy hslot hroute =>
    rename_i q g r registration _
    have hq : r % (2 * capacity) = q := by
      have hagree := agree hcap (hr.step ⟨_, .occupy hslot hroute, rfl⟩) q
      exact (hagree.routes r registration (by simp)).1
    have hissued : issued ((s.visit q (.opened (g + 1) (some ⟨r, registration.state⟩))
          [.registered r registration]).history (position capacity id)) id =
        issued (s.history (position capacity id)) id ++
          if r = id / ROW_POSITIONS ∧ registration.issues (id % ROW_POSITIONS) then [registration]
          else [] := by
      rw [history_visit]
      by_cases hposition : q = position capacity id
      · rw [if_pos hposition, issued_append_registered]
      · have hroute' : r ≠ id / ROW_POSITIONS := by
          rintro rfl
          exact hposition hq.symm
        simp [hposition, hroute']
    rw [Registration.received_ok hwf, hissued, List.length_append]
    split <;> simp [Call.received, Nat.add_comm]
  | operate hv =>
    subst hv
    rw [hvisit _ _ _ (Operation.about_visit _ _).not_registered, hafter _ _ _ rfl]
    rfl
  | sweep hv =>
    subst hv
    rw [hvisit _ _ _ (not_registered_failSilentAcks _), hafter _ _ _ rfl]
    rfl
  | endPosition hv =>
    subst hv
    rw [hvisit _ _ _ (not_registered_shutdown _)]
    rfl
  | pop | claim => cases ‹Registration α› <;> rfl
  | recycleFull hpush => exact absurd hpush (not_full hcap hr)
  | _ => rfl

theorem Operation.visit_eq_self (op : Operation) (h : slot.live op.id = none) :
    op.visit slot = { slot } := by
  have htake : ∀ id ending, slot.live id = none → slot.take id ending = { slot } := by
    intro id ending hlive
    unfold CorrelationSlot.take
    split
    · rename_i g c
      simp only [CorrelationSlot.live, RemoteCorrelation.live] at hlive
      split
      · split
        · simp_all
        · simp_all
      · rfl
    · rfl
  cases op with
  | admitAck id =>
    simp only [Operation.visit, CorrelationSlot.admitAck]
    split
    · rename_i g c
      have hrecord : c.record id = none := by
        simp only [CorrelationSlot.live, RemoteCorrelation.live, Operation.id] at h
        unfold RemoteCorrelation.record
        split
        · split <;> simp_all
        · rfl
      rw [hrecord]
    · rfl
  | applyProgress id progress =>
    simp only [Operation.visit, CorrelationSlot.applyProgress]
    split
    · rename_i g c
      simp only [CorrelationSlot.live, RemoteCorrelation.live, Operation.id] at h
      split
      · split
        · simp_all [RemoteCorrelation.record]
        · have hrow : id % ROW_POSITIONS ≠ 0 := by
            intro hrow
            simp_all
          rw [if_neg hrow]
      · rfl
    · rfl
  | resolveAck id outcome => exact htake _ _ h
  | clearAck id => exact htake _ _ h
  | dropReceiver id =>
    simp only [Operation.visit, CorrelationSlot.dropReceiver]
    split
    · rename_i g r sender
      have hid : r * ROW_POSITIONS ≠ id := by
        rintro rfl
        simp [CorrelationSlot.live, RemoteCorrelation.live, Operation.id, ROW_POSITIONS] at h
      rw [if_neg hid]
    · rfl

theorem Registry.visit_self (s : Registry α) (p : Nat) : s.visit p (s.slots p) [] = s := by
  simp [visit]

def Registry.historyOf (capacity : Nat) (s : Registry α) (id : Nat) : List (Entry α) :=
  s.history (position capacity id)

structure Correlates (expires : List Event → Prop) (capacity : Nat)
    (c : Config (Registry α) (Call α)) : Prop where
  distinct : ∀ id, weigh (Call.received id) c.calls ≤ 1
  stale : ∀ (op : Operation) s' call', CallStep capacity c.shared (operate op) s' call' →
    weigh (Call.received op.id) c.calls = 0 ∨ ends (c.shared.historyOf capacity op.id) op.id ≠ [] →
      s' = c.shared ∧ call' = returned false
  takenOnce : ∀ id, weigh (Call.received id) c.calls = 1 →
    (ends (c.shared.historyOf capacity id) id).length +
      ((c.shared.slots (position capacity id)).live id).isSome.toNat = 1
  own : ∀ id cause r, (cause, some r) ∈ ends (c.shared.historyOf capacity id) id →
    ∃ receiver acks a ending, issued (c.shared.historyOf capacity id) id = [.records receiver acks] ∧
      acks[id % ROW_POSITIONS]?.join = some a ∧ cause = .ending ending ∧
      r = (PendingRemoteAck.new receiver a).after (events (c.shared.historyOf capacity id) id)
  expired : ∀ id r, (.ending .expire, r) ∈ ends (c.shared.historyOf capacity id) id →
    expires (events (c.shared.historyOf capacity id) id)
  held : ∀ p, c.shared.occupancy p + weigh (Call.holds p) c.calls ≤ 1
  noPanic : panicked ∉ c.calls
  shutdown : endPositions [] ∈ c.calls → ∀ id, weigh (Call.received id) c.calls ≠ 0 →
    ends (c.shared.historyOf capacity id) id ≠ []

theorem remote_correlations_resolve_once (hcap : 2 * capacity ≤ Ack.USIZE_MAX)
    (h : (registry α capacity).Reachable new c) : Correlates Expires capacity c := by
  have hreceived := received_eq hcap h
  have hlife : ∀ id, Life id ((c.shared.slots (position capacity id)).live id)
      (issued (c.shared.historyOf capacity id) id) (events (c.shared.historyOf capacity id) id)
      (ends (c.shared.historyOf capacity id) id) := fun id => (agree hcap h _).life id
  refine ⟨fun id => ?_, fun op s' call' hs hop => ?_, fun id hid => ?_, fun id cause r hr => ?_,
    fun id r hr => ?_, held_le_one hcap h, fun hpanic => wf_of_reachable hcap h _ hpanic,
    fun hdone id hid hends => ?_⟩
  · rw [hreceived]
    exact (hlife id).length_le
  · rw [hreceived] at hop
    cases hs with
    | operate hv =>
      rw [op.visit_eq_self ((hlife op.id).live_eq_none hop)] at hv
      subst hv
      exact ⟨c.shared.visit_self _, rfl⟩
  · rw [hreceived] at hid
    exact (hlife id).length_add hid
  · exact (hlife id).own hr
  · exact (hlife id).expired hr
  · have hlength : (issued (c.shared.historyOf capacity id) id).length = 1 := by
      have hle := (hlife id).length_le
      rw [hreceived] at hid
      exact Nat.le_antisymm hle (Nat.pos_of_ne_zero hid)
    have hsum := (hlife id).length_add hlength
    have hclosed : c.shared.slots (position capacity id) = .closed := by
      refine (knows hcap h _ hdone).2 _ ?_ List.not_mem_nil
      by_contra hclaimed
      simp [Registry.historyOf, history_eq_nil hcap h _ hclaimed, issued] at hlength
    simp [hends, hclosed, CorrelationSlot.live] at hsum

theorem remote_correlations_resolve_once_admission :
    ∃ c : Config (Registry Unit) (Call Unit), (registry Unit 1).Reachable new c ∧
      endPositions [] ∈ c.calls ∧ weigh (Call.received (3 * ROW_POSITIONS)) c.calls = 1 ∧
        Correlates Expires 1 c := by
  have hr : (registry Unit 1).Reachable new ⟨{}, 0⟩ := .refl
  have hr := hr.start (c := registerAdmission) trivial
  have hr := hr.step₁ ⟨_, .registerAdmission, rfl⟩
  have hr := hr.step₁ ⟨_, .popEmpty rfl, rfl⟩
  have hr := hr.step₁ ⟨_, .claimLoad, rfl⟩
  have hr := hr.step₁ ⟨_, .claim (Nat.zero_lt_one) rfl, rfl⟩
  have hr := hr.step₁ ⟨_, .occupy (r := 3) rfl rfl, rfl⟩
  have hr := hr.start (c := closeDeliveries) trivial
  have hr := hr.step₁ ⟨_, .closeDeliveries, rfl⟩
  have hr := hr.step₁ ⟨_, .closeAdmissions, rfl⟩
  have hr := hr.step₁ ⟨_, .closeDeliveryQueue, rfl⟩
  have hr := hr.step₁ ⟨_, .closeAdmissionQueue, rfl⟩
  have hr := hr.step₁ (d := endPositions []) ⟨_, .endPosition (p := 1) rfl, rfl⟩
  exact ⟨_, hr, by simp, rfl, remote_correlations_resolve_once (by decide) hr⟩

def SilentlyExpires (es : List Event) : Prop :=
  (if .admits ∈ es then REMOTE_ACK_SILENT_SWEEPS else ADMISSION_SWEEPS) < silentSweeps es

structure Reporting (n : Nat) (s : Registry Unit) : Prop where
  slot : ∃ r : PendingRemoteAck Unit, r.phase = .awaitingAdmission n ∧
    s.slots 0 = .opened 1 (some ⟨2, .records ⟨[some r], 1⟩⟩)
  words : s.nextDelivery = 1 ∧ s.nextAdmission = 0
  notAdmitted : .admits ∉ events (s.history 0) (2 * ROW_POSITIONS)
  silent : silentSweeps (events (s.history 0) (2 * ROW_POSITIONS)) ≤ 1
  notEnded : ends (s.history 0) (2 * ROW_POSITIONS) = []

section
variable {s : Registry Unit} {cs : Multiset (Call Unit)} {n : Nat}

section
variable (H : Reporting n s) (h : (registry Unit 1).Reachable new ⟨s, cs⟩)
include H h

theorem Reporting.report :
    ∃ s' cs', (registry Unit 1).Reachable new ⟨s', cs'⟩ ∧ Reporting n s' ∧
      silentSweeps (events (s'.history 0) (2 * ROW_POSITIONS)) = 0 := by
  obtain ⟨r, hphase, hslot⟩ := H.slot
  have h := h.start (c := operate (.applyProgress (2 * ROW_POSITIONS) none)) trivial
  have h := h.step₁ ⟨_, .operate rfl, rfl⟩
  have hposition : position 1 (Operation.applyProgress (2 * ROW_POSITIONS) none).id = 0 := rfl
  have hvisit : (Operation.applyProgress (2 * ROW_POSITIONS) none).visit (s.slots 0) =
      { slot := .opened 1 (some ⟨2, .records ⟨[some r.report.1], 1⟩⟩)
        entries := [.event (2 * ROW_POSITIONS) (.report none)]
        done := true } := by
    rw [hslot]
    rfl
  have hreport : r.report.1.phase = .awaitingAdmission n := by
    simp [PendingRemoteAck.report, hphase]
  simp only [hposition, hvisit] at h
  have hsilent : silentSweeps (events ((s.visit 0 (.opened 1 (some ⟨2, .records
      ⟨[some r.report.1], 1⟩⟩)) [.event (2 * ROW_POSITIONS) (.report none)]).history 0)
      (2 * ROW_POSITIONS)) = 0 := by
    simp [silentSweeps_append]
  refine ⟨_, _, h, ⟨⟨_, hreport, by simp⟩, H.words, ?_, by omega, ?_⟩, hsilent⟩
  · simpa using H.notAdmitted
  · simpa using H.notEnded

theorem Reporting.sweep :
    ∃ cs', (registry Unit 1).Reachable new
      ⟨s.visit 0 (s.slots 0).failSilentAcks.slot (s.slots 0).failSilentAcks.entries, cs'⟩ := by
  have h := h.start (c := sweepDeliveries) trivial
  have h := h.step₁ ⟨_, .sweepDeliveries, rfl⟩
  have h := h.step₁ ⟨_, .sweepAdmissions, rfl⟩
  rw [H.words.1, H.words.2] at h
  exact ⟨_, h.step₁ ⟨_, .sweep rfl, rfl⟩⟩

end

theorem Reporting.reachable (hn : n ≤ ADMISSION_SWEEPS) :
    ∃ s cs, (registry Unit 1).Reachable new ⟨s, cs⟩ ∧ Reporting n s := by
  induction n with
  | zero =>
    have hr : (registry Unit 1).Reachable new ⟨{}, 0⟩ := .refl
    have hr := hr.start (c := storeAcks "" [some ()]) trivial
    have hr := hr.step₁ ⟨_, .storeCharged (by decide) (by decide), rfl⟩
    have hr := hr.step₁ ⟨_, .popEmpty rfl, rfl⟩
    have hr := hr.step₁ ⟨_, .claimLoad, rfl⟩
    have hr := hr.step₁ ⟨_, .claim Nat.zero_lt_one rfl, rfl⟩
    have hr := hr.step₁ ⟨_, .occupy (r := 2) rfl rfl, rfl⟩
    exact ⟨_, _, hr, ⟨_, rfl, rfl⟩, ⟨rfl, rfl⟩, nofun, Nat.zero_le _, rfl⟩
  | succ n ih =>
    obtain ⟨s, cs, h, H⟩ := ih (by omega)
    obtain ⟨s, cs, h, H, hsilent⟩ := H.report h
    obtain ⟨cs, h⟩ := H.sweep h
    obtain ⟨r, hphase, hslot⟩ := H.slot
    have hswept : r.swept = ({ r with phase := .awaitingAdmission (n + 1) }, false) := by
      simp [PendingRemoteAck.swept, hphase]
      omega
    have hvisit : (s.slots 0).failSilentAcks =
        { slot := .opened 1 (some ⟨2, .records
            ⟨[some { r with phase := .awaitingAdmission (n + 1) }], 1⟩⟩)
          entries := [.event (2 * ROW_POSITIONS) .sweep] } := by
      simp [hslot, failSilentAcks, rowEntries, sweepRow, sweepEntries, hswept, Entry.failed,
        List.filterMap_cons]
    rw [hvisit] at h
    refine ⟨_, _, h, ⟨{ r with phase := .awaitingAdmission (n + 1) }, rfl, by simp⟩, H.words,
      ?_, ?_, ?_⟩
    · simpa using H.notAdmitted
    · simp [silentSweeps_append, hsilent]
    · simpa using H.notEnded

end

theorem reporting_record_expires : ¬ ∀ c : Config (Registry Unit) (Call Unit),
    (registry Unit 1).Reachable new c → Correlates SilentlyExpires 1 c := by
  intro hall
  obtain ⟨s, cs, h, H⟩ := Reporting.reachable (Nat.le_refl ADMISSION_SWEEPS)
  obtain ⟨s, cs, h, H, hsilent⟩ := H.report h
  obtain ⟨cs, h⟩ := H.sweep h
  obtain ⟨r, hphase, hslot⟩ := H.slot
  have hswept : r.swept.2 = true := by
    simp [PendingRemoteAck.swept, hphase]
  have hentries : (s.slots 0).failSilentAcks.entries = [.event (2 * ROW_POSITIONS) .sweep,
      .ended (2 * ROW_POSITIONS) (.ending .expire) (some r.swept.1)] := by
    simp [hslot, failSilentAcks, rowEntries, sweepEntries, hswept]
  rw [hentries] at h
  have hexpired := (hall _ h).expired (2 * ROW_POSITIONS) (some r.swept.1)
  have hposition : position 1 (2 * ROW_POSITIONS) = 0 := rfl
  have hbound : ¬ ADMISSION_SWEEPS < 1 := by decide
  simp [Registry.historyOf, hposition, SilentlyExpires, silentSweeps_append, hsilent,
    H.notAdmitted, H.notEnded, -Nat.lt_one_iff, hbound] at hexpired

end Nervix.RemoteAck
