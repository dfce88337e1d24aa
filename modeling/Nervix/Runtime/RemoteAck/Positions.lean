import Nervix.Runtime.RemoteAck.Lifecycle

/-!
# Who holds a position

A position that was claimed belongs to its stored correlation, to the free queue of its side or to
one call in flight. So a registrar never finds an occupied slot, and a queue always has room for a
position that is returned.
-/

namespace Nervix.RemoteAck

open Call
open List

variable {α : Type} {capacity p id : Nat} {s s' : Registry α} {call call' : Call α}
  {c : Config (Registry α) (Call α)} {slot : CorrelationSlot α}

def Registry.Claimed (capacity : Nat) (s : Registry α) (p : Nat) : Prop :=
  p < firstClaims s.nextDelivery ∨ capacity ≤ p ∧ p < capacity + firstClaims s.nextAdmission

instance : Decidable (s.Claimed capacity p) := inferInstanceAs (Decidable (_ ∨ _))

theorem mem_claimedPositions :
    p ∈ claimedPositions capacity deliveries admissions ↔
      p < deliveries ∨ capacity ≤ p ∧ p < capacity + admissions := by
  simp only [claimedPositions, mem_append, mem_range, mem_map]
  refine or_congr Iff.rfl ⟨?_, fun h => ⟨p - capacity, by omega, by omega⟩⟩
  rintro ⟨k, hk, rfl⟩
  omega

@[simp] theorem firstClaims_closeClaims (word : Nat) :
    firstClaims (closeClaims word) = firstClaims word := by
  unfold firstClaims closeClaims
  split
  · rw [Nat.add_mod_right]
  · rfl

theorem le_closeClaims (word : Nat) : CLAIMS_CLOSED ≤ closeClaims word := by
  unfold closeClaims
  split <;> omega

theorem closeClaims_eq (h : CLAIMS_CLOSED ≤ word) : closeClaims word = word := by
  unfold closeClaims
  split <;> omega

theorem firstClaims_of_le (hcap : 2 * capacity ≤ Ack.USIZE_MAX) (h : p ≤ capacity) :
    firstClaims p = p := by
  have hlt : p < CLAIMS_CLOSED := by
    simp only [Ack.USIZE_MAX, CLAIMS_CLOSED] at hcap ⊢
    omega
  exact Nat.mod_eq_of_lt hlt

theorem CallStep.claims (hs : CallStep capacity s call s' call') :
    (firstClaims s'.nextDelivery = firstClaims s.nextDelivery ∧
      firstClaims s'.nextAdmission = firstClaims s.nextAdmission ∧
      (CLAIMS_CLOSED ≤ s.nextDelivery → s'.nextDelivery = s.nextDelivery) ∧
      (CLAIMS_CLOSED ≤ s.nextAdmission → s'.nextAdmission = s.nextAdmission)) ∨
    ∃ (registration : Registration α) (p : Nat), p < capacity ∧ registration.next s = p ∧
      s' = registration.setNext s (p + 1) := by
  cases hs with
  | claim hlt hnext => exact .inr ⟨_, _, hlt, hnext, rfl⟩
  | closeDeliveries => exact .inl ⟨by simp, rfl, closeClaims_eq, fun _ => rfl⟩
  | closeAdmissions => exact .inl ⟨rfl, by simp, fun _ => rfl, closeClaims_eq⟩
  | pop =>
    refine .inl ?_
    cases ‹Registration α› <;> exact ⟨rfl, rfl, fun _ => rfl, fun _ => rfl⟩
  | _ => exact .inl ⟨rfl, rfl, fun _ => rfl, fun _ => rfl⟩

section
variable (hcap : 2 * capacity ≤ Ack.USIZE_MAX)
include hcap

theorem CallStep.claims_le (hs : CallStep capacity s call s' call')
    (hd : firstClaims s.nextDelivery ≤ capacity) (ha : firstClaims s.nextAdmission ≤ capacity) :
    firstClaims s'.nextDelivery ≤ capacity ∧ firstClaims s'.nextAdmission ≤ capacity := by
  rcases hs.claims with ⟨hd', ha', -⟩ | ⟨registration, p, hlt, -, rfl⟩
  · exact ⟨hd' ▸ hd, ha' ▸ ha⟩
  · have hp : firstClaims (p + 1) = p + 1 := firstClaims_of_le hcap hlt
    cases registration with
    | records =>
      refine ⟨?_, ha⟩
      change firstClaims (p + 1) ≤ capacity
      omega
    | admission =>
      refine ⟨hd, ?_⟩
      change firstClaims (p + 1) ≤ capacity
      omega

theorem CallStep.claimed (hs : CallStep capacity s call s' call') (h : s.Claimed capacity p) :
    s'.Claimed capacity p := by
  rcases hs.claims with ⟨hd, ha, -⟩ | ⟨registration, q, hlt, hnext, rfl⟩
  · simpa [Registry.Claimed, hd, ha] using h
  · have hq : firstClaims q = q := firstClaims_of_le hcap hlt.le
    have hq' : firstClaims (q + 1) = q + 1 := firstClaims_of_le hcap hlt
    cases registration with
    | records =>
      have hword : s.nextDelivery = q := hnext
      simp only [Registry.Claimed, hword, hq] at h
      simp only [Registry.Claimed, Registration.setNext, hq']
      omega
    | admission =>
      have hword : s.nextAdmission = q := hnext
      simp only [Registry.Claimed, hword, hq] at h
      simp only [Registry.Claimed, Registration.setNext, hq']
      omega

theorem claimed_setNext {registration : Registration α} (hlt : p < capacity)
    (hnext : registration.next s = p) (hd : firstClaims s.nextDelivery ≤ capacity) :
    ¬ s.Claimed capacity (p + registration.offset capacity) ∧
      (registration.setNext s (p + 1)).Claimed capacity (p + registration.offset capacity) := by
  have hp : firstClaims p = p := firstClaims_of_le hcap hlt.le
  have hp' : firstClaims (p + 1) = p + 1 := firstClaims_of_le hcap hlt
  cases registration with
  | records =>
    have hword : s.nextDelivery = p := hnext
    simp only [Registry.Claimed, Registration.setNext, Registration.offset, hword, hp, hp']
    omega
  | admission =>
    have hword : s.nextAdmission = p := hnext
    simp only [Registry.Claimed, Registration.setNext, Registration.offset, hword, hp, hp']
    omega

theorem claims_le (h : (registry α capacity).Reachable Registry.new c) :
    firstClaims c.shared.nextDelivery ≤ capacity ∧
      firstClaims c.shared.nextAdmission ≤ capacity := by
  refine h.inv ⟨Nat.zero_le _, Nat.zero_le _⟩ (fun ih _ => ih) fun ih hs => ?_
  obtain ⟨call', hs, -⟩ := hs
  exact hs.claims_le hcap ih.1 ih.2

end

section
variable {q q' : ConcurrentQueue}

theorem ConcurrentQueue.items_of_pop (h : q.pop = .ok (p, q')) : q.items = p :: q'.items := by
  unfold ConcurrentQueue.pop at h
  split at h
  · cases h
    assumption
  · cases h

theorem ConcurrentQueue.items_of_push (h : q.push capacity p = .ok q') :
    q'.items = q.items ++ [p] := by
  unfold ConcurrentQueue.push at h
  split at h
  · cases h
  · split at h
    · cases h
      rfl
    · cases h

theorem ConcurrentQueue.length_of_push_full (h : q.push capacity p = .error .full) :
    capacity ≤ q.items.length := by
  unfold ConcurrentQueue.push at h
  split at h
  · cases h
  · split at h
    · cases h
    · omega

end

def CorrelationSlot.stored : CorrelationSlot α → Nat
  | opened _ (some _) => 1
  | _ => 0

def Call.holds (p : Nat) : Call α → Nat
  | occupy _ q => if q = p then 1 else 0
  | recycle q after => (if q = p then 1 else 0) + after.holds p
  | _ => 0

def Registry.occupancy (s : Registry α) (p : Nat) : Nat :=
  (s.slots p).stored + s.deliveries.items.count p + s.admissions.items.count p

theorem stored_freed (g n : Nat) (c : RemoteCorrelation α) :
    CorrelationSlot.stored (.opened g (if n = 0 then none else some c)) +
      (decide (n = 0)).toNat = 1 := by
  by_cases hn : n = 0 <;> simp [hn, CorrelationSlot.stored]

theorem Operation.stored_visit (op : Operation) (slot : CorrelationSlot α) :
    (op.visit slot).slot.stored + (op.visit slot).freed.toNat = slot.stored := by
  have htake : ∀ id ending, (slot.take id ending).slot.stored +
      (slot.take id ending).freed.toNat = slot.stored := by
    intro id ending
    unfold CorrelationSlot.take
    split
    · split
      · split
        · split
          · exact stored_freed ..
          · rfl
        · split <;> rfl
      · rfl
    · rfl
  cases op with
  | admitAck id =>
    simp only [Operation.visit, CorrelationSlot.admitAck]
    split
    · split
      · split <;> rfl
      · rfl
    · rfl
  | applyProgress id progress =>
    simp only [Operation.visit, CorrelationSlot.applyProgress]
    split
    · split
      · split
        · split <;> rfl
        · split
          · split <;> rfl
          · rfl
      · rfl
    · rfl
  | resolveAck id outcome => exact htake _ _
  | clearAck id => exact htake _ _
  | dropReceiver id =>
    simp only [Operation.visit, CorrelationSlot.dropReceiver]
    split
    · split <;> rfl
    · rfl

theorem CorrelationSlot.stored_failSilentAcks (slot : CorrelationSlot α) :
    slot.failSilentAcks.slot.stored + slot.failSilentAcks.freed.toNat = slot.stored := by
  unfold CorrelationSlot.failSilentAcks
  split
  · split
    · exact stored_freed ..
    · split <;> rfl
  · rfl

@[simp] theorem CorrelationSlot.slot_shutdown (slot : CorrelationSlot α) :
    slot.shutdown.slot = .closed := by
  unfold CorrelationSlot.shutdown
  split <;> rfl

@[simp] theorem Registry.slots_visit (q : Nat) (entries : List (Entry α)) :
    (s.visit q slot entries).slots p = if q = p then slot else s.slots p := by
  simp only [Registry.visit, Function.update_apply, eq_comm]

@[simp] theorem Registry.history_visit (q : Nat) (entries : List (Entry α)) :
    (s.visit q slot entries).history p = if q = p then s.history p ++ entries else s.history p := by
  simp only [Registry.visit, Function.update_apply]
  by_cases hq : p = q
  · simp [hq]
  · simp [hq, Ne.symm hq]

theorem Registry.occupancy_visit (q : Nat) (slot : CorrelationSlot α) (entries : List (Entry α)) :
    (s.visit q slot entries).occupancy p + (if q = p then (s.slots q).stored else 0) =
      s.occupancy p + if q = p then slot.stored else 0 := by
  have hqueues : (s.visit q slot entries).deliveries = s.deliveries ∧
      (s.visit q slot entries).admissions = s.admissions := ⟨rfl, rfl⟩
  simp only [Registry.occupancy, Registry.slots_visit, hqueues.1, hqueues.2]
  by_cases hq : q = p
  · subst hq
    simp only [if_true]
    omega
  · simp [hq]

theorem Registry.occupancy_freed (q : Nat) (slot : CorrelationSlot α) (entries : List (Entry α))
    (freed : Bool) (after : Call α) (h : slot.stored + freed.toNat = (s.slots q).stored)
    (hafter : after.holds p = 0) :
    (s.visit q slot entries).occupancy p + (after.afterVisit q freed).holds p = s.occupancy p := by
  have hvisit := s.occupancy_visit (p := p) q slot entries
  have hholds : (after.afterVisit q freed).holds p = if q = p then freed.toNat else 0 := by
    cases freed <;> simp [Call.afterVisit, Call.holds, hafter]
  rw [hholds]
  by_cases hq : q = p <;> simp only [hq, if_true, if_false] at hvisit h ⊢ <;> omega

def Registry.claimed (capacity : Nat) (s : Registry α) (p : Nat) : Nat :=
  if s.Claimed capacity p then 1 else 0

theorem CallStep.occupancy (hcap : 2 * capacity ≤ Ack.USIZE_MAX)
    (hs : CallStep capacity s call s' call') (hd : firstClaims s.nextDelivery ≤ capacity) :
    s'.occupancy p + call'.holds p + s.claimed capacity p ≤
      s.occupancy p + call.holds p + s'.claimed capacity p := by
  have hclaimed : s.claimed capacity p ≤ s'.claimed capacity p := by
    unfold Registry.claimed
    split
    · rw [if_pos (hs.claimed hcap ‹_›)]
    · exact Nat.zero_le _
  suffices hmove : s'.occupancy p + call'.holds p ≤ s.occupancy p + call.holds p ∨
      s'.occupancy p + call'.holds p ≤ s.occupancy p + call.holds p + 1 ∧
        s.claimed capacity p = 0 ∧ s'.claimed capacity p = 1 by omega
  cases hs with
  | claim hlt hnext =>
    rename_i q registration
    obtain ⟨hnot, hnew⟩ := claimed_setNext hcap hlt hnext hd
    have hocc : (registration.setNext s (q + 1)).occupancy p = s.occupancy p := by
      cases registration <;> rfl
    by_cases hp : q + registration.offset capacity = p
    · subst hp
      refine .inr ⟨?_, if_neg hnot, if_pos hnew⟩
      simp [hocc, Call.holds]
    · exact .inl (by simp [hocc, Call.holds, hp])
  | pop hpop =>
    refine .inl ?_
    rename_i registration q queue
    have hitems := ConcurrentQueue.items_of_pop hpop
    cases registration <;>
    · simp only [Registration.free] at hitems
      simp only [Registry.occupancy, Registration.setFree, hitems, count_cons, Call.holds,
        beq_iff_eq]
      omega
  | occupyExhausted hslot =>
    rename_i q _ _ _
    have hvisit := s.occupancy_visit (p := p) q .closed []
    refine .inl ?_
    simp only [hslot, CorrelationSlot.stored, ite_self, Nat.add_zero] at hvisit
    simp only [hvisit, Call.holds]
    omega
  | occupy hslot =>
    rename_i q g r registration _
    have hvisit := s.occupancy_visit (p := p) q (.opened (g + 1) (some ⟨r, registration.state⟩))
      [.registered r registration]
    have hok : (registration.ok r).holds p = 0 := by cases registration <;> rfl
    refine .inl ?_
    simp only [hslot, CorrelationSlot.stored, ite_self, Nat.add_zero] at hvisit
    simp only [hvisit, hok, Call.holds]
    omega
  | operate hv =>
    subst hv
    exact .inl (Registry.occupancy_freed _ _ _ _ _ (Operation.stored_visit _ _) rfl).le
  | recycleDelivery _ hpush =>
    have hitems := ConcurrentQueue.items_of_push hpush
    refine .inl ?_
    simp only [Registry.occupancy, Call.holds, hitems, count_append, count_singleton, beq_iff_eq]
    omega
  | recycleAdmission _ hpush =>
    have hitems := ConcurrentQueue.items_of_push hpush
    refine .inl ?_
    simp only [Registry.occupancy, Call.holds, hitems, count_append, count_singleton, beq_iff_eq]
    omega
  | recycleClosed | recycleFull =>
    refine .inl ?_
    simp only [Call.holds]
    omega
  | sweep hv =>
    subst hv
    exact .inl (Registry.occupancy_freed _ _ _ _ _ (CorrelationSlot.stored_failSilentAcks _) rfl).le
  | endPosition hv =>
    rename_i q v _
    have hvisit := s.occupancy_visit (p := p) q v.slot v.entries
    subst hv
    refine .inl ?_
    simp only [CorrelationSlot.slot_shutdown, CorrelationSlot.stored, ite_self,
      Nat.add_zero] at hvisit
    simp only [CorrelationSlot.slot_shutdown, Call.holds]
    omega
  | occupyClosed | occupyOccupied =>
    refine .inl ?_
    simp only [Call.holds]
    omega
  | _ => exact .inl (Nat.le_refl _)

section
variable (hcap : 2 * capacity ≤ Ack.USIZE_MAX)
include hcap

section
variable (h : (registry α capacity).Reachable Registry.new c)
include h

theorem held_le (p : Nat) :
    c.shared.occupancy p + weigh (Call.holds p) c.calls ≤ c.shared.claimed capacity p := by
  refine h.weigh_le_inv (·.occupancy p) (·.claimed capacity p) (Call.holds p) (Nat.zero_le _)
    (fun {s call} hs => ?_) fun {s call s' next cs} hr hs => ?_
  · cases call <;> first | rfl | exact hs.elim
  · obtain ⟨call', hs, rfl⟩ := hs
    exact hs.occupancy hcap (claims_le hcap hr).1

theorem held_le_one (p : Nat) : c.shared.occupancy p + weigh (Call.holds p) c.calls ≤ 1 := by
  have hle := held_le hcap h p
  unfold Registry.claimed at hle
  split at hle <;> omega

theorem claimed_of_pos (hpos : 0 < c.shared.occupancy p + weigh (Call.holds p) c.calls) :
    c.shared.Claimed capacity p := by
  have hle := held_le hcap h p
  unfold Registry.claimed at hle
  split at hle
  · assumption
  · omega

end

end

theorem sides (h : (registry α capacity).Reachable Registry.new c) :
    (∀ p ∈ c.shared.deliveries.items, p < capacity) ∧
      ∀ p ∈ c.shared.admissions.items, capacity ≤ p := by
  refine h.inv ⟨nofun, nofun⟩ (fun ih _ => ih) fun {s call s' next cs} ih hs => ?_
  obtain ⟨call', hs, -⟩ := hs
  cases hs with
  | pop hpop =>
    rename_i registration q queue
    have hitems := ConcurrentQueue.items_of_pop hpop
    cases registration with
    | records => exact ⟨fun p hp => ih.1 p (hitems ▸ mem_cons_of_mem _ hp), ih.2⟩
    | admission => exact ⟨ih.1, fun p hp => ih.2 p (hitems ▸ mem_cons_of_mem _ hp)⟩
  | claim => cases ‹Registration α› <;> exact ih
  | recycleDelivery hlt hpush =>
    refine ⟨fun p hp => ?_, ih.2⟩
    rcases mem_append.mp (ConcurrentQueue.items_of_push hpush ▸ hp) with hp | hp
    · exact ih.1 p hp
    · exact mem_singleton.mp hp ▸ hlt
  | recycleAdmission hle hpush =>
    refine ⟨ih.1, fun p hp => ?_⟩
    rcases mem_append.mp (ConcurrentQueue.items_of_push hpush ▸ hp) with hp | hp
    · exact ih.2 p hp
    · exact mem_singleton.mp hp ▸ hle
  | _ => exact ih

theorem length_lt_of_side (lo n : Nat) (hcount : ∀ q, items.count q + (if p = q then 1 else 0) ≤ 1)
    (hside : ∀ q ∈ p :: items, lo ≤ q ∧ q < lo + n) : items.length < n := by
  have hnodup : (p :: items).Nodup := by
    refine nodup_iff_count_le_one.mpr fun q => ?_
    simpa [count_cons] using hcount q
  have hsub : p :: items ⊆ (List.range n).map (lo + ·) := by
    intro q hq
    obtain ⟨hle, hlt⟩ := hside q hq
    exact mem_map.mpr ⟨q - lo, mem_range.mpr (by omega), by omega⟩
  have hlen := (subperm_of_subset hnodup hsub).length_le
  simp only [length_cons, length_map, length_range] at hlen
  omega

theorem not_full (hcap : 2 * capacity ≤ Ack.USIZE_MAX) {cs : Multiset (Call α)} {after : Call α}
    (hr : (registry α capacity).Reachable Registry.new ⟨s, recycle p after ::ₘ cs⟩) :
    (if p < capacity then s.deliveries else s.admissions).push capacity p ≠ .error .full := by
  intro hpush
  have hlen := ConcurrentQueue.length_of_push_full hpush
  obtain ⟨hdeliveries, hadmissions⟩ := sides hr
  have hbound : ∀ q, 0 < s.occupancy q + weigh (Call.holds q) (recycle p after ::ₘ cs) →
      q < 2 * capacity := by
    intro q hq
    have hclaims := claims_le hcap hr
    have hclaimed : s.Claimed capacity q := claimed_of_pos hcap hr hq
    simp only [Registry.Claimed] at hclaimed hclaims
    omega
  have hcount : ∀ q, s.deliveries.items.count q + s.admissions.items.count q +
      (if p = q then 1 else 0) ≤ 1 := by
    intro q
    have hle : s.occupancy q + weigh (Call.holds q) (recycle p after ::ₘ cs) ≤ 1 :=
      held_le_one hcap hr q
    simp only [Registry.occupancy, weigh_cons, Call.holds] at hle
    omega
  split at hlen
  · have hlt : s.deliveries.items.length < capacity := by
      refine length_lt_of_side (p := p) 0 capacity (fun q => ?_) fun q hq => ?_
      · have := hcount q
        omega
      · rcases mem_cons.mp hq with rfl | hq
        · omega
        · have := hdeliveries q hq
          omega
    omega
  · have hlt : s.admissions.items.length < capacity := by
      refine length_lt_of_side (p := p) capacity capacity (fun q => ?_) fun q hq => ?_
      · have := hcount q
        omega
      · rcases mem_cons.mp hq with rfl | hq
        · have := hbound q (by simp only [weigh_cons, Call.holds, if_true]; omega)
          omega
        · have hle : capacity ≤ q := hadmissions q hq
          have hpos := count_pos_iff.mpr hq
          have := hbound q (by simp only [Registry.occupancy]; omega)
          omega
    omega

def Call.WF : Call α → Prop
  | panicked => False
  | pop registration | claimLoad registration | claimCas registration _ | occupy registration _ =>
    registration.Fits
  | recycle _ after => after.WF
  | _ => True

theorem wf_of_reachable (hcap : 2 * capacity ≤ Ack.USIZE_MAX)
    (h : (registry α capacity).Reachable Registry.new c) : ∀ call ∈ c.calls, call.WF := by
  suffices (registry α capacity).Reachable Registry.new c ∧ ∀ call ∈ c.calls, call.WF from this.2
  refine h.inv ⟨.refl, nofun⟩ (fun {s call cs} ih hs => ⟨ih.1.start hs, ?_⟩)
    fun {s call s' next cs} ih hs => ⟨ih.1.step hs, ?_⟩
  · intro d hd
    rcases Multiset.mem_cons.mp hd with rfl | hd
    · cases d <;> trivial
    · exact ih.2 d hd
  · obtain ⟨hr, hwf⟩ := ih
    obtain ⟨call', hs, rfl⟩ := hs
    intro d hd
    rcases Multiset.mem_cons.mp hd with rfl | hd
    · have hvisit : ∀ (q : Nat) (freed : Bool) (after : Call α), after.WF →
          (after.afterVisit q freed).WF := by
        intro q freed after hafter
        cases freed <;> exact hafter
      have hcall := hwf _ (Multiset.mem_cons_self ..)
      cases hs with
      | storeCharged hlen hne => exact ⟨hlen, hne⟩
      | pop | popEmpty | claimLoad | claim | claimRetry => exact hcall
      | occupyOccupied hslot =>
        rename_i q _ _ _
        have hle := held_le_one hcap hr q
        simp [Registry.occupancy, hslot, CorrelationSlot.stored, Call.holds] at hle
        omega
      | occupy => cases ‹Registration α› <;> trivial
      | operate | sweep => exact hvisit _ _ _ trivial
      | recycleDelivery | recycleAdmission | recycleClosed => exact hcall
      | recycleFull hpush => exact absurd hpush (not_full hcap hr)
      | _ => trivial
    · exact hwf d (Multiset.mem_cons_of_mem hd)

end Nervix.RemoteAck
