import Nervix.Interconnect.RelayOwner
import Nervix.Theory.System

/-!
# The outbound deliveries of a relay owner

A relay owner keeps the deliveries it is sending to its peer, and which delivery each admission of
theirs acknowledges. Of its protocol state only the parts that these tables depend on are here.
-/

namespace Nervix.Interconnect

open Finmap

structure OutboundRelayKey where
  peerNodeId : String
  channelIncarnation : Nat
  sequence : Nat
deriving DecidableEq

structure OutboundRelayAttempt where
  receiverEpoch : Nat
  lastProgress : Nat

inductive TransportError
  | relayIndeterminate
  | poolExhausted
  | relayGrant (reason : String)
deriving DecidableEq

/-- What an owner is created with; the options refuse a capacity of zero. -/
structure OutboundOwner where
  capacity : Nat
  createdAt : Nat
  capacity_pos : 0 < capacity

structure OutboundRelays where
  run : RelayPeerRun := .starting
  outboundAttempts : Records OutboundRelayKey OutboundRelayAttempt := ∅
  outboundAdmissions : Records RelayAdmissionKey OutboundRelayKey := ∅

namespace OutboundRelays

section
variable (owner : OutboundOwner) (s : OutboundRelays) (key : OutboundRelayKey) (now : Nat)

def acceptsEpoch (epoch : Nat) : Bool :=
  match s.run with
  | .bound current _ => current = epoch
  | .starting | .awaitingMembership _ _ | .ended => false

def activate : OutboundRelays :=
  match s.run with
  | .awaitingMembership epoch bindingSequence => { s with run := .bound epoch bindingSequence }
  | .starting | .bound _ _ | .ended => s

def bindEpoch (epoch bindingSequence : Nat) (member : Bool) : OutboundRelays × Bool :=
  let bind : OutboundRelays × Bool := ({ s with
    run := if member then .bound epoch bindingSequence
      else .awaitingMembership epoch bindingSequence }, true)
  match s.run with
  | .ended => (s, false)
  | .starting => bind
  | .bound current bound =>
    if current = epoch then ({ s with run := .bound current (max bound bindingSequence) }, true)
    else if bindingSequence < bound then (s, false) else bind
  | .awaitingMembership current bound =>
    if current = epoch then
      let s := { s with run := .awaitingMembership current (max bound bindingSequence) }
      (if member then s.activate else s, true)
    else if bindingSequence < bound then (s, false) else bind

def endOutbound : OutboundRelays := { run := .ended }

def retireOutbound : OutboundRelays :=
  { s with
    outboundAttempts := s.outboundAttempts.erase key
    outboundAdmissions := s.outboundAdmissions.retain fun _ delivery => delivery ≠ key }

def retireOutboundAdmission (admission : RelayAdmissionKey) : OutboundRelays :=
  match s.outboundAdmissions.lookup admission with
  | none => s
  | some delivery =>
    { s with
      outboundAttempts := s.outboundAttempts.erase delivery
      outboundAdmissions := s.outboundAdmissions.erase admission }

def outboundEpoch : OutboundRelays × Option Nat :=
  match s.outboundAttempts.lookup key with
  | none => (s, none)
  | some attempt =>
    ({ s with
      outboundAttempts := s.outboundAttempts.insert key { attempt with lastProgress := now } },
      some attempt.receiverEpoch)

def outboundCapacity : Nat := owner.capacity * 2

def registerOutbound (epoch : Nat) (admission : RelayAdmissionKey) :
    OutboundRelays × Option TransportError :=
  if !s.acceptsEpoch epoch then (s, some .relayIndeterminate)
  else if (s.outboundAttempts.lookup key).any (·.receiverEpoch ≠ epoch) then
    (s.retireOutbound key, some .relayIndeterminate)
  else if key ∉ s.outboundAttempts ∧ outboundCapacity owner ≤ s.outboundAttempts.keys.card then
    (s, some .poolExhausted)
  else if admission ∉ s.outboundAdmissions ∧
      outboundCapacity owner ≤ s.outboundAdmissions.keys.card then
    (s, some .poolExhausted)
  else if (s.outboundAdmissions.lookup admission).any (· ≠ key) then
    (s, some (.relayGrant "relay admission acknowledgement names another delivery"))
  else
    ({ s with
      outboundAttempts := s.outboundAttempts.insert key ⟨epoch, now⟩
      outboundAdmissions := s.outboundAdmissions.insert admission key }, none)

def endUnobserved : OutboundRelays :=
  match s.run with
  | .awaitingMembership _ _ =>
    if relayChannelRetention ≤ now - owner.createdAt then endOutbound else s
  | .starting | .bound _ _ | .ended => s

def Silent : Prop :=
  ∃ attempt ∈ s.outboundAttempts.lookup key, relayChannelRetention ≤ now - attempt.lastProgress

/-- `expired` are the deliveries silent at the sweep, as the table of attempts is walked. -/
def sweep (expired : List OutboundRelayKey) : OutboundRelays :=
  expired.foldl retireOutbound (s.endUnobserved owner now)

end

inductive Operation
  | registerOutbound (key : OutboundRelayKey) (now epoch : Nat) (admission : RelayAdmissionKey)
  | outboundEpoch (key : OutboundRelayKey) (now : Nat)
  | retireOutbound (key : OutboundRelayKey)
  | retireOutboundAdmission (admission : RelayAdmissionKey)
  | bindEpoch (epoch bindingSequence : Nat) (member : Bool)
  | sweep (now : Nat) (expired : List OutboundRelayKey)
  | endOutbound

def system (owner : OutboundOwner) : System OutboundRelays Operation where
  guard s
    | .sweep now expired => ∀ key, key ∈ expired ↔ (s.endUnobserved owner now).Silent key now
    | _ => True
  next s
    | .registerOutbound key now epoch admission =>
      (s.registerOutbound owner key now epoch admission).1
    | .outboundEpoch key now => (s.outboundEpoch key now).1
    | .retireOutbound key => s.retireOutbound key
    | .retireOutboundAdmission admission => s.retireOutboundAdmission admission
    | .bindEpoch epoch bindingSequence member => (s.bindEpoch epoch bindingSequence member).1
    | .sweep now expired => s.sweep owner now expired
    | .endOutbound => endOutbound

variable {owner : OutboundOwner} {s : OutboundRelays} {key : OutboundRelayKey} {now : Nat}

/-! ### Both tables name the same deliveries -/

structure Linked (owner : OutboundOwner) (s : OutboundRelays) : Prop where
  named : ∀ admission delivery, s.outboundAdmissions.lookup admission = some delivery →
    delivery ∈ s.outboundAttempts
  attempts : s.outboundAttempts.keys.card ≤ outboundCapacity owner
  admissions : s.outboundAdmissions.keys.card ≤ outboundCapacity owner

theorem Linked.empty {run : RelayPeerRun} : Linked owner { run := run } :=
  ⟨nofun, Nat.zero_le _, Nat.zero_le _⟩

theorem Linked.retireOutbound (h : Linked owner s) : Linked owner (s.retireOutbound key) where
  named admission delivery hd := by
    rw [OutboundRelays.retireOutbound, lookup_retain, Option.filter_eq_some_iff] at hd
    exact mem_erase.mpr ⟨of_decide_eq_true hd.2, h.named admission delivery hd.1⟩
  attempts := (card_keys_le fun _ hk => (mem_erase.mp hk).2).trans h.attempts
  admissions := (card_keys_le fun _ => mem_of_mem_retain).trans h.admissions

theorem Linked.registerOutbound (h : Linked owner s) :
    Linked owner (s.registerOutbound owner key now epoch admission).1 := by
  unfold OutboundRelays.registerOutbound
  split
  · exact h
  split
  · exact h.retireOutbound
  split
  · exact h
  split
  · exact h
  split
  · exact h
  rename_i hattempts hadmissions _
  refine ⟨fun a d hd => mem_insert.mpr ?_, card_keys_insert_le h.attempts ?_,
    card_keys_insert_le h.admissions ?_⟩
  · rcases lookup_insert_eq_some.mp hd with ⟨-, rfl⟩ | ⟨-, hd⟩
    · exact .inl rfl
    · exact .inr (h.named a d hd)
  · exact fun hk => Nat.lt_of_not_le fun hle => hattempts ⟨hk, hle⟩
  · exact fun hk => Nat.lt_of_not_le fun hle => hadmissions ⟨hk, hle⟩

theorem Linked.outboundEpoch (h : Linked owner s) : Linked owner (s.outboundEpoch key now).1 := by
  unfold OutboundRelays.outboundEpoch
  split
  · exact h
  · rename_i hl
    have hk := mem_iff.mpr ⟨_, hl⟩
    exact ⟨fun a d hd => mem_insert.mpr (.inr (h.named a d hd)),
      card_keys_insert_le h.attempts fun hn => absurd hk hn, h.admissions⟩

/-- An admission of `s` is the only one of its delivery. -/
def Sole (s : OutboundRelays) (admission : RelayAdmissionKey) : Prop :=
  ∀ delivery other, s.outboundAdmissions.lookup admission = some delivery →
    s.outboundAdmissions.lookup other = some delivery → other = admission

theorem Linked.retireOutboundAdmission (h : Linked owner s) (hsole : s.Sole admission) :
    Linked owner (s.retireOutboundAdmission admission) := by
  unfold OutboundRelays.retireOutboundAdmission
  split
  · exact h
  rename_i delivery hl
  refine ⟨fun a d hd => ?_,
    (card_keys_le fun _ hk => (mem_erase.mp hk).2).trans h.attempts,
    (card_keys_le fun _ hk => (mem_erase.mp hk).2).trans h.admissions⟩
  rw [lookup_erase_eq] at hd
  split at hd
  · cases hd
  rename_i hne
  refine mem_erase.mpr ⟨?_, h.named a d hd⟩
  rintro rfl
  exact hne (hsole d a hl hd)

theorem Linked.of_tables {t : OutboundRelays} (h : Linked owner s)
    (hattempts : t.outboundAttempts = s.outboundAttempts)
    (hadmissions : t.outboundAdmissions = s.outboundAdmissions) : Linked owner t := by
  cases t
  subst hattempts hadmissions
  exact ⟨h.named, h.attempts, h.admissions⟩

theorem Linked.bindEpoch (h : Linked owner s) :
    Linked owner (s.bindEpoch epoch bindingSequence member).1 := by
  unfold OutboundRelays.bindEpoch
  dsimp only
  split
  · exact h
  · exact h.of_tables rfl rfl
  · split_ifs <;> exact h.of_tables rfl rfl
  · split_ifs <;> exact h.of_tables rfl rfl

theorem Linked.endUnobserved (h : Linked owner s) : Linked owner (s.endUnobserved owner now) := by
  unfold OutboundRelays.endUnobserved
  split
  · split
    · exact .empty
    · exact h
  all_goals exact h

theorem Linked.sweep (h : Linked owner s) : Linked owner (s.sweep owner now expired) :=
  expired.foldlRecOn _ h.endUnobserved fun _ hs _ _ => hs.retireOutbound

def RetiresSole (s : OutboundRelays) : Operation → Prop
  | .retireOutboundAdmission admission => s.Sole admission
  | _ => True

theorem Linked.of_run (h : ((system owner).restrict RetiresSole).Run {} s) : Linked owner s := by
  refine h.inv .empty fun {s op} hs hg => ?_
  cases op with
  | registerOutbound => exact hs.registerOutbound
  | outboundEpoch => exact hs.outboundEpoch
  | retireOutbound => exact hs.retireOutbound
  | retireOutboundAdmission => exact hs.retireOutboundAdmission hg.2
  | bindEpoch => exact hs.bindEpoch
  | sweep => exact hs.sweep
  | endOutbound => exact .empty

/-! ### What a registration leaves and finds -/

structure SameEntries (s t : OutboundRelays) (delivery : OutboundRelayKey) : Prop where
  attempt : t.outboundAttempts.lookup delivery = s.outboundAttempts.lookup delivery
  admissions : ∀ admission, t.outboundAdmissions.lookup admission = some delivery ↔
    s.outboundAdmissions.lookup admission = some delivery

theorem registerOutbound_of_empty (h : Linked owner s)
    (hempty : ∀ delivery, delivery ∉ s.outboundAttempts) (he : s.acceptsEpoch epoch = true) :
    (s.registerOutbound owner key now epoch admission).2 = none := by
  have hpos : 0 < outboundCapacity owner := Nat.mul_pos owner.capacity_pos Nat.two_pos
  have hfree : ∀ a, a ∉ s.outboundAdmissions := fun a ha => by
    obtain ⟨delivery, hd⟩ := mem_iff.mp ha
    exact hempty delivery (h.named a delivery hd)
  have hattempts : s.outboundAttempts.keys.card ≤ 0 :=
    card_keys_le (show ∀ k, _ → k ∈ (∅ : Finmap _) from fun k hk => absurd hk (hempty k))
  have hadmissions : s.outboundAdmissions.keys.card ≤ 0 :=
    card_keys_le (show ∀ k, _ → k ∈ (∅ : Finmap _) from fun k hk => absurd hk (hfree k))
  unfold registerOutbound
  rw [lookup_eq_none.mpr (hempty key), lookup_eq_none.mpr (hfree admission)]
  simp only [he, Bool.not_true, Option.any_none, Bool.false_eq_true, if_false]
  rw [if_neg fun hle => by omega, if_neg fun hle => by omega]

theorem endUnobserved_eq : s.endUnobserved owner now = s ∨ s.endUnobserved owner now = endOutbound := by
  unfold endUnobserved
  split
  · split
    · exact .inr rfl
    · exact .inl rfl
  all_goals exact .inl rfl

theorem notMem_sweep (hg : (system owner).guard s (.sweep now expired))
    (hs : ∀ delivery ∈ s.outboundAttempts, s.Silent delivery now) (delivery : OutboundRelayKey) :
    delivery ∉ (s.sweep owner now expired).outboundAttempts := by
  intro hmem
  obtain ⟨attempt, ha⟩ := mem_iff.mp hmem
  have hsweep : (s.sweep owner now expired).outboundAttempts =
      expired.foldl (fun m k => m.erase (id k)) (s.endUnobserved owner now).outboundAttempts :=
    (List.foldl_hom outboundAttempts fun _ _ => rfl).symm
  rw [hsweep, lookup_foldl_erase, List.map_id] at ha
  split at ha
  · cases ha
  rename_i hnot
  refine hnot ((hg delivery).mpr ?_)
  rcases (endUnobserved_eq : s.endUnobserved owner now = s ∨ _) with he | he <;> rw [he] at ha ⊢
  · exact hs delivery (mem_iff.mpr ⟨attempt, ha⟩)
  · cases ha

def single : OutboundOwner := ⟨1, 0, Nat.one_pos⟩

def delivery (sequence : Nat) : OutboundRelayKey := ⟨"peer", 0, sequence⟩

end OutboundRelays

end Nervix.Interconnect
