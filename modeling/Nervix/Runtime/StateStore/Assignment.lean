import Nervix.Theory.Interleaving

/-!
# The assignment authority of a runtime state

A `StateAssignmentAuthority` fences every operation over one runtime state to the assignment it was
granted under. The assignment in force is one packed word, the `binding`.
-/

namespace Nervix.Assignment

open Multiset

inductive StateCapability
  | read
  | originate
  | installSnapshot
  deriving DecidableEq, Repr

namespace StateCapability

def tag : StateCapability → UInt64
  | read => 0
  | originate => 1
  | installSnapshot => 2

def fromRepr : UInt64 → Option StateCapability
  | 0 => some read
  | 1 => some originate
  | 2 => some installSnapshot
  | _ => none

theorem tag_lt (c : StateCapability) : c.tag.toNat < 4 := by
  cases c <;> decide

end StateCapability

structure StateReplicationRoles where
  primaryNode : Option String := none
  replicaNodes : Finset String := ∅
  requiredReplicaAcks : Nat := 0
  deriving DecidableEq

def StateReplicationRoles.localCapability (roles : StateReplicationRoles)
    (localNode : Option String) : StateCapability :=
  if roles.primaryNode.isNone && roles.replicaNodes = ∅ then .originate
  else if roles.primaryNode = localNode then .originate
  else if localNode.any (· ∈ roles.replicaNodes) then .installSnapshot
  else .read

def checkedAdd (a b : UInt64) : Option UInt64 :=
  if a.toNat + b.toNat < 2 ^ 64 then some (a + b) else none

def checkedMul (a b : UInt64) : Option UInt64 :=
  if a.toNat * b.toNat < 2 ^ 64 then some (a * b) else none

theorem toNat_of_checkedAdd (h : checkedAdd a b = some r) : r.toNat = a.toNat + b.toNat := by
  unfold checkedAdd at h
  split at h
  · rename_i hlt
    cases h
    rw [UInt64.toNat_add, Nat.mod_eq_of_lt hlt]
  · cases h

theorem toNat_of_checkedMul (h : checkedMul a b = some r) : r.toNat = a.toNat * b.toNat := by
  unfold checkedMul at h
  split at h
  · rename_i hlt
    cases h
    rw [UInt64.toNat_mul, Nat.mod_eq_of_lt hlt]
  · cases h

def CAPABILITY_TAG_BITS : UInt64 := 2
def CAPABILITY_TAG_SLOTS : UInt64 := 1 <<< CAPABILITY_TAG_BITS
def CAPABILITY_TAG_MASK : UInt64 := (1 <<< CAPABILITY_TAG_BITS) - 1

@[ext] structure StateAssignmentBinding where
  packed : UInt64
  deriving DecidableEq, Repr

structure StateAssignmentToken where
  binding : StateAssignmentBinding
  deriving DecidableEq, Repr

namespace StateAssignmentBinding

section
variable (b : StateAssignmentBinding) (c : StateCapability)

def unassigned : StateAssignmentBinding := ⟨0⟩

def generation : UInt64 := b.packed >>> CAPABILITY_TAG_BITS

def capability : Option StateCapability :=
  StateCapability.fromRepr (b.packed &&& CAPABILITY_TAG_MASK)

def grants : Bool :=
  b.packed &&& CAPABILITY_TAG_MASK == c.tag

def tokenFor : Option StateAssignmentToken :=
  if b.grants c then some ⟨b⟩ else none

def successor : Option StateAssignmentBinding := do
  let generation ← checkedAdd b.generation 1
  let scaled ← checkedMul generation CAPABILITY_TAG_SLOTS
  return ⟨scaled ||| c.tag⟩

end

theorem generation_toNat (b : StateAssignmentBinding) :
    b.generation.toNat = b.packed.toNat / 4 := by
  simp [generation, CAPABILITY_TAG_BITS, UInt64.toNat_shiftRight, Nat.shiftRight_eq_div_pow]

variable {b b' : StateAssignmentBinding} {c : StateCapability}

theorem packed_of_successor (h : b.successor c = some b') :
    b'.packed.toNat = (b.generation.toNat + 1) * 4 + c.tag.toNat := by
  simp only [successor, Option.bind_eq_bind, Option.bind_eq_some_iff, Option.pure_def,
    Option.some.injEq] at h
  obtain ⟨g, hg, scaled, hs, rfl⟩ := h
  have hg := toNat_of_checkedAdd hg
  have hs := toNat_of_checkedMul hs
  rw [UInt64.toNat_or, hs, hg]
  have hor := Nat.shiftLeft_add_eq_or_of_lt (i := 2) c.tag_lt (b.generation.toNat + 1)
  rw [Nat.shiftLeft_eq] at hor
  exact hor.symm

theorem generation_of_successor (h : b.successor c = some b') :
    b'.generation.toNat = b.generation.toNat + 1 := by
  have := c.tag_lt
  rw [generation_toNat b', packed_of_successor h]
  omega

end StateAssignmentBinding

structure StateAdmissions where
  evenGeneration : Nat := 0
  oddGeneration : Nat := 0
  deriving DecidableEq, Repr

namespace StateAdmissions

section
variable (a : StateAdmissions) (generation : UInt64)

def ofGeneration : Nat :=
  if generation.toNat % 2 = 0 then a.evenGeneration else a.oddGeneration

def admits : StateAdmissions :=
  if generation.toNat % 2 = 0 then { a with evenGeneration := a.evenGeneration + 1 }
  else { a with oddGeneration := a.oddGeneration + 1 }

def leave : StateAdmissions :=
  if generation.toNat % 2 = 0 then { a with evenGeneration := a.evenGeneration - 1 }
  else { a with oddGeneration := a.oddGeneration - 1 }

def share (g g' : UInt64) : Nat := if g.toNat % 2 = g'.toNat % 2 then 1 else 0

end

@[simp] theorem share_self (g : UInt64) : share g g = 1 := if_pos rfl

end StateAdmissions

inductive Request (α : Type*)
  | rebind (roles : StateReplicationRoles) (localNode : Option String)
  | authorize (token : StateAssignmentToken) (required : StateCapability) (action : α)
  | authorizeExclusive (token : StateAssignmentToken) (required : StateCapability) (action : α)
  | serializeWith (action : StateAssignmentBinding → α)

structure Client (δ α : Type*) where
  step : δ → α → δ → α → Prop
  done : α → Prop
  request : δ → Request α → Prop
  after : δ → α → α → Prop
  next : α → Request α → Prop

structure State (δ : Type*) where
  binding : StateAssignmentBinding := .unassigned
  roles : StateReplicationRoles := {}
  admissions : StateAdmissions := {}
  barrier : Bool := false
  published : List StateAssignmentBinding := [.unassigned]
  data : δ

inductive Call (α : Type*)
  | requested (request : Request α)
  | rebinding (roles : StateReplicationRoles) (localNode : Option String)
  | assigning (roles : StateReplicationRoles) (superseded binding : StateAssignmentBinding)
  | publishing (superseded binding : StateAssignmentBinding)
  | draining (superseded binding : StateAssignmentBinding)
  | unbarring (binding : StateAssignmentBinding)
  | rebound (binding : StateAssignmentBinding)
  | panicking
  | panicked
  | comparing (token : StateAssignmentToken) (required : StateCapability) (action : α)
  | acting (token : StateAssignmentToken) (admitted : StateAssignmentBinding) (action : α)
  | refusing (token : StateAssignmentToken) (required : StateCapability)
  | leaving (token : StateAssignmentToken) (action : α)
  | excluding (token : StateAssignmentToken) (required : StateCapability) (action : α)
  | actingAlone (token : StateAssignmentToken) (admitted : StateAssignmentBinding) (action : α)
  | refusingAlone (required : StateCapability)
  | serializing (action : StateAssignmentBinding → α)
  | actingSerial (admitted : StateAssignmentBinding) (action : α)
  | unlocking (action : α)
  | returned (action : α)
  | refused (required : StateCapability)

open Call Request
variable {δ α : Type*}

inductive CallStep (A : Client δ α) (s : State δ) : Call α → State δ → Call α → Prop
  -- `rebind`
  | lockRebind : s.barrier = false →
      CallStep A s (requested (rebind roles node)) { s with barrier := true } (rebinding roles node)
  | supersede : s.binding.successor (roles.localCapability node) = some b →
      CallStep A s (rebinding roles node) s (assigning roles s.binding b)
  | overflow : s.binding.successor (roles.localCapability node) = none →
      CallStep A s (rebinding roles node) s panicking
  | unwind : CallStep A s panicking { s with barrier := false } panicked
  | storeRoles : CallStep A s (assigning roles o b) { s with roles := roles } (publishing o b)
  | storeBinding : CallStep A s (publishing o b)
      { s with binding := b, published := b :: s.published } (draining o b)
  | spin : s.admissions.ofGeneration o.generation ≠ 0 → CallStep A s (draining o b) s (draining o b)
  | drained : s.admissions.ofGeneration o.generation = 0 →
      CallStep A s (draining o b) s (unbarring b)
  | unlockRebind : CallStep A s (unbarring b) { s with barrier := false } (rebound b)
  -- `authorize`
  | notGranted : token.binding.grants required = false →
      CallStep A s (requested (authorize token required a)) s (refused required)
  | admits : token.binding.grants required = true →
      CallStep A s (requested (authorize token required a))
        { s with admissions := s.admissions.admits token.binding.generation }
        (comparing token required a)
  | stale : s.binding.packed ≠ token.binding.packed →
      CallStep A s (comparing token required a) s (refusing token required)
  | current : s.binding.packed = token.binding.packed →
      CallStep A s (comparing token required a) s (acting token s.binding a)
  | act : A.step s.data a data a' →
      CallStep A s (acting token b a) { s with data := data } (acting token b a')
  | finish : A.done a → CallStep A s (acting token b a) s (leaving token a)
  | leave : CallStep A s (leaving token a)
      { s with admissions := s.admissions.leave token.binding.generation } (returned a)
  | refuse : CallStep A s (refusing token required)
      { s with admissions := s.admissions.leave token.binding.generation } (refused required)
  -- `authorize_exclusive`
  | lockExclusive : s.barrier = false →
      CallStep A s (requested (authorizeExclusive token required a)) { s with barrier := true }
        (excluding token required a)
  | staleExclusive : (token.binding.grants required = false ∨
        s.binding.packed ≠ token.binding.packed) →
      CallStep A s (excluding token required a) s (refusingAlone required)
  | currentExclusive : token.binding.grants required = true →
      s.binding.packed = token.binding.packed →
      CallStep A s (excluding token required a) s (actingAlone token s.binding a)
  | actAlone : A.step s.data a data a' →
      CallStep A s (actingAlone token b a) { s with data := data } (actingAlone token b a')
  | finishAlone : A.done a → CallStep A s (actingAlone token b a) s (unlocking a)
  | refuseAlone : CallStep A s (refusingAlone required) { s with barrier := false }
      (refused required)
  -- `serialize_with`
  | lockSerial : s.barrier = false →
      CallStep A s (requested (serializeWith f)) { s with barrier := true } (serializing f)
  | loadSerial : CallStep A s (serializing f) s (actingSerial s.binding (f s.binding))
  | actSerial : A.step s.data a data a' →
      CallStep A s (actingSerial b a) { s with data := data } (actingSerial b a')
  | finishSerial : A.done a → CallStep A s (actingSerial b a) s (unlocking a)
  | unlock : CallStep A s (unlocking a) { s with barrier := false } (returned a)
  -- The caller goes on with the result of its action.
  | after : A.after s.data a a' → CallStep A s (returned a) s (returned a')
  | next : A.next a r → CallStep A s (returned a) s (requested r)

def machine (A : Client δ α) : Machine (State δ) (Call α) where
  start s c := ∃ r, A.request s.data r ∧ c = requested r
  step s c s' next := ∃ c', CallStep A s c s' c' ∧ next = {c'}

def init (d : δ) : Config (State δ) (Call α) := ⟨{ data := d }, 0⟩

def Call.counted (g : UInt64) : Call α → Nat
  | comparing t _ _ | acting t _ _ | refusing t _ | leaving t _ =>
    StateAdmissions.share t.binding.generation g
  | _ => 0

def Call.holds : Call α → Nat
  | rebinding .. | assigning .. | publishing .. | draining .. | unbarring _ | panicking
  | excluding .. | actingAlone .. | refusingAlone _ | serializing _ | actingSerial ..
  | unlocking _ => 1
  | _ => 0

variable {A : Client δ α} {d₀ : δ} {c c' : Config (State δ) (Call α)}
  {b b' : StateAssignmentBinding}

theorem counted_eq_admissions (h : (machine A).Reachable (init d₀) c) (g : UInt64) :
    weigh (counted g) c.calls = c.shared.admissions.ofGeneration g := by
  refine h.inv ?_ (fun ih hs => ?_) fun {s c s' next cs} ih hs => ?_
  · simp [init, StateAdmissions.ofGeneration]
  · obtain ⟨r, -, rfl⟩ := hs
    simpa [counted] using ih
  · obtain ⟨c', hs, rfl⟩ := hs
    cases hs with
    | admits =>
      simp only [weigh_cons, weigh_add, weigh_singleton, counted, Nat.zero_add] at ih ⊢
      rw [ih]
      grind [StateAdmissions.ofGeneration, StateAdmissions.admits,
        StateAdmissions.share]
    | leave | refuse =>
      simp only [weigh_cons, weigh_add, weigh_singleton, counted, Nat.zero_add] at ih ⊢
      grind [StateAdmissions.ofGeneration, StateAdmissions.leave,
        StateAdmissions.share]
    | _ => simpa [counted] using ih

theorem holds_eq_barrier (h : (machine A).Reachable (init d₀) c) :
    weigh holds c.calls = c.shared.barrier.toNat := by
  refine h.inv rfl (fun ih hs => ?_) fun {s c s' next cs} ih hs => ?_
  · obtain ⟨r, -, rfl⟩ := hs
    simpa [holds] using ih
  · obtain ⟨c', hs, rfl⟩ := hs
    have hle := Bool.toNat_le s.barrier
    cases hs with
    | lockRebind hb | lockExclusive hb | lockSerial hb =>
      simp_all [holds]
    | unwind | unlockRebind | refuseAlone | unlock =>
      simp only [weigh_cons, weigh_add, weigh_singleton, holds] at ih ⊢
      simp only [Bool.toNat_false]
      omega
    | _ => simpa [holds] using ih

theorem holds_of_mem
    (h : (machine A).Reachable (init d₀) ⟨s, d ::ₘ cs⟩) (hd : d.holds = 1) (he : e ∈ cs) :
    e.holds = 0 := by
  have hsum := holds_eq_barrier h
  have hle := Bool.toNat_le s.barrier
  have hmem : e.holds ≤ weigh holds cs := le_weigh_of_mem he
  simp only [weigh_cons] at hsum
  omega

def Call.runsUnder : Call α → Option StateAssignmentBinding
  | acting _ b _ | actingAlone _ b _ | actingSerial b _ => some b
  | _ => none

def Call.Knows (binding : StateAssignmentBinding) : Call α → Prop
  | assigning _ o b | publishing o b =>
    o = binding ∧ b.generation.toNat = o.generation.toNat + 1
  | draining _ b | unbarring b | actingSerial b _ => b = binding
  | rebound b => b.generation.toNat ≤ binding.generation.toNat
  | acting t b _ => t.binding = b
  | actingAlone t b _ => t.binding = b ∧ b = binding
  | _ => True

structure Fence (c : Config (State δ) (Call α)) : Prop where
  knows : ∀ d ∈ c.calls, d.Knows c.shared.binding
  running : ∀ d ∈ c.calls, ∀ b, d.runsUnder = some b →
    b = c.shared.binding ∨ ∃ b', draining b b' ∈ c.calls
  floor : ∀ b, rebound b ∈ c.calls → ∀ d ∈ c.calls, ∀ b', d.runsUnder = some b' →
    b.generation.toNat ≤ b'.generation.toNat
  recorded : ∀ d ∈ c.calls, ∀ b, d.runsUnder = some b → b ∈ c.shared.published
  newest : c.shared.published.head? = some c.shared.binding
  increasing : c.shared.published.Pairwise fun newer older =>
    older.generation.toNat < newer.generation.toNat

namespace Fence
variable {s s' : State δ} {d d' e : Call α} {cs : Multiset (Call α)}

theorem init (d₀ : δ) : Fence (init d₀ : Config (State δ) (Call α)) where
  knows := by simp [Assignment.init]
  running := by simp [Assignment.init]
  floor := by simp [Assignment.init]
  recorded := by simp [Assignment.init]
  newest := rfl
  increasing := List.pairwise_singleton ..

theorem begin (H : Fence ⟨s, cs⟩) : Fence ⟨s, requested r ::ₘ cs⟩ where
  knows := by simpa [Knows] using H.knows
  running := by simpa [runsUnder] using H.running
  floor := by simpa [runsUnder] using H.floor
  recorded := by simpa [runsUnder] using H.recorded
  newest := H.newest
  increasing := H.increasing

section
variable (H : Fence ⟨s, d ::ₘ cs⟩) (hb : s'.binding = s.binding) (hp : s'.published = s.published)
  (hk : d'.Knows s.binding) (hr : ∀ b, d'.runsUnder = some b → d.runsUnder = some b ∨ b = s.binding)
include H hb hp hk hr

theorem keep (hw : ∀ e ∈ d ::ₘ cs, ∀ b, e.runsUnder = some b →
      b = s.binding ∨ ∃ b', draining b b' ∈ {d'} + cs)
    (hret : ∀ b, d' ≠ rebound b) : Fence ⟨s', {d'} + cs⟩ := by
  have old : ∀ e ∈ {d'} + cs, ∀ b, e.runsUnder = some b →
      (∃ e ∈ d ::ₘ cs, e.runsUnder = some b) ∨ b = s.binding := by
    intro e he b hb
    rcases mem_cons.mp he with rfl | he
    · exact (hr b hb).imp_left fun h => ⟨d, mem_cons_self .., h⟩
    · exact .inl ⟨e, mem_cons_of_mem he, hb⟩
  refine ⟨?_, ?_, ?_, ?_, hb ▸ hp ▸ H.newest, hp ▸ H.increasing⟩
  · intro e he
    rw [show (_ : State δ).binding = _ from hb]
    rcases mem_cons.mp he with rfl | he
    · exact hk
    · exact H.knows e (mem_cons_of_mem he)
  · intro e he b hrun
    rw [show (_ : State δ).binding = _ from hb]
    rcases old e he b hrun with ⟨e', he', hrun'⟩ | rfl
    · exact hw e' he' b hrun'
    · exact .inl rfl
  · intro b hreb e he b' hrun
    rcases mem_cons.mp hreb with heq | hreb
    · exact absurd heq.symm (hret b)
    · have hreb := mem_cons_of_mem (b := d) hreb
      rcases old e he b' hrun with ⟨e', he', hrun'⟩ | rfl
      · exact H.floor b hreb e' he' b' hrun'
      · exact H.knows _ hreb
  · intro e he b hrun
    rw [show (_ : State δ).published = _ from hp]
    rcases old e he b hrun with ⟨e', he', hrun'⟩ | rfl
    · exact H.recorded e' he' b hrun'
    · exact List.mem_of_mem_head? H.newest

theorem frame (hw : ∀ o b, d = draining o b → d' = draining o b) (hret : ∀ b, d' ≠ rebound b) :
    Fence ⟨s', {d'} + cs⟩ := by
  refine H.keep hb hp hk hr (fun e he b hrun => ?_) hret
  refine (H.running e he b hrun).imp_right fun ⟨b', hmem⟩ => ⟨b', ?_⟩
  rcases mem_cons.mp hmem with heq | hmem
  · exact mem_cons.mpr (.inl (hw _ _ heq.symm).symm)
  · exact mem_cons_of_mem hmem

end

theorem eq_binding (H : Fence ⟨s, cs⟩) (hn : ∀ o b, draining o b ∉ cs) (he : e ∈ cs)
    (hrun : e.runsUnder = some b) : b = s.binding :=
  (H.running e he b hrun).resolve_right fun ⟨b', h⟩ => hn b b' h

theorem not_draining (h : (machine A).Reachable (Assignment.init d₀) ⟨s, d ::ₘ cs⟩)
    (hd : d.holds = 1) (o b : StateAssignmentBinding) : draining o b ∉ cs :=
  fun hm => absurd (holds_of_mem h hd hm) (by simp [holds])

theorem publish (h : (machine A).Reachable (Assignment.init d₀) ⟨s, publishing o b ::ₘ cs⟩)
    (H : Fence ⟨s, publishing o b ::ₘ cs⟩) :
    Fence ⟨{ s with binding := b, published := b :: s.published }, {draining o b} + cs⟩ := by
  obtain ⟨ho, hgen⟩ : o = s.binding ∧ _ := H.knows _ (mem_cons_self ..)
  subst ho
  have hnone := not_draining h (by simp [Call.holds])
  have hother : ∀ e ∈ cs, ∀ b', e.runsUnder = some b' → b' = s.binding := by
    intro e he b' hrun
    refine H.eq_binding (fun o b hm => ?_) (mem_cons_of_mem he) hrun
    rcases mem_cons.mp hm with heq | hm
    · cases heq
    · exact hnone o b hm
  refine ⟨?_, ?_, ?_, ?_, rfl, List.pairwise_cons.mpr ⟨fun b' hb' => ?_, H.increasing⟩⟩
  · intro e he
    rcases mem_cons.mp he with rfl | he
    · rfl
    · have hk := H.knows e (mem_cons_of_mem he)
      have h0 := holds_of_mem h (by simp [Call.holds]) he
      cases e with
      | rebound b' => exact Nat.le_trans hk (Nat.le_of_lt (by simp only [hgen]; omega))
      | acting => exact hk
      | _ => simp [Call.Knows, Call.holds] at h0 ⊢
  · intro e he b' hrun
    rcases mem_cons.mp he with rfl | he
    · simp [Call.runsUnder] at hrun
    · exact .inr ⟨b, mem_cons.mpr (.inl (by rw [hother e he b' hrun]))⟩
  · intro b₁ hreb e he b' hrun
    rcases mem_cons.mp hreb with heq | hreb
    · cases heq
    rcases mem_cons.mp he with rfl | he
    · simp [Call.runsUnder] at hrun
    · exact H.floor b₁ (mem_cons_of_mem hreb) e (mem_cons_of_mem he) b' hrun
  · intro e he b' hrun
    rcases mem_cons.mp he with rfl | he
    · simp [Call.runsUnder] at hrun
    · exact List.mem_cons_of_mem _ (H.recorded e (mem_cons_of_mem he) b' hrun)
  · obtain ⟨tail, ht⟩ := List.head?_eq_some_iff.mp H.newest
    have hinc := H.increasing
    simp only at ht hinc
    rw [ht] at hb' hinc
    rcases List.mem_cons.mp hb' with rfl | hb'
    · omega
    · have := (List.pairwise_cons.mp hinc).1 b' hb'
      omega

theorem drain (h : (machine A).Reachable (Assignment.init d₀) ⟨s, draining o b ::ₘ cs⟩)
    (H : Fence ⟨s, draining o b ::ₘ cs⟩)
    (hzero : s.admissions.ofGeneration o.generation = 0) : Fence ⟨s, {unbarring b} + cs⟩ := by
  have hnone := not_draining h (by simp [Call.holds])
  have hk : b = s.binding := H.knows _ (mem_cons_self ..)
  refine H.keep rfl rfl hk (by simp [Call.runsUnder]) (fun e he b₁ hrun => ?_) (by simp)
  refine .inl ((H.running e he b₁ hrun).resolve_right ?_)
  rintro ⟨b₂, hm⟩
  rcases mem_cons.mp hm with heq | hm
  · cases heq
    rcases mem_cons.mp he with rfl | he
    · simp [Call.runsUnder] at hrun
    -- An action under the superseded binding would still be counted in under its generation.
    have hke := H.knows e (mem_cons_of_mem he)
    have h0 := holds_of_mem h (by simp [Call.holds]) he
    have hcount := counted_eq_admissions h o.generation
    have hle : e.counted o.generation ≤ weigh (Call.counted o.generation) cs :=
      le_weigh_of_mem he
    simp only [weigh_cons] at hcount
    cases e with
    | acting t b₂ a =>
      cases hrun
      cases hke
      simp only [Call.counted, StateAdmissions.share_self] at hle
      omega
    | _ => simp [Call.runsUnder, Call.holds] at hrun h0
  · exact hnone b₁ b₂ hm

theorem unlock (h : (machine A).Reachable (Assignment.init d₀) ⟨s, unbarring b ::ₘ cs⟩)
    (H : Fence ⟨s, unbarring b ::ₘ cs⟩) :
    Fence ⟨{ s with barrier := false }, {rebound b} + cs⟩ := by
  have hk : b = s.binding := H.knows _ (mem_cons_self ..)
  have hother : ∀ e ∈ unbarring b ::ₘ cs, ∀ b', e.runsUnder = some b' → b' = s.binding := by
    intro e he b' hrun
    refine H.eq_binding (fun o b₁ hm => ?_) he hrun
    rcases mem_cons.mp hm with heq | hm
    · cases heq
    · exact not_draining h (by simp [Call.holds]) o b₁ hm
  have hold : ∀ e ∈ {rebound b} + cs, ∀ b', e.runsUnder = some b' → e ∈ unbarring b ::ₘ cs := by
    intro e he b' hrun
    rcases mem_cons.mp he with rfl | he
    · simp [Call.runsUnder] at hrun
    · exact mem_cons_of_mem he
  refine ⟨?_, ?_, ?_, ?_, H.newest, H.increasing⟩
  · intro e he
    rcases mem_cons.mp he with rfl | he
    · exact hk ▸ Nat.le_refl _
    · exact H.knows e (mem_cons_of_mem he)
  · exact fun e he b' hrun => .inl (hother e (hold e he b' hrun) b' hrun)
  · intro b₁ hreb e he b' hrun
    rw [hother e (hold e he b' hrun) b' hrun]
    rcases mem_cons.mp hreb with heq | hreb
    · cases heq; exact hk ▸ Nat.le_refl _
    · exact H.knows _ (mem_cons_of_mem hreb)
  · exact fun e he b' hrun => H.recorded e (hold e he b' hrun) b' hrun

theorem of_reachable (h : (machine A).Reachable (Assignment.init d₀) c) : Fence c := by
  suffices (machine A).Reachable (Assignment.init d₀) c ∧ Fence c from this.2
  refine h.inv ⟨.refl, .init d₀⟩ (fun {s c cs} ih hs => ⟨ih.1.start hs, ?_⟩)
    fun {s c s' next cs} ih hs => ⟨ih.1.step hs, ?_⟩
  · obtain ⟨r, -, rfl⟩ := hs
    exact ih.2.begin
  · obtain ⟨c', hs, rfl⟩ := hs
    obtain ⟨hr, H⟩ := ih
    have hk := H.knows c (mem_cons_self ..)
    cases hs with
    | storeBinding => exact H.publish hr
    | drained hzero => exact H.drain hr hzero
    | unlockRebind => exact H.unlock hr
    | supersede hb =>
      have hgen := StateAssignmentBinding.generation_of_successor hb
      exact H.frame rfl rfl ⟨rfl, hgen⟩ (by simp [Call.runsUnder]) (by simp) (by simp)
    | current hb | currentExclusive _ hb =>
      have htok := StateAssignmentBinding.ext hb
      refine H.frame rfl rfl ?_ ?_ ?_ ?_ <;> simp [Call.runsUnder, Call.Knows, htok]
    | _ =>
      refine H.frame rfl rfl ?_ ?_ ?_ ?_ <;> simp_all [Call.runsUnder, Call.Knows]

end Fence

theorem binding_of_reachable (h : (machine A).Reachable (init d₀) c)
    (h' : (machine A).Reachable c c') : c'.shared.binding = c.shared.binding ∨
      c.shared.binding.generation.toNat < c'.shared.binding.generation.toNat := by
  suffices (machine A).Reachable (init d₀) c' ∧ (c'.shared.binding = c.shared.binding ∨
    c.shared.binding.generation.toNat < c'.shared.binding.generation.toNat) from this.2
  refine h'.inv ⟨h, .inl rfl⟩ (fun ih hs => ⟨ih.1.start hs, ih.2⟩) fun ih hs => ⟨ih.1.step hs, ?_⟩
  obtain ⟨c', hs, rfl⟩ := hs
  obtain ⟨hr, ih⟩ := ih
  cases hs with
  | storeBinding =>
    obtain ⟨ho, hgen⟩ := (Fence.of_reachable hr).knows _ (mem_cons_self ..)
    rcases ih with heq | hlt
    · right; simp only at heq ho ⊢; rw [hgen, ho, heq]; omega
    · right; simp only at hlt ho ⊢; rw [hgen, ho]; omega
  | _ => exact ih

def Call.actsAlone : Call α → Bool
  | actingAlone .. | actingSerial .. => true
  | _ => false

structure Fenced (c : Config (State δ) (Call α)) : Prop where
  admitted : ∀ t b a, acting t b a ∈ c.calls ∨ actingAlone t b a ∈ c.calls →
    t.binding.generation = b.generation ∧ t.binding.capability = b.capability ∧
      b ∈ c.shared.published
  returned : ∀ b, rebound b ∈ c.calls → ∀ d ∈ c.calls, ∀ b', d.runsUnder = some b' →
    b.generation.toNat ≤ b'.generation.toNat
  exclusive : ∀ d ∈ c.calls, d.actsAlone = true → ∀ e ∈ c.calls, ∀ b, e.runsUnder = some b →
    b = c.shared.binding
  increasing : c.shared.published.head? = some c.shared.binding ∧
    c.shared.published.Pairwise fun newer older =>
      older.generation.toNat < newer.generation.toNat

theorem fenced (h : (machine A).Reachable (init d₀) c) : Fenced c := by
  have H := Fence.of_reachable h
  refine ⟨fun t b a hmem => ?_, H.floor, fun d hd halone e he b hrun => ?_, H.newest, H.increasing⟩
  · obtain ⟨rfl, hb⟩ : t.binding = b ∧ b ∈ c.shared.published := by
      rcases hmem with hmem | hmem
      · exact ⟨H.knows _ hmem, H.recorded _ hmem b rfl⟩
      · exact ⟨(H.knows _ hmem).1, H.recorded _ hmem b rfl⟩
    exact ⟨rfl, rfl, hb⟩
  · refine H.eq_binding (fun o b' hm => ?_) he hrun
    obtain ⟨s, calls⟩ := c
    obtain ⟨cs, rfl⟩ := exists_cons_of_mem hd
    have hd1 : d.holds = 1 := by
      cases d <;> simp [Call.actsAlone] at halone <;> rfl
    rcases mem_cons.mp hm with rfl | hm
    · simp [Call.actsAlone] at halone
    · exact Fence.not_draining h hd1 o b' hm

/-- **Rebinding fences every earlier assignment**, whatever the operations behind the authority do.
Every configuration a run reaches is fenced, and a binding that was superseded never comes back. -/
theorem rebind_fences (A : Client δ α) (d₀ : δ) :
    (∀ c, (machine A).Reachable (init d₀) c → Fenced c) ∧
      ∀ c₁ c₂ c₃, (machine A).Reachable (init d₀) c₁ → (machine A).Reachable c₁ c₂ →
        (machine A).Reachable c₂ c₃ → c₂.shared.binding ≠ c₁.shared.binding →
          c₁.shared.binding.generation.toNat < c₂.shared.binding.generation.toNat ∧
            c₃.shared.binding ≠ c₁.shared.binding := by
  refine ⟨fun c h => fenced h, fun c₁ c₂ c₃ h₁ h₂ h₃ hne => ?_⟩
  have hlt := (binding_of_reachable h₁ h₂).resolve_left hne
  refine ⟨hlt, fun heq => ?_⟩
  rcases binding_of_reachable (h₁.trans h₂) h₃ with h | h
  · exact hne (h.symm.trans heq)
  · rw [heq] at h
    omega

def Client.idle : Client Unit Unit where
  step _ _ _ _ := False
  done _ := True
  request _ _ := True
  after _ _ _ := False
  next _ _ := False

def firstBinding : StateAssignmentBinding := ⟨5⟩

theorem rebound_acting_reachable :
    ∃ c, (machine Client.idle).Reachable (init ()) c ∧ rebound firstBinding ∈ c.calls ∧
      acting ⟨firstBinding⟩ firstBinding () ∈ c.calls := by
  have op : ∀ {s c s' c'}, CallStep Client.idle s c s' c' →
      (machine Client.idle).step s c s' {c'} := fun h => ⟨_, h, rfl⟩
  have h : (machine Client.idle).Reachable (init ()) (init ()) := .refl
  have h := h.start (c := requested (rebind {} none)) ⟨_, trivial, rfl⟩
  have h := h.step₁ (op (.lockRebind rfl))
  have h := h.step₁ (op (.supersede (b := firstBinding) rfl))
  have h := h.step₁ (op .storeRoles)
  have h := h.step₁ (op .storeBinding)
  have h := h.step₁ (op (.drained rfl))
  have h := h.step₁ (op .unlockRebind)
  have h := h.start (c := requested (authorize ⟨firstBinding⟩ .originate ())) ⟨_, trivial, rfl⟩
  have h := h.step₁ (op (.admits rfl))
  have h := h.step₁ (op (.current rfl))
  exact ⟨_, h, by simp, by simp⟩

/-- The fence at that run. -/
theorem rebind_fences_first : ∃ c, rebound firstBinding ∈ c.calls ∧
    acting ⟨firstBinding⟩ firstBinding () ∈ c.calls ∧ Fenced (δ := Unit) (α := Unit) c := by
  obtain ⟨c, h, hreb, hact⟩ := rebound_acting_reachable
  exact ⟨c, hreb, hact, (rebind_fences Client.idle ()).1 c h⟩

end Nervix.Assignment
