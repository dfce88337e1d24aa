import Nervix.Runtime.Ack.Handoff

/-!
# When a root releases its trackers

A root counts against a tracker from its registration on. It releases that count once: as it
resolves, when its state drops unresolved, or, for a confirmed root, when its completion drops after
the resolution. Between calls nothing is left half released.
-/

namespace Nervix.Ack

open AckHandoffTracking Proc Pc
open Multiset

variable {spec : Spec} {may : Holder → Op → Prop} {s s' : Cell} {p q : Proc}
  {next cs : Multiset Proc} {c c' : Config Cell Proc}

def Cell.Released (spec : Spec) (s : Cell) : Prop :=
  (s.pending = 0 ∧ spec.release = .atResolution) ∨ (s.dropped = true ∧ s.pending ≠ 0) ∨
    (s.pending = 0 ∧ spec.release = .afterConfirmation ∧ s.receiver = false)

instance : Decidable (s.Released spec) := inferInstanceAs (Decidable (_ ∨ _ ∨ _))

section
variable (spec : Spec) (s : Cell)

def Cell.Confirms : Prop :=
  s.pending = 0 ∧ spec.release = .afterConfirmation

def Cell.Due (ks : List Counter) : Prop :=
  ∀ k ∈ ks, k.count = .outstanding → s.Released spec

def Pc.ReleaseKnows : Pc → Prop
  | takeSender res | send res => res.confirmation ≠ none → s.Confirms spec
  | _ => True

def Proc.ReleaseKnows : Proc → Prop
  | run _ ks pc => s.Due spec ks ∧ pc.ReleaseKnows spec s
  | dropped _ ks | completionDropped ks => s.Due spec ks
  | completion confirmation => confirmation ≠ none → s.Confirms spec
  | _ => True

def Proc.receives : Proc → Nat
  | completion _ => 1
  | _ => 0

end

structure Releases (spec : Spec) (c : Config Cell Proc) : Prop where
  ledger : ∀ k, .dec k ∈ c.shared.ledger → k.count = .outstanding → c.shared.Released spec
  channel : ∀ res, c.shared.channel = some res → c.shared.receiver = true ∧
    (res.confirmation ≠ none → c.shared.Confirms spec)
  calls : ∀ p ∈ c.calls, p.ReleaseKnows spec c.shared

section
variable (hs : ProcStep spec may s p s' next)
include hs

theorem ProcStep.confirms (h : s.Confirms spec) :
    s'.Confirms spec :=
  ⟨hs.pending_eq_zero h.1, h.2⟩

theorem ProcStep.receiver (h : s.receiver = false) :
    s'.receiver = false := by
  cases hs with
  | dropCompletion => rfl
  | _ => exact h

theorem ProcStep.released
    (hlive : p.refs = 1 → s.dropped = false) (h : s.Released spec) : s'.Released spec := by
  rcases h with ⟨h0, hr⟩ | ⟨hd, hne⟩ | ⟨h0, hr, hrecv⟩
  · exact .inl ⟨hs.pending_eq_zero h0, hr⟩
  · refine .inr (.inl ?_)
    cases hs with
    | dropState => exact ⟨rfl, hne⟩
    | resolveComplete | claim | resolvePending | reserve => simp [hlive rfl] at hd
    | _ => exact ⟨hd, hne⟩
  · exact .inr (.inr ⟨hs.pending_eq_zero h0, hr, hs.receiver hrecv⟩)

end

theorem Proc.ReleaseKnows.mono (hr : s.Released spec → s'.Released spec)
    (hc : s.Confirms spec → s'.Confirms spec) (H : p.ReleaseKnows spec s) :
    p.ReleaseKnows spec s' := by
  have hdue : ∀ {ks}, s.Due spec ks → s'.Due spec ks := fun h k hk ho => hr (h k hk ho)
  cases p with
  | run _ ks pc =>
    refine ⟨hdue H.1, ?_⟩
    cases pc with
    | takeSender | send => exact fun h => hc (H.2 h)
    | _ => trivial
  | dropped | completionDropped => exact hdue H
  | completion => exact fun h => hc (H h)
  | _ => trivial

theorem Op.releaseKnows_entry (h : Holder) (op : Op) : (op.entry spec h).ReleaseKnows spec s := by
  have hattach : ∀ n, (h.attach spec n).ReleaseKnows spec s := by
    intro n
    unfold Holder.attach
    split
    · exact ⟨nofun, trivial⟩
    · trivial
  unfold Op.entry
  split <;> (try split) <;> first | exact hattach _ | exact ⟨nofun, trivial⟩ | trivial

theorem Cell.due_decrement : s.Due spec spec.decrementOwnershipHandoffTrackers := by
  intro k hk ho
  simp only [Spec.decrementOwnershipHandoffTrackers, List.mem_map] at hk
  obtain ⟨t, -, rfl⟩ := hk
  cases ho

theorem Cell.due_drop {res : AckResolution} (h : res.confirmation ≠ none → s.Released spec) :
    s.Due spec (res.drop spec) := by
  intro k hk _
  unfold AckResolution.drop at hk
  cases hc : res.confirmation with
  | none => simp [hc] at hk
  | some b => exact h (by simp [hc])

theorem sender_of_taking
    (hr : (machine spec may).Reachable (init spec) ⟨s, run h ks (takeSender res) ::ₘ cs⟩) :
    s.sender = true := by
  have hsender := sender_eq hr
  have hdeliver := delivery_eq hr
  have hle := sending_le_delivering cs
  simp only [weigh_cons, Proc.duty, Pc.sending, Pc.delivering] at hsender hdeliver
  cases hsd : s.sender with
  | true => rfl
  | false =>
    rw [hsd, Bool.toNat_false] at hsender
    split at hdeliver <;> omega

theorem ProcStep.releaseKnows (hs : ProcStep spec may s p s' next) (H : p.ReleaseKnows spec s)
    (hmono : s.Released spec → s'.Released spec)
    (hresolved : p.duty Pc.delivering = 1 → s.pending = 0)
    (htake : ∀ h ks res, p = run h ks (.takeSender res) → s.sender = true)
    (hchannel : ∀ res, s.channel = some res → res.confirmation ≠ none → s.Confirms spec) :
    ∀ q ∈ next, q.ReleaseKnows spec s' := by
  have hafter : s.Confirms spec → s.receiver = false → s.Released spec :=
    fun hc hr => .inr (.inr ⟨hc.1, hc.2, hr⟩)
  cases hs with
  | begin => exact forall_mem_singleton (Op.releaseKnows_entry ..)
  | clone | lost =>
    intro q hq
    simp only [insert_eq_cons, mem_cons, mem_singleton] at hq
    rcases hq with rfl | rfl <;> trivial
  | attached =>
    intro q hq
    rcases mem_add.mp hq with hq | hq
    · cases mem_singleton.mp hq; trivial
    · cases eq_of_mem_replicate hq; trivial
  | drop => exact forall_mem_singleton nofun
  | dropState =>
    refine forall_mem_singleton fun k hk _ => ?_
    split at hk
    · cases hk
    · exact .inr (.inl ⟨rfl, ‹_›⟩)
  | discard | discardCompletion =>
    exact forall_mem_singleton fun k hk ho => hmono (H k (List.mem_cons_of_mem _ hk) ho)
  | release =>
    have hold := Proc.ReleaseKnows.mono hmono id H
    exact forall_mem_singleton ⟨fun k hk => hold.1 k (List.mem_cons_of_mem _ hk), hold.2⟩
  | counted => cases ‹Publishing› <;> exact forall_mem_singleton ⟨nofun, trivial⟩
  | reserve | resolvePending =>
    refine forall_mem_singleton ⟨nofun, ?_⟩
    split <;> trivial
  | resolveComplete | claim =>
    refine forall_mem_singleton ⟨nofun, ?_⟩
    split
    · exact (absurd rfl ·)
    · trivial
  | reserveClosed | reserveOverflow | publishClosed | publishOverflow | publishJoined
  | removeWentIdle => exact forall_mem_singleton ⟨Cell.due_decrement, trivial⟩
  | completeRelease hrel =>
    exact forall_mem_singleton
      ⟨fun _ _ _ => .inl ⟨hresolved rfl, hrel⟩, (absurd rfl ·)⟩
  | completeConfirm hrel =>
    exact forall_mem_singleton ⟨nofun, fun _ => ⟨hresolved rfl, hrel⟩⟩
  | takeSender => exact forall_mem_singleton ⟨nofun, H.2⟩
  | takeNothing h0 => simp [htake _ _ _ rfl] at h0
  | sendClosed hrecv =>
    exact forall_mem_singleton ⟨Cell.due_drop fun hc => hafter (H.2 hc) hrecv, trivial⟩
  | receive hc => exact forall_mem_singleton fun hne => hchannel _ hc hne
  | dropCompletion =>
    refine forall_mem_singleton fun k hk ho => ?_
    suffices hc : s.Confirms spec from .inr (.inr ⟨hc.1, hc.2, rfl⟩)
    rcases List.mem_append.mp hk with hk | hk
    · cases hconf : (‹Option Bool›) with
      | none => simp [hconf] at hk
      | some b => exact H (by simp [hconf])
    · cases hch : s.channel with
      | none => simp [hch] at hk
      | some res =>
        refine hchannel res hch fun hnone => ?_
        simp [hch, AckResolution.drop, hnone] at hk
  | _ => first | exact forall_mem_singleton ⟨nofun, trivial⟩ | exact forall_mem_singleton trivial

theorem Releases.step (hr : (machine spec may).Reachable (init spec) ⟨s, p ::ₘ cs⟩)
    (H : Releases spec ⟨s, p ::ₘ cs⟩) (hs : ProcStep spec may s p s' next) :
    Releases spec ⟨s', next + cs⟩ := by
  have hmem : p ∈ p ::ₘ cs := mem_cons_self ..
  have hmono := hs.released (not_dropped hr hmem)
  have hconfirms := hs.confirms
  have hp := H.calls p hmem
  refine ⟨?_, ?_, ?_⟩
  · intro k hk ho
    have hold : .dec k ∈ s.ledger → s'.Released spec := fun hk => hmono (H.ledger k hk ho)
    cases hs with
    | discard | discardCompletion =>
      rcases List.mem_append.mp hk with hk | hk
      · exact hold hk
      · cases List.mem_singleton.mp hk
        exact hmono (hp k (List.mem_cons_self ..) ho)
    | release =>
      rcases List.mem_append.mp hk with hk | hk
      · exact hold hk
      · cases List.mem_singleton.mp hk
        exact hmono (hp.1 k (List.mem_cons_self ..) ho)
    | count => exact hold (by simpa using hk)
    | _ => exact hold hk
  · intro res hres
    cases hs with
    | send hrecv =>
      cases hres
      exact ⟨hrecv, hp.2⟩
    | receive | dropCompletion => cases hres
    | _ => exact (H.channel res hres).imp_right fun h hc => hconfirms (h hc)
  · intro q hq
    rcases mem_add.mp hq with hq | hq
    · refine hs.releaseKnows hp hmono (fun hd => ?_) (fun h ks res hpe => ?_)
        (fun res hres => (H.channel res hres).2) q hq
      · have hdeliver := delivery_eq hr
        by_contra hne
        simp only [weigh_cons, hd, hne, if_false] at hdeliver
        omega
      · subst hpe
        exact sender_of_taking hr
    · exact (H.calls q (mem_cons_of_mem hq)).mono hmono hconfirms

section
variable (h : (machine spec may).Reachable (init spec) c)
include h

theorem Releases.of_reachable : Releases spec c := by
  suffices (machine spec may).Reachable (init spec) c ∧ Releases spec c from this.2
  refine h.inv ⟨.refl, ?_, nofun, ?_⟩ (fun _ hs => hs.elim)
    fun ih hs => ⟨ih.1.step hs, ih.2.step ih.1 hs⟩
  · intro k hk
    have hreg : spec.register.count (.inc k) = _ ∧ spec.register.count (.dec k) = 0 :=
      Spec.count_register k
    exact absurd hk (List.count_eq_zero.mp hreg.2)
  · intro p hp
    simp only [init, mem_cons, mem_singleton] at hp
    rcases hp with rfl | rfl
    · trivial
    · exact (absurd rfl ·)

theorem receives_eq : weigh Proc.receives c.calls = c.shared.receiver.toNat := by
  have hentry : ∀ h op, (Op.entry spec h op).receives = 0 := by
    intro h op
    unfold Op.entry Holder.attach
    split <;> (try split) <;> rfl
  refine (Nat.zero_add _).symm.trans
    (h.weigh_inv (fun _ => 0) (·.receiver.toNat) Proc.receives rfl (fun _ hs => hs.elim) ?_)
  intro s p s' next cs _ hw hs
  have hle := Bool.toNat_le s.receiver
  cases hs with
  | begin => rw [weigh_singleton, hentry]; rfl
  | dropCompletion =>
    simp only [Proc.receives] at hw
    simp only [weigh_singleton, Proc.receives, Bool.toNat_false]
    omega
  | _ => simp [Proc.receives]

theorem count_inc_outstanding (t : Nat) :
    c.shared.ledger.count (.inc ⟨.outstanding, t⟩) = spec.trackers.count t := by
  refine h.inv ?_ (fun _ hs => hs.elim) fun ih hs => ?_
  · have hreg : spec.register.count (.inc ⟨.outstanding, t⟩) = _ ∧ _ := Spec.count_register _
    exact hreg.1
  · cases hs with
    | discard | discardCompletion | release | count => simpa [List.count_append] using ih
    | _ => exact ih

end

def Proc.resting : Proc → Bool
  | holder _ | lost _ | completion _ | dropped _ [] | completionDropped [] => true
  | _ => false

def counted (spec : Spec) (k : Counter) (c : Config Cell Proc) : Nat :=
  c.shared.held spec k + c.shared.channelHeld spec k + weigh (Proc.held spec k) c.calls

def Proc.confirmation : Proc → Option Bool
  | completion confirmation => confirmation
  | run _ _ (.takeSender res) | run _ _ (.send res) => res.confirmation
  | _ => none

theorem Proc.held_of_resting (hp : p.resting = true) (k : Counter) :
    p.held spec k = spec.confirmed k p.confirmation := by
  unfold Proc.resting at hp
  split at hp <;> first | rfl | cases hp

theorem Releases.confirms (H : Releases spec c) (hp : p ∈ c.calls)
    (hc : p.confirmation ≠ none) : c.shared.Confirms spec := by
  have hk := H.calls p hp
  unfold Proc.confirmation at hc
  split at hc
  · exact hk hc
  · exact hk.2 hc
  · exact hk.2 hc
  · exact absurd rfl hc

theorem counted_of_no_confirmation (hrest : ∀ p ∈ c.calls, p.resting = true)
    (hnone : (∀ res, c.shared.channel = some res → res.confirmation = none) ∧
      ∀ p ∈ c.calls, p.resting = true → p.confirmation = none) (k : Counter) :
    counted spec k c = c.shared.held spec k := by
  have hchannel : c.shared.channelHeld spec k = 0 := by
    unfold Cell.channelHeld
    cases hres : c.shared.channel with
    | none => rfl
    | some res =>
      simp only [Option.elim_some, hnone.1 res hres]
      rfl
  have hcalls : weigh (Proc.held spec k) c.calls = 0 := by
    refine weigh_eq_zero_iff.mpr fun p hp => ?_
    rw [Proc.held_of_resting (hrest p hp), hnone.2 p hp (hrest p hp)]
    rfl
  rw [counted, hchannel, hcalls, Nat.add_zero]

section
variable (h : (machine spec Discipline).Reachable (init spec) c)
include h

theorem outstanding_eq (t : Nat) : c.shared.ledger.count (.dec ⟨.outstanding, t⟩) +
    counted spec ⟨.outstanding, t⟩ c = spec.trackers.count t := by
  have hledger := ledger_eq h ⟨.outstanding, t⟩
  rw [count_inc_outstanding h] at hledger
  unfold counted
  omega

theorem no_confirmation_of_released (hrel : c.shared.Released spec) :
    (∀ res, c.shared.channel = some res → res.confirmation = none) ∧
      ∀ p ∈ c.calls, p.resting = true → p.confirmation = none := by
  have H := Releases.of_reachable h
  have hreceives := receives_eq h
  rcases hrel with ⟨-, hrel⟩ | ⟨-, hne⟩ | ⟨-, -, hrecv⟩
  · have hno : ¬ c.shared.Confirms spec := fun hc => nomatch hrel.symm.trans hc.2
    exact ⟨fun res hres => not_not.mp fun hc => hno ((H.channel res hres).2 hc),
      fun p hp _ => not_not.mp fun hc => hno (H.confirms hp hc)⟩
  · have hno : ¬ c.shared.Confirms spec := fun hc => hne hc.1
    exact ⟨fun res hres => not_not.mp fun hc => hno ((H.channel res hres).2 hc),
      fun p hp _ => not_not.mp fun hc => hno (H.confirms hp hc)⟩
  · refine ⟨fun res hres => (nomatch hrecv.symm.trans (H.channel res hres).1), fun p hp hr => ?_⟩
    have hle : p.receives ≤ weigh Proc.receives c.calls := le_weigh_of_mem hp
    rw [hreceives, hrecv] at hle
    cases p with
    | completion => simp [Proc.receives] at hle
    | run => cases hr
    | _ => rfl

end

def Proc.awaits (p : Proc) : Nat := if p.confirmation = some true then 1 else 0

def WaitedFor (c : Config Cell Proc) : Prop :=
  (c.shared.pending ≠ 0 ∧ c.shared.dropped = false ∧ 0 < weigh Proc.active c.calls) ∨
    c.shared.channel.any (·.confirmation == some true) = true ∨ 0 < weigh Proc.awaits c.calls

instance : Decidable (WaitedFor c) := inferInstanceAs (Decidable (_ ∨ _ ∨ _))

theorem Proc.le_held_of_awaits (t : Nat) (hp : 0 < p.awaits) :
    spec.trackers.count t ≤ p.held spec ⟨.handoff, t⟩ := by
  unfold Proc.awaits at hp
  split at hp
  · rename_i hc
    unfold Proc.confirmation at hc
    split at hc
    · simp [Proc.held, hc, Spec.confirmed]
    · simp [Proc.held, Pc.held, hc, Spec.confirmed]
    · simp [Proc.held, Pc.held, hc, Spec.confirmed]
    · cases hc
  · exact absurd hp (Nat.lt_irrefl 0)

section
variable (h : (machine spec Discipline).Reachable (init spec) c)
  (htracked : spec.untracked = false)
include h htracked

theorem decode_of_pending (hne : c.shared.pending ≠ 0) :
    decode c.shared.handoff = .tracking (weigh Proc.active c.calls) := by
  have hcomplete := complete_eq h htracked
  rw [if_neg hne] at hcomplete
  cases hd : decode c.shared.handoff with
  | complete => simp [hd] at hcomplete
  | tracking a => rw [((Active.of_reachable h htracked).shares a hd).2 hne]

theorem le_counted_handoff (hw : WaitedFor c) (t : Nat) :
    spec.trackers.count t ≤ counted spec ⟨.handoff, t⟩ c := by
  unfold counted
  rcases hw with ⟨hne, hd, hactive⟩ | hch | hawait
  · have hheld : c.shared.held spec ⟨.handoff, t⟩ = spec.trackers.count t := by
      have hpos : weigh Proc.active c.calls ≠ 0 := by omega
      simp [Cell.held, hd, decode_of_pending h htracked hne, hpos]
    omega
  · cases hres : c.shared.channel with
    | none => simp [hres] at hch
    | some res =>
      have hconf : res.confirmation = some true := by simpa [hres] using hch
      have : c.shared.channelHeld spec ⟨.handoff, t⟩ = spec.trackers.count t := by
        simp [Cell.channelHeld, hres, hconf, Spec.confirmed]
      omega
  · obtain ⟨p, hp, hpos⟩ := exists_mem_of_weigh_pos hawait
    have hle : spec.trackers.count t ≤ p.held spec ⟨.handoff, t⟩ := p.le_held_of_awaits t hpos
    have hmem : p.held spec ⟨.handoff, t⟩ ≤ weigh (Proc.held spec ⟨.handoff, t⟩) c.calls :=
      le_weigh_of_mem hp
    omega

section
variable (hrest : ∀ p ∈ c.calls, p.resting = true)
include hrest

theorem closed_of_resting (h0 : c.shared.pending = 0) :
    decode c.shared.handoff = .complete := by
  have hcomplete := complete_eq h htracked
  have hnone : weigh (Proc.duty Pc.completing) c.calls = 0 := by
    refine weigh_eq_zero_iff.mpr fun p hp => ?_
    have hr := hrest p hp
    cases p <;> first | rfl | cases hr
  by_contra hne
  simp [h0, hnone, hne] at hcomplete

theorem counted_handoff_le (t : Nat) :
    counted spec ⟨.handoff, t⟩ c ≤ spec.trackers.count t := by
  by_cases h0 : c.shared.pending = 0
  · have hconf : ∀ confirmation, spec.confirmed ⟨.handoff, t⟩ confirmation ≤
        spec.confirmed ⟨.outstanding, t⟩ confirmation := by
      intro confirmation
      rcases confirmation with _ | _ | _ <;> simp [Spec.confirmed]
    have hchannel : c.shared.channelHeld spec ⟨.handoff, t⟩ ≤
        c.shared.channelHeld spec ⟨.outstanding, t⟩ := by
      unfold Cell.channelHeld
      cases c.shared.channel with
      | none => exact Nat.le_refl _
      | some res => exact hconf _
    have hcalls : weigh (Proc.held spec ⟨.handoff, t⟩) c.calls ≤
        weigh (Proc.held spec ⟨.outstanding, t⟩) c.calls := by
      refine weigh_le_weigh fun p hp => ?_
      rw [Proc.held_of_resting (hrest p hp), Proc.held_of_resting (hrest p hp)]
      exact hconf _
    have hheld : c.shared.held spec ⟨.handoff, t⟩ = 0 := by
      simp [Cell.held, h0, closed_of_resting h htracked hrest h0]
    have hout := outstanding_eq h t
    unfold counted at hout ⊢
    omega
  · have H := Releases.of_reachable h
    have hno : ¬ c.shared.Confirms spec := fun hc => h0 hc.1
    rw [counted_of_no_confirmation hrest
      ⟨fun res hres => not_not.mp fun hc => hno ((H.channel res hres).2 hc),
        fun p hp _ => not_not.mp fun hc => hno (H.confirms hp hc)⟩]
    unfold Cell.held
    split
    · exact Nat.zero_le _
    · split <;> simp

theorem counted_handoff_eq (t : Nat) :
    counted spec ⟨.handoff, t⟩ c = if WaitedFor c then spec.trackers.count t else 0 := by
  split
  · rename_i hw
    exact Nat.le_antisymm (counted_handoff_le h htracked hrest t)
      (le_counted_handoff h htracked hw t)
  · rename_i hw
    simp only [WaitedFor, not_or, not_and, Nat.not_lt, Nat.le_zero] at hw
    obtain ⟨hactive, hch, hawait⟩ := hw
    have hheld : c.shared.held spec ⟨.handoff, t⟩ = 0 := by
      unfold Cell.held
      cases hd : c.shared.dropped with
      | true => rfl
      | false =>
        by_cases h0 : c.shared.pending = 0
        · simp [h0, closed_of_resting h htracked hrest h0]
        · simp [decode_of_pending h htracked h0, hactive h0 hd]
    have hchannel : c.shared.channelHeld spec ⟨.handoff, t⟩ = 0 := by
      unfold Cell.channelHeld
      cases hres : c.shared.channel with
      | none => rfl
      | some res =>
        rcases hc : res.confirmation with _ | _ | _ <;> simp_all [Spec.confirmed]
    have hcalls : weigh (Proc.held spec ⟨.handoff, t⟩) c.calls = 0 := by
      refine weigh_eq_zero_iff.mpr fun p hp => ?_
      have hp0 : p.awaits = 0 := weigh_eq_zero_iff.mp hawait p hp
      rw [Proc.held_of_resting (hrest p hp)]
      unfold Proc.awaits at hp0
      rcases hc : p.confirmation with _ | _ | _ <;> simp_all [Spec.confirmed]
    rw [counted, hheld, hchannel, hcalls]

end

end

end Nervix.Ack
