import Nervix.Runtime.Ack.Root

/-!
# What the words of a root count

The processes of a root are weighed by what they hold: unresolved shares, active shares, the duty to
deliver the resolution, and counts of the trackers. The words of the root are then sums over its
processes, and a step moves weight between a word and the process that performs it.
-/

namespace Nervix.Ack

open AckHandoffTracking Proc Pc
open Multiset Proc

variable {spec : Spec} {may : Holder → Op → Prop} {s s' : Cell} {p q : Proc} {next : Multiset Proc}
  {c c' : Config Cell Proc}

theorem ProcStep.pending_eq_zero (hs : ProcStep spec may s p s' next) (h : s.pending = 0) :
    s'.pending = 0 := by
  cases hs with
  | reserve hne _ hp => exact absurd (hp ▸ h) hne
  | resolvePending hp => simp [hp] at h
  | resolveComplete | claim => rfl
  | _ => exact h

structure Holder.Knows (resolved : Prop) (h : Holder) : Prop where
  guards : h.guards ≤ 1
  unreserved : h.share = .unreserved → resolved
  guarded : h.guards ≠ 0 → h.share = .owned ∨ resolved

def Publishing.Knows (h : Holder) : Publishing → Prop
  | attach n => 0 < n
  | unpark => h.guards = 1

def Removing.Knows (h : Holder) : Removing → Prop
  | park => h.share = .owned ∧ h.guards = 0
  | succeed => True

def Return.Knows (resolved : Prop) : Return → Prop
  | attached _ false => resolved
  | _ => True

def Pc.Knows (resolved : Prop) (h : Holder) : Pc → Prop
  | reserveLoad n => 0 < n
  | reserveCas n current => 0 < n ∧ (current = 0 → resolved)
  | publishLoad p | publishCas p _ => p.Knows h
  | removeLoad r | removeCas r _ => r.Knows h
  | resolveLoad | parkIsResolved => h.share ≠ .absent ∧ h.guards = 0
  | resolveCas current => h.share ≠ .absent ∧ h.guards = 0 ∧ (current = 0 → resolved)
  | claimCompletion _ => h.share ≠ .absent
  | progressCount r | progressPending r _ | progressHandoff r _ | progressSend r _ _ | ret r =>
    r.Knows resolved
  | _ => True

def Proc.Knows (spec : Spec) (resolved : Prop) : Proc → Prop
  | holder h | droppingState h | dropped h _ => h.Knows resolved
  | reserving h p counted rest =>
    h.Knows resolved ∧ p.Knows h ∧ counted ++ rest = spec.trackers
  | run h _ pc => h.Knows resolved ∧ pc.Knows resolved h
  | _ => True

section
variable {R R' : Prop} {h : Holder}

theorem Holder.Knows.mono (hR : R → R') (H : h.Knows R) : h.Knows R' :=
  ⟨H.guards, fun hu => hR (H.unreserved hu), fun hg => (H.guarded hg).imp_right hR⟩

theorem Return.Knows.mono (hR : R → R') {r : Return} (H : r.Knows R) : r.Knows R' := by
  unfold Return.Knows at H ⊢
  split at H
  · exact hR H
  · trivial

theorem Pc.Knows.mono (hR : R → R') {pc : Pc} (H : pc.Knows R h) : pc.Knows R' h := by
  unfold Pc.Knows at H ⊢
  split at H <;> grind [Return.Knows.mono]

theorem Proc.Knows.mono (hR : R → R') (H : p.Knows spec R) : p.Knows spec R' := by
  cases p with
  | holder | droppingState | dropped => exact Holder.Knows.mono hR H
  | reserving => exact ⟨H.1.mono hR, H.2⟩
  | run => exact ⟨H.1.mono hR, H.2.mono hR⟩
  | _ => trivial

theorem Holder.Knows.resolved (H : h.Knows R) (hR : h.guards ≠ 0 → R) : h.resolved.Knows R :=
  ⟨H.guards, nofun, fun hg => .inr (hR hg)⟩

theorem Holder.Knows.owned (H : h.Knows R) (ha : h.share ≠ .absent) (hR : ¬ R) :
    h.share = .owned := by
  cases hsh : h.share with
  | absent => exact absurd hsh ha
  | owned => rfl
  | unreserved => exact absurd (H.unreserved hsh) hR

theorem Holder.Knows.unguarded {share : Share} (hs : share = .unreserved → R) :
    Holder.Knows R ⟨share, 0⟩ :=
  ⟨Nat.zero_le _, hs, fun hg => absurd rfl hg⟩

end

theorem Op.knows_entry {h : Holder} {op : Op} (H : h.Knows R) (hc : op.Callable h)
    (hd : op.Disciplined h) : (op.entry spec h).Knows spec R := by
  have hattach : ∀ n, 0 < n → (h.attach spec n).Knows spec R := by
    intro n hn
    unfold Holder.attach
    split
    · exact ⟨H, hn⟩
    · exact ⟨H, hn, rfl⟩
  unfold Op.entry
  split
  · exact hattach _ hc
  · exact ⟨H, hd⟩
  · exact ⟨H, hd⟩
  · exact H
  · exact hattach _ (Nat.succ_pos _)
  · exact ⟨H, hd⟩
  · split
    · exact H
    · exact ⟨H, hd⟩
  · split
    · exact H
    · have : 0 < h.guards := hc
      exact ⟨H, Nat.le_antisymm H.guards this, rfl⟩
  · exact ⟨H, trivial⟩

theorem ProcStep.knows (hs : ProcStep spec Discipline s p s' next)
    (H : p.Knows spec (s.pending = 0)) : ∀ q ∈ next, q.Knows spec (s'.pending = 0) := by
  have hmono := hs.pending_eq_zero
  cases hs with
  | begin hc hd => simpa using Op.knows_entry H hc hd
  | clone => simpa [Proc.Knows] using ⟨H, .unguarded nofun⟩
  | count => simpa [Proc.Knows] using H
  | counted =>
    obtain ⟨hh, hp, -⟩ := H
    refine forall_mem_singleton ?_
    refine ⟨hh, ?_⟩
    cases ‹Publishing› <;> exact hp
  | reserveClosed =>
    refine forall_mem_singleton ?_
    exact ⟨H.1, H.2.2 rfl⟩
  | reserve hne _ hp =>
    refine forall_mem_singleton ?_
    refine ⟨H.1.mono hmono, ?_⟩
    split
    · trivial
    · exact H.2.1
  | publishClosed | publishActivated | publishJoined =>
    refine forall_mem_singleton ?_
    obtain ⟨hh, hp⟩ := H
    cases ‹Publishing› with
    | attach n => exact ⟨hh, trivial⟩
    | unpark =>
      have hg : _ = 1 := hp
      exact ⟨⟨by simp [Publishing.holder, hg], hh.unreserved, by simp [Publishing.holder, hg]⟩,
        trivial⟩
  | publishOverflow =>
    refine forall_mem_singleton ?_
    cases ‹Publishing› <;> exact ⟨H.1, trivial⟩
  | removeWentIdle | remove =>
    refine forall_mem_singleton ?_
    obtain ⟨hh, hp⟩ := H
    cases ‹Removing› with
    | park =>
      obtain ⟨ho, hg⟩ := hp
      exact ⟨⟨by simp [Removing.holder, hg], hh.unreserved, fun _ => .inl ho⟩, trivial⟩
    | succeed => exact ⟨hh, trivial⟩
  | resolveClosed =>
    refine forall_mem_singleton ?_
    exact ⟨H.1.resolved fun _ => H.2.2.2 rfl, trivial⟩
  | resolveComplete hp =>
    refine forall_mem_singleton ?_
    refine ⟨(H.1.mono hmono).resolved fun _ => rfl, ?_⟩
    split <;> trivial
  | resolvePending hp =>
    refine forall_mem_singleton ?_
    refine ⟨(H.1.mono hmono).resolved fun hg => absurd H.2.2.1 hg, ?_⟩
    split <;> trivial
  | claimClosed h0 =>
    refine forall_mem_singleton ?_
    exact ⟨H.1.resolved fun _ => h0, trivial⟩
  | claim =>
    refine forall_mem_singleton ?_
    refine ⟨(H.1.mono hmono).resolved fun _ => rfl, ?_⟩
    split <;> trivial
  | parkUnresolved hne =>
    refine forall_mem_singleton ?_
    obtain ⟨hh, ha, hg⟩ := H
    exact ⟨hh, hh.owned ha hne, hg⟩
  | attached =>
    intro q hq
    rcases mem_add.mp hq with hq | hq
    · cases mem_singleton.mp hq
      exact H.1
    · cases eq_of_mem_replicate hq
      refine .unguarded fun hu => ?_
      split at hu
      · cases hu
      · rename_i hr
        have := H.2
        simp only [Bool.not_eq_true] at hr
        subst hr
        exact this
  | lost => simpa [Proc.Knows] using H.1
  | _ => simp_all [Proc.Knows, Pc.Knows, Return.Knows, Removing.Knows]

theorem knows_of_reachable (h : (machine spec Discipline).Reachable (init spec) c) :
    ∀ p ∈ c.calls, p.Knows spec (c.shared.pending = 0) := by
  refine h.inv ?_ (fun _ hs => hs.elim) fun {s p s' next cs} ih hs q hq => ?_
  · intro p hp
    simp only [init, mem_cons, mem_singleton] at hp
    rcases hp with rfl | rfl
    · exact .unguarded nofun
    · trivial
  · rcases mem_add.mp hq with hq | hq
    · exact ProcStep.knows hs (ih p (mem_cons_self ..)) q hq
    · exact (ih q (mem_cons_of_mem hq)).mono hs.pending_eq_zero

def Holder.live (h : Holder) : Nat := if h.share = .owned then 1 else 0

def Return.live : Return → Nat
  | attached n true | lost n => n
  | _ => 0

def Publishing.live : Publishing → Nat
  | attach n => n
  | unpark => 0

def Pc.live : Pc → Nat
  | publishLoad p | publishCas p _ => p.live
  | progressCount r | progressPending r _ | progressHandoff r _ | progressSend r _ _ | ret r =>
    r.live
  | _ => 0

def Proc.live : Proc → Nat
  | holder h | reserving h _ _ _ | droppingState h | dropped h _ => h.live
  | run h _ pc => h.live + pc.live
  | lost n => n
  | completion _ | completionDropped _ => 0

@[simp] theorem Holder.live_resolved (h : Holder) : h.resolved.live = 0 := rfl

@[simp] theorem Publishing.live_holder (h : Holder) (p : Publishing) :
    (p.holder h).live = h.live := by
  cases p <;> rfl

@[simp] theorem Removing.live_holder (h : Holder) (r : Removing) : (r.holder h).live = h.live := by
  cases r <;> rfl

theorem Cell.length_ended (s : Cell) (h : Holder) (e : End) :
    (s.ended h e).length = s.log.length + h.live := by
  unfold Cell.ended Holder.live
  split <;> simp

theorem Op.live_entry (h : Holder) (op : Op) : (op.entry spec h).live = h.live := by
  unfold Op.entry Holder.attach
  split <;> (try split) <;> simp [Proc.live, Pc.live]

theorem ProcStep.live (hs : ProcStep spec may s p s' next) :
    s'.log.length + weigh Proc.live next + s.live = s.log.length + p.live + s'.live := by
  cases hs with
  | begin => rw [weigh_singleton, Op.live_entry]; rfl
  | reserve =>
    simp only [weigh_singleton, Proc.live]
    split <;> simp [Pc.live, Return.live, Publishing.live] <;> omega
  | publishClosed | publishActivated | publishJoined | publishOverflow =>
    cases ‹Publishing› <;>
      simp [Proc.live, Pc.live, Return.live, Publishing.live, Publishing.ret, Publishing.lost]
  | counted => cases ‹Publishing› <;> simp [Proc.live, Pc.live, Publishing.live, Publishing.entry]
  | resolveClosed | claimClosed =>
    simp [Proc.live, Pc.live, Return.live, Cell.length_ended]
  | resolveComplete | resolvePending | claim =>
    simp only [weigh_singleton, Proc.live, Cell.length_ended]
    split <;> simp [Pc.live, Return.live]
  | attached =>
    simp only [weigh_add, weigh_singleton, weigh_replicate, Proc.live]
    split <;> simp_all [Pc.live, Return.live, Holder.live]
  | clone => simp [Proc.live, Holder.live]
  | _ => simp [Proc.live, Pc.live, Return.live]

theorem live_eq (h : (machine spec may).Reachable (init spec) c) :
    c.shared.log.length + weigh Proc.live c.calls = c.shared.live :=
  h.weigh_inv (·.log.length) (·.live) Proc.live rfl (fun _ hs => hs.elim) fun _ _ hs => hs.live

theorem ProcStep.pending (hs : ProcStep spec Discipline s p s' next)
    (H : p.Knows spec (s.pending = 0)) (hne : s'.pending ≠ 0) :
    s'.pending + p.live = s.pending + weigh Proc.live next := by
  have hlive := hs.live
  cases hs with
  | resolveClosed => exact absurd (H.2.2.2 rfl) hne
  | claimClosed h0 => exact absurd h0 hne
  | resolveComplete | claim => exact absurd rfl hne
  | resolvePending hp =>
    have hown := H.1.owned H.2.1 (by simp [hp])
    simp only [Cell.ended, hown, if_true, List.length_append, List.length_singleton] at hlive ⊢
    omega
  | _ => (try dsimp only at hlive ⊢); omega

theorem pending_eq (h : (machine spec Discipline).Reachable (init spec) c)
    (hne : c.shared.pending ≠ 0) : c.shared.pending = weigh Proc.live c.calls := by
  suffices (machine spec Discipline).Reachable (init spec) c ∧
    (c.shared.pending ≠ 0 → c.shared.pending = weigh Proc.live c.calls) from this.2 hne
  refine h.inv ⟨.refl, fun _ => rfl⟩ (fun _ hs => hs.elim)
    fun {s p s' next cs} ih hs => ⟨ih.1.step hs, fun hne => ?_⟩
  have hold := ih.2 fun h0 => hne (ProcStep.pending_eq_zero hs h0)
  have hstep := ProcStep.pending hs (knows_of_reachable ih.1 p (mem_cons_self ..)) hne
  simp only [weigh_cons, weigh_add] at hold ⊢
  omega

def Proc.refs : Proc → Nat
  | holder _ | reserving .. | run .. => 1
  | _ => 0

def Proc.dropping : Proc → Nat
  | droppingState _ => 1
  | _ => 0

theorem Op.refs_entry (h : Holder) (op : Op) : (op.entry spec h).refs = 1 := by
  unfold Op.entry Holder.attach
  split <;> (try split) <;> rfl

theorem Op.dropping_entry (h : Holder) (op : Op) : (op.entry spec h).dropping = 0 := by
  unfold Op.entry Holder.attach
  split <;> (try split) <;> rfl

section
variable (h : (machine spec may).Reachable (init spec) c)
include h

theorem refs_eq : weigh refs c.calls = c.shared.refs := by
  refine (Nat.zero_add _).symm.trans
    (h.weigh_inv (fun _ => 0) (·.refs) refs rfl (fun _ hs => hs.elim) ?_)
  intro s p s' next cs _ hw hs
  cases hs with
  | begin => rw [weigh_singleton, Op.refs_entry]; rfl
  | drop => simp [refs] at hw ⊢; omega
  | dropLast _ h1 => simp [refs, h1]
  | clone => simp [refs]; omega
  | attached => simp [refs]; omega
  | _ => simp [refs]

theorem dropped_eq :
    c.shared.dropped.toNat + weigh dropping c.calls = if c.shared.refs = 0 then 1 else 0 := by
  refine h.weigh_inv (·.dropped.toNat) (fun s => if s.refs = 0 then 1 else 0) dropping rfl
    (fun _ hs => hs.elim) ?_
  intro s p s' next cs hr hw hs
  have hrefs := refs_eq hr
  rw [weigh_cons] at hrefs
  cases hs with
  | begin => rw [weigh_singleton, Op.dropping_entry]; rfl
  | drop _ h1 =>
    simp only [refs] at hrefs
    simp only [dropping, weigh_singleton]
    have : s.refs ≠ 0 := by omega
    have : s.refs - 1 ≠ 0 := by omega
    simp [*]
  | dropLast _ h1 => simp [dropping, h1]
  | clone | attached =>
    simp only [refs] at hrefs
    have : s.refs ≠ 0 := by omega
    simp [dropping, this]
  | dropState =>
    simp only [dropping] at hw
    cases hd : s.dropped with
    | false => simp [dropping]
    | true =>
      rw [hd] at hw
      split at hw <;> simp at hw
  | _ => simp [dropping]

theorem not_dropped (hp : p ∈ c.calls) (hr : p.refs = 1) : c.shared.dropped = false := by
  have hle : p.refs ≤ weigh refs c.calls := le_weigh_of_mem hp
  have hrefs := refs_eq h
  have hdrop := dropped_eq h
  rw [if_neg (by omega)] at hdrop
  cases hd : c.shared.dropped with
  | false => rfl
  | true => simp [hd] at hdrop

end

def Pc.sending : Pc → Nat
  | send _ => 1
  | _ => 0

def Pc.delivering : Pc → Nat
  | complete _ | takeSender _ | send _ => 1
  | _ => 0

def Pc.completing : Pc → Nat
  | complete _ => 1
  | _ => 0

def Proc.duty (w : Pc → Nat) : Proc → Nat
  | run _ _ pc => w pc
  | _ => 0

theorem Op.duty_entry (h : Holder) (op : Op) (w : Pc → Nat) (hw : ∀ n, w (.reserveLoad n) = 0)
    (hr : w .resolveLoad = 0) (hc : ∀ r, w (.claimCompletion r) = 0) (hp : w .parkIsResolved = 0)
    (ha : w .aliveIsResolved = 0) : (op.entry spec h).duty w = 0 := by
  unfold Op.entry Holder.attach
  split <;> (try split) <;> simp [duty, *]

theorem sender_eq (h : (machine spec may).Reachable (init spec) c) :
    c.shared.sent.length + c.shared.sender.toNat + weigh (duty Pc.sending) c.calls = 1 := by
  refine h.weigh_inv (fun s => s.sent.length + s.sender.toNat) (fun _ => 1) (duty Pc.sending)
    rfl (fun _ hs => hs.elim) ?_
  intro s p s' next cs _ _ hs
  cases hs with
  | begin =>
    rw [weigh_singleton, Op.duty_entry] <;> simp [duty, Pc.sending]
  | counted => cases ‹Publishing› <;> simp [duty, Pc.sending, Publishing.entry]
  | reserve | resolveComplete | resolvePending | claim =>
    split <;> rfl
  | takeSender h1 => simp [duty, Pc.sending, h1]
  | send | sendClosed => simp [duty, Pc.sending]; omega
  | _ => simp [duty, Pc.sending]

theorem sending_le_delivering (ps : Multiset Proc) :
    weigh (duty Pc.sending) ps ≤ weigh (duty Pc.delivering) ps := by
  refine weigh_le_weigh fun p _ => ?_
  cases p with
  | run _ _ pc => cases pc <;> simp [duty, Pc.sending, Pc.delivering]
  | _ => exact Nat.le_refl _

theorem delivery_eq (h : (machine spec may).Reachable (init spec) c) :
    c.shared.sent.length + weigh (duty Pc.delivering) c.calls =
      if c.shared.pending = 0 then 1 else 0 := by
  refine h.weigh_inv (·.sent.length) (fun s => if s.pending = 0 then 1 else 0)
    (duty Pc.delivering) rfl (fun _ hs => hs.elim) ?_
  intro s p s' next cs hr hw hs
  cases hs with
  | begin =>
    rw [weigh_singleton, Op.duty_entry] <;> simp [duty, Pc.delivering]
  | counted => cases ‹Publishing› <;> simp [duty, Pc.delivering, Publishing.entry]
  | reserve hne _ hp =>
    simp only [weigh_singleton, duty]
    split <;> simp [Pc.delivering, hp, hne]
  | resolveComplete hp | resolvePending hp =>
    simp only [weigh_singleton, duty]
    split <;> simp [Pc.delivering, hp]
  | claim hne =>
    simp only [weigh_singleton, duty]
    split <;> simp [Pc.delivering]
  | takeNothing h1 =>
    -- The sender is gone only if another call has delivered, or is about to.
    have hsender := sender_eq hr
    have hle := sending_le_delivering cs
    simp only [weigh_cons, duty, Pc.sending, Pc.delivering, h1, Bool.toNat_false] at hsender hw
    split at hw <;> omega
  | _ => simp [duty, Pc.delivering]

theorem complete_eq (h : (machine spec may).Reachable (init spec) c)
    (htracked : spec.untracked = false) :
    (if decode c.shared.handoff = .complete then 1 else 0) +
      weigh (duty Pc.completing) c.calls = if c.shared.pending = 0 then 1 else 0 := by
  refine h.weigh_inv (fun s => if decode s.handoff = .complete then 1 else 0)
    (fun s => if s.pending = 0 then 1 else 0) (duty Pc.completing) ?_
    (fun _ hs => hs.elim) ?_
  · simp [init, Cell.new, htracked, duty]
    decide
  intro s p s' next cs hr hw hs
  cases hs with
  | begin =>
    rw [weigh_singleton, Op.duty_entry] <;> simp [duty, Pc.completing]
  | counted => cases ‹Publishing› <;> simp [duty, Pc.completing, Publishing.entry]
  | reserve hne _ hp => simp [duty, Pc.completing, hp, hne, htracked]
  | resolveComplete hp | resolvePending hp =>
    simp [duty, Pc.completing, hp, htracked]
  | claim hne => simp [duty, Pc.completing, hne, htracked]
  | publishActivated hd ht hw' | publishJoined hd _ ht hw' =>
    have henc := decode_encode_tracking (of_totalActiveShares ht).2
    simp [duty, Pc.completing, hw', hd, henc]
  | removeWentIdle hd hw' =>
    simp [duty, Pc.completing, hw', hd, decode_encode_tracking (Nat.zero_le _)]
  | remove hd hw' =>
    have henc := decode_encode_tracking (Nat.le_of_succ_le_succ (le_of_decode hd))
    simp [duty, Pc.completing, hw', hd, henc]
  | completeRelease | completeConfirm =>
    have hopen : decode s.handoff ≠ .complete := by
      intro hc
      simp only [hc, if_true, duty, Pc.completing] at hw
      split at hw <;> omega
    simp [duty, Pc.completing, hopen]
  | _ => simp [duty, Pc.completing]

end Nervix.Ack
