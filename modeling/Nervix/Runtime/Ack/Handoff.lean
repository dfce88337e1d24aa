import Nervix.Runtime.Ack.Accounting

/-!
# Active shares and tracker counts

While a root tracks its shares, the handoff word counts the active ones, and the root owns one count
of each of its trackers exactly while the word is above zero.
-/

namespace Nervix.Ack

open AckHandoffTracking Proc Pc
open List

variable {spec : Spec} {may : Holder → Op → Prop} {s s' : Cell} {p q : Proc}
  {next cs : Multiset Proc} {c c' : Config Cell Proc}

def Holder.active (h : Holder) : Nat := if h.share = .owned ∧ h.guards = 0 then 1 else 0

def Return.active : Return → Nat
  | attached n true => n
  | _ => 0

def Removing.active : Removing → Nat
  | succeed => 1
  | park => 0

def Pc.active : Pc → Nat
  | removeLoad r | removeCas r _ => r.active
  | progressCount r | progressPending r _ | progressHandoff r _ | progressSend r _ _ | ret r =>
    r.active
  | _ => 0

def Proc.active : Proc → Nat
  | holder h | reserving h _ _ _ | droppingState h | dropped h _ => h.active
  | run h _ pc => h.active + pc.active
  | lost _ | completion _ | completionDropped _ => 0

@[simp] theorem Holder.active_resolved (h : Holder) : h.resolved.active = 0 := rfl

theorem Op.active_entry (h : Holder) (op : Op) : (op.entry spec h).active = h.active := by
  unfold Op.entry Holder.attach
  split <;> (try split) <;> simp [Proc.active, Pc.active]

theorem ProcStep.closed (hs : ProcStep spec may s p s' next) (h : decode s.handoff = .complete) :
    decode s'.handoff = .complete := by
  cases hs with
  | publishActivated hd _ hw | publishJoined hd _ _ hw | removeWentIdle hd hw | remove hd hw =>
    rw [hw, hd] at h
    cases h
  | completeRelease | completeConfirm => rfl
  | _ => exact h

def Pc.WordKnows (handoff : UInt64) : Pc → Prop
  | publishCas _ word => decode word = .complete → decode handoff = .complete
  | removeCas _ word => (decode word = .complete → decode handoff = .complete) ∧
      decode word ≠ .tracking 0
  | _ => True

def Proc.WordKnows (handoff : UInt64) : Proc → Prop
  | run _ _ pc => pc.WordKnows handoff
  | _ => True

theorem Proc.WordKnows.mono (hw : decode w = .complete → decode w' = .complete)
    (H : p.WordKnows w) : p.WordKnows w' := by
  cases p with
  | run _ _ pc =>
    cases pc with
    | publishCas => exact fun h => hw (H h)
    | removeCas => exact ⟨fun h => hw (H.1 h), H.2⟩
    | _ => trivial
  | _ => trivial

theorem Op.wordKnows_entry (h : Holder) (op : Op) (w : UInt64) : (op.entry spec h).WordKnows w := by
  unfold Op.entry Holder.attach
  split <;> (try split) <;> trivial

theorem Publishing.active_holder {h : Holder} {p : Publishing} (H : h.Knows R)
    (hp : p.Knows h) : (p.holder h).active + p.ret.active ≤ h.active + p.shares ∧
      (¬ R → (p.holder h).active + p.ret.active = h.active + p.shares) := by
  cases p with
  | attach n => simp [Publishing.holder, Publishing.ret, Publishing.shares, Return.active]
  | unpark =>
    have hg : h.guards = 1 := hp
    have hown : ¬ R → h.share = .owned := fun hR => (H.guarded (by omega)).resolve_right hR
    simp only [Publishing.holder, Publishing.ret, Publishing.shares, Return.active, Holder.active,
      hg]
    refine ⟨?_, fun hR => ?_⟩
    · split <;> simp
    · simp [hown hR]

theorem Removing.active_holder {r : Removing} (H : r.Knows h) :
    (r.holder h).active + 1 = h.active + r.active ∧ 1 ≤ h.active + r.active := by
  cases r with
  | park =>
    obtain ⟨ho, hg⟩ := H
    simp [Removing.holder, Removing.active, Holder.active, ho, hg]
  | succeed => simp [Removing.holder, Removing.active]

section
variable (hs : ProcStep spec Discipline s p s' next) (H : p.Knows spec (s.pending = 0))
  (hword : p.WordKnows s.handoff)
include hs H hword

theorem ProcStep.active (htracked : spec.untracked = false) (ha : decode s.handoff = .tracking a)
    (hb : decode s'.handoff = .tracking b) :
    weigh Proc.active next + a ≤ p.active + b ∧
      (s'.pending ≠ 0 → weigh Proc.active next + a = p.active + b) := by
  cases hs with
  | publishClosed hd => exact nomatch ha.symm.trans (hword hd)
  | removeClosed hd => exact nomatch ha.symm.trans (hword.1 hd)
  | removeNoActiveShare hd => exact absurd hd hword.2
  | publishActivated hd ht hw =>
    obtain ⟨rfl, hle⟩ := of_totalActiveShares ht
    cases (decode_encode_tracking hle).symm.trans hb
    cases hd.symm.trans (hw ▸ ha)
    have hpub := Publishing.active_holder H.1 H.2
    simp only [weigh_singleton, Proc.active, Pc.active]
    exact ⟨by omega, fun hne => by have := hpub.2 hne; omega⟩
  | publishJoined hd _ ht hw =>
    obtain ⟨rfl, hle⟩ := of_totalActiveShares ht
    cases (decode_encode_tracking hle).symm.trans hb
    cases hd.symm.trans (hw ▸ ha)
    have hpub := Publishing.active_holder H.1 H.2
    simp only [weigh_singleton, Proc.active, Pc.active]
    exact ⟨by omega, fun hne => by have := hpub.2 hne; omega⟩
  | removeWentIdle hd hw =>
    cases (decode_encode_tracking (Nat.zero_le _)).symm.trans hb
    cases hd.symm.trans (hw ▸ ha)
    have hrem := Removing.active_holder H.2
    simp only [weigh_singleton, Proc.active, Pc.active, Return.active]
    omega
  | remove hd hw =>
    cases (decode_encode_tracking (Nat.le_of_succ_le_succ (le_of_decode hd))).symm.trans hb
    cases hd.symm.trans (hw ▸ ha)
    have hrem := Removing.active_holder H.2
    simp only [weigh_singleton, Proc.active, Pc.active, Return.active]
    omega
  | completeRelease | completeConfirm => exact absurd (decode_encode_complete.symm.trans hb) nofun
  | begin =>
    cases ha.symm.trans hb
    rw [weigh_singleton, Op.active_entry]
    exact ⟨Nat.le_refl _, fun _ => rfl⟩
  | counted =>
    cases ha.symm.trans hb
    cases ‹Publishing› <;> simp [Proc.active, Pc.active, Publishing.entry]
  | reserve =>
    cases ha.symm.trans hb
    simp [htracked, Proc.active, Pc.active]
  | publishOverflow =>
    cases ha.symm.trans hb
    cases ‹Publishing› <;> simp [Proc.active, Pc.active, Return.active, Publishing.lost]
  | resolveClosed =>
    cases ha.symm.trans hb
    exact ⟨by simp [Proc.active, Pc.active, Return.active], absurd (H.2.2.2 rfl)⟩
  | claimClosed h0 =>
    cases ha.symm.trans hb
    exact ⟨by simp [Proc.active, Pc.active, Return.active], absurd h0⟩
  | resolveComplete | claim =>
    cases ha.symm.trans hb
    exact ⟨by simp [htracked, Proc.active, Pc.active], absurd rfl⟩
  | resolvePending hp =>
    cases ha.symm.trans hb
    have hown := H.1.owned H.2.1 (by simp [hp])
    have hactive : Holder.active _ = 1 := if_pos ⟨hown, H.2.2.1⟩
    simp [htracked, Proc.active, Pc.active, Removing.active, hactive]
  | attached =>
    cases ha.symm.trans hb
    simp only [weigh_add, weigh_singleton, weigh_replicate, Proc.active, Pc.active]
    split <;> simp_all [Return.active, Holder.active]
  | clone =>
    cases ha.symm.trans hb
    simp [Proc.active, Holder.active]
  | _ =>
    cases ha.symm.trans hb
    simp [Proc.active, Pc.active, Return.active, Removing.active]

theorem ProcStep.wordKnows
    (hread : 1 ≤ p.active → decode s.handoff ≠ .tracking 0) : ∀ q ∈ next, q.WordKnows s'.handoff := by
  cases hs with
  | begin => exact forall_mem_singleton (Op.wordKnows_entry ..)
  | removeLoad | removeRetry =>
    exact forall_mem_singleton ⟨id, hread (Removing.active_holder H.2).2⟩
  | publishLoad | publishRetry => exact forall_mem_singleton id
  | counted => cases ‹Publishing› <;> exact forall_mem_singleton trivial
  | reserve | resolveComplete | resolvePending | claim =>
    refine forall_mem_singleton ?_
    split <;> trivial
  | clone | lost =>
    intro q hq
    simp only [Multiset.insert_eq_cons, Multiset.mem_cons, Multiset.mem_singleton] at hq
    rcases hq with rfl | rfl <;> trivial
  | attached =>
    intro q hq
    rcases Multiset.mem_add.mp hq with hq | hq
    · cases Multiset.mem_singleton.mp hq; trivial
    · cases Multiset.eq_of_mem_replicate hq; trivial
  | release => exact forall_mem_singleton hword
  | _ => exact forall_mem_singleton trivial

end

structure Active (c : Config Cell Proc) : Prop where
  shares : ∀ a, decode c.shared.handoff = .tracking a → weigh Proc.active c.calls ≤ a ∧
    (c.shared.pending ≠ 0 → weigh Proc.active c.calls = a)
  words : ∀ p ∈ c.calls, p.WordKnows c.shared.handoff

theorem Active.read (H : Active ⟨s, p ::ₘ cs⟩) (hp : 1 ≤ p.active) :
    decode s.handoff ≠ .tracking 0 := by
  intro h
  have hle := (H.shares 0 h).1
  rw [weigh_cons] at hle
  omega

theorem Active.step (H : Active ⟨s, p ::ₘ cs⟩) (hs : ProcStep spec Discipline s p s' next)
    (hk : p.Knows spec (s.pending = 0)) (htracked : spec.untracked = false) :
    Active ⟨s', next + cs⟩ := by
  have hword := H.words p (Multiset.mem_cons_self ..)
  constructor
  · intro b hb
    cases ha : decode s.handoff with
    | complete => exact absurd ((hs.closed ha).symm.trans hb) nofun
    | tracking a =>
      have hstep := hs.active hk hword htracked ha hb
      have hold := H.shares a ha
      rw [weigh_cons] at hold
      rw [weigh_add]
      refine ⟨by omega, fun hne => ?_⟩
      have h1 := hstep.2 hne
      have h2 := hold.2 fun h0 => hne (hs.pending_eq_zero h0)
      omega
  · intro q hq
    rcases Multiset.mem_add.mp hq with hq | hq
    · exact hs.wordKnows hk hword H.read q hq
    · exact (H.words q (Multiset.mem_cons_of_mem hq)).mono hs.closed

theorem Active.of_reachable (h : (machine spec Discipline).Reachable (init spec) c)
    (htracked : spec.untracked = false) : Active c := by
  suffices (machine spec Discipline).Reachable (init spec) c ∧ Active c from this.2
  refine h.inv ⟨.refl, ?_, ?_⟩ (fun _ hs => hs.elim) fun ih hs => ⟨ih.1.step hs, ?_⟩
  · intro a ha
    simp only [init, Cell.new, htracked] at ha
    cases (decode_encode_tracking (a := 1) (by decide)).symm.trans ha
    exact ⟨Nat.le_refl _, fun _ => rfl⟩
  · intro p hp
    simp only [init, Multiset.mem_cons, Multiset.mem_singleton] at hp
    rcases hp with rfl | rfl <;> trivial
  · exact ih.2.step hs (knows_of_reachable ih.1 _ (Multiset.mem_cons_self ..)) htracked

section
variable (spec : Spec) (k : Counter)

def Counter.handoff (trackers : List Nat) : Nat :=
  match k.count with
  | .outstanding => 0
  | .handoff => trackers.count k.tracker

def Counter.outstanding (trackers : List Nat) : Nat :=
  match k.count with
  | .outstanding => trackers.count k.tracker
  | .handoff => 0

def Spec.confirmed : Option Bool → Nat
  | none => 0
  | some ownershipHandoff =>
    k.outstanding spec.trackers + if ownershipHandoff then k.handoff spec.trackers else 0

def Cell.held (s : Cell) : Nat :=
  if s.dropped then 0
  else (if s.pending = 0 then 0 else k.outstanding spec.trackers) +
    if (decode s.handoff).holdsActiveShares then k.handoff spec.trackers else 0

def Cell.channelHeld (s : Cell) : Nat :=
  s.channel.elim 0 fun res => spec.confirmed k res.confirmation

def Pc.held : Pc → Nat
  | reserveLoad _ | reserveCas .. | publishLoad _ | publishCas .. => k.handoff spec.trackers
  | complete _ => k.outstanding spec.trackers
  | takeSender res | send res => spec.confirmed k res.confirmation
  | _ => 0

def Proc.held : Proc → Nat
  | reserving _ _ counted _ => k.handoff counted
  | run _ ks pc => ks.count k + pc.held spec k
  | dropped _ ks | completionDropped ks => ks.count k
  | completion confirmation => spec.confirmed k confirmation
  | _ => 0

end

section
variable (k : Counter)

@[simp] theorem Counter.handoff_nil : k.handoff [] = 0 := by
  unfold Counter.handoff
  split <;> rfl

@[simp] theorem Counter.outstanding_nil : k.outstanding [] = 0 := by
  unfold Counter.outstanding
  split <;> rfl

section
variable (t : Nat) (ts : List Nat)
include t ts

@[simp] theorem Counter.handoff_mk_handoff : Counter.handoff ⟨.handoff, t⟩ ts = ts.count t := rfl

@[simp] theorem Counter.handoff_mk_outstanding : Counter.handoff ⟨.outstanding, t⟩ ts = 0 := rfl

@[simp] theorem Counter.outstanding_mk_handoff : Counter.outstanding ⟨.handoff, t⟩ ts = 0 := rfl

@[simp] theorem Counter.outstanding_mk_outstanding :
    Counter.outstanding ⟨.outstanding, t⟩ ts = ts.count t := rfl

theorem Counter.handoff_cons : k.handoff (t :: ts) = [⟨.handoff, t⟩].count k + k.handoff ts := by
  obtain ⟨count, u⟩ := k
  cases count <;> simp [Counter.handoff, count_cons, Nat.add_comm]

theorem Counter.outstanding_cons :
    k.outstanding (t :: ts) = [⟨.outstanding, t⟩].count k + k.outstanding ts := by
  obtain ⟨count, u⟩ := k
  cases count <;> simp [Counter.outstanding, count_cons, Nat.add_comm]

end

theorem Counter.handoff_append (ts us : List Nat) :
    k.handoff (ts ++ us) = k.handoff ts + k.handoff us := by
  induction ts with
  | nil => simp
  | cons t ts ih => rw [cons_append, handoff_cons, handoff_cons, ih, Nat.add_assoc]

theorem Spec.trackers_eq_nil (h : spec.untracked = true) : spec.trackers = [] :=
  isEmpty_iff.mp h

@[simp] theorem Spec.count_decrement :
    spec.decrementOwnershipHandoffTrackers.count k = k.handoff spec.trackers := by
  unfold Spec.decrementOwnershipHandoffTrackers
  induction spec.trackers with
  | nil => simp
  | cons t ts ih =>
    rw [map_cons, ← singleton_append, count_append, ih, Counter.handoff_cons]

@[simp] theorem Spec.count_releaseRootTrackers :
    spec.releaseRootTrackers.count k = k.outstanding spec.trackers := by
  unfold Spec.releaseRootTrackers
  induction spec.trackers with
  | nil => simp
  | cons t ts ih =>
    rw [map_cons, ← singleton_append, count_append, ih, Counter.outstanding_cons]

@[simp] theorem Spec.count_dropConfirmation (b : Bool) :
    (spec.dropConfirmation b).count k = spec.confirmed k (some b) := by
  unfold Spec.dropConfirmation Spec.confirmed
  induction spec.trackers with
  | nil => simp
  | cons t ts ih =>
    rw [flatMap_cons, count_append, ih, Counter.handoff_cons, Counter.outstanding_cons]
    cases b <;> simp [count_cons]
    omega

@[simp] theorem Spec.count_dropState (b : Bool) :
    (spec.dropState b).count k = spec.confirmed k (some b) := by
  unfold Spec.dropState Spec.confirmed
  induction spec.trackers with
  | nil => simp
  | cons t ts ih =>
    rw [flatMap_cons, count_append, ih, Counter.handoff_cons, Counter.outstanding_cons]
    cases b <;> simp [count_cons]
    omega

theorem Spec.count_register : spec.register.count (.inc k) =
    k.outstanding spec.trackers + k.handoff spec.trackers ∧ spec.register.count (.dec k) = 0 := by
  unfold Spec.register
  induction spec.trackers with
  | nil => simp
  | cons t ts ih =>
    rw [flatMap_cons, count_append, count_append, ih.1, ih.2, Counter.handoff_cons,
      Counter.outstanding_cons]
    simp [count_cons]
    omega

@[simp] theorem Spec.count_confirmation (confirmation : Option Bool) :
    (confirmation.elim [] spec.dropConfirmation).count k = spec.confirmed k confirmation := by
  cases confirmation with
  | none => rfl
  | some b => exact Spec.count_dropConfirmation k b

@[simp] theorem AckResolution.count_drop (res : AckResolution) :
    (res.drop spec).count k = spec.confirmed k res.confirmation :=
  Spec.count_confirmation k _

theorem Op.held_entry (h : Holder) (op : Op) : (op.entry spec h).held spec k = 0 := by
  have hattach : ∀ n, (h.attach spec n).held spec k = 0 := by
    intro n
    unfold Holder.attach
    split
    · rename_i hu
      simp [Proc.held, Pc.held, Spec.trackers_eq_nil hu]
    · simp [Proc.held]
  unfold Op.entry
  split <;> (try split) <;> first | exact hattach _ | simp [Proc.held, Pc.held]

end

theorem channel_eq_none (h : (machine spec may).Reachable (init spec) c)
    (hsent : c.shared.sent = []) : c.shared.channel = none := by
  revert hsent
  refine h.inv (fun _ => rfl) (fun _ hs => hs.elim) fun ih hs => ?_
  cases hs with
  | send | sendClosed => simp
  | receive | dropCompletion => simp
  | _ => exact ih

theorem closed_of_refs (h : (machine spec may).Reachable (init spec) c)
    (hu : spec.untracked = false) (hrefs : c.shared.refs = 0) (h0 : c.shared.pending = 0) :
    decode c.shared.handoff = .complete := by
  have hle : weigh (Proc.duty Pc.completing) c.calls ≤ weigh Proc.refs c.calls := by
    refine weigh_le_weigh fun p _ => ?_
    cases p with
    | run _ _ pc => cases pc <;> simp [Proc.duty, Pc.completing, Proc.refs]
    | _ => exact Nat.zero_le _
  have heq := refs_eq h
  have hcomplete := complete_eq h hu
  rw [if_pos h0] at hcomplete
  by_contra hne
  rw [if_neg hne] at hcomplete
  omega

theorem Cell.ledger_new (k : Counter) :
    (Cell.new spec).ledger.count (.dec k) +
        ((Cell.new spec).held spec k + (Cell.new spec).channelHeld spec k) +
      weigh (Proc.held spec k) (init spec).calls = (Cell.new spec).ledger.count (.inc k) := by
  have hreg : spec.register.count (.inc k) = _ ∧ spec.register.count (.dec k) = 0 :=
    Spec.count_register k
  simp only [Cell.new, Cell.held, Cell.channelHeld, init, weigh_cons, weigh_singleton, Proc.held,
    Spec.confirmed, hreg]
  by_cases hu : spec.untracked = true
  · simp [Spec.trackers_eq_nil hu]
  · simp [hu, decode_encode_tracking (a := 1) (by decide)]

theorem holdsActiveShares_publish {p : Publishing} (hp : p.Knows h)
    (ht : totalActiveShares a p.shares = some total) :
    (decode (encode (.tracking total))).holdsActiveShares = true := by
  obtain ⟨rfl, hle⟩ := of_totalActiveShares ht
  have : p.shares ≠ 0 := by
    cases p with
    | attach n => exact Nat.pos_iff_ne_zero.mp hp
    | unpark => exact Nat.one_ne_zero
  rw [decode_encode_tracking hle]
  simp [this]

theorem ProcStep.ledger (hs : ProcStep spec Discipline s p s' next)
    (hk : p.Knows spec (s.pending = 0)) (hlive : p.refs = 1 → s.dropped = false)
    (hdrop : p.dropping = 1 → s.dropped = false ∧ (s.pending = 0 →
      spec.untracked = false → decode s.handoff = .complete))
    (hsend : p.duty Pc.sending = 1 → s.channel = none) (k : Counter) :
    s'.ledger.count (.dec k) + (s'.held spec k + s'.channelHeld spec k) +
        weigh (Proc.held spec k) next + s.ledger.count (.inc k) =
      s.ledger.count (.dec k) + (s.held spec k + s.channelHeld spec k) + p.held spec k +
        s'.ledger.count (.inc k) := by
  cases hs with
  | begin => rw [weigh_singleton, Op.held_entry]; rfl
  | dropState =>
    obtain ⟨hd, hcomplete⟩ := hdrop rfl
    simp only [weigh_singleton, Proc.held, Cell.held, Cell.channelHeld, hd, if_true]
    by_cases h0 : s.pending = 0
    · cases hu : spec.untracked with
      | true => simp [h0, Spec.trackers_eq_nil hu]
      | false => simp [h0, hcomplete h0 hu]
    · simp [h0, Spec.confirmed]
      omega
  | discard | release | discardCompletion =>
    simp [Proc.held, Cell.held, Cell.channelHeld, count_append, count_cons]
    omega
  | count =>
    simp [Proc.held, Cell.held, Cell.channelHeld, count_append, count_cons,
      Counter.handoff_append, Counter.handoff_cons]
    omega
  | counted =>
    have hall : _ = spec.trackers := (append_nil _).symm.trans hk.2.2
    cases ‹Publishing› <;> simp [Proc.held, Pc.held, Publishing.entry, hall]
  | reserve hne _ hp =>
    cases hu : spec.untracked with
    | true => simp [Proc.held, Cell.held, Cell.channelHeld, Pc.held, Spec.trackers_eq_nil hu]
    | false => simp [Proc.held, Cell.held, Cell.channelHeld, Pc.held, hne, hp]
  | publishActivated hd ht hw =>
    have hact := holdsActiveShares_publish hk.2 ht
    simp [Proc.held, Pc.held, Cell.held, Cell.channelHeld, hlive rfl, hw, hd, hact]
    omega
  | publishJoined hd hne ht hw =>
    have hact := holdsActiveShares_publish hk.2 ht
    simp [Proc.held, Pc.held, Cell.held, Cell.channelHeld, hlive rfl, hw, hd, hact, hne]
  | removeWentIdle hd hw =>
    simp [Proc.held, Pc.held, Cell.held, Cell.channelHeld, hlive rfl, hw, hd,
      decode_encode_tracking (Nat.zero_le _)]
    omega
  | remove hd hw =>
    simp [Proc.held, Pc.held, Cell.held, Cell.channelHeld, hlive rfl, hw, hd,
      decode_encode_tracking (Nat.le_of_succ_le_succ (le_of_decode hd))]
  | resolveComplete hp =>
    cases hu : spec.untracked with
    | true =>
      simp [Proc.held, Cell.held, Cell.channelHeld, Pc.held, Spec.trackers_eq_nil hu,
        Spec.confirmed]
    | false =>
      simp [Proc.held, Cell.held, Cell.channelHeld, Pc.held, hlive rfl, hp]
      omega
  | resolvePending hp =>
    cases hu : spec.untracked <;> simp [Proc.held, Cell.held, Cell.channelHeld, Pc.held, hp]
  | claim hne =>
    cases hu : spec.untracked with
    | true =>
      simp [Proc.held, Cell.held, Cell.channelHeld, Pc.held, Spec.trackers_eq_nil hu,
        Spec.confirmed]
    | false =>
      simp [Proc.held, Cell.held, Cell.channelHeld, Pc.held, hlive rfl, hne]
      omega
  | completeRelease =>
    simp [Proc.held, Pc.held, Cell.held, Cell.channelHeld, hlive rfl, count_append, Spec.confirmed]
    cases (decode s.handoff).holdsActiveShares <;> simp
    omega
  | completeConfirm =>
    simp [Proc.held, Pc.held, Cell.held, Cell.channelHeld, hlive rfl, Spec.confirmed]
    omega
  | send =>
    simp [Proc.held, Pc.held, Cell.held, Cell.channelHeld, hsend rfl]
    omega
  | receive hc =>
    simp [Proc.held, Cell.held, Cell.channelHeld, hc, Spec.confirmed]
    omega
  | dropCompletion =>
    cases hc : s.channel <;>
      simp [Proc.held, Cell.held, Cell.channelHeld, count_append, hc]
    omega
  | attached =>
    simp [Proc.held, Pc.held, Cell.held, Cell.channelHeld]
  | _ => simp [Proc.held, Pc.held, Cell.held, Cell.channelHeld]

theorem ledger_eq (h : (machine spec Discipline).Reachable (init spec) c) (k : Counter) :
    c.shared.ledger.count (.dec k) + (c.shared.held spec k + c.shared.channelHeld spec k) +
      weigh (Proc.held spec k) c.calls = c.shared.ledger.count (.inc k) := by
  refine h.weigh_inv
    (fun s => s.ledger.count (.dec k) + (s.held spec k + s.channelHeld spec k))
    (fun s => s.ledger.count (.inc k)) (Proc.held spec k) ?_ (fun _ hs => hs.elim) ?_
  · exact Cell.ledger_new k
  intro s p s' next cs hr _ hs
  have hmem : p ∈ p ::ₘ cs := Multiset.mem_cons_self ..
  refine ProcStep.ledger hs (knows_of_reachable hr p hmem) (not_dropped hr hmem)
    (fun hp => ⟨?_, fun h0 hu => ?_⟩) (fun hp => ?_) k
  · have hdrop := dropped_eq hr
    simp only [weigh_cons, hp] at hdrop
    cases hd : s.dropped with
    | false => rfl
    | true =>
      rw [hd] at hdrop
      split at hdrop <;> simp at hdrop
  · refine closed_of_refs hr hu ?_ h0
    have hdrop := dropped_eq hr
    by_contra hne
    rw [if_neg hne] at hdrop
    simp only [weigh_cons, hp] at hdrop
    omega
  · have hsender := sender_eq hr
    simp only [weigh_cons, hp] at hsender
    exact channel_eq_none hr (eq_nil_of_length_eq_zero (by simp only; omega))

end Nervix.Ack
