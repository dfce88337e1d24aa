import Nervix.Runtime.Ack.Tracker
import Nervix.Runtime.RemoteAck.Record

/-!
# Records that park

A record of the registry holds a share of a root and parks it while the remote side reports it
parked. Here the calls that the registry makes on that share run beside the other holders of the
root, which keep the discipline of shares. Reports keep it as well.
-/

namespace Nervix.Ack

open Proc Pc AckHandoffTracking
open Multiset

section
variable (parked : Bool) (h : Holder)

def Proc.overflows : Proc → Bool
  | run _ [] (publishCas p word) =>
    match decode word with
    | .tracking a => (totalActiveShares a p.shares).isNone
    | .complete => false
  | _ => false

def Holder.Ready : Prop :=
  h.share ≠ .absent ∧ (parked = false → h.guards = 0)

def Publishing.Ready : Publishing → Prop
  | attach _ => False
  | unpark => h.share ≠ .absent

def Removing.Ready : Removing → Prop
  | park => h.share ≠ .absent ∧ parked = true
  | succeed => False

def Return.Ready : Return → Prop
  | unit => h.Ready parked
  | _ => False

def Pc.Ready : Pc → Prop
  | publishLoad p | publishCas p _ => p.Ready h
  | removeLoad r | removeCas r _ => r.Ready parked h
  | parkIsResolved => h.share ≠ .absent ∧ parked = true
  | aliveIsResolved => h.Ready parked
  | progressCount r | progressPending r _ | progressHandoff r _ | progressSend r _ _ | ret r =>
    r.Ready parked h
  | _ => False

def Proc.Ready : Proc → Prop
  | holder h => h.Ready parked
  | reserving h p _ _ => p.Ready h
  | run h _ pc => pc.Ready parked h
  | _ => False

end

variable {spec : Spec} {s s' : Cell} {p q : Proc} {h : Holder} {parked : Bool}

theorem Publishing.Ready.entry {p : Publishing} (H : p.Ready h) : p.entry.Ready parked h := by
  cases p with
  | attach => exact H.elim
  | unpark => exact H

theorem Publishing.Ready.published {p : Publishing} (H : p.Ready h) (hk : p.Knows h) :
    p.ret.Ready parked (p.holder h) := by
  cases p with
  | attach => exact H.elim
  | unpark =>
    have hg : h.guards = 1 := hk
    exact ⟨H, fun _ => by simp [Publishing.holder, hg]⟩

theorem Removing.Ready.return {r : Removing} (H : r.Ready parked h) :
    Return.unit.Ready parked (r.holder h) ∧ Return.unit.Ready parked h := by
  cases r with
  | park => exact ⟨⟨H.1, fun hf => nomatch H.2.symm.trans hf⟩, H.1,
      fun hf => nomatch H.2.symm.trans hf⟩
  | succeed => exact H.elim

theorem Proc.Ready.step (hs : ProcStep spec Discipline s p s' {q}) (hp : ∀ h, p ≠ holder h)
    (hover : p.overflows = false) (hknows : p.Knows spec (s.pending = 0))
    (hready : p.Ready parked) : q.Ready parked := by
  generalize hnext : ({q} : Multiset Proc) = next at hs
  cases hs with
  | begin | clone | drop | dropLast => exact absurd rfl (hp _)
  | counted =>
    cases singleton_inj.mp hnext
    exact Publishing.Ready.entry hready
  | publishClosed | publishActivated | publishJoined =>
    cases singleton_inj.mp hnext
    exact Publishing.Ready.published hready hknows.2
  | publishOverflow hd ht => simp [Proc.overflows, hd, ht] at hover
  | removeClosed | removeNoActiveShare =>
    cases singleton_inj.mp hnext
    have hr : Removing.Ready parked _ _ := hready
    exact hr.return.2
  | removeWentIdle | remove =>
    cases singleton_inj.mp hnext
    have hr : Removing.Ready parked _ _ := hready
    exact hr.return.1
  | parkResolved =>
    cases singleton_inj.mp hnext
    exact ⟨hready.1, fun hf => nomatch hready.2.symm.trans hf⟩
  | _ =>
    first
    | exact hready.elim
    | (cases singleton_inj.mp hnext; exact hready)

end Nervix.Ack

namespace Nervix.RemoteAck

open Nervix.Ack
open Proc Pc AckHandoffTracking

def AckCall.op : AckCall → Op
  | alive => .alive
  | park => .park
  | dropGuard => .unpark
  | ackSuccess => .succeed
  | noAck reason => .fail reason

inductive Party
  | elsewhere (p : Proc)
  | record (p : Proc) (todo : List AckCall)

open Party

def Party.proc : Party → Proc
  | elsewhere p | record p _ => p

inductive PartyStep (spec : Spec) (s : Cell) : Party → Cell → Multiset Party → Prop
  | elsewhere : ProcStep spec Discipline s p s' next →
      PartyStep spec s (elsewhere p) s' (next.map elsewhere)
  | call : a ≠ .dropGuard ∨ 0 < h.guards →
      PartyStep spec s (record (holder h) (a :: todo)) s {record (a.op.entry spec h) todo}
  | dropEmptyGuard : h.guards = 0 →
      PartyStep spec s (record (holder h) (.dropGuard :: todo)) s {record (holder h) todo}
  | act : (∀ h, p ≠ holder h) → p.overflows = false → ProcStep spec Discipline s p s' {q} →
      PartyStep spec s (record p todo) s' {record q todo}
  | panic : p.overflows = true → ProcStep spec Discipline s p s' {q} →
      PartyStep spec s (record p todo) s' {record q []}
  | drop : h.guards = 0 → s.refs ≠ 1 →
      PartyStep spec s (record (holder h) []) { s with refs := s.refs - 1 }
        {record (dropped h []) []}
  | dropLast : h.guards = 0 → s.refs = 1 →
      PartyStep spec s (record (holder h) []) { s with refs := 0 } {record (droppingState h) []}

def machine (spec : Spec) : Machine Cell Party where
  start _ _ := False
  step := PartyStep spec

def processes (c : Config Cell Party) : Config Cell Proc := ⟨c.shared, c.calls.map Party.proc⟩

def registered (s : Cell) (share : Share) (todo : List AckCall) (ps : Multiset Proc) :
    Config Cell Party :=
  ⟨s, record (holder ⟨share, 0⟩) todo ::ₘ ps.map elsewhere⟩

def Safe : Bool → List AckCall → Prop
  | _, [] => True
  | parked, .alive :: todo => Safe parked todo
  | parked, .park :: todo => parked = false ∧ Safe true todo
  | _, .dropGuard :: todo => Safe false todo
  | parked, .ackSuccess :: todo => parked = false ∧ ∀ a ∈ todo, a = .dropGuard
  | _, .noAck _ :: todo => ∀ a ∈ todo, a = .dropGuard

def Party.Fits : Party → Prop
  | elsewhere _ => True
  | record p todo =>
    (∀ a ∈ todo, a = .dropGuard) ∨ ∃ parked, Safe parked todo ∧ p.Ready parked

variable {spec : Spec} {s s' : Cell} {p q : Proc} {todo : List AckCall} {parked : Bool}
  {c : Config Cell Party}

theorem Safe.call (htracked : spec.untracked = false)
    (hsafe : Safe parked (a :: todo)) (hready : h.Ready parked) (hcall : a ≠ .dropGuard ∨ 0 < h.guards) :
    a.op.Callable h ∧ a.op.Disciplined h ∧ (record (a.op.entry spec h) todo).Fits := by
  cases a with
  | alive => exact ⟨trivial, trivial, .inr ⟨parked, hsafe, hready⟩⟩
  | park =>
    refine ⟨trivial, ⟨hready.1, hready.2 hsafe.1⟩, .inr ⟨true, hsafe.2, ?_⟩⟩
    simp only [AckCall.op, Op.entry, htracked]
    exact ⟨hready.1, rfl⟩
  | dropGuard =>
    have hg : 0 < h.guards := hcall.resolve_left fun hne => hne rfl
    refine ⟨hg, trivial, .inr ⟨false, hsafe, ?_⟩⟩
    simp only [AckCall.op, Op.entry, htracked]
    exact hready.1
  | ackSuccess => exact ⟨trivial, ⟨hready.1, hready.2 hsafe.1⟩, .inl hsafe.2⟩
  | noAck => exact ⟨trivial, hready.1, .inl hsafe⟩

theorem Party.Fits.step (hs : PartyStep spec s a s' next)
    (htracked : spec.untracked = false) (hknows : a.proc.Knows spec (s.pending = 0))
    (hfits : a.Fits) : (∀ b ∈ next, b.Fits) ∧
      (ProcStep spec Discipline s a.proc s' (next.map Party.proc) ∨
        s' = s ∧ next.map Party.proc = {a.proc}) := by
  cases hs with
  | elsewhere hs =>
    refine ⟨fun b hb => ?_, .inl ?_⟩
    · obtain ⟨p, -, rfl⟩ := Multiset.mem_map.mp hb
      trivial
    · simpa [Multiset.map_map, Function.comp_def, Party.proc] using hs
  | call hcall =>
    rcases hfits with hall | ⟨parked, hsafe, hready⟩
    · obtain rfl := hall _ (List.mem_cons_self ..)
      have hg := hcall.resolve_left fun hne => hne rfl
      exact ⟨forall_mem_singleton (.inl fun b hb => hall b (List.mem_cons_of_mem _ hb)),
        .inl (.call .unpark hg trivial)⟩
    · obtain ⟨hc, hd, hfit⟩ := hsafe.call htracked hready hcall
      exact ⟨forall_mem_singleton hfit, .inl (.call _ hc hd)⟩
  | dropEmptyGuard hg =>
    refine ⟨forall_mem_singleton ?_, .inr ⟨rfl, rfl⟩⟩
    rcases hfits with hall | ⟨parked, hsafe, hready⟩
    · exact .inl fun b hb => hall b (List.mem_cons_of_mem _ hb)
    · exact .inr ⟨false, hsafe, hready.1, fun _ => hg⟩
  | act hp hover hs =>
    refine ⟨forall_mem_singleton (hfits.imp_right ?_), .inl hs⟩
    rintro ⟨parked, hsafe, hready⟩
    exact ⟨parked, hsafe, hready.step hs hp hover hknows⟩
  | panic _ hs => exact ⟨forall_mem_singleton (.inl nofun), .inl hs⟩
  | drop hg hne => exact ⟨forall_mem_singleton (.inl nofun), .inl (.drop hg hne)⟩
  | dropLast hg hlast => exact ⟨forall_mem_singleton (.inl nofun), .inl (.dropLast hg hlast)⟩

theorem reachable_of_safe (htracked : spec.untracked = false)
    (hshare : share ≠ .absent) (hsafe : Safe false todo)
    (h₀ : (Ack.machine spec Discipline).Reachable (Ack.init spec) ⟨s, holder ⟨share, 0⟩ ::ₘ ps⟩)
    (h : (machine spec).Reachable (registered s share todo ps) c) :
    (Ack.machine spec Discipline).Reachable (Ack.init spec) (processes c) := by
  suffices (Ack.machine spec Discipline).Reachable (Ack.init spec) (processes c) ∧
    ∀ a ∈ c.calls, a.Fits from this.1
  refine h.inv ⟨?_, fun a ha => ?_⟩ (fun _ hs => hs.elim) fun {s a s' next cs} ih hs => ?_
  · simpa [processes, registered, Party.proc, Multiset.map_map, Function.comp_def] using h₀
  · rcases Multiset.mem_cons.mp ha with rfl | ha
    · exact .inr ⟨false, hsafe, hshare, fun _ => rfl⟩
    · obtain ⟨p, -, rfl⟩ := Multiset.mem_map.mp ha
      trivial
  · obtain ⟨hr, hfits⟩ := ih
    simp only [processes, Multiset.map_cons] at hr
    have hknows := knows_of_reachable hr _ (Multiset.mem_cons_self ..)
    obtain ⟨hnext, hstep⟩ := (hfits a (Multiset.mem_cons_self ..)).step hs htracked hknows
    refine ⟨?_, fun b hb => ?_⟩
    · simp only [processes, Multiset.map_add]
      rcases hstep with hstep | ⟨rfl, hnext⟩
      · exact hr.step hstep
      · rw [hnext, Multiset.singleton_add]
        exact hr
    · rcases Multiset.mem_add.mp hb with hb | hb
      · exact hnext b hb
      · exact hfits b (Multiset.mem_cons_of_mem hb)

theorem Safe.append_of_apply (r : PendingRemoteAck α) (e : Event)
    (h : Safe (r.apply e).1.requiredWait todo) :
    Safe r.requiredWait ((r.apply e).2 ++ todo) := by
  obtain ⟨tail, htail, hcalls⟩ := r.calls_apply e
  have htodo : Safe (r.apply e).1.requiredWait (tail ++ todo) := by
    rcases htail with rfl | rfl <;> exact h
  rw [hcalls, List.append_assoc]
  cases hr : r.requiredWait <;> cases hr' : (r.apply e).1.requiredWait <;>
    simp only [hr'] at htodo <;> simp [Safe, htodo]

theorem safe_calls (r : PendingRemoteAck α) (events : List Event) (ending : Ending)
    (h : ¬ (ending = .resolve .ack ∧ (r.after events).requiredWait = true)) :
    Safe r.requiredWait (r.calls events ending) := by
  induction events generalizing r with
  | nil =>
    have hdrop : ∀ a ∈ r.drop, a = .dropGuard := by
      unfold PendingRemoteAck.drop
      split <;> simp
    rcases ending with ⟨_ | error⟩ | _ | _ | _
    · exact ⟨by simpa [PendingRemoteAck.after] using h, hdrop⟩
    · exact hdrop
    · change Safe r.requiredWait r.drop
      unfold PendingRemoteAck.drop
      split <;> trivial
    · exact hdrop
    · exact hdrop
  | cons e events ih => exact Safe.append_of_apply r e (ih _ h)

def Party.activeElsewhere : Party → Nat
  | elsewhere p => p.active
  | record .. => 0

structure HandoffExact (spec : Spec) (c : Config Cell Party) : Prop where
  unparked : ∀ h ks todo, record (run h ks .resolveLoad) todo ∈ c.calls → h.guards = 0
  counted : c.shared.pending ≠ 0 → c.shared.dropped = false →
    0 < weigh Party.activeElsewhere c.calls →
    ∀ t ∈ spec.trackers, 0 < c.shared.trackers ⟨.handoff, t⟩
  found : ∀ h ks r word, run h ks (.removeCas r word) ∈ (processes c).calls →
    decode word ≠ .tracking 0
  exact : (∀ p ∈ (processes c).calls, p.resting = true) → c.shared.pending ≠ 0 →
    decode c.shared.handoff = .tracking (weigh Proc.active (processes c).calls)

theorem HandoffExact.of_disciplined (htracked : spec.untracked = false)
    (h : (Ack.machine spec Discipline).Reachable (Ack.init spec) (processes c)) :
    HandoffExact spec c := by
  refine ⟨fun h' ks todo hp => ?_, fun hne hd hpos t ht => ?_, fun h' ks r word hp => ?_,
    fun _ hne => decode_of_pending h htracked hne⟩
  · have hmem : run h' ks .resolveLoad ∈ (processes c).calls := Multiset.mem_map.mpr ⟨_, hp, rfl⟩
    exact (knows_of_reachable h _ hmem).2.2
  · have hactive : 0 < weigh Proc.active (processes c).calls := by
      refine Nat.lt_of_lt_of_le hpos ((weigh_map ..).symm ▸ weigh_le_weigh fun a _ => ?_)
      cases a with
      | elsewhere => exact Nat.le_refl _
      | record => exact Nat.zero_le _
    have hle := le_counted_handoff h htracked (.inl ⟨hne, hd, hactive⟩) t
    have hledger := ledger_eq h ⟨.handoff, t⟩
    have hpos : 0 < spec.trackers.count t := List.count_pos_iff.mpr ht
    unfold Ack.counted at hle
    simp only [Cell.trackers]
    simp only [processes] at hle hledger
    omega
  · exact ((Active.of_reachable h htracked).words _ hp).2

def Sole (parked : Bool) (s : Cell) : Prop :=
  s.pending = 1 ∧ decode s.handoff = .tracking (if parked then 0 else 1)

/-- A run reaches the call `p` of a record, with the calls `todo` behind it, as the only one that
changes its root. -/
def Reaches (spec : Spec) (c₀ : Config Cell Party) (cs : Multiset Party) (parked : Bool) (p : Proc)
    (todo : List AckCall) : Prop :=
  ∃ s, (machine spec).Reachable c₀ ⟨s, record p todo ::ₘ cs⟩ ∧ Sole parked s

namespace Reaches

variable {c₀ : Config Cell Party} {cs : Multiset Party} {h : Holder}

theorem release (hr : Reaches spec c₀ cs parked (run h ks pc) todo) :
    Reaches spec c₀ cs parked (run h [] pc) todo := by
  induction ks with
  | nil => exact hr
  | cons k ks ih =>
    obtain ⟨s, hr, hsole⟩ := hr
    exact ih ⟨_, hr.step₁ (.act nofun rfl .release), hsole⟩

theorem count {p : Publishing} (hr : Reaches spec c₀ cs parked (reserving h p past rest) todo) :
    Reaches spec c₀ cs parked (run h [] p.entry) todo := by
  induction rest generalizing past with
  | nil =>
    obtain ⟨s, hr, hsole⟩ := hr
    exact ⟨s, hr.step₁ (.act nofun rfl .counted), hsole⟩
  | cons k rest ih =>
    obtain ⟨s, hr, hsole⟩ := hr
    exact ih ⟨_, hr.step₁ (.act nofun rfl .count), hsole⟩

section
variable (htracked : spec.untracked = false)
include htracked

theorem progress (hr : Reaches spec c₀ cs parked (run h [] (progressCount .unit)) todo) :
    Reaches spec c₀ cs parked (holder h) todo := by
  obtain ⟨s, hr, hsole⟩ := hr
  have hr := hr.step₁ (.act nofun rfl .progressCount)
  have hr := hr.step₁ (.act nofun rfl (.progressPending htracked (by simp [hsole.1])))
  have hr := hr.step₁ (.act nofun rfl .progressHandoff)
  have hr := hr.step₁ (.act nofun rfl .progressSend)
  have hr := hr.step₁ (.act nofun rfl .return)
  exact ⟨_, hr, hsole⟩

theorem park (hr : Reaches spec c₀ cs false (holder ⟨.owned, 0⟩) (.park :: todo)) :
    Reaches spec c₀ cs true (holder ⟨.owned, 1⟩) todo := by
  obtain ⟨s, hr, hsole⟩ := hr
  have hr := hr.step₁ (.call (.inl (by decide)))
  simp only [AckCall.op, Op.entry, htracked] at hr
  have hr := hr.step₁ (.act nofun rfl (.parkUnresolved (by simp [hsole.1])))
  have hr := hr.step₁ (.act nofun rfl .removeLoad)
  have hr := hr.step₁ (.act nofun rfl (.removeWentIdle hsole.2 rfl))
  exact progress htracked (release ⟨_, hr, hsole.1, rfl⟩)

theorem unpark (hr : Reaches spec c₀ cs true (holder ⟨.owned, 1⟩) (.dropGuard :: todo)) :
    Reaches spec c₀ cs false (holder ⟨.owned, 0⟩) todo := by
  obtain ⟨s, hr, hsole⟩ := hr
  have hr := hr.step₁ (.call (.inr (by decide)))
  simp only [AckCall.op, Op.entry, htracked] at hr
  obtain ⟨s', hr, hsole'⟩ := count ⟨_, hr, hsole⟩
  have hr := hr.step₁ (.act nofun rfl .publishLoad)
  have hd : decode s'.handoff = .tracking 0 := hsole'.2
  have hover : (run ⟨.owned, 1⟩ [] (publishCas .unpark s'.handoff)).overflows = false := by
    simp only [Proc.overflows, hd]
    rfl
  have hr := hr.step₁ (.act nofun hover (.publishActivated hd rfl rfl))
  exact progress htracked ⟨_, hr, hsole'.1, rfl⟩

theorem apply (r : PendingRemoteAck α) (e : Event) (hr : Reaches spec c₀ cs r.requiredWait
      (holder ⟨.owned, r.requiredWait.toNat⟩) ((r.apply e).2 ++ todo)) :
    Reaches spec c₀ cs (r.apply e).1.requiredWait
      (holder ⟨.owned, (r.apply e).1.requiredWait.toNat⟩) todo := by
  obtain ⟨tail, htail, hcalls⟩ := r.calls_apply e
  rw [hcalls, List.append_assoc] at hr
  suffices Reaches spec c₀ cs (r.apply e).1.requiredWait
      (holder ⟨.owned, (r.apply e).1.requiredWait.toNat⟩) (tail ++ todo) by
    rcases htail with rfl | rfl
    · exact this
    · obtain ⟨s, hr, hsole⟩ := this
      have hr := hr.step₁ (.call (.inl (by decide)))
      exact progress htracked
        ⟨_, hr.step₁ (.act nofun rfl (.aliveUnresolved (by simp [hsole.1]))), hsole⟩
  cases hw : r.requiredWait <;> cases hw' : (r.apply e).1.requiredWait <;>
    simp only [hw, hw'] at hr
  · exact hr
  · exact park htracked hr
  · exact unpark htracked hr
  · exact hr

theorem events (r : PendingRemoteAck α) (events : List Event) (ending : Ending)
    (hr : Reaches spec c₀ cs r.requiredWait (holder ⟨.owned, r.requiredWait.toNat⟩)
      (r.calls events ending)) :
    Reaches spec c₀ cs (r.after events).requiredWait
      (holder ⟨.owned, (r.after events).requiredWait.toNat⟩) ((r.after events).finish ending) := by
  induction events generalizing r with
  | nil => exact hr
  | cons e events ih => exact ih _ (apply htracked r e hr)

end

end Reaches

/-- **Resolving a record keeps the handoff count of its root exact**, for any events before it, any
ending and any other holders of the root, exactly if it is not acknowledged while a guard parks
it. -/
theorem resolve_keeps_handoff_exact (htracked : spec.untracked = false) (receiver : String)
    (acks : α) (events : List Event) (ending : Ending) :
    (∀ share s ps c, share ≠ .absent →
      (Ack.machine spec Discipline).Reachable (Ack.init spec) ⟨s, holder ⟨share, 0⟩ ::ₘ ps⟩ →
      (machine spec).Reachable
        (registered s share ((PendingRemoteAck.new receiver acks).calls events ending) ps) c →
      HandoffExact spec c) ↔
      ¬ (ending = .resolve .ack ∧
        ((PendingRemoteAck.new receiver acks).after events).requiredWait = true) := by
  refine ⟨?_, fun hcond share s ps c hshare h₀ h => ?_⟩
  · rintro H ⟨rfl, hparked⟩
    have hr : (machine spec).Reachable _ (registered (Cell.new spec) .owned
      ((PendingRemoteAck.new receiver acks).calls events (.resolve .ack)) {completion none}) :=
      .refl
    have hsole : Sole false (Cell.new spec) := ⟨rfl, by rw [Cell.new, htracked]; rfl⟩
    obtain ⟨s', hr, -⟩ := Reaches.events htracked (PendingRemoteAck.new receiver acks) events
      (.resolve .ack) ⟨_, hr, hsole⟩
    rw [hparked] at hr
    have hr : (machine spec).Reachable _
      ⟨s', record (run ⟨.owned, 1⟩ [] .resolveLoad) _ ::ₘ {elsewhere (completion none)}⟩ :=
      hr.step₁ (.call (.inl (by decide)))
    have hexact := H .owned _ _ _ (by decide) .refl hr
    have hguards := hexact.unparked ⟨.owned, 1⟩ []
      ((PendingRemoteAck.new receiver acks).after events).drop (by simp)
    cases hguards
  · exact .of_disciplined htracked (reachable_of_safe htracked hshare (safe_calls _ _ _ hcond) h₀ h)

/-- A record that reports that it resumed is acknowledged exactly. -/
theorem resolve_keeps_handoff_exact_resumed :
    HandoffExact ⟨[0], .atResolution⟩ (registered (Cell.new ⟨[0], .atResolution⟩) .owned
      ((PendingRemoteAck.new "node-2" ()).calls
        [.report (some (1, true)), .report (some (2, false))] (.resolve .ack))
      {completion none}) :=
  (resolve_keeps_handoff_exact rfl "node-2" () _ _).mpr (by decide) .owned _ _ _ (by decide) .refl
    .refl

/-- A record that reported itself parked is acknowledged: an ownership handoff then waits for
nothing, while the other share of the root is active. -/
theorem handoff_missed_of_parked_ack :
    ∃ s ps c, (Ack.machine ⟨[0], .atResolution⟩ Discipline).Reachable
        (Ack.init ⟨[0], .atResolution⟩) ⟨s, holder ⟨.owned, 0⟩ ::ₘ ps⟩ ∧
      (machine ⟨[0], .atResolution⟩).Reachable (registered s .owned
        ((PendingRemoteAck.new "node-2" ()).calls [.report (some (1, true))] (.resolve .ack)) ps) c ∧
      c.shared.pending = 1 ∧ c.shared.dropped = false ∧
      elsewhere (holder ⟨.owned, 0⟩) ∈ c.calls ∧ c.shared.trackers ⟨.handoff, 0⟩ = 0 := by
  obtain ⟨s, h, hpending, hhandoff, hdropped, htrackers⟩ :
    ∃ s, (Ack.machine ⟨[0], .atResolution⟩ Discipline).Reachable _ _ ∧ _ :=
    two_shares_reachable trivial
  have r : (machine ⟨[0], .atResolution⟩).Reachable _ (registered s .owned
    [.park, .alive, .ackSuccess, .dropGuard] (holder ⟨.owned, 0⟩ ::ₘ {completion none})) := .refl
  -- The report parks the share of the record,
  have r := r.step₁ (.call (.inl (by decide)))
  have r := r.step₁ (.act nofun rfl (.parkUnresolved (by simp [hpending])))
  have r := r.step₁ (.act nofun rfl .removeLoad)
  have r := r.step₁ (.act nofun rfl (.remove hhandoff rfl))
  have r := r.step₁ (.act nofun rfl .return)
  have r := r.step₁ (.call (.inl (by decide)))
  have r := r.step₁ (.act nofun rfl (.aliveUnresolved (by simp [hpending])))
  have r := r.step₁ (.act nofun rfl .progressCount)
  have r := r.step₁ (.act nofun rfl (.progressPending rfl (by simp [hpending])))
  have r := r.step₁ (.act nofun rfl .progressHandoff)
  have r := r.step₁ (.act nofun rfl .progressSend)
  have r := r.step₁ (.act nofun rfl .return)
  -- and its success removes the other one.
  have r := r.step₁ (.call (.inl (by decide)))
  have r := r.step₁ (.act nofun rfl .resolveLoad)
  simp only [hpending] at r
  have r := r.step₁ (.act nofun rfl (.resolvePending rfl))
  have r := r.step₁ (.act nofun rfl .removeLoad)
  have r := r.step₁ (.act nofun rfl (.removeWentIdle rfl rfl))
  have r := r.step₁ (.act nofun rfl .release)
  refine ⟨s, _, _, h, r, rfl, hdropped, by simp, ?_⟩
  simp only [Cell.trackers] at htrackers
  simp [Cell.trackers, List.count_append]
  omega

end Nervix.RemoteAck
