import Nervix.Runtime.Ack.Accounting

/-!
# A root resolves once and never early

The history of a root (`Cell.log`) says how each share that was reserved ended. What a root delivers
is justified by that history: a positive acknowledgement by the success of every share, a negative
one by the one failure that found the root unresolved.
-/

namespace Nervix.Ack

open AckHandoffTracking Proc Pc
open Multiset

variable {spec : Spec} {s s' : Cell} {p q : Proc} {next cs : Multiset Proc} {c c' : Config Cell Proc}

def Cell.Justifies (s : Cell) : AckOutcome → Prop
  | .ack => (∀ e ∈ s.log, e = .succeeded) ∧ s.log.length = s.live
  | .noAck reason => .failed reason ∈ s.log

def Pc.outcome : Pc → Option AckOutcome
  | complete o => some o
  | takeSender res | send res => some res.outcome
  | _ => none

def Proc.outcome : Proc → Option AckOutcome
  | run _ _ pc => pc.outcome
  | _ => none

theorem Proc.delivering_of_outcome (h : p.outcome = some o) : p.duty Pc.delivering = 1 := by
  cases p with
  | run _ _ pc => cases pc <;> simp [Proc.outcome, Pc.outcome] at h <;> rfl
  | _ => simp [Proc.outcome] at h

theorem Op.outcome_entry (h : Holder) (op : Op) : (op.entry spec h).outcome = none := by
  unfold Op.entry Holder.attach
  split <;> (try split) <;> rfl

structure Explained (c : Config Cell Proc) : Prop where
  unresolved : c.shared.pending ≠ 0 → ∀ e ∈ c.shared.log, e = .succeeded
  failure : ∀ r r', .failed r ∈ c.shared.log → .failed r' ∈ c.shared.log → r = r'
  sent : ∀ res ∈ c.shared.sent, c.shared.Justifies res.outcome
  calls : ∀ p ∈ c.calls, ∀ o, p.outcome = some o → c.shared.Justifies o

theorem nothing_delivered (h : (machine spec Discipline).Reachable (init spec) c)
    (hne : c.shared.pending ≠ 0) :
    c.shared.sent = [] ∧ ∀ p ∈ c.calls, p.outcome = none := by
  have hd := delivery_eq h
  rw [if_neg hne] at hd
  refine ⟨List.eq_nil_of_length_eq_zero (by omega), fun p hp => ?_⟩
  cases ho : p.outcome with
  | none => rfl
  | some o =>
    have hone := Proc.delivering_of_outcome ho
    have hle : p.duty Pc.delivering ≤ weigh (Proc.duty Pc.delivering) c.calls := le_weigh_of_mem hp
    omega

namespace Explained

theorem frame (H : Explained ⟨s, p ::ₘ cs⟩) (hlog : s'.log = s.log) (hlive : s'.live = s.live)
    (hpending : s'.pending = s.pending)
    (hsent : ∀ res ∈ s'.sent, res ∈ s.sent ∨ p.outcome = some res.outcome)
    (hnext : ∀ q ∈ next, ∀ o, q.outcome = some o → p.outcome = some o) :
    Explained ⟨s', next + cs⟩ := by
  have hj : ∀ o, s'.Justifies o ↔ s.Justifies o := by
    intro o
    cases o <;> simp [Cell.Justifies, hlog, hlive]
  have hp := H.calls p (mem_cons_self ..)
  refine ⟨fun hne => hlog ▸ H.unresolved (hpending ▸ hne), hlog ▸ H.failure, ?_, ?_⟩
  · intro res hres
    rw [hj]
    rcases hsent res hres with hres | ho
    · exact H.sent res hres
    · exact hp _ ho
  · intro q hq o ho
    rw [hj]
    rcases mem_add.mp hq with hq | hq
    · exact hp o (hnext q hq o ho)
    · exact H.calls q (mem_cons_of_mem hq) o ho

theorem unresolvedStep (h : (machine spec Discipline).Reachable (init spec) ⟨s, p ::ₘ cs⟩)
    (hne : s.pending ≠ 0) (hsent : s'.sent = s.sent)
    (hunres : s'.pending ≠ 0 → ∀ e ∈ s'.log, e = .succeeded)
    (hfail : ∀ r r', .failed r ∈ s'.log → .failed r' ∈ s'.log → r = r')
    (hnext : ∀ q ∈ next, ∀ o, q.outcome = some o → s'.Justifies o) :
    Explained ⟨s', next + cs⟩ := by
  obtain ⟨hnil, hnone⟩ := nothing_delivered h hne
  refine ⟨hunres, hfail, ?_, ?_⟩
  · simp only at hnil
    simp [hsent, hnil]
  · intro q hq o ho
    rcases mem_add.mp hq with hq | hq
    · exact hnext q hq o ho
    · rw [hnone q (mem_cons_of_mem hq)] at ho
      cases ho

theorem lateStep (hr : (machine spec Discipline).Reachable (init spec) ⟨s, run h [] pc ::ₘ cs⟩)
    (H : Explained ⟨s, run h [] pc ::ₘ cs⟩) (h0 : s.pending = 0)
    (hpc : q.outcome = none) :
    Explained ⟨{ s with log := s.ended h .late }, {q} + cs⟩ := by
  have hmem : ∀ e ∈ s.ended h .late, e ∈ s.log ∨ e = .late := by
    intro e he
    unfold Cell.ended at he
    split at he
    · simpa using he
    · exact .inl he
  have hsub : ∀ e ∈ s.log, e ∈ s.ended h .late := by
    intro e he
    unfold Cell.ended
    split
    · exact List.mem_append_left _ he
    · exact he
  have hj : ∀ o, s.Justifies o → Cell.Justifies { s with log := s.ended h .late } o := by
    intro o ho
    cases o with
    | noAck reason => exact hsub _ ho
    | ack =>
      have hlive := live_eq hr
      have hlen : s.log.length = s.live := ho.2
      have hnone : h.share ≠ .owned := by
        intro hown
        simp only [weigh_cons, Proc.live, Holder.live, hown, if_true] at hlive
        omega
      simpa [Cell.Justifies, Cell.ended, hnone] using ho
  have hfailed : ∀ r, .failed r ∈ s.ended h .late → .failed r ∈ s.log := by
    intro r he
    refine (hmem _ he).resolve_right fun h => ?_
    cases h
  refine ⟨fun hne => absurd h0 hne, fun r r' hr hr' => H.failure r r' (hfailed r hr) (hfailed r' hr'),
    fun res hres => hj _ (H.sent res hres), ?_⟩
  intro p hp o ho
  rcases mem_add.mp hp with hp | hp
  · rw [mem_singleton.mp hp, hpc] at ho
    cases ho
  · exact hj o (H.calls p (mem_cons_of_mem hp) o ho)

theorem step (hr : (machine spec Discipline).Reachable (init spec) ⟨s, p ::ₘ cs⟩)
    (H : Explained ⟨s, p ::ₘ cs⟩) (hs : ProcStep spec Discipline s p s' next) :
    Explained ⟨s', next + cs⟩ := by
  have hk := knows_of_reachable hr p (mem_cons_self ..)
  cases hs with
  | begin =>
    refine H.frame rfl rfl rfl (fun _ h => .inl h) (forall_mem_singleton fun o ho => ?_)
    rw [Op.outcome_entry] at ho
    cases ho
  | counted =>
    refine H.frame rfl rfl rfl (fun _ h => .inl h) (forall_mem_singleton fun o ho => ?_)
    cases ‹Publishing› <;> cases ho
  | reserve hne _ hp =>
    refine unresolvedStep hr (hp ▸ hne) rfl (fun _ => H.unresolved (hp ▸ hne)) H.failure
      (forall_mem_singleton fun o ho => ?_)
    split at ho <;> cases ho
  | resolveClosed => exact lateStep hr H (hk.2.2.2 rfl) rfl
  | claimClosed h0 => exact lateStep hr H h0 rfl
  | resolvePending hp =>
    rename_i n h
    have hne : s.pending ≠ 0 := by simp [hp]
    have hall : ∀ e ∈ s.ended h .succeeded, e = .succeeded := by
      simpa [Cell.ended, hk.1.owned hk.2.1 hne, or_imp, forall_and] using H.unresolved hne
    refine unresolvedStep hr hne rfl (fun _ => hall) (fun r _ hf => by cases hall _ hf)
      (forall_mem_singleton fun o ho => ?_)
    split at ho <;> cases ho
  | resolveComplete hp =>
    rename_i h
    have hne : s.pending ≠ 0 := by simp [hp]
    have hown := hk.1.owned hk.2.1 hne
    have hall : ∀ e ∈ s.ended h .succeeded, e = .succeeded := by
      simpa [Cell.ended, hown, or_imp, forall_and] using H.unresolved hne
    -- The share that succeeds here is the only one that was still pending.
    have hlen : (s.ended h .succeeded).length = s.live := by
      have hlive := live_eq hr
      have hpending := pending_eq hr hne
      rw [Cell.length_ended, Holder.live, if_pos hown]
      simp only at hlive hpending
      omega
    refine unresolvedStep hr hne rfl (absurd rfl) (fun r _ hf => by cases hall _ hf)
      (forall_mem_singleton fun o ho => ?_)
    split at ho <;> cases ho <;> exact ⟨hall, hlen⟩
  | claim hne =>
    rename_i h reason
    have hown := hk.1.owned hk.2 hne
    have hold := H.unresolved hne
    have hfailed : ∀ r, .failed r ∈ s.ended h (.failed reason) → r = reason := by
      intro r hf
      rw [Cell.ended, if_pos hown] at hf
      rcases List.mem_append.mp hf with hf | hf
      · cases hold _ hf
      · cases List.mem_singleton.mp hf
        rfl
    refine unresolvedStep hr hne rfl (absurd rfl)
      (fun r r' hf hf' => (hfailed r hf).trans (hfailed r' hf').symm)
      (forall_mem_singleton fun o ho => ?_)
    split at ho <;> cases ho <;> simp [Cell.Justifies, Cell.ended, hown]
  | send | sendClosed =>
    refine H.frame rfl rfl rfl (fun res hres => ?_) (by simp [Proc.outcome, Pc.outcome])
    rcases List.mem_append.mp hres with hres | hres
    · exact .inl hres
    · cases List.mem_singleton.mp hres
      exact .inr rfl
  | attached =>
    refine H.frame rfl rfl rfl (fun _ h => .inl h) fun q hq o ho => ?_
    rcases mem_add.mp hq with hq | hq
    · cases mem_singleton.mp hq; cases ho
    · cases eq_of_mem_replicate hq; cases ho
  | _ => exact H.frame rfl rfl rfl (fun _ h => .inl h) (by simp [Proc.outcome, Pc.outcome])

theorem of_reachable (h : (machine spec Discipline).Reachable (init spec) c) : Explained c := by
  suffices (machine spec Discipline).Reachable (init spec) c ∧ Explained c from this.2
  refine h.inv ⟨.refl, ?_⟩ (fun _ hs => hs.elim) fun ih hs => ⟨ih.1.step hs, step ih.1 ih.2 hs⟩
  constructor <;> simp [init, Cell.new, Proc.outcome]

end Explained

def Proc.calling : Proc → Bool
  | reserving .. | run .. => true
  | _ => false

structure ResolvesOnce (c : Config Cell Proc) : Prop where
  atMostOnce : c.shared.sent.length ≤ 1
  ack : ∀ res ∈ c.shared.sent, res.outcome = .ack →
    (∀ e ∈ c.shared.log, e = .succeeded) ∧ c.shared.log.length = c.shared.live
  failure : ∀ reason, .failed reason ∈ c.shared.log →
    ∀ res ∈ c.shared.sent, res.outcome = .noAck reason
  noAck : ∀ res ∈ c.shared.sent, ∀ reason, res.outcome = .noAck reason →
    .failed reason ∈ c.shared.log
  exactlyOnce : (∀ p ∈ c.calls, p.calling = false ∧ p.live = 0) → c.shared.sent.length = 1

theorem resolvesOnce (h : (machine spec Discipline).Reachable (init spec) c) : ResolvesOnce c := by
  have H := Explained.of_reachable h
  have hdeliver := delivery_eq h
  have hjust : ∀ res ∈ c.shared.sent, ∀ o, res.outcome = o → c.shared.Justifies o :=
    fun res hres o ho => ho ▸ H.sent res hres
  refine ⟨?_, fun res hres ho => hjust res hres _ ho, fun reason hf res hres => ?_,
    fun res hres reason ho => hjust res hres _ ho, fun hrest => ?_⟩
  · split at hdeliver <;> omega
  · cases ho : res.outcome with
    | ack => exact nomatch (hjust res hres _ ho).1 _ hf
    | noAck reason' => rw [H.failure _ _ hf (hjust res hres _ ho)]
  · have hlive : weigh Proc.live c.calls = 0 := weigh_eq_zero_iff.mpr fun p hp => (hrest p hp).2
    have hnone : weigh (Proc.duty Pc.delivering) c.calls = 0 := by
      refine weigh_eq_zero_iff.mpr fun p hp => ?_
      have hcall := (hrest p hp).1
      cases p <;> simp [Proc.calling] at hcall <;> rfl
    have h0 : c.shared.pending = 0 := by
      by_contra hne
      exact hne ((pending_eq h hne).trans hlive)
    rw [if_pos h0] at hdeliver
    omega

/-- **A root resolves once and never early.** This holds of every root, however its holders
interleave their calls, as long as they resolve each share at most once and unpark it before it
succeeds. A root that is resolved stays resolved. -/
theorem root_resolves_once (spec : Spec) :
    (∀ c, (machine spec Discipline).Reachable (init spec) c → ResolvesOnce c) ∧
      ∀ c c', (machine spec Discipline).Reachable (init spec) c →
        (machine spec Discipline).Reachable c c' → c.shared.pending = 0 → c'.shared.pending = 0 :=
  ⟨fun _ h => resolvesOnce h, fun _ _ _ h h0 =>
    h.inv h0 (fun _ hs => hs.elim) fun ih hs => ProcStep.pending_eq_zero hs ih⟩

theorem one_share_reachable : ∃ c, (machine {} Discipline).Reachable (init {}) c ∧
    c.shared.sent = [⟨.ack, none⟩] := by
  have h : (machine {} Discipline).Reachable (init {}) (init {}) := .refl
  have h := h.step₁ (.call .succeed trivial ⟨by decide, rfl⟩)
  have h := h.step₁ .resolveLoad
  have h := h.step₁ (.resolveComplete rfl)
  have h := h.step₁ (.takeSender rfl)
  have h := h.step₁ (.send rfl)
  exact ⟨_, h, rfl⟩

/-- The promises at that root. -/
theorem root_resolves_once_one_share : ∃ c, c.shared.sent = [⟨.ack, none⟩] ∧ ResolvesOnce c := by
  obtain ⟨c, h, hsent⟩ := one_share_reachable
  exact ⟨c, hsent, (root_resolves_once {}).1 c h⟩

end Nervix.Ack
