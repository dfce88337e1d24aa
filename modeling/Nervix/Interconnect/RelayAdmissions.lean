import Nervix.Interconnect.RelayPositions

/-!
# Runs of a relay owner

While one sender epoch stays bound, the operations of the owner and of the records it shares with
its callers run in any order. The history collects the positions that were granted or cancelled,
and every verdict that was answered for a position is kept beside it.
-/

namespace Nervix.Interconnect

open RelayAdmissionRecord (Follows)

namespace RelayPeerOwner

variable {s t : RelayPeerOwner} {epoch : Nat} {history : List Position}
variable {acknowledged : List RecordId} {k : RelayAttemptKey} {r : RecordId} {now : Nat}

theorem holdsAttempt_eq_false :
    s.holdsAttempt channel = false ↔ ∀ n, s.attempts.lookup ⟨channel, n⟩ = none := by
  simp only [holdsAttempt, decide_eq_false_iff_not, not_exists, not_and, Finmap.mem_keys,
    Finmap.lookup_eq_none]
  constructor
  · exact fun h n hn => h _ hn rfl
  · rintro h ⟨channel', n⟩ hk rfl
    exact h n hk

theorem follow_of_canFollow (h : s.canFollow k = true) :
    Accounts.Follow s.watermarks s.attempts k := by
  unfold canFollow at h
  unfold Accounts.Follow
  cases hget : s.watermarks.get k.channel with
  | none =>
    rw [RelayChannelWatermarks.last_eq_none.mpr hget]
    simp only [hget, Bool.and_eq_true, decide_eq_true_eq, Bool.not_eq_true', forgotten,
      Bool.and_eq_false_iff, Bool.not_eq_false'] at h
    refine ⟨h.1, fun ⟨hf, hfree⟩ => ?_⟩
    rcases h.2 with hn | hheld
    · exact nomatch hn.symm.trans hf
    · exact nomatch hheld.symm.trans (holdsAttempt_eq_false.mpr hfree)
  | some watermark =>
    rw [show s.watermarks.last k.channel = some (watermark.sequence, watermark.status) by
      rw [RelayChannelWatermarks.last, hget]; rfl]
    simp only [hget, Bool.and_eq_true, decide_eq_true_eq] at h
    exact h.2

structure Sound (s : RelayPeerOwner) (epoch : Nat) (history : List Position)
    (acknowledged : List RecordId) : Prop where
  run : ∃ bindingSequence, s.run = .bound epoch bindingSequence
  accounts : Accounts s.records s.attempts s.watermarks history
  registered : ∀ k r, ⟨k, some r⟩ ∈ history → r < s.allocated ∧ (s.records r).attempt = k
  epochs : ∀ p ∈ history, p.key.channel.senderEpoch = epoch
  admitted : ∀ r, (s.records r).choice = .admitted →
    (s.records r).phase = .bodyReceived ∨ r ∈ acknowledged

theorem Sound.acceptsEpoch (h : s.Sound epoch history acknowledged) :
    s.acceptsEpoch epoch' = true ↔ epoch' = epoch := by
  obtain ⟨bindingSequence, hrun⟩ := h.run
  simp [RelayPeerOwner.acceptsEpoch, hrun, eq_comm]

structure Moves (epoch : Nat) (history : List Position) (acknowledged : List RecordId)
    (s t : RelayPeerOwner) : Prop where
  sound : t.Sound epoch history acknowledged
  records : ∀ r, Follows (s.records r) (t.records r)
  allocated : t.allocated = s.allocated
  attempts : ∀ k, s.attempts.lookup k = none → t.attempts.lookup k = none

namespace Moves

theorem refl (h : s.Sound epoch history acknowledged) : Moves epoch history acknowledged s s :=
  ⟨h, fun _ => .refl _, rfl, fun _ h => h⟩

theorem trans (h : Moves epoch history acknowledged s t)
    (h' : Moves epoch history acknowledged t u) : Moves epoch history acknowledged s u :=
  ⟨h'.sound, fun r => (h.records r).trans (h'.records r), h'.allocated.trans h.allocated,
    fun k hk => h'.attempts k (h.attempts k hk)⟩

theorem congr (h : Moves epoch history acknowledged s t)
    (hrun : u.run = t.run) (hattempts : u.attempts = t.attempts)
    (hwatermarks : u.watermarks = t.watermarks) (hrecords : u.records = t.records)
    (hallocated : u.allocated = t.allocated) : Moves epoch history acknowledged s u where
  sound :=
    { run := hrun ▸ h.sound.run
      accounts := hattempts ▸ hwatermarks ▸ hrecords ▸ h.sound.accounts
      registered := hallocated ▸ hrecords ▸ h.sound.registered
      epochs := h.sound.epochs
      admitted := hrecords ▸ h.sound.admitted }
  records := hrecords ▸ h.records
  allocated := hallocated.trans h.allocated
  attempts := hattempts ▸ h.attempts

end Moves

theorem Sound.moves_watermarks (h : s.Sound epoch history acknowledged)
    (hu : RelayChannelWatermarks.Forgets
      (fun channel => ∀ n, s.attempts.lookup ⟨channel, n⟩ = none) s.watermarks u) :
    Moves epoch history acknowledged s { s with watermarks := u } where
  sound := { h with accounts := h.accounts.forgets hu }
  records _ := .refl _
  allocated := rfl
  attempts _ hk := hk

theorem follows_update (hf : Follows (s.records r) record)
    (r' : RecordId) : Follows (s.records r') (Function.update s.records r record r') := by
  by_cases hr : r' = r
  · subst hr
    rwa [Function.update_self]
  · rw [Function.update_of_ne hr]
    exact .refl _

theorem verdict_of_follows {records records' : RecordId → RelayAdmissionRecord}
    (h : ∀ r, Follows (records r) (records' r)) (p : Position) (v : Verdict)
    (hv : p.verdict records = some v) : p.verdict records' = some v := by
  unfold Position.verdict at hv ⊢
  split at hv
  case h_1 r _ => exact (h r).verdict v hv
  case h_2 => exact hv

section
variable (h : s.Sound epoch history acknowledged)
include h

theorem Sound.moves_setRecord (hf : Follows (s.records r) record)
    (ha : record.choice = .admitted → record.phase = .bodyReceived ∨ r ∈ acknowledged) :
    Moves epoch history acknowledged s (s.setRecord r record) where
  sound :=
    { h with
      accounts := h.accounts.congr_records fun p _ => verdict_of_follows (follows_update hf) p
      registered := fun k r' hm =>
        ⟨(h.registered k r' hm).1, (follows_update hf r').attempt.trans (h.registered k r' hm).2⟩
      admitted := by
        intro r' hc
        by_cases hr : r' = r
        · subst hr
          simp only [setRecord, Function.update_self] at hc ⊢
          exact ha hc
        · simp only [setRecord, Function.update_of_ne hr] at hc ⊢
          exact h.admitted r' hc }
  records := follows_update hf
  allocated := rfl
  attempts _ hk := hk

theorem Sound.moves_cancelRecord (r : RecordId) :
    Moves epoch history acknowledged s (s.cancelRecord r) := by
  refine h.moves_setRecord .cancel fun hc => ?_
  have heq := RelayAdmissionRecord.cancel_eq_self hc
  rw [heq] at hc ⊢
  exact h.admitted r hc

theorem Sound.last_le (hr : s.attempts.lookup k = some r) (n : Nat) (status : RelayAdmissionStatus)
    (hlast : s.watermarks.last k.channel = some (n, status)) : n ≤ k.sequence := by
  have hlen := (h.accounts.held k r hr).2
  rcases (h.accounts.marked k.channel n status hlast).2 with ⟨hn, -⟩ | ⟨hn, -⟩ <;> omega

theorem Sound.moves_retire (hv : (s.records r).status.verdict = some v) (now : Nat) :
    Moves epoch history acknowledged s (s.retire r (s.records r).status now) := by
  rw [RelayAdmissionStatus.verdict_eq_some] at hv
  unfold retire
  dsimp only
  split
  case isFalse => exact .refl h
  case isTrue hr =>
    obtain ⟨u, hu, heq⟩ := RelayChannelWatermarks.record_spec (s.records r).status s.holdsAttempt
      now (h.last_le hr)
    have haccounts := (h.accounts.forgets (hu.mono fun _ => holdsAttempt_eq_false.mp)).retire
      hr hv now
    exact {
      sound :=
        { run := h.run
          accounts := by
            simp only [recordWatermark, heq]
            rw [hv]
            exact haccounts.congr_records fun p _ =>
              verdict_of_follows (follows_update .releaseCapacity) p
          registered := fun k r' hm => ⟨(h.registered k r' hm).1,
            (follows_update .releaseCapacity r').attempt.trans (h.registered k r' hm).2⟩
          epochs := h.epochs
          admitted := by
            intro r' hc
            by_cases hr' : r' = r
            · subst hr'
              simp only [Function.update_self] at hc ⊢
              exact h.admitted r' hc
            · simp only [Function.update_of_ne hr'] at hc ⊢
              exact h.admitted r' hc }
      records := follows_update .releaseCapacity
      allocated := rfl
      attempts := by
        intro k hk
        rw [Finmap.lookup_erase_eq]
        split
        · rfl
        · exact hk }

end

section
variable (h : s.Sound epoch history acknowledged)
include h

theorem Sound.moves_retireResolvedPredecessor (k : RelayAttemptKey) (now : Nat) :
    Moves epoch history acknowledged s (s.retireResolvedPredecessor k now) := by
  unfold retireResolvedPredecessor
  split
  · exact .refl h
  · split
    · exact .refl h
    · split
      · exact .refl h
      case isFalse hu =>
        obtain ⟨v, hv⟩ := RelayAdmissionRecord.exists_verdict fun hc =>
          hu (by rw [RelayAdmissionRecord.isUnadmitted, hc]; rfl)
        exact h.moves_retire hv now

theorem Sound.moves_retiredStatus (k : RelayAttemptKey)
    (now : Nat) : Moves epoch history acknowledged s (s.retiredStatus k now).1 := by
  have hm := h.moves_watermarks ((RelayChannelWatermarks.forgets_consult (w := s.watermarks)
    k.channel now).mono fun _ hf => hf.elim)
  unfold retiredStatus
  split
  case h_1 heq => rwa [heq] at hm
  case h_2 heq => rwa [heq] at hm

theorem Sound.verdict_retiredStatus
    (hs : (s.retiredStatus k now).2 = some status) (hv : status.verdict = some v) :
    ∃ p ∈ history, p.key = k ∧ p.verdict s.records = some v := by
  have hlast := RelayChannelWatermarks.consult_last (w := s.watermarks) k.channel now
  unfold retiredStatus at hs
  split at hs
  · split at hs
    · obtain rfl := Option.some.inj hs
      exact nomatch hv
    · exact nomatch hs
  case h_2 watermark heq =>
    rw [heq, Option.map_some] at hlast
    dsimp only at hs
    split at hs
    · obtain rfl := Option.some.inj hs
      exact nomatch hv
    · split at hs
      case isTrue hseq =>
        obtain rfl := Option.some.inj hs
        obtain ⟨⟨p, hp, hk, v', hv', hst⟩, -⟩ := h.accounts.marked _ _ _ hlast.symm
        rw [RelayAdmissionStatus.verdict_eq_some, hst] at hv
        have hvv : v'.status.verdict = some v := RelayAdmissionStatus.verdict_eq_some.mpr hv
        rw [RelayAdmissionStatus.verdict_eq_some.mpr rfl] at hvv
        refine ⟨p, hp, ?_, hv'.trans hvv⟩
        rw [hk, ← hseq]
      · exact nomatch hs

theorem Sound.verdict_held
    (hr : s.attempts.lookup k = some r) (hv : (s.records r).status.verdict = some v) :
    ∃ p ∈ history, p.key = k ∧ p.verdict s.records = some v :=
  ⟨_, (h.accounts.held k r hr).1, rfl, hv⟩

theorem Sound.moves_expireAttempt (r : RecordId)
    (now : Nat) : Moves epoch history acknowledged s (s.expireAttempt r now) := by
  have hcancel := h.moves_cancelRecord r
  obtain ⟨v, hv⟩ := (s.records r).exists_verdict_cancel
  refine hcancel.trans (hcancel.sound.moves_retire (v := v) ?_ now)
  simpa [cancelRecord, setRecord] using hv

theorem Sound.moves_sweep (now : Nat)
    (expired : List RecordId) : Moves epoch history acknowledged s (s.sweep now expired) := by
  have hfirst : Moves epoch history acknowledged s (s.sweepWatermarks now) := by
    obtain ⟨bindingSequence, hrun⟩ := h.run
    unfold sweepWatermarks
    split
    case h_1 hrun' => exact nomatch hrun.symm.trans hrun'
    all_goals exact h.moves_watermarks ((RelayChannelWatermarks.forgets_expire now s.holdsAttempt).mono
      fun _ => holdsAttempt_eq_false.mp)
  unfold sweep
  generalize s.sweepWatermarks now = t at hfirst
  induction expired generalizing t with
  | nil => exact hfirst
  | cons r expired ih => exact ih _ (hfirst.trans (hfirst.sound.moves_expireAttempt r now))

theorem Sound.moves_grantPosition (k : RelayAttemptKey)
    (now : Nat) : Moves epoch history acknowledged s (s.grantPosition k now).1 := by
  have hbusy : Moves epoch history acknowledged s (s.channelBusy k).1 := by
    unfold channelBusy
    split
    · exact .refl h
    · dsimp only
      split
      · split
        · exact .refl h
        · exact (Moves.refl h).congr rfl rfl rfl rfl rfl
      · exact (Moves.refl h).congr rfl rfl rfl rfl rfl
  unfold grantPosition
  dsimp only
  split
  · exact hbusy
  · exact hbusy.trans (hbusy.sound.moves_retireResolvedPredecessor k now)

theorem Sound.moves_expireGrant (grantId now : Nat) :
    Moves epoch history acknowledged s (s.expireGrant grantId now) := by
  unfold expireGrant
  split
  · exact .refl h
  case h_2 grant _ =>
    split
    · exact .refl h
    · have hcancel := (h.moves_cancelRecord grant.admission).congr
        (u := { s.cancelRecord grant.admission with grants := s.grants.erase grantId })
        rfl rfl rfl rfl rfl
      obtain ⟨v, hv⟩ := (s.records grant.admission).exists_verdict_cancel
      refine hcancel.trans (hcancel.sound.moves_retire (v := v) ?_ now)
      simpa [cancelRecord, setRecord] using hv

end

def Answered (epoch : Nat) (history : List Position) (records : RecordId → RelayAdmissionRecord)
    (k : RelayAttemptKey) (v : Verdict) : Prop :=
  k.channel.senderEpoch = epoch ∧ (∃ p ∈ history, p.key = k ∧ p.verdict records = some v) ∨
    k.channel.senderEpoch ≠ epoch ∧ v = .cancelled

theorem Answered.mono {history' : List Position} {records records' : RecordId → RelayAdmissionRecord}
    {v : Verdict} (h : Answered epoch history records k v) (hh : ∀ p ∈ history, p ∈ history')
    (hr : ∀ p ∈ history, ∀ v, p.verdict records = some v → p.verdict records' = some v) :
    Answered epoch history' records' k v := by
  rcases h with ⟨he, p, hp, hk, hv⟩ | h
  · exact .inl ⟨he, p, hh p hp, hk, hr p hp v hv⟩
  · exact .inr h

theorem Sound.answered (h : s.Sound epoch history acknowledged)
    (hv : ∃ p ∈ history, p.key = k ∧ p.verdict s.records = some v) :
    Answered epoch history s.records k v := by
  obtain ⟨p, hp, rfl, hv⟩ := hv
  exact .inl ⟨h.epochs p hp, p, hp, rfl, hv⟩

def granted (history : List Position) (k : RelayAttemptKey) (r : RecordId) :
    RelayGrantRegistration → List Position
  | .registered => history ++ [⟨k, some r⟩]
  | _ => history

def RelayGrantRegistration.verdict : RelayGrantRegistration → Option Verdict
  | .retired disposition => disposition.verdict
  | _ => none

theorem Sound.enterGrant (h : s.Sound epoch history acknowledged) (hr : r < s.allocated)
    (he : (s.records r).attempt.channel.senderEpoch = epoch)
    (hnone : s.attempts.lookup (s.records r).attempt = none)
    (hf : s.canFollow (s.records r).attempt = true) (grantId expiresAt : Nat) :
    (s.enterGrant grantId expiresAt r).Sound epoch
      (history ++ [⟨(s.records r).attempt, some r⟩]) acknowledged where
  run := h.run
  accounts := h.accounts.register hnone (follow_of_canFollow hf)
  registered k r' hm := by
    rcases List.mem_append.mp hm with hm | hm
    · exact h.registered k r' hm
    · obtain ⟨rfl, hr'⟩ := Position.mk.inj (List.mem_singleton.mp hm)
      obtain rfl := Option.some.inj hr'
      exact ⟨hr, rfl⟩
  epochs p hp := by
    rcases List.mem_append.mp hp with hp | hp
    · exact h.epochs p hp
    · obtain rfl := List.mem_singleton.mp hp
      exact he
  admitted := h.admitted

structure Registers (epoch : Nat) (history : List Position) (acknowledged : List RecordId)
    (s : RelayPeerOwner) (r : RecordId) (result : RelayPeerOwner × RelayGrantRegistration) :
    Prop where
  sound : result.1.Sound epoch (granted history (s.records r).attempt r result.2) acknowledged
  records : ∀ r', Follows (s.records r') (result.1.records r')
  verdict : ∀ v, RelayGrantRegistration.verdict result.2 = some v →
    Answered epoch history result.1.records (s.records r).attempt v

theorem Moves.registers (h : Moves epoch history acknowledged s t) (hans : answer ≠ .registered)
    (hv : RelayGrantRegistration.verdict answer = none) :
    Registers epoch history acknowledged s r (t, answer) where
  sound := by
    have hgranted : granted history (s.records r).attempt r answer = history := by
      cases answer <;> first | rfl | exact absurd rfl hans
    rw [hgranted]
    exact h.sound
  records := h.records
  verdict v hv' := nomatch hv.symm.trans hv'

theorem Sound.registers (h : s.Sound epoch history acknowledged) (hr : r < s.allocated)
    (grantId expiresAt now : Nat) :
    Registers epoch history acknowledged s r (s.register grantId expiresAt r now) := by
  unfold register
  dsimp only
  split
  case isTrue hep =>
    have hne : (s.records r).attempt.channel.senderEpoch ≠ epoch := by
      rw [Bool.not_eq_true', Bool.eq_false_iff, Ne, h.acceptsEpoch] at hep
      exact hep
    have hm := h.moves_cancelRecord r
    refine ⟨hm.sound, hm.records, fun v hv => .inr ⟨hne, ?_⟩⟩
    exact (Option.some.inj hv).symm
  case isFalse hep =>
    have he : (s.records r).attempt.channel.senderEpoch = epoch := by
      rw [Bool.not_eq_true', Bool.not_eq_false, h.acceptsEpoch] at hep
      exact hep
    split
    · exact (Moves.refl h).registers (fun h => nomatch h) rfl
    case h_2 hnone =>
      have hm := h.moves_retiredStatus (s.records r).attempt now
      split
      case h_1 t status heq =>
        have hst : (s.retiredStatus (s.records r).attempt now).2 = some status := by rw [heq]
        rw [heq] at hm
        refine ⟨hm.sound, hm.records, fun v hv => ?_⟩
        have hv' : status.verdict = some v :=
          (RelayGrantDisposition.verdict_ofStatus status).symm.trans hv
        exact (h.answered (h.verdict_retiredStatus hst hv')).mono (fun _ hp => hp)
          fun p _ => verdict_of_follows hm.records p
      case h_2 t heq =>
        rw [heq] at hm
        have hm' := hm.trans (hm.sound.moves_retireResolvedPredecessor (s.records r).attempt now)
        generalize t.retireResolvedPredecessor (s.records r).attempt now = u at hm'
        split
        · exact hm'.registers (fun h => nomatch h) rfl
        case isFalse hfollow =>
          split
          · exact hm'.registers (fun h => nomatch h) rfl
          · split
            · exact hm'.registers (fun h => nomatch h) rfl
            · split
              · exact hm'.registers (fun h => nomatch h) rfl
              · have hattempt := (hm'.records r).attempt
                have hu := hm'.sound.enterGrant (hr.trans_eq hm'.allocated.symm)
                  (hattempt ▸ he) (hattempt ▸ hm'.attempts _ hnone)
                  (by rw [hattempt]; simpa using hfollow) grantId expiresAt
                rw [hattempt] at hu
                exact ⟨hu, hm'.records, fun v hv => nomatch hv⟩

def cancels (s : RelayPeerOwner) (k : RelayAttemptKey) (now : Nat)
    (answer : RelayAdmissionStatus × Option RecordId) : Bool :=
  (s.retiredStatus k now).2 = none ∧ answer = (.cancelled, none)

structure Controls (epoch : Nat) (history : List Position) (acknowledged : List RecordId)
    (s : RelayPeerOwner) (k : RelayAttemptKey) (now : Nat)
    (result : RelayPeerOwner × RelayAdmissionStatus × Option RecordId) : Prop where
  sound : result.1.Sound epoch
    (if s.cancels k now result.2 then history ++ [⟨k, none⟩] else history) acknowledged
  records : ∀ r, Follows (s.records r) (result.1.records r)
  verdict : ∀ v, result.2.1.verdict = some v → Answered epoch
    (if s.cancels k now result.2 then history ++ [⟨k, none⟩] else history) result.1.records k v

theorem Moves.controls
    (h : Moves epoch history acknowledged s t) (hans : s.cancels k now answer = false)
    (hv : ∀ v, answer.1.verdict = some v → Answered epoch history t.records k v) :
    Controls epoch history acknowledged s k now (t, answer) := by
  refine ⟨?_, h.records, ?_⟩
  all_goals
    rw [hans, if_neg Bool.false_ne_true]
  · exact h.sound
  · exact hv

section
variable (h : s.Sound epoch history acknowledged)
include h

theorem Sound.cancelPosition
    (he : k.channel.senderEpoch = epoch) (hnone : s.attempts.lookup k = none)
    (hf : s.canFollow k = true) (now : Nat) :
    (s.recordWatermark k .cancelled now).Sound epoch (history ++ [⟨k, none⟩]) acknowledged := by
  have hfollow := follow_of_canFollow hf
  have hle : ∀ n status, s.watermarks.last k.channel = some (n, status) → n ≤ k.sequence := by
    intro n status hlast
    have : n + 1 = k.sequence := by simpa [Accounts.Follow, hlast] using hfollow
    omega
  obtain ⟨u, hu, heq⟩ := RelayChannelWatermarks.record_spec .cancelled s.holdsAttempt now hle
  -- the floor may rise above `k` while room is made, so the watermark is placed first
  have haccounts := (h.accounts.cancel hnone hfollow now).forgets
    ((hu.mono fun _ => holdsAttempt_eq_false.mp).place k.channel ⟨k.sequence, .cancelled, now⟩)
  exact {
    run := h.run
    accounts := by
      simp only [recordWatermark, heq]
      exact haccounts
    registered := by
      intro k' r hm
      rcases List.mem_append.mp hm with hm | hm
      · exact h.registered k' r hm
      · cases (Position.mk.inj (List.mem_singleton.mp hm)).2
    epochs := by
      intro p hp
      rcases List.mem_append.mp hp with hp | hp
      · exact h.epochs p hp
      · obtain rfl := List.mem_singleton.mp hp
        exact he
    admitted := h.admitted }

theorem Sound.controls (k : RelayAttemptKey) (cancel : Bool) (now : Nat) :
    Controls epoch history acknowledged s k now (s.control k cancel now) := by
  unfold control
  split
  · exact (Moves.refl h).controls (by simp [cancels]) fun v hv => by cases hv
  case isFalse hep =>
    have he : k.channel.senderEpoch = epoch := by
      rw [Bool.not_eq_true', Bool.not_eq_false, h.acceptsEpoch] at hep
      exact hep
    split
    case h_1 r hr =>
      split
      · have hm : ∀ grants, Moves epoch history acknowledged s
            { s.cancelRecord r with grants := grants } :=
          fun _ => (h.moves_cancelRecord r).congr rfl rfl rfl rfl rfl
        exact (hm _).controls (by simp [cancels]) fun v hv =>
          (hm _).sound.answered ((hm _).sound.verdict_held hr hv)
      · exact (Moves.refl h).controls (by simp [cancels]) fun v hv =>
          h.answered (h.verdict_held hr hv)
    case h_2 hnone =>
      have hm := h.moves_retiredStatus k now
      split
      case h_1 t status heq =>
        have hst : (s.retiredStatus k now).2 = some status := by rw [heq]
        rw [heq] at hm
        refine hm.controls (by simp [cancels, hst]) fun v hv => ?_
        exact (h.answered (h.verdict_retiredStatus hst hv)).mono (fun _ hp => hp)
          fun p _ => verdict_of_follows hm.records p
      case h_2 t heq =>
        have hst : (s.retiredStatus k now).2 = none := by rw [heq]
        rw [heq] at hm
        split
        · exact hm.controls (by simp [cancels]) fun v hv => by cases hv
        · have hm' := hm.trans (hm.sound.moves_retireResolvedPredecessor k now)
          dsimp only
          generalize t.retireResolvedPredecessor k now = u at hm'
          split
          case isFalse => exact hm'.controls (by simp [cancels]) fun v hv => by cases hv
          case isTrue hfollow =>
            have hcancels : s.cancels k now (.cancelled, none) = true := by simp [cancels, hst]
            have hsound := hm'.sound.cancelPosition he (hm'.attempts k hnone) hfollow.2 now
            refine ⟨?_, hm'.records, ?_⟩
            all_goals
              rw [hcancels, if_pos rfl]
            · exact hsound
            · intro v hv
              refine hsound.answered ⟨⟨k, none⟩, List.mem_append_right _ List.mem_cons_self, rfl, ?_⟩
              exact hv

theorem Sound.moves_completedAdmission
    (key : RelayAdmissionKey) (outcome : RemoteAckOutcome) (now : Nat)
    (hack : ∀ r, s.admissions.lookup key = some r → outcome = .ack → r ∈ acknowledged) :
    Moves epoch history acknowledged s (s.completedAdmission key outcome now).1 := by
  unfold completedAdmission
  split
  · exact .refl h
  case h_2 r hr =>
    split
    case h_1 reason =>
      refine h.moves_setRecord (Follows.reportProgress.trans .reject) fun hc => ?_
      have heq := RelayAdmissionRecord.reject_eq_self hc
      rw [heq] at hc ⊢
      exact h.admitted r hc
    case h_2 =>
      exact h.moves_setRecord (Follows.reportProgress.trans .markAdmitted) fun _ =>
        .inr (hack r hr rfl)
    all_goals exact h.moves_setRecord .reportProgress (h.admitted r)

theorem Sound.allocate (record : RelayAdmissionRecord) (hrecord : record.choice = .pending) :
    (s.allocate record).Sound epoch history acknowledged := by
  have hold : ∀ k r, ⟨k, some r⟩ ∈ history →
      Function.update s.records s.allocated record r = s.records r := by
    intro k r hm
    exact Function.update_of_ne (h.registered k r hm).1.ne _ _
  exact {
    run := h.run
    accounts := h.accounts.congr_records fun p hp v hv => by
      obtain ⟨k, _ | r⟩ := p
      · exact hv
      · unfold Position.verdict at hv ⊢
        dsimp only [RelayPeerOwner.allocate, setRecord] at hv ⊢
        rwa [hold k r hp]
    registered := by
      intro k r hm
      obtain ⟨hlt, ha⟩ := h.registered k r hm
      exact ⟨hlt.trans (Nat.lt_succ_self _), (congrArg _ (hold k r hm)).trans ha⟩
    epochs := h.epochs
    admitted := by
      intro r hc
      by_cases hr : r = s.allocated
      · subst hr
        simp only [RelayPeerOwner.allocate, setRecord, Function.update_self] at hc
        exact nomatch hrecord.symm.trans hc
      · simp only [RelayPeerOwner.allocate, setRecord, Function.update_of_ne hr] at hc ⊢
        exact h.admitted r hc }

end

end RelayPeerOwner

end Nervix.Interconnect
