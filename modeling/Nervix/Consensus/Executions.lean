import Nervix.Consensus.Transition

/-!
# Executions over whole runs

A command reference passes through applying, finished and expired in this order and is forgotten
only when the retry fence passed the time embedded in it. The fence never moves back, so a forgotten
reference is never admitted again.
-/

namespace Nervix.Consensus

open Finmap
open StateMachineData (admitCommandExecution applyEntry applyEntry_rule initial)
open CommandExecution CommandExecutionRecords

namespace CommandExecution

variable {e e' e'' : CommandExecution}

def Continues (e e' : CommandExecution) : Prop :=
  ∀ {restore'}, e'.restoreExecution = some restore' → ∃ restore,
    e.restoreExecution = some restore ∧ restore.completed ⊆ restore'.completed

structure Precedes (e e' : CommandExecution) : Prop where
  reference : e'.reference = e.reference
  request : e'.isExpired = false → e.isExpired = false ∧ e'.request = e.request
  finished : ∀ {f}, e.state = .finished f → e'.state = .finished f ∨ e'.state = .expired
  applying : e'.isApplying = true → e.isApplying = true
  progress : e.Continues e'

theorem Precedes.refl : e.Precedes e where
  reference := rfl
  request h := ⟨h, rfl⟩
  finished h := .inl h
  applying h := h
  progress h := ⟨_, h, subset_rfl⟩

theorem isExpired_iff : e.isExpired = true ↔ e.state = .expired := by
  unfold isExpired
  split <;> simp [*]

theorem Precedes.trans (h : e.Precedes e') (h' : e'.Precedes e'') : e.Precedes e'' where
  reference := h'.reference.trans h.reference
  request hx := by
    obtain ⟨hx', hr'⟩ := h'.request hx
    obtain ⟨hx, hr⟩ := h.request hx'
    exact ⟨hx, hr'.trans hr⟩
  finished hf := by
    rcases h.finished hf with hf' | hx
    · exact h'.finished hf'
    · refine .inr (isExpired_iff.mp ?_)
      by_contra hn
      have := (h'.request (by simpa using hn)).1
      rw [isExpired_iff.mpr hx] at this
      cases this
  applying ha := h.applying (h'.applying ha)
  progress hr := by
    obtain ⟨restore', hr', hsub'⟩ := h'.progress hr
    obtain ⟨restore, hr, hsub⟩ := h.progress hr'
    exact ⟨restore, hr, hsub.trans hsub'⟩

structure Evolves (e e' : CommandExecution) : Prop where
  reference : e'.reference = e.reference
  applying : e.isApplying = true
  request : e'.request = e.request
  retained : e'.isExpired = false
  progress : e.Continues e'

theorem isApplying_iff : e.isApplying = true ↔ ∃ a, e.state = .applying a := by
  unfold isApplying
  split <;> simp [*]

theorem Evolves.precedes (h : e.Evolves e') : e.Precedes e' where
  reference := h.reference
  request _ := by
    obtain ⟨a, ha⟩ := isApplying_iff.mp h.applying
    exact ⟨by simp [isExpired, ha], h.request⟩
  finished hf := by
    obtain ⟨a, ha⟩ := isApplying_iff.mp h.applying
    rw [ha] at hf
    cases hf
  applying _ := h.applying
  progress := h.progress

theorem evolves_bindDomainMutation
    (h : e.isApplying = true) : e.Evolves (e.bindDomainMutation domain lease) := by
  obtain ⟨a, ha⟩ := isApplying_iff.mp h
  obtain ⟨reference, state⟩ := e
  subst ha
  exact ⟨rfl, rfl, rfl, rfl, fun h => ⟨_, h, subset_rfl⟩⟩

theorem evolves_releaseDomainMutation (h : e.isApplying = true) :
    e.Evolves (e.releaseDomainMutation domain) := by
  obtain ⟨a, ha⟩ := isApplying_iff.mp h
  obtain ⟨reference, state⟩ := e
  subst ha
  exact ⟨rfl, rfl, rfl, rfl, fun h => ⟨_, h, subset_rfl⟩⟩

theorem isApplying_of_restoreExecution (h : e.restoreExecution = some restore) :
    ∃ a, e.state = .applying a ∧ a.effect = .restore restore := by
  obtain ⟨reference, state⟩ := e
  unfold restoreExecution effect at h
  cases state with
  | applying a =>
    refine ⟨a, rfl, ?_⟩
    dsimp only at h
    split at h
    · rename_i h'
      cases h
      exact Option.some.inj h'
    · cases h
  | finished f => cases h
  | expired => cases h

theorem evolves_recordRestoreStep (h : e.restoreExecution = some restore) :
    e.Evolves (e.recordRestoreStep step users) := by
  obtain ⟨a, ha, he⟩ := isApplying_of_restoreExecution h
  obtain ⟨reference, state⟩ := e
  subst ha
  simp only [recordRestoreStep, he]
  refine ⟨rfl, rfl, by simp [request, CommandExecutionEffect.evidence, he], rfl, fun hr => ?_⟩
  cases hr
  exact ⟨restore, h, Finset.subset_insert _ _⟩

theorem evolves_intoFinished (h : e.intoFinished revision finishedAt result = some e') :
    e.Evolves e' := by
  obtain ⟨reference, state⟩ := e
  cases state with
  | applying a =>
    cases h
    exact ⟨rfl, rfl, rfl, rfl, nofun⟩
  | finished f => cases h
  | expired => cases h

theorem evolves_alterCluster (ha : e.state = .applying a)
    (he : a.effect = .alterCluster changes none) :
    e.Evolves { e with
      state := .applying { a with effect := .alterCluster changes (some record) } } := by
  refine ⟨rfl, by simp [isApplying, ha], ?_, rfl, nofun⟩
  simp [request, ha, he, CommandExecutionEffect.evidence]

theorem isApplying_foldl_bind (leases : List (DomainName × DomainMutationLease)) :
    ∀ e : CommandExecution, e.isApplying = true →
      (leases.foldl (fun e l => e.bindDomainMutation l.1 l.2) e).isApplying = true ∧
      (leases.foldl (fun e l => e.bindDomainMutation l.1 l.2) e).reference = e.reference ∧
      (leases.foldl (fun e l => e.bindDomainMutation l.1 l.2) e).request = e.request := by
  induction leases with
  | nil => exact fun e h => ⟨h, rfl, rfl⟩
  | cons l leases ih =>
    intro e h
    have hb : e.Evolves (e.bindDomainMutation l.1 l.2) := evolves_bindDomainMutation h
    have ha : (e.bindDomainMutation l.1 l.2).isApplying = true := by
      obtain ⟨a, ha⟩ := isApplying_iff.mp h
      simp [bindDomainMutation, ha, isApplying]
    obtain ⟨h₁, h₂, h₃⟩ := ih _ ha
    exact ⟨h₁, h₂.trans hb.reference, h₃.trans hb.request⟩

end CommandExecution

namespace CommandExecutionRecords

variable {issuedAt : RetryIssuedAt} {r r' r'' : CommandExecutionRecords}

structure Indexed (issuedAt : RetryIssuedAt) (r : CommandExecutionRecords) : Prop where
  keyed : ∀ {k e}, r.entries.lookup k = some e → e.reference = k
  issued : ∀ {k e}, r.entries.lookup k = some e → ∃ t, issuedAt k = .ok t
  applying : ∀ {k}, k ∈ r.applying ↔ ∃ e a, r.entries.lookup k = some e ∧ e.state = .applying a
  finished : ∀ {t k}, toLex (t, k) ∈ r.finished ↔
    ∃ e f, r.entries.lookup k = some e ∧ e.state = .finished f ∧ f.finishedAt = t
  expired : ∀ {t k}, toLex (t, k) ∈ r.expired ↔
    ∃ e, r.entries.lookup k = some e ∧ e.state = .expired ∧ issuedAt k = .ok t

theorem indexed_empty : Indexed issuedAt empty := by
  refine ⟨?_, ?_, ?_, ?_, ?_⟩ <;> simp [empty]

structure SameAt (r r' : CommandExecutionRecords) (k : CommandExecutionReference) : Prop where
  lookup : r'.entries.lookup k = r.entries.lookup k
  applying : k ∈ r'.applying ↔ k ∈ r.applying
  finished : ∀ t, toLex (t, k) ∈ r'.finished ↔ toLex (t, k) ∈ r.finished
  expired : ∀ t, toLex (t, k) ∈ r'.expired ↔ toLex (t, k) ∈ r.expired

variable {policy : CommandExecutionAdmissionPolicy} {k : CommandExecutionReference}

/-- A change under one key keeps the indexes right if they are right there. -/
theorem Indexed.update (h : Indexed issuedAt r) (hsame : ∀ k' ≠ k, SameAt r r' k')
    (hkeyed : ∀ e, r'.entries.lookup k = some e → e.reference = k ∧ ∃ t, issuedAt k = .ok t)
    (happlying : k ∈ r'.applying ↔ ∃ e a, r'.entries.lookup k = some e ∧ e.state = .applying a)
    (hfinished : ∀ t, toLex (t, k) ∈ r'.finished ↔
      ∃ e f, r'.entries.lookup k = some e ∧ e.state = .finished f ∧ f.finishedAt = t)
    (hexpired : ∀ t, toLex (t, k) ∈ r'.expired ↔
      ∃ e, r'.entries.lookup k = some e ∧ e.state = .expired ∧ issuedAt k = .ok t) :
    Indexed issuedAt r' := by
  refine ⟨fun {k'} => ?_, fun {k'} => ?_, fun {k'} => ?_, fun {t k'} => ?_, fun {t k'} => ?_⟩ <;>
    by_cases hk : k' = k
  all_goals first
    | subst hk
    | rw [(hsame k' hk).lookup]
  · exact fun he => (hkeyed _ he).1
  · exact h.keyed
  · exact fun he => (hkeyed _ he).2
  · exact h.issued
  · exact happlying
  · exact (hsame k' hk).applying.trans h.applying
  · exact hfinished t
  · exact ((hsame k' hk).finished t).trans h.finished
  · exact hexpired t
  · exact ((hsame k' hk).expired t).trans h.expired

theorem replace_entries (hl : r.entries.lookup e'.reference = some e) :
    (r.replace issuedAt e').entries = r.entries.insert e'.reference e' ∧
      (r.replace issuedAt e').retryFence = r.retryFence := by
  have hremove : (r.removeIndex issuedAt e).entries = r.entries ∧
      (r.removeIndex issuedAt e).retryFence = r.retryFence := by
    unfold removeIndex
    split <;> [exact ⟨rfl, rfl⟩; exact ⟨rfl, rfl⟩; skip]
    split <;> exact ⟨rfl, rfl⟩
  have hinsert : ((r.removeIndex issuedAt e).insertIndex issuedAt e').entries = r.entries ∧
      ((r.removeIndex issuedAt e).insertIndex issuedAt e').retryFence = r.retryFence := by
    unfold insertIndex
    split <;> [exact hremove; exact hremove; skip]
    split <;> exact hremove
  simp only [replace, hl, hinsert, and_self]

theorem Indexed.replace (h : Indexed issuedAt r)
    (hl : r.entries.lookup e.reference = some e) (he : e.Evolves e') :
    Indexed issuedAt (r.replace issuedAt e') := by
  obtain ⟨a, ha⟩ := isApplying_iff.mp he.applying
  obtain ⟨preceding, state⟩ := e
  obtain ⟨reference, state'⟩ := e'
  obtain rfl : reference = preceding := he.reference
  subst ha
  have hentry : ∀ x, some (⟨reference, state'⟩ : CommandExecution) = some x →
      x.reference = reference ∧ ∃ t, issuedAt reference = .ok t := by
    rintro _ ⟨⟩
    exact ⟨rfl, h.issued hl⟩
  cases state' with
  | expired => exact absurd he.retained (by simp [isExpired])
  | applying a' =>
    simp only [CommandExecutionRecords.replace, hl, removeIndex, insertIndex]
    refine h.update (k := reference) (fun k hk => ⟨lookup_insert_of_ne _ hk, by simp [hk],
      fun _ => Iff.rfl, fun _ => Iff.rfl⟩) ?_ ?_ (fun t => ?_) fun t => ?_ <;> rw [lookup_insert]
    · exact hentry
    · simp
    · simp [h.finished, hl]
    · simp [h.expired, hl]
  | finished f =>
    simp only [CommandExecutionRecords.replace, hl, removeIndex, insertIndex]
    refine h.update (k := reference) (fun k hk => ⟨lookup_insert_of_ne _ hk, by simp [hk],
      fun t => by simp [hk], fun _ => Iff.rfl⟩) ?_ ?_ (fun t => ?_) fun t => ?_ <;>
      rw [lookup_insert]
    · exact hentry
    · simp
    · simp [h.finished, hl, eq_comm]
    · simp [h.expired, hl]

theorem Indexed.dropExpired (h : Indexed issuedAt r) (hk : toLex (t, k) ∈ r.expired) :
    Indexed issuedAt (r.dropExpired (toLex (t, k))) := by
  obtain ⟨e, hl, hs, ht⟩ := h.expired.mp hk
  unfold CommandExecutionRecords.dropExpired
  refine h.update (k := k) (fun k' hk => ⟨lookup_erase_ne hk, Iff.rfl, fun _ => Iff.rfl,
    fun t => by simp [hk]⟩) ?_ ?_ (fun t' => ?_) fun t' => ?_ <;> rw [ofLex_toLex, lookup_erase]
  · exact nofun
  · simp [h.applying, hl, hs]
  · simp [h.finished, hl, hs]
  · simp [h.expired, hl, hs, ht, eq_comm]

def Passed (issuedAt : RetryIssuedAt) (r : CommandExecutionRecords)
    (k : CommandExecutionReference) : Prop :=
  ∃ t f, issuedAt k = .ok t ∧ r.retryFence = some f ∧ t ≤ f

structure Later (issuedAt : RetryIssuedAt) (r r' : CommandExecutionRecords) : Prop where
  fence : ∀ {f}, r.retryFence = some f → ∃ f', r'.retryFence = some f' ∧ f ≤ f'
  retained : ∀ {k e}, r.entries.lookup k = some e →
    (∃ e', r'.entries.lookup k = some e' ∧ e.Precedes e') ∨
      r'.entries.lookup k = none ∧ r'.Passed issuedAt k
  forgotten : ∀ {k}, r.entries.lookup k = none → r.Passed issuedAt k → r'.entries.lookup k = none

theorem Later.refl : Later issuedAt r r where
  fence h := ⟨_, h, le_refl _⟩
  retained h := .inl ⟨_, h, .refl⟩
  forgotten h _ := h

theorem Passed.later (h : r.Passed issuedAt k)
    (hl : Later issuedAt r r') : r'.Passed issuedAt k := by
  obtain ⟨t, f, ht, hf, hle⟩ := h
  obtain ⟨f', hf', hle'⟩ := hl.fence hf
  exact ⟨t, f', ht, hf', hle.trans hle'⟩

theorem Later.trans (h : Later issuedAt r r') (h' : Later issuedAt r' r'') :
    Later issuedAt r r'' where
  fence hf := by
    obtain ⟨f', hf', hle⟩ := h.fence hf
    obtain ⟨f'', hf'', hle'⟩ := h'.fence hf'
    exact ⟨f'', hf'', hle.trans hle'⟩
  retained hl := by
    rcases h.retained hl with ⟨e', hl', hp⟩ | ⟨hn, hp⟩
    · rcases h'.retained hl' with ⟨e'', hl'', hp'⟩ | hgone
      · exact .inl ⟨e'', hl'', hp.trans hp'⟩
      · exact .inr hgone
    · exact .inr ⟨h'.forgotten hn hp, hp.later h'⟩
  forgotten hn hp := h'.forgotten (h.forgotten hn hp) (hp.later h)

theorem effectiveRetryFence_of_some (h : r.retryFence = some f) :
    f ≤ r.effectiveRetryFence fence := by
  rw [effectiveRetryFence, h]
  exact le_max_left ..

theorem later_insertAdmitted (hl : r.entries.lookup execution.reference = none)
    (hv : ¬r.Passed issuedAt execution.reference) :
    Later issuedAt r (r.insertAdmitted execution policy) where
  fence hf := ⟨_, rfl, effectiveRetryFence_of_some hf⟩
  retained {k e} hk := by
    refine .inl ⟨e, ?_, .refl⟩
    rw [insertAdmitted, lookup_insert_of_ne _ ?_, hk]
    rintro rfl
    rw [hl] at hk
    cases hk
  forgotten {k} hn hp := by
    rw [insertAdmitted, lookup_insert_of_ne _ ?_, hn]
    rintro rfl
    exact hv hp

theorem later_insert (hl : r.entries.lookup k = some e) (hp : e.Precedes e')
    (hent : r'.entries = r.entries.insert k e') (hf : r'.retryFence = r.retryFence) :
    Later issuedAt r r' where
  fence h := ⟨_, hf ▸ h, le_refl _⟩
  retained {k' x} hk' := by
    left
    rw [hent, lookup_insert_eq]
    split
    · subst k'
      rw [hl] at hk'
      cases hk'
      exact ⟨e', rfl, hp⟩
    · exact ⟨x, hk', .refl⟩
  forgotten {k'} hn _ := by
    rw [hent, lookup_insert_of_ne _ ?_, hn]
    rintro rfl
    rw [hl] at hn
    cases hn

theorem later_erase (hp : r.Passed issuedAt k)
    (hent : r'.entries = r.entries.erase k) (hf : r'.retryFence = r.retryFence) :
    Later issuedAt r r' where
  fence h := ⟨_, hf ▸ h, le_refl _⟩
  retained {k' x} hk' := by
    rw [hent, lookup_erase_eq]
    split
    · subst k'
      obtain ⟨t, f, ht, hfence, hle⟩ := hp
      exact .inr ⟨rfl, t, f, ht, hf ▸ hfence, hle⟩
    · exact .inl ⟨x, hk', .refl⟩
  forgotten {k'} hn _ := by
    rw [hent, lookup_erase_eq]
    split <;> [rfl; exact hn]

structure Reclaims (issuedAt : RetryIssuedAt) (r r' : CommandExecutionRecords) : Prop where
  indexed : Indexed issuedAt r'
  fence : r'.retryFence = r.retryFence
  later : Later issuedAt r r'
  applying : ∀ {k e}, e.isApplying = true →
    (r'.entries.lookup k = some e ↔ r.entries.lookup k = some e)

theorem Reclaims.refl (h : Indexed issuedAt r) : Reclaims issuedAt r r :=
  ⟨h, rfl, .refl, fun _ => Iff.rfl⟩

theorem Reclaims.trans (h : Reclaims issuedAt r r') (h' : Reclaims issuedAt r' r'') :
    Reclaims issuedAt r r'' where
  indexed := h'.indexed
  fence := h'.fence.trans h.fence
  later := h.later.trans h'.later
  applying ha := (h'.applying ha).trans (h.applying ha)

theorem lookup_applying_iff {entries : Records CommandExecutionReference CommandExecution}
    (hl : r.entries.lookup k = some e) (hn : e.isApplying = false)
    (hgone : ∀ x, entries.lookup k = some x → x.isApplying = false)
    (hsame : ∀ {k'}, k' ≠ k → entries.lookup k' = r.entries.lookup k')
    (ha : x.isApplying = true) : entries.lookup k' = some x ↔ r.entries.lookup k' = some x := by
  by_cases hk : k' = k
  · subst hk
    constructor
    · intro h
      rw [hgone x h] at ha
      cases ha
    · intro h
      rw [hl] at h
      cases h
      rw [hn] at ha
      cases ha
  · rw [hsame hk]

theorem reclaims_dropExpired
    (h : Indexed issuedAt r) (hk : toLex (t, k) ∈ r.expired) (hf : r.retryFence = some fence)
    (ht : t ≤ fence) : Reclaims issuedAt r (r.dropExpired (toLex (t, k))) := by
  obtain ⟨e, hl, hs, hissued⟩ := h.expired.mp hk
  refine ⟨h.dropExpired hk, rfl, later_erase ⟨t, fence, hissued, hf, ht⟩ rfl rfl, ?_⟩
  refine lookup_applying_iff hl (by simp [isApplying, hs]) (fun x hx => ?_)
    lookup_erase_ne
  rw [dropExpired, ofLex_toLex, lookup_erase] at hx
  cases hx

theorem mem_finished_erase (h : Indexed issuedAt r) (hk : toLex (t, k) ∈ r.finished) :
    toLex (t', k') ∈ r.finished.erase (toLex (t, k)) ↔ k' ≠ k ∧ toLex (t', k') ∈ r.finished := by
  rw [Finset.mem_erase, Ne, EmbeddingLike.apply_eq_iff_eq, Prod.mk.injEq]
  obtain ⟨e, f, hl, hs, rfl⟩ := h.finished.mp hk
  constructor
  · rintro ⟨hne, hin⟩
    refine ⟨?_, hin⟩
    rintro rfl
    obtain ⟨e', f', hl', hs', rfl⟩ := h.finished.mp hin
    rw [hl] at hl'
    cases hl'
    rw [hs] at hs'
    cases hs'
    exact hne ⟨rfl, rfl⟩
  · rintro ⟨hne, hin⟩
    exact ⟨fun heq => hne heq.2, hin⟩

theorem reclaimFinished_eq (hl : r.entries.lookup k = some e)
    (hs : e.state = .finished f) (hissued : issuedAt k = .ok issued) :
    r.reclaimFinished issuedAt fence (toLex (t, k)) =
      if issued ≤ fence then
        { r with finished := r.finished.erase (toLex (t, k)), entries := r.entries.erase k }
      else { r with
        finished := r.finished.erase (toLex (t, k))
        expired := insert (toLex (issued, k)) r.expired
        entries := r.entries.insert k { e with state := .expired } } := by
  simp only [reclaimFinished, ofLex_toLex, hl, hissued, intoExpired, hs]

theorem precedes_expired (e : CommandExecution) : e.Precedes { e with state := .expired } := by
  refine ⟨rfl, fun h => ?_, fun _ => .inr rfl, fun h => ?_, fun h => ?_⟩ <;> cases h

theorem reclaims_reclaimFinished
    (h : Indexed issuedAt r) (hk : toLex (t, k) ∈ r.finished) (hf : r.retryFence = some fence) :
    Reclaims issuedAt r (r.reclaimFinished issuedAt fence (toLex (t, k))) := by
  have hfin : ∀ t' k', toLex (t', k') ∈ r.finished.erase (toLex (t, k)) ↔
      k' ≠ k ∧ toLex (t', k') ∈ r.finished := fun t' k' => mem_finished_erase h hk
  obtain ⟨e, f, hl, hs, rfl⟩ := h.finished.mp hk
  obtain ⟨issued, hissued⟩ := h.issued hl
  have hn : e.isApplying = false := by simp [isApplying, hs]
  rw [reclaimFinished_eq hl hs hissued]
  split
  · rename_i hle
    refine ⟨?_, rfl, later_erase ⟨issued, fence, hissued, hf, hle⟩ rfl rfl,
      lookup_applying_iff hl hn (fun x hx => ?_) lookup_erase_ne⟩
    on_goal 2 => rw [lookup_erase] at hx; cases hx
    refine h.update (k := k) (fun k' hk' => ⟨lookup_erase_ne hk', Iff.rfl, fun t' => ?_,
      fun _ => Iff.rfl⟩) ?_ ?_ (fun t' => ?_) fun t' => ?_
    · simp [hfin, hk']
    all_goals rw [lookup_erase]
    · rintro _ ⟨⟩
    · simp [h.applying, hl, hs]
    · simp [hfin]
    · simp [h.expired, hl, hs]
  · refine ⟨?_, rfl, later_insert hl (precedes_expired e) rfl rfl,
      lookup_applying_iff hl hn (fun x hx => ?_) fun hk => lookup_insert_of_ne _ hk⟩
    on_goal 2 => rw [lookup_insert] at hx; cases hx; rfl
    refine h.update (k := k) (fun k' hk' => ⟨lookup_insert_of_ne _ hk', Iff.rfl, fun t' => ?_,
      fun t' => ?_⟩) ?_ ?_ (fun t' => ?_) fun t' => ?_
    · simp [hfin, hk']
    · simp [hk']
    all_goals rw [lookup_insert]
    · rintro _ ⟨⟩
      exact ⟨show e.reference = k from h.keyed hl, issued, hissued⟩
    · simp [h.applying, hl, hs]
    · simp [hfin]
    · simp [h.expired, hl, hs, hissued, eq_comm]

theorem reclaims_expired : ∀ (l : List ExpiredCommandExecutionKey)
    {r : CommandExecutionRecords}, l.Nodup → (∀ x ∈ l, x ∈ r.expired ∧ (ofLex x).1 ≤ fence) →
    r.retryFence = some fence → Indexed issuedAt r → Reclaims issuedAt r (l.foldl dropExpired r)
  | [], _, _, _, _, h => .refl h
  | x :: l, r, hd, hx, hf, h => by
    obtain ⟨⟨t, k⟩, rfl⟩ : ∃ p, x = toLex p := ⟨ofLex x, rfl⟩
    obtain ⟨hnotin, hd⟩ := List.nodup_cons.mp hd
    obtain ⟨hin, hle⟩ := hx _ List.mem_cons_self
    have hfirst := reclaims_dropExpired h hin hf hle
    refine hfirst.trans (reclaims_expired l hd (fun y hy => ?_) (hfirst.fence.trans hf)
      hfirst.indexed)
    obtain ⟨hy', hle⟩ := hx y (List.mem_cons_of_mem _ hy)
    exact ⟨Finset.mem_erase.mpr ⟨fun heq => hnotin (heq ▸ hy), hy'⟩, hle⟩

theorem reclaims_finished : ∀ (l : List FinishedCommandExecutionKey)
    {r : CommandExecutionRecords}, l.Nodup → (∀ x ∈ l, x ∈ r.finished) →
    r.retryFence = some fence → Indexed issuedAt r →
    Reclaims issuedAt r (l.foldl (reclaimFinished issuedAt fence) r)
  | [], _, _, _, _, h => .refl h
  | x :: l, r, hd, hx, hf, h => by
    obtain ⟨⟨t, k⟩, rfl⟩ : ∃ p, x = toLex p := ⟨ofLex x, rfl⟩
    obtain ⟨hnotin, hd⟩ := List.nodup_cons.mp hd
    have hin := hx _ List.mem_cons_self
    have hfirst := reclaims_reclaimFinished h hin hf
    refine hfirst.trans (reclaims_finished l hd (fun y hy => ?_) (hfirst.fence.trans hf)
      hfirst.indexed)
    obtain ⟨e, f, hl, hs, -⟩ := h.finished.mp hin
    obtain ⟨issued, hissued⟩ := h.issued hl
    have hy' := hx y (List.mem_cons_of_mem _ hy)
    have herase : y ∈ r.finished.erase (toLex (t, k)) := Finset.mem_erase.mpr ⟨fun heq => hnotin (heq ▸ hy), hy'⟩
    rw [reclaimFinished_eq hl hs hissued]
    split <;> exact herase

theorem takeWhile_eq_filter [LinearOrder α] {keys : Finset (Timestamp ×ₗ α)} :
    ((keys.sort (· ≤ ·)).takeWhile fun x => (ofLex x).1 ≤ bound) =
      (keys.sort (· ≤ ·)).filter fun x => (ofLex x).1 ≤ bound := by
  refine List.takeWhile_eq_filter_of_pairwise ((Finset.pairwise_sort keys (· ≤ ·)).imp ?_)
  intro x y hxy hy
  have hle : (ofLex x).1 ≤ (ofLex y).1 := Prod.Lex.monotone_fst _ _ hxy
  exact decide_eq_true (hle.trans (of_decide_eq_true hy))

theorem reclaims_reclaim {finishedBefore retryFence : Timestamp} (h : Indexed issuedAt r) :
    Indexed issuedAt (r.reclaim issuedAt finishedBefore retryFence) ∧
      Later issuedAt r (r.reclaim issuedAt finishedBefore retryFence) ∧
      ∀ {k e}, e.isApplying = true →
        ((r.reclaim issuedAt finishedBefore retryFence).entries.lookup k = some e ↔
          r.entries.lookup k = some e) := by
  have hmoved : Later issuedAt r { r with retryFence := some (r.effectiveRetryFence retryFence) } :=
    ⟨fun hf => ⟨_, rfl, effectiveRetryFence_of_some hf⟩, fun h => .inl ⟨_, h, .refl⟩, fun h _ => h⟩
  unfold reclaim
  dsimp only
  rw [takeWhile_eq_filter, takeWhile_eq_filter]
  have hexpired := reclaims_expired
    ((r.expired.sort (· ≤ ·)).filter fun x => (ofLex x).1 ≤ r.effectiveRetryFence retryFence)
    ((Finset.sort_nodup ..).filter _) (fun x hx => by simpa using hx) rfl
    ({ h with } : Indexed issuedAt { r with retryFence := some _ })
  have hfinished := reclaims_finished
    (((List.foldl dropExpired _ _).finished.sort (· ≤ ·)).filter
      fun x => (ofLex x).1 ≤ finishedBefore)
    ((Finset.sort_nodup ..).filter _) (fun x hx => by simpa using (List.mem_filter.mp hx).1)
    hexpired.fence hexpired.indexed
  have hall := hexpired.trans hfinished
  exact ⟨hall.indexed, hmoved.trans hall.later, hall.applying⟩

inductive Step (issuedAt : RetryIssuedAt) (r : CommandExecutionRecords) :
    CommandExecutionRecords → Prop
  | refl : Step issuedAt r r
  | admitted {execution a policy} : r.entries.lookup execution.reference = none →
      r.validateAdmission issuedAt execution.reference policy = .ok () →
      execution.state = .applying a → Step issuedAt r (r.insertAdmitted execution policy)
  | replaced {k e e'} : r.entries.lookup k = some e → e.Evolves e' →
      Step issuedAt r (r.replace issuedAt e')
  | reclaimed {finishedBefore retryFence} :
      Step issuedAt r (r.reclaim issuedAt finishedBefore retryFence)

theorem issued_of_validateAdmission (h : r.validateAdmission issuedAt k policy = .ok ()) :
    ∃ t, issuedAt k = .ok t ∧ r.effectiveRetryFence policy.retryFence < t := by
  unfold validateAdmission CommandExecutionAdmissionPolicy.validateReference at h
  cases hk : issuedAt k with
  | error e => cases e <;> simp [hk] at h
  | ok t =>
    refine ⟨t, rfl, ?_⟩
    by_contra hle
    simp [hk, not_lt.mp hle] at h

theorem not_passed_of_validateAdmission (h : r.validateAdmission issuedAt k policy = .ok ()) :
    ¬r.Passed issuedAt k := by
  rintro ⟨t, f, ht, hf, hle⟩
  obtain ⟨t', ht', hlt⟩ := issued_of_validateAdmission h
  rw [ht] at ht'
  cases ht'
  exact absurd (hle.trans (effectiveRetryFence_of_some hf)) (not_le.mpr hlt)

section
variable (hs : Step issuedAt r r') (h : Indexed issuedAt r)
include hs h

theorem Step.indexed : Indexed issuedAt r' := by
  cases hs with
  | refl => exact h
  | admitted hl hv ha =>
    obtain ⟨t, ht, -⟩ := issued_of_validateAdmission hv
    unfold insertAdmitted
    refine h.update (k := _) (fun k' hk => ⟨lookup_insert_of_ne _ hk, by simp [hk],
      fun _ => Iff.rfl, fun _ => Iff.rfl⟩) (fun e he => ?_) ?_ (fun t => ?_) fun t => ?_ <;>
      rw [lookup_insert] at *
    · cases he
      exact ⟨rfl, t, ht⟩
    · simp [ha]
    · simp [ha, h.finished, hl]
    · simp [ha, h.expired, hl]
  | replaced hl he =>
    cases h.keyed hl
    exact h.replace hl he
  | reclaimed => exact (reclaims_reclaim h).1

theorem Step.later : Later issuedAt r r' := by
  cases hs with
  | refl => exact .refl
  | admitted hl hv _ => exact later_insertAdmitted hl (not_passed_of_validateAdmission hv)
  | replaced hl he =>
    cases h.keyed hl
    obtain ⟨hent, hf⟩ := replace_entries (he.reference.symm ▸ hl)
    exact later_insert (he.reference.symm ▸ hl) he.precedes hent hf
  | reclaimed => exact (reclaims_reclaim h).2.1

theorem Step.applying (hl : r.entries.lookup k = some e) (ha : e.isApplying = true) :
    ∃ e', r'.entries.lookup k = some e' ∧ e'.isExpired = false ∧ e'.request = e.request := by
  have hself : e.isExpired = false := by
    obtain ⟨a, ha⟩ := isApplying_iff.mp ha
    simp [isExpired, ha]
  cases hs with
  | refl => exact ⟨e, hl, hself, rfl⟩
  | admitted hn _ _ =>
    refine ⟨e, ?_, hself, rfl⟩
    rw [insertAdmitted, lookup_insert_of_ne _ ?_, hl]
    rintro rfl
    rw [hn] at hl
    cases hl
  | replaced hl' he =>
    cases h.keyed hl'
    obtain ⟨hent, -⟩ := replace_entries (he.reference.symm ▸ hl')
    rw [hent, lookup_insert_eq]
    split
    · subst k
      rw [he.reference, hl'] at hl
      cases hl
      exact ⟨_, rfl, he.retained, he.request⟩
    · exact ⟨e, hl, hself, rfl⟩
  | reclaimed => exact ⟨e, ((reclaims_reclaim h).2.2 ha).mpr hl, hself, rfl⟩

end

theorem foldlM_restoreIndex : ∀ (l : List CommandExecution) (r : CommandExecutionRecords),
    (∀ e ∈ l, ∃ t, issuedAt e.reference = .ok t) →
    l.foldlM (restoreIndex issuedAt) r = .ok (l.foldl (insertIndex issuedAt) r)
  | [], _, _ => rfl
  | e :: l, r, h => by
    obtain ⟨t, ht⟩ := h e List.mem_cons_self
    have hturn : r.restoreIndex issuedAt e = .ok (r.insertIndex issuedAt e) := by
      unfold restoreIndex
      rw [ht]
      cases e.state <;> rfl
    rw [List.foldlM_cons, hturn]
    exact foldlM_restoreIndex l (r.insertIndex issuedAt e)
      fun x hx => h x (List.mem_cons_of_mem e hx)

theorem foldl_insertIndex : ∀ (l : List CommandExecution) (r : CommandExecutionRecords),
    let r' := l.foldl (insertIndex issuedAt) r
    r'.entries = r.entries ∧ r'.retryFence = r.retryFence ∧
    (∀ k, k ∈ r'.applying ↔ k ∈ r.applying ∨ ∃ e ∈ l, ∃ a, e.state = .applying a ∧
      e.reference = k) ∧
    (∀ x, x ∈ r'.finished ↔ x ∈ r.finished ∨ ∃ e ∈ l, ∃ f, e.state = .finished f ∧
      x = toLex (f.finishedAt, e.reference)) ∧
    ∀ x, x ∈ r'.expired ↔ x ∈ r.expired ∨ ∃ e ∈ l, ∃ t, e.state = .expired ∧
      issuedAt e.reference = .ok t ∧ x = toLex (t, e.reference)
  | [], r => by simp
  | e :: l, r => by
    obtain ⟨hent, hf, happ, hfin, hexp⟩ := foldl_insertIndex l (r.insertIndex issuedAt e)
    refine ⟨hent.trans ?_, hf.trans ?_, fun k => (happ k).trans ?_, fun x => (hfin x).trans ?_,
      fun x => (hexp x).trans ?_⟩
    all_goals
      unfold insertIndex
      cases hs : e.state with
      | applying a => simp [hs, eq_comm, or_assoc, or_left_comm]
      | finished f => simp [hs, or_assoc, or_comm]
      | expired => cases ht : issuedAt e.reference <;> simp [hs, ht, or_assoc, or_comm]

theorem Indexed.fromEntries (h : Indexed issuedAt r) :
    fromEntries issuedAt r.entries r.retryFence = .ok r := by
  have hmem : ∀ {e}, e ∈ r.entries.ascending.map Prod.snd ↔
      r.entries.lookup e.reference = some e := by
    intro e
    simp only [List.mem_map, Prod.exists, exists_eq_right, mem_ascending]
    constructor
    · rintro ⟨k, hk⟩
      rwa [h.keyed hk]
    · exact fun hk => ⟨_, hk⟩
  unfold CommandExecutionRecords.fromEntries
  rw [foldlM_restoreIndex _ _ fun e he => h.issued (hmem.mp he)]
  obtain ⟨hent, hf, happ, hfin, hexp⟩ :=
    foldl_insertIndex (r.entries.ascending.map Prod.snd) ⟨r.entries, ∅, ∅, ∅, r.retryFence⟩
  refine congrArg _ (mk.injEq .. ▸ ⟨hent, ?_, ?_, ?_, hf⟩)
  · refine Finset.ext fun k => (happ k).trans ?_
    simp only [Finset.notMem_empty, false_or, hmem, h.applying]
    constructor
    · rintro ⟨e, he, a, ha, rfl⟩
      exact ⟨e, a, he, ha⟩
    · rintro ⟨e, a, he, ha⟩
      exact ⟨e, (h.keyed he).symm ▸ he, a, ha, h.keyed he⟩
  · refine Finset.ext fun x => (hfin x).trans ?_
    obtain ⟨⟨t, k⟩, rfl⟩ : ∃ p, x = toLex p := ⟨ofLex x, rfl⟩
    simp only [Finset.notMem_empty, false_or, hmem, h.finished, EmbeddingLike.apply_eq_iff_eq,
      Prod.mk.injEq]
    constructor
    · rintro ⟨e, he, f, hs, rfl, rfl⟩
      exact ⟨e, f, he, hs, rfl⟩
    · rintro ⟨e, f, he, hs, rfl⟩
      exact ⟨e, (h.keyed he).symm ▸ he, f, hs, rfl, (h.keyed he).symm⟩
  · refine Finset.ext fun x => (hexp x).trans ?_
    obtain ⟨⟨t, k⟩, rfl⟩ : ∃ p, x = toLex p := ⟨ofLex x, rfl⟩
    simp only [Finset.notMem_empty, false_or, hmem, h.expired, EmbeddingLike.apply_eq_iff_eq,
      Prod.mk.injEq]
    constructor
    · rintro ⟨e, he, t, hs, ht, rfl, rfl⟩
      exact ⟨e, he, hs, ht⟩
    · rintro ⟨e, he, hs, ht⟩
      have hk := h.keyed he
      exact ⟨e, hk.symm ▸ he, t, hs, hk.symm ▸ ht, rfl, hk.symm⟩

end CommandExecutionRecords

def ConsensusCommand.ProposesApplying : ConsensusCommand → Prop
  | .admitCommandExecution execution _ _ => execution.isApplying = true
  | _ => True

def CommandExecution.IsFresh (e : CommandExecution) : Prop :=
  ∃ a, e.state = .applying a ∧ a.domainMutations = ∅ ∧
    ∀ restore, a.effect = .restore restore → restore.completed = ∅

def ConsensusCommand.ProposesFresh : ConsensusCommand → Prop
  | .admitCommandExecution execution _ _ => execution.IsFresh
  | _ => True

theorem ConsensusCommand.ProposesFresh.applying {c : ConsensusCommand} (h : c.ProposesFresh) :
    c.ProposesApplying := by
  cases c with
  | admitCommandExecution execution domains policy =>
    obtain ⟨a, ha, -⟩ := h
    exact isApplying_iff.mpr ⟨a, ha⟩
  | _ => trivial

theorem Transition.executions (h : Transition env s c s' response) (hp : c.ProposesApplying) :
    Step env.issuedAt s.commandExecutions s'.commandExecutions := by
  cases h with
  | transaction ht =>
    obtain ⟨_, _, _, _, _, _, _, _, h⟩ := ht.shape
    rw [h]
    exact .refl
  | altered hl ha he => exact .replaced hl (evolves_alterCluster ha he)
  | @admitted execution domains policy leases hl hv _ =>
    obtain ⟨ha, hr, -⟩ := isApplying_foldl_bind leases execution hp
    obtain ⟨a, ha⟩ := isApplying_iff.mp ha
    exact .admitted (hr ▸ hl) (hr ▸ hv) ha
  | acquired hl ha _ _ => exact .replaced hl (evolves_bindDomainMutation ha)
  | released hl ha _ _ => exact .replaced hl (evolves_releaseDomainMutation ha)
  | finished hl _ _ hf => exact .replaced hl (evolves_intoFinished hf)
  | reclaimed => exact .reclaimed
  | restored hl hr _ _ _ => exact .replaced hl (evolves_recordRestoreStep hr)
  | domain hd =>
    obtain ⟨_, _, _, _, _, _, _, h⟩ | ⟨_, _, _, h⟩ | ⟨_, _, _, _, _, _, _, h⟩ := hd.shape
    all_goals
      rw [h]
      exact .refl
  | conflict | error | unchanged | recorded | removed => exact .refl

def executionRuns (env : Environment) : System StateMachineData Entry :=
  (stateMachine env).restrict (Entry.Meets fun _ c => c.ProposesApplying)

section runs
variable {env : Environment} {s t : StateMachineData} {entry : Entry}
  {reference : CommandExecutionReference}

theorem step_applyEntry (env : Environment) (hp : entry.Meets (fun _ c => c.ProposesApplying) s) :
    Step env.issuedAt s.commandExecutions
      (s.applyEntry env entry).state.commandExecutions := by
  refine applyEntry_rule (P := fun t =>
    Step env.issuedAt s.commandExecutions t.commandExecutions)
    (fun _ => .refl) fun c s' response _ hc h => ?_
  exact h.executions (hp c hc)

theorem indexed_of_run (h : (executionRuns env).Run .initial s) :
    s.commandExecutions.Indexed env.issuedAt :=
  h.inv (P := fun t => t.commandExecutions.Indexed env.issuedAt)
    indexed_empty fun ih hg => (step_applyEntry _ hg.2).indexed ih

theorem later_of_run (h : (executionRuns env).Run s t)
    (hi : s.commandExecutions.Indexed env.issuedAt) :
    Later env.issuedAt s.commandExecutions t.commandExecutions := by
  refine h.rel (P := fun t => t.commandExecutions.Indexed env.issuedAt)
    (R := fun s t => Later env.issuedAt s.commandExecutions
      t.commandExecutions)
    hi (fun ih hg => (step_applyEntry _ hg.2).indexed ih) .refl ?_
  intro u entry ih hr hg
  exact hr.trans ((step_applyEntry _ hg.2).later ih)

def StateMachineData.IsApplying (s : StateMachineData) (reference : CommandExecutionReference) :
    Prop :=
  ∃ e, s.commandExecutions.entries.lookup reference = some e ∧ e.isApplying = true

def StateMachineData.Enters (env : Environment) (s : StateMachineData) (entry : Entry)
    (reference : CommandExecutionReference) : Prop :=
  ¬s.IsApplying reference ∧ (s.applyEntry env entry).state.IsApplying reference

theorem not_enters_of_later (hi : t.commandExecutions.Indexed env.issuedAt)
    (ha : s.IsApplying reference)
    (hl : Later env.issuedAt s.commandExecutions t.commandExecutions)
    (hp : entry.Meets (fun _ c => c.ProposesApplying) t) : ¬t.Enters env entry reference := by
  rintro ⟨hn, e'', hl'', ha''⟩
  have hnext := (step_applyEntry env hp).later hi
  obtain ⟨e, hlookup, -⟩ := ha
  rcases hl.retained hlookup with ⟨e', hl', -⟩ | ⟨hgone, hpassed⟩
  · rcases hnext.retained hl' with ⟨x, hx, hprec⟩ | ⟨hx, -⟩
    · rw [hx] at hl''
      cases hl''
      exact hn ⟨e', hl', hprec.applying ha''⟩
    · rw [hx] at hl''
      cases hl''
  · rw [hnext.forgotten hgone hpassed] at hl''
    cases hl''

theorem reference_of_sameRequest {e x : CommandExecution} (h : e.sameRequest x = true) :
    e.reference = x.reference := by
  unfold sameRequest at h
  split at h
  · simp only [Bool.and_eq_true, decide_eq_true_eq] at h
    exact h.1.1
  · cases h

/-! ### Repeated requests -/

section repetition
variable {e execution : CommandExecution} {domains : List DomainName}
  {policy : CommandExecutionAdmissionPolicy}

section
variable (hl : s.commandExecutions.entries.lookup execution.reference = some e)
include hl

end

theorem applyEntry_of_admitted
    (hp : entry.payload = .normal (.admitCommandExecution execution domains policy))
    (ha : admitCommandExecution env { s with lastAppliedLogId := some entry.logId }
      execution domains policy = x)
    (hx : (Applied.ofConflict { s with lastAppliedLogId := some entry.logId } x).changes = {}) :
    s.applyEntry env entry =
      Applied.ofConflict { s with lastAppliedLogId := some entry.logId } x := by
  unfold applyEntry
  rw [hp]
  dsimp only
  rw [applyConsensusCommandAt, ha, hx]
  rfl

end repetition

end runs

structure ExecutesOnce (env : Environment) (s : StateMachineData) : Prop where
  enters : ∀ {entry reference t later}, entry.Meets (fun _ c => c.ProposesApplying) s →
    s.Enters env entry reference →
    (executionRuns env).Run (s.applyEntry env entry).state t →
    later.Meets (fun _ c => c.ProposesApplying) t → ¬t.Enters env later reference
  repeated : ∀ {entry execution domains policy t later again domains' policy'},
    entry.payload = .normal (.admitCommandExecution execution domains policy) →
    entry.Meets (fun _ c => c.ProposesApplying) s →
    s.Enters env entry execution.reference →
    (executionRuns env).Run (s.applyEntry env entry).state t →
    later.payload = .normal (.admitCommandExecution again domains' policy') →
    execution.sameRequest again = true →
    (t.applyEntry env later).state = { t with lastAppliedLogId := some later.logId } ∧
      ((∃ e, t.commandExecutions.entries.lookup execution.reference = some e ∧
          e.isExpired = false ∧ e.request = execution.request ∧
          (t.applyEntry env later).response = .applied) ∨
        (∀ e, t.commandExecutions.entries.lookup execution.reference = some e →
          e.isExpired = true) ∧
          (t.applyEntry env later).response =
            .conflict (.executionReferenceAdmissionRefused execution.reference .expired))
  finished : ∀ {reference e f t}, s.commandExecutions.entries.lookup reference = some e →
    e.state = .finished f → (executionRuns env).Run s t →
    ∀ e', t.commandExecutions.entries.lookup reference = some e' →
      e'.state = .finished f ∨ e'.state = .expired
  applying : ∀ {reference e finishedBefore retryFence},
    s.commandExecutions.entries.lookup reference = some e → e.isApplying = true →
    (s.commandExecutions.reclaim env.issuedAt finishedBefore retryFence).entries.lookup reference =
      some e
  kept : ∀ {reference e entry}, s.commandExecutions.entries.lookup reference = some e →
    e.isApplying = true → entry.Meets (fun _ c => c.ProposesApplying) s →
    ∃ e', (s.applyEntry env entry).state.commandExecutions.entries.lookup reference = some e' ∧
      e'.isExpired = false ∧ e'.request = e.request
  fence : ∀ {f t}, s.commandExecutions.retryFence = some f → (executionRuns env).Run s t →
    ∃ f', t.commandExecutions.retryFence = some f' ∧ f ≤ f'
  indexes : fromEntries env.issuedAt s.commandExecutions.entries
    s.commandExecutions.retryFence = .ok s.commandExecutions

section once
variable {env : Environment} {s t : StateMachineData} {entry later : Entry}
  {execution again : CommandExecution} {domains domains' : List DomainName}
  {policy policy' : CommandExecutionAdmissionPolicy}

theorem request_of_enters
    (hp : entry.payload = .normal (.admitCommandExecution execution domains policy))
    (hm : entry.Meets (fun _ c => c.ProposesApplying) s)
    (he : s.Enters env entry execution.reference) :
    ∃ e, (s.applyEntry env entry).state.commandExecutions.entries.lookup execution.reference =
        some e ∧ e.request = execution.request ∧ e.reference = execution.reference := by
  refine applyEntry_rule (P := fun t => t.IsApplying execution.reference →
    ∃ e, t.commandExecutions.entries.lookup execution.reference = some e ∧
      e.request = execution.request ∧ e.reference = execution.reference)
    (fun _ ha => absurd ha he.1) (fun c s' response _ hc h ha => ?_) he.2
  have hprop := hm c hc
  rw [hp] at hc
  cases hc
  cases h with
  | @admitted _ _ _ leases hl hv hm =>
    obtain ⟨-, href, hreq⟩ := isApplying_foldl_bind leases execution hprop
    refine ⟨_, ?_, hreq, href⟩
    rw [insertAdmitted, href, lookup_insert]
  | conflict | error | unchanged => exact absurd ha he.1
  | transaction ht => obtain ⟨_, ⟨⟩⟩ | ⟨_, _, ⟨⟩⟩ := ht.command
  | domain hd =>
    cases hd with
    | resources hr => cases hr

end once

/-- In every run whose admissions propose applying executions, in any order with any other commands,
policies, clocks and fences, a command reference is executed at most once. -/
theorem executesOnce_of_run {env : Environment} {s : StateMachineData}
    (h : (executionRuns env).Run .initial s) : ExecutesOnce env s where
  enters := by
    intro entry reference t later hm he hrun hlater
    have hi := (step_applyEntry env hm).indexed (indexed_of_run h)
    have ht := hrun.inv (P := fun t => t.commandExecutions.Indexed env.issuedAt) hi
      fun ih hg => (step_applyEntry _ hg.2).indexed ih
    exact not_enters_of_later ht he.2 (later_of_run hrun hi) hlater
  repeated := by
    intro entry execution domains policy t later again domains' policy' hp hm he hrun hlater hs
    have hi := (step_applyEntry env hm).indexed (indexed_of_run h)
    obtain ⟨e, hl, hq, hr⟩ := request_of_enters hp hm he
    have href : again.reference = execution.reference := (reference_of_sameRequest hs).symm
    rw [← href] at hl hr ⊢
    rcases (later_of_run hrun hi).retained hl with ⟨e', he', hprec⟩ | ⟨hgone, hpassed⟩
    · cases hexp : e'.isExpired with
      | false =>
        obtain ⟨-, hq'⟩ := hprec.request hexp
        have hsame : e'.sameRequest again = true := by
          unfold sameRequest requestConflict
            transactionTarget at hs ⊢
          rwa [hprec.reference.trans (hr.trans href), hq'.trans hq]
        rw [applyEntry_of_admitted hlater (by simp [admitCommandExecution, he', hexp, hsame]; rfl) rfl]
        exact ⟨rfl, .inl ⟨e', he', hexp, hq'.trans hq, rfl⟩⟩
      | true =>
        rw [applyEntry_of_admitted hlater (by simp [admitCommandExecution, he', hexp]; rfl) rfl]
        refine ⟨rfl, .inr ⟨fun x hx => ?_, rfl⟩⟩
        rw [he'] at hx
        cases hx
        exact hexp
    · obtain ⟨issued, f, hissued, hf, hle⟩ := hpassed
      have hfence : issued ≤ t.commandExecutions.effectiveRetryFence policy'.retryFence :=
        hle.trans (effectiveRetryFence_of_some hf)
      rw [applyEntry_of_admitted hlater (by
        simp only [admitCommandExecution, hgone, validateAdmission,
          CommandExecutionAdmissionPolicy.validateReference, hissued, hfence, if_true]
        rfl) rfl]
      refine ⟨rfl, .inr ⟨fun x hx => ?_, rfl⟩⟩
      rw [hgone] at hx
      cases hx
  finished := by
    intro reference e f t hl hf hrun e' he'
    rcases (later_of_run hrun (indexed_of_run h)).retained hl with ⟨x, hx, hprec⟩ | ⟨hx, -⟩
    · rw [hx] at he'
      cases he'
      exact hprec.finished hf
    · rw [hx] at he'
      cases he'
  applying hl ha := ((reclaims_reclaim (indexed_of_run h)).2.2 ha).mpr hl
  kept hl ha hm := (step_applyEntry _ hm).applying (indexed_of_run h) hl ha
  fence hf hrun := (later_of_run hrun (indexed_of_run h)).fence hf
  indexes := (indexed_of_run h).fromEntries

theorem executesOnce_of_admission :
    let entry : Entry := ⟨⟨1, 1⟩, .normal (.admitCommandExecution
      (.applyingAtPosition "r" "u" none none "d" 11 (.statement "body")) [] ⟨5, 20, 4⟩)⟩
    initial.Enters .fixed entry "r" ∧
      ExecutesOnce .fixed (initial.applyEntry .fixed entry).state := by
  intro entry
  have hm : entry.Meets (fun _ c => c.ProposesApplying) .initial := by
    intro c hc
    cases hc
    rfl
  refine ⟨⟨?_, _, rfl, rfl⟩, executesOnce_of_run (?_ : (executionRuns .fixed).Run .initial _)⟩
  · rintro ⟨e, hl, -⟩
    exact Option.some_ne_none e hl.symm
  · exact System.Run.refl.tail (i := entry) ⟨trivial, hm⟩

end Nervix.Consensus
