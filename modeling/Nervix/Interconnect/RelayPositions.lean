import Nervix.Theory.System
import Nervix.Interconnect.RelayOwner

/-!
# Relay positions are admitted once

Every position a channel was granted or had cancelled stands in a history. The owner remembers of it
only the attempts that are still held and one watermark per channel, and of a forgotten channel only
that its incarnation is at or below the floor.
-/

namespace Nervix.Interconnect

open Finmap List
open RelayChannelWatermarks (isForgotten_eq_true last_place)

inductive Verdict
  | admitted
  | rejected (reason : String)
  | cancelled
deriving DecidableEq

def Verdict.status : Verdict → RelayAdmissionStatus
  | admitted => .admitted
  | rejected reason => .rejected reason
  | cancelled => .cancelled

def RelayAdmissionStatus.verdict : RelayAdmissionStatus → Option Verdict
  | admitted => some .admitted
  | rejected reason => some (.rejected reason)
  | cancelled => some .cancelled
  | reserved | bodyReceived | retired | unknown | indeterminate => none

def RelayGrantDisposition.verdict : RelayGrantDisposition → Option Verdict
  | admitted => some .admitted
  | rejected reason => some (.rejected reason)
  | cancelled => some .cancelled
  | sendBody _ | bodyReceived | retired => none

theorem RelayAdmissionStatus.verdict_eq_some {status : RelayAdmissionStatus} :
    status.verdict = some v ↔ status = v.status := by
  cases status <;> cases v <;> simp [verdict, Verdict.status]

theorem RelayGrantDisposition.verdict_ofStatus (status : RelayAdmissionStatus) :
    (ofStatus status).verdict = status.verdict := by
  cases status <;> rfl

namespace RelayAdmissionRecord

variable {record : RelayAdmissionRecord} {v : Verdict}

theorem exists_verdict (h : record.choice ≠ .pending) : ∃ v, record.status.verdict = some v := by
  unfold status
  cases hc : record.choice with
  | pending => exact absurd hc h
  | admitted => exact ⟨.admitted, rfl⟩
  | cancelled => cases record.rejection with
    | some reason => exact ⟨.rejected reason, rfl⟩
    | none => exact ⟨.cancelled, rfl⟩

theorem choice_ne_pending (h : record.status.verdict = some v) : record.choice ≠ .pending := by
  intro hc
  cases hp : record.phase <;> simp [status, hc, hp, RelayAdmissionStatus.verdict] at h

structure Follows (record record' : RelayAdmissionRecord) : Prop where
  attempt : record'.attempt = record.attempt
  verdict : ∀ v, record.status.verdict = some v → record'.status.verdict = some v

namespace Follows

theorem refl (record : RelayAdmissionRecord) : Follows record record := ⟨rfl, fun _ h => h⟩

theorem releaseCapacity : Follows record record.releaseCapacity := ⟨rfl, fun _ h => h⟩

theorem reportProgress : Follows record (record.reportProgress now) :=
  ⟨rfl, fun _ h => h⟩

theorem trans (h : Follows record record')
    (h' : Follows record' record'') : Follows record record'' :=
  ⟨h'.attempt.trans h.attempt, fun v hv => h'.verdict v (h.verdict v hv)⟩

theorem of_pending (h : record'.attempt = record.attempt) :
    Follows record (if record.choice = .pending then record' else record) := by
  split
  case isTrue hp => exact ⟨h, fun v hv => absurd hp (choice_ne_pending hv)⟩
  case isFalse => exact .refl record

theorem markAdmitted : Follows record record.markAdmitted := of_pending rfl

theorem reject : Follows record (record.reject reason) := of_pending rfl

theorem cancel : Follows record record.cancel := of_pending rfl

theorem markBodyReceived : Follows record record.markBodyReceived := by
  unfold RelayAdmissionRecord.markBodyReceived
  split
  case h_1 hc _ => exact ⟨rfl, fun v hv => absurd hc (choice_ne_pending hv)⟩
  case h_2 => exact .refl record

end Follows

theorem reject_eq_self (h : (record.reject reason).choice = .admitted) :
    record.reject reason = record := by
  by_cases hp : record.choice = .pending
  · rw [reject, if_pos hp] at h
    exact nomatch h
  · rw [reject, if_neg hp]

@[inherit_doc reject_eq_self]
theorem cancel_eq_self (h : record.cancel.choice = .admitted) : record.cancel = record := by
  by_cases hp : record.choice = .pending
  · rw [cancel, if_pos hp] at h
    exact nomatch h
  · rw [cancel, if_neg hp]

theorem exists_verdict_cancel : ∃ v, record.cancel.status.verdict = some v := by
  refine exists_verdict ?_
  unfold cancel
  split
  · exact fun h => nomatch h
  · assumption

end RelayAdmissionRecord

structure Position where
  key : RelayAttemptKey
  record : Option RecordId

def Position.verdict (records : RecordId → RelayAdmissionRecord) (p : Position) : Option Verdict :=
  match p.record with
  | some r => (records r).status.verdict
  | none => some .cancelled

def positions (history : List Position) (channel : RelayChannelKey) : List Nat :=
  (history.filter fun p => p.key.channel = channel).map (·.key.sequence)

theorem positions_concat (history : List Position) (p : Position) (channel : RelayChannelKey) :
    positions (history ++ [p]) channel =
      positions history channel ++ if p.key.channel = channel then [p.key.sequence] else [] := by
  unfold positions
  by_cases h : p.key.channel = channel <;> simp [h]

theorem mem_positions : n ∈ positions history channel ↔ ∃ p ∈ history, p.key = ⟨channel, n⟩ := by
  simp only [positions, mem_map, mem_filter, decide_eq_true_eq]
  constructor
  · rintro ⟨p, ⟨hp, rfl⟩, rfl⟩
    exact ⟨p, hp, rfl⟩
  · rintro ⟨p, hp, hk⟩
    exact ⟨p, ⟨hp, by rw [hk]⟩, by rw [hk]⟩

structure Accounts (records : RecordId → RelayAdmissionRecord)
    (attempts : Records RelayAttemptKey RecordId) (watermarks : RelayChannelWatermarks)
    (history : List Position) : Prop where
  ordered : ∀ channel, positions history channel = List.range (positions history channel).length
  held : ∀ k r, attempts.lookup k = some r → ⟨k, some r⟩ ∈ history ∧
    k.sequence + 1 = (positions history k.channel).length
  decided : ∀ p ∈ history, attempts.lookup p.key = none → ∃ v, p.verdict records = some v
  marked : ∀ channel n status, watermarks.last channel = some (n, status) →
    (∃ p ∈ history, p.key = ⟨channel, n⟩ ∧ ∃ v, p.verdict records = some v ∧ status = v.status) ∧
    (n + 1 = (positions history channel).length ∧ attempts.lookup ⟨channel, n⟩ = none ∨
      n + 2 = (positions history channel).length ∧ attempts.lookup ⟨channel, n + 1⟩ ≠ none)
  unmarked : ∀ channel, watermarks.last channel = none → (positions history channel).length = 0 ∨
    (positions history channel).length = 1 ∧ attempts.lookup ⟨channel, 0⟩ ≠ none ∨
    watermarks.isForgotten channel = true ∧ ∀ n, attempts.lookup ⟨channel, n⟩ = none

namespace Accounts

variable {records records' : RecordId → RelayAdmissionRecord}
variable {attempts : Records RelayAttemptKey RecordId} {w u : RelayChannelWatermarks}
variable {history : List Position} {k : RelayAttemptKey} {r : RecordId} {v : Verdict}

theorem position_eq (h : Accounts records attempts w history) (hp : p ∈ history)
    (hq : q ∈ history) (hk : p.key = q.key) : p = q := by
  have hnodup : (positions history p.key.channel).Nodup := by
    rw [h.ordered]
    exact nodup_range
  refine inj_on_of_nodup_map hnodup (mem_filter.mpr ⟨hp, by simp⟩)
    (mem_filter.mpr ⟨hq, by simp [hk]⟩) (by rw [hk])

theorem new (capacity : Nat) : Accounts records ∅ (.new capacity) [] where
  ordered _ := rfl
  held _ _ h := by simp at h
  decided _ h := by simp at h
  marked _ _ _ h := by simp [RelayChannelWatermarks.last, RelayChannelWatermarks.get,
    RelayChannelWatermarks.new] at h
  unmarked _ _ := .inl rfl

theorem congr_records (h : Accounts records attempts w history)
    (hr : ∀ p ∈ history, ∀ v, p.verdict records = some v → p.verdict records' = some v) :
    Accounts records' attempts w history where
  ordered := h.ordered
  held := h.held
  decided p hp hk := by
    obtain ⟨v, hv⟩ := h.decided p hp hk
    exact ⟨v, hr p hp v hv⟩
  marked channel n status hlast := by
    obtain ⟨⟨p, hp, hk, v, hv, hs⟩, hn⟩ := h.marked channel n status hlast
    exact ⟨⟨p, hp, hk, v, hr p hp v hv, hs⟩, hn⟩
  unmarked := h.unmarked

theorem forgets (h : Accounts records attempts w history) (hu : RelayChannelWatermarks.Forgets
      (fun channel => ∀ n, attempts.lookup ⟨channel, n⟩ = none) w u) :
    Accounts records attempts u history where
  ordered := h.ordered
  held := h.held
  decided := h.decided
  marked channel n status hlast := by
    rcases hu.last channel with heq | ⟨-, hf⟩
    · exact h.marked channel n status (heq.symm.trans hlast)
    · have := (isForgotten_eq_true.mp hf).1
      exact nomatch this.symm.trans hlast
  unmarked channel hlast := by
    rcases hu.last channel with heq | ⟨hfree, hf⟩
    · rcases h.unmarked channel (heq.symm.trans hlast) with h | h | ⟨hf, hfree⟩
      · exact .inl h
      · exact .inr (.inl h)
      · exact .inr (.inr ⟨hu.isForgotten hf, hfree⟩)
    · exact .inr (.inr ⟨hf, hfree⟩)

theorem isForgotten_place (hc : channel ≠ k.channel) (hf : w.isForgotten channel = true) :
    (w.place k.channel watermark).isForgotten channel = true := by
  rw [isForgotten_eq_true] at hf ⊢
  rw [last_place, if_neg hc]
  exact hf

theorem retire (h : Accounts records attempts w history) (hr : attempts.lookup k = some r)
    (hv : (records r).status = v.status) (now : Nat) :
    Accounts records (attempts.erase k) (w.place k.channel ⟨k.sequence, v.status, now⟩)
      history where
  ordered := h.ordered
  held k' r' hk' := by
    rw [lookup_erase_eq] at hk'
    split at hk'
    · exact nomatch hk'
    · exact h.held k' r' hk'
  decided p hp hk := by
    rw [lookup_erase_eq] at hk
    split at hk
    case isTrue heq =>
      obtain rfl := h.position_eq hp (h.held k r hr).1 heq
      exact ⟨v, RelayAdmissionStatus.verdict_eq_some.mpr hv⟩
    case isFalse => exact h.decided p hp hk
  marked channel n status hlast := by
    rw [last_place] at hlast
    split at hlast
    case isTrue hc =>
      subst hc
      obtain ⟨rfl, rfl⟩ := Prod.mk.inj (Option.some.inj hlast)
      obtain ⟨hm, hlen⟩ := h.held k r hr
      exact ⟨⟨_, hm, rfl, v, RelayAdmissionStatus.verdict_eq_some.mpr hv, rfl⟩,
        .inl ⟨hlen, lookup_erase k attempts⟩⟩
    case isFalse hc =>
      have hne : ∀ n, (⟨channel, n⟩ : RelayAttemptKey) ≠ k := fun n hk => hc (hk ▸ rfl)
      simpa only [lookup_erase_eq, hne, if_false] using h.marked channel n status hlast
  unmarked channel hlast := by
    rw [last_place] at hlast
    split at hlast
    case isTrue => exact nomatch hlast
    case isFalse hc =>
      have hne : ∀ n, (⟨channel, n⟩ : RelayAttemptKey) ≠ k := fun n hk => hc (hk ▸ rfl)
      simp only [lookup_erase_eq, hne, if_false]
      exact (h.unmarked channel hlast).imp_right (Or.imp_right (And.imp_left (isForgotten_place hc)))

def Follow (w : RelayChannelWatermarks) (attempts : Records RelayAttemptKey RecordId)
    (k : RelayAttemptKey) : Prop :=
  match w.last k.channel with
  | none => k.sequence = 0 ∧
      ¬(w.isForgotten k.channel = true ∧ ∀ n, attempts.lookup ⟨k.channel, n⟩ = none)
  | some (n, _) => n + 1 = k.sequence

section
variable (h : Accounts records attempts w history) (hk : attempts.lookup k = none)
  (hf : Follow w attempts k)
include h hk hf

theorem length_of_follow : (positions history k.channel).length = k.sequence := by
  unfold Follow at hf
  split at hf
  case h_1 hlast =>
    rcases h.unmarked k.channel hlast with hlen | ⟨-, hheld⟩ | hforgot
    · exact hlen.trans hf.1.symm
    · rw [← hf.1] at hheld
      exact absurd hk hheld
    · exact absurd hforgot hf.2
  case h_2 n status hlast =>
    rcases (h.marked k.channel n status hlast).2 with ⟨hlen, -⟩ | ⟨-, hheld⟩
    · exact hlen.symm.trans hf
    · rw [hf] at hheld
      exact absurd hk hheld

theorem free_of_follow (n : Nat) : attempts.lookup ⟨k.channel, n⟩ = none := by
  cases hn : attempts.lookup ⟨k.channel, n⟩ with
  | none => rfl
  | some r =>
    have hlast : n + 1 = k.sequence := (h.held _ r hn).2.trans (h.length_of_follow hk hf)
    unfold Follow at hf
    split at hf
    · omega
    case h_2 m status hm =>
      rcases (h.marked k.channel m status hm).2 with ⟨-, hnone⟩ | ⟨hlen, -⟩
      · obtain rfl : n = m := by omega
        exact nomatch hnone.symm.trans hn
      · have := h.length_of_follow hk (by rwa [Follow, hm])
        omega

end

theorem ordered_concat (h : Accounts records attempts w history)
    (hlen : (positions history k.channel).length = k.sequence) (record : Option RecordId)
    (channel : RelayChannelKey) : positions (history ++ [⟨k, record⟩]) channel =
      List.range (positions (history ++ [⟨k, record⟩]) channel).length := by
  rw [positions_concat]
  split
  case isTrue hc =>
    subst hc
    rw [length_append, length_singleton, range_succ, ← h.ordered, hlen]
  case isFalse =>
    rw [append_nil]
    exact h.ordered channel

theorem length_concat (hlen : (positions history k.channel).length = k.sequence)
    (record : Option RecordId) :
    k.sequence + 1 = (positions (history ++ [⟨k, record⟩]) k.channel).length := by
  rw [positions_concat, if_pos rfl, length_append, hlen, length_singleton]

theorem positions_other (hc : channel ≠ k.channel) (record : Option RecordId) :
    positions (history ++ [⟨k, record⟩]) channel = positions history channel := by
  rw [positions_concat, if_neg (Ne.symm hc), append_nil]

section
variable (h : Accounts records attempts w history) (hk : attempts.lookup k = none)
  (hf : Follow w attempts k)
include h hk hf

theorem held_concat (hk' : attempts.lookup k' = some r') (record : Option RecordId) :
    ⟨k', some r'⟩ ∈ history ++ [⟨k, record⟩] ∧
      k'.sequence + 1 = (positions (history ++ [⟨k, record⟩]) k'.channel).length := by
  obtain ⟨hm, hlen⟩ := h.held k' r' hk'
  refine ⟨mem_append_left _ hm, ?_⟩
  by_cases hc : k'.channel = k.channel
  · have hfree := h.free_of_follow hk hf k'.sequence
    rw [← hc, hk'] at hfree
    exact nomatch hfree
  · rw [positions_other hc]
    exact hlen

theorem register : Accounts records (attempts.insert k r) w (history ++ [⟨k, some r⟩]) := by
  have hlen := h.length_of_follow hk hf
  have hother : ∀ channel, channel ≠ k.channel → ∀ n,
      (attempts.insert k r).lookup ⟨channel, n⟩ = attempts.lookup ⟨channel, n⟩ :=
    fun channel hc n => lookup_insert_of_ne _ fun hk => hc (hk ▸ rfl)
  exact {
    ordered := h.ordered_concat hlen (some r)
    held := by
      intro k' r' hk'
      rw [lookup_insert_eq] at hk'
      split at hk'
      case isTrue heq =>
        obtain rfl := Option.some.inj hk'
        subst heq
        exact ⟨mem_append_right _ mem_cons_self, length_concat hlen _⟩
      case isFalse => exact h.held_concat hk hf hk' _
    decided := by
      intro p hp hp'
      rcases mem_append.mp hp with hp | hp
      · rw [lookup_insert_eq] at hp'
        split at hp'
        · exact nomatch hp'
        · exact h.decided p hp hp'
      · obtain rfl := mem_singleton.mp hp
        exact nomatch (lookup_insert attempts).symm.trans hp'
    marked := by
      intro channel n status hlast
      obtain ⟨⟨p, hp, hkey, hv⟩, hn⟩ := h.marked channel n status hlast
      refine ⟨⟨p, mem_append_left _ hp, hkey, hv⟩, ?_⟩
      by_cases hc : channel = k.channel
      · subst hc
        have hseq : n + 1 = k.sequence := by simpa [Follow, hlast] using hf
        refine .inr ⟨by rw [← length_concat hlen, ← hseq], ?_⟩
        rw [hseq, lookup_insert]
        exact fun h => nomatch h
      · rw [positions_other hc, hother channel hc, hother channel hc]
        exact hn
    unmarked := by
      intro channel hlast
      by_cases hc : channel = k.channel
      · subst hc
        have hseq : k.sequence = 0 := by
          have := hf
          simp only [Follow, hlast] at this
          exact this.1
        refine .inr (.inl ⟨by rw [← length_concat hlen, hseq], ?_⟩)
        rw [← hseq, lookup_insert]
        exact fun h => nomatch h
      · simp only [positions_other hc, hother channel hc]
        exact h.unmarked channel hlast }

theorem cancel (now : Nat) :
    Accounts records attempts (w.place k.channel ⟨k.sequence, .cancelled, now⟩)
      (history ++ [⟨k, none⟩]) := by
  have hlen := h.length_of_follow hk hf
  exact {
    ordered := h.ordered_concat hlen none
    held := fun _ _ hk' => h.held_concat hk hf hk' none
    decided := by
      intro p hp hp'
      rcases mem_append.mp hp with hp | hp
      · exact h.decided p hp hp'
      · obtain rfl := mem_singleton.mp hp
        exact ⟨.cancelled, rfl⟩
    marked := by
      intro channel n status hlast
      rw [last_place] at hlast
      split at hlast
      case isTrue hc =>
        subst hc
        obtain ⟨rfl, rfl⟩ := Prod.mk.inj (Option.some.inj hlast)
        exact ⟨⟨_, mem_append_right _ mem_cons_self, rfl, .cancelled, rfl, rfl⟩,
          .inl ⟨length_concat hlen _, hk⟩⟩
      case isFalse hc =>
        obtain ⟨⟨p, hp, hkey, hv⟩, hn⟩ := h.marked channel n status hlast
        rw [positions_other hc]
        exact ⟨⟨p, mem_append_left _ hp, hkey, hv⟩, hn⟩
    unmarked := by
      intro channel hlast
      rw [last_place] at hlast
      split at hlast
      case isTrue => exact nomatch hlast
      case isFalse hc =>
        rw [positions_other hc]
        exact (h.unmarked channel hlast).imp_right
          (Or.imp_right (And.imp_left (isForgotten_place hc))) }

end

end Accounts

end Nervix.Interconnect
