import Nervix.Theory.Records
import Nervix.Theory.SortedMap

/-!
# The retained relay watermarks of a peer

A relay owner retains the last outcome of each channel, at most `capacity` of them. A channel it
forgets, for room or because its retention passed, raises the floor to its incarnation, so that a
channel at or below the floor for which nothing is held is not taken for a new one.
-/

namespace Nervix.Interconnect

structure RelayChannelKey where
  peerNodeId : String
  senderEpoch : Nat
  receiverEpoch : Nat
  channelIncarnation : Nat
deriving DecidableEq

structure RelayAttemptKey where
  channel : RelayChannelKey
  sequence : Nat
deriving DecidableEq

inductive RelayAdmissionStatus
  | reserved
  | bodyReceived
  | admitted
  | rejected (reason : String)
  | cancelled
  | retired
  | unknown
  | indeterminate
deriving DecidableEq, Repr

namespace RelayAdmissionStatus

def isTerminal : RelayAdmissionStatus → Bool
  | admitted | rejected _ | cancelled | retired => true
  | reserved | bodyReceived | unknown | indeterminate => false

end RelayAdmissionStatus

structure RelayChannelWatermark where
  sequence : Nat
  status : RelayAdmissionStatus
  lastReconciled : Nat

structure RetainedWatermark where
  watermark : RelayChannelWatermark
  position : Nat

def relayChannelRetention : Nat := 600 * 10 ^ 9

structure RelayChannelWatermarks where
  capacity : Nat
  retained : Records RelayChannelKey RetainedWatermark
  order : SortedMap Nat RelayChannelKey
  nextPosition : Nat
  floor : Option Nat
  named : ∀ position channel, (position, channel) ∈ order.entries ↔
    ∃ watermark, retained.lookup channel = some ⟨watermark, position⟩
  below : ∀ e ∈ order.entries, e.1 < nextPosition

namespace RelayChannelWatermarks

variable (w : RelayChannelWatermarks)

def new (capacity : Nat) : RelayChannelWatermarks where
  capacity := capacity
  retained := ∅
  order := {}
  nextPosition := 0
  floor := none
  named := by simp
  below := by simp

def get (channel : RelayChannelKey) : Option RelayChannelWatermark :=
  (w.retained.lookup channel).map (·.watermark)

def orderWithout (channel : RelayChannelKey) : SortedMap Nat RelayChannelKey :=
  match w.retained.lookup channel with
  | some retained => w.order.remove retained.position
  | none => w.order

theorem mem_orderWithout :
    (position, channel') ∈ (w.orderWithout channel).entries ↔
      (position, channel') ∈ w.order.entries ∧ channel' ≠ channel := by
  unfold orderWithout
  cases h : w.retained.lookup channel with
  | none =>
    refine ⟨fun hm => ⟨hm, ?_⟩, And.left⟩
    rintro rfl
    obtain ⟨watermark, hw⟩ := (w.named _ _).mp hm
    exact nomatch h.symm.trans hw
  | some r =>
    obtain ⟨watermark, position'⟩ := r
    have hm' : (position', channel) ∈ w.order.entries := (w.named _ _).mpr ⟨watermark, h⟩
    dsimp only
    rw [SortedMap.mem_remove, and_congr_right_iff]
    intro hm
    constructor
    · rintro hne rfl
      obtain ⟨watermark', hw'⟩ := (w.named _ _).mp hm
      exact hne (congrArg RetainedWatermark.position (Option.some.inj (hw'.symm.trans h)))
    · intro hne hp
      exact hne (SortedMap.eq_of_mem (hp ▸ hm) hm')

section
variable (channel : RelayChannelKey)

def place (watermark : RelayChannelWatermark) : RelayChannelWatermarks where
  capacity := w.capacity
  retained := w.retained.insert channel ⟨watermark, w.nextPosition⟩
  order := (w.orderWithout channel).insert w.nextPosition channel
  nextPosition := w.nextPosition + 1
  floor := w.floor
  named position channel' := by
    have hlast : ∀ e ∈ (w.orderWithout channel).entries, e.1 < w.nextPosition :=
      fun e he => w.below e ((w.mem_orderWithout).mp he).1
    rw [SortedMap.entries_insert_of_lt hlast, List.mem_append, mem_orderWithout,
      List.mem_singleton, Finmap.lookup_insert_eq, w.named]
    by_cases hc : channel' = channel
    · subst hc
      simp [eq_comm]
    · simp [hc]
  below e he := by
    have hlast : ∀ e ∈ (w.orderWithout channel).entries, e.1 < w.nextPosition :=
      fun e he => w.below e ((w.mem_orderWithout).mp he).1
    rw [SortedMap.entries_insert_of_lt hlast, List.mem_append, List.mem_singleton] at he
    rcases he with he | rfl
    · exact (hlast e he).trans (Nat.lt_succ_self _)
    · exact Nat.lt_succ_self _

def consult (now : Nat) : RelayChannelWatermarks × Option RelayChannelWatermark :=
  match w.get channel with
  | some watermark =>
    let reconciled := { watermark with lastReconciled := now }
    (w.place channel reconciled, some reconciled)
  | none => (w, none)

def raisedFloor : Option Nat :=
  match w.floor with
  | some floor =>
    if channel.channelIncarnation ≤ floor then some floor else some channel.channelIncarnation
  | none => some channel.channelIncarnation

def forget (position : Nat) : RelayChannelWatermarks :=
  match h : w.order.get position with
  | some channel =>
    { w with
      retained := w.retained.erase channel
      order := w.order.remove position
      floor := w.raisedFloor channel
      named := by
        intro position' channel'
        have hm := SortedMap.get_eq_some_iff.mp h
        rw [SortedMap.mem_remove, Finmap.lookup_erase_eq, w.named]
        by_cases hc : channel' = channel
        · subst hc
          obtain ⟨watermark, hw⟩ := (w.named _ _).mp hm
          simp [hw, eq_comm]
        · simp only [hc, if_false, and_iff_left_iff_imp]
          rintro ⟨watermark, hw⟩ rfl
          exact hc (SortedMap.eq_of_mem ((w.named _ _).mpr ⟨watermark, hw⟩) hm)
      below := fun e he => w.below e (SortedMap.mem_remove.mp he).1 }
  | none => w

def forgetLeastRecent (inUse : RelayChannelKey → Bool) : RelayChannelWatermarks × Bool :=
  match w.order.entries.find? fun e => !inUse e.2 with
  | some (position, _) => (w.forget position, true)
  | none => (w, false)

def record (attempt : RelayAttemptKey) (status : RelayAdmissionStatus)
    (inUse : RelayChannelKey → Bool) (now : Nat) : RelayChannelWatermarks × Bool :=
  match w.get attempt.channel with
  | some watermark =>
    if attempt.sequence < watermark.sequence then (w, false)
    else (w.place attempt.channel ⟨attempt.sequence, status, now⟩, false)
  | none =>
    let (w', forgot) :=
      if w.capacity ≤ w.retained.keys.card then w.forgetLeastRecent inUse else (w, false)
    (w'.place attempt.channel ⟨attempt.sequence, status, now⟩, forgot)

def isForgotten : Bool :=
  match w.get channel, w.floor with
  | none, some floor => channel.channelIncarnation ≤ floor
  | _, _ => false

def idle (now : Nat) (e : Nat × RelayChannelKey) : Bool :=
  match w.get e.2 with
  | some watermark => relayChannelRetention ≤ now - watermark.lastReconciled
  | none => false

def expire (now : Nat) (inUse : RelayChannelKey → Bool) : RelayChannelWatermarks :=
  let expired := (w.order.entries.takeWhile (w.idle now)).filter fun e => !inUse e.2
  expired.foldl (fun w e => w.forget e.1) w

end

variable {w} {w' : RelayChannelWatermarks}

def last (w : RelayChannelWatermarks) (channel : RelayChannelKey) :
    Option (Nat × RelayAdmissionStatus) :=
  (w.get channel).map fun watermark => (watermark.sequence, watermark.status)

theorem last_eq_none : w.last channel = none ↔ w.get channel = none := Option.map_eq_none_iff

theorem last_place (channel channel' : RelayChannelKey) (watermark : RelayChannelWatermark) :
    (w.place channel watermark).last channel' =
      if channel' = channel then some (watermark.sequence, watermark.status)
      else w.last channel' := by
  unfold last get place
  rw [Finmap.lookup_insert_eq]
  split <;> rfl

theorem isForgotten_eq_true :
    w.isForgotten channel = true ↔
      w.last channel = none ∧ ∃ floor, w.floor = some floor ∧
        channel.channelIncarnation ≤ floor := by
  rw [last_eq_none]
  unfold isForgotten
  cases w.get channel <;> cases w.floor <;> simp

structure Forgets (p : RelayChannelKey → Prop) (w w' : RelayChannelWatermarks) : Prop where
  last : ∀ channel, w'.last channel = w.last channel ∨ p channel ∧ w'.isForgotten channel = true
  floor : ∀ floor, w.floor = some floor → ∃ floor', w'.floor = some floor' ∧ floor ≤ floor'

namespace Forgets

variable {p q : RelayChannelKey → Prop}

theorem refl (w : RelayChannelWatermarks) : Forgets p w w :=
  ⟨fun _ => .inl rfl, fun floor h => ⟨floor, h, le_rfl⟩⟩

theorem mono (h : Forgets p w w') (hpq : ∀ channel, p channel → q channel) : Forgets q w w' :=
  ⟨fun channel => (h.last channel).imp_right fun hp => ⟨hpq _ hp.1, hp.2⟩, h.floor⟩

theorem isForgotten (h : Forgets p w w')
    (hf : w.isForgotten channel = true) : w'.isForgotten channel = true := by
  rcases h.last channel with heq | hp
  · obtain ⟨hnone, floor, hfloor, hle⟩ := isForgotten_eq_true.mp hf
    obtain ⟨floor', hfloor', hle'⟩ := h.floor floor hfloor
    exact isForgotten_eq_true.mpr ⟨heq.trans hnone, floor', hfloor', hle.trans hle'⟩
  · exact hp.2

theorem trans (h : Forgets p w w') (h' : Forgets p w' w'') : Forgets p w w'' where
  last channel := by
    rcases h.last channel with heq | ⟨hp, hf⟩
    · exact (h'.last channel).imp_left fun h => h.trans heq
    · exact .inr ⟨hp, h'.isForgotten hf⟩
  floor floor hf := by
    obtain ⟨floor', hf', hle⟩ := h.floor floor hf
    obtain ⟨floor'', hf'', hle'⟩ := h'.floor floor' hf'
    exact ⟨floor'', hf'', hle.trans hle'⟩

theorem place (h : Forgets p w w') (channel : RelayChannelKey) (watermark : RelayChannelWatermark) :
    Forgets p (w.place channel watermark) (w'.place channel watermark) where
  last channel' := by
    rw [last_place, last_place]
    by_cases hc : channel' = channel
    · rw [if_pos hc, if_pos hc]
      exact .inl rfl
    · rw [if_neg hc, if_neg hc]
      refine (h.last channel').imp_right fun ⟨hp, hf⟩ => ⟨hp, ?_⟩
      rw [isForgotten_eq_true] at hf ⊢
      rwa [last_place, if_neg hc]
  floor := h.floor

end Forgets

theorem raisedFloor_spec (w : RelayChannelWatermarks) (channel : RelayChannelKey) :
    ∃ floor, w.raisedFloor channel = some floor ∧ channel.channelIncarnation ≤ floor ∧
      ∀ floor', w.floor = some floor' → floor' ≤ floor := by
  unfold raisedFloor
  cases hf : w.floor with
  | none => exact ⟨_, rfl, le_rfl, fun _ h => nomatch h⟩
  | some floor =>
    dsimp only
    split
    case isTrue hle =>
      exact ⟨floor, rfl, hle, fun _ h => (Option.some.inj h).ge⟩
    case isFalse hlt =>
      exact ⟨_, rfl, le_rfl, fun _ h => Option.some.inj h ▸ (Nat.lt_of_not_le hlt).le⟩

theorem forgets_forget (hp : ∀ channel, (position, channel) ∈ w.order.entries → p channel) :
    Forgets p w (w.forget position) := by
  unfold forget
  split
  case h_2 => exact .refl w
  case h_1 channel hget =>
    obtain ⟨floor, hf, hle, hfloor⟩ := w.raisedFloor_spec channel
    refine ⟨fun channel' => ?_, fun floor' hf' => ⟨floor, hf, hfloor floor' hf'⟩⟩
    by_cases hc : channel' = channel
    · subst hc
      refine .inr ⟨hp _ (SortedMap.get_eq_some_iff.mp hget), isForgotten_eq_true.mpr
        ⟨?_, floor, hf, hle⟩⟩
      simp [last, RelayChannelWatermarks.get]
    · refine .inl ?_
      simp [last, RelayChannelWatermarks.get, hc]

theorem order_forget (h : e ∈ (w.forget position).order.entries) : e ∈ w.order.entries := by
  unfold forget at h
  split at h
  case h_2 => exact h
  case h_1 => exact (SortedMap.mem_remove.mp h).1

theorem forgets_forgetLeastRecent (inUse : RelayChannelKey → Bool) :
    Forgets (fun channel => inUse channel = false) w (w.forgetLeastRecent inUse).1 := by
  unfold forgetLeastRecent
  split
  case h_2 => exact .refl w
  case h_1 position channel hfind =>
    refine forgets_forget fun channel' hm => ?_
    have hm' := List.mem_of_find?_eq_some hfind
    obtain rfl := SortedMap.eq_of_mem hm hm'
    simpa using List.find?_some hfind

theorem forgets_expire (now : Nat) (inUse : RelayChannelKey → Bool) :
    Forgets (fun channel => inUse channel = false) w (w.expire now inUse) := by
  -- forgetting the scanned entries one after another, none of which changes its channel
  have hfold : ∀ (l : List (Nat × RelayChannelKey)) (u : RelayChannelWatermarks),
      (∀ e ∈ u.order.entries, e ∈ w.order.entries) →
      (∀ e ∈ l, e ∈ w.order.entries ∧ inUse e.2 = false) →
      Forgets (fun channel => inUse channel = false) u (l.foldl (fun w e => w.forget e.1) u) := by
    intro l
    induction l with
    | nil => exact fun u _ _ => .refl u
    | cons e l ih =>
      intro u hu hl
      obtain ⟨hm, hfree⟩ := hl e List.mem_cons_self
      refine (forgets_forget fun channel hc => ?_).trans
        (ih _ (fun e' he' => hu e' (order_forget he'))
          fun e' he' => hl e' (List.mem_cons_of_mem e he'))
      obtain rfl := SortedMap.eq_of_mem (hu _ hc) hm
      exact hfree
  refine hfold _ w (fun _ he => he) fun e he => ?_
  obtain ⟨hm, hfree⟩ := List.mem_filter.mp he
  exact ⟨(List.takeWhile_sublist _).subset hm, by simpa using hfree⟩

theorem forgets_consult (channel : RelayChannelKey) (now : Nat) :
    Forgets (fun _ => False) w (w.consult channel now).1 := by
  unfold consult
  cases hget : w.get channel with
  | none => exact .refl w
  | some watermark =>
    refine ⟨fun channel' => .inl ?_, fun floor h => ⟨floor, h, le_rfl⟩⟩
    rw [last_place]
    split
    · subst channel'
      rw [last, hget]
      rfl
    · rfl

theorem consult_last (channel : RelayChannelKey) (now : Nat) :
    (w.consult channel now).2.map (fun watermark => (watermark.sequence, watermark.status)) =
      w.last channel := by
  unfold consult last
  cases w.get channel <;> rfl

theorem record_spec (status : RelayAdmissionStatus) (inUse : RelayChannelKey → Bool) (now : Nat)
    (hseq : ∀ sequence status, w.last attempt.channel = some (sequence, status) →
      sequence ≤ attempt.sequence) :
    ∃ u, Forgets (fun channel => inUse channel = false) w u ∧
      (w.record attempt status inUse now).1 =
        u.place attempt.channel ⟨attempt.sequence, status, now⟩ := by
  unfold record
  cases hget : w.get attempt.channel with
  | some watermark =>
    dsimp only
    rw [if_neg (Nat.not_lt.mpr (hseq _ watermark.status (by rw [last, hget]; rfl)))]
    exact ⟨w, .refl w, rfl⟩
  | none =>
    dsimp only
    split
    case isFalse => exact ⟨w, .refl w, rfl⟩
    case isTrue => exact ⟨_, forgets_forgetLeastRecent inUse, rfl⟩

end RelayChannelWatermarks

end Nervix.Interconnect
