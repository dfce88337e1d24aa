import Nervix.Runtime.RemoteAck.Registry

/-!
# The life of an id

An id is issued at most once. From then on a record or an admission lives under it, until it ends
once. The slot of a position and the history of the position agree on this for every id, and every
visit of a slot moves each id along its life or leaves it alone.
-/

namespace Nervix.RemoteAck

open List CorrelationSlot

variable {α : Type}

def silentSweeps (events : List Event) : Nat :=
  events.foldl (fun n e => match e with | .report _ => 0 | .admits => n | .sweep => n + 1) 0

def Expires (es : List Event) : Prop :=
  (∃ earlier since, es = earlier ++ .admits :: since ∧ .admits ∉ earlier ∧
    REMOTE_ACK_SILENT_SWEEPS < silentSweeps since) ∨
  (.admits ∉ es ∧ ADMISSION_SWEEPS < es.count .sweep)

inductive Counts : List Event → RemoteAckPhase → Prop
  | awaitingAdmission : .admits ∉ es → Counts es (.awaitingAdmission (es.count .sweep))
  | admitted : .admits ∉ earlier →
      Counts (earlier ++ .admits :: since) (.admitted (silentSweeps since))

def RemoteAckPhase.expired : RemoteAckPhase → Bool
  | awaitingAdmission sweeps => ADMISSION_SWEEPS < sweeps
  | admitted silentSweeps => REMOTE_ACK_SILENT_SWEEPS < silentSweeps

theorem Counts.expires (h : Counts es phase) (hx : phase.expired = true) : Expires es := by
  cases h with
  | awaitingAdmission hne => exact .inr ⟨hne, of_decide_eq_true hx⟩
  | admitted hne => exact .inl ⟨_, _, rfl, hne, of_decide_eq_true hx⟩

theorem silentSweeps_append (es : List Event) (e : Event) : silentSweeps (es ++ [e]) =
    match e with | .report _ => 0 | .admits => silentSweeps es | .sweep => silentSweeps es + 1 := by
  simp [silentSweeps]

namespace PendingRemoteAck

theorem after_append (r : PendingRemoteAck α) (es : List Event) (e : Event) :
    r.after (es ++ [e]) = ((r.after es).apply e).1 := by
  simp [after]

theorem swept_expired (r : PendingRemoteAck α) : r.swept.2 = r.swept.1.phase.expired := by
  unfold swept
  split <;> rfl

theorem phase_apply (r : PendingRemoteAck α) (e : Event) : (r.apply e).1.phase =
    match r.phase, e with
    | .awaitingAdmission n, .report _ => .awaitingAdmission n
    | .awaitingAdmission _, .admits => .admitted 0
    | .awaitingAdmission n, .sweep => .awaitingAdmission (n + 1)
    | .admitted _, .report _ => .admitted 0
    | .admitted n, .admits => .admitted n
    | .admitted n, .sweep => .admitted (n + 1) := by
  have hreport : ∀ r : PendingRemoteAck α, r.report.1.phase =
      match r.phase with | .awaitingAdmission n => .awaitingAdmission n | .admitted _ => .admitted 0 := by
    intro r
    unfold report
    cases hp : r.phase <;> simp [hp]
  cases e with
  | report p =>
    rcases p with _ | ⟨sequence, parked⟩
    · simp only [apply, applyProgress, hreport]
      cases r.phase <;> rfl
    · have hprogress : (r.progress sequence parked).1.phase = r.phase := by
        unfold progress
        split <;> (try split) <;> rfl
      simp only [apply, applyProgress, hreport, hprogress]
      cases r.phase <;> rfl
  | admits =>
    simp only [apply, admits]
    cases hp : r.phase <;> simp [hp]
  | sweep =>
    simp only [apply, swept]
    cases hp : r.phase <;> simp

theorem counts_after (receiver : String) (acks : α) (es : List Event) :
    Counts es ((new receiver acks).after es).phase := by
  induction es using List.reverseRecOn with
  | nil => exact .awaitingAdmission nofun
  | append_singleton es e ih =>
    rw [after_append, phase_apply]
    generalize ((new receiver acks).after es).phase = phase at ih
    cases ih with
    | awaitingAdmission hne =>
      cases e with
      | report p =>
        have hcount : (es ++ [Event.report p]).count Event.sweep = es.count Event.sweep := by simp
        rw [← hcount]
        exact .awaitingAdmission (by simp [hne])
      | admits => exact .admitted hne
      | sweep =>
        have hcount : (es ++ [Event.sweep]).count Event.sweep = es.count Event.sweep + 1 := by simp
        dsimp only
        rw [← hcount]
        exact .awaitingAdmission (by simp [hne])
    | admitted hne =>
      rename_i earlier since
      have hsince := silentSweeps_append since e
      rw [append_assoc, cons_append]
      cases e <;> (simp only at hsince ⊢; rw [← hsince]; exact .admitted hne)

end PendingRemoteAck

def Registration.issues (row : Nat) : Registration α → Bool
  | records _ acks => acks[row]?.join.isSome
  | admission => row == 0

namespace Entry

def issues (id : Nat) : Entry α → Option (Registration α)
  | registered route registration =>
    if route = id / ROW_POSITIONS ∧ registration.issues (id % ROW_POSITIONS) then
      some registration
    else none
  | _ => none

def eventOf (id : Nat) : Entry α → Option Event
  | event id' e => if id' = id then some e else none
  | _ => none

def endOf (id : Nat) : Entry α → Option (Cause × Option (PendingRemoteAck α))
  | ended id' cause r => if id' = id then some (cause, r) else none
  | _ => none

end Entry

def issued (history : List (Entry α)) (id : Nat) : List (Registration α) :=
  history.filterMap (Entry.issues id)

def events (history : List (Entry α)) (id : Nat) : List Event :=
  history.filterMap (Entry.eventOf id)

def ends (history : List (Entry α)) (id : Nat) : List (Cause × Option (PendingRemoteAck α)) :=
  history.filterMap (Entry.endOf id)

section
variable (es : List (Entry α)) (id id' : Nat)

@[simp] theorem events_nil : events ([] : List (Entry α)) id = [] := rfl

@[simp] theorem ends_nil : ends ([] : List (Entry α)) id = [] := rfl

@[simp] theorem events_append (es' : List (Entry α)) :
    events (es ++ es') id = events es id ++ events es' id := filterMap_append

@[simp] theorem ends_append (es' : List (Entry α)) :
    ends (es ++ es') id = ends es id ++ ends es' id := filterMap_append

section
variable (r : Nat) (registration : Registration α)
include r registration

@[simp] theorem events_cons_registered :
    events (.registered r registration :: es) id = events es id := rfl

@[simp] theorem ends_cons_registered :
    ends (.registered r registration :: es) id = ends es id := rfl

theorem issued_append_registered :
    issued (es ++ [.registered r registration]) id = issued es id ++
      if r = id / ROW_POSITIONS ∧ registration.issues (id % ROW_POSITIONS) then [registration]
      else [] := by
  rw [issued, filterMap_append]
  congr 1
  by_cases h : r = id / ROW_POSITIONS ∧ registration.issues (id % ROW_POSITIONS) = true <;>
    simp [Entry.issues, h]

end

@[simp] theorem events_cons_event (e : Event) : events (.event id' e :: es) id =
    if id' = id then e :: events es id else events es id := by
  simp only [events, filterMap_cons, Entry.eventOf]
  split <;> simp_all

@[simp] theorem events_cons_ended (cause : Cause) (r : Option (PendingRemoteAck α)) :
    events (.ended id' cause r :: es) id = events es id := rfl

@[simp] theorem ends_cons_event (e : Event) : ends (.event id' e :: es) id = ends es id := rfl

@[simp] theorem ends_cons_ended (cause : Cause) (r : Option (PendingRemoteAck α)) :
    ends (.ended id' cause r :: es) id =
      if id' = id then (cause, r) :: ends es id else ends es id := by
  simp only [ends, filterMap_cons, Entry.endOf]
  split <;> simp_all

end

theorem issued_append {history entries : List (Entry α)} {id : Nat}
    (h : ∀ r registration, .registered r registration ∉ entries) :
    issued (history ++ entries) id = issued history id := by
  have hnil : issued entries id = [] := by
    refine filterMap_eq_nil_iff.mpr fun e he => ?_
    cases e with
    | registered r registration => exact absurd he (h r registration)
    | _ => rfl
  rw [issued, filterMap_append]
  exact (congrArg _ hnil).trans (append_nil _)

def About (id : Nat) (es : List (Entry α)) : Prop :=
  ∀ e ∈ es, (∃ x, e = .event id x) ∨ ∃ x r, e = .ended id x r

section
variable {es : List (Entry α)} {id id' : Nat}

theorem About.events_eq_nil (h : About id es) (hne : id ≠ id') : events es id' = [] := by
  refine filterMap_eq_nil_iff.mpr fun e he => ?_
  rcases h e he with ⟨x, rfl⟩ | ⟨x, r, rfl⟩
  · exact if_neg hne
  · rfl

theorem About.ends_eq_nil (h : About id es) (hne : id ≠ id') : ends es id' = [] := by
  refine filterMap_eq_nil_iff.mpr fun e he => ?_
  rcases h e he with ⟨x, rfl⟩ | ⟨x, r, rfl⟩
  · rfl
  · exact if_neg hne

theorem About.not_registered (h : About id es) (r : Nat) (registration : Registration α) :
    .registered r registration ∉ es := by
  intro hr
  rcases h _ hr with ⟨x, hx⟩ | ⟨x, o, hx⟩ <;> cases hx

end

inductive Live (α : Type)
  | record (r : PendingRemoteAck α)
  | admission

def RemoteCorrelation.live (c : RemoteCorrelation α) (id : Nat) : Option (Live α) :=
  if c.route = id / ROW_POSITIONS then
    match c.state with
    | .records acks => acks.rows[id % ROW_POSITIONS]?.join.map .record
    | .admission _ => if id % ROW_POSITIONS = 0 then some .admission else none
  else none

def CorrelationSlot.live (slot : CorrelationSlot α) (id : Nat) : Option (Live α) :=
  match slot with
  | opened _ (some c) => c.live id
  | _ => none

inductive Life (id : Nat) : Option (Live α) → List (Registration α) → List Event →
    List (Cause × Option (PendingRemoteAck α)) → Prop
  | fresh : Life id none [] [] []
  | record : acks[id % ROW_POSITIONS]?.join = some a →
      Life id (some (.record ((PendingRemoteAck.new receiver a).after es)))
        [.records receiver acks] es []
  | admission : Life id (some .admission) [.admission] [] []
  | recordEnded : acks[id % ROW_POSITIONS]?.join = some a → (ending = .expire → Expires es) →
      Life id none [.records receiver acks] es
        [(.ending ending, some ((PendingRemoteAck.new receiver a).after es))]
  | admissionEnded : cause ≠ .ending .expire → Life id none [.admission] [] [(cause, none)]

def RemoteCorrelation.WF (c : RemoteCorrelation α) : Prop :=
  match c.state with
  | .records acks => acks.rows.length ≤ ROW_POSITIONS ∧ acks.remaining ≠ 0 ∧
      acks.remaining = acks.rows.countP (·.isSome)
  | .admission _ => True

structure Agree (capacity p : Nat) (slot : CorrelationSlot α) (history : List (Entry α)) :
    Prop where
  life : ∀ id, Life id (slot.live id) (issued history id) (events history id) (ends history id)
  routes : ∀ r registration, .registered r registration ∈ history → r % (2 * capacity) = p ∧
    ∀ generation c, slot = .opened generation c → r / (2 * capacity) ≤ generation
  current : ∀ generation c, slot = .opened generation (some c) →
    c.route = generation * (2 * capacity) + p ∧ c.WF

section
variable {id : Nat} {r : PendingRemoteAck α} {regs : List (Registration α)} {es : List Event}
  {xs : List (Cause × Option (PendingRemoteAck α))}

theorem Life.event (h : Life id (some (.record r)) regs es xs) (e : Event) :
    Life id (some (.record (r.apply e).1)) regs (es ++ [e]) xs := by
  cases h with
  | record ha =>
    rw [← PendingRemoteAck.after_append]
    exact .record ha

theorem Life.endRecord (h : Life id (some (.record r)) regs es xs) (ending : Ending)
    (hx : ending = .expire → Expires es) :
    Life id none regs es (xs ++ [(.ending ending, some r)]) := by
  cases h with
  | record ha => exact .recordEnded ha hx

theorem Life.endAdmission (h : Life id (some (.admission : Live α)) regs es xs)
    (hc : cause ≠ .ending .expire) : Life id none regs es (xs ++ [(cause, none)]) := by
  cases h with
  | admission => exact .admissionEnded hc

theorem Life.expires (h : Life id (some (.record r)) regs es xs) (hx : r.swept.2 = true) :
    Expires (es ++ [.sweep]) := by
  cases h with
  | @record _ a receiver _ _ =>
    have hcounts := PendingRemoteAck.counts_after receiver a (es ++ [.sweep])
    rw [PendingRemoteAck.after_append] at hcounts
    exact hcounts.expires (PendingRemoteAck.swept_expired _ ▸ hx)

end

section
variable {id : Nat} {live : Option (Live α)} {regs : List (Registration α)} {es : List Event}
  {xs : List (Cause × Option (PendingRemoteAck α))}

section
variable (h : Life id live regs es xs)
include h

theorem Life.length_le : regs.length ≤ 1 := by
  cases h <;> simp

theorem Life.live_eq_none (hx : regs.length = 0 ∨ xs ≠ []) : live = none := by
  cases h <;> simp_all

theorem Life.length_add (hregs : regs.length = 1) : xs.length + live.isSome.toNat = 1 := by
  cases h <;> simp_all

theorem Life.own (hr : (cause, some r) ∈ xs) :
    ∃ receiver acks a ending, regs = [.records receiver acks] ∧
      acks[id % ROW_POSITIONS]?.join = some a ∧ cause = .ending ending ∧
      r = (PendingRemoteAck.new receiver a).after es := by
  cases h with
  | recordEnded ha =>
    cases mem_singleton.mp hr
    exact ⟨_, _, _, _, rfl, ha, rfl, rfl⟩
  | admissionEnded => cases mem_singleton.mp hr
  | _ => cases hr

theorem Life.expired (hr : (.ending .expire, r) ∈ xs) : Expires es := by
  cases h with
  | recordEnded _ hx =>
    cases mem_singleton.mp hr
    exact hx rfl
  | admissionEnded hne =>
    cases mem_singleton.mp hr
    exact absurd rfl hne
  | _ => cases hr

end

end

section
variable {c : RemoteCorrelation α} {id id' : Nat} {r r' : PendingRemoteAck α}
  {acks : DeliveryAcks α} {rows : List (Option (PendingRemoteAck α))}

theorem RemoteCorrelation.live_records (h : c.state = .records acks) : c.live id =
    if c.route = id / ROW_POSITIONS then acks.rows[id % ROW_POSITIONS]?.join.map .record
    else none := by
  simp [RemoteCorrelation.live, h]

theorem RemoteCorrelation.live_admission (h : c.state = .admission sender) :
    c.live id = if c.route = id / ROW_POSITIONS ∧ id % ROW_POSITIONS = 0 then some .admission
      else none := by
  simp only [RemoteCorrelation.live, h]
  split <;> simp_all

theorem RemoteCorrelation.record_eq_some (h : c.record id = some r) :
    c.route = id / ROW_POSITIONS ∧ ∃ acks, c.state = .records acks ∧
      acks.rows[id % ROW_POSITIONS]? = some (some r) := by
  unfold RemoteCorrelation.record at h
  split at h
  · rename_i hroute
    split at h
    · rename_i acks hstate
      exact ⟨hroute, acks, hstate, by simpa [Option.join_eq_some_iff] using h⟩
    · cases h
  · cases h

theorem row_ne (h : id / ROW_POSITIONS = id' / ROW_POSITIONS) (hne : id ≠ id') :
    id' % ROW_POSITIONS ≠ id % ROW_POSITIONS := by
  intro hmod
  have h1 := Nat.div_add_mod id ROW_POSITIONS
  have h2 := Nat.div_add_mod id' ROW_POSITIONS
  rw [h] at h1
  omega

/-- The slot of a delivery, which is emptied with the last of its rows. -/
theorem live_kept (hn : n = rows.countP (·.isSome)) (id : Nat) :
    live
        (.opened g (if n = 0 then none else some ⟨k, .records ⟨rows, n⟩⟩)) id =
      if k = id / ROW_POSITIONS then rows[id % ROW_POSITIONS]?.join.map .record else none := by
  split
  · rename_i hzero
    cases hrow : rows[id % ROW_POSITIONS]?.join with
    | none => exact (ite_self _).symm
    | some r =>
      have hmem := mem_of_getElem? (Option.join_eq_some_iff.mp hrow)
      exact absurd rfl (countP_eq_zero.mp (hn.symm.trans hzero) _ hmem)
  · rfl

theorem wf_of_kept (hlen : rows.length ≤ ROW_POSITIONS) (hn : n = rows.countP (·.isSome))
    (h : (if n = 0 then none else some ⟨k, .records ⟨rows, n⟩⟩) = some c) :
    c.route = k ∧ c.WF := by
  split at h <;> cases h
  exact ⟨rfl, hlen, ‹_›, hn⟩

end

section
variable {capacity p g id : Nat} {slot slot' : CorrelationSlot α} {history entries : List (Entry α)}
  {c : RemoteCorrelation α} {r : PendingRemoteAck α} {acks : DeliveryAcks α}

theorem Agree.visit (H : Agree capacity p slot history)
    (hlife : ∀ id, Life id (slot'.live id) (issued history id)
      (events history id ++ events entries id) (ends history id ++ ends entries id))
    (hentries : ∀ r registration, .registered r registration ∉ entries)
    (hopened : ∀ g o, slot' = .opened g o → ∃ o', slot = .opened g o' ∧
      ∀ c, o = some c → ∃ c', o' = some c' ∧ c.route = c'.route ∧ c.WF) :
    Agree capacity p slot' (history ++ entries) := by
  refine ⟨fun id => ?_, fun r registration hr => ?_, fun g c hc => ?_⟩
  · rw [issued_append hentries, events_append, ends_append]
    exact hlife id
  · rcases mem_append.mp hr with hr | hr
    · obtain ⟨hmod, hle⟩ := H.routes r registration hr
      refine ⟨hmod, fun g o ho => ?_⟩
      obtain ⟨o', ho', -⟩ := hopened g o ho
      exact hle g o' ho'
    · exact absurd hr (hentries r registration)
  · obtain ⟨o', ho', hcurrent⟩ := hopened g _ hc
    obtain ⟨c', rfl, hroute, hwf⟩ := hcurrent c rfl
    exact ⟨hroute.trans (H.current g c' ho').1, hwf⟩

theorem Agree.same (H : Agree capacity p slot history) : Agree capacity p slot (history ++ []) := by
  rw [append_nil]
  exact H

theorem Agree.visitId (H : Agree capacity p slot history) (id : Nat)
    (hlive : ∀ id', id ≠ id' → slot'.live id' = slot.live id')
    (hlife : Life id (slot'.live id) (issued history id)
      (events history id ++ events entries id) (ends history id ++ ends entries id))
    (hentries : About id entries)
    (hopened : ∀ g o, slot' = .opened g o → ∃ o', slot = .opened g o' ∧
      ∀ c, o = some c → ∃ c', o' = some c' ∧ c.route = c'.route ∧ c.WF) :
    Agree capacity p slot' (history ++ entries) := by
  refine H.visit (fun id' => ?_) hentries.not_registered hopened
  by_cases hid : id = id'
  · subst hid
    exact hlife
  · rw [hlive id' hid, hentries.events_eq_nil hid, hentries.ends_eq_nil hid, append_nil, append_nil]
    exact H.life id'

section
variable (H : Agree capacity p (.opened g (some c)) history)
include H

theorem Agree.wf (hstate : c.state = .records acks) : acks.rows.length ≤ ROW_POSITIONS ∧
    acks.remaining ≠ 0 ∧ acks.remaining = acks.rows.countP (·.isSome) := by
  simpa [RemoteCorrelation.WF, hstate] using (H.current g c rfl).2

theorem Agree.setRow (hstate : c.state = .records acks) (hroute : c.route = id / ROW_POSITIONS)
    (hrow : acks.rows[id % ROW_POSITIONS]? = some (some r))
    (hn : n = (acks.rows.set (id % ROW_POSITIONS) row).countP (·.isSome))
    (hentries : About id entries)
    (hlife : ∀ {regs es xs}, Life id (some (.record r)) regs es xs →
      Life id (row.map .record) regs (es ++ events entries id) (xs ++ ends entries id)) :
    Agree capacity p (.opened g (if n = 0 then none else some
      ⟨c.route, .records ⟨acks.rows.set (id % ROW_POSITIONS) row, n⟩⟩)) (history ++ entries) := by
  obtain ⟨hlen, -⟩ := H.wf hstate
  have hlt : id % ROW_POSITIONS < acks.rows.length := (List.getElem?_eq_some_iff.mp hrow).1
  refine H.visitId id (fun id' hid => ?_) ?_ hentries fun g' o ho => ?_
  · rw [live_kept hn, live, RemoteCorrelation.live_records hstate]
    split
    · rename_i hroute'
      rw [getElem?_set_ne (row_ne (hroute'.symm.trans hroute) (Ne.symm hid))]
    · rfl
  · have hold := H.life id
    rw [live, RemoteCorrelation.live_records hstate, if_pos hroute, hrow] at hold
    rw [live_kept hn, if_pos hroute, getElem?_set_self hlt]
    exact hlife hold
  · cases ho
    exact ⟨_, rfl, fun c' hc' => ⟨c, rfl, wf_of_kept (by simpa using hlen) hn hc'⟩⟩

theorem Agree.event (hrecord : c.record id = some r) (e : Event) :
    Agree capacity p (.opened g (some (c.setRecord id (r.apply e).1)))
      (history ++ [.event id e]) := by
  obtain ⟨hroute, acks, hstate, hrow⟩ := c.record_eq_some hrecord
  obtain ⟨hlt, hr⟩ := List.getElem?_eq_some_iff.mp hrow
  obtain ⟨-, hne, hcount⟩ := H.wf hstate
  have hset : Agree capacity p (.opened g (if acks.remaining = 0 then none else some
      ⟨c.route, .records ⟨acks.rows.set (id % ROW_POSITIONS) (some (r.apply e).1), acks.remaining⟩⟩))
      (history ++ [.event id e]) := by
    refine H.setRow hstate hroute hrow ?_ (fun e' he' => .inl ⟨e, mem_singleton.mp he'⟩)
      fun hlife => ?_
    · rw [countP_set hlt, hr, ← hcount]
      exact (Nat.sub_add_cancel (Nat.one_le_iff_ne_zero.mpr hne)).symm
    · simpa using hlife.event e
  rw [if_neg hne] at hset
  simpa [RemoteCorrelation.setRecord, hstate] using hset

theorem Agree.endAdmission
    (hstate : c.state = .admission sender) (hroute : c.route = id / ROW_POSITIONS)
    (hrow : id % ROW_POSITIONS = 0) (hcause : cause ≠ .ending .expire)
    (hslot : slot' = .opened g none ∨ slot' = .closed) :
    Agree capacity p slot' (history ++ [.ended id cause none]) := by
  have hlive : ∀ id', c.live id' = _ := fun id' => RemoteCorrelation.live_admission hstate
  have hgone : ∀ id', slot'.live id' = none := by
    intro id'
    rcases hslot with rfl | rfl <;> rfl
  refine H.visitId id (fun id' hid => ?_) ?_ (fun e' he' => ?_) ?_
  · rw [hgone, live, hlive, if_neg]
    rintro ⟨hroute', hrow'⟩
    exact row_ne (hroute.symm.trans hroute') hid (hrow'.trans hrow.symm)
  · have hlife := H.life id
    simp only [live, hlive, hroute, hrow, and_self, if_true] at hlife
    rw [hgone]
    simpa using hlife.endAdmission hcause
  · exact .inr ⟨_, _, mem_singleton.mp he'⟩
  · rintro g' o rfl
    rcases hslot with hslot | hslot
    · cases hslot
      exact ⟨_, rfl, nofun⟩
    · cases hslot

theorem Agree.send (hstate : c.state = .admission sender) (sender' : AdmissionSender) :
    Agree capacity p (.opened g (some ⟨c.route, .admission sender'⟩)) (history ++ []) := by
  refine H.visit (fun id => ?_) (fun _ _ => by simp) ?_
  · have hlive : RemoteCorrelation.live ⟨c.route, .admission sender'⟩ id = c.live id := by
      rw [RemoteCorrelation.live_admission rfl, RemoteCorrelation.live_admission hstate]
    simpa [live, hlive] using H.life id
  · rintro g' o ho
    cases ho
    refine ⟨_, rfl, fun c' hc' => ⟨c, rfl, ?_⟩⟩
    cases hc'
    exact ⟨rfl, trivial⟩

end

section
variable (H : Agree capacity p slot history)
include H

theorem Agree.admitAck (id : Nat) :
    Agree capacity p (slot.admitAck id).slot (history ++ (slot.admitAck id).entries) := by
  unfold CorrelationSlot.admitAck
  split
  · split
    · rename_i r hrecord
      split
      · have h := H.event hrecord .admits
        exact h
      · exact H.same
    · exact H.same
  · exact H.same

theorem Agree.applyProgress (id : Nat) (progress : Option (Nat × Bool)) :
    Agree capacity p (slot.applyProgress id progress).slot
      (history ++ (slot.applyProgress id progress).entries) := by
  unfold CorrelationSlot.applyProgress
  split
  · split
    · rename_i hroute
      split
      · split
        · rename_i r hrecord
          exact H.event hrecord (.report progress)
        · exact H.same
      · rename_i sender hstate
        split
        · rename_i hrow
          split
          · exact H.endAdmission hstate hroute hrow nofun (.inl rfl)
          · exact H.send hstate _
        · exact H.same
    · exact H.same
  · exact H.same

theorem Agree.take (id : Nat) (hending : ending ≠ .expire) :
    Agree capacity p (slot.take id ending).slot (history ++ (slot.take id ending).entries) := by
  unfold CorrelationSlot.take
  split
  · split
    · rename_i hroute
      split
      · rename_i acks hstate
        split
        · rename_i r hrow
          rw [Option.join_eq_some_iff] at hrow
          obtain ⟨hlt, hr⟩ := List.getElem?_eq_some_iff.mp hrow
          obtain ⟨-, -, hcount⟩ := H.wf hstate
          refine H.setRow hstate hroute hrow ?_ (fun e he => .inr ⟨_, _, mem_singleton.mp he⟩)
            fun hlife => ?_
          · rw [countP_set hlt, hr, hcount]
            rfl
          · simpa using hlife.endRecord ending (absurd · hending)
        · exact H.same
      · rename_i sender hstate
        split
        · rename_i hrow
          exact H.endAdmission hstate hroute hrow (by simpa using hending) (.inl rfl)
        · exact H.same
    · exact H.same
  · exact H.same

theorem Agree.dropReceiver (id : Nat) :
    Agree capacity p (slot.dropReceiver id).slot (history ++ (slot.dropReceiver id).entries) := by
  unfold CorrelationSlot.dropReceiver
  split
  · split
    · exact H.send rfl _
    · exact H.same
  · exact H.same

end

end

open CorrelationSlot

def rowAt {β : Type} (base : Nat) (rows : List (Option β)) (id : Nat) : Option β :=
  if base ≤ id then rows[id - base]?.join else none

section
variable {β : Type} {base id : Nat} {row : Option β} {rows : List (Option β)}

theorem rowAt_cons : rowAt base (row :: rows) id =
    if base = id then row else rowAt (base + 1) rows id := by
  unfold rowAt
  by_cases hid : base = id
  · simp [hid]
  · rw [if_neg hid]
    by_cases hle : base ≤ id
    · have hlt : base + 1 ≤ id := by omega
      rw [if_pos hle, if_pos hlt]
      obtain ⟨k, rfl⟩ := Nat.exists_eq_add_of_le hlt
      rw [show base + 1 + k - base = k + 1 by omega, show base + 1 + k - (base + 1) = k by omega,
        getElem?_cons_succ]
    · rw [if_neg hle, if_neg (by omega)]

theorem rowAt_route (hlen : rows.length ≤ ROW_POSITIONS) (r id : Nat) :
    rowAt (r * ROW_POSITIONS) rows id =
      if r = id / ROW_POSITIONS then rows[id % ROW_POSITIONS]?.join else none := by
  have hdiv := Nat.div_add_mod id ROW_POSITIONS
  unfold rowAt
  by_cases hroute : r = id / ROW_POSITIONS
  · have hbase : r * ROW_POSITIONS ≤ id := by
      rw [hroute, Nat.mul_comm]
      omega
    have hrow : id - r * ROW_POSITIONS = id % ROW_POSITIONS := by
      rw [hroute, Nat.mul_comm]
      omega
    rw [if_pos hroute, if_pos hbase, hrow]
  · rw [if_neg hroute]
    by_cases hbase : r * ROW_POSITIONS ≤ id
    · have hfar : rows.length ≤ id - r * ROW_POSITIONS := by
        have hle : r ≤ id / ROW_POSITIONS := (Nat.le_div_iff_mul_le (by decide)).mpr hbase
        have hnext := Nat.mul_le_mul_right ROW_POSITIONS (show r + 1 ≤ id / ROW_POSITIONS by omega)
        rw [Nat.add_mul, Nat.one_mul, Nat.mul_comm (id / ROW_POSITIONS)] at hnext
        omega
      rw [if_pos hbase, getElem?_eq_none hfar]
      rfl
    · rw [if_neg hbase]

end

section
variable {base id : Nat} {rows : List (Option (PendingRemoteAck α))}

theorem rowAt_map (f : Option (PendingRemoteAck α) → Option (PendingRemoteAck α))
    (hf : f none = none) : rowAt base (rows.map f) id = f (rowAt base rows id) := by
  unfold rowAt
  split
  · rw [getElem?_map]
    cases rows[id - base]? with
    | none => exact hf.symm
    | some row => rfl
  · exact hf.symm

theorem filterMap_rowEntries
    (g : Entry α → Option β) (hother : ∀ id' r, id' ≠ id → (f id' r).filterMap g = []) :
    (rowEntries f base rows).filterMap g =
      (rowAt base rows id).elim [] fun r => (f id r).filterMap g := by
  induction rows generalizing base with
  | nil => simp [rowEntries, rowAt]
  | cons row rows ih =>
    have hlater : base = id → rowAt (base + 1) rows id = none := fun h => if_neg (by omega)
    rw [rowAt_cons]
    by_cases hid : base = id
    · cases row with
      | none => rw [rowEntries, ih, hlater hid, if_pos hid]
      | some r => rw [rowEntries, filterMap_append, ih, hlater hid, if_pos hid, hid]; simp
    · cases row with
      | none => rw [rowEntries, ih, if_neg hid]
      | some r => rw [rowEntries, filterMap_append, ih, if_neg hid, hother _ _ hid]; rfl

section
variable {f : Nat → PendingRemoteAck α → List (Entry α)} (hf : ∀ id r, About id (f id r))
include hf

theorem events_rowEntries (id : Nat) : events (rowEntries f base rows) id =
    (rowAt base rows id).elim [] fun r => events (f id r) id :=
  filterMap_rowEntries _ fun _ _ hne => (hf _ _).events_eq_nil hne

theorem ends_rowEntries (id : Nat) : ends (rowEntries f base rows) id =
    (rowAt base rows id).elim [] fun r => ends (f id r) id :=
  filterMap_rowEntries _ fun _ _ hne => (hf _ _).ends_eq_nil hne

theorem not_registered_mem_rowEntries (r : Nat) (registration : Registration α) :
    .registered r registration ∉ rowEntries f base rows := by
  induction rows generalizing base with
  | nil => simp [rowEntries]
  | cons row rows ih =>
    cases row with
    | none => exact ih
    | some _ =>
      rw [rowEntries, mem_append, not_or]
      exact ⟨(hf _ _).not_registered _ _, ih⟩

end

theorem countP_sweepRow (base : Nat) (rows : List (Option (PendingRemoteAck α))) :
    (rows.map sweepRow).countP (·.isSome) +
        ((rowEntries sweepEntries base rows).filterMap Entry.failed).length =
      rows.countP (·.isSome) := by
  induction rows generalizing base with
  | nil => rfl
  | cons row rows ih =>
    have hrest := ih (base + 1)
    cases row with
    | none => simpa [rowEntries, sweepRow] using hrest
    | some r =>
      cases hx : r.swept.2 <;>
        simp [rowEntries, sweepRow, sweepEntries, hx, Entry.failed, filterMap_cons]
          at hrest ⊢ <;>
        omega

end

section
variable {capacity p g : Nat} {slot : CorrelationSlot α} {history : List (Entry α)}
  {c : RemoteCorrelation α} {acks : DeliveryAcks α}

theorem Agree.visitRows (H : Agree capacity p (.opened g (some c)) history)
    (hstate : c.state = .records acks) {slot' : CorrelationSlot α} (hf : ∀ id r, About id (f id r))
    (hlive : ∀ id, rowAt (c.route * ROW_POSITIONS) acks.rows id = none → slot'.live id = none)
    (hlife : ∀ id r, rowAt (c.route * ROW_POSITIONS) acks.rows id = some r →
      ∀ {regs es xs}, Life id (some (.record r)) regs es xs →
        Life id (slot'.live id) regs (es ++ events (f id r) id) (xs ++ ends (f id r) id))
    (hopened : ∀ g' o, slot' = .opened g' o → g' = g ∧ ∀ c', o = some c' →
      c'.route = c.route ∧ c'.WF) :
    Agree capacity p slot'
      (history ++ rowEntries f (c.route * ROW_POSITIONS) acks.rows) := by
  obtain ⟨hlen, -⟩ := H.wf hstate
  refine H.visit (fun id => ?_) (not_registered_mem_rowEntries hf) ?_
  · have hold := H.life id
    have hrowLive : c.live id = (rowAt (c.route * ROW_POSITIONS) acks.rows id).map .record := by
      rw [RemoteCorrelation.live_records hstate, rowAt_route hlen]
      split <;> rfl
    rw [live, hrowLive] at hold
    rw [events_rowEntries hf, ends_rowEntries hf]
    cases hrow : rowAt (c.route * ROW_POSITIONS) acks.rows id with
    | none =>
      rw [hrow] at hold
      simpa [hlive id hrow] using hold
    | some r =>
      rw [hrow] at hold
      exact hlife id r hrow hold
  · intro g' o ho
    obtain ⟨rfl, hc⟩ := hopened g' o ho
    exact ⟨_, rfl, fun c' hc' => ⟨c, rfl, hc c' hc'⟩⟩

theorem about_sweepEntries (id : Nat) (r : PendingRemoteAck α) : About id (sweepEntries id r) := by
  intro e he
  simp only [sweepEntries, mem_cons] at he
  rcases he with rfl | he
  · exact .inl ⟨_, rfl⟩
  · split at he
    · exact .inr ⟨_, _, mem_singleton.mp he⟩
    · cases he

theorem about_shutdownEntries (id : Nat) (r : PendingRemoteAck α) :
    About id (shutdownEntries id r) :=
  fun _ he => .inr ⟨_, _, mem_singleton.mp he⟩

theorem Agree.failSilentAcks (H : Agree capacity p slot history) :
    Agree capacity p slot.failSilentAcks.slot (history ++ slot.failSilentAcks.entries) := by
  unfold CorrelationSlot.failSilentAcks
  split
  · rename_i g c
    split
    · rename_i acks hstate
      obtain ⟨hlen, -, hcount⟩ := H.wf hstate
      have hcount' := countP_sweepRow (c.route * ROW_POSITIONS) acks.rows
      dsimp only
      generalize ((rowEntries sweepEntries (c.route * ROW_POSITIONS)
        acks.rows).filterMap Entry.failed).length = k at hcount' ⊢
      have hn : acks.remaining - k = (acks.rows.map sweepRow).countP (·.isSome) := by omega
      have hlive : ∀ id, CorrelationSlot.live (.opened g (if acks.remaining - k = 0 then none
          else some ⟨c.route, .records ⟨acks.rows.map sweepRow, acks.remaining - k⟩⟩)) id =
          (sweepRow (rowAt (c.route * ROW_POSITIONS) acks.rows id)).map .record := by
        intro id
        rw [live_kept hn, ← rowAt_map sweepRow rfl, rowAt_route (by simpa using hlen)]
        split <;> rfl
      refine H.visitRows hstate about_sweepEntries (fun id hrow => ?_)
        (fun id r hrow regs es xs hlife => ?_) ?_
      · rw [hlive, hrow]
        rfl
      · rw [hlive, hrow]
        have hevent : Life id (some (.record r.swept.1)) regs (es ++ [.sweep]) xs :=
          hlife.event .sweep
        cases hx : r.swept.2
        · simpa [sweepRow, sweepEntries, hx] using hevent
        · have hend := hevent.endRecord .expire fun _ => hlife.expires hx
          simpa [sweepRow, sweepEntries, hx] using hend
      · rintro g' o ho
        cases ho
        exact ⟨rfl, fun c' => wf_of_kept (by simpa using hlen) hn⟩
    · rename_i sender hstate
      split
      · exact H.endAdmission hstate (by simp [ROW_POSITIONS]) (by simp) nofun (.inl rfl)
      · exact H.same
  · exact H.same

theorem Agree.shutdown (H : Agree capacity p slot history) :
    Agree capacity p slot.shutdown.slot (history ++ slot.shutdown.entries) := by
  have hclosed : ∀ g o, (.closed : CorrelationSlot α) ≠ .opened g o := nofun
  unfold CorrelationSlot.shutdown
  split
  · refine H.visitRows rfl about_shutdownEntries
      (fun _ _ => rfl) (fun id r _ _ _ _ hlife => ?_) fun g o ho => absurd ho (hclosed g o)
    have hend := hlife.endRecord .shutdown nofun
    simpa [CorrelationSlot.live, shutdownEntries] using hend
  · exact H.endAdmission rfl (by simp [ROW_POSITIONS]) (by simp) nofun (.inr rfl)
  · rename_i hrecords hadmission
    refine H.visit (fun id => ?_) nofun fun g o ho => absurd ho (hclosed g o)
    have hnone : slot.live id = none := by
      unfold CorrelationSlot.live
      split
      · rename_i g c
        rcases c with ⟨route, acks | sender⟩
        · exact absurd rfl (hrecords _ _ _)
        · exact absurd rfl (hadmission _ _ _)
      · rfl
    have hlife := H.life id
    rw [hnone] at hlife
    simpa [CorrelationSlot.live] using hlife

theorem Life.issue {id : Nat} {es : List Event} {xs : List (Cause × Option (PendingRemoteAck α))}
    (h : Life id none [] es xs) (registration : Registration α) :
    Life id (RemoteCorrelation.live ⟨id / ROW_POSITIONS, registration.state⟩ id)
      (if registration.issues (id % ROW_POSITIONS) then [registration] else []) es xs := by
  cases h with
  | fresh =>
    cases registration with
    | admission =>
      rw [RemoteCorrelation.live_admission rfl]
      by_cases hrow : id % ROW_POSITIONS = 0
      · simpa [hrow, Registration.issues] using Life.admission
      · simpa [hrow, Registration.issues] using Life.fresh
    | records receiver acks =>
      rw [RemoteCorrelation.live_records rfl]
      have hrow : (acks.map (·.map (PendingRemoteAck.new receiver)))[id % ROW_POSITIONS]?.join =
          acks[id % ROW_POSITIONS]?.join.map (PendingRemoteAck.new receiver) := by
        rw [getElem?_map]
        cases acks[id % ROW_POSITIONS]? <;> rfl
      rw [if_pos rfl, hrow, Registration.issues]
      cases ha : acks[id % ROW_POSITIONS]?.join with
      | none => exact .fresh
      | some a =>
        have hrecord : Life id (some (.record ((PendingRemoteAck.new receiver a).after [])))
          [.records receiver acks] [] [] := .record ha
        exact hrecord

def Registration.Fits : Registration α → Prop
  | records _ acks => acks.length ≤ ROW_POSITIONS ∧ acks.countP (·.isSome) ≠ 0
  | admission => True

theorem Agree.register (H : Agree capacity p (.opened g none) history) (hp : p < 2 * capacity)
    (hroute : route capacity p g = some r) {registration : Registration α}
    (hfits : registration.Fits) :
    Agree capacity p (.opened (g + 1) (some ⟨r, registration.state⟩))
      (history ++ [.registered r registration]) := by
  have hr : r = (g + 1) * (2 * capacity) + p := by
    simp only [route] at hroute
    split at hroute
    · cases hroute
      rfl
    · cases hroute
  have hmod : r % (2 * capacity) = p := by
    rw [hr, Nat.mul_comm, Nat.mul_add_mod, Nat.mod_eq_of_lt hp]
  have hdiv : r / (2 * capacity) = g + 1 := by
    rw [hr, Nat.mul_comm, Nat.mul_add_div (by omega), Nat.div_eq_of_lt hp, Nat.add_zero]
  refine ⟨fun id => ?_, fun r' registration' hr' => ?_, fun g' c hc => ?_⟩
  · have hlife := H.life id
    by_cases hid : r = id / ROW_POSITIONS
    · have hfresh : issued history id = [] := by
        refine filterMap_eq_nil_iff.mpr fun e he => ?_
        cases e with
        | registered r' registration' =>
          have hle := (H.routes r' registration' he).2 g none rfl
          refine if_neg fun hissues => ?_
          rw [hissues.1, ← hid, hdiv] at hle
          omega
        | _ => rfl
      rw [hfresh] at hlife
      have hissue := hlife.issue registration
      rw [issued_append_registered, hfresh]
      simpa [hid, live] using hissue
    · have hlive : RemoteCorrelation.live ⟨r, registration.state⟩ id = none := if_neg hid
      rw [issued_append_registered]
      simpa [hid, live, hlive] using hlife
  · rcases mem_append.mp hr' with hr' | hr'
    · obtain ⟨hmod', hle⟩ := H.routes r' registration' hr'
      refine ⟨hmod', fun g' c hc => ?_⟩
      cases hc
      exact Nat.le_succ_of_le (hle g none rfl)
    · cases mem_singleton.mp hr'
      refine ⟨hmod, fun g' c hc => ?_⟩
      cases hc
      exact hdiv.le
  · cases hc
    refine ⟨hr, ?_⟩
    cases registration with
    | admission => trivial
    | records receiver acks =>
      obtain ⟨hlen, hne⟩ := hfits
      exact ⟨by simpa [Registration.state] using hlen, hne, by simp [countP_map, Function.comp_def]⟩

end

end Nervix.RemoteAck
