import Nervix.Emitter.PreparedPayloads

/-!
# The confirmation window

A brokered emitter in `MODE ACK` hands its records to the driver one after another and keeps each
with the future its answer arrives through, oldest first and at most `MAX` at once.
-/

namespace Nervix.Emitter

open List

variable {φ : Type}

inductive BrokerVerdict
  | confirmed
  | rejected (message : String)
deriving DecidableEq

inductive ConfirmationWindowError
  | answerTimedOut (timeout : Nat)
  | deadlineOutOfRange (timeout : Nat)
deriving DecidableEq

inductive EmitterWriteError (φ : Type)
  | stopped (connector : String) (error : ConfirmationWindowError)
  | driver (error : φ)

abbrev BrokerAnswer (φ : Type) := Except (EmitterWriteError φ) BrokerVerdict

inductive MessageErrorCode
  | external
  | validation
deriving DecidableEq

inductive MessageErrorOperation
  | publish
  | encode
deriving DecidableEq

structure MessageErrorDetail where
  code : MessageErrorCode
  message : String
  operation : MessageErrorOperation
deriving DecidableEq

def RejectedEmitterMember.external {ι : Type} (id : ι) (occurredAt : Timestamp)
    (message : String) : RejectedEmitterMember MessageErrorDetail ι :=
  ⟨id, ⟨occurredAt, ⟨.external, message, .publish⟩⟩⟩

abbrev PublishOutcome (φ : Type) := PerRecordOutcome MessageErrorDetail (EmitterWriteError φ)

structure AckConfirmation where
  maxInFlight : Nat
  maxInFlight_pos : 0 < maxInFlight
  timeout : Nat
  checkedAdd : Nat → Nat → Option Nat
  connector : String

structure InFlightRecord (φ : Type) where
  record : Nat
  occurredAt : Timestamp
  deadline : Nat
  answer : Option (BrokerAnswer φ) := none

inductive Waiting
  | admitRecord
  | settleNext
  | finish
deriving DecidableEq

inductive Phase (φ : Type)
  | idle
  | waiting (call : Waiting)
  | stopped (failure : EmitterWriteError φ)
  | failing (failure : EmitterWriteError φ)
  | ended

structure Publish (φ : Type) where
  now : Nat := 0
  phase : Phase φ := .idle
  inFlight : List (InFlightRecord φ) := []
  outcome : PublishOutcome φ := {}
  handed : List Nat := []
  refused : List (RejectedEmitterMember MessageErrorDetail Nat) := []
  given : List (Nat × BrokerAnswer φ) := []
  failedWith : List (InFlightRecord φ) := []
  unresolved : List (InFlightRecord φ) := []

inductive WindowEvent (φ : Type)
  | admitRecord (record : Nat) (occurredAt : Timestamp)
  | reject (rejected : RejectedEmitterMember MessageErrorDetail Nat)
  | settleNext
  | finish
  | fail (failure : EmitterWriteError φ)
  | ready
  | elapsed
  | sweep
  | answer (index : Nat) (answer : BrokerAnswer φ)
  | tick (now : Nat)

def InFlightRecord.settle (r : InFlightRecord φ) (verdict : BrokerVerdict)
    (outcome : PublishOutcome φ) : PublishOutcome φ :=
  match verdict with
  | .confirmed => { outcome with delivered := outcome.delivered ++ [r.record] }
  | .rejected message =>
    { outcome with rejected := outcome.rejected ++ [.external r.record r.occurredAt message] }

namespace Publish

variable (settings : AckConfirmation)

section
variable (p : Publish φ) (call : Waiting) (failure : EmitterWriteError φ)

def startFailing : Publish φ :=
  { p with phase := .failing failure, failedWith := p.inFlight }

def stop : Publish φ :=
  match call with
  | .admitRecord | .settleNext => { p with phase := .stopped failure }
  | .finish => p.startFailing failure

def resume : Publish φ :=
  match call with
  | .admitRecord | .settleNext => { p with phase := .idle }
  | .finish => { p with phase := if p.inFlight.isEmpty then .ended else .waiting .finish }

def admitRecord (record : Nat) (occurredAt : Timestamp) : Publish φ :=
  let p := { p with handed := p.handed ++ [record] }
  match settings.checkedAdd p.now settings.timeout with
  | none =>
    { p with
      phase := .stopped (.stopped settings.connector (.deadlineOutOfRange settings.timeout))
      unresolved := p.unresolved ++ [⟨record, occurredAt, 0, none⟩] }
  | some deadline =>
    let p := { p with inFlight := p.inFlight ++ [⟨record, occurredAt, deadline, none⟩] }
    if p.inFlight.length < settings.maxInFlight then p else { p with phase := .waiting .admitRecord }

def ready : Publish φ :=
  match p.inFlight with
  | [] => p
  | oldest :: inFlight =>
    match oldest.answer with
    | none => p
    | some (.ok verdict) =>
      { p with inFlight, outcome := oldest.settle verdict p.outcome }.resume call
    | some (.error failure) =>
      { p with inFlight, unresolved := p.unresolved ++ [oldest] }.stop call failure

def sweep : Publish φ :=
  match p.inFlight with
  | [] =>
    { p with phase := .ended, outcome := { p.outcome with infrastructureError := some failure } }
  | awaited :: inFlight =>
    match awaited.answer with
    | some (.ok verdict) => { p with inFlight, outcome := awaited.settle verdict p.outcome }
    | none | some (.error _) => { p with inFlight, unresolved := p.unresolved ++ [awaited] }

def next : WindowEvent φ → Publish φ
  | .admitRecord record occurredAt => p.admitRecord settings record occurredAt
  | .reject rejected =>
    { p with
      handed := p.handed ++ [rejected.id]
      refused := p.refused ++ [rejected]
      outcome := { p.outcome with rejected := p.outcome.rejected ++ [rejected] } }
  | .settleNext => if p.inFlight.isEmpty then p else { p with phase := .waiting .settleNext }
  | .finish => p.resume .finish
  | .fail failure => p.startFailing failure
  | .ready =>
    match p.phase with
    | .waiting call => p.ready call
    | _ => p
  | .elapsed =>
    match p.phase with
    | .waiting call =>
      p.stop call (.stopped settings.connector (.answerTimedOut settings.timeout))
    | _ => p
  | .sweep =>
    match p.phase with
    | .failing failure => p.sweep failure
    | _ => p
  | .answer index answer =>
    match p.inFlight[index]? with
    | none => p
    | some r =>
      { p with
        inFlight := p.inFlight.set index { r with answer := some answer }
        given := p.given ++ [(r.record, answer)] }
  | .tick now => { p with now }

def guard : WindowEvent φ → Prop
  | .admitRecord .. | .reject _ | .settleNext | .finish => p.phase = .idle
  | .fail _ => p.phase = .idle ∨ ∃ failure, p.phase = .stopped failure
  | .ready => ∃ call, p.phase = .waiting call
  | .elapsed => (∃ call, p.phase = .waiting call) ∧ ∃ r ∈ p.inFlight.head?, r.deadline ≤ p.now
  | .sweep => ∃ failure, p.phase = .failing failure
  | .answer index _ => ∃ r ∈ p.inFlight[index]?, r.answer = none
  | .tick now => p.now ≤ now

end

end Publish

def confirmedPublish (φ : Type) (settings : AckConfirmation) :
    System (Publish φ) (WindowEvent φ) where
  guard := Publish.guard
  next := Publish.next settings

def resolvedRecords (outcome : PublishOutcome φ) : List Nat :=
  outcome.delivered ++ outcome.rejected.map (·.id)

def InFlightRecord.ResolvedBy (r : InFlightRecord φ) (verdict : BrokerVerdict)
    (outcome : PublishOutcome φ) : Prop :=
  match verdict with
  | .confirmed => r.record ∈ outcome.delivered
  | .rejected message => .external r.record r.occurredAt message ∈ outcome.rejected

namespace Publish

variable {settings : AckConfirmation} {p : Publish φ}

structure Kept (p : Publish φ) : Prop where
  conserved : (resolvedRecords p.outcome ++ p.inFlight.map (·.record) ++
    p.unresolved.map (·.record)).Perm p.handed
  delivered : ∀ record ∈ p.outcome.delivered, (record, .ok .confirmed) ∈ p.given
  rejected : ∀ r ∈ p.outcome.rejected, r ∈ p.refused ∨ ∃ occurredAt message,
    (r.id, .ok (.rejected message)) ∈ p.given ∧ r = .external r.id occurredAt message
  answered : ∀ r ∈ p.inFlight, ∀ answer, r.answer = some answer → (r.record, answer) ∈ p.given
  unresolved : ∀ r ∈ p.unresolved, ∀ verdict, r.answer ≠ some (.ok verdict)
  failedWith : ∀ r ∈ p.failedWith, ∀ verdict, r.answer = some (.ok verdict) →
    r.ResolvedBy verdict p.outcome ∨ r ∈ p.inFlight

theorem Kept.withPhase (h : p.Kept) (phase : Phase φ) : ({ p with phase } : Publish φ).Kept :=
  ⟨h.conserved, h.delivered, h.rejected, h.answered, h.unresolved, h.failedWith⟩

theorem Kept.startFailing (h : p.Kept) (failure : EmitterWriteError φ) :
    (p.startFailing failure).Kept :=
  ⟨h.conserved, h.delivered, h.rejected, h.answered, h.unresolved, fun _ hr _ _ => .inr hr⟩

section
variable (r : InFlightRecord φ) (verdict : BrokerVerdict) (outcome : PublishOutcome φ)
include r verdict outcome

theorem resolvedBy_settle : r.ResolvedBy verdict (r.settle verdict outcome) := by
  cases verdict <;> exact mem_append_right _ (mem_singleton.mpr rfl)

theorem resolvedRecords_settle :
    (resolvedRecords (r.settle verdict outcome)).Perm (r.record :: resolvedRecords outcome) := by
  cases verdict with
  | confirmed =>
    simp only [resolvedRecords, InFlightRecord.settle, append_assoc]
    exact perm_middle
  | rejected message =>
    simp only [resolvedRecords, InFlightRecord.settle, map_append, ← append_assoc]
    exact perm_append_singleton _ _

end

theorem Kept.settle (h : p.Kept) {oldest : InFlightRecord φ} {inFlight : List (InFlightRecord φ)}
    {verdict : BrokerVerdict} (hp : p.inFlight = oldest :: inFlight)
    (hanswer : oldest.answer = some (.ok verdict)) :
    ({ p with inFlight, outcome := oldest.settle verdict p.outcome } : Publish φ).Kept := by
  have hgiven : (oldest.record, .ok verdict) ∈ p.given :=
    h.answered oldest (hp ▸ mem_cons_self) _ hanswer
  constructor
  case conserved =>
    refine List.Perm.trans ?_ h.conserved
    rw [hp, map_cons]
    refine List.Perm.append_right _ ?_
    exact ((resolvedRecords_settle oldest verdict p.outcome).append_right _).trans
      perm_middle.symm
  case delivered =>
    intro record hrecord
    cases verdict with
    | confirmed =>
      rcases mem_append.mp hrecord with hrecord | hrecord
      · exact h.delivered record hrecord
      · exact mem_singleton.mp hrecord ▸ hgiven
    | rejected message => exact h.delivered record hrecord
  case rejected =>
    intro r hr
    cases verdict with
    | confirmed => exact h.rejected r hr
    | rejected message =>
      rcases mem_append.mp hr with hr | hr
      · exact h.rejected r hr
      · obtain rfl := mem_singleton.mp hr
        exact .inr ⟨oldest.occurredAt, message, hgiven, rfl⟩
  case answered => exact fun r hr => h.answered r (hp ▸ mem_cons_of_mem oldest hr)
  case unresolved => exact h.unresolved
  case failedWith =>
    intro r hr v hv
    rcases h.failedWith r hr v hv with hresolved | hmem
    · left
      cases v <;> cases verdict <;> first | exact mem_append_left _ hresolved | exact hresolved
    · rcases mem_cons.mp (hp ▸ hmem) with rfl | hmem
      · rw [hanswer] at hv
        cases hv
        exact .inl (resolvedBy_settle r verdict p.outcome)
      · exact .inr hmem

theorem Kept.drop (h : p.Kept) {oldest : InFlightRecord φ} {inFlight : List (InFlightRecord φ)}
    (hp : p.inFlight = oldest :: inFlight)
    (hanswer : ∀ verdict, oldest.answer ≠ some (.ok verdict)) :
    ({ p with inFlight, unresolved := p.unresolved ++ [oldest] } : Publish φ).Kept := by
  constructor
  case conserved =>
    refine List.Perm.trans ?_ h.conserved
    classical
    rw [hp, perm_iff_count]
    intro a
    simp only [map_cons, map_append, count_append, count_cons, map_nil, count_nil]
    omega
  case delivered => exact h.delivered
  case rejected => exact h.rejected
  case answered => exact fun r hr => h.answered r (hp ▸ mem_cons_of_mem oldest hr)
  case unresolved =>
    intro r hr
    rcases mem_append.mp hr with hr | hr
    · exact h.unresolved r hr
    · exact mem_singleton.mp hr ▸ hanswer
  case failedWith =>
    intro r hr v hv
    refine (h.failedWith r hr v hv).imp_right fun hmem => ?_
    rcases mem_cons.mp (hp ▸ hmem) with rfl | hmem
    · exact absurd hv (hanswer v)
    · exact hmem

structure Sound (settings : AckConfirmation) (p : Publish φ) : Prop extends p.Kept where
  bounded : p.inFlight.length ≤ settings.maxInFlight
  room : p.phase = .idle → p.inFlight.length < settings.maxInFlight
  calm : (p.phase = .idle ∨ ∃ call, p.phase = .waiting call) → p.unresolved = []
  ended : p.phase = .ended → p.inFlight = [] ∧
    (p.outcome.infrastructureError = none → p.unresolved = [])

theorem sound_start (settings : AckConfirmation) : ({} : Publish φ).Sound settings where
  conserved := .nil
  delivered := nofun
  rejected := nofun
  answered := nofun
  unresolved := nofun
  failedWith := nofun
  bounded := Nat.zero_le _
  room _ := settings.maxInFlight_pos
  calm _ := rfl
  ended := nofun

theorem Sound.resume (hkept : p.Kept) (hlen : p.inFlight.length < settings.maxInFlight)
    (hcalm : p.unresolved = []) (call : Waiting) : (p.resume call).Sound settings := by
  cases call with
  | admitRecord | settleNext =>
    exact { hkept.withPhase .idle with
      bounded := hlen.le, room := fun _ => hlen, calm := fun _ => hcalm, ended := nofun }
  | finish =>
    refine { hkept.withPhase _ with
      bounded := hlen.le, room := fun _ => hlen, calm := fun _ => hcalm, ended := ?_ }
    intro hphase
    refine ⟨?_, fun _ => hcalm⟩
    by_cases hempty : p.inFlight.isEmpty
    · exact isEmpty_iff.mp hempty
    · rw [Publish.resume] at hphase
      simp only [if_neg hempty] at hphase
      cases hphase

theorem Sound.startFailing (hkept : p.Kept)
    (hbounded : p.inFlight.length ≤ settings.maxInFlight) (failure : EmitterWriteError φ) :
    (p.startFailing failure).Sound settings :=
  { hkept.startFailing failure with
    bounded := hbounded
    room := nofun
    calm := fun h => h.elim nofun nofun
    ended := nofun }

theorem Sound.stop (hkept : p.Kept) (hbounded : p.inFlight.length ≤ settings.maxInFlight)
    (call : Waiting) (failure : EmitterWriteError φ) : (p.stop call failure).Sound settings := by
  cases call with
  | admitRecord | settleNext =>
    exact { hkept.withPhase (.stopped failure) with
      bounded := hbounded, room := nofun, calm := fun h => h.elim nofun nofun, ended := nofun }
  | finish => exact Sound.startFailing hkept hbounded failure

theorem Sound.ready (h : p.Sound settings) {call : Waiting} (hphase : p.phase = .waiting call) :
    (p.ready call).Sound settings := by
  have hcalm := h.calm (.inr ⟨call, hphase⟩)
  rw [Publish.ready]
  split
  case h_1 => exact h
  case h_2 oldest inFlight hp =>
    have hlen : inFlight.length < settings.maxInFlight := by
      have := h.bounded
      rw [hp, length_cons] at this
      exact this
    split
    case h_1 => exact h
    case h_2 verdict hanswer =>
      exact Sound.resume (h.toKept.settle hp hanswer) hlen hcalm call
    case h_3 failure hanswer =>
      exact Sound.stop (h.toKept.drop hp (by rw [hanswer]; nofun)) hlen.le call failure

theorem Sound.sweep (h : p.Sound settings) {failure : EmitterWriteError φ}
    (hphase : p.phase = .failing failure) : (p.sweep failure).Sound settings := by
  have hidle : ¬ (p.phase = .idle ∨ ∃ call, p.phase = .waiting call) := by
    rw [hphase]
    exact fun h => h.elim nofun nofun
  have hended : p.phase ≠ .ended := by
    rw [hphase]
    nofun
  rw [Publish.sweep]
  split
  case h_1 hp =>
    exact
      { conserved := h.conserved
        delivered := h.delivered
        rejected := h.rejected
        answered := h.answered
        unresolved := h.unresolved
        failedWith := h.failedWith
        bounded := h.bounded
        room := nofun
        calm := fun h => h.elim nofun nofun
        ended := fun _ => ⟨hp, nofun⟩ }
  case h_2 awaited inFlight hp =>
    have hlen : inFlight.length ≤ settings.maxInFlight := by
      have := h.bounded
      rw [hp, length_cons] at this
      exact Nat.le_of_succ_le this
    have hsound : ∀ q : Publish φ, q.Kept → q.phase = p.phase →
        q.inFlight.length ≤ settings.maxInFlight → q.Sound settings := by
      intro q hkept hq hlen
      exact { hkept with
        bounded := hlen
        room := fun hidle' => absurd (.inl (hq ▸ hidle')) hidle
        calm := fun hcalm => absurd (hq ▸ hcalm) hidle
        ended := fun hended' => absurd (hq ▸ hended') hended }
    split
    case h_1 verdict hanswer => exact hsound _ (h.toKept.settle hp hanswer) rfl hlen
    case h_2 hanswer => exact hsound _ (h.toKept.drop hp (by rw [hanswer]; nofun)) rfl hlen
    case h_3 error hanswer => exact hsound _ (h.toKept.drop hp (by rw [hanswer]; nofun)) rfl hlen

theorem Kept.admitted (h : p.Kept) (record : Nat) (occurredAt : Timestamp) (deadline : Nat) :
    ({ p with
      handed := p.handed ++ [record]
      inFlight := p.inFlight ++ [⟨record, occurredAt, deadline, none⟩] } : Publish φ).Kept := by
  constructor
  case conserved =>
    refine List.Perm.trans ?_ (h.conserved.append_right [record])
    classical
    rw [perm_iff_count]
    intro a
    simp only [map_cons, map_append, count_append, count_cons, map_nil, count_nil]
    omega
  case delivered => exact h.delivered
  case rejected => exact h.rejected
  case answered =>
    intro r hr answer ha
    rcases mem_append.mp hr with hr | hr
    · exact h.answered r hr answer ha
    · obtain rfl := mem_singleton.mp hr
      cases ha
  case unresolved => exact h.unresolved
  case failedWith =>
    exact fun r hr v hv => (h.failedWith r hr v hv).imp_right (mem_append_left _)

theorem Kept.notTaken (h : p.Kept) (record : Nat) (occurredAt : Timestamp) :
    ({ p with
      handed := p.handed ++ [record]
      unresolved := p.unresolved ++ [⟨record, occurredAt, 0, none⟩] } : Publish φ).Kept := by
  constructor
  case conserved =>
    refine List.Perm.trans ?_ (h.conserved.append_right [record])
    simp only [map_append, map_cons, map_nil, append_assoc]
    exact .refl _
  case delivered => exact h.delivered
  case rejected => exact h.rejected
  case answered => exact h.answered
  case unresolved =>
    intro r hr
    rcases mem_append.mp hr with hr | hr
    · exact h.unresolved r hr
    · obtain rfl := mem_singleton.mp hr
      nofun
  case failedWith => exact h.failedWith

section
variable (h : p.Sound settings)
include h

theorem Sound.admitRecord (hphase : p.phase = .idle) (record : Nat)
    (occurredAt : Timestamp) : (p.admitRecord settings record occurredAt).Sound settings := by
  have hcalm := h.calm (.inl hphase)
  have hroom := h.room hphase
  rw [Publish.admitRecord]
  split
  case h_1 =>
    exact { (h.toKept.notTaken record occurredAt).withPhase _ with
      bounded := h.bounded, room := nofun, calm := fun h => h.elim nofun nofun, ended := nofun }
  case h_2 deadline _ =>
    have hkept := h.toKept.admitted record occurredAt deadline
    have hlen : (p.inFlight ++ [(⟨record, occurredAt, deadline, none⟩ : InFlightRecord φ)]).length
        ≤ settings.maxInFlight := by
      rw [length_append]
      exact hroom
    dsimp only
    split
    case isTrue hlt =>
      exact { hkept with
        bounded := hlen, room := fun _ => hlt, calm := fun _ => hcalm
        ended := fun hended => by
          rw [hphase] at hended
          cases hended }
    case isFalse =>
      exact { hkept.withPhase _ with
        bounded := hlen, room := nofun, calm := fun _ => hcalm, ended := nofun }

theorem Sound.reject (rejected : RejectedEmitterMember MessageErrorDetail Nat) :
    (p.next settings (.reject rejected)).Sound settings where
  conserved := by
    refine List.Perm.trans ?_ (h.conserved.append_right [rejected.id])
    classical
    rw [perm_iff_count]
    intro a
    simp only [next, resolvedRecords, map_cons, map_append, count_append,
      count_cons, map_nil, count_nil]
    omega
  delivered := h.delivered
  rejected r hr := by
    rcases mem_append.mp hr with hr | hr
    · exact (h.rejected r hr).imp_left (mem_append_left _)
    · exact .inl (mem_append_right _ hr)
  answered := h.answered
  unresolved := h.unresolved
  failedWith r hr v hv := by
    refine (h.failedWith r hr v hv).imp_left fun hresolved => ?_
    cases v with
    | confirmed => exact hresolved
    | rejected message => exact mem_append_left _ hresolved
  bounded := h.bounded
  room := h.room
  calm := h.calm
  ended := h.ended

theorem Sound.answer
    (hr : p.inFlight[index]? = some r) (hanswer : r.answer = none) (answer : BrokerAnswer φ) :
    (p.next settings (.answer index answer)).Sound settings := by
  have hmap : (p.inFlight.set index { r with answer := some answer }).map (·.record) =
      p.inFlight.map (·.record) := by
    rw [map_set]
    refine ext_getElem? fun i => ?_
    by_cases hi : index = i
    · subst hi
      have hlt := (List.getElem?_eq_some_iff.mp hr).1
      rw [getElem?_set_self (by rwa [length_map]), getElem?_map, hr]
      rfl
    · rw [getElem?_set_ne hi]
  simp only [next, hr]
  constructor
  case toKept =>
    constructor
    case conserved =>
      simp only [hmap]
      exact h.conserved
    case delivered => exact fun record hd => mem_append_left _ (h.delivered record hd)
    case rejected =>
      intro r hr
      refine (h.rejected r hr).imp_right ?_
      rintro ⟨occurredAt, message, hgiven, heq⟩
      exact ⟨occurredAt, message, mem_append_left _ hgiven, heq⟩
    case answered =>
      intro r' hr' answer' ha'
      rcases mem_or_eq_of_mem_set hr' with hr' | rfl
      · exact mem_append_left _ (h.answered r' hr' answer' ha')
      · cases ha'
        exact mem_append_right _ (mem_singleton.mpr rfl)
    case unresolved => exact h.unresolved
    case failedWith =>
      -- A record that is answered already is another one, and stays where it is.
      intro r' hr' v hv
      refine (h.failedWith r' hr' v hv).imp_right fun hmem => ?_
      obtain ⟨i, hi⟩ := getElem?_of_mem hmem
      refine mem_of_getElem? (i := i) ?_
      rw [getElem?_set_ne, hi]
      rintro rfl
      rw [hr] at hi
      cases hi
      rw [hanswer] at hv
      cases hv
  case bounded =>
    rw [length_set]
    exact h.bounded
  case room =>
    intro hidle
    rw [length_set]
    exact h.room hidle
  case calm => exact h.calm
  case ended =>
    intro hended
    rw [(h.ended hended).1] at hr
    cases hr

theorem Sound.next (hg : p.guard event) :
    (p.next settings event).Sound settings := by
  cases event with
  | admitRecord record occurredAt => exact h.admitRecord hg record occurredAt
  | reject rejected => exact h.reject rejected
  | settleNext =>
    rw [Publish.next]
    split
    case isTrue => exact h
    case isFalse =>
      exact { h.toKept.withPhase _ with
        bounded := h.bounded, room := nofun, calm := fun _ => h.calm (.inl hg), ended := nofun }
  | finish => exact Sound.resume h.toKept (h.room hg) (h.calm (.inl hg)) .finish
  | fail failure => exact Sound.startFailing h.toKept h.bounded failure
  | ready =>
    obtain ⟨call, hphase⟩ := hg
    rw [Publish.next, hphase]
    exact h.ready hphase
  | elapsed =>
    obtain ⟨⟨call, hphase⟩, _⟩ := hg
    rw [Publish.next, hphase]
    exact Sound.stop h.toKept h.bounded call _
  | sweep =>
    obtain ⟨failure, hphase⟩ := hg
    rw [Publish.next, hphase]
    exact h.sweep hphase
  | answer index answer =>
    obtain ⟨r, hr, hanswer⟩ := hg
    exact h.answer hr hanswer answer
  | tick now =>
    exact ⟨⟨h.conserved, h.delivered, h.rejected, h.answered, h.unresolved, h.failedWith⟩,
      h.bounded, h.room, h.calm, h.ended⟩

end

structure Lawful (settings : AckConfirmation) (p : Publish φ) : Prop where
  bounded : p.inFlight.length ≤ settings.maxInFlight
  once : p.handed.Nodup → (resolvedRecords p.outcome).Nodup
  delivered : ∀ record ∈ p.outcome.delivered, (record, .ok .confirmed) ∈ p.given
  rejected : ∀ r ∈ p.outcome.rejected, r ∈ p.refused ∨ ∃ occurredAt message,
    (r.id, .ok (.rejected message)) ∈ p.given ∧ r = .external r.id occurredAt message
  failedWith : p.phase = .ended → ∀ r ∈ p.failedWith, ∀ verdict,
    r.answer = some (.ok verdict) → r.ResolvedBy verdict p.outcome
  unresolved : ∀ r ∈ p.unresolved, ∀ verdict, r.answer ≠ some (.ok verdict)
  conserved : p.phase = .ended →
    (resolvedRecords p.outcome ++ p.unresolved.map (·.record)).Perm p.handed
  resolved : p.phase = .ended → p.outcome.infrastructureError = none →
    (resolvedRecords p.outcome).Perm p.handed

theorem Sound.lawful (h : p.Sound settings) : p.Lawful settings := by
  have hconserved : p.phase = .ended →
      (resolvedRecords p.outcome ++ p.unresolved.map (·.record)).Perm p.handed := by
    intro hended
    have hperm := h.conserved
    rwa [(h.ended hended).1, map_nil, append_nil] at hperm
  refine ⟨h.bounded, ?_, h.delivered, h.rejected, ?_, h.unresolved, hconserved, ?_⟩
  · intro hnodup
    have := h.conserved.nodup_iff.mpr hnodup
    exact (nodup_append.mp (nodup_append.mp this).1).1
  · intro hended r hr v hv
    refine (h.failedWith r hr v hv).resolve_right fun hmem => ?_
    rw [(h.ended hended).1] at hmem
    cases hmem
  · intro hended hnone
    have hperm := hconserved hended
    rwa [(h.ended hended).2 hnone, map_nil, append_nil] at hperm

/-- No confirmed publish loses an answer that the broker gave. -/
theorem lawful_of_confirmedPublish (settings : AckConfirmation)
    (h : (confirmedPublish φ settings).Run {} p) : p.Lawful settings :=
  (h.inv (sound_start settings) fun h hg => h.next hg).lawful

def windowOfTwo : AckConfirmation where
  maxInFlight := 2
  maxInFlight_pos := Nat.two_pos
  timeout := 5
  checkedAdd now timeout := if now + timeout ≤ 10 then some (now + timeout) else none
  connector := "test"

def lateFirst : List (WindowEvent Unit) :=
  [.admitRecord 0 7, .admitRecord 1 7, .answer 1 (.ok .confirmed), .tick 6, .elapsed,
    .fail (.driver ()), .sweep, .sweep, .sweep]

theorem lateFirst_lawful :
    (lateFirst.foldl (next windowOfTwo) ({} : Publish Unit)).Lawful windowOfTwo ∧
      (lateFirst.foldl (next windowOfTwo) ({} : Publish Unit)).outcome.delivered = [1] := by
  refine ⟨lawful_of_confirmedPublish _ ?_, rfl⟩
  refine .tail (i := WindowEvent.sweep) (.tail (i := WindowEvent.sweep)
    (.tail (i := WindowEvent.sweep) (.tail (i := WindowEvent.fail (.driver ()))
      (.tail (i := WindowEvent.elapsed) (.tail (i := WindowEvent.tick 6)
        (.tail (i := WindowEvent.answer 1 (.ok .confirmed)) (.tail (i := WindowEvent.admitRecord 1 7)
          (.tail (i := WindowEvent.admitRecord 0 7) .refl ?_) ?_) ?_) ?_) ?_) ?_) ?_) ?_) ?_
  · rfl
  · rfl
  · exact ⟨_, rfl, rfl⟩
  · exact Nat.zero_le _
  · exact ⟨⟨_, rfl⟩, _, rfl, by decide⟩
  · exact .inr ⟨_, rfl⟩
  · exact ⟨_, rfl⟩
  · exact ⟨_, rfl⟩
  · exact ⟨_, rfl⟩

end Publish

end Nervix.Emitter
