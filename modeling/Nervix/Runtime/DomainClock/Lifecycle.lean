import Nervix.Consensus.Vocabulary
import Nervix.Theory.Checks
import Nervix.Theory.System

/-!
# The clock of a domain on one node

A node publishes one installation of a domain's clock at a time. `synchronize` and `mark_missing`
replace it by compare-and-swap; a read loads it once, projects the node's UTC through its source and
raises the watermark published with it.
-/

namespace Nervix.DomainClock

open Consensus (DomainName Timestamp DomainStatus DomainClockAuthority DomainStartPoint)

def durationSince (later earlier : Int) : Option Nat :=
  if later - earlier < 0 then none else some (later - earlier).toNat

def checkedAdd (timestamp : Timestamp) (nanos : Nat) : Option Timestamp :=
  if Timestamp.max - timestamp < nanos then none else some (timestamp + nanos)

theorem durationSince_eq_none : durationSince later earlier = none ↔ later < earlier := by
  simp [durationSince]

theorem le_of_checkedAdd (h : checkedAdd t nanos = some u) : t ≤ u := by
  unfold checkedAdd at h
  split at h
  · exact absurd h (by simp)
  · obtain rfl := Option.some.inj h
    exact Int.le_add_of_nonneg_right (Int.natCast_nonneg nanos)

inductive DomainClockError
  | durationOverflow (operation : String)
  | timestampOverflow (operation : String)
deriving DecidableEq, Repr

class TimeRate (ρ : Type) where
  one : ρ
  scaled : ρ → Nat → Option Nat

variable {ρ : Type} [TimeRate ρ] [DecidableEq ρ]

structure DomainClockState (ρ : Type) where
  wallStartedAt : Timestamp
  logicalStart : Timestamp
  timeRate : ρ
deriving DecidableEq

def DomainClockState.logicalNanos (mapping : DomainClockState ρ) (elapsed : Nat) :
    Except DomainClockError Nat :=
  if mapping.timeRate = TimeRate.one then
    if elapsed < 2 ^ 64 then .ok elapsed else .error (.durationOverflow "projection")
  else
    match TimeRate.scaled mapping.timeRate elapsed with
    | some nanos => .ok nanos
    | none => .error (.durationOverflow "projection")

def DomainClockState.logicalTimeAt (mapping : DomainClockState ρ) (wallTime : Timestamp) :
    Except DomainClockError Timestamp := do
  let elapsed := (durationSince wallTime mapping.wallStartedAt).getD 0
  let logicalNanos ← mapping.logicalNanos elapsed
  match checkedAdd mapping.logicalStart logicalNanos with
  | some logical => .ok logical
  | none => .error (.timestampOverflow "projection")

theorem DomainClockState.logicalStart_le {mapping : DomainClockState ρ}
    (h : mapping.logicalTimeAt wallTime = .ok t) : mapping.logicalStart ≤ t := by
  obtain ⟨nanos, -, h⟩ := Except.bind_eq_ok.mp h
  split at h
  case h_1 hadd =>
    obtain rfl := Except.ok.inj h
    exact le_of_checkedAdd hadd
  case h_2 => exact nomatch h

@[ext]
structure DomainClockPeriod where
  nanos : Nat
  pos : 0 < nanos

instance : DecidableEq DomainClockPeriod :=
  fun _ _ => decidable_of_iff _ DomainClockPeriod.ext_iff.symm

structure DomainAdmissionWindow where
  first : Timestamp
  last : Timestamp
  period : DomainClockPeriod
  skew : Nat

def DomainAdmissionWindow.retainedPositionCount : Nat := 256

def DomainAdmissionWindow.reached (origin now : Timestamp) (period : DomainClockPeriod) (skew : Nat) :
    Option DomainAdmissionWindow :=
  (durationSince now origin).map fun elapsed =>
    let frontier := elapsed / period.nanos
    let firstPosition :=
      if frontier < retainedPositionCount then 0 else frontier - (retainedPositionCount - 1)
    ⟨origin + (firstPosition * period.nanos : Nat), origin + (frontier * period.nanos : Nat), period, skew⟩

inductive DomainPace
  | paced (period : DomainClockPeriod) (skew : Nat)
  | unpaced
deriving DecidableEq

inductive DomainClockSource (ρ : Type)
  | unpaced
  | paced (mapping : DomainClockState ρ) (period : DomainClockPeriod) (skew : Nat)
deriving DecidableEq

inductive DomainClockInstallation (ρ : Type)
  | missing
  | stopped (generation : Nat)
  | uninstalled (generation : Nat)
  | installed (generation : Nat) (source : DomainClockSource ρ)
deriving DecidableEq

namespace DomainClockInstallation

def generation : DomainClockInstallation ρ → Option Nat
  | missing => none
  | stopped generation | uninstalled generation | installed generation _ => some generation

def installedGeneration : DomainClockInstallation ρ → Option Nat
  | installed generation _ => some generation
  | missing | stopped _ | uninstalled _ => none

omit [TimeRate ρ] [DecidableEq ρ] in
theorem generation_of_installed {i : DomainClockInstallation ρ}
    (h : i.installedGeneration = some g) : i.generation = some g := by
  cases i <;> first | exact h | exact absurd h (by simp [installedGeneration])

end DomainClockInstallation

structure DomainState (ρ : Type) where
  pace : DomainPace
  status : DomainStatus
  startVersion : Nat
  lastStart : DomainStartPoint
  clock : Option (DomainClockState ρ)

structure DomainTaskState where
  status : DomainStatus
  generation : Nat
  lastStart : DomainStartPoint
deriving DecidableEq

def DomainState.taskState (state : DomainState ρ) : DomainTaskState :=
  ⟨state.status, state.startVersion, state.lastStart⟩

def DomainState.installation (state : DomainState ρ) (authority : DomainClockAuthority) :
    DomainClockInstallation ρ :=
  match state.status with
  | .stopped => .stopped state.startVersion
  | .running | .paused =>
    match state.pace with
    | .unpaced => .installed state.startVersion .unpaced
    | .paced period skew =>
      match state.clock, authority.owner with
      | some mapping, some _ => .installed state.startVersion (.paced mapping period skew)
      | none, _ | _, none => .uninstalled state.startVersion

omit [TimeRate ρ] [DecidableEq ρ] in
theorem DomainState.generation_installation (state : DomainState ρ)
    (authority : DomainClockAuthority) :
    (state.installation authority).generation = some state.startVersion := by
  unfold installation
  split
  · rfl
  all_goals
    split
    · rfl
    · split <;> rfl

def DomainState.keepsInstalled (state : DomainState ρ) (authority : DomainClockAuthority) : Bool :=
  match state.status, state.pace, state.clock, authority.owner with
  | .paused, .paced _ _, none, some _ => true
  | _, _, _, _ => false

abbrev WatermarkId := Nat

structure DomainClockPublication (ρ : Type) where
  taskState : Option DomainTaskState
  installation : DomainClockInstallation ρ
  watermark : WatermarkId

namespace DomainClockPublication

def new (installation : DomainClockInstallation ρ) (fresh : WatermarkId) :
    DomainClockPublication ρ :=
  ⟨none, installation, fresh⟩

def successor (publication : DomainClockPublication ρ) (installation : DomainClockInstallation ρ)
    (taskState : Option DomainTaskState) (fresh : WatermarkId) :
    Option (DomainClockPublication ρ) :=
  if publication.installation = installation ∧ publication.taskState = taskState then none
  else if publication.installation.installedGeneration.isSome ∧
      installation.installedGeneration = publication.installation.installedGeneration then
    some ⟨taskState, installation, publication.watermark⟩
  else some { new installation fresh with taskState := taskState }

omit [TimeRate ρ] in
theorem successor_eq_some {p q : DomainClockPublication ρ} {i : DomainClockInstallation ρ}
    {taskState : Option DomainTaskState} {fresh : WatermarkId}
    (h : p.successor i taskState fresh = some q) :
    q.installation = i ∧ ∀ g, p.installation.installedGeneration = some g →
      i.installedGeneration = some g → q.watermark = p.watermark := by
  unfold successor at h
  split at h
  · exact nomatch h
  · split at h
    case isTrue =>
      obtain rfl := Option.some.inj h
      exact ⟨rfl, fun _ _ _ => rfl⟩
    case isFalse hne =>
      obtain rfl := Option.some.inj h
      exact ⟨rfl, fun g hp hi => absurd ⟨by simp [hp], by rw [hp, hi]⟩ hne⟩

end DomainClockPublication

inductive DomainClockArithmetic
  | projection
  | deadlineConversion
  | cadenceScheduling
deriving DecidableEq, Repr

inductive DomainClockAccessError
  | missing (domain : DomainName)
  | stopped (domain : DomainName) (generation : Nat)
  | uninstalled (domain : DomainName) (generation : Nat)
  | staleGeneration (domain : DomainName) (boundGeneration currentGeneration : Nat)
  | arithmetic (domain : DomainName) (operation : DomainClockArithmetic)
deriving DecidableEq, Repr

def DomainClockSource.now (source : DomainClockSource ρ) (domain : DomainName)
    (wallNow : Timestamp) : Except DomainClockAccessError Timestamp :=
  match source with
  | .unpaced => .ok wallNow
  | .paced mapping _ _ =>
    (mapping.logicalTimeAt wallNow).mapError fun _ => .arithmetic domain .projection

def DomainClockInstallation.source (domain : DomainName) (generation : Nat)
    (installation : DomainClockInstallation ρ) :
    Except DomainClockAccessError (DomainClockSource ρ) :=
  match installation.generation with
  | some currentGeneration =>
    if currentGeneration ≠ generation then
      .error (.staleGeneration domain generation currentGeneration)
    else
      match installation with
      | .missing => .error (.missing domain)
      | .stopped generation => .error (.stopped domain generation)
      | .uninstalled generation => .error (.uninstalled domain generation)
      | .installed _ source => .ok source
  | none => .error (.missing domain)

variable {domain : DomainName} {source : DomainClockSource ρ}

omit [TimeRate ρ] [DecidableEq ρ] in
theorem DomainClockInstallation.source_eq_ok {i : DomainClockInstallation ρ} :
    i.source domain g = .ok source ↔ i = .installed g source := by
  cases i with
  | missing => simp [DomainClockInstallation.source, generation]
  | stopped h | uninstalled h =>
    by_cases hg : h = g <;> simp [DomainClockInstallation.source, generation, hg]
  | installed h source' =>
    by_cases hg : h = g <;> simp [DomainClockInstallation.source, generation, hg]

inductive ClockRead
  | snapshot (generation : Nat)
  | ingestionSnapshot (generation : Nat)
  | executionSnapshot
  | ingestionRead
deriving DecidableEq

def ClockRead.bound : ClockRead → Option Nat
  | snapshot generation | ingestionSnapshot generation => some generation
  | executionSnapshot | ingestionRead => none

def ClockRead.ingests : ClockRead → Bool
  | snapshot _ | executionSnapshot => false
  | ingestionSnapshot _ | ingestionRead => true

structure Answer where
  generation : Nat
  loaded : Nat
  now : Timestamp
  window : Option DomainAdmissionWindow

inductive ReadOutcome
  | refused (error : DomainClockAccessError)
  | paused
  | precedesOrigin
  | answered (answer : Answer)

def ClockRead.generation (read : ClockRead) (domain : DomainName)
    (published : DomainClockPublication ρ) : Except ReadOutcome Nat :=
  match read with
  | snapshot generation | ingestionSnapshot generation => .ok generation
  | executionSnapshot =>
    match published.installation.generation with
    | some generation => .ok generation
    | none => .error (.refused (.missing domain))
  | ingestionRead =>
    match published.taskState with
    | some state => if state.status = .paused then .error .paused else .ok state.generation
    | none => .error (.refused (.missing domain))

def ClockRead.load (read : ClockRead) (domain : DomainName) (published : DomainClockPublication ρ) :
    Except ReadOutcome (Nat × DomainClockSource ρ) := do
  let generation ← read.generation domain published
  let source ← (published.installation.source domain generation).mapError .refused
  return (generation, source)

variable {p : DomainClockPublication ρ}

omit [TimeRate ρ] [DecidableEq ρ] in
theorem ClockRead.installation_of_load {read : ClockRead}
    (h : read.load domain p = .ok (g, source)) : p.installation = .installed g source := by
  obtain ⟨g', -, h⟩ := Except.bind_eq_ok.mp h
  obtain ⟨source', hs, h⟩ := Except.bind_eq_ok.mp h
  obtain ⟨rfl, rfl⟩ := Prod.mk.inj (Except.ok.inj h)
  cases hi : p.installation.source domain g' with
  | error e => exact nomatch (hi ▸ hs :)
  | ok source'' =>
    rw [hi] at hs
    obtain rfl := Except.ok.inj hs
    exact DomainClockInstallation.source_eq_ok.mp hi

omit [TimeRate ρ] [DecidableEq ρ] in
theorem ClockRead.generation_of_load {read : ClockRead}
    (hload : read.load domain p = .ok (g, source)) (hbound : read.bound = some h) : g = h := by
  obtain ⟨g', hg, hload⟩ := Except.bind_eq_ok.mp hload
  obtain ⟨source', -, hload⟩ := Except.bind_eq_ok.mp hload
  obtain ⟨rfl, rfl⟩ := Prod.mk.inj (Except.ok.inj hload)
  cases read <;> simp_all [bound, generation]

omit [TimeRate ρ] [DecidableEq ρ] in
theorem ClockRead.load_eq_error {read : ClockRead} (h : read.load domain p = .error outcome) :
    (∃ error, outcome = .refused error) ∨ outcome = .paused ∧ read.bound = none := by
  cases hg : read.generation domain p with
  | error o =>
    obtain rfl : o = outcome := by simpa [load, hg, bind, Except.bind] using h
    unfold generation at hg
    split at hg
    · exact nomatch hg
    · exact nomatch hg
    · split at hg
      · exact nomatch hg
      · exact .inl ⟨_, (Except.error.inj hg).symm⟩
    · split at hg
      · split at hg
        · exact .inr ⟨(Except.error.inj hg).symm, rfl⟩
        · exact nomatch hg
      · exact .inl ⟨_, (Except.error.inj hg).symm⟩
  | ok g =>
    cases hs : p.installation.source domain g with
    | error e =>
      exact .inl ⟨e, by simpa [load, hg, hs, bind, Except.bind, Except.mapError] using h.symm⟩
    | ok source =>
      simp [load, hg, hs, bind, Except.bind, Except.mapError, pure, Except.pure] at h

def DomainClockSource.window (source : DomainClockSource ρ) (now : Timestamp) :
    Option (Option DomainAdmissionWindow) :=
  match source with
  | .unpaced => some none
  | .paced mapping period skew =>
    (DomainAdmissionWindow.reached mapping.logicalStart now period skew).map some

theorem DomainClockSource.exists_window
    {wallNow projected now : Timestamp} (h : source.now domain wallNow = .ok projected)
    (hle : projected ≤ now) : ∃ w, source.window now = some w := by
  cases source with
  | unpaced => exact ⟨none, rfl⟩
  | paced mapping period skew =>
    cases hm : mapping.logicalTimeAt wallNow with
    | error e => simp [DomainClockSource.now, hm, Except.mapError] at h
    | ok t =>
      obtain rfl : t = projected := by simpa [DomainClockSource.now, hm, Except.mapError] using h
      cases hd : durationSince now mapping.logicalStart with
      | none =>
        exact absurd (durationSince_eq_none.mp hd)
          (not_lt.mpr ((DomainClockState.logicalStart_le hm).trans hle))
      | some elapsed => exact ⟨_, by rw [window, DomainAdmissionWindow.reached, hd]; rfl⟩

structure Reading where
  read : ClockRead
  began : Nat
  since : Nat

def Reading.outcome (reading : Reading) (loaded generation : Nat) (source : DomainClockSource ρ)
    (now : Timestamp) : ReadOutcome :=
  if reading.read.ingests then
    match source.window now with
    | some window => .answered ⟨generation, loaded, now, window⟩
    | none => .precedesOrigin
  else .answered ⟨generation, loaded, now, none⟩

inductive Call (ρ : Type)
  | keep (state : DomainState ρ) (authority : DomainClockAuthority)
  | replace (installation : DomainClockInstallation ρ) (taskState : Option DomainTaskState)
  | swap (installation : DomainClockInstallation ρ) (taskState : Option DomainTaskState)
      (loaded : Nat) (successor : DomainClockPublication ρ)
  | load (reading : Reading)
  | observe (reading : Reading) (loaded : Nat) (generation : Nat) (source : DomainClockSource ρ)
      (watermark : WatermarkId)

structure Finished where
  reading : Reading
  till : Nat
  outcome : ReadOutcome

abbrev TaskId := Nat

structure Node (ρ : Type) where
  domain : DomainName
  published : List (DomainClockPublication ρ)
  watermarks : WatermarkId → Timestamp
  calls : TaskId → Option (Call ρ)
  finished : List Finished
  startVersion : Nat

namespace Node

section
variable (s : Node ρ) (task : TaskId)

def new (domain : DomainName) : Node ρ where
  domain := domain
  published := [.new .missing 0]
  watermarks := fun _ => Timestamp.min
  calls := fun _ => none
  finished := []
  startVersion := 0

def current : Nat := s.published.length - 1

def setCall (call : Option (Call ρ)) : Node ρ :=
  { s with calls := Function.update s.calls task call }

def finish (reading : Reading) (outcome : ReadOutcome) : Node ρ :=
  { s.setCall task none with finished := s.finished ++ [⟨reading, s.current, outcome⟩] }

def synchronize (state : DomainState ρ) (authority : DomainClockAuthority) : Node ρ :=
  { s.setCall task (some (if state.keepsInstalled authority then .keep state authority
      else .replace (state.installation authority) (some state.taskState))) with
    startVersion := state.startVersion }

def markMissing : Node ρ :=
  s.setCall task (some (.replace .missing none))

def startRead (read : ClockRead) : Node ρ :=
  s.setCall task (some (.load ⟨read, s.finished.length, s.current⟩))

def kept (published : DomainClockPublication ρ) (state : DomainState ρ)
    (authority : DomainClockAuthority) : DomainClockInstallation ρ :=
  match published.installation with
  | .installed generation (.paced mapping period skew) =>
    if generation = state.startVersion then .installed generation (.paced mapping period skew)
    else state.installation authority
  | _ => state.installation authority

def raise (reading : Reading) (loaded generation : Nat)
    (source : DomainClockSource ρ) (watermark : WatermarkId) (projected : Timestamp) : Node ρ :=
  let now := max (s.watermarks watermark) projected
  { s.finish task reading (reading.outcome loaded generation source now) with
    watermarks := Function.update s.watermarks watermark now }

def advance (wallNow : Timestamp) : Node ρ :=
  match s.calls task, s.published[s.current]? with
  | some (.keep state authority), some published =>
    s.setCall task (some (.replace (kept published state authority) (some state.taskState)))
  | some (.replace installation taskState), some published =>
    match published.successor installation taskState (s.current + 1) with
    | none => s.setCall task none
    | some successor =>
      s.setCall task (some (.swap installation taskState s.current successor))
  | some (.swap installation taskState loaded successor), _ =>
    if loaded = s.current then
      { s.setCall task none with published := s.published ++ [successor] }
    else s.setCall task (some (.replace installation taskState))
  | some (.load reading), some published =>
    match reading.read.load s.domain published with
    | .ok (generation, source) =>
      s.setCall task (some (.observe reading s.current generation source published.watermark))
    | .error outcome => s.finish task reading outcome
  | some (.observe reading loaded generation source watermark), _ =>
    match source.now s.domain wallNow with
    | .ok projected => s.raise task reading loaded generation source watermark projected
    | .error error => s.finish task reading (.refused error)
  | _, _ => s

end

end Node

inductive NodeEvent (ρ : Type)
  | synchronize (task : TaskId) (state : DomainState ρ) (authority : DomainClockAuthority)
  | markMissing (task : TaskId)
  | read (task : TaskId) (read : ClockRead)
  | advance (task : TaskId) (wallNow : Timestamp)

def clockNode (ρ : Type) [TimeRate ρ] [DecidableEq ρ] : System (Node ρ) (NodeEvent ρ) where
  guard s
    | .synchronize task state _ => s.calls task = none ∧ s.startVersion ≤ state.startVersion
    | .markMissing task | .read task _ => s.calls task = none
    | .advance _ _ => True
  next s
    | .synchronize task state authority => s.synchronize task state authority
    | .markMissing task => s.markMissing task
    | .read task read => s.startRead task read
    | .advance task wallNow => s.advance task wallNow

end Nervix.DomainClock
