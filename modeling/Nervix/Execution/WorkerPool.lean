import Nervix.Theory.SortedMap
import Nervix.Theory.System

/-!
# A worker class

One class's bounded queue: admission to a place of the queue, the transitions under the queue's
fence, the workers that drain it, and the callers that stop waiting.
-/

namespace Nervix.Execution

inductive QueueAdmission
  | refuseWhenFull
  | waitForPlace
deriving DecidableEq

inductive ExecutionError
  | queueFull (className : String) (pending : Nat)
  | poolClosed (className : String)
  | jobPanicked (className : String)
deriving DecidableEq

def ExecutionError.message : ExecutionError → String
  | queueFull className pending =>
    s!"the {className} pool already holds {pending} jobs waiting for a worker"
  | poolClosed className => s!"the {className} pool was shut down"
  | jobPanicked className => s!"the {className} job panicked"

structure WorkerLimits where
  className : String
  workers : Nat
  queueCapacity : Nat
  workers_pos : 0 < workers
  queueCapacity_pos : 0 < queueCapacity

abbrev Submission := Nat

structure Board where
  nextId : Nat := 0
  running : Nat := 0
  jobs : SortedMap Nat Submission := {}
  ids : Submission → Option Nat := fun _ => none
  destroying : List Submission := []
  -- What the workers hold: a job out of the queue whose `start` is still to be called, a job
  -- started, a job whose callback runs, a job whose callback returned.
  starting : List Submission := []
  selected : List Submission := []
  executing : List Submission := []
  executed : List Submission := []
  -- The history of the jobs.
  entered : List Submission := []
  taken : List Submission := []
  destroyed : List Submission := []
  begun : List Submission := []
  outcomes : List (Submission × Option ExecutionError) := []
  finished : List Submission := []

namespace Board

section
variable (b : Board) (sub : Submission)

def queue : List Submission := b.jobs.entries.map Prod.snd

def places : List Submission := b.starting ++ b.selected ++ b.executing ++ b.executed

def withdrawn : List Submission := b.destroying ++ b.destroyed

def enqueue (workers : Nat) (sub : Submission) : Board :=
  let jobs := b.jobs.insert b.nextId sub
  let b := { b with
    nextId := b.nextId + 1
    jobs
    ids := Function.update b.ids sub (some b.nextId)
    entered := b.entered ++ [sub] }
  if b.running < workers then
    match jobs.popFirst with
    | (some (_, first), rest) =>
      { b with
        running := b.running + 1
        jobs := rest
        taken := b.taken ++ [first]
        starting := b.starting ++ [first] }
    | (none, _) => { b with running := b.running + 1 }
  else b

def withdraw : Board :=
  match b.ids sub with
  | none => b
  | some id =>
    match b.jobs.get id with
    | none => b
    | some cancelled =>
      { b with jobs := b.jobs.remove id, destroying := b.destroying ++ [cancelled] }

def destroy : Board :=
  { b with destroying := b.destroying.erase sub, destroyed := b.destroyed ++ [sub] }

def start : Board :=
  { b with starting := b.starting.erase sub, selected := b.selected ++ [sub] }

def runNext : Board :=
  { b with
    selected := b.selected.erase sub
    executing := b.executing ++ [sub]
    begun := b.begun ++ [sub] }

def complete (className : String) (sub : Submission) (panicked : Bool) : Board :=
  { b with
    executing := b.executing.erase sub
    executed := b.executed ++ [sub]
    outcomes := b.outcomes ++ [(sub, if panicked then some (.jobPanicked className) else none)] }

def advance : Board :=
  let b := { b with executed := b.executed.erase sub, finished := b.finished ++ [sub] }
  match b.jobs.popFirst with
  | (some (_, next), rest) =>
    { b with jobs := rest, taken := b.taken ++ [next], starting := b.starting ++ [next] }
  | (none, _) => { b with running := b.running - 1 }

end

end Board

structure WorkerPool where
  limits : WorkerLimits
  permits : Nat
  pending : Nat := 0
  admitted : Nat := 0
  refused : Nat := 0
  completed : Nat := 0
  waiters : List Submission := []
  granted : List Submission := []
  arriving : List Submission := []
  board : Board := {}
  submitted : List Submission := []
  refusals : List (Submission × ExecutionError) := []
  gaveUp : List Submission := []
  returnedPlaces : List Submission := []
  returnedCharges : List Submission := []

namespace WorkerPool

section
variable (s : WorkerPool) (sub : Submission)

def new (limits : WorkerLimits) : WorkerPool where
  limits := limits
  permits := limits.queueCapacity

def releasePermit : WorkerPool :=
  match s.waiters with
  | [] => { s with permits := s.permits + 1 }
  | sub :: waiters => { s with waiters, granted := s.granted ++ [sub] }

def enterQueue (admission : QueueAdmission) : WorkerPool :=
  let s := { s with submitted := s.submitted ++ [sub] }
  if s.permits = 0 then
    match admission with
    | .refuseWhenFull =>
      { s with
        refused := s.refused + 1
        refusals := s.refusals ++ [(sub, .queueFull s.limits.className s.pending)]
        returnedCharges := s.returnedCharges ++ [sub] }
    | .waitForPlace => { s with waiters := s.waiters ++ [sub] }
  else
    { s with
      permits := s.permits - 1
      pending := s.pending + 1
      arriving := s.arriving ++ [sub] }

def poll : WorkerPool :=
  { s with
    granted := s.granted.erase sub
    pending := s.pending + 1
    arriving := s.arriving ++ [sub] }

def giveUp : WorkerPool :=
  let s := { s with
    gaveUp := s.gaveUp ++ [sub], returnedCharges := s.returnedCharges ++ [sub] }
  if sub ∈ s.waiters then { s with waiters := s.waiters.erase sub }
  else { s with granted := s.granted.erase sub }.releasePermit

def enqueue : WorkerPool :=
  { s with
    arriving := s.arriving.erase sub
    admitted := s.admitted + 1
    board := s.board.enqueue s.limits.workers sub }

def dropSlot : WorkerPool :=
  { s with
    pending := s.pending - 1
    returnedPlaces := s.returnedPlaces ++ [sub] }.releasePermit

def destroy : WorkerPool :=
  { s with
    board := s.board.destroy sub
    returnedCharges := s.returnedCharges ++ [sub] }.dropSlot sub

def work (panicked : Bool) : WorkerPool :=
  if sub ∈ s.board.starting then { s with board := s.board.start sub }.dropSlot sub
  else if sub ∈ s.board.selected then { s with board := s.board.runNext sub }
  else if sub ∈ s.board.executing then
    { s with
      board := s.board.complete s.limits.className sub panicked
      completed := s.completed + 1
      returnedCharges := s.returnedCharges ++ [sub] }
  else { s with board := s.board.advance sub }

end

end WorkerPool

inductive PoolEvent
  | submit (sub : Submission) (admission : QueueAdmission)
  | poll (sub : Submission)
  | giveUp (sub : Submission)
  | enqueue (sub : Submission)
  | withdraw (sub : Submission)
  | destroy (sub : Submission)
  | work (sub : Submission) (panicked : Bool)
deriving DecidableEq

def workerPool : System WorkerPool PoolEvent where
  guard s
    | .submit sub _ => sub ∉ s.submitted
    | .poll sub => sub ∈ s.granted
    | .giveUp sub => sub ∈ s.waiters ∨ sub ∈ s.granted
    | .enqueue sub => sub ∈ s.arriving
    | .withdraw sub => sub ∈ s.board.entered
    | .destroy sub => sub ∈ s.board.destroying
    | .work sub _ => sub ∈ s.board.places
  next s
    | .submit sub admission => s.enterQueue sub admission
    | .poll sub => s.poll sub
    | .giveUp sub => s.giveUp sub
    | .enqueue sub => s.enqueue sub
    | .withdraw sub => { s with board := s.board.withdraw sub }
    | .destroy sub => s.destroy sub
    | .work sub panicked => s.work sub panicked

instance (s : WorkerPool) : (i : PoolEvent) → Decidable (workerPool.guard s i)
  | .submit sub _ => inferInstanceAs (Decidable (sub ∉ s.submitted))
  | .poll sub => inferInstanceAs (Decidable (sub ∈ s.granted))
  | .giveUp sub => inferInstanceAs (Decidable (sub ∈ s.waiters ∨ sub ∈ s.granted))
  | .enqueue sub => inferInstanceAs (Decidable (sub ∈ s.arriving))
  | .withdraw sub => inferInstanceAs (Decidable (sub ∈ s.board.entered))
  | .destroy sub => inferInstanceAs (Decidable (sub ∈ s.board.destroying))
  | .work sub _ => inferInstanceAs (Decidable (sub ∈ s.board.places))

end Nervix.Execution
