import Nervix.Theory.Interleaving

/-!
# One acknowledgement root

An acknowledgement root (`AckState`) is resolved by the shares that its handles hold.
-/

namespace Nervix.Ack

def USIZE_MAX : Nat := 2 ^ 64 - 1

inductive AckOutcome
  | ack
  | noAck (reason : String)
  deriving DecidableEq, Repr

inductive TrackerRelease
  | atResolution
  | afterConfirmation
  deriving DecidableEq, Repr

structure AckResolution where
  outcome : AckOutcome
  confirmation : Option Bool
  deriving DecidableEq, Repr

structure AckProgressStatus where
  sequence : Nat := 0
  parked : Bool := false
  deriving DecidableEq, Repr

inductive AckHandoffState
  | tracking (activeShares : Nat)
  | complete
  deriving DecidableEq, Repr

def AckHandoffState.holdsActiveShares : AckHandoffState → Bool
  | tracking a => a != 0
  | complete => false

@[simp] theorem AckHandoffState.holdsActiveShares_tracking (a : Nat) :
    (tracking a).holdsActiveShares = (a != 0) := rfl

@[simp] theorem AckHandoffState.holdsActiveShares_complete :
    complete.holdsActiveShares = false := rfl

namespace AckHandoffTracking

def COMPLETE : UInt64 := 0xFFFFFFFFFFFFFFFF
def MAX_ACTIVE_SHARES : Nat := COMPLETE.toNat - 1

def decode (word : UInt64) : AckHandoffState :=
  if word = COMPLETE then .complete else .tracking word.toNat

def encode : AckHandoffState → UInt64
  | .tracking a => .ofNat a
  | .complete => COMPLETE

def totalActiveShares (active published : Nat) : Option Nat :=
  if active + published ≤ USIZE_MAX ∧ active + published ≤ MAX_ACTIVE_SHARES then
    some (active + published)
  else none

@[simp] theorem decode_encode_complete : decode (encode .complete) = .complete := rfl

theorem decode_encode_tracking (h : a ≤ MAX_ACTIVE_SHARES) :
    decode (encode (.tracking a)) = .tracking a := by
  have hlt : a < 2 ^ 64 - 1 := Nat.lt_of_le_of_lt h (by decide)
  have hn : (UInt64.ofNat a).toNat = a := by
    exact Nat.mod_eq_of_lt (by omega)
  have hne : UInt64.ofNat a ≠ COMPLETE := by
    intro he
    have := congrArg UInt64.toNat he
    have : COMPLETE.toNat = 2 ^ 64 - 1 := rfl
    omega
  simp [decode, encode, hne, hn]

theorem le_of_decode (h : decode word = .tracking a) : a ≤ MAX_ACTIVE_SHARES + 1 := by
  unfold decode at h
  split at h
  · cases h
  · cases h
    have := word.toNat_lt
    have : MAX_ACTIVE_SHARES = 2 ^ 64 - 2 := rfl
    omega

theorem of_totalActiveShares (h : totalActiveShares a n = some total) :
    total = a + n ∧ total ≤ MAX_ACTIVE_SHARES := by
  unfold totalActiveShares at h
  split at h
  · cases h
    exact ⟨rfl, by omega⟩
  · cases h

end AckHandoffTracking

inductive Share
  | absent
  | owned
  | unreserved
  deriving DecidableEq, Repr

@[ext] structure Holder where
  share : Share
  guards : Nat := 0
  deriving DecidableEq, Repr

def Holder.resolved (h : Holder) : Holder := { h with share := .absent }

inductive Op
  | attach (receivers : Nat)
  | splitInto (shares : Nat)
  | succeed
  | fail (reason : String)
  | park
  | unpark
  | alive
  deriving DecidableEq, Repr

def Op.Callable (h : Holder) : Op → Prop
  | attach n => 0 < n
  | unpark => 0 < h.guards
  | _ => True

def Op.Disciplined (h : Holder) : Op → Prop
  | succeed | splitInto 0 | park => h.share ≠ .absent ∧ h.guards = 0
  | fail _ => h.share ≠ .absent
  | _ => True

inductive Count
  | outstanding
  | handoff
  deriving DecidableEq, Repr

structure Counter where
  count : Count
  tracker : Nat
  deriving DecidableEq, Repr

inductive TrackerOp
  | inc (counter : Counter)
  | dec (counter : Counter)
  deriving DecidableEq, Repr

structure Spec where
  trackers : List Nat := []
  release : TrackerRelease := .atResolution
  deriving DecidableEq, Repr

namespace Spec
variable (spec : Spec)

def untracked : Bool := spec.trackers.isEmpty

def register : List TrackerOp :=
  spec.trackers.flatMap fun t => [.inc ⟨.outstanding, t⟩, .inc ⟨.handoff, t⟩]

def decrementOwnershipHandoffTrackers : List Counter := spec.trackers.map (⟨.handoff, ·⟩)

def releaseRootTrackers : List Counter := spec.trackers.map (⟨.outstanding, ·⟩)

def dropConfirmation (ownershipHandoff : Bool) : List Counter :=
  spec.trackers.flatMap fun t =>
    (if ownershipHandoff then [⟨.handoff, t⟩] else []) ++ [⟨.outstanding, t⟩]

def dropState (held : Bool) : List Counter :=
  spec.trackers.flatMap fun t => ⟨.outstanding, t⟩ :: if held then [⟨.handoff, t⟩] else []

end Spec

def AckResolution.drop (spec : Spec) (r : AckResolution) : List Counter :=
  r.confirmation.elim [] spec.dropConfirmation

inductive Publishing
  | attach (receivers : Nat)
  | unpark
  deriving DecidableEq, Repr

inductive Removing
  | park
  | succeed
  deriving DecidableEq, Repr

inductive Return
  | unit
  | attached (receivers : Nat) (reserved : Bool)
  | lost (receivers : Nat)
  deriving DecidableEq, Repr

inductive Pc
  | reserveLoad (n : Nat)
  | reserveCas (n current : Nat)
  | publishLoad (p : Publishing)
  | publishCas (p : Publishing) (word : UInt64)
  | removeLoad (r : Removing)
  | removeCas (r : Removing) (word : UInt64)
  | resolveLoad
  | resolveCas (current : Nat)
  | claimCompletion (reason : String)
  | complete (outcome : AckOutcome)
  | takeSender (resolution : AckResolution)
  | send (resolution : AckResolution)
  | parkIsResolved
  | aliveIsResolved
  | progressCount (ret : Return)
  | progressPending (ret : Return) (sequence : Nat)
  | progressHandoff (ret : Return) (sequence : Nat)
  | progressSend (ret : Return) (sequence : Nat) (parked : Bool)
  | ret (ret : Return)
  deriving DecidableEq, Repr

namespace Publishing

def shares : Publishing → Nat
  | attach n => n
  | unpark => 1

def holder (h : Holder) : Publishing → Holder
  | attach _ => h
  | unpark => { h with guards := h.guards - 1 }

def ret : Publishing → Return
  | attach n => .attached n true
  | unpark => .unit

def lost : Publishing → Return
  | attach n => .lost n
  | unpark => .unit

def entry : Publishing → Pc
  | attach n => .reserveLoad n
  | unpark => .publishLoad .unpark

end Publishing

def Removing.holder (h : Holder) : Removing → Holder
  | park => { h with guards := h.guards + 1 }
  | succeed => h

inductive Proc
  | holder (h : Holder)
  | reserving (h : Holder) (p : Publishing) (counted rest : List Nat)
  | run (h : Holder) (releases : List Counter) (pc : Pc)
  | lost (shares : Nat)
  | droppingState (h : Holder)
  | dropped (h : Holder) (releases : List Counter)
  | completion (confirmation : Option Bool)
  | completionDropped (releases : List Counter)
  deriving DecidableEq, Repr

inductive End
  | succeeded
  | failed (reason : String)
  | late
  deriving DecidableEq, Repr

structure Cell where
  pending : Nat
  handoff : UInt64
  aliveCounter : Nat := 0
  status : AckProgressStatus := {}
  sender : Bool := true
  refs : Nat := 1
  dropped : Bool := false
  receiver : Bool := true
  channel : Option AckResolution := none
  live : Nat := 1
  log : List End := []
  sent : List AckResolution := []
  ledger : List TrackerOp

def Cell.ended (s : Cell) (h : Holder) (e : End) : List End :=
  if h.share = .owned then s.log ++ [e] else s.log

def Holder.attach (spec : Spec) (h : Holder) (n : Nat) : Proc :=
  if spec.untracked then .run h [] (.reserveLoad n)
  else .reserving h (.attach n) [] spec.trackers

def Op.entry (spec : Spec) (h : Holder) : Op → Proc
  | attach n => h.attach spec n
  | splitInto 0 | succeed => .run h [] .resolveLoad
  | splitInto 1 => .holder h
  | splitInto (n + 2) => h.attach spec (n + 1)
  | fail reason => .run h [] (.claimCompletion reason)
  | park => if spec.untracked then .holder h else .run h [] .parkIsResolved
  | unpark => if spec.untracked then .holder h else .reserving h .unpark [] spec.trackers
  | alive => .run h [] .aliveIsResolved

open AckHandoffTracking Proc Pc

inductive ProcStep (spec : Spec) (may : Holder → Op → Prop) (s : Cell) :
    Proc → Cell → Multiset Proc → Prop
  | begin : op.Callable h → may h op → ProcStep spec may s (holder h) s {op.entry spec h}
  | clone : ProcStep spec may s (holder h) { s with refs := s.refs + 1 }
      {holder h, holder ⟨.absent, 0⟩}
  -- The last handle that drops drops the state, which no call uses any more.
  | drop : h.guards = 0 → s.refs ≠ 1 →
      ProcStep spec may s (holder h) { s with refs := s.refs - 1 } {dropped h []}
  | dropLast : h.guards = 0 → s.refs = 1 →
      ProcStep spec may s (holder h) { s with refs := 0 } {droppingState h}
  | dropState : ProcStep spec may s (droppingState h) { s with dropped := true }
      {dropped h (if s.pending = 0 then [] else
        spec.dropState (decode s.handoff).holdsActiveShares)}
  | discard : ProcStep spec may s (dropped h (k :: ks)) { s with ledger := s.ledger ++ [.dec k] }
      {dropped h ks}
  -- `reserve_ownership_handoff_trackers`, and every release of tracker counts
  | count : ProcStep spec may s (reserving h p counted (t :: rest))
      { s with ledger := s.ledger ++ [.inc ⟨.handoff, t⟩] } {reserving h p (counted ++ [t]) rest}
  | counted : ProcStep spec may s (reserving h p counted []) s {run h [] p.entry}
  | release : ProcStep spec may s (run h (k :: ks) pc) { s with ledger := s.ledger ++ [.dec k] }
      {run h ks pc}
  -- `reserve_pending_shares`
  | reserveLoad : ProcStep spec may s (run h [] (reserveLoad n)) s
      {run h [] (reserveCas n s.pending)}
  | reserveClosed : ProcStep spec may s (run h [] (reserveCas n 0)) s
      {run h spec.decrementOwnershipHandoffTrackers (ret (.attached n false))}
  | reserveOverflow : current ≠ 0 → USIZE_MAX < current + n →
      ProcStep spec may s (run h [] (reserveCas n current)) s
        {run h spec.decrementOwnershipHandoffTrackers (ret .unit)}
  | reserve : current ≠ 0 → current + n ≤ USIZE_MAX → s.pending = current →
      ProcStep spec may s (run h [] (reserveCas n current))
        { s with pending := current + n, live := s.live + n }
        {run h [] (if spec.untracked then ret (.attached n true) else publishLoad (.attach n))}
  | reserveRetry : current ≠ 0 → current + n ≤ USIZE_MAX →
      ProcStep spec may s (run h [] (reserveCas n current)) s {run h [] (reserveCas n s.pending)}
  -- `publish_handoff_shares`
  | publishLoad : ProcStep spec may s (run h [] (publishLoad p)) s
      {run h [] (publishCas p s.handoff)}
  | publishClosed : decode word = .complete →
      ProcStep spec may s (run h [] (publishCas p word)) s
        {run (p.holder h) spec.decrementOwnershipHandoffTrackers (ret p.ret)}
  | publishOverflow : decode word = .tracking a → totalActiveShares a p.shares = none →
      ProcStep spec may s (run h [] (publishCas p word)) s
        {run h spec.decrementOwnershipHandoffTrackers (ret p.lost)}
  | publishActivated : decode word = .tracking 0 → totalActiveShares 0 p.shares = some total →
      s.handoff = word → ProcStep spec may s (run h [] (publishCas p word))
        { s with handoff := encode (.tracking total) } {run (p.holder h) [] (progressCount p.ret)}
  | publishJoined : decode word = .tracking a → a ≠ 0 →
      totalActiveShares a p.shares = some total → s.handoff = word →
      ProcStep spec may s (run h [] (publishCas p word))
        { s with handoff := encode (.tracking total) }
        {run (p.holder h) spec.decrementOwnershipHandoffTrackers (ret p.ret)}
  | publishRetry : decode word = .tracking a → totalActiveShares a p.shares = some total →
      ProcStep spec may s (run h [] (publishCas p word)) s {run h [] (publishCas p s.handoff)}
  -- `remove_handoff_share`
  | removeLoad : ProcStep spec may s (run h [] (removeLoad r)) s {run h [] (removeCas r s.handoff)}
  | removeClosed : decode word = .complete →
      ProcStep spec may s (run h [] (removeCas r word)) s {run h [] (ret .unit)}
  | removeNoActiveShare : decode word = .tracking 0 →
      ProcStep spec may s (run h [] (removeCas r word)) s {run h [] (ret .unit)}
  | removeWentIdle : decode word = .tracking 1 → s.handoff = word →
      ProcStep spec may s (run h [] (removeCas r word))
        { s with handoff := encode (.tracking 0) }
        {run (r.holder h) spec.decrementOwnershipHandoffTrackers (progressCount .unit)}
  | remove : decode word = .tracking (a + 2) → s.handoff = word →
      ProcStep spec may s (run h [] (removeCas r word))
        { s with handoff := encode (.tracking (a + 1)) } {run (r.holder h) [] (ret .unit)}
  | removeRetry : decode word = .tracking (a + 1) →
      ProcStep spec may s (run h [] (removeCas r word)) s {run h [] (removeCas r s.handoff)}
  -- `resolve_pending_share`, and what `ack_success` does with its result
  | resolveLoad : ProcStep spec may s (run h [] resolveLoad) s {run h [] (resolveCas s.pending)}
  | resolveClosed : ProcStep spec may s (run h [] (resolveCas 0))
      { s with log := s.ended h .late } {run h.resolved [] (ret .unit)}
  | resolveComplete : s.pending = 1 → ProcStep spec may s (run h [] (resolveCas 1))
      { s with pending := 0, log := s.ended h .succeeded }
      {run h.resolved [] (if spec.untracked then takeSender ⟨.ack, none⟩ else complete .ack)}
  | resolvePending : s.pending = n + 2 → ProcStep spec may s (run h [] (resolveCas (n + 2)))
      { s with pending := n + 1, log := s.ended h .succeeded }
      {run h.resolved [] (if spec.untracked then ret .unit else removeLoad .succeed)}
  | resolveRetry : ProcStep spec may s (run h [] (resolveCas (n + 1))) s
      {run h [] (resolveCas s.pending)}
  -- `claim_completion`
  | claimClosed : s.pending = 0 → ProcStep spec may s (run h [] (claimCompletion reason))
      { s with log := s.ended h .late } {run h.resolved [] (ret .unit)}
  | claim : s.pending ≠ 0 → ProcStep spec may s (run h [] (claimCompletion reason))
      { s with pending := 0, log := s.ended h (.failed reason) }
      {run h.resolved [] (if spec.untracked then takeSender ⟨.noAck reason, none⟩
        else complete (.noAck reason))}
  -- `resolve_tracked`
  | completeRelease : spec.release = .atResolution →
      ProcStep spec may s (run h [] (complete o)) { s with handoff := encode .complete }
        {run h ((if (decode s.handoff).holdsActiveShares then
            spec.decrementOwnershipHandoffTrackers else []) ++ spec.releaseRootTrackers)
          (takeSender ⟨o, none⟩)}
  | completeConfirm : spec.release = .afterConfirmation →
      ProcStep spec may s (run h [] (complete o)) { s with handoff := encode .complete }
        {run h [] (takeSender ⟨o, some (decode s.handoff).holdsActiveShares⟩)}
  -- `finish_completion`
  | takeSender : s.sender = true → ProcStep spec may s (run h [] (takeSender res))
      { s with sender := false } {run h [] (send res)}
  | takeNothing : s.sender = false → ProcStep spec may s (run h [] (takeSender res)) s
      {run h (res.drop spec) (ret .unit)}
  | send : s.receiver = true → ProcStep spec may s (run h [] (send res))
      { s with sent := s.sent ++ [res], channel := some res } {run h [] (ret .unit)}
  | sendClosed : s.receiver = false → ProcStep spec may s (run h [] (send res))
      { s with sent := s.sent ++ [res] } {run h (res.drop spec) (ret .unit)}
  -- `park_share` and `ack_alive`
  | parkResolved : s.pending = 0 → ProcStep spec may s (run h [] parkIsResolved) s
      {run h [] (ret .unit)}
  | parkUnresolved : s.pending ≠ 0 → ProcStep spec may s (run h [] parkIsResolved) s
      {run h [] (removeLoad .park)}
  | aliveResolved : s.pending = 0 → ProcStep spec may s (run h [] aliveIsResolved) s
      {run h [] (ret .unit)}
  | aliveUnresolved : s.pending ≠ 0 → ProcStep spec may s (run h [] aliveIsResolved) s
      {run h [] (progressCount .unit)}
  -- `publish_progress`
  | progressCount : ProcStep spec may s (run h [] (progressCount r))
      { s with aliveCounter := s.aliveCounter + 1 }
      {run h [] (progressPending r (s.aliveCounter + 1))}
  | progressUnparked : spec.untracked = true ∨ s.pending = 0 →
      ProcStep spec may s (run h [] (progressPending r seq)) s {run h [] (progressSend r seq false)}
  | progressPending : spec.untracked = false → s.pending ≠ 0 →
      ProcStep spec may s (run h [] (progressPending r seq)) s {run h [] (progressHandoff r seq)}
  | progressHandoff : ProcStep spec may s (run h [] (progressHandoff r seq)) s
      {run h [] (progressSend r seq (decode s.handoff == .tracking 0))}
  | progressSend : ProcStep spec may s (run h [] (progressSend r seq parked))
      { s with status := if seq ≤ s.status.sequence then s.status else ⟨seq, parked⟩ }
      {run h [] (ret r)}
  | return : ProcStep spec may s (run h [] (ret .unit)) s {holder h}
  | attached : ProcStep spec may s (run h [] (ret (.attached n reserved)))
      { s with refs := s.refs + n }
      ({holder h} + .replicate n (holder ⟨if reserved then .owned else .unreserved, 0⟩))
  | lost : ProcStep spec may s (run h [] (ret (.lost n))) s {holder h, lost n}
  -- The completion takes what the channel holds, and drops it with itself.
  | receive : s.channel = some res → ProcStep spec may s (completion none)
      { s with channel := none } {completion res.confirmation}
  | dropCompletion : ProcStep spec may s (completion confirmation)
      { s with receiver := false, channel := none }
      {completionDropped (confirmation.elim [] spec.dropConfirmation ++
        s.channel.elim [] (AckResolution.drop spec))}
  | discardCompletion : ProcStep spec may s (completionDropped (k :: ks))
      { s with ledger := s.ledger ++ [.dec k] } {completionDropped ks}

theorem ProcStep.call (op : Op) (hc : op.Callable h) (hm : may h op) :
    ProcStep spec may s (holder h) s {op.entry spec h} :=
  .begin hc hm

def machine (spec : Spec) (may : Holder → Op → Prop) : Machine Cell Proc where
  start _ _ := False
  step := ProcStep spec may

def Cell.new (spec : Spec) : Cell where
  pending := 1
  handoff := encode (.tracking (if spec.untracked then 0 else 1))
  ledger := spec.register

def init (spec : Spec) : Config Cell Proc :=
  ⟨.new spec, holder ⟨.owned, 0⟩ ::ₘ {completion none}⟩

def Anything (_ : Holder) (_ : Op) : Prop := True

def Discipline (h : Holder) (op : Op) : Prop := op.Disciplined h

end Nervix.Ack
