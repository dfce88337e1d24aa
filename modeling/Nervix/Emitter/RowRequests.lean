import Nervix.Emitter.Packing

/-!
# Dividing rows into requests

A row emitter divides the rows of one write into the requests its destination takes, by the rule
that packs rows into payloads: the longest candidate first, halved while it measures too much.
-/

namespace Nervix.Emitter

@[ext]
structure RowRequestLimits where
  declared : EmitterBatchPolicy
  maxRows : Nat
  maxRows_pos : 0 < maxRows
  nativeBytes : Option Nat

instance : DecidableEq RowRequestLimits :=
  fun _ _ => decidable_of_iff _ RowRequestLimits.ext_iff.symm

structure MeasuredRequest (ρ : Type*) where
  size : Nat
  request : ρ

inductive ExceededLimit
  | declared (limit : PayloadSizeLimit)
  | native (limit : Nat)
deriving DecidableEq

structure RowOversize where
  size : Nat
  exceeded : ExceededLimit
deriving DecidableEq

inductive RowRequest (ρ : Type*)
  | write (start stop size : Nat) (request : ρ)
  | oversize (member : Nat) (oversize : RowOversize)

structure RowRequests (ρ : Type*) where
  requests : List (RowRequest ρ) := []
  subdivisions : Nat := 0

structure Division (ρ ε : Type*) where
  result : Except ε (RowRequests ρ)
  counts : List CandidateCount

namespace RowRequestLimits

variable {σ ρ ε : Type*}

def ofPolicy (declared : EmitterBatchPolicy) : RowRequestLimits :=
  { declared
    maxRows := declared.maxMessages
    maxRows_pos := declared.maxMessages_pos
    nativeBytes := none }

def withNativeRows (limits : RowRequestLimits) (maxRows : Nat) (h : 0 < maxRows) :
    RowRequestLimits :=
  { limits with
    maxRows := min limits.maxRows maxRows
    maxRows_pos := Nat.lt_min.mpr ⟨limits.maxRows_pos, h⟩ }

def withNativeBytes (limits : RowRequestLimits) (maxBytes : Nat) : RowRequestLimits :=
  if maxBytes < limits.declared.maxSize.bytes then { limits with nativeBytes := some maxBytes }
  else limits

def maxBytes (limits : RowRequestLimits) : Nat :=
  limits.nativeBytes.getD limits.declared.maxSize.bytes

theorem nativeBytes_isSome {limits : RowRequestLimits} (h : limits.maxBytes < size)
    (hdeclared : ¬ limits.declared.maxSize.bytes < size) : limits.nativeBytes.isSome := by
  cases hn : limits.nativeBytes with
  | some native => rfl
  | none =>
    rw [maxBytes, hn, Option.getD_none] at h
    exact absurd h hdeclared

def oversize (limits : RowRequestLimits) (size : Nat) (h : limits.maxBytes < size) : RowOversize :=
  if hdeclared : limits.declared.maxSize.bytes < size then
    ⟨size, .declared limits.declared.maxSize⟩
  else
    ⟨size, .native (limits.nativeBytes.get (nativeBytes_isSome h hdeclared))⟩

def requestReport (limits : RowRequestLimits)
    (measure : σ → Nat → Nat → σ × Except ε (MeasuredRequest ρ)) (start : Nat) (s : σ)
    (length : Nat) : σ × Report (MeasuredRequest ρ) { size // limits.maxBytes < size } ε :=
  match measure s start (start + length) with
  | (s, .error error) => (s, .failed error)
  | (s, .ok measured) =>
    if h : measured.size ≤ limits.maxBytes then (s, .fits measured)
    else (s, .exceeds ⟨measured.size, Nat.lt_of_not_le h⟩)

def rowRequest (limits : RowRequestLimits) (start stop : Nat) :
    Report (MeasuredRequest ρ) { size // limits.maxBytes < size } ε → Except ε (RowRequest ρ)
  | .fits measured => .ok (.write start stop measured.size measured.request)
  | .exceeds size => .ok (.oversize start (limits.oversize size.1 size.2))
  | .failed error => .error error

theorem candidate_pos (limits : RowRequestLimits) (h : start < members) :
    0 < min (start + limits.maxRows) members - start := by
  have := limits.maxRows_pos
  omega

def divideFrom (limits : RowRequestLimits)
    (measure : σ → Nat → Nat → σ × Except ε (MeasuredRequest ρ)) (members : Nat) (s : σ)
    (start : Nat) : σ × Division ρ ε :=
  if h : start < members then
    let length := min (start + limits.maxRows) members - start
    let (s, n) := narrow (limits.requestReport measure start) s length (limits.candidate_pos h)
    match limits.rowRequest start (start + n.length) n.report with
    | .error error => (s, ⟨.error error, [⟨length, n.measured⟩]⟩)
    | .ok request =>
      let (s, rest) := divideFrom limits measure members s (start + n.length)
      (s, ⟨rest.result.map fun r =>
          { requests := request :: r.requests
            subdivisions := (n.measured - 1) + r.subdivisions },
        ⟨length, n.measured⟩ :: rest.counts⟩)
  else (s, ⟨.ok {}, []⟩)
termination_by members - start
decreasing_by
  have := n.pos
  omega

def tryDivide (limits : RowRequestLimits) (members : Nat)
    (measure : σ → Nat → Nat → σ × Except ε (MeasuredRequest ρ)) (s : σ) : σ × Division ρ ε :=
  limits.divideFrom measure members s 0

inductive Divides (limits : RowRequestLimits)
    (measure : σ → Nat → Nat → σ × Except ε (MeasuredRequest ρ)) (members : Nat) :
    Nat → List (RowRequest ρ) → Prop
  | done : Divides limits measure members members []
  | write {start stop size requests} (request) : start < stop → stop - start ≤ limits.maxRows →
      (∃ s, (measure s start stop).2 = .ok ⟨size, request⟩) → size ≤ limits.maxBytes →
      Divides limits measure members stop requests →
      Divides limits measure members start (.write start stop size request :: requests)
  | oversize {start size requests} (request) :
      (∃ s, (measure s start (start + 1)).2 = .ok ⟨size, request⟩) →
      (h : limits.maxBytes < size) → Divides limits measure members (start + 1) requests →
      Divides limits measure members start (.oversize start (limits.oversize size h) :: requests)

end RowRequestLimits

def RowRequest.members {ρ : Type*} : RowRequest ρ → List Nat
  | .write start stop _ _ => List.range' start (stop - start)
  | .oversize member _ => [member]

namespace RowRequestLimits

variable {σ ρ ε : Type*} {limits : RowRequestLimits}
  {measure : σ → Nat → Nat → σ × Except ε (MeasuredRequest ρ)} {members : Nat}

theorem Divides.le (h : Divides limits measure members start requests) : start ≤ members := by
  induction h with
  | done => exact le_refl _
  | write _ hlt _ _ _ _ ih => exact hlt.le.trans ih
  | oversize _ _ _ _ ih => exact Nat.le_of_succ_le ih

theorem Divides.flatMap_members (h : Divides limits measure members start requests) :
    requests.flatMap RowRequest.members = List.range' start (members - start) := by
  induction h with
  | done =>
    rw [Nat.sub_self]
    rfl
  | @write start stop size requests request hlt _ _ _ hrest ih =>
    have hle := hrest.le
    have hstop : stop = start + (stop - start) := by omega
    have hsum : members - start = (stop - start) + (members - stop) := by omega
    rw [List.flatMap_cons, ih, RowRequest.members, hsum, ← List.range'_append_1, ← hstop]
  | @oversize start size requests request _ _ hrest ih =>
    have hle := hrest.le
    have hsum : members - start = (members - (start + 1)) + 1 := by omega
    rw [List.flatMap_cons, ih, RowRequest.members, hsum, List.range'_succ]
    rfl

theorem divides_cons {n : Narrowed _ _ ε}
    (hn : n.Of (limits.requestReport measure start) (min (start + limits.maxRows) members - start))
    (hrequest : limits.rowRequest start (start + n.length) n.report = .ok request)
    (hrest : Divides limits measure members (start + n.length) requests) :
    Divides limits measure members start (request :: requests) := by
  obtain ⟨s, hs⟩ := hn.reported
  rw [requestReport] at hs
  have hpos := n.pos
  have hle := hn.le
  split at hs
  case h_1 s' error hm =>
    rw [← hs] at hrequest
    cases hrequest
  case h_2 s' measured hm =>
    split at hs
    case isTrue hfits =>
      rw [← hs] at hrequest
      cases hrequest
      exact .write measured.request (by omega) (by omega) ⟨s, by rw [hm]⟩ hfits hrest
    case isFalse hover =>
      rw [← hs] at hrequest
      cases hrequest
      have hone := hn.exceeds hs.symm
      rw [hone] at hm hrest
      exact .oversize measured.request ⟨s, by rw [hm]⟩ _ hrest

structure DividesFrom (limits : RowRequestLimits)
    (measure : σ → Nat → Nat → σ × Except ε (MeasuredRequest ρ)) (members start : Nat)
    (d : Division ρ ε) : Prop where
  ok {requests} : d.result = .ok requests → Divides limits measure members start requests.requests
  error {error} : d.result = .error error → ∃ s a b, (measure s a b).2 = .error error
  counts : ∀ c ∈ d.counts, c.Bounded

theorem dividesFrom_divideFrom (limits : RowRequestLimits)
    (measure : σ → Nat → Nat → σ × Except ε (MeasuredRequest ρ)) (s : σ)
    (hstart : start ≤ members) :
    DividesFrom limits measure members start (limits.divideFrom measure members s start).2 := by
  induction hlen : members - start using Nat.strongRecOn generalizing start s with
  | ind length ih =>
    rw [divideFrom]
    split
    case isFalse h =>
      obtain rfl : start = members := by omega
      exact ⟨fun h => by cases h; exact .done, nofun, nofun⟩
    case isTrue h =>
      have hn := narrow_of (limits.requestReport measure start) s _ (limits.candidate_pos h)
      dsimp only
      generalize narrow (limits.requestReport measure start) s
        (min (start + limits.maxRows) members - start) (limits.candidate_pos h) = narrowed at hn ⊢
      obtain ⟨s', n⟩ := narrowed
      dsimp only at hn ⊢
      have hpos := n.pos
      have hle := hn.le
      have hrest : DividesFrom limits measure members (start + n.length)
          (limits.divideFrom measure members s' (start + n.length)).2 :=
        ih _ (by omega) s' (by omega) rfl
      split
      case h_1 error hrequest =>
        refine ⟨nofun, ?_, ?_⟩
        · intro e he
          cases he
          obtain ⟨s, hs⟩ := hn.reported
          rw [requestReport] at hs
          split at hs
          case h_1 s' e hm =>
            rw [← hs] at hrequest
            cases hrequest
            exact ⟨s, start, start + n.length, by rw [hm]⟩
          case h_2 s' measured hm =>
            split at hs <;> (rw [← hs] at hrequest; cases hrequest)
        · intro c hc
          obtain rfl := List.mem_singleton.mp hc
          exact hn.measured
      case h_2 request hrequest =>
        generalize limits.divideFrom measure members s' (start + n.length) = divided at hrest ⊢
        obtain ⟨s'', d⟩ := divided
        dsimp only at hrest ⊢
        refine ⟨?_, ?_, ?_⟩
        · intro requests hrequests
          cases hd : d.result with
          | error e =>
            rw [hd] at hrequests
            cases hrequests
          | ok r =>
            rw [hd] at hrequests
            cases hrequests
            exact divides_cons hn hrequest (hrest.ok hd)
        · intro e he
          cases hd : d.result with
          | error e' =>
            rw [hd] at he
            cases he
            exact hrest.error hd
          | ok r =>
            rw [hd] at he
            cases he
        · intro c hc
          rcases List.mem_cons.mp hc with rfl | hc
          · exact hn.measured
          · exact hrest.counts c hc

end RowRequestLimits

structure Division.Accounts {σ ρ ε : Type*} (limits : RowRequestLimits)
    (measure : σ → Nat → Nat → σ × Except ε (MeasuredRequest ρ)) (members : Nat)
    (d : Division ρ ε) : Prop where
  divides : match d.result with
    | .ok requests => RowRequestLimits.Divides limits measure members 0 requests.requests ∧
        requests.requests.flatMap RowRequest.members = List.range members
    | .error error => ∃ s a b, (measure s a b).2 = .error error
  counts : ∀ c ∈ d.counts, c.Bounded

/-- Packing accounts for every row once, in the order of arrival, within both limits, or a carrier
with rows could not be opened; a row emitter's division does so for every member of a write. -/
theorem every_row_once :
    (∀ {β κ ν μ ε φ σ : Type} [DecidableEq κ] [DecidableEq ν] (codec : CompiledCodec β μ ε φ σ)
      (s : σ) (carriers : List (PackingCarrier β κ ν)) (policy : EmitterBatchPolicy),
      match packBufferedBatches codec s carriers policy with
      | .ok packing => Accounts codec policy carriers packing
      | .error error => ∃ carrier ∈ carriers, carrier.rows ≠ [] ∧
          codec.batchEncoder carrier.batch = .error error) ∧
    ∀ {σ ρ ε : Type} (limits : RowRequestLimits) (members : Nat)
      (measure : σ → Nat → Nat → σ × Except ε (MeasuredRequest ρ)) (s : σ),
      (limits.tryDivide members measure s).2.Accounts limits measure members := by
  refine ⟨?_, ?_⟩
  · intro β κ ν μ ε φ σ _ _ codec s carriers policy
    split
    case h_1 packing h => exact accounts_of_packBufferedBatches h
    case h_2 error h => exact packBufferedBatches_error h
  · intro σ ρ ε limits members measure s
    have h := RowRequestLimits.dividesFrom_divideFrom limits measure s (Nat.zero_le members)
    refine ⟨?_, h.counts⟩
    split
    case h_1 requests hok =>
      have hd := h.ok hok
      refine ⟨hd, ?_⟩
      rw [hd.flatMap_members, List.range_eq_range']
      rfl
    case h_2 error herror => exact h.error herror

end Nervix.Emitter
