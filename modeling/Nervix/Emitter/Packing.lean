import Nervix.Theory.Checks
import Nervix.Theory.Halving

/-!
# Packing buffered rows

The rows that an emitter's released carriers hold are prepared as batch members and packed, in
their arrival order, into payloads of at most `MAX MESSAGES` members within `MAX SIZE`.
-/

namespace Nervix.Emitter

open List

structure EmitterRecordPosition where
  batchIndex : Nat
  rowIndex : Nat
deriving DecidableEq, Repr

structure PayloadSizeLimit where
  bytes : Nat
  bytes_pos : 0 < bytes
deriving DecidableEq

structure EmitterBatchPolicy where
  maxMessages : Nat
  maxMessages_pos : 0 < maxMessages
  maxSize : PayloadSizeLimit
deriving DecidableEq

structure PayloadLimitExceeded where
  codec : String
  encoding : String
  limit : PayloadSizeLimit
deriving DecidableEq

inductive BatchMemberEncoding (μ : Type)
  | member (member : μ)
  | oversize (exceeded : PayloadLimitExceeded)

inductive BoundedBatchEncoding
  | encoded (payload : List UInt8)
  | oversize (exceeded : PayloadLimitExceeded)

structure CompiledCodec (β μ ε φ σ : Type) where
  batchEncoder : β → Except ε (Nat → PayloadSizeLimit → Except ε (BatchMemberEncoding μ))
  encodeBatchWithin : σ → List μ → PayloadSizeLimit → σ × Except φ BoundedBatchEncoding
  sharesContainerWith : μ → μ → Bool

inductive PackingRow (ν : Type)
  | ready (position : EmitterRecordPosition) (envelope : ν)
  | seal

structure PackingCarrier (β κ ν : Type) where
  sourceRelay : String
  branchKey : Option κ
  batch : β
  rows : List (PackingRow ν)

structure BatchPayload (ν : Type) where
  rows : List EmitterRecordPosition
  envelope : ν
  payload : List UInt8

inductive PackedOutcome (ν ε φ : Type)
  | payload (payload : BatchPayload ν)
  | memberFailed (position : EmitterRecordPosition) (error : ε)
  | oversize (position : EmitterRecordPosition) (exceeded : PayloadLimitExceeded)
  | containerFailed (rows : List EmitterRecordPosition) (error : φ)

structure PreparedMember (κ ν μ : Type) where
  position : EmitterRecordPosition
  sourceRelay : String
  branchKey : Option κ
  envelope : ν
  member : μ

structure CandidateCount where
  members : Nat
  encodings : Nat
deriving DecidableEq

def CandidateCount.Bounded (c : CandidateCount) : Prop :=
  c.encodings ≤ Nat.clog 2 c.members + 1

section Subdivide

variable {σ M ω φ : Type*}

inductive CandidateResult (ω φ : Type*)
  | encoded (payload : List UInt8)
  | oversize (exceeded : ω)
  | failed (error : φ)

structure Candidate (ω φ : Type*) where
  start : Nat
  stop : Nat
  result : CandidateResult ω φ

structure Subdivision (ω φ : Type*) where
  candidates : List (Candidate ω φ) := []
  subdivisions : Nat := 0
  counts : List CandidateCount := []

inductive CandidateEncoding (ω : Type*)
  | fits (payload : List UInt8)
  | oversize (exceeded : ω)

def encodingReport (encode : σ → List M → σ × Except φ (CandidateEncoding ω))
    (remaining : List M) (s : σ) (length : Nat) : σ × Report (List UInt8) ω φ :=
  match encode s (remaining.take length) with
  | (s, .ok (.fits payload)) => (s, .fits payload)
  | (s, .ok (.oversize exceeded)) => (s, .exceeds exceeded)
  | (s, .error error) => (s, .failed error)

def candidateResult : Report (List UInt8) ω φ → CandidateResult ω φ
  | .fits payload => .encoded payload
  | .exceeds exceeded => .oversize exceeded
  | .failed error => .failed error

def runLength (maxMessages : Nat) (compatible : M → M → Bool) (first : M) (tail : List M) : Nat :=
  ((tail.take (maxMessages - 1)).takeWhile (compatible first)).length + 1

def narrowRun (maxMessages : Nat) (compatible : M → M → Bool)
    (encode : σ → List M → σ × Except φ (CandidateEncoding ω)) (s : σ) (first : M)
    (tail : List M) : σ × Narrowed (List UInt8) ω φ :=
  narrow (encodingReport encode (first :: tail)) s (runLength maxMessages compatible first tail)
    (Nat.succ_pos _)

def subdivideFrom (maxMessages : Nat) (compatible : M → M → Bool)
    (encode : σ → List M → σ × Except φ (CandidateEncoding ω)) (s : σ) (start : Nat) :
    List M → σ × Subdivision ω φ
  | [] => (s, {})
  | first :: tail =>
    let (s, n) := narrowRun maxMessages compatible encode s first tail
    let stop := start + n.length
    let (s, rest) :=
      subdivideFrom maxMessages compatible encode s stop ((first :: tail).drop n.length)
    (s, { candidates := ⟨start, stop, candidateResult n.report⟩ :: rest.candidates
          subdivisions := (n.measured - 1) + rest.subdivisions
          counts := ⟨runLength maxMessages compatible first tail, n.measured⟩ :: rest.counts })
termination_by remaining => remaining.length
decreasing_by
  have := n.pos
  simp only [length_drop, length_cons]
  omega

def subdivide (members : List M) (maxMessages : Nat) (compatible : M → M → Bool)
    (encode : σ → List M → σ × Except φ (CandidateEncoding ω)) (s : σ) : σ × Subdivision ω φ :=
  subdivideFrom maxMessages compatible encode s 0 members

end Subdivide

section Pack

variable {β κ ν μ ε φ σ : Type} [DecidableEq κ] [DecidableEq ν]

def PreparedMember.sharesBatchWith (codec : CompiledCodec β μ ε φ σ)
    (self other : PreparedMember κ ν μ) : Bool :=
  self.sourceRelay = other.sourceRelay && self.branchKey = other.branchKey &&
    self.envelope = other.envelope && codec.sharesContainerWith self.member other.member

structure BufferedBatchPacking (ν ε φ : Type) where
  outcomes : List (PackedOutcome ν ε φ) := []
  subdivisions : Nat := 0
  counts : List CandidateCount := []

structure Packer (κ ν μ ε φ σ : Type) where
  codecState : σ
  run : List (PreparedMember κ ν μ) := []
  packing : BufferedBatchPacking ν ε φ := {}

def encodeCandidate (codec : CompiledCodec β μ ε φ σ) (policy : EmitterBatchPolicy) (s : σ)
    (candidate : List (PreparedMember κ ν μ)) :
    σ × Except φ (CandidateEncoding PayloadLimitExceeded) :=
  match codec.encodeBatchWithin s (candidate.map (·.member)) policy.maxSize with
  | (s, .ok (.encoded payload)) => (s, .ok (.fits payload))
  | (s, .ok (.oversize exceeded)) => (s, .ok (.oversize exceeded))
  | (s, .error error) => (s, .error error)

def candidateOutcome (members : List (PreparedMember κ ν μ))
    (candidate : Candidate PayloadLimitExceeded φ) : Option (PackedOutcome ν ε φ) :=
  let chosen := (members.take candidate.stop).drop candidate.start
  let rows := chosen.map (·.position)
  match candidate.result with
  | .encoded payload => chosen.head?.map fun first => .payload ⟨rows, first.envelope, payload⟩
  | .oversize exceeded => rows.head?.map fun position => .oversize position exceeded
  | .failed error => some (.containerFailed rows error)

namespace Packer

section
variable (codec : CompiledCodec β μ ε φ σ) (policy : EmitterBatchPolicy) (p : Packer κ ν μ ε φ σ)

def packRun : Packer κ ν μ ε φ σ :=
  if p.run.isEmpty then p
  else
    let (s, d) := subdivide p.run policy.maxMessages (PreparedMember.sharesBatchWith codec)
      (encodeCandidate codec policy) p.codecState
    { codecState := s
      run := []
      packing :=
        { outcomes := p.packing.outcomes ++ d.candidates.filterMap (candidateOutcome p.run)
          subdivisions := p.packing.subdivisions + d.subdivisions
          counts := p.packing.counts ++ d.counts } }

def pushOutcome (outcome : PackedOutcome ν ε φ) : Packer κ ν μ ε φ σ :=
  { p with packing := { p.packing with outcomes := p.packing.outcomes ++ [outcome] } }

def pushMember (prepared : PreparedMember κ ν μ) : Packer κ ν μ ε φ σ :=
  let p :=
    match p.run.head? with
    | some first =>
      if first.sharesBatchWith codec prepared then p else p.packRun codec policy
    | none => p
  let p := { p with run := p.run ++ [prepared] }
  if p.run.length = policy.maxMessages then p.packRun codec policy else p

def packRow (carrier : PackingCarrier β κ ν)
    (batchMember : Nat → PayloadSizeLimit → Except ε (BatchMemberEncoding μ))
    (p : Packer κ ν μ ε φ σ) : PackingRow ν → Packer κ ν μ ε φ σ
  | .seal => p.packRun codec policy
  | .ready position envelope =>
    match batchMember position.rowIndex policy.maxSize with
    | .ok (.member member) =>
      p.pushMember codec policy
        ⟨position, carrier.sourceRelay, carrier.branchKey, envelope, member⟩
    | .ok (.oversize exceeded) =>
      (p.packRun codec policy).pushOutcome (.oversize position exceeded)
    | .error error => (p.packRun codec policy).pushOutcome (.memberFailed position error)

def packCarrier (carrier : PackingCarrier β κ ν) : Except ε (Packer κ ν μ ε φ σ) :=
  if carrier.rows.isEmpty then .ok p
  else do
    let batchMember ← codec.batchEncoder carrier.batch
    return carrier.rows.foldl (packRow codec policy carrier batchMember) p

end

end Packer

def packBufferedBatches (codec : CompiledCodec β μ ε φ σ) (s : σ)
    (carriers : List (PackingCarrier β κ ν)) (policy : EmitterBatchPolicy) :
    Except ε (BufferedBatchPacking ν ε φ) := do
  let p ← carriers.foldlM (Packer.packCarrier codec policy) { codecState := s }
  return (p.packRun codec policy).packing

inductive Item (κ ν μ ε : Type)
  | member (member : PreparedMember κ ν μ)
  | oversize (position : EmitterRecordPosition) (exceeded : PayloadLimitExceeded)
  | failed (position : EmitterRecordPosition) (error : ε)
  | seal

def Item.position? : Item κ ν μ ε → Option EmitterRecordPosition
  | .member m => some m.position
  | .oversize position _ | .failed position _ => some position
  | .seal => none

def PackingRow.position? : PackingRow ν → Option EmitterRecordPosition
  | .ready position _ => some position
  | .seal => none

def PackedOutcome.rows : PackedOutcome ν ε φ → List EmitterRecordPosition
  | .payload p => p.rows
  | .memberFailed position _ | .oversize position _ => [position]
  | .containerFailed rows _ => rows

def itemOf (policy : EmitterBatchPolicy) (carrier : PackingCarrier β κ ν)
    (batchMember : Nat → PayloadSizeLimit → Except ε (BatchMemberEncoding μ)) :
    PackingRow ν → Item κ ν μ ε
  | .seal => .seal
  | .ready position envelope =>
    match batchMember position.rowIndex policy.maxSize with
    | .ok (.member member) =>
      .member ⟨position, carrier.sourceRelay, carrier.branchKey, envelope, member⟩
    | .ok (.oversize exceeded) => .oversize position exceeded
    | .error error => .failed position error

def carrierItems (codec : CompiledCodec β μ ε φ σ) (policy : EmitterBatchPolicy)
    (carrier : PackingCarrier β κ ν) : Except ε (List (Item κ ν μ ε)) :=
  if carrier.rows.isEmpty then .ok []
  else (codec.batchEncoder carrier.batch).map fun batchMember =>
    carrier.rows.map (itemOf policy carrier batchMember)

structure IsBatch (codec : CompiledCodec β μ ε φ σ) (policy : EmitterBatchPolicy)
    (first : PreparedMember κ ν μ) (rest : List (PreparedMember κ ν μ)) : Prop where
  messages : rest.length < policy.maxMessages
  compatible : ∀ m ∈ rest, first.sharesBatchWith codec m

def Answers (codec : CompiledCodec β μ ε φ σ) (policy : EmitterBatchPolicy)
    (members : List (PreparedMember κ ν μ)) (answer : Except φ BoundedBatchEncoding) : Prop :=
  ∃ s, (codec.encodeBatchWithin s (members.map (·.member)) policy.maxSize).2 = answer

inductive Packs (codec : CompiledCodec β μ ε φ σ) (policy : EmitterBatchPolicy) :
    List (Item κ ν μ ε) → List (PackedOutcome ν ε φ) → Prop
  | nil : Packs codec policy [] []
  | sealed {items outcomes} : Packs codec policy items outcomes →
      Packs codec policy (.seal :: items) outcomes
  | memberFailed {items outcomes} (position error) : Packs codec policy items outcomes →
      Packs codec policy (.failed position error :: items)
        (.memberFailed position error :: outcomes)
  | oversizeMember {items outcomes} (position exceeded) : Packs codec policy items outcomes →
      Packs codec policy (.oversize position exceeded :: items)
        (.oversize position exceeded :: outcomes)
  | payload {items outcomes} (first rest payload) : IsBatch codec policy first rest →
      Answers codec policy (first :: rest) (.ok (.encoded payload)) →
      Packs codec policy items outcomes →
      Packs codec policy ((first :: rest).map .member ++ items)
        (.payload ⟨(first :: rest).map (·.position), first.envelope, payload⟩ :: outcomes)
  | oversizeAlone {items outcomes} (only exceeded) :
      Answers codec policy [only] (.ok (.oversize exceeded)) →
      Packs codec policy items outcomes →
      Packs codec policy (.member only :: items) (.oversize only.position exceeded :: outcomes)
  | containerFailed {items outcomes} (first rest error) : IsBatch codec policy first rest →
      Answers codec policy (first :: rest) (.error error) →
      Packs codec policy items outcomes →
      Packs codec policy ((first :: rest).map .member ++ items)
        (.containerFailed ((first :: rest).map (·.position)) error :: outcomes)

variable {codec : CompiledCodec β μ ε φ σ} {policy : EmitterBatchPolicy}

theorem Packs.append {items items' : List (Item κ ν μ ε)} {outcomes outcomes'}
    (h : Packs codec policy items outcomes) (h' : Packs codec policy items' outcomes') :
    Packs codec policy (items ++ items') (outcomes ++ outcomes') := by
  induction h with
  | nil => exact h'
  | sealed _ ih => exact .sealed ih
  | memberFailed position error _ ih => exact .memberFailed position error ih
  | oversizeMember position exceeded _ ih => exact .oversizeMember position exceeded ih
  | payload first rest payload hb ha _ ih =>
    rw [append_assoc]
    exact .payload first rest payload hb ha ih
  | oversizeAlone only exceeded ha _ ih => exact .oversizeAlone only exceeded ha ih
  | containerFailed first rest error hb ha _ ih =>
    rw [append_assoc]
    exact .containerFailed first rest error hb ha ih

theorem Packs.rows {items : List (Item κ ν μ ε)} {outcomes}
    (h : Packs codec policy items outcomes) :
    outcomes.flatMap PackedOutcome.rows = items.filterMap Item.position? := by
  induction h with
  | nil => rfl
  | sealed _ ih => exact ih
  | memberFailed position error _ ih | oversizeMember position error _ ih
  | oversizeAlone only error _ _ ih =>
    rw [flatMap_cons, ih]
    rfl
  | payload first rest payload _ _ _ ih | containerFailed first rest error _ _ _ ih =>
    rw [flatMap_cons, ih, filterMap_append, filterMap_map,
      show Item.position? ∘ Item.member = some ∘ _ from rfl, filterMap_eq_map]
    rfl

/-! ### One run -/

theorem mem_take_of_le_takeWhile {l : List M}
    (hk : k ≤ ((l.take bound).takeWhile p).length) (hm : m ∈ l.take k) : p m := by
  have hW := prefix_iff_eq_take.mp ( takeWhile_prefix p (l := l.take bound))
  have hbound : ((l.take bound).takeWhile p).length ≤ bound :=
    ( takeWhile_prefix p).length_le.trans (length_take_le _ _)
  have htake : l.take k = ((l.take bound).takeWhile p).take k := by
    rw [hW, take_take, take_take, Nat.min_eq_left hk, Nat.min_eq_left (hk.trans hbound)]
  rw [htake] at hm
  exact mem_takeWhile_imp (mem_of_mem_take hm)

def answerOf : Report (List UInt8) PayloadLimitExceeded φ → Except φ BoundedBatchEncoding
  | .fits payload => .ok (.encoded payload)
  | .exceeds exceeded => .ok (.oversize exceeded)
  | .failed error => .error error

theorem packs_candidate (before : List (PreparedMember κ ν μ)) {tail : List (PreparedMember κ ν μ)}
    {first : PreparedMember κ ν μ} {n : Narrowed (List UInt8) PayloadLimitExceeded φ}
    (hn : n.Of (encodingReport (encodeCandidate codec policy) (first :: tail))
      (runLength policy.maxMessages (PreparedMember.sharesBatchWith codec) first tail)) :
    ∃ outcome : PackedOutcome ν ε φ,
      candidateOutcome (before ++ first :: tail)
        ⟨before.length, before.length + n.length, candidateResult n.report⟩ = some outcome ∧
      Packs codec policy (((first :: tail).take n.length).map .member) [outcome] := by
  obtain ⟨k, hk⟩ := Nat.exists_eq_succ_of_ne_zero n.pos.ne'
  have hb : IsBatch codec policy first (tail.take k) := by
    have hle := Nat.le_of_succ_le_succ (hk.symm.le.trans hn.le)
    have hrun : k ≤ policy.maxMessages - 1 :=
      hle.trans (( takeWhile_prefix _).length_le.trans (length_take_le _ _))
    refine ⟨?_, fun m hm => mem_take_of_le_takeWhile hle hm⟩
    have := policy.maxMessages_pos
    have := length_take_le k tail
    omega
  have htake : (first :: tail).take n.length = first :: tail.take k := by rw [hk]; rfl
  obtain ⟨s, hs⟩ := hn.reported
  have ha : Answers codec policy ((first :: tail).take n.length) (answerOf n.report) := by
    refine ⟨s, ?_⟩
    rw [← hs, encodingReport, encodeCandidate]
    rcases codec.encodeBatchWithin s _ policy.maxSize with ⟨s', error | (payload | exceeded)⟩ <;> rfl
  simp only [candidateOutcome, take_length_add_append, drop_left]
  rw [htake] at ha ⊢
  cases hr : n.report with
  | fits payload =>
    rw [hr] at ha
    have h := Packs.payload first (tail.take k) payload hb ha .nil
    rw [append_nil] at h
    exact ⟨_, rfl, h⟩
  | exceeds exceeded =>
    rw [hr] at ha
    obtain rfl : k = 0 := Nat.succ_injective (hk.symm.trans (hn.exceeds hr))
    exact ⟨_, rfl, .oversizeAlone first exceeded ha .nil⟩
  | failed error =>
    rw [hr] at ha
    have h := Packs.containerFailed first (tail.take k) error hb ha .nil
    rw [append_nil] at h
    exact ⟨_, rfl, h⟩

theorem packs_subdivideFrom (codec : CompiledCodec β μ ε φ σ) (policy : EmitterBatchPolicy)
    (before remaining : List (PreparedMember κ ν μ)) (s : σ) :
    let d := (subdivideFrom policy.maxMessages (PreparedMember.sharesBatchWith codec)
      (encodeCandidate codec policy) s before.length remaining).2
    Packs codec policy (remaining.map (Item.member (ε := ε)))
        (d.candidates.filterMap (candidateOutcome (before ++ remaining))) ∧
      ∀ c ∈ d.counts, c.Bounded := by
  induction hlen : remaining.length using Nat.strongRecOn generalizing before remaining s with
  | ind length ih =>
    cases remaining with
    | nil =>
      rw [subdivideFrom]
      exact ⟨.nil, nofun⟩
    | cons first tail =>
      have hn : (narrowRun policy.maxMessages (PreparedMember.sharesBatchWith codec)
        (encodeCandidate codec policy) s first tail).2.Of _ _ := narrow_of _ _ _ _
      rw [subdivideFrom]
      generalize narrowRun policy.maxMessages (PreparedMember.sharesBatchWith codec)
        (encodeCandidate codec policy) s first tail = narrowed at hn ⊢
      obtain ⟨s', n⟩ := narrowed
      obtain ⟨outcome, houtcome, hpacks⟩ := packs_candidate (ε := ε) before hn
      have hle : n.length ≤ (first :: tail).length := hn.le.trans
        (Nat.succ_le_succ (( takeWhile_prefix _).length_le.trans (length_take_le' _ _)))
      have hdrop : ((first :: tail).drop n.length).length < length := by
        have := n.pos
        rw [length_drop, ← hlen]
        omega
      have hbefore : (before ++ (first :: tail).take n.length).length =
          before.length + n.length := by
        rw [length_append, length_take_of_le hle]
      obtain ⟨hrest, hcounts⟩ := ih _ hdrop (before ++ (first :: tail).take n.length) _ s' rfl
      rw [hbefore] at hrest hcounts
      rw [append_assoc, take_append_drop] at hrest
      dsimp only at hrest hcounts ⊢
      constructor
      · rw [filterMap_cons_some houtcome]
        have h := hpacks.append hrest
        rwa [← map_append, take_append_drop] at h
      · intro c hc
        rcases mem_cons.mp hc with rfl | hc
        · exact hn.measured
        · exact hcounts c hc

/-! ### Row by row -/

structure Packer.Met (codec : CompiledCodec β μ ε φ σ) (policy : EmitterBatchPolicy)
    (items : List (Item κ ν μ ε)) (p : Packer κ ν μ ε φ σ) : Prop where
  packs : ∃ packed, items = packed ++ p.run.map .member ∧
    Packs codec policy packed p.packing.outcomes
  counts : ∀ c ∈ p.packing.counts, c.Bounded

namespace Packer

variable {items : List (Item κ ν μ ε)} {p : Packer κ ν μ ε φ σ}

theorem run_packRun : (p.packRun codec policy).run = [] := by
  rw [packRun]
  split
  case isTrue h => exact isEmpty_iff.mp h
  case isFalse => rfl

section
variable (h : p.Met codec policy items)
include h

theorem Met.packRun : (p.packRun codec policy).Met codec policy items := by
  rw [Packer.packRun]
  split
  case isTrue => exact h
  case isFalse =>
    obtain ⟨packed, rfl, hpacked⟩ := h.packs
    obtain ⟨hrun, hcounts⟩ := packs_subdivideFrom codec policy [] p.run p.codecState
    constructor
    · exact ⟨packed ++ p.run.map .member, (append_nil _).symm, hpacked.append hrun⟩
    · intro c hc
      rcases mem_append.mp hc with hc | hc
      · exact h.counts c hc
      · exact hcounts c hc

theorem Met.packs_of_packRun :
    Packs codec policy items (p.packRun codec policy).packing.outcomes := by
  obtain ⟨packed, hitems, hpacks⟩ := h.packRun.packs
  rw [run_packRun, map_nil, append_nil] at hitems
  exact hitems ▸ hpacks

theorem Met.pushOutcome {item : Item κ ν μ ε} {outcome : PackedOutcome ν ε φ} (ho : Packs codec policy [item] [outcome]) :
    ((p.packRun codec policy).pushOutcome outcome).Met codec policy (items ++ [item]) := by
  refine ⟨⟨items ++ [item], ?_, h.packs_of_packRun.append ho⟩, h.packRun.counts⟩
  simp only [Packer.pushOutcome, run_packRun, map_nil, append_nil]

theorem Met.push :
    ({ p with run := p.run ++ [prepared] } : Packer κ ν μ ε φ σ).Met codec policy
      (items ++ [.member prepared]) := by
  obtain ⟨packed, rfl, hpacked⟩ := h.packs
  refine ⟨⟨packed, ?_, hpacked⟩, h.counts⟩
  rw [map_append, append_assoc]
  rfl

theorem Met.pushMember :
    (p.pushMember codec policy prepared).Met codec policy (items ++ [.member prepared]) := by
  have hcut : ∀ q : Packer κ ν μ ε φ σ, q.Met codec policy items →
      (if (q.run ++ [prepared]).length = policy.maxMessages then
        ({ q with run := q.run ++ [prepared] } : Packer κ ν μ ε φ σ).packRun codec policy
        else { q with run := q.run ++ [prepared] }).Met codec policy
          (items ++ [.member prepared]) := by
    intro q hq
    split
    case isTrue => exact hq.push.packRun
    case isFalse => exact hq.push
  apply hcut
  split
  case h_1 =>
    split
    case isTrue => exact h
    case isFalse => exact h.packRun
  case h_2 => exact h

end

variable {carrier : PackingCarrier β κ ν}

theorem Met.packRow {batchMember : Nat → PayloadSizeLimit → Except ε (BatchMemberEncoding μ)}
    (h : p.Met codec policy items) (row : PackingRow ν) :
    (p.packRow codec policy carrier batchMember row).Met codec policy
      (items ++ [itemOf policy carrier batchMember row]) := by
  match row with
  | .seal =>
    refine ⟨⟨items ++ [.seal], ?_, ?_⟩, h.packRun.counts⟩
    · rw [Packer.packRow, run_packRun, map_nil, append_nil]
      rfl
    · have h := h.packs_of_packRun.append (.sealed .nil)
      rwa [append_nil] at h
  | .ready position envelope =>
    rw [Packer.packRow, itemOf]
    rcases batchMember position.rowIndex policy.maxSize with error | (member | exceeded)
    · exact h.pushOutcome (.memberFailed position error .nil)
    · exact h.pushMember
    · exact h.pushOutcome (.oversizeMember position exceeded .nil)

theorem Met.packRows (carrier : PackingCarrier β κ ν)
    (batchMember : Nat → PayloadSizeLimit → Except ε (BatchMemberEncoding μ))
    (rows : List (PackingRow ν)) (h : p.Met codec policy items) :
    (rows.foldl (Packer.packRow codec policy carrier batchMember) p).Met codec policy
      (items ++ rows.map (itemOf policy carrier batchMember)) := by
  induction rows generalizing items p with
  | nil =>
    rw [map_nil, append_nil]
    exact h
  | cons row rows ih =>
    rw [map_cons, append_cons]
    exact ih (h.packRow row)

theorem Met.packCarrier
    (h : p.Met codec policy items) (hq : p.packCarrier codec policy carrier = .ok q) :
    ∃ its, carrierItems codec policy carrier = .ok its ∧ q.Met codec policy (items ++ its) := by
  rw [Packer.packCarrier] at hq
  rw [carrierItems]
  split at hq
  case isTrue hempty =>
    cases hq
    rw [if_pos hempty]
    exact ⟨[], rfl, (append_nil items).symm ▸ h⟩
  case isFalse hrows =>
    obtain ⟨batchMember, hencoder, hq⟩ := Except.bind_eq_ok.mp hq
    cases hq
    rw [if_neg hrows, hencoder]
    exact ⟨_, rfl, h.packRows carrier batchMember carrier.rows⟩

theorem Met.packCarriers (h : p.Met codec policy items)
    (hq : carriers.foldlM (Packer.packCarrier codec policy) p = .ok q) :
    ∃ its, List.Forall₂ (fun carrier i => carrierItems codec policy carrier = .ok i) carriers its ∧
      q.Met codec policy (items ++ its.flatten) := by
  induction carriers generalizing items p with
  | nil =>
    cases hq
    exact ⟨[], .nil, (append_nil items).symm ▸ h⟩
  | cons carrier carriers ih =>
    obtain ⟨p', hp', hq⟩ := Except.bind_eq_ok.mp hq
    obtain ⟨i, hi, hmet⟩ := h.packCarrier hp'
    obtain ⟨its, hits, hq⟩ := ih hmet hq
    rw [append_assoc] at hq
    exact ⟨i :: its, .cons hi hits, hq⟩

theorem packCarrier_error (h : p.packCarrier codec policy carrier = .error error) :
    carrier.rows ≠ [] ∧ codec.batchEncoder carrier.batch = .error error := by
  rw [Packer.packCarrier] at h
  split at h
  case isTrue => cases h
  case isFalse hrows =>
    refine ⟨fun hnil => hrows (isEmpty_iff.mpr hnil), ?_⟩
    cases hencoder : codec.batchEncoder carrier.batch with
    | error e =>
      rw [hencoder] at h
      cases h
      rfl
    | ok batchMember =>
      rw [hencoder] at h
      cases h

theorem packCarriers_error {carriers : List (PackingCarrier β κ ν)}
    (h : carriers.foldlM (Packer.packCarrier codec policy) p = .error error) :
    ∃ carrier ∈ carriers, carrier.rows ≠ [] ∧ codec.batchEncoder carrier.batch = .error error := by
  induction carriers generalizing p with
  | nil => cases h
  | cons carrier carriers ih =>
    rw [foldlM_cons] at h
    cases hp : p.packCarrier codec policy carrier with
    | error e =>
      rw [hp] at h
      cases h
      exact ⟨carrier, mem_cons_self, packCarrier_error hp⟩
    | ok p' =>
      rw [hp] at h
      obtain ⟨c, hc, hfailed⟩ := ih h
      exact ⟨c, mem_cons_of_mem _ hc, hfailed⟩

end Packer

omit [DecidableEq κ] [DecidableEq ν] in
theorem positions_carrierItems (h : carrierItems codec policy carrier = .ok its) :
    its.filterMap Item.position? = carrier.rows.filterMap PackingRow.position? := by
  rw [carrierItems] at h
  split at h
  case isTrue hempty =>
    cases h
    rw [isEmpty_iff.mp hempty]
    rfl
  case isFalse =>
    cases hencoder : codec.batchEncoder carrier.batch with
    | error e =>
      rw [hencoder] at h
      cases h
    | ok batchMember =>
      rw [hencoder] at h
      cases h
      rw [filterMap_map]
      refine filterMap_congr fun row _ => ?_
      match row with
      | .seal => rfl
      | .ready position envelope =>
        rw [Function.comp_apply, itemOf]
        rcases batchMember position.rowIndex policy.maxSize with error | (member | exceeded) <;> rfl

variable {carriers : List (PackingCarrier β κ ν)}

omit [DecidableEq κ] [DecidableEq ν] in
theorem positions_carriers
    (h : List.Forall₂ (fun carrier i => carrierItems codec policy carrier = .ok i) carriers its) :
    its.flatten.filterMap Item.position? =
      carriers.flatMap (·.rows.filterMap PackingRow.position?) := by
  induction h with
  | nil => rfl
  | cons hi _ ih =>
    rw [flatten_cons, filterMap_append, flatMap_cons, ih, positions_carrierItems hi]

structure Accounts (codec : CompiledCodec β μ ε φ σ) (policy : EmitterBatchPolicy)
    (carriers : List (PackingCarrier β κ ν)) (packing : BufferedBatchPacking ν ε φ) : Prop where
  packs : ∃ its,
    List.Forall₂ (fun carrier i => carrierItems codec policy carrier = .ok i) carriers its ∧
      Packs codec policy its.flatten packing.outcomes
  rows : packing.outcomes.flatMap PackedOutcome.rows =
    carriers.flatMap (·.rows.filterMap PackingRow.position?)
  counts : ∀ c ∈ packing.counts, c.Bounded

theorem accounts_of_packBufferedBatches {s : σ} {packing : BufferedBatchPacking ν ε φ}
    (h : packBufferedBatches codec s carriers policy = .ok packing) :
    Accounts codec policy carriers packing := by
  obtain ⟨p, hp, hpacking⟩ := Except.bind_eq_ok.mp h
  cases hpacking
  have hstart : ({ codecState := s } : Packer κ ν μ ε φ σ).Met codec policy [] :=
    ⟨⟨[], rfl, .nil⟩, nofun⟩
  obtain ⟨its, hits, hmet⟩ := hstart.packCarriers hp
  have hpacks := hmet.packs_of_packRun
  exact ⟨⟨its, hits, hpacks⟩, hpacks.rows.trans (positions_carriers hits), hmet.packRun.counts⟩

theorem packBufferedBatches_error (h : packBufferedBatches codec s carriers policy = .error error) :
    ∃ carrier ∈ carriers, carrier.rows ≠ [] ∧ codec.batchEncoder carrier.batch = .error error := by
  rw [packBufferedBatches] at h
  cases hp : carriers.foldlM (Packer.packCarrier codec policy)
      ({ codecState := s } : Packer κ ν μ ε φ σ) with
  | error e =>
    rw [hp] at h
    cases h
    exact Packer.packCarriers_error hp
  | ok p =>
    rw [hp] at h
    cases h

end Pack

end Nervix.Emitter
