import Nervix.Theory.System
import Nervix.Processors.KeyParts

/-!
# Correlators

A correlator branch holds the unmatched messages of its two sides. A message that arrives is
compared with everything pending on the other side; the match that the policy selects leaves with
it as a pair, and the other matches are acknowledged.
-/

namespace Nervix.Processors

open List

inductive CorrelatorSide
  | left
  | right
deriving DecidableEq

def CorrelatorSide.opposite : CorrelatorSide → CorrelatorSide
  | left => right
  | right => left

inductive CorrelatorMatchPolicy
  | earliest
  | latest

inductive CorrelatorError
  | missingMatchProgram
  | decodeInput
  | matchInput (side : CorrelatorSide)
  | projectMatchInput
  | evaluateMatch
  | matchRowOutOfRange (row candidates : Nat)
  | outputProgramCount (programs routes : Nat)
  | outputProgramUnavailable
  | matchedBatch

structure CorrelatorPendingMessage (ν : Type) where
  receivedAt : Timestamp
  message : ν

structure CorrelatorBranchState (ν : Type) where
  pendingLeft : List (CorrelatorPendingMessage ν) := []
  pendingRight : List (CorrelatorPendingMessage ν) := []

namespace Correlator

variable {ν : Type}

section
variable (state : CorrelatorBranchState ν)

def pending : CorrelatorSide → List (CorrelatorPendingMessage ν)
  | .left => state.pendingLeft
  | .right => state.pendingRight

def takeCorrelatorOppositePending :
    CorrelatorSide → List (CorrelatorPendingMessage ν) × CorrelatorBranchState ν
  | .left => (state.pendingRight, { state with pendingRight := [] })
  | .right => (state.pendingLeft, { state with pendingLeft := [] })

def restoreCorrelatorOppositePending
    (incomingSide : CorrelatorSide) (remaining : List (CorrelatorPendingMessage ν)) :
    CorrelatorBranchState ν :=
  match incomingSide with
  | .left => { state with pendingRight := remaining ++ state.pendingRight }
  | .right => { state with pendingLeft := remaining ++ state.pendingLeft }

def storeCorrelatorUnmatchedIncoming
    (incomingSide : CorrelatorSide) (incoming : CorrelatorPendingMessage ν)
    (oppositePending : List (CorrelatorPendingMessage ν)) : CorrelatorBranchState ν :=
  match incomingSide with
  | .left => {
      pendingRight := oppositePending ++ state.pendingRight
      pendingLeft := state.pendingLeft ++ [incoming] }
  | .right => {
      pendingLeft := oppositePending ++ state.pendingLeft
      pendingRight := state.pendingRight ++ [incoming] }

end

structure CorrelatorFailure (ν : Type) where
  error : CorrelatorError
  messages : List (CorrelatorSide × CorrelatorPendingMessage ν)

def evaluateCorrelatorWhereMatches (evaluation : Except CorrelatorError (List Nat))
    (incomingSide : CorrelatorSide) (incoming : CorrelatorPendingMessage ν)
    (candidates : List (CorrelatorPendingMessage ν)) :
    Except (CorrelatorFailure ν) (List Bool) :=
  let messages := (incomingSide, incoming) :: candidates.map fun c => (incomingSide.opposite, c)
  match evaluation with
  | .error error => .error ⟨error, messages⟩
  | .ok selectedRows =>
    match selectedRows.find? fun row => candidates.length ≤ row with
    | some row => .error ⟨.matchRowOutOfRange row candidates.length, messages⟩
    | none => .ok ((List.range candidates.length).map fun row => decide (row ∈ selectedRows))

structure Pairing (ν : Type) where
  incomingSide : CorrelatorSide
  matchPolicy : CorrelatorMatchPolicy
  incoming : CorrelatorPendingMessage ν
  candidates : List (CorrelatorPendingMessage ν)
  evaluated : List Bool
  selected : CorrelatorPendingMessage ν

def Pairing.correlation (p : Pairing ν) : CorrelatorPendingMessage ν × CorrelatorPendingMessage ν :=
  match p.incomingSide with
  | .left => (p.incoming, p.selected)
  | .right => (p.selected, p.incoming)

def matching (candidates : List (CorrelatorPendingMessage ν)) (evaluated : List Bool) :
    List (CorrelatorPendingMessage ν) :=
  ((candidates.zip evaluated).filter fun c => c.2).map Prod.fst

def remaining (candidates : List (CorrelatorPendingMessage ν)) (evaluated : List Bool) :
    List (CorrelatorPendingMessage ν) :=
  ((candidates.zip evaluated).filter fun c => !c.2).map Prod.fst

structure Correlated (ν : Type) where
  state : CorrelatorBranchState ν
  pairing : Option (Pairing ν) := none
  acknowledged : List (CorrelatorSide × CorrelatorPendingMessage ν) := []
  failure : Option (CorrelatorFailure ν) := none

def correlateIncomingMessage (evaluation : Except CorrelatorError (List Nat))
    (incomingSide : CorrelatorSide) (matchPolicy : CorrelatorMatchPolicy)
    (state : CorrelatorBranchState ν) (incoming : CorrelatorPendingMessage ν) : Correlated ν :=
  let (oppositePending, state) := takeCorrelatorOppositePending state incomingSide
  if oppositePending.isEmpty then
    { state := storeCorrelatorUnmatchedIncoming state incomingSide incoming oppositePending }
  else
    match evaluateCorrelatorWhereMatches evaluation incomingSide incoming oppositePending with
    | .error failure => { state, failure := some failure }
    | .ok evaluated =>
      let matched := matching oppositePending evaluated
      let selectedIndex :=
        match matchPolicy with
        | .earliest => 0
        | .latest => matched.length - 1
      match matched[selectedIndex]? with
      | none =>
        { state := storeCorrelatorUnmatchedIncoming state incomingSide incoming
            (remaining oppositePending evaluated) }
      | some selected =>
        { state := restoreCorrelatorOppositePending state incomingSide
            (remaining oppositePending evaluated)
          pairing := some ⟨incomingSide, matchPolicy, incoming, oppositePending, evaluated, selected⟩
          acknowledged := (matched.eraseIdx selectedIndex).map fun c =>
            (incomingSide.opposite, c) }

structure Execution (ν : Type) where
  state : CorrelatorBranchState ν
  pairings : List (Pairing ν) := []
  acknowledged : List (CorrelatorSide × CorrelatorPendingMessage ν) := []
  failures : List (CorrelatorFailure ν) := []

structure Incoming (ν : Type) where
  message : ν
  evaluation : Except CorrelatorError (List Nat)

def executeMessage (side : CorrelatorSide) (matchPolicy : CorrelatorMatchPolicy)
    (executionNow : Timestamp) (x : Execution ν) (i : Incoming ν) : Execution ν :=
  let c := correlateIncomingMessage i.evaluation side matchPolicy x.state
    ⟨executionNow, i.message⟩
  { state := c.state
    pairings := x.pairings ++ c.pairing.toList
    acknowledged := x.acknowledged ++ c.acknowledged
    failures := x.failures ++ c.failure.toList }

structure Input (ν : Type) where
  side : CorrelatorSide
  matchPolicy : CorrelatorMatchPolicy
  executionNow : Timestamp
  messages : List (Incoming ν)
  prepared : Except CorrelatorError Unit
  outputs : Except CorrelatorError Unit

structure Outcome (ν : Type) where
  state : CorrelatorBranchState ν
  pairings : List (Pairing ν) := []
  emitted : List (CorrelatorPendingMessage ν × CorrelatorPendingMessage ν) := []
  acknowledged : List (CorrelatorSide × CorrelatorPendingMessage ν) := []
  failures : List (CorrelatorFailure ν) := []

section
variable (state : CorrelatorBranchState ν)

def pairMessages (pair : CorrelatorPendingMessage ν × CorrelatorPendingMessage ν) :
    List (CorrelatorSide × CorrelatorPendingMessage ν) :=
  [(.left, pair.1), (.right, pair.2)]

def executeInput (input : Input ν) : Outcome ν :=
  match input.prepared with
  | .error error => {
      state
      failures := [⟨error,
        input.messages.map fun i => (input.side, ⟨input.executionNow, i.message⟩)⟩] }
  | .ok () =>
    let x := input.messages.foldl
      (executeMessage input.side input.matchPolicy input.executionNow) { state }
    let correlations := x.pairings.map Pairing.correlation
    let outcome : Outcome ν :=
      { state := x.state, pairings := x.pairings, acknowledged := x.acknowledged
        failures := x.failures }
    if correlations.isEmpty then outcome
    else
      match input.outputs with
      | .error error => { outcome with
          failures := x.failures ++ [⟨error, correlations.flatMap pairMessages⟩] }
      | .ok () => { outcome with emitted := correlations }

def expire (now : Timestamp) (maxTime : Nat) (pending : List (CorrelatorPendingMessage ν)) :
    List (CorrelatorPendingMessage ν) × List (CorrelatorPendingMessage ν) :=
  pending.partition fun entry =>
    decide (checkedAddDurationToTimestamp entry.receivedAt maxTime ≤ now)

def tick (now : Timestamp) (maxTime : Nat) :
    List (CorrelatorSide × CorrelatorPendingMessage ν) × CorrelatorBranchState ν :=
  let (timedOutLeft, leftRemaining) := expire now maxTime state.pendingLeft
  let (timedOutRight, rightRemaining) := expire now maxTime state.pendingRight
  (timedOutLeft.map (fun entry => (.left, entry)) ++ timedOutRight.map fun entry => (.right, entry),
    { pendingLeft := leftRemaining, pendingRight := rightRemaining })

def placed : List (CorrelatorSide × CorrelatorPendingMessage ν) :=
  state.pendingLeft.map (fun entry => (.left, entry)) ++
    state.pendingRight.map fun entry => (.right, entry)

def settled (pairings : List (Pairing ν))
    (acknowledged : List (CorrelatorSide × CorrelatorPendingMessage ν))
    (failures : List (CorrelatorFailure ν)) : List (CorrelatorSide × CorrelatorPendingMessage ν) :=
  (pairings.map Pairing.correlation).flatMap pairMessages ++ acknowledged ++
    failures.flatMap CorrelatorFailure.messages

end

variable {candidates : List (CorrelatorPendingMessage ν)}

theorem matching_append_remaining (h : evaluated.length = candidates.length) :
    (matching candidates evaluated ++ remaining candidates evaluated).Perm candidates := by
  rw [matching, remaining, ← map_append]
  refine ((filter_append_perm _ _).map Prod.fst).trans (.of_eq ?_)
  exact map_fst_zip (le_of_eq h.symm)

theorem sublists (h : evaluated.length = candidates.length) :
    (matching candidates evaluated).Sublist candidates ∧
      (remaining candidates evaluated).Sublist candidates := by
  have hzip : (candidates.zip evaluated).map Prod.fst = candidates :=
    map_fst_zip (le_of_eq h.symm)
  have hsub (p : CorrelatorPendingMessage ν × Bool → Bool) :
      (((candidates.zip evaluated).filter p).map Prod.fst).Sublist candidates := by
    conv_rhs => rw [← hzip]
    exact filter_sublist.map Prod.fst
  exact ⟨hsub _, hsub _⟩

variable {side : CorrelatorSide} {incoming : CorrelatorPendingMessage ν}

def Pairing.selectedIndex (p : Pairing ν) : Nat :=
  match p.matchPolicy with
  | .earliest => 0
  | .latest => (matching p.candidates p.evaluated).length - 1

inductive Effect (side : CorrelatorSide) (state : CorrelatorBranchState ν)
    (incoming : CorrelatorPendingMessage ν) : Correlated ν → Prop
  | waits {state'} (own : pending state' side = pending state side ++ [incoming])
      (other : pending state' side.opposite = pending state side.opposite) :
      Effect side state incoming { state := state' }
  | fails {state' failure} (own : pending state' side = pending state side)
      (other : pending state' side.opposite = [])
      (messages : failure.messages =
        (side, incoming) :: (pending state side.opposite).map fun c => (side.opposite, c)) :
      Effect side state incoming { state := state', failure := some failure }
  | pairs {state'} {p : Pairing ν} (own : pending state' side = pending state side)
      (other : pending state' side.opposite = remaining p.candidates p.evaluated)
      (candidates : p.candidates = pending state side.opposite) (incoming_eq : p.incoming = incoming)
      (side_eq : p.incomingSide = side)
      (length : p.evaluated.length = p.candidates.length)
      (selected : (matching p.candidates p.evaluated)[p.selectedIndex]? = some p.selected) :
      Effect side state incoming
        { state := state'
          pairing := some p
          acknowledged := ((matching p.candidates p.evaluated).eraseIdx p.selectedIndex).map
            fun c => (side.opposite, c) }

theorem correlateIncomingMessage_effect (evaluation : Except CorrelatorError (List Nat))
    (side : CorrelatorSide) (matchPolicy : CorrelatorMatchPolicy)
    (state : CorrelatorBranchState ν) (incoming : CorrelatorPendingMessage ν) :
    Effect side state incoming
      (correlateIncomingMessage evaluation side matchPolicy state incoming) := by
  have hopposite : (takeCorrelatorOppositePending state side).1 = pending state side.opposite := by
    cases side <;> rfl
  simp only [correlateIncomingMessage, hopposite]
  split
  case isTrue hempty =>
    refine .waits ?_ ?_
    · cases side <;> rfl
    · cases side <;> simp [storeCorrelatorUnmatchedIncoming, takeCorrelatorOppositePending, pending,
        CorrelatorSide.opposite]
  case isFalse =>
    split
    case h_1 failure hfail =>
      refine .fails ?_ ?_ ?_
      · cases side <;> rfl
      · cases side <;> rfl
      · simp only [evaluateCorrelatorWhereMatches] at hfail
        split at hfail
        · cases hfail
          rfl
        · split at hfail <;> cases hfail
          rfl
    case h_2 evaluated hok =>
      have hlength : evaluated.length = (pending state side.opposite).length := by
        simp only [evaluateCorrelatorWhereMatches] at hok
        split at hok
        · cases hok
        · split at hok <;> cases hok
          simp
      split
      case h_1 hnone =>
        -- Nothing matched, so everything on the other side remains.
        have hmatching : matching (pending state side.opposite) evaluated = [] := by
          rw [getElem?_eq_none_iff] at hnone
          cases matchPolicy with
          | earliest => simpa using hnone
          | latest =>
            rw [← length_eq_zero_iff]
            simp only at hnone
            omega
        have hremaining : remaining (pending state side.opposite) evaluated =
            pending state side.opposite := by
          have hperm := (matching_append_remaining hlength).length_eq
          rw [hmatching, nil_append] at hperm
          exact (sublists hlength).2.eq_of_length hperm
        rw [hremaining]
        refine .waits ?_ ?_
        · cases side <;> rfl
        · cases side <;> simp [storeCorrelatorUnmatchedIncoming, takeCorrelatorOppositePending,
            pending, CorrelatorSide.opposite]
      case h_2 selected hsome =>
        refine .pairs (p := ⟨side, matchPolicy, incoming, _, evaluated, selected⟩) ?_ ?_ rfl rfl rfl
          hlength hsome
        · cases side <;> rfl
        · cases side <;> simp [restoreCorrelatorOppositePending, takeCorrelatorOppositePending,
            pending, CorrelatorSide.opposite]

theorem placed_perm (state : CorrelatorBranchState ν) (side : CorrelatorSide) :
    (placed state).Perm ((pending state side).map (fun e => (side, e)) ++
      (pending state side.opposite).map fun e => (side.opposite, e)) := by
  cases side with
  | left => exact .refl _
  | right => exact perm_append_comm

theorem Effect.perm (h : Effect side state incoming c) :
    (placed c.state ++ settled c.pairing.toList c.acknowledged c.failure.toList).Perm
      (placed state ++ [(side, incoming)]) := by
  classical
  refine ((placed_perm c.state side).append_right _).trans
    (.trans ?_ ((placed_perm state side).symm.append_right _))
  rw [perm_iff_count]
  intro a
  cases h with
  | waits own other =>
    simp only [settled, own, other, map_append, map_cons, map_nil,
      count_append, Option.toList, flatMap_nil, count_nil]
    omega
  | fails own other messages =>
    simp only [settled, own, other, messages, map_nil, count_append, Option.toList,
      flatMap_nil, count_nil, flatMap_cons, append_nil, count_cons]
    omega
  | @pairs state' p own other candidates incoming_eq side_eq length selected =>
    obtain ⟨hlt, hselected⟩ := List.getElem?_eq_some_iff.mp selected
    have hmatching := ((getElem_cons_eraseIdx_perm hlt).map
      fun c => (side.opposite, c)).count_eq a
    have hsplit := ((matching_append_remaining length).map
      fun c => (side.opposite, c)).count_eq a
    have hpair : (pairMessages p.correlation).count a =
        [(side, incoming)].count a + [(side.opposite, p.selected)].count a := by
      rw [Pairing.correlation, side_eq, incoming_eq]
      cases side <;>
        simp only [pairMessages, CorrelatorSide.opposite, count_cons, count_nil] <;> omega
    rw [hselected] at hmatching
    simp only [settled, own, other, ← candidates, Option.toList, map_cons, map_nil,
      flatMap_cons, flatMap_nil, append_nil, count_append, map_append,
      count_cons, count_nil] at hmatching hsplit hpair ⊢
    omega

structure Arrival (ν : Type) where
  number : Nat
  message : ν

def Input.numbered (i : Input ν) (number : Nat) : Input (Arrival ν) :=
  { i with messages := i.messages.zipIdx number |>.map fun x => ⟨⟨x.2, x.1.message⟩, x.1.evaluation⟩ }

def Input.entering (i : Input ν) : List (CorrelatorSide × CorrelatorPendingMessage ν) :=
  i.messages.map fun m => (i.side, ⟨i.executionNow, m.message⟩)

structure Timeout (ν : Type) where
  side : CorrelatorSide
  entry : CorrelatorPendingMessage ν
  now : Timestamp
  maxTime : Nat

inductive Action (ν : Type)
  | input (i : Input ν)
  | tick (now : Timestamp) (maxTime : Nat)

structure Moment (ν : Type) where
  state : CorrelatorBranchState (Arrival ν) := {}
  entered : List (CorrelatorSide × CorrelatorPendingMessage (Arrival ν)) := []
  pairings : List (Pairing (Arrival ν)) := []
  emitted : List (CorrelatorPendingMessage (Arrival ν) × CorrelatorPendingMessage (Arrival ν)) := []
  acknowledged : List (CorrelatorSide × CorrelatorPendingMessage (Arrival ν)) := []
  failures : List (CorrelatorFailure (Arrival ν)) := []
  timedOut : List (Timeout (Arrival ν)) := []

def Moment.next (m : Moment ν) : Action ν → Moment ν
  | .input i =>
    let i := i.numbered m.entered.length
    let o := executeInput m.state i
    { m with
      state := o.state
      entered := m.entered ++ i.entering
      pairings := m.pairings ++ o.pairings
      emitted := m.emitted ++ o.emitted
      acknowledged := m.acknowledged ++ o.acknowledged
      failures := m.failures ++ o.failures }
  | .tick now maxTime =>
    let (timedOut, state) := tick m.state now maxTime
    { m with
      state := state
      timedOut := m.timedOut ++ timedOut.map fun t => ⟨t.1, t.2, now, maxTime⟩ }

def correlators (ν : Type) : System (Moment ν) (Action ν) where
  guard _ _ := True
  next := Moment.next

def Moment.places (m : Moment ν) : List (CorrelatorSide × CorrelatorPendingMessage (Arrival ν)) :=
  placed m.state ++ (m.emitted.flatMap pairMessages ++ m.acknowledged ++
    m.failures.flatMap CorrelatorFailure.messages) ++ m.timedOut.map fun t => (t.side, t.entry)

abbrev number (e : CorrelatorPendingMessage (Arrival ν)) : Nat := e.message.number

structure Pairing.Lawful (p : Pairing (Arrival ν)) : Prop where
  ordered : p.candidates.Pairwise fun a b => number a < number b
  evaluated : p.evaluated.length = p.candidates.length
  held : p.selected ∈ matching p.candidates p.evaluated
  policy : match p.matchPolicy with
    | .earliest => ∀ c ∈ matching p.candidates p.evaluated, number p.selected ≤ number c
    | .latest => ∀ c ∈ matching p.candidates p.evaluated, number c ≤ number p.selected

theorem le_of_getElem? {l : List (CorrelatorPendingMessage (Arrival ν))}
    (h : l.Pairwise fun a b => number a < number b) {i j : Nat}
    {a b : CorrelatorPendingMessage (Arrival ν)} (ha : l[i]? = some a) (hb : l[j]? = some b)
    (hij : i ≤ j) : number a ≤ number b := by
  obtain ⟨hi, rfl⟩ := List.getElem?_eq_some_iff.mp ha
  obtain ⟨hj, rfl⟩ := List.getElem?_eq_some_iff.mp hb
  rcases Nat.eq_or_lt_of_le hij with rfl | hlt
  · exact le_refl _
  · exact le_of_lt (pairwise_iff_getElem.mp h i j hi hj hlt)

structure Kept (base : List (CorrelatorSide × CorrelatorPendingMessage (Arrival ν))) (n : Nat)
    (x : Execution (Arrival ν)) : Prop where
  perm : (placed x.state ++ settled x.pairings x.acknowledged x.failures).Perm base
  ordered : ∀ side, (pending x.state side).Pairwise fun a b => number a < number b
  bounded : ∀ side, ∀ e ∈ pending x.state side, number e < n
  lawful : ∀ p ∈ x.pairings, p.Lawful

theorem CorrelatorSide.cases_of (side side' : CorrelatorSide) :
    side' = side ∨ side' = side.opposite := by
  cases side <;> cases side' <;> simp [CorrelatorSide.opposite]

variable {state : CorrelatorBranchState (Arrival ν)}

theorem Effect.pending_kept
    {incoming : CorrelatorPendingMessage (Arrival ν)} {c : Correlated (Arrival ν)}
    (h : Effect side state incoming c) (side' : CorrelatorSide) :
    (pending c.state side').Sublist (pending state side') ∨
      pending c.state side' = pending state side' ++ [incoming] := by
  cases h with
  | waits own other =>
    rcases CorrelatorSide.cases_of side side' with rfl | rfl
    · exact .inr own
    · exact .inl (other ▸ .refl _)
  | fails own other _ =>
    rcases CorrelatorSide.cases_of side side' with rfl | rfl
    · exact .inl (own ▸ .refl _)
    · exact .inl (other ▸ nil_sublist _)
  | pairs own other candidates _ _ length _ =>
    rcases CorrelatorSide.cases_of side side' with rfl | rfl
    · exact .inl (own ▸ .refl _)
    · exact .inl (other ▸ candidates ▸ (sublists length).2)

theorem Effect.lawful {incoming : CorrelatorPendingMessage (Arrival ν)} {c : Correlated (Arrival ν)}
    (h : Effect side state incoming c)
    (hordered : ∀ side, (pending state side).Pairwise fun a b => number a < number b) :
    ∀ p ∈ c.pairing.toList, p.Lawful := by
  cases h with
  | waits => nofun
  | fails => nofun
  | @pairs state' p own other candidates incoming_eq side_eq length selected =>
    intro q hq
    obtain rfl := mem_singleton.mp hq
    have hcandidates : q.candidates.Pairwise fun a b => number a < number b :=
      candidates ▸ hordered side.opposite
    have hmatching := hcandidates.sublist (sublists length).1
    refine ⟨hcandidates, length, mem_of_getElem? selected, ?_⟩
    cases hp : q.matchPolicy with
    | earliest =>
      intro c hc
      obtain ⟨j, hj⟩ := mem_iff_getElem?.mp hc
      exact le_of_getElem? hmatching selected hj (by simp [Pairing.selectedIndex, hp])
    | latest =>
      intro c hc
      obtain ⟨j, hj⟩ := mem_iff_getElem?.mp hc
      have hlt := (List.getElem?_eq_some_iff.mp hj).1
      refine le_of_getElem? hmatching hj selected ?_
      simp only [Pairing.selectedIndex, hp]
      omega

theorem Kept.executeMessage (h : Kept base n x) (side : CorrelatorSide)
    (matchPolicy : CorrelatorMatchPolicy) (now : Timestamp) (i : Incoming (Arrival ν))
    (hn : i.message.number = n) :
    Kept (base ++ [(side, ⟨now, i.message⟩)]) (n + 1)
      (executeMessage side matchPolicy now x i) := by
  have heffect := correlateIncomingMessage_effect i.evaluation side matchPolicy x.state
    ⟨now, i.message⟩
  refine ⟨?_, ?_, ?_, ?_⟩
  · refine .trans ?_ (h.perm.append_right _)
    have hperm := heffect.perm
    classical
    rw [perm_iff_count] at hperm ⊢
    intro a
    have ha := hperm a
    simp only [Correlator.executeMessage, settled, map_append, flatMap_append, count_append] at ha ⊢
    omega
  · intro side'
    rcases heffect.pending_kept side' with hsub | heq
    · exact (h.ordered side').sublist hsub
    · change (pending (correlateIncomingMessage _ _ _ _ _).state side').Pairwise _
      rw [heq]
      refine pairwise_append.mpr ⟨h.ordered side', pairwise_singleton _ _, ?_⟩
      intro a ha b hb
      obtain rfl := mem_singleton.mp hb
      exact (h.bounded side' a ha).trans_eq hn.symm
  · intro side' e he
    rcases heffect.pending_kept side' with hsub | heq
    · exact (h.bounded side' e (hsub.subset he)).trans (Nat.lt_succ_self n)
    · change e ∈ pending (correlateIncomingMessage _ _ _ _ _).state side' at he
      rw [heq] at he
      rcases mem_append.mp he with he | he
      · exact (h.bounded side' e he).trans (Nat.lt_succ_self n)
      · obtain rfl := mem_singleton.mp he
        exact hn ▸ Nat.lt_succ_self _
  · intro p hp
    rcases mem_append.mp hp with hp | hp
    · exact h.lawful p hp
    · exact heffect.lawful h.ordered p hp

theorem Kept.foldl (h : Kept base n x) (side : CorrelatorSide)
    (matchPolicy : CorrelatorMatchPolicy) (now : Timestamp) (is : List (Incoming (Arrival ν)))
    (hn : ∀ j i, is[j]? = some i → i.message.number = n + j) :
    Kept (base ++ is.map fun i => (side, ⟨now, i.message⟩)) (n + is.length)
      (is.foldl (Correlator.executeMessage side matchPolicy now) x) := by
  induction is generalizing base n x with
  | nil => simpa using h
  | cons i is ih =>
    have hstep := h.executeMessage side matchPolicy now i (by simpa using hn 0 i rfl)
    have hrest := ih hstep fun j i' hj => by
      have := hn (j + 1) i' (by simpa using hj)
      omega
    simpa [Nat.add_assoc, Nat.add_comm 1] using hrest

structure KeptOutcome (state : CorrelatorBranchState (Arrival ν)) (i : Input (Arrival ν)) (n : Nat)
    (o : Outcome (Arrival ν)) : Prop where
  perm : (placed o.state ++ (o.emitted.flatMap pairMessages ++ o.acknowledged ++
    o.failures.flatMap CorrelatorFailure.messages)).Perm (placed state ++ i.entering)
  ordered : ∀ side, (pending o.state side).Pairwise fun a b => number a < number b
  bounded : ∀ side, ∀ e ∈ pending o.state side, number e < n + i.messages.length
  lawful : ∀ p ∈ o.pairings, p.Lawful
  emitted : ∀ pair ∈ o.emitted, ∃ p ∈ o.pairings, p.correlation = pair

theorem executeInput_kept (hordered : ∀ side, (pending state side).Pairwise fun a b => number a < number b)
    (hbounded : ∀ side, ∀ e ∈ pending state side, number e < n)
    (hn : ∀ j x, i.messages[j]? = some x → x.message.number = n + j) :
    KeptOutcome state i n (executeInput state i) := by
  rw [executeInput]
  split
  case h_1 error hprepared =>
    refine ⟨?_, hordered, fun side e he => ?_, nofun, nofun⟩
    · simp [Input.entering]
    · exact (hbounded side e he).trans_le (Nat.le_add_right _ _)
  case h_2 =>
    have hstart : Kept (placed state) n { state } :=
      ⟨by simp [settled], hordered, hbounded, nofun⟩
    have hkept := hstart.foldl i.side i.matchPolicy i.executionNow i.messages hn
    simp only
    generalize i.messages.foldl (executeMessage i.side i.matchPolicy i.executionNow) { state } = x
      at hkept
    have hperm := hkept.perm
    split
    case isTrue hempty =>
      rw [List.isEmpty_iff] at hempty
      refine ⟨?_, hkept.ordered, hkept.bounded, hkept.lawful, nofun⟩
      simpa [settled, hempty, Input.entering] using hperm
    case isFalse =>
      split
      case h_1 error _ =>
        refine ⟨?_, hkept.ordered, hkept.bounded, hkept.lawful, nofun⟩
        refine .trans ?_ hperm
        classical
        rw [perm_iff_count]
        intro a
        simp only [settled, flatMap_nil, nil_append, flatMap_append,
          flatMap_cons, append_nil, count_append]
        omega
      case h_2 =>
        refine ⟨hperm, hkept.ordered, hkept.bounded, hkept.lawful, ?_⟩
        intro pair hpair
        obtain ⟨p, hp, rfl⟩ := mem_map.mp hpair
        exact ⟨p, hp, rfl⟩

theorem numbered_message {i : Input ν}
    (h : (i.numbered n).messages[j]? = some x) : x.message.number = n + j := by
  simp only [Input.numbered, getElem?_map, getElem?_zipIdx, Option.map_map,
    Option.map_eq_some_iff] at h
  obtain ⟨y, -, rfl⟩ := h
  rfl

theorem tick_perm (state : CorrelatorBranchState ν) (now : Timestamp) (maxTime : Nat) :
    (placed (tick state now maxTime).2 ++ (tick state now maxTime).1).Perm (placed state) := by
  have hside (side : CorrelatorSide) (l : List (CorrelatorPendingMessage ν)) :
      ((expire now maxTime l).2.map (fun e => (side, e)) ++
        (expire now maxTime l).1.map fun e => (side, e)).Perm (l.map fun e => (side, e)) := by
    rw [expire, partition_eq_filter_filter, ← map_append]
    exact (perm_append_comm.trans (filter_append_perm _ l)).map _
  have hleft := hside .left state.pendingLeft
  have hright := hside .right state.pendingRight
  classical
  rw [perm_iff_count] at hleft hright ⊢
  intro a
  have hl := hleft a
  have hr := hright a
  simp only [tick, placed, count_append] at hl hr ⊢
  omega

theorem pending_tick (state : CorrelatorBranchState ν) (now : Timestamp) (maxTime : Nat)
    (side : CorrelatorSide) : pending (tick state now maxTime).2 side =
      (pending state side).filter fun e =>
        !decide (checkedAddDurationToTimestamp e.receivedAt maxTime ≤ now) := by
  cases side <;> simp only [tick, pending, expire, partition_eq_filter_filter] <;> rfl

theorem timedOut_tick (h : x ∈ (tick state now maxTime).1) :
    checkedAddDurationToTimestamp x.2.receivedAt maxTime ≤ now := by
  simp only [tick, expire, partition_eq_filter_filter, mem_append, mem_map, mem_filter] at h
  rcases h with ⟨e, ⟨-, he⟩, rfl⟩ | ⟨e, ⟨-, he⟩, rfl⟩
  · exact of_decide_eq_true he
  · exact of_decide_eq_true he

structure Moment.Sound (m : Moment ν) : Prop where
  perm : m.places.Perm m.entered
  numbers : m.entered.map (fun e => number e.2) = List.range m.entered.length
  ordered : ∀ side, (pending m.state side).Pairwise fun a b => number a < number b
  bounded : ∀ side, ∀ e ∈ pending m.state side, number e < m.entered.length
  lawful : ∀ p ∈ m.pairings, p.Lawful
  emitted : ∀ pair ∈ m.emitted, ∃ p ∈ m.pairings, p.correlation = pair
  timedOut : ∀ t ∈ m.timedOut, checkedAddDurationToTimestamp t.entry.receivedAt t.maxTime ≤ t.now

theorem Moment.Sound.input {m : Moment ν} (h : m.Sound) (i : Input ν) :
    (m.next (.input i)).Sound := by
  have hkept : KeptOutcome m.state (i.numbered m.entered.length) m.entered.length
      (executeInput m.state (i.numbered m.entered.length)) :=
    executeInput_kept h.ordered h.bounded fun j x hx => numbered_message hx
  have hlength : (m.entered ++ (i.numbered m.entered.length).entering).length =
      m.entered.length + (i.numbered m.entered.length).messages.length := by
    simp [Input.entering]
  refine ⟨?_, ?_, hkept.ordered, ?_, ?_, ?_, h.timedOut⟩
  · refine .trans ?_ (h.perm.append_right _)
    have hperm := hkept.perm
    classical
    rw [perm_iff_count] at hperm ⊢
    intro a
    have ha := hperm a
    simp only [places, Moment.next, count_append, flatMap_append] at ha ⊢
    omega
  · change (m.entered ++ _).map _ = List.range (m.entered ++ _).length
    rw [hlength, map_append, h.numbers, range_add]
    congr 1
    refine ext_getElem? fun j => ?_
    rw [getElem?_map, Input.entering, getElem?_map, getElem?_map]
    by_cases hj : j < i.messages.length
    · simp [Input.numbered, hj]
    · simp [Input.numbered, hj]
  · intro side e he
    exact hlength ▸ hkept.bounded side e he
  · intro p hp
    rcases mem_append.mp hp with hp | hp
    · exact h.lawful p hp
    · exact hkept.lawful p hp
  · intro pair hpair
    rcases mem_append.mp hpair with hpair | hpair
    · obtain ⟨p, hp, heq⟩ := h.emitted pair hpair
      exact ⟨p, mem_append_left _ hp, heq⟩
    · obtain ⟨p, hp, heq⟩ := hkept.emitted pair hpair
      exact ⟨p, mem_append_right _ hp, heq⟩

theorem Moment.Sound.tick {m : Moment ν} (h : m.Sound) (now : Timestamp) (maxTime : Nat) :
    (m.next (.tick now maxTime)).Sound := by
  have hpending (side : CorrelatorSide) :
      (pending (m.next (.tick now maxTime)).state side).Sublist (pending m.state side) := by
    change (pending (Correlator.tick m.state now maxTime).2 side).Sublist _
    rw [pending_tick]
    exact filter_sublist
  refine ⟨?_, h.numbers, fun side => (h.ordered side).sublist (hpending side),
    fun side e he => h.bounded side e ((hpending side).subset he), h.lawful, h.emitted, ?_⟩
  · refine .trans ?_ h.perm
    have hperm := tick_perm m.state now maxTime
    classical
    rw [perm_iff_count] at hperm ⊢
    intro a
    have ha := hperm a
    simp only [places, Moment.next, count_append, map_append, map_map,
      Function.comp_def, Prod.mk.eta, map_id'] at ha ⊢
    omega
  · intro t ht
    rcases mem_append.mp ht with ht | ht
    · exact h.timedOut t ht
    · obtain ⟨x, hx, rfl⟩ := mem_map.mp ht
      exact timedOut_tick hx

def matchedTwice : List (Action String) :=
  [.input ⟨.left, .earliest, 0, [⟨"a", .ok []⟩, ⟨"b", .ok []⟩], .ok (), .ok ()⟩,
   .input ⟨.right, .earliest, 1, [⟨"c", .ok [0, 1]⟩], .ok (), .ok ()⟩]

end Correlator

end Nervix.Processors
