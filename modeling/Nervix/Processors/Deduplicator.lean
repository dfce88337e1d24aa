import Nervix.Processors.Keyspace
import Nervix.Processors.RelayBatch

/-!
# Deduplicator processing

What a deduplicator does with an input batch: it reserves the key of every row, acknowledges the
rows whose keys are taken as duplicates, and dispatches the other rows.
-/

namespace Nervix.Processors

open List

namespace Deduplicator

open DeduplicatorKeyspace

inductive RelayProcessorError
  | missingKeyProgram
  | keyInput
  | evaluateKey
  | deduplicatedBatch (error : RelayRecordBatchError)

structure Input (β ρ μ α : Type) where
  batch : RelayRecordBatch β ρ μ α
  keys : Except RelayProcessorError (Nat → DeduplicatorKey)
  executionNow : Timestamp
  maxTime : Nat
  kernels : ArrowKernels ρ
  dispatchProcessorOutputs : Option (List α)

structure Reservation where
  keyspace : DeduplicatorKeyspace
  dedupKeys : List DeduplicatorKey := []
  forwardedRows : List Nat := []
  duplicates : List Nat := []

def reserveRow (key : Nat → DeduplicatorKey) (executionNow : Timestamp) (maxTime : Nat)
    (r : Reservation) (row : Nat) : Reservation :=
  let reserved := r.keyspace.reserveNewKey (key row) executionNow maxTime
  if reserved.2 then
    { keyspace := reserved.1
      dedupKeys := r.dedupKeys ++ [key row]
      forwardedRows := r.forwardedRows ++ [row]
      duplicates := r.duplicates }
  else { r with keyspace := reserved.1, duplicates := r.duplicates ++ [row] }

def reserveRows (key : Nat → DeduplicatorKey) (executionNow : Timestamp) (maxTime : Nat)
    (keyspace : DeduplicatorKeyspace) (rows : List Nat) : Reservation :=
  rows.foldl (reserveRow key executionNow maxTime) { keyspace }

structure Outcome (β ρ μ α : Type) where
  keyspace : DeduplicatorKeyspace
  duplicates : List Nat := []
  forwarded : Option (RelayRecordBatch β ρ μ α) := none
  dispatched : List Nat := []
  acknowledged : List α := []
  reported : Option (RelayProcessorError × List α) := none

variable {β ρ μ α : Type}

def executeInput (keyspace : DeduplicatorKeyspace) (input : Input β ρ μ α) : Outcome β ρ μ α :=
  match input.keys with
  | .error error => { keyspace, reported := some (error, input.batch.acks) }
  | .ok key =>
    let r := reserveRows key input.executionNow input.maxTime keyspace
      (List.range input.batch.acks.length)
    let acknowledged := takeRows input.batch.acks r.duplicates
    if r.forwardedRows.isEmpty then
      { keyspace := r.keyspace, duplicates := r.duplicates, acknowledged }
    else
      match input.batch.take input.kernels r.forwardedRows with
      | .error (error, preserved) =>
        { keyspace := r.keyspace, duplicates := r.duplicates, acknowledged
          reported := some (.deduplicatedBatch error, preserved) }
      | .ok forwarded =>
        match input.dispatchProcessorOutputs with
        | none =>
          { keyspace := r.keyspace.removeReservedKeys r.dedupKeys
            duplicates := r.duplicates, forwarded := some forwarded, acknowledged }
        | some dispatchedAcks =>
          { keyspace := r.keyspace, duplicates := r.duplicates, forwarded := some forwarded
            dispatched := r.forwardedRows, acknowledged := acknowledged ++ dispatchedAcks }

structure Reserved (key : Nat → DeduplicatorKey) (now : Timestamp) (maxTime : Nat)
    (k : DeduplicatorKeyspace) (rows : List Nat) (r : Reservation) : Prop where
  timely : Timely r.keyspace.recentKeys.entries now
  published : r.keyspace.published = k.published
  keys : r.dedupKeys = r.forwardedRows.map key
  forwarded : r.forwardedRows.Sublist rows
  duplicateRows : ∀ row ∈ r.duplicates, row ∈ rows
  held : ∀ e ∈ r.keyspace.recentKeys.entries,
    e ∈ k.recentKeys.entries ∨ ∃ row ∈ r.forwardedRows, e = (key row, now)
  duplicate : ∀ row ∈ r.duplicates,
    (∃ e ∈ k.recentKeys.entries, (e.1 == key row) = true ∧
      now < checkedAddDurationToTimestamp e.2 maxTime) ∨
    ∃ row' ∈ r.forwardedRows, row' < row ∧ (key row' == key row) = true ∧
      now < checkedAddDurationToTimestamp now maxTime

variable {key : Nat → DeduplicatorKey} {now : Timestamp} {maxTime : Nat}
  {k : DeduplicatorKeyspace} {rows : List Nat} {r : Reservation}

theorem Reserved.reserveRow (h : Reserved key now maxTime k rows r) (hrow : ∀ r ∈ rows, r < row) :
    Reserved key now maxTime k (rows ++ [row]) (reserveRow key now maxTime r row) := by
  have hmem {x : Nat} (hx : x ∈ rows) : x ∈ rows ++ [row] := mem_append_left _ hx
  have halive : Timely (alive r.keyspace.recentKeys.entries now maxTime) now :=
    h.timely.sublist filter_sublist
  rcases reserveNewKey_cases h.timely (key row) now maxTime with
    ⟨hany, hfalse, hg, he⟩ | ⟨-, htrue, hg, he⟩
  · have hr : Deduplicator.reserveRow key now maxTime r row =
        { r with
          keyspace := (r.keyspace.reserveNewKey (key row) now maxTime).1
          duplicates := r.duplicates ++ [row] } := by
      simp [Deduplicator.reserveRow, hfalse]
    rw [hr]
    have hp := published_eq_of_value (congrArg PublishedGenerations.value hg)
    refine ⟨he ▸ halive, hp.trans h.published, h.keys,
      h.forwarded.trans (sublist_append_left rows [row]), ?_, ?_, ?_⟩
    · intro x hx
      rcases mem_append.mp hx with hx | hx
      · exact hmem (h.duplicateRows x hx)
      · exact mem_append_right _ hx
    · intro e hmem'
      exact h.held e (mem_alive.mp (he ▸ hmem')).1
    · intro x hx
      rcases mem_append.mp hx with hx | hx
      · exact h.duplicate x hx
      · obtain rfl := mem_singleton.mp hx
        obtain ⟨e, hmem', hk⟩ := any_eq_true.mp hany
        obtain ⟨hheld, hlt⟩ := mem_alive.mp hmem'
        rcases h.held e hheld with hold | ⟨row', hrow', rfl⟩
        · exact .inl ⟨e, hold, hk, hlt⟩
        · exact .inr ⟨row', hrow', hrow row' (h.forwarded.subset hrow'), hk, hlt⟩
  · have hr : Deduplicator.reserveRow key now maxTime r row =
        { keyspace := (r.keyspace.reserveNewKey (key row) now maxTime).1
          dedupKeys := r.dedupKeys ++ [key row]
          forwardedRows := r.forwardedRows ++ [row]
          duplicates := r.duplicates } := by
      simp [Deduplicator.reserveRow, htrue]
    rw [hr]
    have hp := published_eq_of_value
      ((congrArg PublishedGenerations.value hg).trans (rfl : _ = r.keyspace.generations.value))
    refine ⟨he ▸ halive.concat (key row), hp.trans h.published, by simp [h.keys],
      h.forwarded.append (.refl _), fun x hx => hmem (h.duplicateRows x hx), ?_, ?_⟩
    · intro e hmem'
      rw [he] at hmem'
      rcases mem_append.mp hmem' with hmem' | hmem'
      · rcases h.held e (mem_alive.mp hmem').1 with hold | ⟨row', hrow', heq⟩
        · exact .inl hold
        · exact .inr ⟨row', mem_append_left _ hrow', heq⟩
      · obtain rfl := mem_singleton.mp hmem'
        exact .inr ⟨row, mem_append_right _ (mem_singleton_self row), rfl⟩
    · intro x hx
      rcases h.duplicate x hx with hold | ⟨row', hrow', hdup⟩
      · exact .inl hold
      · exact .inr ⟨row', mem_append_left _ hrow', hdup⟩

theorem reserved_reserveRows (ht : Timely k.recentKeys.entries now)
    (key : Nat → DeduplicatorKey) (maxTime n : Nat) :
    Reserved key now maxTime k (List.range n)
      (reserveRows key now maxTime k (List.range n)) := by
  induction n with
  | zero => exact ⟨ht, rfl, rfl, .refl _, nofun, fun e he => .inl he, nofun⟩
  | succ n ih =>
    rw [range_succ, reserveRows, foldl_append]
    exact ih.reserveRow fun x hx => mem_range.mp hx

structure Processed where
  executionNow : Timestamp
  maxTime : Nat
  key : Nat → DeduplicatorKey
  duplicates : List Nat
  dispatched : List Nat

def processed (k : DeduplicatorKeyspace) (i : Input β ρ μ α) : Processed where
  executionNow := i.executionNow
  maxTime := i.maxTime
  key := i.keys.toOption.getD fun _ => ⟨[]⟩
  duplicates := (executeInput k i).duplicates
  dispatched := (executeInput k i).dispatched

inductive Action (β ρ μ α : Type)
  | input (i : Input β ρ μ α)
  | publish
  | rebuild
  | restore (archive : SnapshotArchive)

structure Moment where
  keyspace : DeduplicatorKeyspace
  now : Timestamp
  history : List Processed

def Moment.start (now : Timestamp) : Moment := ⟨.empty, now, []⟩

def Moment.next (m : Moment) : Action β ρ μ α → Moment
  | .input i => ⟨(executeInput m.keyspace i).keyspace, i.executionNow,
      processed m.keyspace i :: m.history⟩
  | .publish => { m with keyspace := m.keyspace.publish }
  | .rebuild => { m with keyspace := m.keyspace.rebuild }
  | .restore archive =>
    { m with keyspace := (m.keyspace.restore archive).toOption.getD m.keyspace }

def deduplicators (β ρ μ α : Type) : System Moment (Action β ρ μ α) where
  guard m
    | .restore archive => ∃ k, m.keyspace.restore archive = .ok k
    | _ => True
  next := Moment.next

def Processed.Covers (p : Processed) (key : DeduplicatorKey) (now : Timestamp) (maxTime : Nat)
    (row : Nat) : Prop :=
  (p.key row == key) = true ∧ now < checkedAddDurationToTimestamp p.executionNow maxTime

instance (p : Processed) (key : DeduplicatorKey) (now : Timestamp) (maxTime row : Nat) :
    Decidable (p.Covers key now maxTime row) := inferInstanceAs (Decidable (_ ∧ _))

def OnlyDispatched : List Processed → Prop
  | [] => True
  | p :: before =>
    (∀ row ∈ p.duplicates,
      (∃ row' ∈ p.dispatched, row' < row ∧ p.Covers (p.key row) p.executionNow p.maxTime row') ∨
      ∃ q ∈ before, ∃ row' ∈ q.dispatched, q.Covers (p.key row) p.executionNow p.maxTime row') ∧
    OnlyDispatched before

instance OnlyDispatched.decidable : DecidablePred OnlyDispatched
  | [] => .isTrue trivial
  | _ :: before =>
    let : Decidable (OnlyDispatched before) := OnlyDispatched.decidable before
    inferInstanceAs (Decidable (_ ∧ _))

def SelectsRows (i : Input β ρ μ α) : Prop :=
  i.batch.SidecarsMatch ∧ ∀ rows, rows.Sublist (List.range i.batch.batch.length) →
    i.kernels.take i.batch.batch rows ≠ none

def NewKeysDistinct (k : DeduplicatorKeyspace) (i : Input β ρ μ α) : Prop :=
  ∀ key, i.keys = .ok key → ∀ row < i.batch.acks.length, ∀ row' < row,
    (key row' == key row) = true →
      ∃ e ∈ k.recentKeys.entries, (e.1 == key row) = true ∧
        i.executionNow < checkedAddDurationToTimestamp e.2 i.maxTime

def Handled (m : Moment) : Action β ρ μ α → Prop
  | .input i => m.now ≤ i.executionNow ∧ SelectsRows i ∧
      (i.dispatchProcessorOutputs = none → NewKeysDistinct m.keyspace i)
  | _ => True

def Backed (history : List Processed) (e : DeduplicatorKey × Timestamp) : Prop :=
  ∃ p ∈ history, ∃ row ∈ p.dispatched, e = (p.key row, p.executionNow)

structure Moment.Sound (m : Moment) : Prop where
  timely : Timely m.keyspace.recentKeys.entries m.now
  timelyPublished : Timely m.keyspace.published m.now
  distinct : m.keyspace.published.Pairwise fun a b => (a.1 == b.1) = false
  backed : ∀ e ∈ m.keyspace.recentKeys.entries, Backed m.history e
  backedPublished : ∀ e ∈ m.keyspace.published, Backed m.history e
  onlyDispatched : OnlyDispatched m.history

theorem take_forwarded (h : SelectsRows i) (hrows : rows.Sublist (List.range i.batch.acks.length)) :
    ∃ b, i.batch.take i.kernels rows = .ok b := by
  obtain ⟨hside, hkernel⟩ := h
  have hlen : i.batch.acks.length = i.batch.batch.length := hside.2.2
  rw [hlen] at hrows
  rw [RelayRecordBatch.take, if_pos hside]
  split
  · exact ⟨_, rfl⟩
  · have hfind : (rows.find? fun row => i.batch.batch.length ≤ row) = none := by
      rw [find?_eq_none]
      intro row hrow
      simpa using hrows.subset hrow
    have hinc : notIncreasing rows = none :=
      notIncreasing_eq_none.mpr (pairwise_lt_range.sublist hrows)
    simp only [hfind, hinc]
    split
    · exact absurd ‹_› (hkernel rows hrows)
    · exact ⟨_, rfl⟩

theorem executeInput_cases (hkeys : i.keys = .ok key) (h : SelectsRows i)
    (ht : Timely k.recentKeys.entries i.executionNow) :
    let r := reserveRows key i.executionNow i.maxTime k (List.range i.batch.acks.length)
    let o := executeInput k i
    o.duplicates = r.duplicates ∧
      ((o.dispatched = r.forwardedRows ∧ o.keyspace = r.keyspace) ∨
       (i.dispatchProcessorOutputs = none ∧ o.dispatched = [] ∧
        o.keyspace = r.keyspace.removeReservedKeys r.dedupKeys)) := by
  intro r o
  have hr : Reserved key i.executionNow i.maxTime k (List.range i.batch.acks.length) r :=
    reserved_reserveRows ht _ _ _
  obtain ⟨b, hb⟩ := take_forwarded h hr.forwarded
  have ho : o = executeInput k i := rfl
  simp only [executeInput, hkeys] at ho
  split at ho
  case isTrue hempty => exact ⟨by rw [ho], .inl ⟨by rw [ho, isEmpty_iff.mp hempty], by rw [ho]⟩⟩
  case isFalse =>
    simp only [r] at hb
    simp only [hb] at ho
    split at ho
    case h_1 hnone => exact ⟨by rw [ho], .inr ⟨hnone, by rw [ho], by rw [ho]⟩⟩
    case h_2 => exact ⟨by rw [ho], .inl ⟨by rw [ho], by rw [ho]⟩⟩

theorem Backed.cons (h : Backed history e) (p : Processed) : Backed (p :: history) e := by
  obtain ⟨q, hq, row, hrow, he⟩ := h
  exact ⟨q, mem_cons_of_mem p hq, row, hrow, he⟩

theorem released (hm : m.Sound)
    (hok : Handled m (.input i)) (hnone : (executeInput m.keyspace i).dispatched = []) :
    ∀ e ∈ (executeInput m.keyspace i).keyspace.recentKeys.entries,
      e ∈ m.keyspace.recentKeys.entries := by
  obtain ⟨hnow, hselect, -⟩ := hok
  cases hkeys : i.keys with
  | error error =>
    intro e he
    simpa [executeInput, hkeys] using he
  | ok key =>
    have ht := hm.timely.mono hnow
    have hr := reserved_reserveRows ht key i.maxTime i.batch.acks.length
    obtain ⟨-, ⟨hd, hk⟩ | ⟨-, -, hk⟩⟩ := executeInput_cases hkeys hselect ht
    · rw [hk]
      intro e he
      rcases hr.held e he with hold | ⟨row, hrow, -⟩
      · exact hold
      · rw [← hd, hnone] at hrow
        cases hrow
    · rw [hk]
      intro e he
      rw [entries_removeReservedKeys, hr.keys] at he
      obtain ⟨hmem, hkept⟩ := mem_filter.mp he
      rcases hr.held e hmem with hold | ⟨row, hrow, rfl⟩
      · exact hold
      · have hin : ((reserveRows key i.executionNow i.maxTime m.keyspace
            (List.range i.batch.acks.length)).forwardedRows.map key).any
            (fun key' => key row == key') = true :=
          any_eq_true.mpr ⟨key row, mem_map_of_mem hrow, BEq.rfl⟩
        simp [hin] at hkept

theorem Moment.Sound.input (h : m.Sound)
    (hok : Handled m (.input i)) : (m.next (.input i)).Sound := by
  have hrelease := released h hok
  obtain ⟨hnow, hselect, hdistinct⟩ := hok
  have ht := h.timely.mono hnow
  cases hkeys : i.keys with
  | error error =>
    have hexec : executeInput m.keyspace i =
        { keyspace := m.keyspace, reported := some (error, i.batch.acks) } := by
      simp [executeInput, hkeys]
    have hk : (m.next (.input i)).keyspace = m.keyspace := congrArg Outcome.keyspace hexec
    refine ⟨?_, ?_, ?_, ?_, ?_, ?_⟩
    · exact hk ▸ ht
    · exact hk ▸ h.timelyPublished.mono hnow
    · exact hk ▸ h.distinct
    · exact fun e he => (h.backed e (hk ▸ he)).cons _
    · exact fun e he => (h.backedPublished e (hk ▸ he)).cons _
    · refine ⟨fun row hrow => ?_, h.onlyDispatched⟩
      simp [processed, hexec] at hrow
  | ok key =>
    have hr := reserved_reserveRows ht key i.maxTime i.batch.acks.length
    have hkey : (processed m.keyspace i).key = key := by simp [processed, hkeys, Except.toOption]
    have hold : ∀ row ∈ (executeInput m.keyspace i).duplicates,
        (∃ e ∈ m.keyspace.recentKeys.entries, (e.1 == key row) = true ∧
          i.executionNow < checkedAddDurationToTimestamp e.2 i.maxTime) →
        ∃ q ∈ m.history, ∃ row' ∈ q.dispatched,
          q.Covers (key row) i.executionNow i.maxTime row' := by
      rintro row - ⟨e, he, hbeq, hlt⟩
      obtain ⟨q, hq, row', hrow', rfl⟩ := h.backed e he
      exact ⟨q, hq, row', hrow', hbeq, hlt⟩
    obtain ⟨hdup, hcases⟩ := executeInput_cases hkeys hselect ht
    have hpublished : (executeInput m.keyspace i).keyspace.published = m.keyspace.published := by
      rcases hcases with ⟨-, hk⟩ | ⟨-, -, hk⟩
      · rw [hk, hr.published]
      · rw [hk, ← hr.published]
        refine published_eq_of_value ?_
        rw [removeReservedKeys]
        split <;> rfl
    have htimely : Timely (executeInput m.keyspace i).keyspace.recentKeys.entries
        i.executionNow := by
      rcases hcases with ⟨-, hk⟩ | ⟨-, -, hk⟩
      · exact hk ▸ hr.timely
      · rw [hk, entries_removeReservedKeys]
        exact hr.timely.sublist filter_sublist
    refine ⟨htimely, ?_, ?_, ?_, ?_, ?_, h.onlyDispatched⟩
    · exact hpublished ▸ h.timelyPublished.mono hnow
    · exact hpublished ▸ h.distinct
    · intro e he
      rcases hcases with ⟨hd, hk⟩ | ⟨-, hd, -⟩
      · change e ∈ (executeInput m.keyspace i).keyspace.recentKeys.entries at he
        rw [hk] at he
        rcases hr.held e he with hmem | ⟨row, hrow, rfl⟩
        · exact (h.backed e hmem).cons _
        · refine ⟨_, mem_cons_self, row, ?_, by rw [hkey]; rfl⟩
          rw [← hd] at hrow
          exact hrow
      · exact (h.backed e (hrelease hd e he)).cons _
    · exact fun e he => (h.backedPublished e (hpublished ▸ he)).cons _
    · intro row hrow
      rw [hkey]
      rcases hr.duplicate row (hdup ▸ hrow) with he | ⟨row', hrow', hlt, hbeq, htime⟩
      · exact .inr (hold row hrow he)
      · rcases hcases with ⟨hd, -⟩ | ⟨hfail, -⟩
        · rw [← hd] at hrow'
          refine .inl ⟨row', hrow', hlt, ?_, htime⟩
          rw [hkey]
          exact hbeq
        · have hrange := mem_range.mp (hr.duplicateRows row (hdup ▸ hrow))
          exact .inr (hold row hrow (hdistinct hfail key hkeys row hrange row' hlt hbeq))

theorem Moment.Sound.next (h : m.Sound)
    (hg : ((deduplicators β ρ μ α).restrict Handled).guard m a) : (m.next a).Sound := by
  cases a with
  | input i => exact h.input hg.2
  | publish =>
    have he : m.keyspace.publish.recentKeys = m.keyspace.recentKeys := by
      rw [publish]
      split <;> rfl
    have hp : m.keyspace.publish.published = m.keyspace.recentKeys.entries ∨
        m.keyspace.publish.published = m.keyspace.published := by
      rw [publish]
      split
      · exact .inl (map_publishedKeys _)
      · exact .inr rfl
    refine ⟨?_, ?_, ?_, ?_, ?_, h.onlyDispatched⟩
    · exact he ▸ h.timely
    · rcases hp with hp | hp
      · exact hp ▸ h.timely
      · exact hp ▸ h.timelyPublished
    · rcases hp with hp | hp
      · exact hp ▸ m.keyspace.recentKeys.distinct
      · exact hp ▸ h.distinct
    · exact fun e hmem => h.backed e (he ▸ hmem)
    · rcases hp with hp | hp
      · exact fun e hmem => h.backed e (hp ▸ hmem)
      · exact fun e hmem => h.backedPublished e (hp ▸ hmem)
  | rebuild =>
    have he := entries_rebuild h.distinct
    exact ⟨he ▸ h.timelyPublished, h.timelyPublished, h.distinct,
      fun e hmem => h.backedPublished e (he ▸ hmem), h.backedPublished, h.onlyDispatched⟩
  | restore archive =>
    rcases restore_cases archive h.distinct with ⟨-, herr⟩ | ⟨k, hk, -, hp, he⟩
    · obtain ⟨⟨k, hk⟩, -⟩ := hg
      rw [herr] at hk
      cases hk
    · have hm : m.next (.restore archive : Action β ρ μ α) = { m with keyspace := k } := by
        simp [Moment.next, hk, Except.toOption]
      rw [hm]
      exact ⟨he ▸ h.timelyPublished, hp ▸ h.timelyPublished, hp ▸ h.distinct,
        fun e hmem => h.backedPublished e (he ▸ hmem),
        fun e hmem => h.backedPublished e (hp ▸ hmem), h.onlyDispatched⟩

/-- **Only dispatched rows suppress others.** In every run in which the batches are handled as they
should be, a row acknowledged as a duplicate repeats an earlier row that was dispatched within the
time of its reservation, and a batch none of whose rows is dispatched leaves none of its keys
behind. -/
theorem onlyDispatched_of_run {start : Timestamp} {m : Moment}
    (hrun : ((deduplicators β ρ μ α).restrict Handled).Run (.start start) m) :
    OnlyDispatched m.history ∧
      ∀ i : Input β ρ μ α, Handled m (.input i) →
        (executeInput m.keyspace i).dispatched = [] →
          ∀ e ∈ (executeInput m.keyspace i).keyspace.recentKeys.entries,
            e ∈ m.keyspace.recentKeys.entries := by
  have hsound : m.Sound :=
    hrun.inv ⟨⟨.nil, nofun⟩, ⟨.nil, nofun⟩, .nil, nofun, nofun, trivial⟩ fun hm hg => hm.next hg
  exact ⟨hsound.onlyDispatched, fun i => released hsound⟩

def delivery (keys : List Nat) (executionNow : Timestamp) (kernels : ArrowKernels Nat)
    (dispatched : Option (List Nat)) : Action Unit Nat Unit Nat :=
  .input {
    batch := ⟨none, keys.map fun _ => none, keys, keys.map fun _ => (), keys⟩
    keys := .ok fun row => ⟨[.uint64 (.ofNat (keys.getD row 0))]⟩
    executionNow := executionNow
    maxTime := 100
    kernels := kernels
    dispatchProcessorOutputs := dispatched }

/-- Key 1 is dispatched, comes again and is a duplicate. -/
theorem repeatedOnce_onlyDispatched :
    let actions := [delivery [1] 10 (.total Nat) (some [1]), delivery [1] 20 (.total Nat) none]
    OnlyDispatched (actions.foldl (deduplicators Unit Nat Unit Nat).next (.start 0)).history := by
  intro actions
  have hselect (keys : List Nat) (now : Timestamp) (dispatched : Option (List Nat)) :
      ∀ i, delivery keys now (.total Nat) dispatched = .input i → SelectsRows i := by
    rintro i hi
    cases hi
    exact ⟨by simp [RelayRecordBatch.SidecarsMatch], by simp [ArrowKernels.total]⟩
  have hfirst : ((deduplicators Unit Nat Unit Nat).restrict Handled).guard (.start 0)
      (delivery [1] 10 (.total Nat) (some [1])) :=
    ⟨trivial, by decide, hselect _ _ _ _ rfl, nofun⟩
  refine (onlyDispatched_of_run (.tail (.tail .refl hfirst)
    (i := delivery [1] 20 (.total Nat) none) ?_)).1
  refine ⟨trivial, by decide, hselect _ _ _ _ rfl, ?_⟩
  rintro - key - row hrow row' hlt
  have hrow : row < 1 := hrow
  omega

/-- When the row of key 2 cannot be selected, its key stays reserved, and the row is dropped as a
duplicate when it comes again. -/
theorem selection_failure_drops :
    ¬OnlyDispatched
      ([delivery [1] 10 (.total Nat) (some [1]), delivery [1, 2] 20 (.failing Nat) none,
        delivery [2] 30 (.total Nat) none].foldl
        (deduplicators Unit Nat Unit Nat).next (.start 0)).history := by
  decide

end Deduplicator

end Nervix.Processors
