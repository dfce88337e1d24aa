import Nervix.Theory.System
import Nervix.Processors.KeyParts
import Nervix.Processors.RelayBatch

/-!
# Reorderers

A reorderer branch buffers the batches of each output route with the ordering keys of their rows,
and flushes a buffer as one batch whose rows are sorted.
-/

namespace Nervix.Processors

open List

structure ReordererRowOrder where
  key : RowKey
  arrivalSequence : Nat

namespace Reorderer

structure ReordererPendingBatch (β ρ μ α : Type) where
  receivedAt : Timestamp
  rowOrder : List ReordererRowOrder
  batch : RelayRecordBatch β ρ μ α

inductive ReordererOutputBatchError
  | orderingKeyCount (arrowRows orderingKeys : Nat)
  | rowCountOverflow
  | empty
  | concatenate (error : RelayRecordBatchError)
  | reorder (error : RelayRecordBatchError)

structure ReordererOutputBuffer (β ρ μ α : Type) where
  pending : List (ReordererPendingBatch β ρ μ α) := []
  estimatedBytes : Nat := 0

def usizeMax : Nat := 2 ^ 64 - 1

def sortKey (row : ReordererRowOrder × Nat) : List (ℕ ×ₗ List ℤ) ×ₗ ℕ ×ₗ ℕ :=
  toLex (row.1.key.ordinal, toLex (row.1.arrivalSequence, row.2))

def orderingPermutation {β ρ μ α : Type} (pending : List (ReordererPendingBatch β ρ μ α)) :
    List Nat :=
  (((pending.flatMap ReordererPendingBatch.rowOrder).zipIdx).insertionSort
    fun a b => sortKey a ≤ sortKey b).map Prod.snd

namespace ReordererOutputBuffer

variable {β ρ μ α : Type} (estimatedBytes : List ρ → Nat) (kernels : ArrowKernels ρ)
  (buffer : ReordererOutputBuffer β ρ μ α)

def push (batch : RelayRecordBatch β ρ μ α) (rowOrder : List ReordererRowOrder)
    (receivedAt : Timestamp) : ReordererOutputBuffer β ρ μ α where
  pending := buffer.pending ++ [⟨receivedAt, rowOrder, batch⟩]
  estimatedBytes := buffer.estimatedBytes + estimatedBytes batch.batch

def isEmpty : Bool := buffer.pending.isEmpty

def firstReceivedAt : Option Timestamp := buffer.pending.head?.map ReordererPendingBatch.receivedAt

def acks : List α := buffer.pending.flatMap fun pending => pending.batch.acks

def clear (_ : ReordererOutputBuffer β ρ μ α) : ReordererOutputBuffer β ρ μ α where
  pending := []
  estimatedBytes := 0

def countRows (rowCount : Nat) :
    List (ReordererPendingBatch β ρ μ α) → Except ReordererOutputBatchError Nat
  | [] => .ok rowCount
  | buffered :: pending =>
    if buffered.rowOrder.length ≠ buffered.batch.batch.length then
      .error (.orderingKeyCount buffered.batch.batch.length buffered.rowOrder.length)
    else if usizeMax < rowCount + buffered.batch.batch.length then .error .rowCountOverflow
    else countRows (rowCount + buffered.batch.batch.length) pending

def takeOrderedBatch :
    Except (ReordererOutputBatchError × List (RelayRecordBatch β ρ μ α))
      (RelayRecordBatch β ρ μ α) :=
  let batches := buffer.pending.map ReordererPendingBatch.batch
  match countRows 0 buffer.pending with
  | .error error => .error (error, batches)
  | .ok rowCount =>
    if rowCount = 0 then .error (.empty, batches)
    else
      match RelayRecordBatch.concatPreserving kernels batches with
      | .error (error, preserved) => .error (.concatenate error, preserved)
      | .ok concatenated =>
        match concatenated.intoReordered kernels (orderingPermutation buffer.pending) with
        | .error (error, batch) => .error (.reorder error, [batch])
        | .ok ordered => .ok ordered

end ReordererOutputBuffer

structure Entry (β ρ μ α : Type) where
  order : ReordererRowOrder
  row : ρ × μ × Option β × α

variable {β ρ μ α : Type}

def Entry.ack (e : Entry β ρ μ α) : α := e.row.2.2.2

def ReordererPendingBatch.entries (p : ReordererPendingBatch β ρ μ α) : List (Entry β ρ μ α) :=
  (p.rowOrder.zip p.batch.rows).map fun e => ⟨e.1, e.2⟩

def ReordererOutputBuffer.entries (buffer : ReordererOutputBuffer β ρ μ α) : List (Entry β ρ μ α) :=
  buffer.pending.flatMap ReordererPendingBatch.entries

def ReordererPendingBatch.WellFormed (p : ReordererPendingBatch β ρ μ α) : Prop :=
  p.batch.SidecarsMatch ∧ p.rowOrder.length = p.batch.batch.length

def Ordered (es : List (Entry β ρ μ α)) : Prop :=
  es.Pairwise fun a b => a.order.key.ordinal < b.order.key.ordinal ∨
    a.order.key.ordinal = b.order.key.ordinal ∧ a.order.arrivalSequence ≤ b.order.arrivalSequence

theorem length_rows {b : RelayRecordBatch β ρ μ α} (h : b.SidecarsMatch) :
    b.rows.length = b.batch.length := by
  obtain ⟨hm, hk, ha⟩ := h
  simp [RelayRecordBatch.rows, hm, hk, ha]

theorem map_ack_rows {b : RelayRecordBatch β ρ μ α} (h : b.SidecarsMatch) :
    b.rows.map (fun row => row.2.2.2) = b.acks := by
  obtain ⟨hm, hk, ha⟩ := h
  have hzip : (b.rows.map Prod.snd).map (fun row => row.2.2) = b.acks := by
    rw [RelayRecordBatch.rows, map_snd_zip (by simp [hm, hk, ha])]
    have hinner : ((b.metadata.zip (b.keys.zip b.acks)).map Prod.snd).map Prod.snd = b.acks := by
      rw [map_snd_zip (by simp [hm, hk, ha]), map_snd_zip (by simp [hk, ha])]
    simpa [map_map, Function.comp_def] using hinner
  simpa [map_map, Function.comp_def] using hzip

section pending
open ReordererPendingBatch
variable {pending : List (ReordererPendingBatch β ρ μ α)}

section
variable (h : ∀ p ∈ pending, p.WellFormed)
include h

theorem map_order_entries :
    (pending.flatMap entries).map Entry.order =
      pending.flatMap rowOrder := by
  rw [map_flatMap]
  refine flatMap_congr fun p hp => ?_
  obtain ⟨hside, hlen⟩ := h p hp
  rw [entries, map_map]
  exact map_fst_zip (by rw [length_rows hside, hlen])

theorem map_row_entries :
    (pending.flatMap entries).map Entry.row =
      (pending.map batch).flatMap RelayRecordBatch.rows := by
  rw [map_flatMap, flatMap_map]
  refine flatMap_congr fun p hp => ?_
  obtain ⟨hside, hlen⟩ := h p hp
  rw [entries, map_map]
  exact map_snd_zip (by rw [length_rows hside, hlen])

theorem map_ack_entries :
    (pending.flatMap entries).map Entry.ack =
      (pending.map batch).flatMap RelayRecordBatch.acks := by
  have hack : (Entry.ack : Entry β ρ μ α → α) = (fun row => row.2.2.2) ∘ Entry.row := rfl
  rw [hack, ← map_map, map_row_entries h, map_flatMap]
  refine flatMap_congr fun b hb => ?_
  obtain ⟨p, hp, rfl⟩ := mem_map.mp hb
  exact map_ack_rows (h p hp).1

theorem ordered_takeRows :
    (orderingPermutation pending).Perm
        (List.range (pending.flatMap entries).length) ∧
      Ordered (takeRows (pending.flatMap entries)
        (orderingPermutation pending)) := by
  set es := pending.flatMap entries with hes
  have horder := map_order_entries h
  have hsorted := pairwise_insertionSort (fun a b => sortKey a ≤ sortKey b)
    (pending.flatMap rowOrder).zipIdx
  have hperm := perm_insertionSort (fun a b => sortKey a ≤ sortKey b)
    (pending.flatMap rowOrder).zipIdx
  constructor
  · refine (hperm.map Prod.snd).trans (.of_eq ?_)
    rw [zipIdx_map_snd, ← horder, length_map, range_eq_range']
  · rw [orderingPermutation, Ordered, takeRows, filterMap_map, pairwise_filterMap]
    refine hsorted.imp_of_mem fun {x y} hx hy hle a ha b hb => ?_
    have hentry : ∀ {x : ReordererRowOrder × Nat} {a : Entry β ρ μ α},
        x ∈ (pending.flatMap rowOrder).zipIdx → es[x.2]? = some a →
          a.order = x.1 := by
      intro x a hx ha
      have hget := mk_mem_zipIdx_iff_getElem?.mp hx
      rw [← horder, getElem?_map, ha] at hget
      exact Option.some.inj hget
    rw [hentry (hperm.mem_iff.mp hx) ha, hentry (hperm.mem_iff.mp hy) hb]
    rcases Prod.Lex.toLex_le_toLex.mp hle with hlt | ⟨heq, hle'⟩
    · exact .inl hlt
    · refine .inr ⟨heq, ?_⟩
      rcases Prod.Lex.toLex_le_toLex.mp hle' with hlt | ⟨heq', -⟩
      · exact le_of_lt hlt
      · exact le_of_eq heq'

end

end pending

theorem countRows_eq_ok (h : ReordererOutputBuffer.countRows rowCount pending = .ok total) :
    rowCount ≤ total ∧ (pending = [] → total = rowCount) := by
  induction pending generalizing rowCount with
  | nil =>
    obtain rfl := Except.ok.inj h
    exact ⟨le_refl _, fun _ => rfl⟩
  | cons p pending ih =>
    rw [ReordererOutputBuffer.countRows] at h
    split at h
    · cases h
    · split at h
      · cases h
      · exact ⟨(Nat.le_add_right _ _).trans (ih h).1, nofun⟩

theorem takeOrderedBatch_cases (kernels : ArrowKernels ρ)
    {buffer : ReordererOutputBuffer β ρ μ α} (h : ∀ p ∈ buffer.pending, p.WellFormed) :
    (∃ b es, buffer.takeOrderedBatch kernels = .ok b ∧ es.Perm buffer.entries ∧ Ordered es ∧
      b.SidecarsMatch ∧ b.rows = es.map Entry.row) ∨
    ∃ error batches, buffer.takeOrderedBatch kernels = .error (error, batches) ∧
      batches.flatMap RelayRecordBatch.acks = buffer.entries.map Entry.ack := by
  have hacks := map_ack_entries h
  rw [ReordererOutputBuffer.takeOrderedBatch]
  cases hcount : ReordererOutputBuffer.countRows 0 buffer.pending with
  | error error => exact .inr ⟨error, _, rfl, hacks.symm⟩
  | ok rowCount =>
    simp only
    split
    case isTrue => exact .inr ⟨_, _, rfl, hacks.symm⟩
    case isFalse hne =>
      have hpending : buffer.pending.map ReordererPendingBatch.batch ≠ [] := by
        rw [Ne, map_eq_nil_iff]
        exact fun hnil => hne ((countRows_eq_ok hcount).2 hnil)
      have hside : ∀ b ∈ buffer.pending.map ReordererPendingBatch.batch, b.SidecarsMatch := by
        intro b hb
        obtain ⟨p, hp, rfl⟩ := mem_map.mp hb
        exact (h p hp).1
      rcases RelayRecordBatch.concatPreserving_cases kernels hpending hside with
        ⟨b, hb, hmatch, hrows, hback⟩ | hfail
      · have hentries : b.rows = buffer.entries.map Entry.row := by
          rw [hrows, ← map_row_entries h]
          rfl
        have hlength : b.batch.length = buffer.entries.length := by
          rw [← length_rows hmatch, hentries, length_map]
        obtain ⟨hperm, hordered⟩ := ordered_takeRows h
        rcases b.intoReordered_cases kernels hmatch (hlength ▸ hperm) with
          ⟨b', hb', hmatch', hrows'⟩ | hfail
        · refine .inl ⟨b', takeRows buffer.entries (orderingPermutation buffer.pending), ?_,
            takeRows_perm hperm, hordered, hmatch', ?_⟩
          · simp only [hb, hb']
          · rw [hrows', hentries, takeRows_map]
        · refine .inr ⟨.reorder (.runtimeSchema .reorderRows), [b], ?_, ?_⟩
          · simp only [hb, hfail]
          · rw [flatMap_singleton, hback, ← hacks]
            rfl
      · refine .inr ⟨.concatenate (.runtimeSchema .concatenate), _, ?_, hacks.symm⟩
        simp only [hfail]

structure Output (β ρ μ α : Type) where
  entries : List (Entry β ρ μ α)
  batch : RelayRecordBatch β ρ μ α

structure Failure (β ρ μ α : Type) where
  entries : List (Entry β ρ μ α)
  acks : List α

structure Route (β ρ μ α : Type) where
  buffer : ReordererOutputBuffer β ρ μ α := {}
  pushed : List (Entry β ρ μ α) := []
  outputs : List (Output β ρ μ α) := []
  failures : List (Failure β ρ μ α) := []

namespace Route

variable (estimatedBytes : List ρ → Nat) (kernels : ArrowKernels ρ) (r : Route β ρ μ α)

def report : Route β ρ μ α :=
  { r with failures := r.failures ++ [⟨r.buffer.entries, r.buffer.acks⟩] }

def clear : Route β ρ μ α := { r with buffer := r.buffer.clear }

def receive (p : ReordererPendingBatch β ρ μ α) (schedule : Except Unit (Option Bool)) :
    Route β ρ μ α :=
  let r := { r with
    buffer := r.buffer.push estimatedBytes p.batch p.rowOrder p.receivedAt
    pushed := r.pushed ++ p.entries }
  match schedule with
  | .ok (some _) => r
  | .ok none => r.report.clear
  | .error _ => r.report.clear

def flushBranchReordererOutput : Route β ρ μ α :=
  if r.buffer.isEmpty then r
  else
    match r.buffer.takeOrderedBatch kernels with
    | .error (_, batches) => { r with
        buffer := r.buffer.clear
        failures := r.failures ++ [⟨r.buffer.entries, batches.flatMap RelayRecordBatch.acks⟩] }
    | .ok batch => { r with
        buffer := r.buffer.clear
        outputs := r.outputs ++ [⟨r.buffer.entries, batch⟩] }

end Route

inductive RelayProcessorError
  | missingKeyProgram
  | keyInput
  | evaluateKey
  | bufferClock

structure Input (β ρ μ α : Type) where
  batch : RelayRecordBatch β ρ μ α
  keys : Except RelayProcessorError (Nat → RowKey)
  clockReads : Bool
  executionNow : Timestamp
  schedule : Nat → Except Unit (Option Bool)
  kernels : Nat → ArrowKernels ρ

structure Tick (ρ : Type) where
  now : Timestamp
  maxTime : Nat
  flushDeadlineDue : Nat → Except Unit Bool
  kernels : Nat → ArrowKernels ρ

structure Branch (β ρ μ α : Type) where
  routes : List (Route β ρ μ α)
  arrivalSequence : Nat := 0
  rejected : List (RelayProcessorError × List α) := []

namespace Branch

variable (estimatedBytes : List ρ → Nat) (b : Branch β ρ μ α)

def rowOrdering (arrivalSequence rowCount : Nat) (key : Nat → RowKey) : List ReordererRowOrder :=
  (List.range rowCount).map fun row => ⟨key row, arrivalSequence + row⟩

def executeInput (i : Input β ρ μ α) : Branch β ρ μ α :=
  match i.keys with
  | .error error => { b with rejected := b.rejected ++ [(error, i.batch.acks)] }
  | .ok key =>
    let rowOrder := rowOrdering b.arrivalSequence i.batch.batch.length key
    let b := { b with arrivalSequence := b.arrivalSequence + i.batch.batch.length }
    if i.clockReads then
      let received := b.routes.mapIdx fun output r =>
        r.receive estimatedBytes ⟨i.executionNow, rowOrder, i.batch⟩ (i.schedule output)
      { b with
        routes := received.mapIdx fun output r =>
          match i.schedule output with
          | .ok (some true) => r.flushBranchReordererOutput (i.kernels output)
          | _ => r }
    else { b with rejected := b.rejected ++ [(.bufferClock, i.batch.acks)] }

def maxTimeDue (t : Tick ρ) (r : Route β ρ μ α) : Bool :=
  r.buffer.firstReceivedAt.any fun receivedAt =>
    decide (checkedAddDurationToTimestamp receivedAt t.maxTime ≤ t.now)

def inspect (t : Tick ρ) (output : Nat) (r : Route β ρ μ α) : Route β ρ μ α × Bool :=
  if r.buffer.isEmpty then (r, false)
  else
    match t.flushDeadlineDue output with
    | .error _ => (r.report, false)
    | .ok due => (r, maxTimeDue t r || due)

def tick (t : Tick ρ) : Branch β ρ μ α :=
  let inspected := b.routes.mapIdx (inspect t)
  { b with
    routes := inspected.mapIdx fun output r =>
      if r.2 then r.1.flushBranchReordererOutput (t.kernels output) else r.1 }

inductive Action (β ρ μ α : Type)
  | input (i : Input β ρ μ α)
  | tick (t : Tick ρ)

def reorderers : System (Branch β ρ μ α) (Action β ρ μ α) where
  guard _
    | .input i => i.batch.SidecarsMatch
    | .tick _ => True
  next b
    | .input i => b.executeInput estimatedBytes i
    | .tick t => b.tick t

def Inspectable (b : Branch β ρ μ α) : Action β ρ μ α → Prop
  | .input _ => True
  | .tick t => ∀ output r, b.routes[output]? = some r → r.buffer.isEmpty = false →
      ∃ due, t.flushDeadlineDue output = .ok due

end Branch

def Output.Lawful (o : Output β ρ μ α) : Prop :=
  ∃ es, es.Perm o.entries ∧ Ordered es ∧ o.batch.SidecarsMatch ∧ o.batch.rows = es.map Entry.row

structure Route.Sound (estimatedBytes : List ρ → Nat) (n : Nat) (r : Route β ρ μ α) : Prop where
  wellFormed : ∀ p ∈ r.buffer.pending, p.WellFormed
  perm : (r.buffer.entries ++ r.outputs.flatMap Output.entries ++
    r.failures.flatMap Failure.entries).Perm r.pushed
  nodup : (r.pushed.map fun e => e.order.arrivalSequence).Nodup
  bounded : ∀ e ∈ r.pushed, e.order.arrivalSequence < n
  bytes : r.buffer.estimatedBytes = (r.buffer.pending.map fun p => estimatedBytes p.batch.batch).sum
  outputs : ∀ o ∈ r.outputs, o.Lawful
  failures : ∀ f ∈ r.failures, f.acks = f.entries.map Entry.ack

namespace Route.Sound

variable {estimatedBytes : List ρ → Nat} {n : Nat} {r : Route β ρ μ α}

theorem start : ({} : Route β ρ μ α).Sound estimatedBytes n :=
  ⟨nofun, .refl _, .nil, nofun, rfl, nofun, nofun⟩

section
variable (h : r.Sound estimatedBytes n)
include h

theorem mono (hn : n ≤ n') : r.Sound estimatedBytes n' :=
  { h with bounded := fun e he => (h.bounded e he).trans_le hn }

theorem acks_eq : r.buffer.acks = r.buffer.entries.map Entry.ack := by
  refine Eq.trans ?_ (map_ack_entries h.wellFormed).symm
  rw [flatMap_map]
  rfl

theorem perm_failed (acks : List α) :
    (([] : List (Entry β ρ μ α)) ++ r.outputs.flatMap Output.entries ++
      (r.failures ++ [(⟨r.buffer.entries, acks⟩ : Failure β ρ μ α)]).flatMap Failure.entries).Perm
      r.pushed := by
  refine .trans ?_ h.perm
  simp only [flatMap_append, flatMap_cons, flatMap_nil, append_nil, nil_append, ← append_assoc]
  exact perm_append_comm.trans (.of_eq (append_assoc _ _ _).symm)

theorem report_clear : r.report.clear.Sound estimatedBytes n where
  wellFormed := nofun
  perm := h.perm_failed r.buffer.acks
  nodup := h.nodup
  bounded := h.bounded
  bytes := rfl
  outputs := h.outputs
  failures := by
    intro f hf
    rcases mem_append.mp hf with hf | hf
    · exact h.failures f hf
    · obtain rfl := mem_singleton.mp hf
      exact h.acks_eq

end

theorem push (h : r.Sound estimatedBytes n) {p : ReordererPendingBatch β ρ μ α}
    (hp : p.WellFormed) (hn : n ≤ n')
    (hnodup : (p.entries.map fun e => e.order.arrivalSequence).Nodup)
    (hrange : ∀ e ∈ p.entries, n ≤ e.order.arrivalSequence ∧ e.order.arrivalSequence < n') :
    ({ r with
      buffer := r.buffer.push estimatedBytes p.batch p.rowOrder p.receivedAt
      pushed := r.pushed ++ p.entries } : Route β ρ μ α).Sound estimatedBytes n' where
  wellFormed := by
    intro q hq
    rcases mem_append.mp hq with hq | hq
    · exact h.wellFormed q hq
    · obtain rfl := mem_singleton.mp hq
      exact hp
  perm := by
    refine .trans ?_ (h.perm.append_right _)
    classical
    rw [perm_iff_count]
    intro a
    have hentries : ReordererPendingBatch.entries ⟨p.receivedAt, p.rowOrder, p.batch⟩ =
      p.entries := rfl
    simp only [ReordererOutputBuffer.push, ReordererOutputBuffer.entries, flatMap_append,
      flatMap_cons, flatMap_nil, append_nil, count_append, hentries]
    omega
  nodup := by
    rw [map_append]
    refine nodup_append.mpr ⟨h.nodup, hnodup, ?_⟩
    intro a ha b hb heq
    obtain ⟨e, he, rfl⟩ := mem_map.mp ha
    obtain ⟨e', he', rfl⟩ := mem_map.mp hb
    have hlt := h.bounded e he
    have hle := (hrange e' he').1
    omega
  bounded := by
    intro e he
    rcases mem_append.mp he with he | he
    · exact (h.bounded e he).trans_le hn
    · exact (hrange e he).2
  bytes := by
    rw [ReordererOutputBuffer.push, map_append, sum_append, h.bytes]
    simp
  outputs := h.outputs
  failures := h.failures

theorem receive (h : r.Sound estimatedBytes n) {p : ReordererPendingBatch β ρ μ α}
    (hp : p.WellFormed) (hn : n ≤ n')
    (hnodup : (p.entries.map fun e => e.order.arrivalSequence).Nodup)
    (hrange : ∀ e ∈ p.entries, n ≤ e.order.arrivalSequence ∧ e.order.arrivalSequence < n')
    (schedule : Except Unit (Option Bool)) :
    (r.receive estimatedBytes p schedule).Sound estimatedBytes n' := by
  have hpush := h.push hp hn hnodup hrange
  match schedule with
  | .ok (some _) => exact hpush
  | .ok none => exact hpush.report_clear
  | .error _ => exact hpush.report_clear

theorem flush (h : r.Sound estimatedBytes n) (kernels : ArrowKernels ρ) :
    (r.flushBranchReordererOutput kernels).Sound estimatedBytes n := by
  rw [flushBranchReordererOutput]
  split
  case isTrue => exact h
  case isFalse =>
    rcases takeOrderedBatch_cases kernels h.wellFormed with
      ⟨b, es, hok, hperm, hordered, hside, hrows⟩ | ⟨error, batches, herror, hacks⟩
    · rw [hok]
      refine ⟨nofun, ?_, h.nodup, h.bounded, rfl, ?_, h.failures⟩
      · refine .trans ?_ h.perm
        classical
        rw [perm_iff_count]
        intro a
        simp only [ReordererOutputBuffer.clear, ReordererOutputBuffer.entries, flatMap_nil,
          flatMap_append, flatMap_cons, append_nil, count_append,
          count_nil]
        omega
      · intro o ho
        rcases mem_append.mp ho with ho | ho
        · exact h.outputs o ho
        · obtain rfl := mem_singleton.mp ho
          exact ⟨es, hperm, hordered, hside, hrows⟩
    · rw [herror]
      refine ⟨nofun, h.perm_failed _, h.nodup, h.bounded, rfl, h.outputs, ?_⟩
      intro f hf
      rcases mem_append.mp hf with hf | hf
      · exact h.failures f hf
      · obtain rfl := mem_singleton.mp hf
        exact hacks

end Route.Sound

namespace Branch

variable {estimatedBytes : List ρ → Nat}

def Sound (estimatedBytes : List ρ → Nat) (b : Branch β ρ μ α) : Prop :=
  ∀ r ∈ b.routes, r.Sound estimatedBytes b.arrivalSequence

theorem arrivals (hside : batch.SidecarsMatch)
    (receivedAt : Timestamp) (n : Nat) (key : Nat → RowKey) :
    let p : ReordererPendingBatch β ρ μ α :=
      ⟨receivedAt, rowOrdering n batch.batch.length key, batch⟩
    p.WellFormed ∧ (p.entries.map fun e => e.order.arrivalSequence).Nodup ∧
      ∀ e ∈ p.entries, n ≤ e.order.arrivalSequence ∧
        e.order.arrivalSequence < n + batch.batch.length := by
  intro p
  have hp : p.WellFormed := ⟨hside, by simp [p, rowOrdering]⟩
  have horders : p.entries.map Entry.order = p.rowOrder := by
    have hone : ∀ q ∈ [p], q.WellFormed := by simpa using hp
    simpa using map_order_entries hone
  have hsequences : p.entries.map (fun e => e.order.arrivalSequence) =
      (List.range batch.batch.length).map (n + ·) := by
    have hmap : p.entries.map (fun e => e.order.arrivalSequence) =
        (p.entries.map Entry.order).map ReordererRowOrder.arrivalSequence := by
      rw [map_map]
      rfl
    rw [hmap, horders]
    change (rowOrdering n batch.batch.length key).map _ = _
    rw [rowOrdering, map_map]
    rfl
  refine ⟨hp, ?_, ?_⟩
  · rw [hsequences]
    exact nodup_range.map fun a b hab => Nat.add_left_cancel hab
  · intro e he
    have hmem : e.order.arrivalSequence ∈ p.entries.map fun e => e.order.arrivalSequence :=
      mem_map_of_mem he
    rw [hsequences] at hmem
    obtain ⟨row, hrow, heq⟩ := mem_map.mp hmem
    have hlt := mem_range.mp hrow
    omega

theorem Sound.executeInput {b : Branch β ρ μ α} (h : b.Sound estimatedBytes)
    {i : Input β ρ μ α} (hside : i.batch.SidecarsMatch) :
    (b.executeInput estimatedBytes i).Sound estimatedBytes := by
  rw [Branch.executeInput]
  split
  case h_1 => exact h
  case h_2 key _ =>
    have hle := Nat.le_add_right b.arrivalSequence i.batch.batch.length
    simp only
    split
    case isTrue =>
      intro r hr
      obtain ⟨output, hout, rfl⟩ := mem_mapIdx.mp hr
      rw [getElem_mapIdx]
      have hold := h (b.routes.get ⟨output, by simpa using hout⟩) (get_mem _ _)
      obtain ⟨hp, hnodup, hrange⟩ := arrivals hside i.executionNow b.arrivalSequence key
      have hreceived := hold.receive hp hle hnodup hrange (i.schedule output)
      split
      · exact hreceived.flush _
      · exact hreceived
    case isFalse => exact fun r hr => (h r hr).mono hle

theorem Sound.tick (h : b.Sound estimatedBytes)
    (hok : Inspectable b (.tick t)) : (b.tick t).Sound estimatedBytes := by
  intro r hr
  obtain ⟨output, hout, rfl⟩ := mem_mapIdx.mp hr
  have hlt : output < b.routes.length := by simpa using hout
  rw [getElem_mapIdx]
  have hold := h (b.routes.get ⟨output, hlt⟩) (get_mem _ _)
  have hsame : (inspect t output (b.routes.get ⟨output, hlt⟩)).1 = b.routes.get ⟨output, hlt⟩ := by
    rw [inspect]
    split
    case isTrue => rfl
    case isFalse hne =>
      obtain ⟨due, hdue⟩ := hok output _ (getElem?_eq_getElem hlt) (by simpa using hne)
      rw [hdue]
  have hsound := hsame.symm ▸ hold
  split
  · exact hsound.flush _
  · exact hsound

/-- **Each buffered row leaves once.** In every run in which the flush deadlines of buffers that
hold rows can be inspected, for every route, the rows still buffered, the rows of the ordered
batches and the rows reported in failures are together the rows that entered, which are distinct;
every batch that went on is sorted by ordering key with equal keys in the order of arrival and has
every row with its own sidecars; every failure was reported to the acknowledgements of its rows; and
the byte estimate is that of the buffered batches. -/
theorem leaves_once {outputs : Nat} {b : Branch β ρ μ α}
    (hrun : ((reorderers estimatedBytes).restrict Inspectable).Run
      { routes := List.replicate outputs {} } b) :
    ∀ r ∈ b.routes,
      (r.buffer.entries ++ r.outputs.flatMap Output.entries ++
        r.failures.flatMap Failure.entries).Perm r.pushed ∧
      (r.pushed.map fun e => e.order.arrivalSequence).Nodup ∧
      (∀ o ∈ r.outputs, o.Lawful) ∧
      (∀ f ∈ r.failures, f.acks = f.entries.map Entry.ack) ∧
      r.buffer.estimatedBytes =
        (r.buffer.pending.map fun p => estimatedBytes p.batch.batch).sum := by
  have hsound : b.Sound estimatedBytes := by
    refine hrun.inv ?_ ?_
    · intro r hr
      obtain ⟨-, rfl⟩ := mem_replicate.mp hr
      exact .start
    · intro b a hb hg
      cases a with
      | input i => exact hb.executeInput hg.1
      | tick t => exact hb.tick hg.2
  exact fun r hr => ⟨(hsound r hr).perm, (hsound r hr).nodup, (hsound r hr).outputs,
    (hsound r hr).failures, (hsound r hr).bytes⟩

def buffered (keys : List Nat) (executionNow : Timestamp) : Action Unit Nat Unit Nat :=
  .input {
    batch := ⟨none, keys.map fun _ => none, keys, keys.map fun _ => (), keys⟩
    keys := .ok fun row => [.uint64 (.ofNat (keys.getD row 0))]
    clockReads := true
    executionNow := executionNow
    schedule := fun _ => .ok (some false)
    kernels := fun _ => .total Nat }

def ticked (now : Timestamp) (due : Except Unit Bool) : Action Unit Nat Unit Nat :=
  .tick ⟨now, 10, fun _ => due, fun _ => .total Nat⟩

/-- Two batches are flushed together, sorted over both. -/
theorem flushedTwice_leaves_once :
    let actions := [buffered [3, 1] 0, buffered [2] 5, ticked 10 (.ok false)]
    let b := actions.foldl (reorderers fun _ : List Nat => 8).next { routes := [{}] }
    ∀ r ∈ b.routes, (r.outputs.map fun o => o.batch.batch) = [[1, 2, 3]] ∧
      ∀ o ∈ r.outputs, o.Lawful := by
  intro actions b
  have hrun : ((reorderers fun _ : List Nat => 8).restrict Inspectable).Run
      ({ routes := List.replicate 1 {} } : Branch Unit Nat Unit Nat) b := by
    refine .tail (.tail (.tail .refl (i := buffered [3, 1] 0) ⟨?_, trivial⟩)
      (i := buffered [2] 5) ⟨?_, trivial⟩) (i := ticked 10 (.ok false)) ⟨trivial, ?_⟩
    · exact ⟨rfl, rfl, rfl⟩
    · exact ⟨rfl, rfl, rfl⟩
    · exact fun _ _ _ _ => ⟨false, rfl⟩
  intro r hr
  refine ⟨?_, (leaves_once hrun r hr).2.2.1⟩
  obtain rfl := mem_singleton.mp (show r ∈ [_] from hr)
  decide

/-- When the flush deadline can not be inspected, the buffered row is reported as failed and still
goes on at the next tick. -/
theorem inspection_failure_emits_again :
    ¬∀ r ∈ ([buffered [1] 0, ticked 5 (.error ()), ticked 10 (.ok false)].foldl
        (reorderers fun _ : List Nat => 8).next { routes := [{}] }).routes,
      (r.buffer.entries ++ r.outputs.flatMap Output.entries ++
        r.failures.flatMap Failure.entries).Perm r.pushed := by
  intro h
  have hlength := (h _ mem_cons_self).length_eq
  revert hlength
  decide

end Branch

end Reorderer

end Nervix.Processors
