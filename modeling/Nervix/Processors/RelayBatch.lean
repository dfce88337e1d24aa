import Mathlib

/-!
# Relay record batches

A batch of rows with the branch key, the metadata and the acknowledgements of each row. Selecting,
reordering and concatenating move the columns and the sidecars together.
-/

namespace Nervix.Processors

open List

structure ArrowKernels (ρ : Type) where
  take : List ρ → List Nat → Option (List ρ)
  concat : List (List ρ) → Option (List ρ)
  take_eq {b rows b'} : take b rows = some b' → b' = rows.filterMap fun row => b[row]?
  concat_eq {bs b} : concat bs = some b → b = bs.flatten

def ArrowKernels.total (ρ : Type) : ArrowKernels ρ where
  take b rows := some (rows.filterMap fun row => b[row]?)
  concat bs := some bs.flatten
  take_eq h := (Option.some.inj h).symm
  concat_eq h := (Option.some.inj h).symm

def ArrowKernels.failing (ρ : Type) : ArrowKernels ρ where
  take _ _ := none
  concat _ := none
  take_eq := nofun
  concat_eq := nofun

inductive RelayRecordBatchOperation
  | selectRows
  | reorderRows
  | concatenate
deriving DecidableEq

inductive RelayRecordBatchError
  | runtimeSchema (operation : RelayRecordBatchOperation)
  | selectedRowOutOfBounds (row batchRows : Nat)
  | selectedRowsNotIncreasing (previous next : Nat)
  | sidecarCount (arrowRows metadataRows branchKeys ackSets : Nat)
  | reorderRowCount (orderRows batchRows : Nat)
  | reorderRowOutOfBounds (row batchRows : Nat)
  | duplicateReorderRow (row : Nat)
deriving DecidableEq

structure RelayRecordBatch (β ρ μ α : Type) where
  key : Option β
  keys : List (Option β)
  batch : List ρ
  metadata : List μ
  acks : List α

def takeRows {τ : Type} (values : List τ) (rows : List Nat) : List τ :=
  rows.filterMap fun row => values[row]?

theorem length_takeRows {values : List τ}
    (h : ∀ row ∈ rows, row < values.length) : (takeRows values rows).length = rows.length := by
  induction rows with
  | nil => rfl
  | cons row rows ih =>
    have hrow := h row mem_cons_self
    rw [takeRows, filterMap_cons, getElem?_eq_getElem hrow]
    exact congrArg Nat.succ (ih fun r hr => h r (mem_cons_of_mem row hr))

theorem takeRows_map (f : τ → υ) (values : List τ) (rows : List Nat) :
    takeRows (values.map f) rows = (takeRows values rows).map f := by
  simp only [takeRows, getElem?_map, map_filterMap]

@[simp] theorem takeRows_range (values : List τ) :
    takeRows values (List.range values.length) = values := by
  induction values with
  | nil => rfl
  | cons v values ih =>
    rw [takeRows, length_cons, range_succ_eq_map, filterMap_cons]
    simpa [filterMap_map, takeRows, Function.comp_def] using ih

theorem takeRows_zip {values : List τ} {values' : List υ}
    (h : values.length = values'.length) (rows : List Nat) :
    takeRows (values.zip values') rows = (takeRows values rows).zip (takeRows values' rows) := by
  induction rows with
  | nil => rfl
  | cons row rows ih =>
    simp only [takeRows, filterMap_cons] at ih ⊢
    by_cases hrow : row < values.length
    · have hrow' : row < values'.length := h ▸ hrow
      have hzip : row < (values.zip values').length := by
        rw [length_zip]
        exact Nat.lt_min.mpr ⟨hrow, hrow'⟩
      simp only [getElem?_eq_getElem hrow, getElem?_eq_getElem hrow',
        getElem?_eq_getElem hzip, getElem_zip, zip_cons_cons, ih]
    · have hnone : values[row]? = none := getElem?_eq_none (by omega)
      have hnone' : values'[row]? = none := getElem?_eq_none (by omega)
      have hzip : (values.zip values')[row]? = none := getElem?_eq_none (by simp; omega)
      simp only [hnone, hnone', hzip, ih]

theorem takeRows_perm {values : List τ} {rows : List Nat}
    (h : rows.Perm (List.range values.length)) : (takeRows values rows).Perm values := by
  have hperm := h.filterMap fun row => values[row]?
  rwa [← takeRows, ← takeRows, takeRows_range] at hperm

def select {τ : Type} (row : Nat) : List τ → List Nat → List τ
  | value :: values, next :: rows =>
    if next = row then value :: select (row + 1) values rows
    else select (row + 1) values (next :: rows)
  | _, _ => []

def notIncreasing : List Nat → Option (Nat × Nat)
  | previous :: next :: rows =>
    if next ≤ previous then some (previous, next) else notIncreasing (next :: rows)
  | _ => none

theorem notIncreasing_eq_none : notIncreasing rows = none ↔ rows.Pairwise (· < ·) := by
  induction rows with
  | nil => simp [notIncreasing]
  | cons previous rows ih =>
    cases rows with
    | nil => simp [notIncreasing]
    | cons next rows =>
      rw [notIncreasing, ← isChain_iff_pairwise, isChain_cons_cons, isChain_iff_pairwise, ← ih]
      split
      · simp
        omega
      · simp
        omega

open RelayRecordBatch

namespace RelayRecordBatch

variable {β ρ μ α : Type} (b : RelayRecordBatch β ρ μ α) (kernels : ArrowKernels ρ)

def SidecarsMatch : Prop :=
  b.metadata.length = b.batch.length ∧ b.keys.length = b.batch.length ∧
    b.acks.length = b.batch.length

instance : Decidable b.SidecarsMatch := inferInstanceAs (Decidable (_ ∧ _ ∧ _))

def sidecarCount : RelayRecordBatchError :=
  .sidecarCount b.batch.length b.metadata.length b.keys.length b.acks.length

def take (rows : List Nat) : Except (RelayRecordBatchError × List α) (RelayRecordBatch β ρ μ α) :=
  if b.SidecarsMatch then
    if rows = List.range b.batch.length then .ok b
    else
      match rows.find? fun row => b.batch.length ≤ row with
      | some row => .error (.selectedRowOutOfBounds row b.batch.length, b.acks)
      | none =>
        match notIncreasing rows with
        | some (previous, next) => .error (.selectedRowsNotIncreasing previous next, b.acks)
        | none =>
          match kernels.take b.batch rows with
          | none => .error (.runtimeSchema .selectRows, b.acks)
          | some batch => .ok {
              key := b.key
              keys := select 0 b.keys rows
              batch := batch
              metadata := takeRows b.metadata rows
              acks := select 0 b.acks rows }
  else .error (b.sidecarCount, b.acks)

def rows : List (ρ × μ × Option β × α) :=
  b.batch.zip (b.metadata.zip (b.keys.zip b.acks))

def checkOrder (rowCount : Nat) (seen : List Nat) : List Nat → Option RelayRecordBatchError
  | [] => none
  | row :: rowOrder =>
    if rowCount ≤ row then some (.reorderRowOutOfBounds row rowCount)
    else if row ∈ seen then some (.duplicateReorderRow row)
    else checkOrder rowCount (row :: seen) rowOrder

theorem checkOrder_eq_none (hlt : ∀ row ∈ rowOrder, row < rowCount) (hnodup : rowOrder.Nodup)
    (hseen : ∀ row ∈ rowOrder, row ∉ seen) : checkOrder rowCount seen rowOrder = none := by
  induction rowOrder generalizing seen with
  | nil => rfl
  | cons row rowOrder ih =>
    obtain ⟨hnot, hnodup'⟩ := nodup_cons.mp hnodup
    rw [checkOrder, if_neg (by simpa using hlt row mem_cons_self), if_neg (hseen row mem_cons_self)]
    refine ih (fun r hr => hlt r (mem_cons_of_mem row hr)) hnodup' fun r hr hmem => ?_
    rcases mem_cons.mp hmem with rfl | hmem
    · exact hnot hr
    · exact hseen r (mem_cons_of_mem row hr) hmem

def intoReordered (rowOrder : List Nat) :
    Except (RelayRecordBatchError × RelayRecordBatch β ρ μ α) (RelayRecordBatch β ρ μ α) :=
  if b.SidecarsMatch then
    if rowOrder.length = b.batch.length then
      match checkOrder b.batch.length [] rowOrder with
      | some error => .error (error, b)
      | none =>
        if rowOrder = List.range b.batch.length then .ok b
        else
          match kernels.take b.batch rowOrder with
          | none => .error (.runtimeSchema .reorderRows, b)
          | some batch => .ok {
              key := b.key
              keys := takeRows b.keys rowOrder
              batch := batch
              metadata := takeRows b.metadata rowOrder
              acks := takeRows b.acks rowOrder }
    else .error (.reorderRowCount rowOrder.length b.batch.length, b)
  else .error (b.sidecarCount, b)

theorem intoReordered_cases {rowOrder : List Nat} (hside : b.SidecarsMatch)
    (hperm : rowOrder.Perm (List.range b.batch.length)) :
    (∃ b', b.intoReordered kernels rowOrder = .ok b' ∧ b'.SidecarsMatch ∧
      b'.rows = takeRows b.rows rowOrder) ∨
    b.intoReordered kernels rowOrder = .error (.runtimeSchema .reorderRows, b) := by
  obtain ⟨hm, hk, ha⟩ := hside
  have hlength : rowOrder.length = b.batch.length := by simpa using hperm.length_eq
  have hlt : ∀ row ∈ rowOrder, row < b.batch.length := fun row hrow => by
    simpa using hperm.mem_iff.mp hrow
  have hcheck : checkOrder b.batch.length [] rowOrder = none :=
    checkOrder_eq_none hlt (hperm.nodup_iff.mpr nodup_range) fun _ _ => not_mem_nil
  rw [intoReordered, if_pos ⟨hm, hk, ha⟩, if_pos hlength, hcheck]
  simp only
  split
  case isTrue hrange =>
    refine .inl ⟨b, rfl, ⟨hm, hk, ha⟩, ?_⟩
    have hrows : b.rows.length = b.batch.length := by simp [rows, hm, hk, ha]
    rw [hrange, ← hrows, takeRows_range]
  case isFalse =>
    cases htake : kernels.take b.batch rowOrder with
    | none => exact .inr rfl
    | some batch =>
      have hbatch : batch = takeRows b.batch rowOrder := kernels.take_eq htake
      refine .inl ⟨_, rfl, ⟨?_, ?_, ?_⟩, ?_⟩
      · simp only [hbatch]
        rw [length_takeRows (hm ▸ hlt), length_takeRows hlt]
      · simp only [hbatch]
        rw [length_takeRows (hk ▸ hlt), length_takeRows hlt]
      · simp only [hbatch]
        rw [length_takeRows (ha ▸ hlt), length_takeRows hlt]
      · simp only [rows, hbatch]
        rw [takeRows_zip (by simp [hm, hk, ha]), takeRows_zip (by simp [hm, hk, ha]),
          takeRows_zip (by simp [hk, ha])]

def concatPreserving : List (RelayRecordBatch β ρ μ α) →
    Except (RelayRecordBatchError × List (RelayRecordBatch β ρ μ α)) (RelayRecordBatch β ρ μ α)
  | [] => .error (.runtimeSchema .concatenate, [])
  | [b] => .ok b
  | first :: second :: batches =>
    let all := first :: second :: batches
    match kernels.concat (all.map batch) with
    | none => .error (.runtimeSchema .concatenate, all)
    | some batch => .ok {
        key := first.key
        keys := all.flatMap keys
        batch := batch
        metadata := all.flatMap metadata
        acks := all.flatMap acks }

theorem rows_flatten {bs : List (RelayRecordBatch β ρ μ α)} (h : ∀ b ∈ bs, b.SidecarsMatch) :
    (bs.flatMap batch).zip ((bs.flatMap metadata).zip
      ((bs.flatMap keys).zip (bs.flatMap acks))) =
      bs.flatMap rows := by
  induction bs with
  | nil => rfl
  | cons b bs ih =>
    obtain ⟨hm, hk, ha⟩ := h b mem_cons_self
    simp only [flatMap_cons]
    rw [zip_append (by simp [hk, ha]), zip_append (by simp [hm, hk, ha]),
      zip_append (by simp [hm, hk, ha]), ih fun b' hb' => h b' (mem_cons_of_mem b hb')]
    rfl

theorem length_flatMap_eq {bs : List (RelayRecordBatch β ρ μ α)} {τ : Type}
    {f : RelayRecordBatch β ρ μ α → List τ} (h : ∀ b ∈ bs, (f b).length = b.batch.length) :
    (bs.flatMap f).length = (bs.flatMap batch).length := by
  simp only [length_flatMap]
  exact congrArg List.sum (map_congr_left h)

theorem concatPreserving_cases {bs : List (RelayRecordBatch β ρ μ α)} (hne : bs ≠ [])
    (h : ∀ b ∈ bs, b.SidecarsMatch) :
    (∃ b, concatPreserving kernels bs = .ok b ∧ b.SidecarsMatch ∧ b.rows = bs.flatMap rows ∧
      b.acks = bs.flatMap RelayRecordBatch.acks) ∨
    concatPreserving kernels bs = .error (.runtimeSchema .concatenate, bs) := by
  match bs, hne with
  | [b], _ => exact .inl ⟨b, rfl, h b (mem_singleton_self b), by simp, by simp⟩
  | first :: second :: batches, _ =>
    rw [concatPreserving]
    cases hconcat : kernels.concat ((first :: second :: batches).map RelayRecordBatch.batch) with
    | none => exact .inr rfl
    | some batch =>
      have hbatch : batch = (first :: second :: batches).flatMap RelayRecordBatch.batch := by
        rw [kernels.concat_eq hconcat, flatMap_def]
      refine .inl ⟨_, rfl, ⟨?_, ?_, ?_⟩, ?_, rfl⟩
      · exact hbatch ▸ length_flatMap_eq fun b hb => (h b hb).1
      · exact hbatch ▸ length_flatMap_eq fun b hb => (h b hb).2.1
      · exact hbatch ▸ length_flatMap_eq fun b hb => (h b hb).2.2
      · simp only [rows, hbatch]
        exact rows_flatten h

end RelayRecordBatch

end Nervix.Processors
