import Nervix.Runtime.KafkaOffset.State
import Nervix.Runtime.KafkaOffset.Layout

/-!
# Captures hold every commit their revision covers

The log says which table was published at each time. A partition keeps its cell from one table to
the next unless the publication drops it, a cell holds the last offset that was stored to it, and a
capture reads its revision before its cells.
-/

namespace Nervix.KafkaOffset

open Action
open Assignment (Mode Protocol)
open List
open Change (lsm?)
open KafkaOffsetTable (entryLe recordPartition release slot slots)

variable {T₀ table table' : KafkaOffsetTable Nat} {key : TopicPartition} {cell lsm taken : Nat}
  {offset : Int64} {s s' : Offsets} {log log' : List Change} {a a' : Action}

def Change.tableAfter (old : KafkaOffsetTable Nat) : Change → KafkaOffsetTable Nat
  | publish table _ => table
  | _ => old

def tableAt (T₀ : KafkaOffsetTable Nat) (log : List Change) : KafkaOffsetTable Nat :=
  log.foldl Change.tableAfter T₀

theorem tableAt_concat (log : List Change) (change : Change) :
    tableAt T₀ (log ++ [change]) = change.tableAfter (tableAt T₀ log) := by
  simp [tableAt]

structure Follows (table : KafkaOffsetTable Nat) (why : Publication)
    (table' : KafkaOffsetTable Nat) : Prop where
  kept : ∀ key cell, table.slot key = some cell → why.drops key = false →
    table'.slot key = some cell
  newer : ∀ generation, why = .started generation → ∀ applied,
    table.appliedStartGeneration = some applied → applied < generation

def Chained (T₀ : KafkaOffsetTable Nat) (log : List Change) : Prop :=
  ∀ (k : Nat) table why, log[k]? = some (.publish table why) →
    Follows (tableAt T₀ (log.take k)) why table

theorem Chained.slot_eq (h : Chained T₀ log) (hij : i ≤ j)
    (hdrops : ∀ (k : Nat) change, i ≤ k → k < j → log[k]? = some change → change.drops key = false)
    (hslot : (tableAt T₀ (log.take i)).slot key = some cell) :
    (tableAt T₀ (log.take j)).slot key = some cell := by
  induction j, hij using Nat.le_induction with
  | base => exact hslot
  | succ j hij ih =>
    have hprev := ih fun k change hik hkj => hdrops k change hik (by omega)
    cases hchange : log[j]? with
    | none =>
      have hlen := getElem?_eq_none_iff.mp hchange
      rwa [take_of_length_le (by omega), ← take_of_length_le hlen]
    | some change =>
      rw [take_add_one, hchange, Option.toList_some, tableAt_concat]
      cases change with
      | publish table why =>
        exact (h j table why hchange).kept key cell hprev (hdrops j _ hij (by omega) hchange)
      | _ => exact hprev

structure Grows (s s' : Offsets) : Prop where
  log : s.log <+: s'.log
  cells : ∀ (cell : Nat) key offset, s.cells[cell]? = some (key, offset) →
    ∃ offset', s'.cells[cell]? = some (key, offset')
  lsm : s'.wrapped = false → s.wrapped = false ∧ s.lsm ≤ s'.lsm ∧
    ∀ (k : Nat) r, s.log.length ≤ k → s'.log[k]? = some (.advance r) → s.lsm < r

theorem Grows.refl : Grows s s where
  log := prefix_rfl
  cells _ _ offset h := ⟨offset, h⟩
  lsm h := ⟨h, Nat.le_refl _, fun k r hk hr => by
    rw [getElem?_eq_none hk] at hr
    cases hr⟩

theorem Grows.getElem? (h : Grows s s') {k : Nat} {change : Change}
    (hk : s.log[k]? = some change) : s'.log[k]? = some change := by
  obtain ⟨rest, hrest⟩ := h.log
  rw [← hrest, List.getElem?_append_left (List.getElem?_eq_some_iff.mp hk).1]
  exact hk

theorem Grows.take (h : Grows s s') (hk : k ≤ s.log.length) : s'.log.take k = s.log.take k := by
  obtain ⟨rest, hrest⟩ := h.log
  rw [← hrest, take_append_of_le_length hk]

theorem Grows.length_le (h : Grows s s') : s.log.length ≤ s'.log.length := h.log.length_le

def CellsOf (s : Offsets) (table : KafkaOffsetTable Nat) : Prop :=
  ∀ key cell, table.slot key = some cell → ∃ offset, s.cells[cell]? = some (key, offset)

structure Consistent (T₀ : KafkaOffsetTable Nat) (s : Offsets) : Prop where
  table : s.table = tableAt T₀ s.log
  cells : CellsOf s s.table
  chained : Chained T₀ s.log
  stores : ∀ (k : Nat) key cell offset, s.log[k]? = some (.store key cell offset) →
    ∃ offset', s.cells[cell]? = some (key, offset') ∧
      ∃ k' : Nat, k ≤ k' ∧ s.log[k']? = some (.store key cell offset')
  advances : s.wrapped = false → ∀ (k : Nat) r, s.log[k]? = some (.advance r) → r ≤ s.lsm
  increasing : s.wrapped = false → (s.log.filterMap lsm?).Pairwise (· < ·)

theorem getElem?_concat :
    (log ++ [change])[k]? = some change' ↔
      log[k]? = some change' ∨ k = log.length ∧ change' = change := by
  rcases Nat.lt_trichotomy k log.length with hk | rfl | hk
  · rw [getElem?_append_left hk]
    simp [Nat.ne_of_lt hk]
  · simp [eq_comm]
  · rw [getElem?_eq_none (by simp; omega), getElem?_eq_none (Nat.le_of_lt hk)]
    simp [Nat.ne_of_gt hk]

theorem CellsOf.mono (h : CellsOf s table) (hgrows : Grows s s') : CellsOf s' table := by
  intro key cell hslot
  obtain ⟨offset, hcell⟩ := h key cell hslot
  exact hgrows.cells cell key offset hcell

section
variable (H : Consistent T₀ s)
include H

theorem Consistent.chained_concat
    (h : ∀ table why, change = .publish table why → Follows s.table why table) :
    Chained T₀ (s.log ++ [change]) := by
  intro k table why hk
  rcases getElem?_concat.mp hk with hk' | ⟨rfl, hchange⟩
  · have hlt := (List.getElem?_eq_some_iff.mp hk').1
    rw [take_append_of_le_length (by omega)]
    exact H.chained k table why hk'
  · rw [take_left, ← H.table]
    exact h table why hchange.symm

theorem Consistent.advance_le (hwrapped : s.wrapped = false)
    (hr : r ∈ s.log.filterMap lsm?) : r ≤ s.lsm := by
  obtain ⟨change, hmem, hchange⟩ := mem_filterMap.mp hr
  obtain ⟨k, hk⟩ := mem_iff_getElem?.mp hmem
  cases change with
  | advance lsm =>
    cases hchange
    exact H.advances hwrapped k _ hk
  | _ => cases hchange

end

theorem Grows.trans (h : Grows s s') (h' : Grows s' s'') : Grows s s'' where
  log := h.log.trans h'.log
  cells cell key offset hcell := by
    obtain ⟨offset', hcell'⟩ := h.cells cell key offset hcell
    exact h'.cells cell key offset' hcell'
  lsm hwrapped := by
    obtain ⟨hwrapped', hle', hnew'⟩ := h'.lsm hwrapped
    obtain ⟨hwrapped'', hle, hnew⟩ := h.lsm hwrapped'
    refine ⟨hwrapped'', hle.trans hle', fun k r hk hr => ?_⟩
    by_cases hlt : k < s'.log.length
    · obtain ⟨rest, hrest⟩ := h'.log
      rw [← hrest, getElem?_append_left hlt] at hr
      exact hnew k r hk hr
    · exact Nat.lt_of_le_of_lt hle (hnew' k r (Nat.le_of_not_lt hlt) hr)

section
variable (H : Consistent T₀ s)
include H

theorem Consistent.concat (hlog : s'.log = s.log ++ [change])
    (hwrapped : s'.wrapped = s.wrapped) (hlsm : s'.lsm = s.lsm) (hchange : change.lsm? = none)
    (htable : s'.table = change.tableAfter s.table)
    (hcells : ∀ (cell : Nat) key offset, s.cells[cell]? = some (key, offset) →
      ∃ offset', s'.cells[cell]? = some (key, offset'))
    (hpublish : ∀ table why, change = .publish table why →
      Follows s.table why table ∧ CellsOf s table)
    (hstores : Grows s s' → ∀ (k : Nat) key cell offset,
      s.log[k]? = some (.store key cell offset) ∨
        k = s.log.length ∧ .store key cell offset = change →
      ∃ offset', s'.cells[cell]? = some (key, offset') ∧
        ∃ k' : Nat, k ≤ k' ∧ s'.log[k']? = some (.store key cell offset')) :
    Grows s s' ∧ Consistent T₀ s' := by
  have hgrows : Grows s s' := by
    refine ⟨hlog ▸ prefix_append .., hcells, fun h => ⟨hwrapped ▸ h, hlsm.ge, ?_⟩⟩
    intro k r hk hr
    rw [hlog] at hr
    rcases getElem?_concat.mp hr with hr | ⟨-, rfl⟩
    · rw [getElem?_eq_none hk] at hr
      cases hr
    · cases hchange
  refine ⟨hgrows, ?_, ?_, ?_, fun k key cell offset hk => ?_, fun h k r hr => ?_, fun h => ?_⟩
  · rw [htable, hlog, tableAt_concat, H.table]
  · cases change with
    | publish table why =>
      rw [htable]
      exact (hpublish table why rfl).2.mono hgrows
    | _ =>
      rw [htable]
      exact H.cells.mono hgrows
  · rw [hlog]
    exact H.chained_concat fun table why h => (hpublish table why h).1
  · rw [hlog] at hk
    exact hstores hgrows k key cell offset (getElem?_concat.mp hk)
  · rw [hlog] at hr
    rw [hlsm]
    rcases getElem?_concat.mp hr with hr | ⟨-, rfl⟩
    · exact H.advances (hwrapped ▸ h) k r hr
    · cases hchange
  · rw [hlog, filterMap_append, filterMap_cons, hchange]
    simpa using H.increasing (hwrapped ▸ h)

theorem Consistent.store {old : Int64} (offset : Int64) (hcell : s.cells[cell]? = some (key, old)) :
    Grows s (s.store key cell offset) ∧ Consistent T₀ (s.store key cell offset) := by
  have hcells : ∀ (cell' : Nat) key' offset', s.cells[cell']? = some (key', offset') →
      (s.store key cell offset).cells[cell']? =
        some (key', if cell = cell' then offset else offset') := by
    intro cell' key' offset' hcell'
    rw [Offsets.store, getElem?_modify, hcell']
    split <;> rfl
  refine H.concat rfl rfl rfl rfl rfl (fun cell' key' offset' h => ⟨_, hcells _ _ _ h⟩) nofun
    fun hgrows k key' cell' offset' hk => ?_
  have hlast : (s.store key cell offset).log[s.log.length]? = some (.store key cell offset) :=
    getElem?_concat.mpr (.inr ⟨rfl, rfl⟩)
  rcases hk with hk | ⟨rfl, hchange⟩
  · obtain ⟨last, hlast', k', hkk', hk'⟩ := H.stores k key' cell' offset' hk
    refine ⟨_, hcells cell' key' last hlast', ?_⟩
    by_cases heq : cell = cell'
    · subst heq
      rw [hcell] at hlast'
      cases hlast'
      rw [if_pos rfl]
      exact ⟨_, Nat.le_of_lt (List.getElem?_eq_some_iff.mp hk).1, hlast⟩
    · rw [if_neg heq]
      exact ⟨k', hkk', hgrows.getElem? hk'⟩
  · cases hchange
    refine ⟨_, hcells _ _ old hcell, ?_⟩
    rw [if_pos rfl]
    exact ⟨_, Nat.le_refl _, hlast⟩

theorem Consistent.allocate (key : TopicPartition) (offset : Int64) :
    Grows s (s.allocate key offset) ∧ Consistent T₀ (s.allocate key offset) := by
  have hcells : ∀ (cell' : Nat) key' offset', s.cells[cell']? = some (key', offset') →
      (s.allocate key offset).cells[cell']? = some (key', offset') := by
    intro cell' key' offset' hcell'
    rw [Offsets.allocate, List.getElem?_append_left (List.getElem?_eq_some_iff.mp hcell').1]
    exact hcell'
  refine H.concat rfl rfl rfl rfl rfl (fun cell' key' offset' h => ⟨_, hcells _ _ _ h⟩) nofun
    fun hgrows k key' cell' offset' hk => ?_
  rcases hk with hk | ⟨rfl, hchange⟩
  · obtain ⟨last, hlast, k', hkk', hk'⟩ := H.stores k key' cell' offset' hk
    exact ⟨last, hcells cell' key' last hlast, k', hkk', hgrows.getElem? hk'⟩
  · cases hchange
    refine ⟨offset, by simp [Offsets.allocate], s.log.length, Nat.le_refl _, ?_⟩
    exact getElem?_concat.mpr (.inr ⟨rfl, rfl⟩)

theorem Consistent.publish {why : Publication} (hfollows : Follows s.table why table)
    (hcells : CellsOf s table) :
    Grows s (s.publish table why) ∧ Consistent T₀ (s.publish table why) := by
  refine H.concat rfl rfl rfl rfl rfl (fun _ _ offset h => ⟨offset, h⟩) (fun table' why' h => ?_)
    fun hgrows k key' cell' offset' hk => ?_
  · cases h
    exact ⟨hfollows, hcells⟩
  · rcases hk with hk | ⟨-, hchange⟩
    · obtain ⟨last, hlast, k', hkk', hk'⟩ := H.stores k key' cell' offset' hk
      exact ⟨last, hlast, k', hkk', hgrows.getElem? hk'⟩
    · cases hchange

theorem Consistent.advance : Grows s s.advance ∧ Consistent T₀ s.advance := by
  have hgrows : Grows s s.advance := by
    refine ⟨prefix_append .., fun _ _ offset h => ⟨offset, h⟩, fun h => ?_⟩
    refine ⟨h, Nat.le_succ _, fun k r hk hr => ?_⟩
    rcases getElem?_concat.mp hr with hr | ⟨-, hchange⟩
    · rw [getElem?_eq_none hk] at hr
      cases hr
    · cases hchange
      exact Nat.lt_succ_self _
  refine ⟨hgrows, ?_, H.cells.mono hgrows, H.chained_concat nofun,
    fun k key' cell' offset' hk => ?_, fun hwrapped k r hr => ?_, fun hwrapped => ?_⟩
  · rw [Offsets.advance, tableAt_concat]
    exact H.table
  · rcases getElem?_concat.mp hk with hk | ⟨-, hchange⟩
    · obtain ⟨last, hlast, k', hkk', hk'⟩ := H.stores k key' cell' offset' hk
      exact ⟨last, hlast, k', hkk', hgrows.getElem? hk'⟩
    · cases hchange
  · rcases getElem?_concat.mp hr with hr | ⟨-, hchange⟩
    · exact Nat.le_succ_of_le (H.advances hwrapped k r hr)
    · cases hchange
      exact Nat.le_refl _
  · simp only [Offsets.advance, filterMap_append]
    refine pairwise_append.mpr ⟨H.increasing hwrapped, pairwise_singleton .., ?_⟩
    intro r hr r' hr'
    cases mem_singleton.mp hr'
    exact Nat.lt_succ_of_le (H.advance_le hwrapped hr)

theorem Consistent.overflow : Grows s s.overflow ∧ Consistent T₀ s.overflow :=
  ⟨⟨prefix_rfl, fun _ _ offset h => ⟨offset, h⟩, nofun⟩,
    H.table, H.cells, H.chained, H.stores, nofun, nofun⟩

end

theorem CellsOf.recordPartition (h : CellsOf s old) (key : TopicPartition) (offset : Int64) :
    CellsOf (s.allocate key offset) (old.recordPartition key s.cells.length) := by
  intro key' cell hslot
  rw [KafkaOffsetTable.slot, KafkaOffsetTable.recordPartition, AList.lookup_insert_eq] at hslot
  split at hslot
  · cases hslot
    subst key'
    exact ⟨offset, by simp [Offsets.allocate]⟩
  · obtain ⟨offset', hcell⟩ := h key' cell hslot
    refine ⟨offset', ?_⟩
    rw [Offsets.allocate, List.getElem?_append_left (List.getElem?_eq_some_iff.mp hcell).1]
    exact hcell

theorem Consistent.recordAll (H : Consistent T₀ s) (hcells : CellsOf s old)
    (h : s.recordAll old positions = (s', table)) :
    Grows s s' ∧ Consistent T₀ s' ∧ s'.table = s.table ∧ CellsOf s' table := by
  induction positions generalizing s old with
  | nil =>
    cases h
    exact ⟨.refl, H, rfl, hcells⟩
  | cons position positions ih =>
    obtain ⟨hgrows, H'⟩ := H.allocate position.1 position.2
    obtain ⟨hgrows', H'', htable, hcells'⟩ := ih H' (hcells.recordPartition _ _) h
    exact ⟨hgrows.trans hgrows', H'', htable, hcells'⟩

theorem Consistent.recordUnrecordedStarts (H : Consistent T₀ s) (hcells : CellsOf s old)
    (h : s.recordUnrecordedStarts old positions = (s', table, changed)) :
    Grows s s' ∧ Consistent T₀ s' ∧ s'.table = s.table ∧ CellsOf s' table ∧
      Follows old .recorded table := by
  induction positions generalizing s old changed with
  | nil =>
    cases h
    exact ⟨.refl, H, rfl, hcells, fun _ _ hslot _ => hslot, nofun⟩
  | cons position positions ih =>
    obtain ⟨key, offset⟩ := position
    rw [Offsets.recordUnrecordedStarts] at h
    split at h
    · rename_i hnone
      obtain ⟨hgrows, H'⟩ := H.allocate key offset
      generalize hrest : (s.allocate key offset).recordUnrecordedStarts
        (old.recordPartition key s.cells.length) positions = rest at h
      cases h
      obtain ⟨hgrows', H'', htable, hcells', hfollows⟩ := ih H' (hcells.recordPartition _ _) hrest
      refine ⟨hgrows.trans hgrows', H'', htable, hcells', fun key' cell hslot _ => ?_, nofun⟩
      refine hfollows.kept key' cell ?_ rfl
      rw [slot, recordPartition, AList.lookup_insert_eq, if_neg]
      · exact hslot
      · rintro rfl
        rw [hslot] at hnone
        cases hnone
    · exact ih H hcells h

structure Located (T₀ : KafkaOffsetTable Nat) (s : Offsets) (key : TopicPartition)
    (cell since : Nat) : Prop where
  le : since ≤ s.log.length
  slot : (tableAt T₀ (s.log.take since)).slot key = some cell
  cell : ∃ offset, s.cells[cell]? = some (key, offset)

structure Covers (T₀ : KafkaOffsetTable Nat) (s : Offsets) (c : CapturedKafkaOffsets) : Prop where
  le : c.taken ≤ s.log.length
  table : c.table = tableAt T₀ (s.log.take c.taken)
  lsm : s.wrapped = false → c.lsm ≤ s.lsm
  covers : s.wrapped = false → ∀ (k : Nat) r, s.log[k]? = some (.advance r) → r ≤ c.lsm →
    k < c.taken

def Fresh (s : Offsets) (taken : Nat) (key : TopicPartition) (cell : Nat) (offset : Int64) : Prop :=
  ∀ (k : Nat) old, k < taken → s.log[k]? = some (.store key cell old) →
    ∃ k' : Nat, k ≤ k' ∧ s.log[k']? = some (.store key cell offset)

structure Encodes (T₀ : KafkaOffsetTable Nat) (s : Offsets) (e : Encoder) : Prop where
  covers : Covers T₀ s e.toCapturedKafkaOffsets
  nodup : (e.entries.map (·.partitionKey) ++ e.remaining.map Prod.fst).Nodup
  slots : ∀ key cell, (key, cell) ∈ e.remaining → e.table.slot key = some cell
  read : ∀ key cell, e.table.slot key = some cell → (key, cell) ∈ e.remaining ∨
    ∃ entry ∈ e.entries, entry.partitionKey = key ∧ Fresh s e.taken key cell entry.nextOffset

def FinishFacts (T₀ : KafkaOffsetTable Nat) (s : Offsets) : Finish → Prop
  | .commit key offset cell since stored =>
    Located T₀ s key cell since ∧ s.log[stored]? = some (.store key cell offset)
  | .released => True
  | .started table => table = s.table

def Facts (T₀ : KafkaOffsetTable Nat) (s : Offsets) : Action → Prop
  | storeSlot key _ cell loaded => Located T₀ s key cell loaded
  | clone key _ => s.table.slot key = none
  | publishing table why finish => Follows s.table why table ∧ CellsOf s table ∧ match finish with
    | .commit key offset cell _ stored =>
      table.slot key = some cell ∧ s.log[stored]? = some (.store key cell offset)
    | .released => True
    | .started table' => table' = table
  | advancing finish => FinishFacts T₀ s finish
  | committed key offset lsm cell since stored =>
    Located T₀ s key cell since ∧ s.log[stored]? = some (.store key cell offset) ∧
      ∃ k : Nat, since ≤ k ∧ stored < k ∧ s.log[k]? = some (.advance lsm)
  | current table => table = s.table
  | captureTable lsm | latestTable lsm => s.wrapped = false → lsm ≤ s.lsm
  | captured c | encode c _ => Covers T₀ s c
  | encoding e => Encodes T₀ s e
  | encoded lsm taken _ snapshot => ∃ table, Covers T₀ s ⟨lsm, table, taken⟩ ∧
      ∀ key cell, table.slot key = some cell → ∃ offset,
        positionOf key snapshot.offsets = some offset ∧ Fresh s taken key cell offset
  | _ => True

def Action.alone : Action → Bool
  | move _ first _ _ => first
  | clone .. | acknowledge .. | start .. | publishing .. | current _ | advancing (.started _) => true
  | _ => false

theorem Located.mono (h : Located T₀ s key cell since) (hgrows : Grows s s') :
    Located T₀ s' key cell since where
  le := h.le.trans hgrows.length_le
  slot := hgrows.take h.le ▸ h.slot
  cell := by
    obtain ⟨offset, hcell⟩ := h.cell
    exact hgrows.cells cell key offset hcell

theorem Covers.mono (h : Covers T₀ s c) (hgrows : Grows s s') : Covers T₀ s' c where
  le := h.le.trans hgrows.length_le
  table := hgrows.take h.le ▸ h.table
  lsm hwrapped := by
    obtain ⟨hwrapped', hle, -⟩ := hgrows.lsm hwrapped
    exact (h.lsm hwrapped').trans hle
  covers hwrapped k r hr hle := by
    obtain ⟨hwrapped', -, hnew⟩ := hgrows.lsm hwrapped
    by_cases hk : k < s.log.length
    · obtain ⟨rest, hrest⟩ := hgrows.log
      rw [← hrest, getElem?_append_left hk] at hr
      exact h.covers hwrapped' k r hr hle
    · have hlt := hnew k r (Nat.le_of_not_lt hk) hr
      have hlsm := h.lsm hwrapped'
      omega

theorem Fresh.mono (h : Fresh s taken key cell offset) (htaken : taken ≤ s.log.length)
    (hgrows : Grows s s') : Fresh s' taken key cell offset := by
  intro k old hk hstore
  obtain ⟨rest, hrest⟩ := hgrows.log
  rw [← hrest, getElem?_append_left (by omega)] at hstore
  obtain ⟨k', hkk', hk'⟩ := h k old hk hstore
  exact ⟨k', hkk', hgrows.getElem? hk'⟩

theorem Facts.mono (h : Facts T₀ s a) (hgrows : Grows s s')
    (htable : a.alone = true → s'.table = s.table) : Facts T₀ s' a := by
  cases a with
  | storeSlot => exact Located.mono h hgrows
  | clone key =>
    change s'.table.slot key = none
    rw [htable rfl]
    exact h
  | publishing table why finish =>
    obtain ⟨hfollows, hcells, hfinish⟩ := h
    refine ⟨htable rfl ▸ hfollows, hcells.mono hgrows, ?_⟩
    cases finish with
    | commit => exact ⟨hfinish.1, hgrows.getElem? hfinish.2⟩
    | _ => exact hfinish
  | advancing finish =>
    cases finish with
    | commit => exact ⟨h.1.mono hgrows, hgrows.getElem? h.2⟩
    | released => trivial
    | started => exact Eq.trans h (htable rfl).symm
  | committed =>
    obtain ⟨hlocated, hstored, k, hsince, hk, hadvance⟩ := h
    exact ⟨hlocated.mono hgrows, hgrows.getElem? hstored, k, hsince, hk, hgrows.getElem? hadvance⟩
  | current => exact Eq.trans h (htable rfl).symm
  | captureTable | latestTable =>
    intro hwrapped
    obtain ⟨hwrapped', hle, -⟩ := hgrows.lsm hwrapped
    exact (h hwrapped').trans hle
  | captured | encode => exact Covers.mono h hgrows
  | encoding e =>
    refine ⟨h.covers.mono hgrows, h.nodup, h.slots, fun key cell hslot => ?_⟩
    refine (h.read key cell hslot).imp_right ?_
    rintro ⟨entry, hentry, hkey, hfresh⟩
    exact ⟨entry, hentry, hkey, hfresh.mono h.covers.le hgrows⟩
  | encoded =>
    obtain ⟨table, hcovers, hread⟩ := h
    refine ⟨table, hcovers.mono hgrows, fun key cell hslot => ?_⟩
    obtain ⟨offset, hposition, hfresh⟩ := hread key cell hslot
    exact ⟨offset, hposition, hfresh.mono hcovers.le hgrows⟩
  | _ => trivial

theorem KafkaOffsetTable.mem_slots : (key, cell) ∈ table.slots ↔ table.slot key = some cell := by
  rw [slot, ← Option.mem_def, AList.mem_lookup_iff, slots,
    mem_map]
  constructor
  · rintro ⟨e, he, heq⟩
    cases heq
    exact he
  · intro he
    exact ⟨_, he, rfl⟩

theorem KafkaOffsetTable.nodup_slots (table : KafkaOffsetTable Nat) :
    (table.slots.map Prod.fst).Nodup := by
  rw [slots, map_map]
  exact table.topics.keys_nodup

theorem Covers.iterate (h : Covers T₀ s c) (hperm : remaining.Perm c.table.slots) (changed : Bool) :
    Encodes T₀ s { toCapturedKafkaOffsets := c, changed, remaining } where
  covers := h
  nodup := (hperm.map Prod.fst).nodup_iff.mpr c.table.nodup_slots
  slots _ _ hmem := KafkaOffsetTable.mem_slots.mp (hperm.mem_iff.mp hmem)
  read _ _ hslot := .inl (hperm.mem_iff.mpr (KafkaOffsetTable.mem_slots.mpr hslot))

section
variable (H : Consistent T₀ s)
include H

theorem Consistent.fresh_load : Fresh s taken key cell (s.load cell) := by
  intro k old _ hstore
  obtain ⟨last, hcell, k', hkk', hk'⟩ := H.stores k key cell old hstore
  refine ⟨k', hkk', ?_⟩
  rw [Offsets.load, hcell]
  exact hk'

theorem EncodeStep.keeps (h : Facts T₀ s a) (hs : EncodeStep s a a') :
    Facts T₀ s a' ∧ a'.alone = false := by
  cases hs with
  | read hremaining =>
    refine ⟨⟨h.covers, ?_, fun key' cell' hmem => ?_, fun key' cell' hslot => ?_⟩, rfl⟩
    · have hnodup := h.nodup
      rw [hremaining] at hnodup
      simpa [KafkaOffsetEntrySnapshot.partitionKey] using hnodup
    · exact h.slots key' cell' (hremaining ▸ mem_cons_of_mem _ hmem)
    · rcases h.read key' cell' hslot with hmem | ⟨entry, hentry, hkey, hfresh⟩
      · rw [hremaining] at hmem
        rcases mem_cons.mp hmem with heq | hmem
        · cases heq
          exact .inr ⟨_, mem_append_right _ mem_cons_self, rfl, H.fresh_load⟩
        · exact .inl hmem
      · exact .inr ⟨entry, mem_append_left _ hentry, hkey, hfresh⟩
  | sort hremaining =>
    rename_i e
    refine ⟨⟨e.table, h.covers, fun key cell hslot => ?_⟩, rfl⟩
    rcases h.read key cell hslot with hmem | ⟨entry, hentry, rfl, hfresh⟩
    · rw [hremaining] at hmem
      cases hmem
    · refine ⟨entry.nextOffset, ?_, hfresh⟩
      have hperm := mergeSort_perm e.entries entryLe
      have hnodup := h.nodup
      rw [hremaining, map_nil, append_nil] at hnodup
      refine (mem_iff_positionOf ?_).mp (hperm.mem_iff.mpr hentry)
      exact (hperm.map _).nodup_iff.mpr hnodup

theorem Consistent.located (hslot : s.table.slot key = some cell) :
    Located T₀ s key cell s.log.length where
  le := Nat.le_refl _
  slot := by
    rw [take_length, ← H.table]
    exact hslot
  cell := H.cells key cell hslot

theorem Consistent.covers (hlsm : s.wrapped = false → lsm ≤ s.lsm) :
    Covers T₀ s ⟨lsm, s.table, s.log.length⟩ where
  le := Nat.le_refl _
  table := by rw [take_length, ← H.table]
  lsm := hlsm
  covers _ _ _ hr _ := (List.getElem?_eq_some_iff.mp hr).1

end

theorem CellsOf.release (h : CellsOf s table) (count index : Nat) :
    CellsOf s (table.release count index) ∧
      Follows table (.released count index) (table.release count index) := by
  have hslot : ∀ key, (table.release count index).slot key =
      if owner count key.2 ≠ index then table.slot key else none := by
    intro key
    rw [KafkaOffsetTable.slot, KafkaOffsetTable.release, AList.lookup_retain]
    simp [KafkaOffsetTable.slot]
  refine ⟨fun key cell hcell => ?_, fun key cell hcell hdrops => ?_, nofun⟩
  · rw [hslot] at hcell
    split at hcell
    · exact h key cell hcell
    · cases hcell
  · rw [hslot, if_pos]
    · exact hcell
    · simpa [Publication.drops] using hdrops

theorem Step.keeps (H : Consistent T₀ s) (h : Facts T₀ s a) (hs : Step s a s' a') :
    Grows s s' ∧ Consistent T₀ s' ∧ Facts T₀ s' a' ∧
      (a.alone = false → s'.table = s.table) ∧ (a'.alone = true → a.alone = true) := by
  have hshared : ∀ {p : Prop}, false = true → p := fun h => absurd h Bool.false_ne_true
  cases hs with
  | found hslot => exact ⟨.refl, H, H.located hslot, fun _ => rfl, hshared⟩
  | unrecorded => exact ⟨.refl, H, trivial, fun _ => rfl, hshared⟩
  | first hslot => exact ⟨.refl, H, hslot, fun _ => rfl, fun _ => rfl⟩
  | store =>
    rename_i key offset cell loaded
    have hlocated : Located T₀ s key cell loaded := h
    obtain ⟨old, hcell⟩ := hlocated.cell
    obtain ⟨hgrows, H'⟩ := H.store offset hcell
    refine ⟨hgrows, H', ⟨hlocated.mono hgrows, ?_⟩, fun _ => rfl, hshared⟩
    exact getElem?_concat.mpr (.inr ⟨rfl, rfl⟩)
  | clone =>
    rename_i key offset
    obtain ⟨hgrows, H'⟩ := H.allocate key offset
    refine ⟨hgrows, H', ⟨⟨fun key' cell' hslot _ => ?_, fun _ h => by cases h⟩,
      H.cells.recordPartition _ _, ?_, ?_⟩, fun _ => rfl, fun _ => rfl⟩
    · rw [slot, recordPartition, AList.lookup_insert_eq, if_neg]
      · exact hslot
      · rintro rfl
        cases hslot.symm.trans h
    · exact AList.lookup_insert _
    · exact getElem?_concat.mpr (.inr ⟨rfl, rfl⟩)
  | publish =>
    rename_i table why finish
    obtain ⟨hfollows, hcells, hfinish⟩ := h
    obtain ⟨hgrows, H'⟩ := H.publish hfollows hcells
    refine ⟨hgrows, H', ?_, fun h => hshared h.symm, fun _ => rfl⟩
    cases finish with
    | commit key offset cell _ stored =>
      have hlength : (s.publish table why).log.length = s.log.length + 1 := by
        simp [Offsets.publish]
      refine ⟨hlength ▸ H'.located hfinish.1, hgrows.getElem? hfinish.2⟩
    | released => trivial
    | started => exact hfinish
  | advance =>
    rename_i finish _
    obtain ⟨hgrows, H'⟩ := H.advance
    have hlength : s.advance.log.length = s.log.length + 1 := by simp [Offsets.advance]
    refine ⟨hgrows, H', ?_, fun _ => rfl, ?_⟩
    · cases finish with
      | commit key offset cell since stored =>
        refine ⟨h.1.mono hgrows, hgrows.getElem? h.2, s.log.length, h.1.le,
          (List.getElem?_eq_some_iff.mp h.2).1, ?_⟩
        exact getElem?_concat.mpr (.inr ⟨rfl, rfl⟩)
      | released => trivial
      | started table =>
        cases h
        exact hlength ▸ H'.covers fun _ => Nat.le_refl _
    · cases finish <;> exact hshared
  | overflow =>
    obtain ⟨hgrows, H'⟩ := H.overflow
    exact ⟨hgrows, H', trivial, fun _ => rfl, hshared⟩
  | notInstance | notSeeded => exact ⟨.refl, H, trivial, fun _ => rfl, hshared⟩
  | release =>
    obtain ⟨hcells, hfollows⟩ := H.cells.release _ _
    exact ⟨.refl, H, ⟨hfollows, hcells, trivial⟩, fun _ => rfl, fun _ => rfl⟩
  | older | same => exact ⟨.refl, H, rfl, fun _ => rfl, fun _ => rfl⟩
  | extend _ hrecord =>
    obtain ⟨hgrows, H', htable, hcells, hfollows⟩ := H.recordUnrecordedStarts H.cells hrecord
    refine ⟨hgrows, H', ⟨?_, hcells, rfl⟩, fun _ => htable, fun _ => rfl⟩
    rw [htable]
    exact hfollows
  | restart hnewer hrecord =>
    rename_i generation _ _ _
    have hempty : CellsOf s { appliedStartGeneration := some generation } := by
      intro key cell hslot
      cases hslot
    obtain ⟨hgrows, H', htable, hcells⟩ := H.recordAll hempty hrecord
    refine ⟨hgrows, H', ⟨⟨fun _ _ _ h => hshared h.symm, fun _ h => ?_⟩, hcells, rfl⟩,
      fun _ => htable, fun _ => rfl⟩
    cases h
    rw [htable]
    exact hnewer
  | current =>
    cases h
    exact ⟨.refl, H, H.covers fun _ => Nat.le_refl _, fun _ => rfl, hshared⟩
  | skip => exact ⟨.refl, H, trivial, fun _ => rfl, hshared⟩
  | capture | latest => exact ⟨.refl, H, fun _ => Nat.le_refl _, fun _ => rfl, hshared⟩
  | captureTable | latestTable => exact ⟨.refl, H, H.covers h, fun _ => rfl, hshared⟩
  | iterate hperm => exact ⟨.refl, H, Covers.iterate h hperm _, fun _ => rfl, hshared⟩
  | encode hs =>
    obtain ⟨hfacts, halone⟩ := hs.keeps H h
    exact ⟨.refl, H, hfacts, fun _ => rfl, fun h => absurd h (by simp [halone])⟩

def Action.Begins : Action → Prop
  | move .. | acknowledge .. | start .. | capture _ | latest => True
  | _ => False

theorem Facts.of_begins (h : a.Begins) : Facts T₀ s a := by
  cases a <;> trivial

theorem Action.Done.not_alone (h : a.Done) : a.alone = false := by
  cases a <;> first | rfl | exact h.elim

def protocol (T₀ : KafkaOffsetTable Nat) : Protocol client where
  Inv := Consistent T₀
  Initial m a := a.Begins ∧ (a.alone = true → m = .alone)
  Knows m s a := Facts T₀ s a ∧ (a.alone = true → m = .alone)
  request {_ r} h := by
    cases r with
    | rebind => trivial
    | authorize =>
      obtain ⟨-, key, offset, rfl⟩ := h
      exact ⟨trivial, nofun⟩
    | authorizeExclusive =>
      obtain ⟨-, ⟨generation, selection, rfl⟩ | ⟨application, generation, offsets, rfl⟩⟩ := h <;>
        exact ⟨trivial, fun _ => rfl⟩
    | serializeWith =>
      rcases h with ⟨afterLsm, rfl⟩ | rfl <;> exact fun _ => ⟨trivial, nofun⟩
  begin _ h := ⟨.of_begins h.1, h.2⟩
  step _ H h hs := by
    obtain ⟨-, H', hfacts, -, halone⟩ := Step.keeps H h.1 hs
    exact ⟨H', hfacts, fun ha => h.2 (halone ha)⟩
  others {m s a s' a' k b} _ H h hs hmode hb := by
    obtain ⟨hgrows, -, -, htable, -⟩ := Step.keeps H h.1 hs
    refine ⟨hb.1.mono hgrows fun halone => htable ?_, hb.2⟩
    have hshared : m = .shared := hmode.resolve_right fun hk => hk (hb.2 halone)
    cases ha : a.alone
    · rfl
    · exact absurd (h.2 ha) (hshared ▸ nofun)
  done _ h hdone := ⟨h.1, fun ha => absurd ha (by simp [hdone.not_alone])⟩
  after H h hs := by
    cases hs with
    | iterate hperm => exact ⟨Covers.iterate h.1 hperm _, nofun⟩
    | encode hs =>
      obtain ⟨hfacts, halone⟩ := hs.keeps H h.1
      exact ⟨hfacts, fun ha => absurd ha (by simp [halone])⟩
  next {_ a r} _ _ h := by
    cases a with
    | unrecorded =>
      cases h
      exact ⟨trivial, fun _ => rfl⟩
    | _ => exact h.elim

theorem Consistent.of_log_nil (hlog : s.log = []) (hcells : CellsOf s s.table) :
    Consistent s.table s where
  table := by rw [hlog]; rfl
  cells := hcells
  chained k table why hk := by simp [hlog] at hk
  stores k key cell offset hk := by simp [hlog] at hk
  advances _ k r hk := by simp [hlog] at hk
  increasing _ := by simp [hlog]

theorem Consistent.restored (initial : Option (Nat × KafkaOffsetSnapshot)) :
    Consistent (Offsets.restored initial).table (Offsets.restored initial) := by
  have hempty : ∀ generation, CellsOf {} { appliedStartGeneration := generation } := by
    intro generation key cell hslot
    cases hslot
  rcases initial with _ | ⟨lsm, snapshot⟩
  · exact .of_log_nil rfl (hempty none)
  · have H : Consistent {} {} := .of_log_nil rfl (hempty none)
    generalize hrecord : Offsets.recordAll {}
      { appliedStartGeneration := snapshot.appliedStartGeneration }
      (snapshot.offsets.map fun e => (e.partitionKey, e.nextOffset)) = restored
    obtain ⟨-, -, -, hcells⟩ := H.recordAll (hempty _) hrecord
    rw [Offsets.restored, hrecord]
    exact .of_log_nil rfl hcells

def Action.revision (r : Nat) : Action → Nat
  | committed _ _ lsm _ _ _ => if lsm = r then 1 else 0
  | encode c changed => if changed = true ∧ c.lsm = r then 1 else 0
  | encoding e => if e.changed = true ∧ e.lsm = r then 1 else 0
  | encoded lsm _ changed _ => if changed = true ∧ lsm = r then 1 else 0
  | _ => 0

theorem EncodeStep.revision (hs : EncodeStep s a a') : a'.revision r = a.revision r := by
  cases hs <;> rfl

theorem After.revision (hs : After s a a') : a'.revision r = a.revision r := by
  cases hs with
  | iterate => rfl
  | encode hs => exact hs.revision

theorem Step.revision (hgrows : Grows s s') (hs : Step s a s' a') :
    a'.revision r + (s.log.filterMap lsm?).count r ≤
      a.revision r + (s'.log.filterMap lsm?).count r := by
  have hcount : (s.log.filterMap lsm?).count r ≤ (s'.log.filterMap lsm?).count r :=
    (hgrows.log.sublist.filterMap _).count_le r
  cases hs with
  | advance =>
    rename_i finish _
    have hadvance : (s.advance.log.filterMap lsm?).count r =
        (s.log.filterMap lsm?).count r + if s.lsm + 1 = r then 1 else 0 := by
      simp [Offsets.advance, lsm?, count_singleton]
    cases finish <;> simp only [Finish.advanced, Action.revision, true_and] <;> omega
  | iterate => exact Nat.add_le_add_left hcount _
  | encode hs => exact (congrArg (· + _) hs.revision).le
  | _ => exact Nat.add_le_add_left hcount 0

def DroppedAt (log : List Change) (k : Nat) (key : TopicPartition) : Prop :=
  (∃ table count index, log[k]? = some (.publish table (.released count index)) ∧
    owner count key.2 = index) ∨
  ∃ table generation, log[k]? = some (.publish table (.started generation))

theorem not_drops (hk : log[k]? = some change)
    (h : ¬ DroppedAt log k key) : change.drops key = false := by
  cases hdrops : change.drops key
  · rfl
  refine absurd ?_ h
  cases change with
  | publish table why =>
    cases why with
    | recorded => cases hdrops
    | started generation => exact .inr ⟨table, generation, hk⟩
    | released count index => exact .inl ⟨table, count, index, hk, of_decide_eq_true hdrops⟩
  | _ => cases hdrops

structure CapturesHold (T₀ : KafkaOffsetTable Nat)
    (c : Config (Assignment.State Offsets) (Assignment.Call Action)) : Prop where
  holds : ∀ key offset r cell since stored lsm taken changed snapshot,
    .returned (committed key offset r cell since stored) ∈ c.calls →
    .returned (encoded lsm taken changed snapshot) ∈ c.calls → r ≤ lsm →
    (∀ k, since ≤ k → k < taken → ¬ DroppedAt c.shared.data.log k key) →
      c.shared.data.log[stored]? = some (.store key cell offset) ∧
      ∃ offset' k, positionOf key snapshot.offsets = some offset' ∧ stored ≤ k ∧
        c.shared.data.log[k]? = some (.store key cell offset')
  increasing : (c.shared.data.log.filterMap lsm?).Pairwise (· < ·)
  distinct : ∀ r, weigh (Protocol.callWeight (Action.revision r)) c.calls ≤ 1
  kept : ∀ i j key, i ≤ j → (tableAt T₀ (c.shared.data.log.take i)).slot key ≠ none →
    (tableAt T₀ (c.shared.data.log.take j)).slot key = none →
      ∃ k, i ≤ k ∧ k < j ∧ DroppedAt c.shared.data.log k key
  newer : ∀ (k : Nat) table generation,
    c.shared.data.log[k]? = some (.publish table (.started generation)) →
      ∀ applied, (tableAt T₀ (c.shared.data.log.take k)).appliedStartGeneration = some applied →
        applied < generation
  table : c.shared.data.table = tableAt T₀ c.shared.data.log

/-- **Captures hold every commit their revision covers**, as long as the revisions do not wrap
around. -/
theorem kafka_captures_hold_commits (initial : Option (Nat × KafkaOffsetSnapshot))
    {c : Config (Assignment.State Offsets) (Assignment.Call Action)}
    (h : (Assignment.machine client).Reachable (Assignment.init (Offsets.restored initial)) c)
    (hwrapped : c.shared.data.wrapped = false) :
    CapturesHold (Offsets.restored initial).table c := by
  let P := protocol (Offsets.restored initial).table
  have h0 : P.Inv (Offsets.restored initial) := Consistent.restored initial
  obtain ⟨H, hcalls⟩ := P.inv h0 h
  refine ⟨?_, H.increasing hwrapped, fun r => ?_, fun i j key hij hslot hnone => ?_,
    fun k table generation hk => (H.chained k table _ hk).newer generation rfl, H.table⟩
  · intro key offset r cell since stored lsm taken changed snapshot hcommit hcapture hle hdropped
    obtain ⟨⟨hlocated, hstored, k, hsince, hk, hadvance⟩, -⟩ := hcalls _ hcommit
    obtain ⟨⟨table, hcovers, hread⟩, -⟩ := hcalls _ hcapture
    have hbefore : k < taken := hcovers.covers hwrapped k r hadvance hle
    have htable : table = tableAt _ (c.shared.data.log.take taken) := hcovers.table
    have hslot : table.slot key = some cell := by
      rw [htable]
      refine H.chained.slot_eq (by omega) (fun k' change hk' hlt hchange => ?_) hlocated.slot
      exact not_drops hchange (hdropped k' hk' hlt)
    obtain ⟨offset', hposition, hfresh⟩ := hread key cell hslot
    obtain ⟨k', hkk', hk'⟩ := hfresh stored offset (by omega) hstored
    exact ⟨hstored, offset', k', hposition, hkk', hk'⟩
  · have hcount : (c.shared.data.log.filterMap lsm?).count r ≤ 1 :=
      nodup_iff_count_le_one.mp ((H.increasing hwrapped).imp Nat.ne_of_lt) r
    refine (P.weigh_le h0 h (fun s => (s.log.filterMap lsm?).count r)
      (Action.revision r) (fun {m a} ha => ?_) (fun {m s a s' a'} H h hs => ?_)
      fun hs => hs.revision).trans hcount
    · cases a <;> first | rfl | exact ha.1.elim
    · exact hs.revision (hs.keeps H h.1).1
  · by_contra hnot
    push Not at hnot
    obtain ⟨cell, hcell⟩ := Option.ne_none_iff_exists'.mp hslot
    have hkept := H.chained.slot_eq hij (fun k change hik hkj hchange =>
      not_drops hchange (hnot k hik hkj)) hcell
    rw [hkept] at hnone
    cases hnone

/-- A first commit and a snapshot that covers it. -/
theorem kafka_captures_hold_commits_first :
    ∃ c : Config (Assignment.State Offsets) (Assignment.Call Action),
      .returned (committed ("orders", 0) 7 1 0 2 0) ∈ c.calls ∧
      .returned (encoded 1 3 false ⟨none, [⟨"orders", 0, 7⟩], KAFKA_OFFSET_FORMAT⟩) ∈ c.calls ∧
      CapturesHold {} c := by
  have op : ∀ {s d s' d'}, Assignment.CallStep client s d s' d' →
      (Assignment.machine client).step s d s' {d'} := fun h => ⟨_, h, rfl⟩
  have ask : ∀ {s r}, Requested r → (Assignment.machine client).start s (.requested r) :=
    fun h => ⟨_, h, rfl⟩
  have h : (Assignment.machine client).Reachable (Assignment.init (Offsets.restored none))
    (Assignment.init (Offsets.restored none)) := .refl
  have h := h.start (ask (r := .rebind {} none) trivial)
  have h := h.step₁ (op (.lockRebind rfl))
  have h := h.step₁ (op (.supersede (b := Assignment.firstBinding) rfl))
  have h := h.step₁ (op .storeRoles)
  have h := h.step₁ (op .storeBinding)
  have h := h.step₁ (op (.drained rfl))
  have h := h.step₁ (op .unlockRebind)
  have h := h.start (ask (r := .authorize ⟨Assignment.firstBinding⟩ .originate
    (move ⟨Assignment.firstBinding⟩ false ("orders", 0) 7)) ⟨rfl, _, _, rfl⟩)
  have h := h.step₁ (op (.admits rfl))
  have h := h.step₁ (op (.current rfl))
  have h := h.step₁ (op (.act (.unrecorded rfl)))
  have h := h.step₁ (op (.finish trivial))
  have h := h.step₁ (op .leave)
  have h := h.step₁ (op (.next rfl))
  have h := h.step₁ (op (.lockExclusive rfl))
  have h := h.step₁ (op (.currentExclusive rfl rfl))
  have h := h.step₁ (op (.actAlone (.first rfl)))
  have h := h.step₁ (op (.actAlone .clone))
  have h := h.step₁ (op (.actAlone .publish))
  have h := h.step₁ (op (.actAlone (.advance (by decide))))
  have h := h.step₁ (op (.finishAlone trivial))
  have h := h.step₁ (d := .returned (committed ("orders", 0) 7 1 0 2 0)) (op .unlock)
  have h := h.start (ask (r := .serializeWith fun _ => latest) (.inr rfl))
  have h := h.step₁ (op (.lockSerial rfl))
  have h := h.step₁ (op .loadSerial)
  have h := h.step₁ (op (.actSerial .latest))
  have h := h.step₁ (op (.actSerial .latestTable))
  have h := h.step₁ (op (.actSerial (.iterate (.refl _))))
  have h := h.step₁ (op (.actSerial (.encode (.read rfl))))
  have h := h.step₁ (op (.actSerial (.encode (.sort rfl))))
  have h := h.step₁ (op (.finishSerial trivial))
  have h := h.step₁ (d := .returned (encoded 1 3 false ⟨none,
    [⟨"orders", 0, 7⟩].mergeSort entryLe, KAFKA_OFFSET_FORMAT⟩)) (op .unlock)
  exact ⟨_, by simp, by simp, kafka_captures_hold_commits none h rfl⟩

end Nervix.KafkaOffset
