import Nervix.Runtime.KafkaOffset.Snapshot

/-!
# Changing the ingestor layout

A layout of `n` units gives partition `p` to unit `p % n`; unit zero also holds the starts that the
owners have not adopted. A change of the layout projects the checkpoint of every unit to every unit
of the new layout and merges them.
-/

namespace Nervix.KafkaOffset

open List

variable {key : TopicPartition} {e : KafkaOffsetEntrySnapshot} {es : List KafkaOffsetEntrySnapshot}

def positionOf (key : TopicPartition) : List KafkaOffsetEntrySnapshot → Option Int64
  | [] => none
  | e :: es => (positionOf key es).or (if e.partitionKey = key then some e.nextOffset else none)

theorem positionOf_eq_none (h : ∀ e ∈ es, e.partitionKey ≠ key) : positionOf key es = none := by
  induction es with
  | nil => rfl
  | cons e es ih =>
    rw [positionOf, ih fun e he => h e (mem_cons_of_mem _ he), if_neg (h e mem_cons_self)]
    rfl

theorem mem_iff_positionOf (h : (es.map (·.partitionKey)).Nodup) :
    e ∈ es ↔ positionOf e.partitionKey es = some e.nextOffset := by
  induction es with
  | nil => simp [positionOf]
  | cons d es ih =>
    rw [map_cons, nodup_cons] at h
    rw [positionOf, mem_cons, ih h.2]
    by_cases hd : d.partitionKey = e.partitionKey
    · have hnone : positionOf e.partitionKey es = none := by
        refine positionOf_eq_none fun e' he' heq => h.1 ?_
        rw [hd, ← heq]
        exact mem_map_of_mem he'
      have heq : e = d ↔ d.nextOffset = e.nextOffset := by
        cases d
        cases e
        simp_all [KafkaOffsetEntrySnapshot.partitionKey, eq_comm]
      simp [hnone, hd, heq]
    · have hne : e ≠ d := fun h => hd (h ▸ rfl)
      simp [hd, hne]

section
variable {gs gs' : List (Option Nat)} {g : Option Nat}

instance associative_max : Std.Associative (max : Option Nat → Option Nat → Option Nat) where
  assoc a b c := by cases a <;> cases b <;> cases c <;> simp [Nat.max_assoc]

theorem maxGeneration_cons : maxGeneration (g :: gs) = max g (maxGeneration gs) := by
  unfold maxGeneration
  rw [max?_cons]
  cases gs.max? <;> simp

theorem maxGeneration_perm (h : gs.Perm gs') : maxGeneration gs = maxGeneration gs' := by
  induction h with
  | nil => rfl
  | cons g _ ih => rw [maxGeneration_cons, maxGeneration_cons, ih]
  | swap a b gs =>
    simp only [maxGeneration_cons]
    cases a <;> cases b <;> cases maxGeneration gs <;> simp <;> omega
  | trans _ _ ih ih' => exact ih.trans ih'

theorem maxGeneration_const (hne : gs ≠ []) (h : ∀ g' ∈ gs, g' = g) : maxGeneration gs = g := by
  induction gs with
  | nil => exact absurd rfl hne
  | cons g' gs ih =>
    rw [maxGeneration_cons, h g' mem_cons_self]
    by_cases hgs : gs = []
    · subst hgs
      cases g <;> rfl
    · rw [ih hgs fun g hg => h g (mem_cons_of_mem _ hg)]
      cases g <;> simp

end

def choose (owned pending : Option Int64) : Option SelectedPosition :=
  match owned with
  | some offset => some (.owned offset)
  | none => pending.map .pending

def select (owned : Bool) (x : Option Int64) (old : Option SelectedPosition) :
    Option SelectedPosition :=
  match x with
  | none => old
  | some offset =>
    if owned then some (.owned offset)
    else match old with
      | some (.owned kept) => some (.owned kept)
      | _ => some (.pending offset)

theorem select_select (owned : Bool) (x y : Option Int64) (old : Option SelectedPosition) :
    select owned y (select owned x old) = select owned (y.or x) old := by
  cases owned <;> rcases y with _ | y <;> rcases x with _ | x <;> rcases old with _ | _ | _ <;> rfl

section
variable {n i : Nat} (selected : Selected)

theorem selectEntry_eq (h : owner n e.partition = i ∨ i = 0) :
    ∃ selected', selectEntry n i selected e = .ok selected' ∧ ∀ key, selected'.lookup key =
      select (i = owner n key.2) (if e.partitionKey = key then some e.nextOffset else none)
        (selected.lookup key) := by
  unfold selectEntry
  by_cases howner : i = owner n e.partition
  · refine ⟨_, if_pos howner, fun key => ?_⟩
    rw [AList.lookup_insert_eq]
    split
    · subst key
      simp [select, howner, KafkaOffsetEntrySnapshot.partitionKey]
    · rfl
  · have hzero : i = 0 := h.resolve_left (Ne.symm howner)
    rw [if_neg howner, if_pos hzero]
    split
    · rename_i kept hkept
      refine ⟨_, rfl, fun key => ?_⟩
      by_cases hkey : e.partitionKey = key
      · subst key
        have hne : ¬ i = owner n e.partitionKey.2 := howner
        simp [select, hne, hkept]
      · simp [select, hkey]
    · rename_i hkept
      refine ⟨_, rfl, fun key => ?_⟩
      rw [AList.lookup_insert_eq]
      split
      · subst key
        have hne : ¬ i = owner n e.partitionKey.2 := howner
        simp only [select, hne, decide_false, Bool.false_eq_true, if_false]
      · rfl

theorem selectEntries_eq (h : ∀ e ∈ es, owner n e.partition = i ∨ i = 0) :
    ∃ selected', selectEntries n i none selected es = .ok (none, selected') ∧
      ∀ key, selected'.lookup key =
        select (i = owner n key.2) (positionOf key es) (selected.lookup key) := by
  induction es generalizing selected with
  | nil => exact ⟨selected, rfl, fun key => rfl⟩
  | cons e es ih =>
    obtain ⟨middle, hmiddle, hlookup⟩ := selectEntry_eq selected (h e mem_cons_self)
    obtain ⟨selected', hrest, hlookup'⟩ := ih middle fun e he =>
      h e (mem_cons_of_mem _ he)
    refine ⟨selected', ?_, fun key => ?_⟩
    · simp only [selectEntries, hmiddle, Option.map_none]
      exact hrest
    · rw [hlookup', hlookup, select_select, positionOf]

theorem selectCheckpoints_cons (hindex : instanceIndex checkpoint.unit n = .ok i)
    (haccess : accessOffsetSnapshot checkpoint.payload = .ok snapshot) :
    selectCheckpoints G n cancellation selected (checkpoint :: checkpoints) =
      if snapshot.appliedStartGeneration ≠ G then
        selectCheckpoints G n cancellation selected checkpoints
      else selectEntries n i cancellation selected snapshot.offsets >>= fun r =>
        selectCheckpoints G n r.1 r.2 checkpoints := by
  rw [selectCheckpoints, hindex, haccess]
  rfl

end

structure Layout (n : Nat) (units : Nat → KafkaOffsetSnapshot) : Prop where
  pos : 0 < n
  format : ∀ i < n, (units i).format = KAFKA_OFFSET_FORMAT
  owned : ∀ i < n, i ≠ 0 → ∀ e ∈ (units i).offsets, owner n e.partition = i

def generation (n : Nat) (units : Nat → KafkaOffsetSnapshot) : Option Nat :=
  maxGeneration ((List.range n).map fun i => (units i).appliedStartGeneration)

def unitPosition (units : Nat → KafkaOffsetSnapshot) (generation : Option Nat) (i : Nat)
    (key : TopicPartition) : Option Int64 :=
  if (units i).appliedStartGeneration = generation then positionOf key (units i).offsets else none

def position (n : Nat) (units : Nat → KafkaOffsetSnapshot) (key : TopicPartition) : Option Int64 :=
  (unitPosition units (generation n units) (owner n key.2) key).or
    (unitPosition units (generation n units) 0 key)

section
variable {n : Nat} {units : Nat → KafkaOffsetSnapshot} {G : Option Nat}

def processedPosition (units : Nat → KafkaOffsetSnapshot) (G : Option Nat) (processed : List Nat)
    (i : Nat) (key : TopicPartition) : Option Int64 :=
  if i ∈ processed then unitPosition units G i key else none

def Selects (n : Nat) (units : Nat → KafkaOffsetSnapshot) (G : Option Nat) (processed : List Nat)
    (selected : Selected) : Prop :=
  ∀ key, selected.lookup key =
    choose (processedPosition units G processed (owner n key.2) key)
      (processedPosition units G processed 0 key)

theorem processedPosition_cons :
    processedPosition units G (i :: processed) k key =
      if k = i then unitPosition units G i key else processedPosition units G processed k key := by
  unfold processedPosition
  by_cases hk : k = i
  · simp [hk]
  · simp [hk]

theorem processedPosition_eq_none (hi : i ∉ processed) :
    processedPosition units G processed i key = none := if_neg hi

theorem Selects.cons (H : Layout n units) (h : Selects n units G processed selected) (hin : i < n)
    (hi : i ∉ processed) (hlookup : ∀ key, selected'.lookup key = select (i = owner n key.2)
      (unitPosition units G i key) (selected.lookup key)) :
    Selects n units G (i :: processed) selected' := by
  intro key
  rw [hlookup, h, processedPosition_cons, processedPosition_cons]
  by_cases howner : i = owner n key.2
  · have hnone : processedPosition units G processed (owner n key.2) key = none :=
      processedPosition_eq_none (howner ▸ hi)
    rw [if_pos howner.symm, hnone]
    cases hu : unitPosition units G i key with
    | some offset => simp [select, howner, choose]
    | none =>
      by_cases hzero : 0 = i
      · have hnone' : processedPosition units G processed 0 key = none :=
          processedPosition_eq_none (hzero ▸ hi)
        simp [select, hzero, hzero ▸ hnone']
      · simp [select, hzero]
  · rw [if_neg (Ne.symm howner)]
    by_cases hzero : 0 = i
    · have hnone' : processedPosition units G processed 0 key = none :=
        processedPosition_eq_none (hzero ▸ hi)
      rw [if_pos hzero, hnone']
      cases unitPosition units G i key <;>
        cases processedPosition units G processed (owner n key.2) key <;>
        simp [select, howner, choose]
    · have hforeign : unitPosition units G i key = none := by
        unfold unitPosition
        split
        · refine positionOf_eq_none fun e he heq => howner ?_
          rw [← H.owned i hin (Ne.symm hzero) e he, ← heq]
          rfl
        · rfl
      rw [hforeign, if_neg hzero]
      rfl

def checkpointOf (units : Nat → KafkaOffsetSnapshot) (i : Nat) : IngestorOffsetCheckpoint :=
  ⟨.instanceOf i, .archive (units i)⟩

theorem instanceIndex_checkpointOf (hi : i < n) :
    instanceIndex (checkpointOf units i).unit n = .ok i := if_pos hi

theorem access_checkpointOf (H : Layout n units) (hi : i < n) :
    accessOffsetSnapshot (checkpointOf units i).payload = .ok (units i) := if_pos (H.format i hi)

theorem selectCheckpoints_eq (H : Layout n units) {is : List Nat} (processed : List Nat)
    (selected : Selected) (hlt : ∀ i ∈ is, i < n) (hnodup : is.Nodup) (hdisj : ∀ i ∈ is, i ∉ processed)
    (h : Selects n units G processed selected) :
    ∃ selected', selectCheckpoints G n none selected (is.map (checkpointOf units)) = .ok selected' ∧
      ∃ processed', (∀ i, i ∈ processed' ↔ i ∈ is ∨ i ∈ processed) ∧
        Selects n units G processed' selected' := by
  induction is generalizing processed selected with
  | nil => exact ⟨selected, rfl, processed, by simp, h⟩
  | cons i is ih =>
    have hi : i < n := hlt i mem_cons_self
    have hnew : i ∉ processed := hdisj i mem_cons_self
    rw [nodup_cons] at hnodup
    -- The unit is skipped if it did not apply the newest start.
    have hunit : ∃ middle, Selects n units G (i :: processed) middle ∧
        selectCheckpoints G n none selected (checkpointOf units i :: is.map (checkpointOf units)) =
          selectCheckpoints G n none middle (is.map (checkpointOf units)) := by
      by_cases hgen : (units i).appliedStartGeneration = G
      · have howned : ∀ e ∈ (units i).offsets, owner n e.partition = i ∨ i = 0 := by
          intro e he
          by_cases hzero : i = 0
          · exact .inr hzero
          · exact .inl (H.owned i hi hzero e he)
        obtain ⟨middle, hmiddle, hlookup⟩ := selectEntries_eq selected howned
        refine ⟨middle, h.cons H hi hnew fun key => ?_, ?_⟩
        · rw [hlookup, unitPosition, if_pos hgen]
        · rw [selectCheckpoints_cons _ (instanceIndex_checkpointOf hi)
            (access_checkpointOf H hi), if_neg (not_not.mpr hgen), hmiddle]
          rfl
      · refine ⟨selected, h.cons H hi hnew fun key => ?_, ?_⟩
        · rw [unitPosition, if_neg hgen]
          rfl
        · rw [selectCheckpoints_cons _ (instanceIndex_checkpointOf hi)
            (access_checkpointOf H hi), if_pos hgen]
    obtain ⟨middle, hselects, heq⟩ := hunit
    obtain ⟨selected', hok, processed', hmem, hselects'⟩ := ih (i :: processed) middle
      (fun k hk => hlt k (mem_cons_of_mem _ hk)) hnodup.2 (fun k hk hmem => by
        rcases mem_cons.mp hmem with rfl | hmem
        · exact hnodup.1 hk
        · exact hdisj k (mem_cons_of_mem _ hk) hmem) hselects
    refine ⟨selected', heq.trans hok, processed', fun k => ?_, hselects'⟩
    rw [hmem, mem_cons, mem_cons]
    tauto

theorem appliedStartGenerations_eq (H : Layout n units) {is : List Nat} (hlt : ∀ i ∈ is, i < n) :
    appliedStartGenerations (is.map (checkpointOf units)) =
      .ok (is.map fun i => (units i).appliedStartGeneration) := by
  induction is with
  | nil => rfl
  | cons i is ih =>
    have hrest := ih fun k hk => hlt k (mem_cons_of_mem _ hk)
    simp only [appliedStartGenerations, map_cons, mapM_cons] at hrest ⊢
    rw [hrest, access_checkpointOf H (hlt i mem_cons_self)]
    rfl

theorem foldl_recordPartition (es : List (Sigma fun _ : TopicPartition => SelectedPosition))
    (table : KafkaOffsetTable Int64) (hnodup : es.NodupKeys) :
    (es.foldl (fun table e => table.recordPartition e.1 e.2.offset)
        table).appliedStartGeneration = table.appliedStartGeneration ∧
      ∀ key, (es.foldl (fun table e => table.recordPartition e.1 e.2.offset)
        table).topics.lookup key =
          ((es.dlookup key).map SelectedPosition.offset).or (table.topics.lookup key) := by
  induction es generalizing table with
  | nil => exact ⟨rfl, fun key => by simp⟩
  | cons e es ih =>
    obtain ⟨hnot, hnodup⟩ := nodupKeys_cons.mp hnodup
    obtain ⟨hgen, hlookup⟩ := ih (table.recordPartition e.1 e.2.offset) hnodup
    refine ⟨hgen, fun key => ?_⟩
    rw [foldl_cons, hlookup, KafkaOffsetTable.recordPartition, AList.lookup_insert_eq]
    by_cases hkey : e.1 = key
    · subst key
      have hnone : es.dlookup e.1 = none := dlookup_eq_none.mpr hnot
      obtain ⟨k, b⟩ := e
      simp [hnone]
    · rw [if_neg hkey, dlookup_cons_ne _ _ (Ne.symm hkey)]

theorem KafkaOffsetTable.mem_encode (table : KafkaOffsetTable Int64) :
    e ∈ table.encode.offsets ↔ table.topics.lookup e.partitionKey = some e.nextOffset := by
  rw [← Option.mem_def, AList.mem_lookup_iff]
  simp only [KafkaOffsetTable.encode, KafkaOffsetTable.encodeWith, mem_mergeSort, mem_map]
  constructor
  · rintro ⟨d, hd, rfl⟩
    exact hd
  · intro he
    exact ⟨_, he, rfl⟩

theorem KafkaOffsetTable.nodup_encode (table : KafkaOffsetTable Int64) :
    (table.encode.offsets.map (·.partitionKey)).Nodup := by
  have hperm := (mergeSort_perm (table.topics.entries.map fun e =>
    (⟨e.1.1, e.1.2, e.2⟩ : KafkaOffsetEntrySnapshot)) entryLe).map (·.partitionKey)
  refine hperm.nodup_iff.mpr ?_
  rw [map_map]
  exact table.topics.keys_nodup

theorem mergeOffsetSnapshots_eq (H : Layout n units) {order : List Nat}
    (horder : order.Perm (List.range n)) :
    ∃ snapshot, mergeOffsetSnapshots (order.map (checkpointOf units)) n none =
        .ok (.archive snapshot) ∧ snapshot.appliedStartGeneration = generation n units ∧
      snapshot.format = KAFKA_OFFSET_FORMAT ∧ (snapshot.offsets.map (·.partitionKey)).Nodup ∧
      ∀ e, e ∈ snapshot.offsets ↔ position n units e.partitionKey = some e.nextOffset := by
  have hlt : ∀ i ∈ order, i < n := fun i hi => mem_range.mp (horder.mem_iff.mp hi)
  have hgen : maxGeneration (order.map fun i => (units i).appliedStartGeneration) =
      generation n units := maxGeneration_perm (horder.map _)
  obtain ⟨selected, hselected, processed, hmem, hselects⟩ := selectCheckpoints_eq H
    (G := generation n units) [] ∅ hlt (horder.nodup_iff.mpr nodup_range) (by simp) fun key => by simp [processedPosition, choose]
  obtain ⟨htable, hlookup⟩ := foldl_recordPartition selected.entries
    { appliedStartGeneration := generation n units } selected.nodupKeys
  refine ⟨_, ?_, htable, rfl, KafkaOffsetTable.nodup_encode _, fun e => ?_⟩
  · rw [mergeOffsetSnapshots, appliedStartGenerations_eq H hlt]
    simp only [bind, Except.bind, hgen, hselected, pure, Except.pure]
  · have hall : ∀ i, i < n → i ∈ processed := fun i hi =>
      (hmem i).mpr (.inl (horder.mem_iff.mpr (mem_range.mpr hi)))
    have howner : owner n e.partitionKey.2 < n := Nat.mod_lt _ H.pos
    rw [KafkaOffsetTable.mem_encode, hlookup, position]
    change ((selected.lookup e.partitionKey).map _).or _ = _ ↔ _
    have hchoose : ∀ owned pending : Option Int64,
        (choose owned pending).map SelectedPosition.offset = owned.or pending := by
      rintro (_ | _) (_ | _) <;> rfl
    rw [hselects, hchoose, processedPosition, processedPosition,
      if_pos (hall _ howner), if_pos (hall _ H.pos)]
    simp

end

def projected (m j : Nat) (snapshot : KafkaOffsetSnapshot) : KafkaOffsetSnapshot :=
  { snapshot with offsets := snapshot.offsets.filter fun e => owner m e.partition = j }

theorem projectEntries_eq (m j : Nat) (es : List KafkaOffsetEntrySnapshot) :
    projectEntries m j none es = .ok (es.filter fun e => owner m e.partition = j) := by
  induction es with
  | nil => rfl
  | cons e es ih =>
    rw [projectEntries, Option.map_none, ih, filter_cons]
    · by_cases he : owner m e.partition = j <;> simp [he, bind, Except.bind, pure, Except.pure]
    · nofun

theorem projectOffsetSnapshot_eq (hj : j < m) (hformat : snapshot.format = KAFKA_OFFSET_FORMAT) :
    projectOffsetSnapshot (.archive snapshot) ⟨.instanceOf j, m⟩ none =
      .ok (.archive (projected m j snapshot)) := by
  have haccess : accessOffsetSnapshot (.archive snapshot) = .ok snapshot := if_pos hformat
  simp only [projectOffsetSnapshot, instanceIndex, if_pos hj, haccess, projectEntries_eq, bind,
    Except.bind, pure, Except.pure, projected, hformat]

theorem positionOf_filter (m j : Nat) (es : List KafkaOffsetEntrySnapshot) :
    positionOf key (es.filter fun e => owner m e.partition = j) =
      if owner m key.2 = j then positionOf key es else none := by
  induction es with
  | nil => simp [positionOf]
  | cons e es ih =>
    by_cases hkey : e.partitionKey = key
    · have hpartition : e.partition = key.2 := hkey ▸ rfl
      by_cases hj : owner m key.2 = j <;> simp_all [positionOf]
    · by_cases hj : owner m e.partition = j <;> simp_all [positionOf]

section
variable {n m j : Nat} {units : Nat → KafkaOffsetSnapshot}

theorem Layout.projected (H : Layout n units) (m j : Nat) :
    Layout n fun i => projected m j (units i) where
  pos := H.pos
  format := H.format
  owned i hi hzero e he := H.owned i hi hzero e (mem_of_mem_filter he)

theorem position_projected : position n (fun i => projected m j (units i)) key =
    if owner m key.2 = j then position n units key else none := by
  have hunit : ∀ G i, unitPosition (fun i => projected m j (units i)) G i key =
      if owner m key.2 = j then unitPosition units G i key else none := by
    intro G i
    simp only [unitPosition, projected, positionOf_filter]
    split <;> split <;> rfl
  have hgen : generation n (fun i => projected m j (units i)) = generation n units := rfl
  rw [position, hgen, hunit, hunit, position]
  split <;> rfl

def relayout (n m : Nat) (units : Nat → KafkaOffsetSnapshot) (order : List Nat) (j : Nat) :
    Except RuntimePersistenceError Payload := do
  let payloads ← order.mapM fun i => do
    let payload ← projectOffsetSnapshot (.archive (units i)) ⟨.instanceOf j, m⟩ none
    return { unit := .instanceOf i, payload : IngestorOffsetCheckpoint }
  mergeOffsetSnapshots payloads n none

structure Holds (m j : Nat) (generation : Option Nat) (position : TopicPartition → Option Int64)
    (snapshot : KafkaOffsetSnapshot) : Prop where
  format : snapshot.format = KAFKA_OFFSET_FORMAT
  generation : snapshot.appliedStartGeneration = generation
  nodup : (snapshot.offsets.map (·.partitionKey)).Nodup
  mem_iff : ∀ e, e ∈ snapshot.offsets ↔
    owner m e.partition = j ∧ position e.partitionKey = some e.nextOffset

theorem relayout_eq (H : Layout n units) (hj : j < m) (horder : order.Perm (List.range n)) :
    ∃ snapshot, relayout n m units order j = .ok (.archive snapshot) ∧
      Holds m j (generation n units) (position n units) snapshot := by
  have hpayloads : ∀ is : List Nat, (∀ i ∈ is, i < n) → (is.mapM fun i => do
      let payload ← projectOffsetSnapshot (.archive (units i)) ⟨.instanceOf j, m⟩ none
      return { unit := .instanceOf i, payload : IngestorOffsetCheckpoint }) =
        .ok (is.map (checkpointOf fun i => projected m j (units i))) := by
    intro is hlt
    induction is with
    | nil => rfl
    | cons i is ih =>
      rw [mapM_cons, ih fun k hk => hlt k (mem_cons_of_mem _ hk),
        projectOffsetSnapshot_eq hj (H.format i (hlt i mem_cons_self))]
      rfl
  obtain ⟨snapshot, hmerge, hgen, hformat, hnodup, hmem⟩ :=
    mergeOffsetSnapshots_eq (H.projected m j) horder
  refine ⟨snapshot, ?_, hformat, hgen, hnodup, fun e => ?_⟩
  · rw [relayout, hpayloads order fun i hi => mem_range.mp (horder.mem_iff.mp hi)]
    exact hmerge
  · rw [hmem, position_projected]
    have hkey : e.partitionKey.2 = e.partition := rfl
    by_cases howner : owner m e.partition = j <;> simp [hkey, howner]

inductive Chain (n : Nat) (units : Nat → KafkaOffsetSnapshot) :
    Nat → (Nat → KafkaOffsetSnapshot) → Prop
  | refl : Chain n units n units
  | change {m k : Nat} {units' units'' : Nat → KafkaOffsetSnapshot} :
      Chain n units m units' → 0 < k → (∀ j < k, ∃ order, order.Perm (List.range m) ∧
      relayout m k units' order j = .ok (.archive (units'' j))) → Chain n units k units''

theorem layout_of_holds (hm : 0 < m) (h : ∀ j < m, Holds m j G f (units j)) :
    Layout m units ∧ generation m units = G ∧ ∀ key, position m units key = f key := by
  have hgen : generation m units = G := by
    refine maxGeneration_const (by simp; omega) fun g hg => ?_
    obtain ⟨j, hj, rfl⟩ := mem_map.mp hg
    exact (h j (mem_range.mp hj)).generation
  refine ⟨⟨hm, fun j hj => (h j hj).format, fun j hj _ e he => (((h j hj).mem_iff e).mp he).1⟩,
    hgen, fun key => ?_⟩
  have hunit : ∀ j < m, unitPosition units G j key = if owner m key.2 = j then f key else none := by
    intro j hj
    rw [unitPosition, if_pos (h j hj).generation]
    refine Option.ext fun offset => ?_
    have hmem := mem_iff_positionOf (e := ⟨key.1, key.2, offset⟩) (h j hj).nodup
    rw [(h j hj).mem_iff] at hmem
    have hkey : (⟨key.1, key.2, offset⟩ : KafkaOffsetEntrySnapshot).partitionKey = key := rfl
    rw [hkey] at hmem
    rw [← hmem]
    by_cases howner : owner m key.2 = j <;> simp [howner]
  have howner : owner m key.2 < m := Nat.mod_lt _ hm
  rw [position, hgen, hunit _ howner, hunit _ hm, if_pos rfl]
  split <;> cases f key <;> rfl

theorem Chain.keeps (H : Layout n units) (h : Chain n units m units') :
    Layout m units' ∧ generation m units' = generation n units ∧
      ∀ key, position m units' key = position n units key := by
  induction h with
  | refl => exact ⟨H, rfl, fun _ => rfl⟩
  | change _ hk hchange ih =>
    obtain ⟨hlayout, hgen, hposition⟩ := ih
    have hposition : position _ _ = position n units := funext hposition
    refine layout_of_holds hk fun j hj => ?_
    obtain ⟨order, horder, hok⟩ := hchange j hj
    obtain ⟨snapshot, hsnapshot, hholds⟩ := relayout_eq hlayout hj horder
    rw [hok] at hsnapshot
    cases hsnapshot
    rw [hgen, hposition] at hholds
    exact hholds

end

section
variable {n i : Nat} {G : Option Nat} {snapshot : KafkaOffsetSnapshot}

theorem selectEntries_error (hi : i ≠ 0) (he : e ∈ es) (howner : owner n e.partition ≠ i)
    (cancellation : Option Nat) (selected : Selected) :
    ∃ error, selectEntries n i cancellation selected es = .error error := by
  induction es generalizing cancellation selected with
  | nil => cases he
  | cons d es ih =>
    by_cases hcancelled : cancellation = some 0
    · subst hcancelled
      exact ⟨_, rfl⟩
    rw [selectEntries.eq_3 _ _ _ _ _ _ hcancelled]
    rcases mem_cons.mp he with rfl | he
    · rw [selectEntry, if_neg (Ne.symm howner), if_neg hi]
      exact ⟨_, rfl⟩
    · cases selectEntry n i selected d with
      | error error => exact ⟨error, rfl⟩
      | ok selected' => exact ih he _ selected'

theorem selectCheckpoints_error (hmem : checkpoint ∈ checkpoints)
    (hunit : checkpoint.unit = .instanceOf i)
    (haccess : accessOffsetSnapshot checkpoint.payload = .ok snapshot)
    (hgen : snapshot.appliedStartGeneration = G) (hi : i ≠ 0) (he : e ∈ snapshot.offsets)
    (howner : owner n e.partition ≠ i) (cancellation : Option Nat) (selected : Selected) :
    ∃ error, selectCheckpoints G n cancellation selected checkpoints = .error error := by
  induction checkpoints generalizing cancellation selected with
  | nil => cases hmem
  | cons head checkpoints ih =>
    cases hindex : instanceIndex head.unit n with
    | error error => exact ⟨error, by rw [selectCheckpoints, hindex]; rfl⟩
    | ok sourceIndex =>
      cases hhead : accessOffsetSnapshot head.payload with
      | error error => exact ⟨error, by rw [selectCheckpoints, hindex, hhead]; rfl⟩
      | ok incoming =>
        rw [selectCheckpoints_cons selected hindex hhead]
        rcases mem_cons.mp hmem with rfl | hmem
        · rw [hunit, instanceIndex] at hindex
          split at hindex
          · cases hindex
            rw [haccess] at hhead
            cases hhead
            obtain ⟨error, herror⟩ := selectEntries_error hi he howner cancellation selected
            rw [if_neg (not_not.mpr hgen), herror]
            exact ⟨error, rfl⟩
          · cases hindex
        · split
          · exact ih hmem _ _
          · cases selectEntries n sourceIndex cancellation selected incoming.offsets with
            | error error => exact ⟨error, rfl⟩
            | ok r => exact ih hmem _ _

end

/-- Every chain of layout changes succeeds and keeps the position of every partition, in the unit
that owns it. A unit that applied the newest start is refused if it holds a partition that it
neither owns nor seeds. -/
theorem layout_changes_keep_positions :
    (∀ n units, Layout n units → ∀ m units', Chain n units m units' → ∀ k j, j < k →
      ∀ order, order.Perm (List.range m) →
        ∃ snapshot, relayout m k units' order j = .ok (.archive snapshot) ∧
          Holds k j (generation n units) (position n units) snapshot) ∧
    ∀ payloads generations, appliedStartGenerations payloads = .ok generations →
      ∀ checkpoint ∈ payloads, ∀ i snapshot, checkpoint.unit = .instanceOf i → i ≠ 0 →
        accessOffsetSnapshot checkpoint.payload = .ok snapshot →
          snapshot.appliedStartGeneration = maxGeneration generations →
            ∀ n, ∀ e ∈ snapshot.offsets, owner n e.partition ≠ i → ∀ cancellation,
              ∃ error, mergeOffsetSnapshots payloads n cancellation = .error error := by
  refine ⟨fun n units H m units' hchain k j hj order horder => ?_,
    fun payloads generations hgens checkpoint hmem i snapshot hunit hi haccess hgen n e he howner
      cancellation => ?_⟩
  · obtain ⟨hlayout, hgen, hposition⟩ := hchain.keeps H
    rw [← hgen, ← funext hposition]
    exact relayout_eq hlayout hj horder
  · obtain ⟨error, herror⟩ := selectCheckpoints_error (G := maxGeneration generations) hmem hunit
      haccess hgen hi he howner cancellation ∅
    refine ⟨error, ?_⟩
    rw [mergeOffsetSnapshots, hgens]
    simp only [bind, Except.bind, herror]

def oneUnit : Nat → KafkaOffsetSnapshot := fun _ =>
  { appliedStartGeneration := some 1
    offsets := [⟨"orders", 1, 7⟩]
    format := KAFKA_OFFSET_FORMAT }

theorem layout_changes_keep_positions_one_unit :
    (∃ snapshot, relayout 1 2 oneUnit [0] 1 = .ok (.archive snapshot) ∧
      Holds 2 1 (some 1) (position 1 oneUnit) snapshot) ∧
    ∃ error, mergeOffsetSnapshots [⟨.instanceOf 2, .archive (oneUnit 0)⟩] 3 none =
      .error error := by
  have hlayout : Layout 1 oneUnit :=
    ⟨Nat.one_pos, fun _ _ => rfl, fun i hi hne => absurd (Nat.lt_one_iff.mp hi) hne⟩
  refine ⟨layout_changes_keep_positions.1 1 oneUnit hlayout 1 oneUnit .refl 2 1 (by decide) [0]
      (by decide), ?_⟩
  exact layout_changes_keep_positions.2 [⟨.instanceOf 2, .archive (oneUnit 0)⟩] [some 1] rfl
    ⟨.instanceOf 2, .archive (oneUnit 0)⟩ mem_cons_self 2 (oneUnit 0) rfl (by decide) rfl rfl
    3 ⟨"orders", 1, 7⟩ mem_cons_self (by decide) none

/-- A unit that did not apply the newest start is merged whatever it holds. -/
theorem stale_unit_not_refused :
    ¬ ∀ payloads : List IngestorOffsetCheckpoint, ∀ checkpoint ∈ payloads, ∀ i snapshot,
      checkpoint.unit = .instanceOf i → i ≠ 0 →
        accessOffsetSnapshot checkpoint.payload = .ok snapshot →
          ∀ n, i < n → ∀ e ∈ snapshot.offsets, owner n e.partition ≠ i →
            ∃ error, mergeOffsetSnapshots payloads n none = .error error := by
  intro h
  obtain ⟨error, herror⟩ := h
    [⟨.instanceOf 0, .archive ⟨some 1, [], KAFKA_OFFSET_FORMAT⟩⟩,
      ⟨.instanceOf 2, .archive ⟨none, [⟨"orders", 1, 7⟩], KAFKA_OFFSET_FORMAT⟩⟩]
    _ (mem_cons_of_mem _ mem_cons_self) 2 _ rfl (by decide) rfl 3 (by decide)
    ⟨"orders", 1, 7⟩ mem_cons_self (by decide)
  cases herror

end Nervix.KafkaOffset
