import Nervix.Emitter.PreparedPayloads
import Nervix.Theory.Compaction

/-!
# Retiring source branches

When source branches end, their batches leave the buffer and the batches behind them move up. The
members of the retained payloads are rebound to where their rows now stand.
-/

namespace Nervix.Emitter.Store

open List Option

variable {κ χ : Type}

def positionsFrom (retired : κ → Bool) (next : Nat) :
    List (EmitterPublishBatch κ) → List (Option Nat)
  | [] => []
  | batch :: batches =>
    if retired batch.header.branch then none :: positionsFrom retired next batches
    else some next :: positionsFrom retired (next + 1) batches

def remapPayload (positions : List (Option Nat)) (payload : PreparedPayload χ) :
    Option (Option (PreparedPayload χ)) := do
  let first ← payload.members.head?
  let position ← positions[first.batchIndex]?
  match position with
  | some _ =>
    let members ← payload.members.mapM fun m => do
      let index ← positions[m.batchIndex]?.join
      return { m with batchIndex := index }
    return some { payload with members }
  | none =>
    if payload.members.all fun m => positions[m.batchIndex]? = some none then return none
    else none

def insertRemapped (retained : SortedMap EmitterRecordPosition (PreparedPayload χ)) :
    Option (PreparedPayload χ) → Option (SortedMap EmitterRecordPosition (PreparedPayload χ))
  | none => some retained
  | some payload => payload.members.head?.map fun first => retained.insert first payload

def remapBatches (positions : List (Option Nat))
    (retained : SortedMap EmitterRecordPosition (PreparedPayload χ)) :
    Option (SortedMap EmitterRecordPosition (PreparedPayload χ)) :=
  (retained.entries.map Prod.snd).foldlM
    (fun kept payload => remapPayload positions payload >>= insertRemapped kept) {}

def retireBranches (retired : κ → Bool) (s : Store κ χ) :
    Option (Store κ χ × List (EmitterPublishBatch κ)) :=
  let leaving := s.batches.filter fun batch => retired batch.header.branch
  if leaving.isEmpty then some (s, [])
  else
    (remapBatches (positionsFrom retired 0 s.batches) s.retained).map fun retained =>
      (⟨s.batches.filter fun batch => !retired batch.header.branch, retained⟩,
        leaving.map (·.retireUnresolved))

section Relocation

variable {retired : κ → Bool} {batches : List (EmitterPublishBatch κ)}
  {p q : EmitterRecordPosition}

def stays (retired : κ → Bool) (batch : EmitterPublishBatch κ) : Bool :=
  !retired batch.header.branch

def relocate (retired : κ → Bool) (batches : List (EmitterPublishBatch κ))
    (p : EmitterRecordPosition) : EmitterRecordPosition :=
  { p with batchIndex := rank (stays retired) batches p.batchIndex }

def Stays (retired : κ → Bool) (batches : List (EmitterPublishBatch κ))
    (p : EmitterRecordPosition) : Prop :=
  ∃ header, headerAt batches p = some header ∧ retired header.branch = false

section
variable (h : Stays retired batches p)
include h

theorem Stays.exists_batch :
    ∃ batch, batches[p.batchIndex]? = some batch ∧ stays retired batch := by
  obtain ⟨header, hheader, hstays⟩ := h
  obtain ⟨batch, hbatch, rfl⟩ := map_eq_some_iff.mp hheader
  exact ⟨batch, hbatch, by rw [stays, hstays]; rfl⟩

theorem Stays.getElem?_filter :
    (batches.filter (stays retired))[(relocate retired batches p).batchIndex]? =
      batches[p.batchIndex]? := by
  obtain ⟨batch, hbatch, hstays⟩ := h.exists_batch
  rw [hbatch]
  exact getElem?_filter_rank hbatch hstays

theorem Stays.rowAt :
    rowAt (batches.filter (stays retired)) (relocate retired batches p) = rowAt batches p := by
  rw [Emitter.rowAt, Emitter.rowAt, h.getElem?_filter]
  rfl

theorem Stays.headerAt :
    headerAt (batches.filter (stays retired)) (relocate retired batches p) =
      headerAt batches p := by
  rw [Emitter.headerAt, Emitter.headerAt, h.getElem?_filter]

theorem Stays.relocate_lt (hlt : p < q) :
    relocate retired batches p < relocate retired batches q := by
  obtain ⟨batch, hbatch, hstays⟩ := h.exists_batch
  refine Prod.Lex.toLex_lt_toLex.mpr ?_
  rcases Prod.Lex.toLex_lt_toLex.mp hlt with hlt | ⟨heq, hlt⟩
  · exact .inl (rank_lt_rank hlt hbatch hstays)
  · exact .inr ⟨congrArg (rank (stays retired) batches) heq, hlt⟩

end

theorem exists_relocate_eq (h : rowAt (batches.filter (stays retired)) q = some r) :
    ∃ p, relocate retired batches p = q ∧ Stays retired batches p ∧ rowAt batches p = some r := by
  obtain ⟨batch, hbatch, hrow⟩ := bind_eq_some_iff.mp h
  obtain ⟨i, hi, hstays, hrank⟩ := exists_rank_eq hbatch
  refine ⟨⟨i, q.rowIndex⟩, ?_, ⟨batch.header, ?_, ?_⟩, ?_⟩
  · rw [relocate, hrank]
  · rw [Emitter.headerAt, hi]
    rfl
  · rwa [stays, Bool.not_eq_true'] at hstays
  · rw [Emitter.rowAt, hi]
    exact hrow

theorem getElem?_positionsFrom (retired : κ → Bool) (next : Nat)
    (batches : List (EmitterPublishBatch κ)) (i : Nat) :
    (positionsFrom retired next batches)[i]? = batches[i]?.map fun batch =>
      if retired batch.header.branch then none
      else some (next + rank (stays retired) batches i) := by
  induction batches generalizing next i with
  | nil => rfl
  | cons batch batches ih =>
    rw [positionsFrom]
    cases hb : retired batch.header.branch with
    | true =>
      cases i with
      | zero => simp [hb]
      | succ i => simp [ih, hb, stays]
    | false =>
      cases i with
      | zero => simp [hb]
      | succ i => simp [ih, hb, stays, Nat.add_assoc, Nat.add_comm 1]

theorem Stays.positions (h : Stays retired batches p) :
    (positionsFrom retired 0 batches)[p.batchIndex]? =
      some (some (relocate retired batches p).batchIndex) := by
  obtain ⟨batch, hbatch, hstays⟩ := h.exists_batch
  rw [stays, Bool.not_eq_true'] at hstays
  rw [getElem?_positionsFrom, hbatch, map_some, hstays, Nat.zero_add]
  rfl

end Relocation

section Remap

variable {retired : κ → Bool} {batches : List (EmitterPublishBatch κ)}

structure FromOneBranch (batches : List (EmitterPublishBatch κ))
    (e : EmitterRecordPosition × PreparedPayload χ) : Prop where
  keyed : e.2.members.head? = some e.1
  branch : ∃ branch, ∀ m ∈ e.2.members, ∃ header, headerAt batches m = some header ∧
    header.branch = branch

variable {e : EmitterRecordPosition × PreparedPayload χ}

theorem FromOneBranch.first_mem (h : FromOneBranch batches e) : e.1 ∈ e.2.members :=
  mem_of_mem_head? h.keyed

theorem FromOneBranch.cases (h : FromOneBranch batches e) (retired : κ → Bool) :
    (∀ m ∈ e.2.members, Stays retired batches m) ∨
      ∀ m ∈ e.2.members, ∃ header, headerAt batches m = some header ∧
        retired header.branch = true := by
  obtain ⟨branch, hbranch⟩ := h.branch
  cases hr : retired branch with
  | false =>
    left
    intro m hm
    obtain ⟨header, hheader, rfl⟩ := hbranch m hm
    exact ⟨header, hheader, hr⟩
  | true =>
    right
    intro m hm
    obtain ⟨header, hheader, rfl⟩ := hbranch m hm
    exact ⟨header, hheader, hr⟩

def relocatePayload (retired : κ → Bool) (batches : List (EmitterPublishBatch κ))
    (payload : PreparedPayload χ) : PreparedPayload χ :=
  { payload with members := payload.members.map (relocate retired batches) }

def relocateEntry (retired : κ → Bool) (batches : List (EmitterPublishBatch κ))
    (e : EmitterRecordPosition × PreparedPayload χ) :
    EmitterRecordPosition × PreparedPayload χ :=
  (relocate retired batches e.1, relocatePayload retired batches e.2)

theorem mapM_eq_some_map {α β : Type} {f : α → Option β} {g : α → β} {l : List α}
    (h : ∀ a ∈ l, f a = some (g a)) : l.mapM f = some (l.map g) := by
  induction l with
  | nil => rfl
  | cons a l ih =>
    rw [mapM_cons, h a mem_cons_self, ih fun b hb => h b (mem_cons_of_mem a hb)]
    rfl

theorem remapPayload_of_stays (h : FromOneBranch batches e)
    (hstays : ∀ m ∈ e.2.members, Stays retired batches m) :
    remapPayload (positionsFrom retired 0 batches) e.2 =
      some (some (relocatePayload retired batches e.2)) := by
  rw [remapPayload, h.keyed]
  simp only [bind_eq_bind, bind_some, (hstays e.1 h.first_mem).positions]
  rw [mapM_eq_some_map (g := relocate retired batches) fun m hm => by
    rw [(hstays m hm).positions]
    rfl]
  rfl

theorem remapPayload_of_retired (h : FromOneBranch batches e)
    (hretired : ∀ m ∈ e.2.members, ∃ header, headerAt batches m = some header ∧
      retired header.branch = true) :
    remapPayload (positionsFrom retired 0 batches) e.2 = some none := by
  have hpositions : ∀ m ∈ e.2.members,
      (positionsFrom retired 0 batches)[m.batchIndex]? = some none := fun m hm => by
    obtain ⟨header, hheader, hr⟩ := hretired m hm
    obtain ⟨batch, hbatch, rfl⟩ := map_eq_some_iff.mp hheader
    rw [getElem?_positionsFrom, hbatch, map_some, if_pos hr]
  rw [remapPayload, h.keyed]
  simp only [bind_eq_bind, bind_some, hpositions e.1 h.first_mem]
  rw [if_pos]
  · rfl
  · exact all_eq_true.mpr fun m hm => decide_eq_true (hpositions m hm)

def staysEntry (retired : κ → Bool) (batches : List (EmitterPublishBatch κ))
    (e : EmitterRecordPosition × PreparedPayload χ) : Bool :=
  match headerAt batches e.1 with
  | some header => !retired header.branch
  | none => false

theorem staysEntry_iff : staysEntry retired batches e ↔ Stays retired batches e.1 := by
  rw [staysEntry, Stays]
  cases headerAt batches e.1 with
  | none => exact ⟨nofun, nofun⟩
  | some header => simp

theorem FromOneBranch.stays_of_mem (h : FromOneBranch batches e)
    (hp : p ∈ e.2.members) (hstays : Stays retired batches p) :
    ∀ m ∈ e.2.members, Stays retired batches m := by
  refine (h.cases retired).resolve_right fun hretired => ?_
  obtain ⟨header, hheader, hr⟩ := hretired p hp
  obtain ⟨header', hheader', hs⟩ := hstays
  rw [hheader] at hheader'
  cases hheader'
  rw [hr] at hs
  cases hs

theorem foldlM_remap (retired : κ → Bool) (es : List (EmitterRecordPosition × PreparedPayload χ))
    (kept : SortedMap EmitterRecordPosition (PreparedPayload χ))
    (hsorted : es.Pairwise fun a b => a.1 < b.1) (hbranch : ∀ e ∈ es, FromOneBranch batches e)
    (hkept : ∀ k ∈ kept.entries, ∀ e ∈ es, Stays retired batches e.1 →
      k.1 < relocate retired batches e.1) :
    ∃ m, (es.map Prod.snd).foldlM (fun kept payload =>
        remapPayload (positionsFrom retired 0 batches) payload >>= insertRemapped kept) kept =
          some m ∧
      m.entries = kept.entries ++
        (es.filter (staysEntry retired batches)).map (relocateEntry retired batches) := by
  induction es generalizing kept with
  | nil => exact ⟨kept, rfl, (append_nil _).symm⟩
  | cons e es ih =>
    obtain ⟨hlt, hsorted⟩ := pairwise_cons.mp hsorted
    have he := hbranch e mem_cons_self
    have hes : ∀ e ∈ es, FromOneBranch batches e :=
      fun e' he' => hbranch e' (mem_cons_of_mem e he')
    rw [map_cons, foldlM_cons]
    by_cases hstays : Stays retired batches e.1
    · have hinsert : (kept.insert (relocate retired batches e.1)
          (relocatePayload retired batches e.2)).entries =
          kept.entries ++ [relocateEntry retired batches e] :=
        SortedMap.entries_insert_of_lt fun k hk => hkept k hk e mem_cons_self hstays
      obtain ⟨m, hm, hentries⟩ := ih (kept.insert (relocate retired batches e.1)
          (relocatePayload retired batches e.2)) hsorted hes (by
        intro k hk e' he' hstays'
        rw [hinsert, mem_append, mem_singleton] at hk
        rcases hk with hk | rfl
        · exact hkept k hk e' (mem_cons_of_mem e he') hstays'
        · exact hstays.relocate_lt (hlt e' he'))
      refine ⟨m, ?_, ?_⟩
      · rw [remapPayload_of_stays he (he.stays_of_mem he.first_mem hstays)]
        simp only [bind_eq_bind, bind_some, insertRemapped, relocatePayload,
          head?_map, he.keyed, map_some]
        exact hm
      · rw [hentries, hinsert, filter_cons_of_pos (staysEntry_iff.mpr hstays), append_assoc]
        rfl
    · have hretired := (he.cases retired).resolve_left fun h => hstays (h e.1 he.first_mem)
      obtain ⟨m, hm, hentries⟩ := ih kept hsorted hes fun k hk e' he' =>
        hkept k hk e' (mem_cons_of_mem e he')
      refine ⟨m, ?_, ?_⟩
      · rw [remapPayload_of_retired he hretired]
        exact hm
      · rw [hentries, filter_cons_of_neg fun h => hstays (staysEntry_iff.mp h)]

structure Retirement (retired : κ → Bool) (s s' : Store κ χ)
    (left : List (EmitterPublishBatch κ)) : Prop where
  batches : s'.batches = s.batches.filter (stays retired)
  left : left = (s.batches.filter fun batch => retired batch.header.branch).map (·.retireUnresolved)
  retained : s'.retained.entries =
    (s.retained.entries.filter (staysEntry retired s.batches)).map
      (relocateEntry retired s.batches)

theorem retireBranches_cases {s : Store κ χ} (retired : κ → Bool)
    (hbranch : ∀ e ∈ s.retained.entries, FromOneBranch s.batches e) :
    s.retireBranches retired = some (s, []) ∨
      ∃ s' left, s.retireBranches retired = some (s', left) ∧ Retirement retired s s' left := by
  rw [retireBranches]
  split
  case isTrue => exact .inl rfl
  case isFalse =>
    obtain ⟨m, hm, hentries⟩ := foldlM_remap retired s.retained.entries {}
      s.retained.sorted hbranch nofun
    refine .inr ⟨⟨s.batches.filter (stays retired), m⟩, _, ?_, rfl, rfl, hentries⟩
    rw [remapBatches, hm]
    rfl

end Remap

end Nervix.Emitter.Store
