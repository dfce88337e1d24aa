import Nervix.Emitter.BranchRetirement

/-!
# Runs of an emitter's prepared payloads

Batches enter the buffer, payloads are prepared from their pending rows, written and answered for,
message errors of rejected rows are delivered, and source branches retire, in any order and any
number of times.
-/

namespace Nervix.Emitter

open List

variable {κ χ δ φ ω : Type}

structure Packed (χ : Type) where
  rows : List (Option Nat × Nat)
  occurredAt : Timestamp
  content : χ

def packedAs (batches : List (EmitterPublishBatch κ)) (payload : PreparedPayload χ) : Packed χ where
  rows := payload.members.map fun m => ((headerAt batches m).map (·.carrier), m.rowIndex)
  occurredAt := payload.occurredAt
  content := payload.content

structure Moment (κ χ : Type) where
  store : Store κ χ := {}
  outstanding : Option (List EmitterRecordPosition) := none
  packed : List (Packed χ) := []
  left : List (EmitterPublishBatch κ) := []
  carriers : Nat := 0

inductive Call (κ χ δ φ : Type)
  | push (branch : κ) (executionNow : Timestamp) (rows : Nat)
  | retain (payload : PreparedPayload χ)
  | write
  | answer (outcome : PerRecordOutcome δ φ)
  | reject (position : EmitterRecordPosition)
  | retire (retired : κ → Bool)

structure Store.Packable (s : Store κ χ) (payload : PreparedPayload χ) : Prop where
  nonempty : payload.members ≠ []
  nodup : payload.members.Nodup
  pending : ∀ m ∈ payload.members, StandsAt s.batches .pending m
  branch : ∃ branch, ∀ m ∈ payload.members, ∃ header, headerAt s.batches m = some header ∧
    header.branch = branch
  follows : ∀ e ∈ s.retained.entries, ∀ m ∈ e.2.members, ∀ m' ∈ payload.members, m < m'

namespace Moment

def push (m : Moment κ χ) (branch : κ) (executionNow : Timestamp) (rows : Nat) : Moment κ χ :=
  { m with
    store := { m.store with
      batches := m.store.batches ++ [⟨⟨m.carriers, branch, executionNow⟩, List.replicate rows {}⟩] }
    carriers := m.carriers + 1 }

def next (m : Moment κ χ) : Call κ χ δ φ → Moment κ χ
  | .push branch executionNow rows => m.push branch executionNow rows
  | .retain payload =>
    { m with
      store := (m.store.retain (φ := φ) payload).1
      packed := m.packed ++ [packedAs m.store.batches payload] }
  | .write => { m with outstanding := some m.store.retained.keys }
  | .answer outcome =>
    match m.outstanding with
    | none => m
    | some firstMembers =>
      { m with store := (m.store.answers firstMembers outcome).1, outstanding := none }
  | .reject position =>
    { m with
      store := { m.store with
        batches := (markAll (EmitterPublishBatch.markRejectedAfterDelivery (φ := φ))
          (fun index => s!"record rejection references missing emitter batch {index}")
          m.store.batches [position]).1 } }
  | .retire retired =>
    match m.store.retireBranches retired with
    | none => m
    | some (store, left) => { m with store, outstanding := none, left := m.left ++ left }

def guard (m : Moment κ χ) : Call κ χ δ φ → Prop
  | .retain payload => m.store.Packable payload
  | .reject position => StandsAt m.store.batches .pending position
  | .push .. | .write | .answer _ | .retire _ => True

end Moment

def preparedPayloads (κ χ δ φ : Type) : System (Moment κ χ) (Call κ χ δ φ) where
  guard := Moment.guard
  next := Moment.next

def PublishRow.Once (r : PublishRow) : Prop :=
  r.acks = match r.state with
    | .pending | .prepared | .staged => []
    | .delivered => [.success]
    | .rejected => [.messageError]

structure Moment.Sound (m : Moment κ χ) : Prop where
  fromOneBranch : ∀ e ∈ m.store.retained.entries, Store.FromOneBranch m.store.batches e
  nodup : ∀ e ∈ m.store.retained.entries, e.2.members.Nodup
  ordered : m.store.retained.entries.Pairwise fun a b =>
    ∀ p ∈ a.2.members, ∀ q ∈ b.2.members, p < q
  prepared (p : EmitterRecordPosition) : StandsAt m.store.batches .prepared p ↔
    ∃ e ∈ m.store.retained.entries, p ∈ e.2.members
  once {p r} : rowAt m.store.batches p = some r → r.Once
  left : ∀ batch ∈ m.left, ∀ r ∈ batch.rows, r.acks.length ≤ 1
  held : (m.store.retained.entries.map fun e => packedAs m.store.batches e.2).Sublist m.packed
  outstanding {firstMembers} : m.outstanding = some firstMembers →
    firstMembers.Nodup ∧ ∀ k ∈ firstMembers, k ∈ m.store.retained.keys

namespace Moment

variable {m : Moment κ χ}

theorem sound_start : ({} : Moment κ χ).Sound where
  fromOneBranch := nofun
  nodup := nofun
  ordered := .nil
  prepared _ := ⟨fun ⟨_, h, _⟩ => (nomatch h), nofun⟩
  once h := nomatch h
  left := nofun
  held := .slnil
  outstanding := nofun

theorem Sound.tidy (h : m.Sound) : m.store.Tidy where
  prepared he p hp := (h.prepared p).mpr ⟨_, he, hp⟩
  nodup he := h.nodup _ he
  alone {e e' p} he he' hp hp' := by
    obtain ⟨i, hi, rfl⟩ := getElem_of_mem he
    obtain ⟨j, hj, rfl⟩ := getElem_of_mem he'
    have hordered := pairwise_iff_getElem.mp h.ordered
    rcases lt_trichotomy i j with hij | rfl | hij
    · exact absurd (hordered i j hi hj hij p hp p hp') (lt_irrefl p)
    · rfl
    · exact absurd (hordered j i hj hi hij p hp' p hp) (lt_irrefl p)

/-! ### Steps that keep the retained payloads -/

variable {batches : List (EmitterPublishBatch κ)}

theorem packedAs_congr {payload : PreparedPayload χ}
    (h : ∀ p ∈ payload.members, headerAt batches' p = headerAt batches p) :
    packedAs batches' payload = packedAs batches payload := by
  rw [packedAs, packedAs, map_congr_left fun p hp => by rw [h p hp]]

variable {e : EmitterRecordPosition × PreparedPayload χ}

theorem fromOneBranch_congr (h : ∀ p ∈ e.2.members, headerAt batches' p = headerAt batches p)
    (he : Store.FromOneBranch batches e) : Store.FromOneBranch batches' e := by
  obtain ⟨branch, hbranch⟩ := he.branch
  exact ⟨he.keyed, branch, fun p hp => h p hp ▸ hbranch p hp⟩

theorem Sound.withBatches (h : m.Sound) {carriers : Nat}
    (hheader : ∀ e ∈ m.store.retained.entries, ∀ p ∈ e.2.members,
      headerAt batches p = headerAt m.store.batches p)
    (hprepared : ∀ p, StandsAt batches .prepared p ↔ StandsAt m.store.batches .prepared p)
    (honce : ∀ {p r}, rowAt batches p = some r → r.Once) :
    ({ m with store := { m.store with batches }, carriers } : Moment κ χ).Sound where
  fromOneBranch e he := fromOneBranch_congr (hheader e he) (h.fromOneBranch e he)
  nodup := h.nodup
  ordered := h.ordered
  prepared p := (hprepared p).trans (h.prepared p)
  once := honce
  left := h.left
  held := by
    rw [map_congr_left fun e he => packedAs_congr (hheader e he)]
    exact h.held
  outstanding := h.outstanding

variable {p : EmitterRecordPosition}

theorem rowAt_push (h : rowAt (batches ++ [batch]) p = some r) :
    rowAt batches p = some r ∨ r ∈ batch.rows := by
  obtain ⟨b, hb, hr⟩ := Option.bind_eq_some_iff.mp h
  rcases Nat.lt_or_ge p.batchIndex batches.length with hlt | hge
  · rw [getElem?_append_left hlt] at hb
    left
    rw [rowAt, hb]
    exact hr
  · rw [getElem?_append_right hge] at hb
    have hmem := mem_of_getElem? hb
    rw [mem_singleton] at hmem
    subst hmem
    exact .inr (mem_of_getElem? hr)

theorem getElem?_push {batch b : EmitterPublishBatch κ}
    {i : Nat} (h : batches[i]? = some b) : (batches ++ [batch])[i]? = some b := by
  rw [List.getElem?_append_left (List.getElem?_eq_some_iff.mp h).1, h]

theorem Sound.push (h : m.Sound) (branch : κ) (executionNow : Timestamp) (rows : Nat) :
    (m.push branch executionNow rows).Sound := by
  refine h.withBatches ?_ ?_ ?_
  · intro e he p hp
    obtain ⟨_, hbranch⟩ := (h.fromOneBranch e he).branch
    obtain ⟨header, hheader, _⟩ := hbranch p hp
    obtain ⟨b, hb, rfl⟩ := Option.map_eq_some_iff.mp hheader
    rw [headerAt, headerAt, getElem?_push hb, hb]
  · intro p
    constructor
    · rintro ⟨r, hr, hstate⟩
      rcases rowAt_push hr with hr | hr
      · exact ⟨r, hr, hstate⟩
      · obtain rfl := eq_of_mem_replicate hr
        cases hstate
    · rintro ⟨r, hr, hstate⟩
      obtain ⟨b, hb, hrow⟩ := Option.bind_eq_some_iff.mp hr
      exact ⟨r, by rw [rowAt, getElem?_push hb]; exact hrow, hstate⟩
  · intro p r hr
    rcases rowAt_push hr with hr | hr
    · exact h.once hr
    · obtain rfl := eq_of_mem_replicate hr
      rfl

theorem once_of_movedAt (h : MovedAt members target calls batches batches')
    (hsource : ∀ p ∈ members, StandsAt batches source p)
    (hcalls : ∀ {r : PublishRow}, r.Once → r.state = source → (r.moved target calls).Once)
    (honce : ∀ {p r}, rowAt batches p = some r → r.Once) (hr : rowAt batches' p = some r) : r.Once := by
  rw [h.rows] at hr
  split at hr
  case isTrue hp =>
    obtain ⟨r₀, hr₀, hstate⟩ := hsource p hp
    rw [hr₀] at hr
    cases hr
    exact hcalls (honce hr₀) hstate
  case isFalse => exact honce hr

theorem once_moved {r : PublishRow}
    (h : r.Once) (hstate : r.state = source) (hsource : source = .pending ∨ source = .prepared)
    (hcalls : (⟨target, calls⟩ : PublishRow).Once) : (r.moved target calls).Once := by
  have hacks : r.acks = [] := by
    rw [PublishRow.Once, hstate] at h
    rcases hsource with rfl | rfl <;> exact h
  rw [PublishRow.moved, hacks]
  exact hcalls

theorem Sound.reject (h : m.Sound) (hp : StandsAt m.store.batches .pending p) :
    (m.next (.reject p : Call κ χ δ φ)).Sound := by
  obtain ⟨batches, hmark, hmoved⟩ := markAll_eq_ok
    (fun index => s!"record rejection references missing emitter batch {index}")
    (moves_markRejectedAfterDelivery (φ := φ)) (nodup_singleton p)
    (List.forall_mem_singleton.mpr hp)
  rw [next, hmark]
  refine h.withBatches ?_ ?_ ?_
  · exact fun e _ q _ => hmoved.headerAt q
  · intro q
    by_cases hq : q ∈ [p]
    · obtain rfl := mem_singleton.mp hq
      rw [hmoved.standsAt_target hq hp]
      refine ⟨nofun, fun hprepared => ?_⟩
      obtain ⟨r, hr, hstate⟩ := hp
      obtain ⟨r', hr', hstate'⟩ := hprepared
      rw [hr] at hr'
      cases hr'
      rw [hstate] at hstate'
      cases hstate'
    · exact hmoved.standsAt hq
  · exact once_of_movedAt hmoved (List.forall_mem_singleton.mpr hp)
      (fun hr hstate => once_moved hr hstate (.inl rfl) rfl) h.once

/-! ### Preparing, writing and answering -/

variable {s : Store κ χ}

theorem retain_of_packable
    (h : s.Packable payload) : ∃ batches first, payload.members.head? = some first ∧
      s.retain (φ := φ) payload = (⟨batches, s.retained.insert first payload⟩, .ok ()) ∧
      MovedAt payload.members .prepared [] s.batches batches := by
  obtain ⟨batches, hmark, hmoved⟩ := markAll_eq_ok
    (fun index => s!"a prepared payload references missing emitter batch {index}")
    (moves_markPrepared (φ := φ)) h.nodup h.pending
  obtain ⟨first, members, hmembers⟩ := exists_cons_of_ne_nil h.nonempty
  have hfirst : payload.members.head? = some first := by rw [hmembers]; rfl
  refine ⟨batches, first, hfirst, ?_, hmoved⟩
  rw [Store.retain, hmark]
  simp only [hfirst]

theorem Sound.retain (h : m.Sound)
    (hp : m.store.Packable payload) : (m.next (.retain payload : Call κ χ δ φ)).Sound := by
  obtain ⟨batches, first, hfirst, hretain, hmoved⟩ := retain_of_packable (φ := φ) hp
  have hmem : first ∈ payload.members := mem_of_mem_head? hfirst
  have hentries : (m.store.retained.insert first payload).entries =
      m.store.retained.entries ++ [(first, payload)] :=
    SortedMap.entries_insert_of_lt fun e he =>
      hp.follows e he e.1 (h.fromOneBranch e he).first_mem first hmem
  have hheader : ∀ (e : EmitterRecordPosition × PreparedPayload χ), ∀ p ∈ e.2.members,
      headerAt batches p = headerAt m.store.batches p := fun _ p _ => hmoved.headerAt p
  rw [next, hretain]
  constructor
  case fromOneBranch =>
    intro e he
    rw [hentries, mem_append, mem_singleton] at he
    rcases he with he | rfl
    · exact fromOneBranch_congr (hheader e) (h.fromOneBranch e he)
    · exact fromOneBranch_congr (hheader (first, payload)) ⟨hfirst, hp.branch⟩
  case nodup =>
    intro e he
    rw [hentries, mem_append, mem_singleton] at he
    rcases he with he | rfl
    · exact h.nodup e he
    · exact hp.nodup
  case ordered =>
    simp only [hentries]
    refine pairwise_append.mpr ⟨h.ordered, pairwise_singleton _ _, ?_⟩
    intro e he e' he'
    obtain rfl := mem_singleton.mp he'
    exact hp.follows e he
  case prepared =>
    intro p
    simp only [hentries, mem_append, mem_singleton]
    by_cases hmem : p ∈ payload.members
    · refine ⟨fun _ => ⟨_, .inr rfl, hmem⟩, fun _ => ?_⟩
      exact (hmoved.standsAt_target hmem (hp.pending p hmem)).mpr rfl
    · refine (hmoved.standsAt hmem).trans ((h.prepared p).trans ?_)
      constructor
      · rintro ⟨e, he, hpe⟩
        exact ⟨e, .inl he, hpe⟩
      · rintro ⟨e, he | rfl, hpe⟩
        · exact ⟨e, he, hpe⟩
        · exact absurd hpe hmem
  case once =>
    exact once_of_movedAt hmoved hp.pending
      (fun hr hstate => once_moved hr hstate (.inl rfl) rfl) h.once
  case left => exact h.left
  case held =>
    simp only [hentries, map_append, map_cons, map_nil]
    rw [map_congr_left fun e _ => packedAs_congr (hheader e),
      packedAs_congr (hheader (first, payload))]
    exact h.held.append (.refl _)
  case outstanding =>
    intro w hw
    obtain ⟨hnodup, hkeys⟩ := h.outstanding hw
    refine ⟨hnodup, fun k hk => ?_⟩
    simp only [SortedMap.keys, hentries, map_append]
    exact mem_append_left _ (hkeys k hk)

theorem Sound.write (h : m.Sound) : (m.next (.write : Call κ χ δ φ)).Sound :=
  { h with
    outstanding := fun hw => by
      cases hw
      exact ⟨SortedMap.nodup_keys _, fun _ hk => hk⟩ }

theorem mem_answered_iff
    (ha : Store.Answered firstMembers outcome s s' answers) : e ∈ s'.retained.entries ↔
      e ∈ s.retained.entries ∧
        ∀ i ∈ CheckedAnswers.answeredRecords outcome, firstMembers[i]? ≠ some e.1 := by
  rw [ha.retained, mem_filter, decide_eq_true_eq]

theorem mem_flatMap_membersOf (hs : s.Tidy) {records : List Nat} (he : e ∈ s.retained.entries) (hp : p ∈ e.2.members) :
    p ∈ records.flatMap (s.membersOf firstMembers) ↔
      ∃ i ∈ records, firstMembers[i]? = some e.1 := by
  rw [mem_flatMap]
  constructor
  · rintro ⟨i, hi, hpi⟩
    obtain ⟨e', he', hei, hpe'⟩ := Store.exists_of_mem_membersOf hpi
    cases hs.alone he he' hp hpe'
    exact ⟨i, hi, hei⟩
  · rintro ⟨i, hi, hei⟩
    exact ⟨i, hi, by rwa [Store.membersOf_eq hei he]⟩

theorem standsAt_of_mem_flatMap (hs : s.Tidy) {records : List Nat}
    (hp : p ∈ records.flatMap (s.membersOf firstMembers)) : StandsAt s.batches .prepared p := by
  obtain ⟨i, _, hpi⟩ := mem_flatMap.mp hp
  obtain ⟨e, he, _, hpe⟩ := Store.exists_of_mem_membersOf hpi
  exact hs.prepared he p hpe

section Answered

variable {s s' : Store κ χ} {firstMembers : List EmitterRecordPosition}
  {outcome : PerRecordOutcome δ φ} {answers : RowAnswers δ φ}

section
variable (ha : Store.Answered firstMembers outcome s s' answers)
include ha

theorem answered_prepared_iff : StandsAt s'.batches .prepared p ↔
      StandsAt s.batches .prepared p ∧
        p ∉ (CheckedAnswers.answeredRecords outcome).flatMap (s.membersOf firstMembers) := by
  rw [CheckedAnswers.answeredRecords, flatMap_append, mem_append, StandsAt, ha.rows]
  split
  case isTrue hp =>
    refine ⟨?_, fun h => absurd (.inl hp) h.2⟩
    rintro ⟨r, hr, hstate⟩
    obtain ⟨r₀, _, rfl⟩ := Option.map_eq_some_iff.mp hr
    cases hstate
  case isFalse hd =>
    split
    case isTrue hp =>
      refine ⟨?_, fun h => absurd (.inr hp) h.2⟩
      rintro ⟨r, hr, hstate⟩
      obtain ⟨r₀, _, rfl⟩ := Option.map_eq_some_iff.mp hr
      cases hstate
    case isFalse hr => exact (and_iff_left fun h => h.elim hd hr).symm

theorem answered_once (hs : s.Tidy)
    (honce : ∀ {p r}, rowAt s.batches p = some r → r.Once)
    (hr : rowAt s'.batches p = some r) : r.Once := by
  rw [ha.rows] at hr
  split at hr
  case isTrue hp =>
    obtain ⟨r₀, hr₀, hstate⟩ := standsAt_of_mem_flatMap hs hp
    rw [hr₀] at hr
    cases hr
    exact once_moved (honce hr₀) hstate (.inr rfl) rfl
  case isFalse =>
    split at hr
    case isTrue hp =>
      obtain ⟨r₀, hr₀, hstate⟩ := standsAt_of_mem_flatMap hs hp
      rw [hr₀] at hr
      cases hr
      exact once_moved (honce hr₀) hstate (.inr rfl) rfl
    case isFalse => exact honce hr

end

end Answered

theorem Sound.answered (h : m.Sound)
    (ha : Store.Answered firstMembers outcome m.store s' answers) :
    ({ m with store := s', outstanding := none } : Moment κ χ).Sound := by
  have hheader : ∀ (e : EmitterRecordPosition × PreparedPayload χ), ∀ p ∈ e.2.members,
      headerAt s'.batches p = headerAt m.store.batches p := fun _ p _ => by
    rw [headerAt_eq, headerAt_eq, ha.headers]
  constructor
  case fromOneBranch =>
    intro e he
    exact fromOneBranch_congr (hheader e) (h.fromOneBranch e ((mem_answered_iff ha).mp he).1)
  case nodup => exact fun e he => h.nodup e ((mem_answered_iff ha).mp he).1
  case ordered =>
    simp only [ha.retained]
    exact h.ordered.filter _
  case prepared =>
    intro p
    rw [answered_prepared_iff ha, h.prepared p]
    constructor
    · rintro ⟨⟨e, he, hp⟩, hnot⟩
      refine ⟨e, (mem_answered_iff ha).mpr ⟨he, fun i hi hei => hnot ?_⟩, hp⟩
      exact (mem_flatMap_membersOf h.tidy he hp).mpr ⟨i, hi, hei⟩
    · rintro ⟨e, he, hp⟩
      obtain ⟨he, hnot⟩ := (mem_answered_iff ha).mp he
      refine ⟨⟨e, he, hp⟩, fun hmem => ?_⟩
      obtain ⟨i, hi, hei⟩ := (mem_flatMap_membersOf h.tidy he hp).mp hmem
      exact hnot i hi hei
  case once => exact answered_once ha h.tidy h.once
  case left => exact h.left
  case held =>
    refine List.Sublist.trans ?_ h.held
    rw [map_congr_left fun e _ => packedAs_congr (hheader e), ha.retained]
    exact filter_sublist.map _
  case outstanding => exact nofun

theorem Sound.answer (h : m.Sound) (outcome : PerRecordOutcome δ φ) :
    (m.next (.answer outcome : Call κ χ δ φ)).Sound := by
  rw [next]
  split
  case h_1 => exact h
  case h_2 firstMembers hw =>
    obtain ⟨hnodup, hkeys⟩ := h.outstanding hw
    by_cases hwf : CheckedAnswers.WellFormed outcome firstMembers.length
    · obtain ⟨s', answers, heq, ha, _⟩ := Store.answers_of_wellFormed h.tidy hnodup hkeys hwf
      rw [heq]
      exact h.answered ha
    · obtain ⟨error, heq⟩ := Store.answers_of_not_wellFormed m.store hwf
      rw [heq]
      exact { h with outstanding := nofun }

/-! ### Retiring -/

section Retirement

open Store

variable {retired : κ → Bool} {s' : Store κ χ} {left : List (EmitterPublishBatch κ)}

theorem Sound.mem_retirement (h : m.Sound) (hr : Retirement retired m.store s' left) : e' ∈ s'.retained.entries ↔
      ∃ e ∈ m.store.retained.entries, (∀ p ∈ e.2.members, Stays retired m.store.batches p) ∧
        relocateEntry retired m.store.batches e = e' := by
  rw [hr.retained, mem_map]
  simp only [mem_filter]
  constructor
  · rintro ⟨e, ⟨he, hstays⟩, rfl⟩
    have hbranch := h.fromOneBranch e he
    exact ⟨e, he, hbranch.stays_of_mem hbranch.first_mem (staysEntry_iff.mp hstays), rfl⟩
  · rintro ⟨e, he, hstays, rfl⟩
    exact ⟨e, ⟨he, staysEntry_iff.mpr (hstays e.1 (h.fromOneBranch e he).first_mem)⟩, rfl⟩

theorem Sound.retirement (h : m.Sound) (hr : Retirement retired m.store s' left) :
    ({ m with store := s', outstanding := none, left := m.left ++ left } : Moment κ χ).Sound := by
  constructor
  case fromOneBranch =>
    intro e' he'
    obtain ⟨e, he, hstays, rfl⟩ := (h.mem_retirement hr).mp he'
    obtain ⟨hkeyed, branch, hbranch⟩ := h.fromOneBranch e he
    refine ⟨?_, branch, ?_⟩
    · simp only [relocateEntry, relocatePayload, head?_map, hkeyed, Option.map_some]
    · intro p' hp'
      obtain ⟨p, hp, rfl⟩ := mem_map.mp hp'
      rw [hr.batches, (hstays p hp).headerAt]
      exact hbranch p hp
  case nodup =>
    intro e' he'
    obtain ⟨e, he, hstays, rfl⟩ := (h.mem_retirement hr).mp he'
    refine (h.nodup e he).map_on fun p hp q hq heq => ?_
    rcases lt_trichotomy p q with hlt | rfl | hlt
    · exact absurd heq ((hstays p hp).relocate_lt hlt).ne
    · rfl
    · exact absurd heq ((hstays q hq).relocate_lt hlt).ne'
  case ordered =>
    simp only [hr.retained]
    refine pairwise_map.mpr ((h.ordered.filter _).imp_of_mem ?_)
    intro a b ha _ hab p' hp' q' hq'
    obtain ⟨ha, hstays⟩ := mem_filter.mp ha
    have hbranch := h.fromOneBranch a ha
    obtain ⟨p, hp, rfl⟩ := mem_map.mp hp'
    obtain ⟨q, hq, rfl⟩ := mem_map.mp hq'
    have hp' := hbranch.stays_of_mem hbranch.first_mem (staysEntry_iff.mp hstays) p hp
    exact hp'.relocate_lt (hab p hp q hq)
  case prepared =>
    intro p'
    constructor
    · rintro ⟨r, hrow, hstate⟩
      rw [hr.batches] at hrow
      obtain ⟨p, rfl, hstays, hrow⟩ := exists_relocate_eq hrow
      obtain ⟨e, he, hp⟩ := (h.prepared p).mp ⟨r, hrow, hstate⟩
      refine ⟨_, (h.mem_retirement hr).mpr ⟨e, he, ?_, rfl⟩, mem_map_of_mem hp⟩
      exact (h.fromOneBranch e he).stays_of_mem hp hstays
    · rintro ⟨e', he', hp'⟩
      obtain ⟨e, he, hstays, rfl⟩ := (h.mem_retirement hr).mp he'
      obtain ⟨p, hp, rfl⟩ := mem_map.mp hp'
      rw [StandsAt, hr.batches, (hstays p hp).rowAt]
      exact (h.prepared p).mpr ⟨e, he, hp⟩
  case once =>
    intro p' r hrow
    rw [hr.batches] at hrow
    obtain ⟨p, _, _, hrow⟩ := exists_relocate_eq hrow
    exact h.once hrow
  case left =>
    intro batch hbatch r hrow
    rcases mem_append.mp hbatch with hbatch | hbatch
    · exact h.left batch hbatch r hrow
    · rw [hr.left] at hbatch
      obtain ⟨b, hb, rfl⟩ := mem_map.mp hbatch
      obtain ⟨r₀, hr₀, rfl⟩ := mem_map.mp hrow
      obtain ⟨i, hi⟩ := getElem?_of_mem (mem_filter.mp hb).1
      obtain ⟨j, hj⟩ := getElem?_of_mem hr₀
      have hat : rowAt m.store.batches ⟨i, j⟩ = some r₀ := by
        rw [rowAt, hi]
        exact hj
      have honce := h.once hat
      obtain ⟨state, acks⟩ := r₀
      cases state <;> (cases honce; decide)
  case held =>
    refine List.Sublist.trans ?_ h.held
    rw [hr.retained, map_map, hr.batches,
      map_congr_left (g := fun e => packedAs m.store.batches e.2) fun e he => ?_]
    · exact filter_sublist.map _
    · obtain ⟨he, hstays⟩ := mem_filter.mp he
      have hbranch := h.fromOneBranch e he
      simp only [Function.comp_apply, packedAs, relocateEntry, relocatePayload, map_map]
      congr 1
      refine map_congr_left fun p hp => ?_
      rw [Function.comp_apply,
        (hbranch.stays_of_mem hbranch.first_mem (staysEntry_iff.mp hstays) p hp).headerAt]
      rfl
  case outstanding =>
    intro _ h
    cases h

end Retirement

theorem Sound.retire (h : m.Sound) (retired : κ → Bool) :
    (m.next (.retire retired : Call κ χ δ φ)).Sound := by
  rw [next]
  rcases Store.retireBranches_cases retired h.fromOneBranch with heq | ⟨s', left, heq, hr⟩
  · rw [heq]
    simp only [append_nil]
    exact { h with outstanding := nofun }
  · rw [heq]
    exact h.retirement hr

theorem Sound.next (h : m.Sound) (hg : m.guard call) : (m.next call).Sound := by
  cases call with
  | push branch executionNow rows => exact h.push branch executionNow rows
  | retain payload => exact h.retain hg
  | write => exact h.write
  | answer outcome => exact h.answer outcome
  | reject position => exact h.reject hg
  | retire retired => exact h.retire retired

theorem sound_of_run (h : (preparedPayloads κ χ δ φ).Run {} m) : m.Sound :=
  h.inv sound_start fun h hg => h.next hg

structure Lawful (m : Moment κ χ) (written : χ → Nat → Timestamp → ω) (δ φ : Type) : Prop where
  written : ∃ held : List (Packed χ), held.Sublist m.packed ∧
    held = m.store.retained.entries.map (fun e => packedAs m.store.batches e.2) ∧
    m.store.nextWrite written =
      (held.mapIdx fun record p => written p.content record p.occurredAt, m.store.retained.keys)
  prepared (p : EmitterRecordPosition) : StandsAt m.store.batches .prepared p ↔
    ∃! e, e ∈ m.store.retained.entries ∧ p ∈ e.2.members
  malformed {firstMembers} (outcome : PerRecordOutcome δ φ) : m.outstanding = some firstMembers →
    ¬ CheckedAnswers.WellFormed outcome firstMembers.length →
    ∃ error, m.store.answers firstMembers outcome = (m.store, .error (.error error))
  answered {firstMembers} (outcome : PerRecordOutcome δ φ) : m.outstanding = some firstMembers →
    CheckedAnswers.WellFormed outcome firstMembers.length →
    ∃ store answers, m.store.answers firstMembers outcome = (store, .ok answers) ∧
      Store.Answered firstMembers outcome m.store store answers ∧
      answers.rejected.map (·.id) =
        (outcome.rejected.map (·.id)).flatMap (m.store.membersOf firstMembers)
  once {p r} : rowAt m.store.batches p = some r → r.Once
  left : ∀ batch ∈ m.left, ∀ r ∈ batch.rows, r.acks.length ≤ 1
  retain {payload} : m.store.Packable payload → (m.store.retain (φ := φ) payload).2 = .ok ()
  retire (retired : κ → Bool) : (m.store.retireBranches retired).isSome

theorem Sound.lawful (h : m.Sound) (written : χ → Nat → Timestamp → ω) : m.Lawful written δ φ := by
  constructor
  case written =>
    refine ⟨_, h.held, rfl, ?_⟩
    rw [Store.nextWrite]
    congr 1
    refine ext_getElem? fun i => ?_
    simp only [getElem?_mapIdx, getElem?_map, Option.map_map]
    rfl
  case prepared =>
    intro p
    rw [h.prepared p]
    constructor
    · rintro ⟨e, he, hp⟩
      exact ⟨e, ⟨he, hp⟩, fun e' he' => h.tidy.alone he'.1 he he'.2 hp⟩
    · rintro ⟨e, he, _⟩
      exact ⟨e, he⟩
  case malformed => exact fun outcome _ hwf => Store.answers_of_not_wellFormed m.store hwf
  case answered =>
    intro w outcome hw hwf
    obtain ⟨hnodup, hkeys⟩ := h.outstanding hw
    obtain ⟨s', answers, heq, ha, _⟩ := Store.answers_of_wellFormed h.tidy hnodup hkeys hwf
    refine ⟨s', answers, heq, ha, ?_⟩
    rw [ha.rejected, map_flatMap, flatMap_map]
    refine flatMap_congr fun r _ => ?_
    rw [map_filterMap]
    refine (filterMap_congr fun p hp => ?_).trans filterMap_some
    obtain ⟨e, he, _, hpe⟩ := Store.exists_of_mem_membersOf hp
    obtain ⟨r, hr, _⟩ := h.tidy.prepared he p hpe
    obtain ⟨batch, hbatch, _⟩ := Option.bind_eq_some_iff.mp hr
    rw [Store.rejection, headerAt, hbatch]
    rfl
  case once => exact h.once
  case left => exact h.left
  case retain =>
    intro payload hp
    obtain ⟨batches, first, _, heq, _⟩ := retain_of_packable (φ := φ) hp
    rw [heq]
  case retire =>
    intro retired
    rcases Store.retireBranches_cases retired h.fromOneBranch with heq | ⟨s', left, heq, _⟩ <;>
      rw [heq] <;> rfl

def twoRows : Moment Nat String := ({} : Moment Nat String).push 0 5 2

def bothRows : PreparedPayload String := ⟨[⟨0, 0⟩, ⟨0, 1⟩], 5, "both"⟩

theorem twoRows_packable : twoRows.store.Packable bothRows where
  nonempty := nofun
  nodup := by decide
  pending := by
    simp only [bothRows, forall_mem_cons]
    exact ⟨⟨_, rfl, rfl⟩, ⟨_, rfl, rfl⟩, nofun⟩
  branch := by
    refine ⟨0, ?_⟩
    simp only [bothRows, forall_mem_cons]
    exact ⟨⟨_, rfl, rfl⟩, ⟨_, rfl, rfl⟩, nofun⟩
  follows := nofun

end Moment

end Nervix.Emitter
