import Nervix.Consensus.ReportStoring

/-!
# Removing reports

What is left when revisions are removed and the topologies that no record refers to are collected.
-/

namespace Nervix.Consensus

open Finmap List

namespace TransactionReportRecords

variable {r r' : TransactionReportRecords} {digest : TopologyDigest}
  {identity : TransactionPreviewIdentity} {id : ImpactTopologyId}

structure Drops (gone : TransactionPreviewIdentity → Bool) (r r' : TransactionReportRecords) :
    Prop where
  headers : ∀ i, r'.headers.lookup i = if gone i then none else r.headers.lookup i
  operations : ∀ i k,
    r'.operations.lookup (i, k) = if gone i then none else r.operations.lookup (i, k)
  steps : ∀ i k,
    r'.executionSteps.lookup (i, k) = if gone i then none else r.executionSteps.lookup (i, k)
  topologyHeaders : r'.topologyHeaders = r.topologyHeaders
  topologyNodes : r'.topologyNodes = r.topologyNodes
  topologyEdges : r'.topologyEdges = r.topologyEdges

section remove
variable {gone gone' : TransactionPreviewIdentity → Bool} {r'' : TransactionReportRecords}

theorem Drops.trans (h : r.Drops gone r') (h' : r'.Drops gone' r'') :
    r.Drops (fun i => gone i || gone' i) r'' where
  headers i := by
    rw [h'.headers, h.headers]
    cases gone i <;> cases gone' i <;> rfl
  operations i k := by
    rw [h'.operations, h.operations]
    cases gone i <;> cases gone' i <;> rfl
  steps i k := by
    rw [h'.steps, h.steps]
    cases gone i <;> cases gone' i <;> rfl
  topologyHeaders := h'.topologyHeaders.trans h.topologyHeaders
  topologyNodes := h'.topologyNodes.trans h.topologyNodes
  topologyEdges := h'.topologyEdges.trans h.topologyEdges

theorem Drops.keeps (h : r.Drops gone r') (hi : gone identity = false) : r.Keeps r' identity where
  header := by simp [h.headers, hi]
  operations k := by simp [h.operations, hi]
  steps k := by simp [h.steps, hi]
  graphs id t _ hg := by
    rw [restoreGraph_congr (r := r)]
    · exact hg
    · rw [h.topologyHeaders]
    · rw [h.topologyNodes]
      exact fun _ => rfl
    · rw [h.topologyEdges]
      exact fun _ => rfl

theorem Drops.bounded (h : r.Drops gone r') (hb : r.Bounded) : r'.Bounded where
  operations := by
    intro i k stored hl
    rw [h.operations] at hl
    rw [h.headers]
    split at hl <;> [cases hl; exact if_neg ‹_› ▸ hb.operations hl]
  steps := by
    intro i k stored hl
    rw [h.steps] at hl
    rw [h.headers]
    split at hl <;> [cases hl; exact if_neg ‹_› ▸ hb.steps hl]

theorem Sound.drops (hs : r.Sound digest) (h : r.Drops gone r')
    (hindexed : ∀ i identities, gone i = false → r.revisions.lookup i.transactionId = some identities →
      i ∈ identities → ∃ identities', r'.revisions.lookup i.transactionId = some identities' ∧
        i ∈ identities')
    (hrevisions : ∀ transactionId identities, r'.revisions.lookup transactionId = some identities →
      identities ≠ [] ∧ identities.Nodup ∧ ∀ i ∈ identities, i.transactionId = transactionId ∧
        i ∈ r.headers ∧ gone i = false) : r'.Sound digest where
  graphs id hid := by
    rw [h.topologyHeaders] at hid
    rw [restoreGraph_congr (r := r)]
    · exact hs.graphs id hid
    · rw [h.topologyHeaders]
    · rw [h.topologyNodes]
      exact fun _ => rfl
    · rw [h.topologyEdges]
      exact fun _ => rfl
  toBounded := h.bounded hs.toBounded
  referred := by
    intro i id href
    rw [h.topologyHeaders]
    rcases href with ⟨k, stored, hl, hid⟩ | ⟨k, stored, hl, hid⟩
    · rw [h.operations] at hl
      split at hl <;> [cases hl; exact hs.referred (.inl ⟨k, stored, hl, hid⟩)]
    · rw [h.steps] at hl
      split at hl <;> [cases hl; exact hs.referred (.inr ⟨k, stored, hl, hid⟩)]
  readable := by
    intro i header hl
    rw [h.headers] at hl
    split at hl
    · cases hl
    · rename_i hi
      obtain ⟨report, hr⟩ := hs.readable hl
      exact ⟨report, (h.keeps (by simpa using hi)).report hr⟩
  indexed := by
    intro i header hl
    rw [h.headers] at hl
    split at hl
    · cases hl
    · rename_i hi
      obtain ⟨identities, hr, hmem⟩ := hs.indexed hl
      exact hindexed i identities (by simpa using hi) hr hmem
  revisions := by
    intro transactionId identities hl
    obtain ⟨hne, hnodup, hall⟩ := hrevisions transactionId identities hl
    refine ⟨hne, hnodup, fun i hi => ?_⟩
    obtain ⟨hid, hmem, hgone⟩ := hall i hi
    obtain ⟨header, hh⟩ := mem_iff.mp hmem
    exact ⟨hid, mem_iff.mpr ⟨header, by simp [h.headers, hgone, hh]⟩⟩

variable {m : RetainedReports}

theorem Drops.reads (h : r.Drops gone r') (hr : r.Refines digest m)
    (hs : r'.Sound digest) : r'.Refines digest (m.retain fun i _ => !gone i) where
  sound := hs
  reads i report := by
    rw [lookup_retain, Option.filter_eq_some_iff]
    cases hg : gone i with
    | true =>
      simp only [Bool.not_true, Bool.false_eq_true, and_false, false_iff]
      intro hreport
      obtain ⟨header, hl⟩ := header_of_report hreport
      rw [h.headers, hg] at hl
      cases hl
    | false =>
      simp only [Bool.not_false, and_true]
      rw [hr.sound.report_of_keeps (h.keeps hg)]
      exact hr.reads i report

theorem removeRevision_drops (identity : TransactionPreviewIdentity) (hb : r.Bounded) :
    r.Drops (fun i => i = identity) (r.removeRevision identity).1 := by
  have hitems : ∀ {σ : Type} (records : Records (TransactionPreviewIdentity × Nat) σ) (n : Nat),
      (∀ k stored, records.lookup (identity, k) = some stored → k < n) → ∀ i k,
      (records.eraseAll identity n).lookup (i, k) =
        if decide (i = identity) then none else records.lookup (i, k) := by
    intro σ records n hn i k
    rw [lookup_eraseAll]
    by_cases hi : i = identity
    · subst hi
      by_cases hk : k < n
      · simp [hk]
      · cases hl : records.lookup (i, k) with
        | none => simp
        | some stored => exact absurd (hn k stored hl) hk
    · simp [hi]
  unfold removeRevision
  split
  · rename_i hl
    refine ⟨fun i => ?_, hitems _ 0 fun k stored hk => ?_, hitems _ 0 fun k stored hk => ?_,
      rfl, rfl, rfl⟩
    · by_cases hi : i = identity
      · subst hi
        simp [hl]
      · simp [hi]
    · obtain ⟨header, hh, -⟩ := hb.operations hk
      cases hl.symm.trans hh
    · obtain ⟨header, hh, -⟩ := hb.steps hk
      cases hl.symm.trans hh
  · rename_i header hl
    refine ⟨fun i => ?_, hitems _ _ fun k stored hk => ?_, hitems _ _ fun k stored hk => ?_,
      rfl, rfl, rfl⟩
    · simp only [lookup_erase_eq, decide_eq_true_eq]
    · obtain ⟨header', hh, hlt⟩ := hb.operations hk
      cases hl.symm.trans hh
      exact hlt
    · obtain ⟨header', hh, hlt⟩ := hb.steps hk
      cases hl.symm.trans hh
      exact hlt

theorem removeRevision_snd : (r.removeRevision identity).2 = true ↔ identity ∈ r.headers := by
  unfold removeRevision
  split <;> simp [mem_iff, *]

theorem removeRevision_revisions : (r.removeRevision identity).1.revisions = r.revisions := by
  unfold removeRevision
  split <;> rfl

theorem foldl_removeRevision_drops : ∀ (identities : List TransactionPreviewIdentity)
    (r : TransactionReportRecords) (removed : Bool), r.Bounded →
    let result := identities.foldl (fun (r, removed) identity =>
      let (r, removedOne) := r.removeRevision identity
      (r, removed || removedOne)) (r, removed)
    r.Drops (fun i => i ∈ identities) result.1 ∧ result.1.revisions = r.revisions ∧
      (removed = true ∨ (∃ i ∈ identities, i ∈ r.headers) → result.2 = true) := by
  intro identities
  induction identities with
  | nil =>
    intro r removed _
    refine ⟨⟨?_, ?_, ?_, rfl, rfl, rfl⟩, rfl, ?_⟩ <;> simp
  | cons identity identities ih =>
    intro r removed hb
    have hone := removeRevision_drops identity hb
    obtain ⟨hd, hr, hflag⟩ := ih (r.removeRevision identity).1
      (removed || (r.removeRevision identity).2) (hone.bounded hb)
    refine ⟨?_, hr.trans removeRevision_revisions, fun hi => hflag ?_⟩
    · have hboth := hone.trans hd
      simp only [mem_cons, Bool.decide_or]
      exact hboth
    · rcases hi with hi | ⟨i, hmem, hi⟩
      · exact .inl (by simp [hi])
      · rcases mem_cons.mp hmem with rfl | hmem
        · exact .inl (by simp [removeRevision_snd.mpr hi])
        · by_cases he : i = identity
          · subst he
            exact .inl (by simp [removeRevision_snd.mpr hi])
          · refine .inr ⟨i, hmem, ?_⟩
            obtain ⟨header, hh⟩ := mem_iff.mp hi
            exact mem_iff.mpr ⟨header, by simp [hone.headers, he, hh]⟩

theorem removeRevisions_drops (identities : List TransactionPreviewIdentity) (hb : r.Bounded) :
    r.Drops (fun i => i ∈ identities) (r.removeRevisions identities).1 ∧
      (r.removeRevisions identities).1.revisions = r.revisions ∧
      ((∃ i ∈ identities, i ∈ r.headers) → (r.removeRevisions identities).2 = true) := by
  obtain ⟨hd, hr, hflag⟩ := foldl_removeRevision_drops identities r false hb
  exact ⟨hd, hr, fun hi => hflag (.inr hi)⟩

/-! ### Collecting topologies -/

structure Collected (r : TransactionReportRecords) : Prop where
  headers : ∀ id ∈ r.topologyHeaders, ∃ identity ∈ r.headers, r.RefersTo identity id
  nodes : ∀ id i, (id, i) ∈ r.topologyNodes → ∃ identity ∈ r.headers, r.RefersTo identity id
  edges : ∀ id i, (id, i) ∈ r.topologyEdges → ∃ identity ∈ r.headers, r.RefersTo identity id

theorem Bounded.mem_headers (hb : r.Bounded) (h : r.RefersTo identity id) :
    identity ∈ r.headers := by
  rcases h with ⟨i, stored, hl, -⟩ | ⟨i, stored, hl, -⟩
  · obtain ⟨header, hh, -⟩ := hb.operations hl
    exact mem_iff.mpr ⟨header, hh⟩
  · obtain ⟨header, hh, -⟩ := hb.steps hl
    exact mem_iff.mpr ⟨header, hh⟩

theorem restoreGraph_collect (h : id ∈ r.referenced) :
    r.collectUnreferencedTopologies.restoreGraph id = r.restoreGraph id := by
  have hkept : ∀ {κ β : Type} [DecidableEq κ] (m : Records κ β) (k : κ) (p : κ → β → Bool),
      (∀ b, p k b = true) → (m.retain p).lookup k = m.lookup k := by
    intro κ β _ m k p hp
    rw [lookup_retain]
    cases m.lookup k <;> simp [hp]
  exact restoreGraph_congr (hkept _ _ _ fun _ => decide_eq_true h)
    (fun _ => hkept _ _ _ fun _ => decide_eq_true h) fun _ => hkept _ _ _ fun _ => decide_eq_true h

theorem keeps_collect : r.Keeps r.collectUnreferencedTopologies identity where
  header := rfl
  operations _ := rfl
  steps _ := rfl
  graphs id t href hg := by
    rw [restoreGraph_collect (mem_referenced.mpr ⟨identity, href⟩)]
    exact hg

theorem mem_of_retain {κ β : Type} [DecidableEq κ] {m : Records κ β} {p : κ → Bool} {k : κ}
    (h : k ∈ m.retain fun k _ => p k) : p k = true ∧ k ∈ m := by
  obtain ⟨b, hb⟩ := mem_iff.mp h
  rw [lookup_retain, Option.filter_eq_some_iff] at hb
  exact ⟨hb.2, mem_iff.mpr ⟨b, hb.1⟩⟩

theorem Sound.collected (hs : r.Sound digest) : r.collectUnreferencedTopologies.Collected := by
  have hreferenced : ∀ id ∈ r.referenced, ∃ identity ∈ r.headers, r.RefersTo identity id := by
    intro id hid
    obtain ⟨identity, href⟩ := mem_referenced.mp hid
    exact ⟨identity, hs.mem_headers href, href⟩
  refine ⟨fun id h => ?_, fun id i h => ?_, fun id i h => ?_⟩
  · exact hreferenced id (of_decide_eq_true (mem_of_retain h).1)
  · exact hreferenced id (of_decide_eq_true (mem_of_retain h).1)
  · exact hreferenced id (of_decide_eq_true (mem_of_retain h).1)

theorem Sound.collect (hs : r.Sound digest) : r.collectUnreferencedTopologies.Sound digest where
  operations := hs.operations
  steps := hs.steps
  graphs := by
    intro id hid
    obtain ⟨hp, hmem⟩ := mem_of_retain hid
    rw [restoreGraph_collect (of_decide_eq_true hp)]
    exact hs.graphs id hmem
  referred := by
    intro identity id href
    have href : r.RefersTo identity id := href
    obtain ⟨header, hh⟩ := mem_iff.mp (hs.referred href)
    refine mem_iff.mpr ⟨header, ?_⟩
    simp only [collectUnreferencedTopologies, lookup_retain, hh]
    simp [mem_referenced.mpr ⟨identity, href⟩]
  readable := by
    intro identity header hl
    obtain ⟨report, hr⟩ := hs.readable hl
    exact ⟨report, keeps_collect.report hr⟩
  indexed := hs.indexed
  revisions := hs.revisions

theorem Refines.collect (h : r.Refines digest m) :
    r.collectUnreferencedTopologies.Refines digest m where
  sound := h.sound.collect
  reads identity report := by
    rw [h.sound.report_of_keeps keeps_collect]
    exact h.reads identity report

/-! ### Retaining one revision -/

theorem Drops.congr (h : r.Drops gone r') (hb : r.Bounded)
    (hg : ∀ i ∈ r.headers, gone i = gone' i) : r.Drops gone' r' where
  headers i := by
    rw [h.headers]
    cases hl : r.headers.lookup i with
    | none => simp
    | some header => rw [hg i (mem_iff.mpr ⟨header, hl⟩)]
  operations i k := by
    rw [h.operations]
    cases hl : r.operations.lookup (i, k) with
    | none => simp
    | some stored =>
      obtain ⟨header, hh, -⟩ := hb.operations hl
      rw [hg i (mem_iff.mpr ⟨header, hh⟩)]
  steps i k := by
    rw [h.steps]
    cases hl : r.executionSteps.lookup (i, k) with
    | none => simp
    | some stored =>
      obtain ⟨header, hh, -⟩ := hb.steps hl
      rw [hg i (mem_iff.mpr ⟨header, hh⟩)]
  topologyHeaders := h.topologyHeaders
  topologyNodes := h.topologyNodes
  topologyEdges := h.topologyEdges

theorem drops_none : r.Drops (fun _ => false) r :=
  ⟨fun _ => rfl, fun _ _ => rfl, fun _ _ => rfl, rfl, rfl, rfl⟩

theorem Drops.withRevisions {revisions : Records TransactionId (List TransactionPreviewIdentity)}
    (h : r.Drops gone r') : r.Drops gone { r' with revisions := revisions } :=
  ⟨h.headers, h.operations, h.steps, h.topologyHeaders, h.topologyNodes, h.topologyEdges⟩

variable {transactionId : TransactionId}

theorem Sound.mem_revisions
    (hs : r.Sound digest) (hl : r.revisions.lookup transactionId = some identities)
    (hi : identity ∈ r.headers) : identity ∈ identities ↔ identity.transactionId = transactionId := by
  refine ⟨fun h => ((hs.revisions hl).2.2 identity h).1, fun h => ?_⟩
  obtain ⟨header, hh⟩ := mem_iff.mp hi
  obtain ⟨identities', hl', hmem⟩ := hs.indexed hh
  rw [h] at hl'
  cases hl.symm.trans hl'
  exact hmem

def isOther (identity i : TransactionPreviewIdentity) : Bool :=
  i.transactionId = identity.transactionId && i ≠ identity

structure Retains (digest : TopologyDigest) (r : TransactionReportRecords)
    (identity : TransactionPreviewIdentity) (r' : TransactionReportRecords) : Prop where
  drops : r.Drops (isOther identity) r'
  sound : r'.Sound digest
  revisions : ∀ transactionId, r'.revisions.lookup transactionId =
    if transactionId = identity.transactionId then some [identity]
    else r.revisions.lookup transactionId

theorem Sound.retains (hs : r.Sound digest)
    (hl : r.revisions.lookup identity.transactionId = some identities)
    (hmem : identity ∈ identities)
    (hd : r.Drops (isOther identity) r') (hr : r'.revisions = r.revisions) :
    Retains digest r identity
      { r' with revisions := r'.revisions.insert identity.transactionId [identity] } where
  drops := hd.withRevisions
  sound := by
    refine hs.drops hd.withRevisions (fun i identities' hgone hl' hi => ?_)
      fun transactionId identities' hl' => ?_
    · rw [lookup_insert_eq, hr]
      split
      · rename_i hid
        have he : i = identity := by
          simpa [isOther, hid] using hgone
        exact ⟨_, rfl, he ▸ mem_singleton.mpr rfl⟩
      · exact ⟨identities', hl', hi⟩
    · rw [lookup_insert_eq, hr] at hl'
      split at hl'
      · rename_i hid
        cases hl'
        refine ⟨cons_ne_nil _ _, nodup_singleton _, fun i hi => ?_⟩
        cases mem_singleton.mp hi
        exact ⟨hid.symm, ((hs.revisions hl).2.2 identity hmem).2, by simp [isOther]⟩
      · rename_i hid
        obtain ⟨hne, hnodup, hall⟩ := hs.revisions hl'
        refine ⟨hne, hnodup, fun i hi => ⟨(hall i hi).1, (hall i hi).2, ?_⟩⟩
        have hother : i.transactionId ≠ identity.transactionId := (hall i hi).1 ▸ hid
        simp [isOther, hother]
  revisions transactionId := by
    rw [lookup_insert_eq, hr]

theorem retainRevision_of_notMem (hs : r.Sound digest) (h : identity ∉ r.headers) :
    r.retainRevision identity = r := by
  unfold retainRevision
  split
  · rfl
  · rename_i identities hl
    rw [if_pos fun hmem => h ((hs.revisions hl).2.2 identity hmem).2]

theorem retainRevision_cases (hs : r.Sound digest) (h : identity ∈ r.headers) :
    (r.retainRevision identity = r ∧ Retains digest r identity r) ∨
      ∃ r', Retains digest r identity r' ∧
        r.retainRevision identity = r'.collectUnreferencedTopologies := by
  obtain ⟨header, hh⟩ := mem_iff.mp h
  obtain ⟨identities, hl, hmem⟩ := hs.indexed hh
  obtain ⟨-, hnodup, hall⟩ := hs.revisions hl
  unfold retainRevision
  rw [hl]
  dsimp only
  rw [if_neg (not_not.mpr hmem)]
  split
  · rename_i hsingle
    subst hsingle
    refine .inl ⟨rfl, ⟨drops_none.congr hs.toBounded fun i hi => ?_, hs, fun transactionId => ?_⟩⟩
    · have hiff := hs.mem_revisions hl hi
      by_cases he : i = identity <;> simp_all [isOther]
    · split
      · rename_i he
        rw [he, hl]
      · rfl
  · rename_i hsingle
    obtain ⟨hd, hr, hflag⟩ := removeRevisions_drops
      (identities.filter (· ≠ identity)) hs.toBounded
    obtain ⟨other, hother, hne⟩ : ∃ other ∈ identities, other ≠ identity := by
      by_contra hnone
      push Not at hnone
      refine hsingle (List.perm_singleton.mp
        ((List.perm_ext_iff_of_nodup hnodup (List.nodup_singleton _)).mpr fun i => ?_))
      rw [List.mem_singleton]
      exact ⟨hnone i, fun he => he ▸ hmem⟩
    rw [if_pos (hflag ⟨other, by simp [hother, hne], (hall other hother).2⟩)]
    refine .inr ⟨_, hs.retains hl hmem (hd.congr hs.toBounded fun i hi => ?_) hr, rfl⟩
    have hiff := hs.mem_revisions hl hi
    simp [isOther, hiff]

theorem retainRevision_refines (h : r.Refines digest m) :
    ∃ m', m.Step digest (.retainRevision identity) m' ∧
      (r.retainRevision identity).Refines digest m' := by
  have hmem : identity ∈ m ↔ identity ∈ r.headers := by
    rw [mem_iff, mem_iff]
    constructor
    · rintro ⟨report, hl⟩
      exact header_of_report ((h.reads identity report).mp hl)
    · rintro ⟨header, hl⟩
      obtain ⟨report, hr⟩ := h.sound.readable hl
      exact ⟨report, (h.reads identity report).mpr hr⟩
  by_cases hi : identity ∈ r.headers
  · refine ⟨_, .retained (hmem.mpr hi), ?_⟩
    have hretains : ∀ r', Retains digest r identity r' → r'.Refines digest (m.retain fun other _ =>
        other.transactionId ≠ identity.transactionId ∨ other = identity) := by
      intro r' hr
      have hgone : (fun (i : TransactionPreviewIdentity) (_ : TransactionImpactReport) =>
          !isOther identity i) = fun other _ =>
            decide (other.transactionId ≠ identity.transactionId ∨ other = identity) := by
        funext i _
        by_cases he : i.transactionId = identity.transactionId <;> by_cases hi : i = identity <;>
          simp [isOther, he, hi]
      rw [← hgone]
      exact hr.drops.reads h hr.sound
    obtain ⟨he, hr⟩ | ⟨r', hr, he⟩ := retainRevision_cases h.sound hi
    · rw [he]
      exact hretains r hr
    · rw [he]
      exact (hretains r' hr).collect
  · refine ⟨m, .retainedNone fun hn => hi (hmem.mp hn), ?_⟩
    rw [retainRevision_of_notMem h.sound hi]
    exact h

/-! ### Removing transactions -/

theorem removeTransaction_drops (transactionId : TransactionId) (hs : r.Sound digest) :
    r.Drops (fun i => i.transactionId = transactionId) (r.removeTransaction transactionId).1 ∧
      (r.removeTransaction transactionId).1.Sound digest ∧
      (r.removeTransaction transactionId).1.revisions = r.revisions.erase transactionId ∧
      (transactionId ∈ r.revisions → (r.removeTransaction transactionId).2 = true) := by
  unfold removeTransaction
  cases hl : r.revisions.lookup transactionId with
  | none =>
    refine ⟨drops_none.congr hs.toBounded fun i hi => ?_, hs, ?_, fun hmem => ?_⟩
    · obtain ⟨header, hh⟩ := mem_iff.mp hi
      obtain ⟨identities, hr, -⟩ := hs.indexed hh
      refine (decide_eq_false fun he => ?_).symm
      rw [he, hl] at hr
      cases hr
    · refine ext_lookup fun other => ?_
      dsimp only
      rw [lookup_erase_eq]
      split
      · rename_i he
        rw [he, hl]
      · rfl
    · exact absurd hmem (lookup_eq_none.mp hl)
  | some identities =>
    obtain ⟨hd, hr, hflag⟩ := removeRevisions_drops identities hs.toBounded
    obtain ⟨hne, hnodup, hall⟩ := hs.revisions hl
    have hdrops : r.Drops (fun i => i.transactionId = transactionId) _ :=
      hd.congr hs.toBounded fun i hi => by simp only [hs.mem_revisions hl hi]
    refine ⟨hdrops.withRevisions, hs.drops hdrops.withRevisions (fun i ids hgone hids hi => ?_)
      fun other ids hids => ?_, ?_, fun _ => hflag ?_⟩
    · refine ⟨ids, ?_, hi⟩
      dsimp only
      rw [hr, lookup_erase_eq, if_neg (of_decide_eq_false hgone)]
      exact hids
    · dsimp only at hids
      rw [hr, lookup_erase_eq] at hids
      split at hids
      · cases hids
      · rename_i hother
        obtain ⟨hne, hnodup, hall⟩ := hs.revisions hids
        exact ⟨hne, hnodup, fun i hi => ⟨(hall i hi).1, (hall i hi).2,
          decide_eq_false ((hall i hi).1 ▸ hother)⟩⟩
    · dsimp only
      rw [hr]
    · obtain ⟨i, hi⟩ := exists_mem_of_ne_nil _ hne
      exact ⟨i, hi, (hall i hi).2⟩

theorem removeTransactions_fold :
    ∀ (transactionIds : List TransactionId) (r : TransactionReportRecords) (removed : Bool),
      r.Sound digest →
      let result := transactionIds.foldl (fun (r, removed) transactionId =>
        let (r, removedOne) := r.removeTransaction transactionId
        (r, removed || removedOne)) (r, removed)
      r.Drops (fun i => i.transactionId ∈ transactionIds) result.1 ∧ result.1.Sound digest ∧
        (∀ transactionId, result.1.revisions.lookup transactionId =
          if transactionId ∈ transactionIds then none else r.revisions.lookup transactionId) ∧
        (removed = true ∨ (∃ transactionId ∈ transactionIds, transactionId ∈ r.revisions) →
          result.2 = true)
  | [], r, removed, hs => by
    refine ⟨?_, hs, ?_, ?_⟩
    · simpa using drops_none
    all_goals simp
  | transactionId :: transactionIds, r, removed, hs => by
    obtain ⟨hone, hsound, hrevs, hflagOne⟩ := removeTransaction_drops transactionId hs
    obtain ⟨hd, hs', hr, hflag⟩ := removeTransactions_fold transactionIds
      (r.removeTransaction transactionId).1 (removed || (r.removeTransaction transactionId).2) hsound
    refine ⟨?_, hs', fun other => ?_, fun hi => hflag ?_⟩
    · have hboth := hone.trans hd
      simp only [mem_cons, Bool.decide_or]
      exact hboth
    · rw [foldl_cons, hr, hrevs, lookup_erase_eq]
      by_cases h₁ : other = transactionId <;> by_cases h₂ : other ∈ transactionIds <;>
        simp [h₁, h₂]
    · rcases hi with hi | ⟨other, hmem, hi⟩
      · exact .inl (by simp [hi])
      · by_cases he : other = transactionId
        · subst he
          exact .inl (by simp [hflagOne hi])
        · refine .inr ⟨other, (mem_cons.mp hmem).resolve_left he, ?_⟩
          rw [hrevs]
          exact mem_erase.mpr ⟨he, hi⟩

variable {transactionIds : List TransactionId}

theorem removeTransactions_refines
    (h : r.Refines digest m) : (r.removeTransactions transactionIds).Refines digest
      (m.retain fun identity _ => identity.transactionId ∉ transactionIds) := by
  obtain ⟨hd, hs, -, -⟩ := removeTransactions_fold transactionIds r false h.sound
  have hr := hd.reads h hs
  simp only [← decide_not] at hr
  unfold removeTransactions
  dsimp only
  split
  · exact hr.collect
  · exact hr

section
variable (hs : r.Sound digest)
include hs

theorem collected_removeTransactions
    (h : ∃ transactionId ∈ transactionIds, transactionId ∈ r.revisions) :
    (r.removeTransactions transactionIds).Collected := by
  obtain ⟨-, hs', -, hflag⟩ := removeTransactions_fold transactionIds r false hs
  unfold removeTransactions
  dsimp only
  rw [if_pos (hflag (.inr h))]
  exact hs'.collected

theorem collected_retainRevision (h : r.retainRevision identity ≠ r) :
    (r.retainRevision identity).Collected := by
  have hmem : identity ∈ r.headers := by
    by_contra hn
    exact h (retainRevision_of_notMem hs hn)
  obtain ⟨he, -⟩ | ⟨r', hr, he⟩ := retainRevision_cases hs hmem
  · exact absurd he h
  · rw [he]
    exact hr.sound.collected

end

end remove

def revisionsOf (r : TransactionReportRecords) (transactionId : TransactionId) :
    List TransactionPreviewIdentity :=
  (r.revisions.lookup transactionId).getD []

theorem Sound.mem_revisionsOf (hs : r.Sound digest) :
    identity ∈ r.revisionsOf transactionId ↔
      identity.transactionId = transactionId ∧ identity ∈ r.headers := by
  unfold revisionsOf
  constructor
  · cases hl : r.revisions.lookup transactionId with
    | none => exact nofun
    | some identities => exact (hs.revisions hl).2.2 identity
  · rintro ⟨rfl, hi⟩
    obtain ⟨header, hh⟩ := mem_iff.mp hi
    obtain ⟨identities, hl, hmem⟩ := hs.indexed hh
    rwa [hl]

def addRevision (identities : List TransactionPreviewIdentity)
    (identity : TransactionPreviewIdentity) : List TransactionPreviewIdentity :=
  if identity ∈ identities then identities else identities ++ [identity]

theorem mem_addRevision : identity ∈ addRevision identities identity := by
  unfold addRevision
  split <;> simp [*]

theorem insert_sound (hs : r.Sound digest) :
    (r.insert digest archive).Yields fun r' => r'.Sound digest ∧ ∀ transactionId,
      r'.revisionsOf transactionId = if transactionId = archive.identity.transactionId then
        addRevision (r.revisionsOf transactionId) archive.identity
      else r.revisionsOf transactionId := by
  refine .bind fun _ hv r' hc => ?_
  have ha := accepts_of_validateArchive _ hv
  obtain ⟨rfl, report, hr⟩ := checked_eq_ok.mp hc
  refine ⟨ha.sound_write hs hr, fun transactionId => ?_⟩
  unfold revisionsOf
  rw [revisions_write]
  split
  · rename_i he
    subst he
    unfold revised addRevision
    cases r.revisions.lookup archive.identity.transactionId <;> simp
  · rfl

theorem replaceExecutionStep_sound (hs : r.Sound digest) :
    (r.replaceExecutionStep digest identity impact).Yields fun r' => r'.Sound digest ∧
      ∀ transactionId, r'.revisionsOf transactionId = r.revisionsOf transactionId := by
  intro r' hrep
  obtain ⟨header, graphs, index, stored, hr, rfl⟩ := replaces_of_replaceExecutionStep r' hrep
  obtain ⟨report, hreport⟩ := hr.readable
  refine ⟨hr.fits.sound hs hreport, fun transactionId => ?_⟩
  simp only [revisionsOf, withStep, revisions_insertGraphs]

theorem failExecutionStep_sound (hs : r.Sound digest) :
    (r.failExecutionStep digest identity operation error).Yields fun r' => r'.Sound digest ∧
      ∀ transactionId, r'.revisionsOf transactionId = r.revisionsOf transactionId := by
  intro r' hf
  obtain ⟨report, step, -, -, hrep | ⟨-, rfl⟩⟩ := failExecutionStep_cases r' hf
  · exact replaceExecutionStep_sound hs r' hrep
  · exact ⟨hs, fun _ => rfl⟩

theorem retainRevision_sound (identity : TransactionPreviewIdentity) (hs : r.Sound digest) :
    (r.retainRevision identity).Sound digest ∧
    ∀ transactionId, (r.retainRevision identity).revisionsOf transactionId =
      if identity ∈ r.revisionsOf transactionId then [identity]
      else r.revisionsOf transactionId := by
  by_cases hi : identity ∈ r.headers
  · refine ⟨?_, fun transactionId => ?_⟩
    · obtain ⟨he, hr⟩ | ⟨r', hr, he⟩ := retainRevision_cases hs hi
      · rw [he]
        exact hr.sound
      · rw [he]
        exact hr.sound.collect
    · obtain ⟨he, hr⟩ | ⟨r', hr, he⟩ := retainRevision_cases hs hi
      all_goals
        rw [revisionsOf, he]
        refine (congrArg (·.getD []) (hr.revisions transactionId)).trans ?_
        simp only [hs.mem_revisionsOf, hi, and_true, eq_comm (a := transactionId)]
        split <;> rfl
  · rw [retainRevision_of_notMem hs hi]
    refine ⟨hs, fun transactionId => ?_⟩
    rw [if_neg fun hmem => hi (hs.mem_revisionsOf.mp hmem).2]

theorem removeTransactions_sound (transactionIds : List TransactionId) (hs : r.Sound digest) :
    (r.removeTransactions transactionIds).Sound digest ∧ ∀ transactionId,
      (r.removeTransactions transactionIds).revisionsOf transactionId =
        if transactionId ∈ transactionIds then [] else r.revisionsOf transactionId := by
  obtain ⟨-, hs', hr, -⟩ := removeTransactions_fold transactionIds r false hs
  refine ⟨?_, fun transactionId => ?_⟩
  · unfold removeTransactions
    dsimp only
    split
    · exact hs'.collect
    · exact hs'
  · unfold removeTransactions
    dsimp only
    split <;>
    · refine (congrArg (·.getD []) (hr transactionId)).trans ?_
      split <;> rfl

theorem perform_yields (h : r.Refines digest m) (hfree : digest.CollisionFree) :
    (r.perform digest operation).Yields fun r' =>
      ∃ m', m.Step digest operation m' ∧ r'.Refines digest m' := by
  cases operation with
  | insert archive => exact insert_yields h
  | replaceExecutionStep identity impact =>
    intro r' hp
    obtain ⟨report, report', hl, hr, href⟩ := replaceExecutionStep_yields h hfree r' hp
    exact ⟨_, .replaced hl hr, href⟩
  | failExecutionStep identity operation error => exact failExecutionStep_yields h hfree
  | retainRevision identity => exact .ok (retainRevision_refines h)
  | removeTransactions transactionIds => exact .ok ⟨_, .removed, removeTransactions_refines h⟩

end TransactionReportRecords

end Nervix.Consensus
