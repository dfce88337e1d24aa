import Nervix.Consensus.Transition

/-!
# Versions of resources

Every operation on a catalog is one of a few changes of its records. A catalog is sound when no two
uploads of a resource hold one version.
-/

namespace Nervix.Consensus

open Finmap List
open StateMachineData (applyEntry applyEntry_transition applyStep_shape completed_shape
  storeTransaction)
open ResourceRecords

namespace ResourceUploads

variable {uploads : ResourceUploads} {upload : ResourceUpload}

theorem add_eq_ok : uploads.add upload = .ok uploads' ↔
    (upload.key ∉ uploads.byKey ∧ upload.resourceId ∉ uploads.byVersion) ∧
      uploads' = {
        byKey := uploads.byKey.insert upload.key upload
        byVersion := uploads.byVersion.insert upload.resourceId upload.key
        completedVersions :=
          if upload.state.isCompleted then insert upload.resourceId uploads.completedVersions
          else uploads.completedVersions } := by
  unfold add
  split_ifs <;> simp [*, eq_comm]

theorem foldlM_add_iff : ∀ (l : List ResourceUpload) (uploads : ResourceUploads),
    (∃ uploads', l.foldlM add uploads = .ok uploads') ↔
      (l.map (·.key)).Nodup ∧ (l.map (·.resourceId)).Nodup ∧
        ∀ u ∈ l, u.key ∉ uploads.byKey ∧ u.resourceId ∉ uploads.byVersion
  | [], uploads => by simp [pure, Except.pure]
  | u :: l, uploads => by
    simp only [foldlM_cons, map_cons, nodup_cons, forall_mem_cons, mem_map, not_exists, not_and]
    constructor
    · rintro ⟨uploads', h⟩
      cases hadd : uploads.add u with
      | error e => rw [hadd] at h; cases h
      | ok next =>
        rw [hadd] at h
        obtain ⟨hu, rfl⟩ := add_eq_ok.mp hadd
        obtain ⟨hk, hv, hl⟩ := (foldlM_add_iff l _).mp ⟨uploads', h⟩
        simp only [mem_insert, not_or] at hl
        exact ⟨⟨fun x hx => (hl x hx).1.1, hk⟩, ⟨fun x hx => (hl x hx).2.1, hv⟩, hu,
          fun x hx => ⟨(hl x hx).1.2, (hl x hx).2.2⟩⟩
    · rintro ⟨⟨hku, hk⟩, ⟨hvu, hv⟩, hu, hl⟩
      rw [add_eq_ok.mpr ⟨hu, rfl⟩]
      refine (foldlM_add_iff l _).mpr ⟨hk, hv, fun x hx => ?_⟩
      simp only [mem_insert, not_or]
      exact ⟨⟨hku x hx, (hl x hx).1⟩, hvu x hx, (hl x hx).2⟩

end ResourceUploads

namespace ResourceRecords

variable {r r' : ResourceRecords}

def Keyed (r : ResourceRecords) : Prop := ∀ {k u}, r.uploads.lookup k = some u → u.key = k

def OneUploadEach (r : ResourceRecords) : Prop := ∀ {k k' u u'}, r.uploads.lookup k = some u →
  r.uploads.lookup k' = some u' → u.resourceId = u'.resourceId → k = k'

structure Sound (r : ResourceRecords) : Prop where
  keyed : r.Keyed
  counted : ∀ {k n}, r.counters.lookup k = some n → 1 ≤ n
  assigned : ∀ {k u}, r.uploads.lookup k = some u →
    1 ≤ u.version ∧ ∃ n, r.counters.lookup k.catalogKey = some n ∧ u.version < n
  unique : r.OneUploadEach
  published : ∀ {k u checksum revision}, r.uploads.lookup k = some u →
    u.state = .completed checksum revision →
    ∃ v, r.versions.lookup u.resourceId = some v ∧ v.rootChecksum = checksum

theorem oneUploadEach_of_tryFromUploads {uploads : ResourceUploads}
    (h : ResourceUploads.tryFromUploads (r.uploads.ascending.map Prod.snd) = .ok uploads) :
    r.OneUploadEach := by
  intro k k' u u' hu hu' he
  obtain ⟨-, hv, -⟩ := (ResourceUploads.foldlM_add_iff _ _).mp ⟨uploads, h⟩
  rw [map_map] at hv
  have hin : (k, u) ∈ r.uploads.ascending := mem_ascending.mpr hu
  have hin' : (k', u') ∈ r.uploads.ascending := mem_ascending.mpr hu'
  exact (Prod.mk.inj (inj_on_of_nodup_map hv hin hin' he)).1

theorem exists_tryFromUploads_iff (hk : r.Keyed) :
    (∃ uploads, ResourceUploads.tryFromUploads (r.uploads.ascending.map Prod.snd) = .ok uploads) ↔
      r.OneUploadEach := by
  have hmem : ∀ {x}, x ∈ r.uploads.ascending ↔ r.uploads.lookup x.1 = some x.2 :=
    mem_ascending
  have hpair : ∀ {x y}, x ∈ r.uploads.ascending → y ∈ r.uploads.ascending → x.1 = y.1 → x = y := by
    intro x y hx hy he
    have hy := hmem.mp hy
    rw [← he, hmem.mp hx] at hy
    exact Prod.ext he (Option.some.inj hy)
  have hkey : ((r.uploads.ascending.map Prod.snd).map (·.key)).Nodup := by
    rw [map_map]
    refine List.Nodup.map_on (fun x hx y hy he => ?_) (nodup_ascending _)
    exact hpair hx hy ((hk (hmem.mp hx)).symm.trans (he.trans (hk (hmem.mp hy))))
  constructor
  · rintro ⟨uploads, h⟩
    exact oneUploadEach_of_tryFromUploads h
  · intro h
    refine (ResourceUploads.foldlM_add_iff _ _).mpr ⟨hkey, ?_, fun u _ => ⟨?_, ?_⟩⟩
    · rw [map_map]
      refine List.Nodup.map_on (fun x hx y hy he => ?_) (nodup_ascending _)
      exact hpair hx hy (h (hmem.mp hx) (hmem.mp hy) he)
    · exact notMem_empty
    · exact notMem_empty

theorem Sound.toStatus (h : r.Sound) : ∃ status, r.toStatus = .ok status := by
  obtain ⟨uploads, hu⟩ := (exists_tryFromUploads_iff h.keyed).mpr h.unique
  exact ⟨_, by rw [ResourceRecords.toStatus, hu]; rfl⟩

theorem Sound.checkRecovered (h : r.Sound) : r.checkRecovered = .ok () := by
  obtain ⟨uploads, hu⟩ := (exists_tryFromUploads_iff h.keyed).mpr h.unique
  rw [ResourceRecords.checkRecovered, hu]
  rfl

inductive Change (r : ResourceRecords) : Prop → ResourceRecords → Prop
  | refl : Change r True r
  | declared {counters : Records ResourceCatalogKey Nat} :
      (∀ {k n}, r.counters.lookup k = some n → counters.lookup k = some n) →
      (∀ {k n}, counters.lookup k = some n → r.counters.lookup k = some n ∨ 1 ≤ n) →
      Change r True { r with counters := counters }
  | begun {key n checksum} : r.uploads.lookup key = none →
      r.counters.lookup key.catalogKey = some n →
      Change r True { r with
        counters := r.counters.insert key.catalogKey (n + 1)
        uploads := r.uploads.insert key ⟨key, n, .applying checksum⟩ }
  | imported {key n resource replica} : r.uploads.lookup key = none →
      r.counters.lookup key.catalogKey = some n →
      resource.id.domain = key.domain → resource.id.identifier = key.identifier →
      1 ≤ resource.id.version → resource.id.version < n → resource.id ∉ r.versions →
      Change r (∀ k u, r.uploads.lookup k = some u → u.resourceId ≠ resource.id) { r with
        versions := r.versions.insert resource.id resource
        replicas := r.replicas.insert replica.key replica
        uploads := r.uploads.insert key
          ⟨key, resource.id.version, .applying resource.rootChecksum⟩ }
  | published {key upload resource replica} : r.uploads.lookup key = some upload →
      upload.state = .applying resource.rootChecksum →
      resource.id = ⟨key.domain, key.identifier, upload.version⟩ →
      Change r True { r with
        versions := r.versions.insert resource.id resource
        replicas := r.replicas.insert replica.key replica
        uploads := r.uploads.insert key
          ⟨key, upload.version, .applying resource.rootChecksum⟩ }
  | replica {replica} : Change r True { r with replicas := r.replicas.insert replica.key replica }
  | completed {key upload checksum revision} : r.uploads.lookup key = some upload →
      upload.state = .applying checksum →
      Change r (∃ v, r.versions.lookup upload.resourceId = some v ∧ v.rootChecksum = checksum)
        { r with
          uploads := r.uploads.insert key ⟨key, upload.version, .completed checksum revision⟩ }
  | failed {key upload checksum revision reason} : r.uploads.lookup key = some upload →
      upload.state = .applying checksum →
      Change r True { r with
        uploads := r.uploads.insert key ⟨key, upload.version, .failed checksum revision reason⟩ }

structure Extends (r r' : ResourceRecords) : Prop where
  counters : ∀ {k n}, r.counters.lookup k = some n → ∃ n', r'.counters.lookup k = some n' ∧ n ≤ n'
  uploads : ∀ {k u}, r.uploads.lookup k = some u → ∃ u', r'.uploads.lookup k = some u' ∧
    u'.version = u.version ∧ u'.state.rootChecksum = u.state.rootChecksum
  ended : ∀ {k u}, r.uploads.lookup k = some u → (∀ checksum, u.state ≠ .applying checksum) →
    r'.uploads.lookup k = some u

theorem Extends.refl : Extends r r where
  counters h := ⟨_, h, le_refl _⟩
  uploads h := ⟨_, h, rfl, rfl⟩
  ended h _ := h

theorem Extends.trans (h : Extends r r') (h' : Extends r' r'') : Extends r r'' where
  counters hn := by
    obtain ⟨n', hn', hle⟩ := h.counters hn
    obtain ⟨n'', hn'', hle'⟩ := h'.counters hn'
    exact ⟨n'', hn'', hle.trans hle'⟩
  uploads hu := by
    obtain ⟨u', hu', hv, hc⟩ := h.uploads hu
    obtain ⟨u'', hu'', hv', hc'⟩ := h'.uploads hu'
    exact ⟨u'', hu'', hv'.trans hv, hc'.trans hc⟩
  ended hu he := h'.ended (h.ended hu he) he

variable {key : ResourceUploadKey} {u : ResourceUpload}

theorem Extends.insertUpload (hn : r.uploads.lookup key = none)
    (hc : ∀ {k n}, r.counters.lookup k = some n → ∃ n', r'.counters.lookup k = some n' ∧ n ≤ n')
    (hu : r'.uploads = r.uploads.insert key u) : Extends r r' where
  counters := hc
  uploads {k v} h := by
    have hne : k ≠ key := by rintro rfl; rw [hn] at h; cases h
    exact ⟨v, by rw [hu, lookup_insert_of_ne _ hne, h], rfl, rfl⟩
  ended {k v} h _ := by
    have hne : k ≠ key := by rintro rfl; rw [hn] at h; cases h
    rw [hu, lookup_insert_of_ne _ hne, h]

theorem Extends.replaceUpload
    (hl : r.uploads.lookup key = some u) (ha : u.state = .applying checksum)
    (hs : state.rootChecksum = checksum) (hc : r'.counters = r.counters)
    (hu : r'.uploads = r.uploads.insert key ⟨key, u.version, state⟩) : Extends r r' where
  counters h := ⟨_, hc.symm ▸ h, le_refl _⟩
  uploads {k v} h := by
    rw [hu, lookup_insert_eq]
    split
    · subst k
      rw [hl] at h
      cases h
      exact ⟨_, rfl, rfl, by rw [hs, ha]; rfl⟩
    · exact ⟨v, h, rfl, rfl⟩
  ended {k v} h he := by
    rw [hu, lookup_insert_eq]
    split
    · subst k
      rw [hl] at h
      cases h
      exact absurd ha (he checksum)
    · exact h

theorem Change.extends (h : Change r p r') : Extends r r' := by
  cases h with
  | refl | replica => exact ⟨fun h => ⟨_, h, le_refl _⟩, fun h => ⟨_, h, rfl, rfl⟩, fun h _ => h⟩
  | declared hc _ => exact ⟨fun h => ⟨_, hc h, le_refl _⟩, fun h => ⟨_, h, rfl, rfl⟩, fun h _ => h⟩
  | @begun key n _ hn hc =>
    refine .insertUpload hn (fun {k m} h => ?_) rfl
    rw [lookup_insert_eq]
    split
    · subst k
      rw [hc] at h
      cases h
      exact ⟨n + 1, rfl, Nat.le_succ n⟩
    · exact ⟨m, h, le_refl m⟩
  | imported hn => exact .insertUpload hn (fun h => ⟨_, h, le_refl _⟩) rfl
  | published hl ha => exact .replaceUpload hl ha rfl rfl rfl
  | completed hl ha => exact .replaceUpload hl ha rfl rfl rfl
  | failed hl ha => exact .replaceUpload hl ha rfl rfl rfl

/-! ### What keeps a catalog sound -/

theorem resourceId_of_key (hk : u.key = key) :
    u.resourceId = ⟨key.domain, key.identifier, u.version⟩ := by
  subst hk
  rfl

theorem Sound.insertUpload (h : r.Sound) (hfresh : ∀ {k u}, r.uploads.lookup k = some u →
      u.resourceId ≠ ⟨key.domain, key.identifier, version⟩)
    (hpos : 1 ≤ version)
    (hcount : ∀ {k n}, r'.counters.lookup k = some n → 1 ≤ n)
    (hgrow : ∀ {k n}, r.counters.lookup k = some n → ∃ n', r'.counters.lookup k = some n' ∧ n ≤ n')
    (hbelow : ∃ n, r'.counters.lookup key.catalogKey = some n ∧ version < n)
    (hu : r'.uploads = r.uploads.insert key ⟨key, version, .applying checksum⟩)
    (hv : ∀ {i v}, r.versions.lookup i = some v → r'.versions.lookup i = some v) : r'.Sound where
  keyed {k u} hl := by
    rw [hu, lookup_insert_eq] at hl
    split at hl
    · cases hl
      exact Eq.symm ‹_›
    · exact h.keyed hl
  counted := hcount
  assigned {k u} hl := by
    rw [hu, lookup_insert_eq] at hl
    split at hl
    · subst k
      cases hl
      exact ⟨hpos, hbelow⟩
    · obtain ⟨hone, n, hc, hlt⟩ := h.assigned hl
      obtain ⟨n', hc', hle⟩ := hgrow hc
      exact ⟨hone, n', hc', hlt.trans_le hle⟩
  unique {k k' u u'} hl hl' he := by
    rw [hu, lookup_insert_eq] at hl hl'
    split at hl <;> split at hl'
    · exact Eq.trans ‹k = key› (Eq.symm ‹k' = key›)
    · cases hl
      exact absurd he.symm (hfresh hl')
    · cases hl'
      exact absurd he (hfresh hl)
    · exact h.unique hl hl' he
  published {k u _ _} hl hs := by
    rw [hu, lookup_insert_eq] at hl
    split at hl
    · cases hl
      cases hs
    · obtain ⟨v, hv', hc⟩ := h.published hl hs
      exact ⟨v, hv hv', hc⟩

theorem Sound.replaceUpload (h : r.Sound)
    (hl : r.uploads.lookup key = some u) (hc : r'.counters = r.counters)
    (hu : r'.uploads = r.uploads.insert key ⟨key, u.version, state⟩)
    (hother : ∀ {i v}, i ≠ u.resourceId → r.versions.lookup i = some v →
      r'.versions.lookup i = some v)
    (hdone : ∀ {checksum revision}, state = .completed checksum revision →
      ∃ v, r'.versions.lookup u.resourceId = some v ∧ v.rootChecksum = checksum) : r'.Sound where
  keyed {k x} hx := by
    rw [hu, lookup_insert_eq] at hx
    split at hx
    · cases hx
      exact Eq.symm ‹_›
    · exact h.keyed hx
  counted hn := h.counted (hc ▸ hn)
  assigned {k x} hx := by
    rw [hc]
    rw [hu, lookup_insert_eq] at hx
    split at hx
    · subst k
      cases hx
      obtain ⟨hone, hbelow⟩ := h.assigned hl
      exact ⟨hone, hbelow⟩
    · exact h.assigned hx
  unique {k k' x x'} hx hx' he := by
    have hid := resourceId_of_key (h.keyed hl)
    rw [hu, lookup_insert_eq] at hx hx'
    split at hx <;> split at hx'
    · exact Eq.trans ‹k = key› (Eq.symm ‹k' = key›)
    · cases hx
      exact Eq.trans ‹k = key› (h.unique hl hx' (hid.trans he))
    · cases hx'
      exact (h.unique hx hl (he.trans hid.symm)).trans (Eq.symm ‹k' = key›)
    · exact h.unique hx hx' he
  published {k x _ _} hx hs := by
    have hid := resourceId_of_key (h.keyed hl)
    rw [hu, lookup_insert_eq] at hx
    split at hx
    · cases hx
      obtain ⟨v, hv, hcv⟩ := hdone hs
      rw [hid] at hv
      exact ⟨v, hv, hcv⟩
    · obtain ⟨v, hv, hcv⟩ := h.published hx hs
      refine ⟨v, hother (fun he => ?_) hv, hcv⟩
      exact absurd (h.unique hx hl he) ‹_›

theorem Change.sound_iff (h : Change r p r') (hs : r.Sound) : r'.Sound ↔ p := by
  cases h with
  | refl => exact iff_of_true hs trivial
  | declared hc hn =>
    refine iff_of_true ⟨hs.keyed, fun h => (hn h).elim hs.counted id, fun h => ?_, hs.unique,
      hs.published⟩ trivial
    obtain ⟨hone, n, hlookup, hlt⟩ := hs.assigned h
    exact ⟨hone, n, hc hlookup, hlt⟩
  | @begun key n checksum hn hc =>
    refine iff_of_true (hs.insertUpload (fun {k u} hu he => ?_) (hs.counted hc)
      (fun {k m} h => ?_) (Change.begun hn hc).extends.counters
      ⟨n + 1, lookup_insert _, Nat.lt_succ_self n⟩ rfl id) trivial
    · rw [resourceId_of_key (hs.keyed hu), ResourceId.mk.injEq] at he
      obtain ⟨hd, hi, hv⟩ := he
      obtain ⟨-, m, hm, hlt⟩ := hs.assigned hu
      rw [ResourceUploadKey.catalogKey, hd, hi, ← ResourceUploadKey.catalogKey, hc] at hm
      cases hm
      omega
    · rw [lookup_insert_eq] at h
      split at h
      · cases h
        omega
      · exact hs.counted h
  | @imported key n resource replica hn hc hd hi hpos hlt hv =>
    have hid : resource.id = ⟨key.domain, key.identifier, resource.id.version⟩ := by
      rw [← hd, ← hi]
    constructor
    · intro h k u hu he
      have hne : k ≠ key := by rintro rfl; rw [hn] at hu; cases hu
      refine hne (h.unique ((lookup_insert_of_ne _ hne).trans hu) (lookup_insert _) ?_)
      exact he.trans hid
    · intro hfresh
      refine hs.insertUpload (fun hu => hid ▸ hfresh _ _ hu) hpos hs.counted
        (fun h => ⟨_, h, le_refl _⟩) ⟨n, hc, hlt⟩ rfl fun {i v} h => ?_
      have hne : i ≠ resource.id := by
        rintro rfl
        exact hv (mem_iff.mpr ⟨v, h⟩)
      exact (lookup_insert_of_ne _ hne).trans h
  | @published key upload resource replica hl ha hid =>
    refine iff_of_true (hs.replaceUpload hl rfl rfl (fun {i v} hne h => ?_) nofun) trivial
    rw [resourceId_of_key (hs.keyed hl), ← hid] at hne
    exact (lookup_insert_of_ne _ hne).trans h
  | replica => exact iff_of_true ⟨hs.keyed, hs.counted, hs.assigned, hs.unique, hs.published⟩ trivial
  | @completed key upload checksum revision hl ha =>
    constructor
    · intro h
      obtain ⟨v, hv, hc⟩ := h.published (lookup_insert _) rfl
      exact ⟨v, (resourceId_of_key (hs.keyed hl)).symm ▸ hv, hc⟩
    · intro hp
      refine hs.replaceUpload hl rfl rfl (fun _ h => h) fun he => ?_
      cases he
      exact hp
  | failed hl ha => exact iff_of_true (hs.replaceUpload hl rfl rfl (fun _ h => h) nofun) trivial

def Careful (r : ResourceRecords) : ConsensusCommand → Prop
  | .importResourceVersion _ key resource _ => r.uploads.lookup key = none →
      ∀ k u, r.uploads.lookup k = some u → u.resourceId ≠ resource.id
  | .completeResourceUpload key => ∀ u checksum, r.uploads.lookup key = some u →
      u.state = .applying checksum →
      ∃ v, r.versions.lookup u.resourceId = some v ∧ v.rootChecksum = checksum
  | _ => True

def perform (r : ResourceRecords) (revision : Nat) :
    ConsensusCommand → Option (Except ResourceMutationError ResourceRecords)
  | .createResourceCatalog domain identifier => some (.ok (r.ensureCatalog domain identifier))
  | .beginResourceUpload key rootChecksum => some (r.beginUpload key rootChecksum)
  | .publishResourceUpload key resource replica => some (r.publishUpload key resource replica)
  | .putResourceReplica replica =>
    some (.ok { r with replicas := r.replicas.insert replica.key replica })
  | .completeResourceUpload key => some (r.completeUpload key revision)
  | .failResourceUpload key reason => some (r.failUpload key revision reason)
  | .importResourceVersion _ key resource replica => some (r.importVersion key resource replica)
  | _ => none

theorem change_of_ensureCatalog : Change r True (r.ensureCatalog domain identifier) := by
  unfold ensureCatalog
  split
  · exact .refl
  · rename_i hd
    have hnone : r.counters.lookup ⟨domain, identifier⟩ = none :=
      lookup_eq_none.mpr (by simpa [declares] using hd)
    refine .declared (fun {k n} h => ?_) fun {k n} h => ?_
    · have hne : k ≠ ⟨domain, identifier⟩ := by rintro rfl; rw [hnone] at h; cases h
      exact (lookup_insert_of_ne _ hne).trans h
    · rw [lookup_insert_eq] at h
      split at h
      · cases h
        exact .inr (le_refl 1)
      · exact .inl h

theorem change_of_restoreCatalog : ∀ {resources : List RestoredResource},
    (∀ declared ∈ resources, r.declares domain declared.resource = false) →
    Change r True (resources.foldl
      (fun r declared => r.restoreCatalog domain declared.resource declared.nextVersion) r) := by
  intro resources h
  have hfold : ∀ (l : List RestoredResource) (counters : Records ResourceCatalogKey Nat),
      (∀ declared ∈ l, r.declares domain declared.resource = false) →
      (∀ {k n}, r.counters.lookup k = some n → counters.lookup k = some n) →
      (∀ {k n}, counters.lookup k = some n → r.counters.lookup k = some n ∨ 1 ≤ n) →
      Change r True (l.foldl
        (fun r declared => r.restoreCatalog domain declared.resource declared.nextVersion)
        { r with counters := counters }) := by
    intro l
    induction l with
    | nil => exact fun counters _ hkeep hnew => .declared hkeep hnew
    | cons a l ih =>
      intro counters hl hkeep hnew
      refine ih _ (fun x hx => hl x (mem_cons_of_mem a hx)) (fun {k n} h => ?_)
        fun {k n} h => ?_
      · have hne : k ≠ ⟨domain, a.resource⟩ := by
          rintro rfl
          have hin : r.declares domain a.resource = true := by
            simpa [declares] using mem_iff.mpr ⟨n, h⟩
          rw [hl a mem_cons_self] at hin
          cases hin
        exact (lookup_insert_of_ne _ hne).trans (hkeep h)
      · rw [lookup_insert_eq] at h
        split at h
        · cases h
          exact .inr a.nextVersion.pos
        · exact hnew h
  exact hfold resources r.counters h id .inl

theorem careful_of_perform_eq_none (h : r.perform revision c = none) : r.Careful c := by
  unfold Careful
  split
  · cases h
  · cases h
  · trivial

section operations
variable {key : ResourceUploadKey} {resource : ResourceVersion} {node : ResourceNodeStatus}
  {checksum : String} {revision : Nat}

theorem change_of_beginUpload (h : r.beginUpload key checksum = .ok r') : Change r True r' := by
  unfold beginUpload at h
  split at h
  · split at h <;> cases h
    exact .refl
  · split at h <;> [cases h; skip]
    split at h <;> cases h
    exact .begun ‹_› ‹_›

theorem change_of_publishUpload (h : r.publishUpload key resource node = .ok r') :
    Change r True r' := by
  unfold publishUpload at h
  split at h <;> [cases h; skip]
  rename_i upload hl
  split at h <;> [cases h; skip]
  rename_i hid
  push Not at hid
  split at h <;> [cases h; skip]
  split at h <;> [cases h; skip]
  rename_i hsum
  have hsum := not_not.mp hsum
  split at h
  · cases h
    exact .refl
  · cases h
    exact .refl
  · rename_i hs
    cases h
    refine .published hl ?_ ?_
    · rw [hs] at hsum ⊢
      exact congrArg _ hsum
    · rw [← hid.1, ← hid.2.1, ← hid.2.2]

theorem change_of_importVersion (h : r.importVersion key resource node = .ok r') :
    (∃ u, r.uploads.lookup key = some u) ∧ r' = r ∨ r.uploads.lookup key = none ∧
      Change r (∀ k u, r.uploads.lookup k = some u → u.resourceId ≠ resource.id) r' := by
  unfold importVersion at h
  dsimp only at h
  split at h <;> [cases h; skip]
  rename_i hid
  push Not at hid
  split at h <;> [cases h; skip]
  split at h
  · rename_i u hl
    split at h <;> [cases h; skip]
    split at h <;> cases h
    exact .inl ⟨⟨u, hl⟩, rfl⟩
  · rename_i hl
    split at h <;> [cases h; skip]
    rename_i n hc
    split at h <;> [cases h; skip]
    rename_i hrange
    push Not at hrange
    split at h <;> [cases h; skip]
    rename_i hv
    cases h
    exact .inr ⟨hl, .imported hl hc hid.1 hid.2 (Nat.one_le_iff_ne_zero.mpr hrange.1) hrange.2 hv⟩

variable {outcome : String → ResourceUploadState}

theorem cases_of_endUpload (h : r.endUpload key outcome = .ok r') :
    ∃ u, r.uploads.lookup key = some u ∧
      (r' = r ∧ (∀ checksum, u.state ≠ .applying checksum) ∨
        ∃ checksum, u.state = .applying checksum ∧
          r' = { r with uploads := r.uploads.insert key ⟨key, u.version, outcome checksum⟩ }) := by
  unfold endUpload at h
  split at h
  · cases h
  · rename_i u hl
    refine ⟨u, hl, ?_⟩
    split at h
    · cases h
      exact .inr ⟨_, ‹_›, rfl⟩
    all_goals
      rename_i hs
      cases h
      exact .inl ⟨rfl, fun _ => by rw [hs]; nofun⟩

theorem change_of_completeUpload (h : r.completeUpload key revision = .ok r') :
    ∃ p, (p ↔ r.Careful (.completeResourceUpload key)) ∧ Change r p r' := by
  obtain ⟨u, hl, ⟨rfl, hs⟩ | ⟨checksum, hs, rfl⟩⟩ := cases_of_endUpload h
  · refine ⟨True, iff_of_true trivial fun v checksum hv ha => ?_, .refl⟩
    rw [hl] at hv
    cases hv
    exact absurd ha (hs checksum)
  · refine ⟨_, ⟨fun hp v sum hv ha => ?_, fun hp => hp u checksum hl hs⟩, .completed hl hs⟩
    rw [hl] at hv
    cases hv
    rw [hs] at ha
    cases ha
    exact hp

theorem change_of_failUpload (h : r.failUpload key revision reason = .ok r') :
    Change r True r' := by
  obtain ⟨u, hl, ⟨rfl, -⟩ | ⟨checksum, hs, rfl⟩⟩ := cases_of_endUpload h
  · exact .refl
  · exact .failed hl hs

theorem change_of_perform (h : r.perform revision c = some (.ok r')) :
    ∃ p, (p ↔ r.Careful c) ∧ Change r p r' := by
  unfold perform at h
  split at h <;> simp only [Option.some.injEq, reduceCtorEq] at h
  · cases h
    exact ⟨True, Iff.rfl, change_of_ensureCatalog⟩
  · exact ⟨True, Iff.rfl, change_of_beginUpload h⟩
  · exact ⟨True, Iff.rfl, change_of_publishUpload h⟩
  · cases h
    exact ⟨True, Iff.rfl, .replica⟩
  · exact change_of_completeUpload h
  · exact ⟨True, Iff.rfl, change_of_failUpload h⟩
  · rcases change_of_importVersion h with ⟨⟨u, hl⟩, rfl⟩ | ⟨hl, hc⟩
    · refine ⟨True, iff_of_true trivial fun hn => ?_, .refl⟩
      rw [hl] at hn
      cases hn
    · exact ⟨_, ⟨fun hp _ => hp, fun hp => hp hl⟩, hc⟩

/-! ### Repeated operations -/

def Overwrites : ConsensusCommand → Prop
  | .publishResourceUpload _ _ _ | .putResourceReplica _ => True
  | _ => False

theorem begun_of_beginUpload (h : r.beginUpload key checksum = .ok r') :
    ∃ u, r'.uploads.lookup key = some u ∧ u.state.rootChecksum = checksum := by
  unfold beginUpload at h
  split at h
  · rename_i u hl
    split at h <;> cases h
    exact ⟨u, hl, ‹_›⟩
  · split at h <;> [cases h; skip]
    split at h <;> cases h
    exact ⟨_, lookup_insert _, rfl⟩

theorem publishUpload_publishUpload (h : r.publishUpload key resource node = .ok r') :
    r'.publishUpload key resource node = .ok r' := by
  have hfirst := h
  unfold publishUpload at h
  split at h <;> [cases h; skip]
  split at h <;> [cases h; skip]
  rename_i hid
  split at h <;> [cases h; skip]
  rename_i hready
  split at h <;> [cases h; skip]
  split at h
  · cases h
    exact hfirst
  · cases h
    exact hfirst
  · cases h
    simp [publishUpload, hid, hready, ResourceUploadState.rootChecksum]

theorem ended_of_endUpload
    (ho : ∀ sum checksum, outcome sum ≠ .applying checksum) (h : r.endUpload key outcome = .ok r') :
    ∃ u, r'.uploads.lookup key = some u ∧ ∀ checksum, u.state ≠ .applying checksum := by
  obtain ⟨u, hl, ⟨rfl, hs⟩ | ⟨checksum, hs, rfl⟩⟩ := cases_of_endUpload h
  · exact ⟨u, hl, hs⟩
  · exact ⟨_, lookup_insert _, ho checksum⟩

theorem endUpload_of_ended
    (hl : r.uploads.lookup key = some u) (hs : ∀ checksum, u.state ≠ .applying checksum) :
    r.endUpload key outcome = .ok r := by
  unfold endUpload
  rw [hl]
  dsimp only
  split
  · exact absurd ‹_› (hs _)
  · rfl
  · rfl

theorem importVersion_again (h : r.importVersion key resource node = .ok r') (he : Extends r' r'') :
    r''.importVersion key resource node = .ok r'' := by
  have hlater : ∀ {u : ResourceUpload}, r'.uploads.lookup key = some u →
      u.version = resource.id.version → u.state.rootChecksum = resource.rootChecksum →
      ∃ u', r''.uploads.lookup key = some u' ∧ u'.version = resource.id.version ∧
        u'.state.rootChecksum = resource.rootChecksum := by
    intro u hl hv hs
    obtain ⟨u', hl', hv', hs'⟩ := he.uploads hl
    exact ⟨u', hl', hv'.trans hv, hs'.trans hs⟩
  unfold importVersion at h ⊢
  dsimp only at h ⊢
  split at h <;> [cases h; skip]
  split at h <;> [cases h; skip]
  split at h
  · rename_i u hl
    split at h <;> [cases h; skip]
    rename_i hv
    split at h <;> [cases h; skip]
    rename_i hs
    cases h
    obtain ⟨u', hl', hv', hs'⟩ := hlater hl (not_not.mp hv) (not_not.mp hs)
    simp [*]
  · split at h <;> [cases h; skip]
    split at h <;> [cases h; skip]
    split at h <;> [cases h; skip]
    cases h
    obtain ⟨u', hl', hv', hs'⟩ := hlater (lookup_insert _) rfl rfl
    simp [*]

theorem perform_again (h : r.perform revision c = some (.ok r')) (he : Extends r' r'')
    (ho : Overwrites c → r'' = r') : r''.perform later c = some (.ok r'') := by
  unfold perform at h ⊢
  split at h <;> simp only [Option.some.injEq, reduceCtorEq] at h
  · cases h
    rename_i domain identifier
    obtain ⟨n, hn⟩ : ∃ n, (r.ensureCatalog domain identifier).counters.lookup
        ⟨domain, identifier⟩ = some n := by
      unfold ensureCatalog
      split
      · rename_i hd
        exact mem_iff.mp (by simpa [declares] using hd)
      · exact ⟨1, lookup_insert _⟩
    obtain ⟨n', hn', -⟩ := he.counters hn
    have hmem : ⟨domain, identifier⟩ ∈ r''.counters := mem_iff.mpr ⟨n', hn'⟩
    simp [ensureCatalog, declares, hmem]
  · obtain ⟨u, hl, hs⟩ := begun_of_beginUpload h
    obtain ⟨u', hl', -, hs'⟩ := he.uploads hl
    simp [beginUpload, hl', hs'.trans hs]
  · cases ho trivial
    exact congrArg some (publishUpload_publishUpload h)
  · cases ho trivial
    cases h
    rw [insert_insert]
  · obtain ⟨u, hl, hs⟩ := ended_of_endUpload (by rintro _ _ ⟨⟩) h
    exact congrArg some (endUpload_of_ended (he.ended hl hs) hs)
  · obtain ⟨u, hl, hs⟩ := ended_of_endUpload (by rintro _ _ ⟨⟩) h
    exact congrArg some (endUpload_of_ended (he.ended hl hs) hs)
  · exact congrArg some (importVersion_again h he)

end operations

end ResourceRecords

theorem ResourceStep.perform
    (h : ResourceStep s c r) : s.resources.perform s.revision c = some (.ok r) := by
  cases h with
  | catalog | replica => rfl
  | begun h => exact congrArg some h
  | published h => exact congrArg some h
  | completed h => exact congrArg some h
  | failed h => exact congrArg some h
  | imported _ _ h => exact congrArg some h

section commands
variable {env : Environment} {s s' : StateMachineData} {c : ConsensusCommand}
  {response : ConsensusResponse}

theorem TransactionStep.resources (h : TransactionStep env s c a) :
    a.state.resources = s.resources ∨ Change s.resources True a.state.resources ∧
      ∀ r revision, perform r revision c = none := by
  cases h with
  | @begun _ _ _ _ _ effect _ t _ _ _ _ reports =>
    obtain ⟨_, _, _, _, hr, h⟩ :=
      applyStep_shape { s with transactionReports := reports } t.domain effect
    rw [storeTransaction, h]
    obtain rfl | ⟨_, _, rfl⟩ := hr
    · exact .inl rfl
    · exact .inr ⟨change_of_ensureCatalog, fun _ _ => rfl⟩
  | answered | opened | touched | queued | stale | failed | admitted => exact .inl rfl
  | @ended _ _ _ t' =>
    obtain ⟨reports, h⟩ := s.retainLatestPreview_shape t'
    left
    rw [storeTransaction, h]
  | completed =>
    obtain ⟨_, _, _, h⟩ := completed_shape _ _ _ _ _ _
    rw [storeTransaction, h]
    exact .inl rfl

theorem Transition.resources (h : Transition env s c s' response) :
    s'.resources = s.resources ∨
      response = .applied ∧ s.resources.perform s.revision c = some (.ok s'.resources) ∨
      Change s.resources True s'.resources ∧
        ∀ r revision, perform r revision c = none := by
  cases h with
  | conflict | error | unchanged | altered | admitted | acquired | released | finished | reclaimed
  | recorded | removed => exact .inl rfl
  | transaction h => exact h.resources.imp_right .inr
  | domain h =>
    obtain ⟨_, _, _, _, _, _, _, h⟩ | ⟨_, hr, ha, h⟩ | ⟨_, _, _, _, _, _, _, h⟩ := h.shape
    · subst h
      exact .inl rfl
    · subst h
      exact .inr (.inl ⟨ha, hr.perform⟩)
    · subst h
      exact .inl rfl
  | restored _ _ _ _ h =>
    cases h with
    | created _ _ _ _ hd =>
      exact .inr (.inr ⟨change_of_restoreCatalog hd, fun _ _ => rfl⟩)
    | users | imported | installed | resumed => exact .inl rfl

theorem eq_ok_of_changeResources
    (h : (Applied.ofConflict s (s.changeResources x)).response = .applied) :
    x = .ok (Applied.ofConflict s (s.changeResources x)).state.resources := by
  cases x with
  | error e => cases h
  | ok r => rfl

variable {reference : CommandExecutionReference}

theorem eq_ok_of_importResourceVersion
    (h : (Applied.ofImport s (s.importResourceVersion reference key resource replica)).response =
      .applied) :
    s.resources.importVersion key resource replica = .ok
      (Applied.ofImport s (s.importResourceVersion reference key resource replica)).state.resources := by
  have hy : (s.importResourceVersion reference key resource replica).Yields fun s' =>
      s.resources.importVersion key resource replica = .ok s'.resources := by
    refine .bind fun restore _ => .ensure_bind fun _ => .ensure_bind fun _ => ?_
    split
    · exact .ok ‹_›
    · exact .error
  cases hx : s.importResourceVersion reference key resource replica with
  | error e =>
    rw [hx] at h
    cases h
  | ok s' => exact hy s' hx

theorem perform_of_applied
    (hp : entry.payload = .normal c) (ha : (s.applyEntry env entry).response = .applied)
    (hx : s.resources.perform entry.logId.index c = some x) :
    x = .ok (s.applyEntry env entry).state.resources := by
  obtain ⟨revision, h⟩ := @StateMachineData.applyEntry_normal env s entry c hp
  rw [h] at ha ⊢
  unfold perform at hx
  split at hx <;> simp only [Option.some.injEq, reduceCtorEq] at hx
  case h_7 =>
    subst x
    exact eq_ok_of_importResourceVersion (s := { s with lastAppliedLogId := some entry.logId }) ha
  all_goals
    subst x
    exact eq_ok_of_changeResources (s := { s with lastAppliedLogId := some entry.logId }) ha

theorem resources_applyEntry (entry : Entry) : let a := s.applyEntry env entry
    a.state.resources = s.resources ∨
      (∃ c, entry.payload = .normal c ∧ a.response = .applied ∧
        s.resources.perform entry.logId.index c = some (.ok a.state.resources)) ∨
      Change s.resources True a.state.resources ∧
        ∀ c, entry.payload = .normal c → ∀ r revision, perform r revision c = none := by
  cases hp : entry.payload with
  | blank | membership =>
    left
    unfold applyEntry
    rw [hp]
  | normal c =>
    obtain ⟨s', revision, ht, hs⟩ := @applyEntry_transition env s entry c hp
    dsimp only
    rw [hs]
    rcases ht.resources with hr | ⟨ha, hr⟩ | ⟨hr, hn⟩
    · exact .inl hr
    · exact .inr (.inl ⟨c, rfl, ha, hr⟩)
    · refine .inr (.inr ⟨hr, ?_⟩)
      rintro _ ⟨⟩
      exact hn

theorem extends_applyEntry (entry : Entry) :
    s.resources.Extends (s.applyEntry env entry).state.resources := by
  rcases @resources_applyEntry env s entry with h | ⟨c, -, -, h⟩ | ⟨h, -⟩
  · rw [h]
    exact .refl
  · obtain ⟨p, -, hc⟩ := change_of_perform h
    exact hc.extends
  · exact h.extends

theorem extends_of_run (h : (stateMachine env).Run s t) : s.resources.Extends t.resources := by
  induction h with
  | refl => exact .refl
  | tail _ _ ih => exact ih.trans (extends_applyEntry _)

def Entry.CarefulIfApplied (env : Environment) (s : StateMachineData) (entry : Entry) : Prop :=
  (s.applyEntry env entry).response = .applied →
    ∀ c, entry.payload = .normal c → s.resources.Careful c

theorem sound_applyEntry_iff (hs : s.resources.Sound) :
    (s.applyEntry env entry).state.resources.Sound ↔ entry.CarefulIfApplied env s := by
  constructor
  · intro h ha c hp
    cases hx : s.resources.perform entry.logId.index c with
    | none => exact careful_of_perform_eq_none hx
    | some x =>
      cases perform_of_applied hp ha hx
      obtain ⟨p, hcareful, hc⟩ := change_of_perform hx
      exact hcareful.mp ((hc.sound_iff hs).mp h)
  · intro hcareful
    rcases @resources_applyEntry env s entry with h | ⟨c, hp, ha, h⟩ | ⟨h, -⟩
    · rwa [h]
    · obtain ⟨p, hiff, hc⟩ := change_of_perform h
      exact (hc.sound_iff hs).mpr (hiff.mpr (hcareful ha c hp))
    · exact (h.sound_iff hs).mpr trivial

end commands

def carefulRuns (env : Environment) : System StateMachineData Entry :=
  (stateMachine env).restrict fun s entry => entry.CarefulIfApplied env s

theorem sound_empty : empty.Sound where
  keyed h := nomatch h
  counted h := nomatch h
  assigned h := nomatch h
  unique h := nomatch h
  published h := nomatch h

theorem sound_of_run (h : (carefulRuns env).Run .initial s) : s.resources.Sound :=
  h.inv (P := fun s => s.resources.Sound) sound_empty
    fun hs hg => (sound_applyEntry_iff hs).mpr hg.2

structure CatalogKept (env : Environment) (s : StateMachineData) : Prop where
  sound : s.resources.Sound
  readable : ∃ status, s.resources.toStatus = .ok status
  recovered : s.resources.checkRecovered = .ok ()
  careful : ∀ entry, (s.applyEntry env entry).state.resources.Sound ↔ entry.CarefulIfApplied env s
  counters : ∀ {t key n}, (stateMachine env).Run s t → s.resources.counters.lookup key = some n →
    ∃ n', t.resources.counters.lookup key = some n' ∧ n ≤ n'
  ended : ∀ {t key upload}, (stateMachine env).Run s t →
    s.resources.uploads.lookup key = some upload →
    (∀ checksum, upload.state ≠ .applying checksum) →
    t.resources.uploads.lookup key = some upload
  repeated : ∀ {c entry later t}, entry.payload = .normal c → later.payload = .normal c →
    (s.resources.perform entry.logId.index c).isSome = true →
    (s.applyEntry env entry).response = .applied →
    (stateMachine env).Run (s.applyEntry env entry).state t →
    (Overwrites c → t.resources = (s.applyEntry env entry).state.resources) →
    (t.applyEntry env later).state.resources = t.resources
  restored : ∀ {entry later reference step effect},
    entry.payload = .normal (.applyRestoreStep reference step effect) →
    later.payload = .normal (.applyRestoreStep reference step effect) →
    (s.applyEntry env entry).response = .applied →
    ((s.applyEntry env entry).state.applyEntry env later).state.resources =
      (s.applyEntry env entry).state.resources

theorem catalogKept_of_run {env : Environment} {s : StateMachineData}
    (h : (carefulRuns env).Run .initial s) : CatalogKept env s where
  sound := sound_of_run h
  readable := (sound_of_run h).toStatus
  recovered := (sound_of_run h).checkRecovered
  careful _ := sound_applyEntry_iff (sound_of_run h)
  counters hrun hn := (extends_of_run hrun).counters hn
  ended hrun hl he := (extends_of_run hrun).ended hl he
  repeated := by
    intro c entry later t hp hlater hc ha hrun ho
    obtain ⟨x, hx⟩ := Option.isSome_iff_exists.mp hc
    cases perform_of_applied hp ha hx
    have hagain : t.resources.perform later.logId.index c = some (.ok t.resources) :=
      perform_again hx (extends_of_run hrun) ho
    rcases @resources_applyEntry env t later with h | ⟨c', hp', -, h⟩ | ⟨-, h⟩
    · exact h
    · rw [hlater] at hp'
      cases hp'
      rw [hagain] at h
      exact (Except.ok.inj (Option.some.inj h)).symm
    · rw [h c hlater] at hagain
      cases hagain
  restored := by
    intro entry later reference step effect hp hlater ha
    obtain ⟨s₁, _, hfirst, hs₁⟩ := @applyEntry_transition env s entry _ hp
    obtain ⟨s₂, _, hsecond, hs₂⟩ :=
      @applyEntry_transition env (s.applyEntry env entry).state later _ hlater
    rw [ha] at hfirst
    rw [hs₂]
    obtain ⟨rfl, -⟩ | ⟨_, _, _, _, _, _, -, -, -, -, -, -, -, rfl, -⟩ |
      ⟨e, r, hl, he, -, ⟨-, rfl⟩ | ⟨hn, -, s'', users, heff, rfl⟩⟩ := hsecond.restoreStep
    · rfl
    · rfl
    · rfl
    · rw [hs₁] at hl
      obtain ⟨-, ha⟩ | ⟨_, _, _, _, _, _, -, -, -, -, -, -, -, -, ⟨⟩⟩ |
        ⟨e', r', hl', he', -, ⟨hrec, rfl⟩ | ⟨-, -, s'', users, hmade, rfl⟩⟩ := hfirst.restoreStep
      · exact absurd rfl ha
      · cases hl'.symm.trans hl
        cases he'.symm.trans he
        rw [hrec] at hn
        cases hn
      · have hstate : ∀ d, step = .createDomain d → ∃ state, s''.domains.lookup d = some state := by
          cases hmade with
          | created =>
            rintro _ ⟨⟩
            exact ⟨_, lookup_insert _⟩
          | users | imported | installed | resumed => rintro _ ⟨⟩
        cases heff with
        | users | imported | installed | resumed => rfl
        | created _ _ _ hd _ =>
          obtain ⟨state, hs⟩ := hstate _ rfl
          rw [hs₁] at hd
          cases hs.symm.trans hd

theorem catalogKept_of_begun : let key : ResourceUploadKey := ⟨"u", "d", "res", "a"⟩
    let s := stateAfter [.createResourceCatalog "d" "res", .beginResourceUpload key "sum"]
    s.resources.uploads.lookup key = some ⟨key, 1, .applying "sum"⟩ ∧ CatalogKept .fixed s := by
  refine ⟨by decide, catalogKept_of_run (restrict_run_stateAfter fun c hc s entry hp _ c' hc' => ?_)⟩
  cases hp.symm.trans hc'
  simp only [mem_cons, not_mem_nil, or_false] at hc
  rcases hc with rfl | rfl <;> trivial

/-- A restore imports a version that an upload of the restored resource already holds, and an upload
completes without a published version. -/
theorem catalog_not_kept : let key : ResourceUploadKey := ⟨"u", "d", "res", "a"⟩
    let imported : ResourceUploadKey := ⟨"u", "d", "res", "b"⟩
    let s := stateAfter [
      .admitCommandExecution (.applyingAtPosition "r" "u" (some "d") none "q" 11
        (.restore (.new ⟨.domain "d" none, .stopped, "request"⟩ "archive"))) ["d"] ⟨5, 20, 4⟩,
      .applyRestoreStep "r" (.createDomain "d")
        (.domain ⟨"d", ⟨.unpaced, "placement"⟩, .stopped, 0, "start", none⟩ [⟨"res", 1⟩]),
      .beginResourceUpload key "sum",
      .importResourceVersion "r" imported ⟨⟨"d", "res", 1⟩, "other", "detail"⟩
        ⟨⟨"d", "res", 1, ⟨"n", 1⟩⟩, .ready, some "other", "detail"⟩]
    let t := stateAfter [.createResourceCatalog "d" "res", .beginResourceUpload key "sum",
      .completeResourceUpload key]
    s.resources.uploads.lookup key = some ⟨key, 1, .applying "sum"⟩ ∧
      s.resources.uploads.lookup imported = some ⟨imported, 1, .applying "other"⟩ ∧
      (∀ status, s.resources.toStatus ≠ .ok status) ∧ s.resources.checkRecovered ≠ .ok () ∧
      t.resources.uploads.lookup key = some ⟨key, 1, .completed "sum" 3⟩ ∧
      t.resources.versions.lookup ⟨"d", "res", 1⟩ = none := by
  intro key imported s t
  have hkey : s.resources.uploads.lookup key = some ⟨key, 1, .applying "sum"⟩ := by decide
  have himported : s.resources.uploads.lookup imported =
    some ⟨imported, 1, .applying "other"⟩ := by decide
  have hrefused : ∀ uploads, ResourceUploads.tryFromUploads
      (s.resources.uploads.ascending.map Prod.snd) ≠ .ok uploads := by
    intro uploads h
    have he := oneUploadEach_of_tryFromUploads h hkey himported rfl
    exact absurd he (by decide)
  refine ⟨hkey, himported, fun status h => ?_, fun h => ?_, by decide, by decide⟩
  all_goals
    cases hx : ResourceUploads.tryFromUploads (s.resources.uploads.ascending.map Prod.snd) with
    | error e =>
      simp only [toStatus, checkRecovered, hx] at h
      cases h
    | ok uploads => exact hrefused uploads hx

end Nervix.Consensus
