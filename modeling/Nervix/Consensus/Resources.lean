import Nervix.Consensus.Vocabulary

/-!
# Resource catalogs

The replicated catalog of resource versions: one version counter for each declared resource, the
published versions with their replicas, and the uploads, each bound to the version it was assigned.
-/

namespace Nervix.Consensus

structure ResourceVersion where
  id : ResourceId
  rootChecksum : String
  detail : Encoded
  deriving DecidableEq, Repr

inductive ResourceNodeState
  | pending
  | ready
  | failed
  deriving DecidableEq, Repr

structure ResourceReplicaKey where
  domain : DomainName
  identifier : ResourceName
  version : Nat
  node : ClusterNodeIdentity
  deriving DecidableEq, Repr

def ResourceReplicaKey.resourceId (key : ResourceReplicaKey) : ResourceId :=
  ⟨key.domain, key.identifier, key.version⟩

structure ResourceNodeStatus where
  key : ResourceReplicaKey
  state : ResourceNodeState
  rootChecksum : Option String
  detail : Encoded
  deriving DecidableEq, Repr

structure ResourceUploadKey where
  owner : UserName
  domain : DomainName
  identifier : ResourceName
  identity : String
  deriving DecidableEq, Repr

namespace ResourceUploadKey

def catalogKey (key : ResourceUploadKey) : ResourceCatalogKey := ⟨key.domain, key.identifier⟩

def fields (key : ResourceUploadKey) : String ×ₗ String ×ₗ String ×ₗ String :=
  toLex (key.owner, toLex (key.domain, toLex (key.identifier, key.identity)))

theorem fields_injective : Function.Injective fields := by
  rintro ⟨o, d, i, k⟩ ⟨o', d', i', k'⟩ h
  obtain ⟨rfl, rfl, rfl, rfl⟩ := h
  rfl

instance : LinearOrder ResourceUploadKey := LinearOrder.lift' fields fields_injective

end ResourceUploadKey

inductive ResourceUploadState
  | applying (rootChecksum : String)
  | completed (rootChecksum : String) (outcomeRevision : Nat)
  | failed (rootChecksum : String) (outcomeRevision : Nat) (reason : String)
  deriving DecidableEq, Repr

namespace ResourceUploadState

def rootChecksum : ResourceUploadState → String
  | applying checksum | completed checksum _ | failed checksum _ _ => checksum

def isCompleted : ResourceUploadState → Bool
  | completed _ _ => true
  | applying _ | failed _ _ _ => false

end ResourceUploadState

structure ResourceUpload where
  key : ResourceUploadKey
  version : Nat
  state : ResourceUploadState
  deriving DecidableEq, Repr

def ResourceUpload.resourceId (upload : ResourceUpload) : ResourceId :=
  ⟨upload.key.domain, upload.key.identifier, upload.version⟩

inductive ResourceUploadsError
  | duplicateKey (key : ResourceUploadKey)
  | duplicateVersion (id : ResourceId)
  deriving DecidableEq, Repr

structure ResourceUploads where
  byKey : Records ResourceUploadKey ResourceUpload
  byVersion : Records ResourceId ResourceUploadKey
  completedVersions : Finset ResourceId

namespace ResourceUploads

def empty : ResourceUploads := ⟨∅, ∅, ∅⟩

def add (uploads : ResourceUploads) (upload : ResourceUpload) :
    Except ResourceUploadsError ResourceUploads :=
  if upload.key ∈ uploads.byKey then .error (.duplicateKey upload.key)
  else if upload.resourceId ∈ uploads.byVersion then .error (.duplicateVersion upload.resourceId)
  else .ok {
    byKey := uploads.byKey.insert upload.key upload
    byVersion := uploads.byVersion.insert upload.resourceId upload.key
    completedVersions :=
      if upload.state.isCompleted then insert upload.resourceId uploads.completedVersions
      else uploads.completedVersions }

def tryFromUploads (uploads : List ResourceUpload) : Except ResourceUploadsError ResourceUploads :=
  uploads.foldlM add empty

end ResourceUploads

structure ResourceRecords where
  counters : Records ResourceCatalogKey Nat
  versions : Records ResourceId ResourceVersion
  replicas : Records ResourceReplicaKey ResourceNodeStatus
  uploads : Records ResourceUploadKey ResourceUpload

structure ResourceVersionStatus where
  counters : Records ResourceCatalogKey Nat
  versions : Records ResourceId ResourceVersion
  replicas : Records ResourceReplicaKey ResourceNodeStatus
  uploads : ResourceUploads

inductive ResourceMutationError
  | missingCatalog (domain : DomainName) (identifier : ResourceName)
  | versionSequenceExhausted (domain : DomainName) (identifier : ResourceName)
  | missingUpload (key : ResourceUploadKey)
  | versionMismatch (key : ResourceUploadKey) (assignedVersion receivedVersion : Nat)
  | replicaMismatch
  | outsideSequence (domain : DomainName) (identifier : ResourceName) (version nextVersion : Nat)
  | versionPublished (domain : DomainName) (identifier : ResourceName) (version : Nat)
  | digestConflict (key : ResourceUploadKey) (version : Nat)
      (expectedChecksum receivedChecksum : String)
  deriving DecidableEq, Repr

def ResourceMutationError.toText : ResourceMutationError → String
  | missingCatalog domain identifier =>
    s!"resource '{identifier}' does not exist in domain '{domain}'"
  | versionSequenceExhausted domain identifier =>
    s!"resource '{identifier}' in domain '{domain}' has exhausted its version sequence"
  | missingUpload key =>
    let identity := key.identity
    s!"resource upload identity '{identity}' has no assigned version"
  | versionMismatch key assigned received =>
    let identity := key.identity
    s!"resource upload identity '{identity}' is assigned version {assigned}, not {received}"
  | replicaMismatch =>
    "resource upload replica does not describe a ready copy of the assigned version"
  | outsideSequence domain identifier version next =>
    s!"version {version} of resource '{identifier}' in domain '{domain}' lies outside its " ++
      s!"sequence, which continues at {next}"
  | versionPublished domain identifier version =>
    s!"version {version} of resource '{identifier}' in domain '{domain}' is already published"
  | digestConflict key version expected received =>
    let identity := key.identity
    s!"resource upload identity '{identity}' is assigned version {version} with digest " ++
      s!"{expected}, not {received}"

namespace ResourceRecords

section
variable (r : ResourceRecords) (domain : DomainName) (identifier : ResourceName)
  (key : ResourceUploadKey)

def empty : ResourceRecords := ⟨∅, ∅, ∅, ∅⟩

def checkRecovered : Except ResourceUploadsError Unit :=
  (ResourceUploads.tryFromUploads (r.uploads.ascending.map Prod.snd)).map fun _ => ()

def toStatus : Except ResourceUploadsError ResourceVersionStatus :=
  (ResourceUploads.tryFromUploads (r.uploads.ascending.map Prod.snd)).map fun uploads =>
    { counters := r.counters, versions := r.versions, replicas := r.replicas, uploads }

def declares : Bool :=
  (ResourceCatalogKey.mk domain identifier) ∈ r.counters

def restoreCatalog (nextVersion : ℕ+) : ResourceRecords :=
  { r with counters := r.counters.insert ⟨domain, identifier⟩ nextVersion }

def isReadyCopy (replica : ResourceNodeStatus) (resource : ResourceVersion) : Bool :=
  replica.key.resourceId = resource.id ∧ replica.state = .ready ∧
    replica.rootChecksum = some resource.rootChecksum

def importVersion (resource : ResourceVersion)
    (replica : ResourceNodeStatus) : Except ResourceMutationError ResourceRecords :=
  let version := resource.id.version
  if resource.id.domain ≠ key.domain ∨ resource.id.identifier ≠ key.identifier then
    .error .replicaMismatch
  else if !isReadyCopy replica resource then .error .replicaMismatch
  else match r.uploads.lookup key with
    | some upload =>
      if upload.version ≠ version then .error (.versionMismatch key upload.version version)
      else if upload.state.rootChecksum ≠ resource.rootChecksum then
        .error (.digestConflict key version upload.state.rootChecksum resource.rootChecksum)
      else .ok r
    | none =>
      match r.counters.lookup key.catalogKey with
      | none => .error (.missingCatalog key.domain key.identifier)
      | some nextVersion =>
        if version = 0 ∨ nextVersion ≤ version then
          .error (.outsideSequence key.domain key.identifier version nextVersion)
        else if resource.id ∈ r.versions then
          .error (.versionPublished key.domain key.identifier version)
        else .ok { r with
          versions := r.versions.insert resource.id resource
          replicas := r.replicas.insert replica.key replica
          uploads := r.uploads.insert key ⟨key, version, .applying resource.rootChecksum⟩ }

def ensureCatalog : ResourceRecords :=
  if r.declares domain identifier then r
  else { r with counters := r.counters.insert ⟨domain, identifier⟩ 1 }

def beginUpload (rootChecksum : String) : Except ResourceMutationError ResourceRecords :=
  match r.uploads.lookup key with
  | some upload =>
    if upload.state.rootChecksum = rootChecksum then .ok r
    else .error (.digestConflict key upload.version upload.state.rootChecksum rootChecksum)
  | none =>
    match r.counters.lookup key.catalogKey with
    | none => .error (.missingCatalog key.domain key.identifier)
    | some version =>
      if version + 1 < 2 ^ 64 then
        .ok { r with
          counters := r.counters.insert key.catalogKey (version + 1)
          uploads := r.uploads.insert key ⟨key, version, .applying rootChecksum⟩ }
      else .error (.versionSequenceExhausted key.domain key.identifier)

def publishUpload (resource : ResourceVersion)
    (replica : ResourceNodeStatus) : Except ResourceMutationError ResourceRecords :=
  match r.uploads.lookup key with
  | none => .error (.missingUpload key)
  | some upload =>
    if resource.id.domain ≠ key.domain ∨ resource.id.identifier ≠ key.identifier ∨
        resource.id.version ≠ upload.version then
      .error (.versionMismatch key upload.version resource.id.version)
    else if !isReadyCopy replica resource then .error .replicaMismatch
    else if upload.state.rootChecksum ≠ resource.rootChecksum then
      .error (.digestConflict key upload.version upload.state.rootChecksum resource.rootChecksum)
    else match upload.state with
      | .completed _ _ | .failed _ _ _ => .ok r
      | .applying _ => .ok { r with
          versions := r.versions.insert resource.id resource
          replicas := r.replicas.insert replica.key replica
          uploads := r.uploads.insert key ⟨key, upload.version, .applying resource.rootChecksum⟩ }

def endUpload
    (outcome : String → ResourceUploadState) : Except ResourceMutationError ResourceRecords :=
  match r.uploads.lookup key with
  | none => .error (.missingUpload key)
  | some upload =>
    match upload.state with
    | .applying rootChecksum =>
      .ok { r with uploads := r.uploads.insert key ⟨key, upload.version, outcome rootChecksum⟩ }
    | .completed _ _ | .failed _ _ _ => .ok r

def completeUpload (outcomeRevision : Nat) : Except ResourceMutationError ResourceRecords :=
  r.endUpload key fun rootChecksum => .completed rootChecksum outcomeRevision

def failUpload (outcomeRevision : Nat)
    (reason : String) : Except ResourceMutationError ResourceRecords :=
  r.endUpload key fun rootChecksum => .failed rootChecksum outcomeRevision reason

end

end ResourceRecords

end Nervix.Consensus
