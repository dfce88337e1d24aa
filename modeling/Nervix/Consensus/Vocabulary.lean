import Nervix.Theory.Records

/-!
# Vocabulary of the replicated control plane

The names and values that the replicated state machine stores: domains with their schedules and
clocks, statements, resource identities, and the authoritative inputs a plan was made from.
-/

namespace Nervix.Consensus

abbrev Encoded := String

abbrev Digest := String

abbrev DomainName := String
abbrev UserName := String
abbrev ResourceName := String
abbrev ClusterNodeName := String
abbrev CommandExecutionReference := String
abbrev TransactionId := String

abbrev TransactionPosition := Nat

abbrev Timestamp := Int

def Timestamp.min : Timestamp := -2 ^ 63
@[inherit_doc Timestamp.min] def Timestamp.max : Timestamp := 2 ^ 63 - 1

structure ClusterNodeIdentity where
  nodeId : ClusterNodeName
  incarnation : Nat
  deriving DecidableEq, Repr

inductive DomainStatus
  | stopped
  | running
  | paused
  deriving DecidableEq, Repr

inductive DomainPace
  | paced (clock : Encoded)
  | unpaced
  deriving DecidableEq, Repr

def DomainPace.isPaced : DomainPace → Bool
  | .paced _ => true
  | .unpaced => false

structure DomainConfig where
  pace : DomainPace
  placement : Encoded
  deriving DecidableEq, Repr

abbrev DomainStartPoint := Encoded
abbrev DomainClockState := Encoded

structure DomainState where
  id : DomainName
  config : DomainConfig
  status : DomainStatus
  startVersion : Nat
  lastStart : DomainStartPoint
  clock : Option DomainClockState
  deriving DecidableEq, Repr

inductive DomainClockAuthority
  | unassigned (revision : Nat)
  | assigned (revision : Nat) (owner : ClusterNodeIdentity)
  deriving DecidableEq, Repr

namespace DomainClockAuthority

def initial : DomainClockAuthority := .unassigned 0

def revision : DomainClockAuthority → Nat
  | unassigned revision => revision
  | assigned revision _ => revision

def owner : DomainClockAuthority → Option ClusterNodeIdentity
  | unassigned _ => none
  | assigned _ owner => some owner

def reassign (authority : DomainClockAuthority) : Option ClusterNodeIdentity → DomainClockAuthority
  | some owner => assigned (authority.revision + 1) owner
  | none => unassigned (authority.revision + 1)

end DomainClockAuthority

structure DomainSchedule where
  domain : DomainName
  nodes : Encoded
  deriving DecidableEq, Repr

structure ClusterParameterRecord where
  revision : Nat
  values : Encoded
  deriving DecidableEq, Repr

structure UserCredentials where
  name : UserName
  passwordHash : String
  deriving DecidableEq, Repr

structure CreateResource where
  identifier : ResourceName
  ifNotExists : Bool
  deriving DecidableEq, Repr

inductive Statement
  | model (body : Encoded)
  | createDomain (body : Encoded)
  | alterDomain (body : Encoded)
  | createResource (create : CreateResource)
  | startDomain (body : Encoded)
  | stopDomain
  | drainNode (body : Encoded)
  | relocate (body : Encoded)
  | resetWasmState (reset : Encoded)
  | other (body : Encoded)
  deriving DecidableEq, Repr

namespace Statement

def isModelMutation : Statement → Bool
  | model _ => true
  | _ => false

def requiresDomainMutationOwnership : Statement → Bool
  | model _ | createDomain _ | alterDomain _ | startDomain _ | stopDomain | drainNode _
  | relocate _ | resetWasmState _ => true
  | createResource _ | other _ => false

end Statement

structure ResourceId where
  domain : DomainName
  identifier : ResourceName
  version : Nat
  deriving DecidableEq, Repr

structure ResourceCatalogKey where
  domain : DomainName
  identifier : ResourceName
  deriving DecidableEq, Repr

structure DomainResourcePlanningInputs where
  resources : Finset ResourceName
  completedVersions : Finset ResourceId
  deriving DecidableEq

structure ScheduleTopologyInputs where
  members : Finset ClusterNodeName
  voters : Finset ClusterNodeName
  cordoned : Finset ClusterNodeName
  deriving DecidableEq

structure DomainPlanningInputs where
  parameters : Option ClusterParameterRecord
  domain : DomainName
  state : Option DomainState
  resources : DomainResourcePlanningInputs
  schedule : Option DomainSchedule
  topology : ScheduleTopologyInputs
  deriving DecidableEq

namespace DomainPlanningInputs

section
variable (inputs : DomainPlanningInputs)

def afterDomainPause : DomainPlanningInputs :=
  { inputs with state := inputs.state.map fun state => { state with status := .paused } }

def afterSchedule (schedule : Option DomainSchedule) : DomainPlanningInputs :=
  { inputs with schedule }

def afterDomainUpdate (state : DomainState)
    (schedule : Option DomainSchedule) : DomainPlanningInputs :=
  { inputs with state := some state, schedule }

def afterResourceCatalog (resource : ResourceName) : DomainPlanningInputs :=
  { inputs with
    resources := { inputs.resources with resources := insert resource inputs.resources.resources } }

end

end DomainPlanningInputs

structure LeaderTenure where
  leaderId : ClusterNodeName
  term : Nat
  deriving DecidableEq, Repr

end Nervix.Consensus
