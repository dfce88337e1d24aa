import Nervix.Consensus.Vocabulary

/-!
# Domain mutation leases

The replicated right to change one domain: who holds it, since which committed position, and how a
request for it is decided.
-/

namespace Nervix.Consensus

inductive DomainMutationOwner
  | command (reference : CommandExecutionReference)
  | transaction (id : TransactionId)
  deriving DecidableEq, Repr

namespace DomainMutationOwner

def isTransaction : DomainMutationOwner → Bool
  | command _ => false
  | transaction _ => true

def toText : DomainMutationOwner → String
  | command reference => s!"command '{reference}'"
  | transaction id => s!"transaction '{id}'"

end DomainMutationOwner

structure DomainMutationLease where
  owner : DomainMutationOwner
  recoveryFence : Nat
  deriving DecidableEq, Repr

inductive DomainMutationError
  | conflict (domain : DomainName) (owner : DomainMutationOwner)
  | fenceLost (domain : DomainName) (owner : DomainMutationOwner)
  deriving DecidableEq, Repr

def DomainMutationError.toText : DomainMutationError → String
  | conflict domain owner =>
    let owner := owner.toText
    s!"domain '{domain}' mutation is owned by {owner}"
  | fenceLost domain owner =>
    let owner := owner.toText
    s!"domain '{domain}' mutation lease for {owner} is no longer authoritative"

inductive DomainMutationAdmission
  | acquired (lease : DomainMutationLease)
  | joined (lease : DomainMutationLease)
  | conflict (lease : DomainMutationLease)
  deriving DecidableEq, Repr

namespace DomainMutationAdmission

def decide (current : Option DomainMutationLease) (requestedOwner : DomainMutationOwner)
    (recoveryFence : Nat) : DomainMutationAdmission :=
  match current with
  | none => acquired ⟨requestedOwner, recoveryFence⟩
  | some current => if current.owner = requestedOwner then joined current else conflict current

def lease : DomainMutationAdmission → DomainMutationLease
  | acquired lease | joined lease | conflict lease => lease

def intoAdmitted : DomainMutationAdmission → Option DomainMutationLease
  | acquired lease | joined lease => some lease
  | conflict _ => none

theorem intoAdmitted_decide {current : Option DomainMutationLease} {owner : DomainMutationOwner}
    {fence : Nat} {lease : DomainMutationLease} :
    (decide current owner fence).intoAdmitted = some lease ↔
      lease.owner = owner ∧ (current = some lease ∨ current = none ∧ lease = ⟨owner, fence⟩) := by
  cases current with
  | none =>
    simp only [decide, intoAdmitted, Option.some.injEq, true_and, reduceCtorEq, false_or]
    constructor
    · rintro rfl
      exact ⟨rfl, rfl⟩
    · rintro ⟨-, rfl⟩
      rfl
  | some held =>
    simp only [decide, Option.some.injEq, reduceCtorEq, false_and, or_false]
    by_cases h : held.owner = owner
    · simp only [h, if_true, intoAdmitted, Option.some.injEq]
      constructor
      · rintro rfl
        exact ⟨h, rfl⟩
      · exact fun h' => h'.2
    · simp only [h, if_false, intoAdmitted, reduceCtorEq, false_iff, not_and]
      rintro h' rfl
      exact h h'

end DomainMutationAdmission

end Nervix.Consensus
