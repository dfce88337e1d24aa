import Nervix.RateLimit.KeyOrder

/-!
# What a limiter owes

The ledger of a limiter holds one account for each clause, in instants of the clock instead of
offsets from an epoch: the horizon of a direct clause, and of a keyed one the debts of the keys that
are alive, the least recently used first.
-/

namespace Nervix.RateLimit

open Recency
open Option
open KeyedStore (horizonIn lease live live_live nextOrdinal prepare_of_maxKeys_eq_zero setCell_self setCell_setCell statistics)
open Allowance

def Charge.key : Charge → Option KeyFingerprint
  | direct _ => none
  | keyed key _ => some key

namespace Limiter

variable {clockMax now offset index : Nat} {charges : List Charge} {allowances : List Allowance}
variable {limiter : Limiter}

structure Ready (offset : Nat) (a : Allowance) (c : Charge) : Prop where
  kind : sameKind a c = true
  fits : offset + a.quota.horizon ≤ u64Max

theorem ready_of_validateClauses (hlength : charges.length = allowances.length)
    (h : validateClauses clockMax now offset index allowances charges = .ok ()) :
    List.Forall₂ (Ready offset) allowances charges := by
  induction allowances generalizing index charges with
  | nil =>
    obtain rfl := List.length_eq_zero_iff.mp hlength
    exact .nil
  | cons a allowances ih =>
    cases charges with
    | nil => cases hlength
    | cons c charges =>
      rw [validateClauses] at h
      split at h
      · cases h
      split at h
      · cases h
      rename_i hkind hfits
      exact .cons ⟨by simpa using hkind, by omega⟩ (ih (Nat.succ.inj hlength) h)

theorem validate_eq_ok (h : limiter.validate clockMax charges now = .ok offset) :
    charges.length = limiter.clauses.length ∧ limiter.latest ≤ now ∧ offset = now - limiter.epoch ∧
      List.Forall₂ (Ready offset) limiter.clauses charges := by
  simp only [validate, Limiter.offset] at h
  split at h
  · cases h
  rename_i hlength
  have hlength := not_not.mp hlength
  split at h
  · cases h
  rename_i hlatest
  split at h
  · cases h
  change (validateClauses clockMax now (now - limiter.epoch) 0 limiter.clauses charges >>=
    fun _ => pure (now - limiter.epoch)) = _ at h
  cases hclauses : validateClauses clockMax now (now - limiter.epoch) 0 limiter.clauses charges with
  | error e =>
    rw [hclauses] at h
    cases h
  | ok u =>
    rw [hclauses] at h
    cases h
    exact ⟨hlength, Nat.not_lt.mp hlatest, rfl, ready_of_validateClauses hlength hclauses⟩

theorem eq_charged_of_outcome {made : Charged}
    (h : made.outcome wait exhausted = .ok (none, none)) :
    made = .charged ∧ wait = none ∧ exhausted = none := by
  cases made <;> simp_all [Charged.outcome]

end Limiter

structure Debt where
  horizon : Instant
  lastSeen : Instant
  deriving DecidableEq, Repr

abbrev Debts := List (KeyFingerprint × Debt)

def Debts.live (ttl : Nat) (now : Instant) (debts : Debts) : Debts :=
  debts.filter fun e => now - e.2.lastSeen < ttl

inductive Account
  | direct (quota : Quota) (horizon : Instant)
  | keyed (quota : Quota) (options : KeyedOptions) (debts : Debts) (evictions : Nat)

namespace Account

def clause : Account → Clause
  | direct quota _ => .direct quota
  | keyed quota options _ _ => .keyed quota options

def quota (b : Account) : Quota := b.clause.quota

def closed : Account → Bool
  | direct .. => false
  | keyed _ options _ _ => options.maxKeys = 0

def expire (now : Instant) : Account → Account
  | direct quota horizon => direct quota horizon
  | keyed quota options debts evictions =>
    keyed quota options (debts.live options.ttl now) evictions

theorem clause_expire (now : Instant) (b : Account) : (b.expire now).clause = b.clause := by
  cases b <;> rfl

def horizon : Account → Option KeyFingerprint → Instant
  | direct _ horizon, _ => horizon
  | keyed _ _ debts _, some key => ((find debts key).map Debt.horizon).getD 0
  | keyed .., none => 0

def visit (now horizon : Instant) : Account → Option KeyFingerprint → Account
  | direct quota _, _ => direct quota horizon
  | keyed quota options debts evictions, some key =>
    keyed quota options (use options.maxKeys debts key ⟨horizon, now⟩)
      (evictions + if key ∉ keys debts ∧ options.maxKeys ≤ debts.length then 1 else 0)
  | b, _ => b

def charge (now : Instant) (index : Nat) (b : Account) (c : Charge) : Charged :=
  if b.closed then .exhausted index 0
  else match b.quota.policy.charge (b.horizon c.key) now c.cost with
    | some _ => .charged
    | none => .wait (now + (b.horizon c.key - now + c.cost * b.quota.replenishInterval
        - b.quota.burst * b.quota.replenishInterval))

def commit (now : Instant) (b : Account) (c : Charge) : Account :=
  match b.quota.policy.charge (b.horizon c.key) now c.cost with
  | some horizon => b.visit now horizon c.key
  | none => b

section
variable {now horizon : Instant} {index : Nat} {b : Account} {c : Charge}

theorem charge_of_some (hclosed : b.closed = false)
    (h : b.quota.policy.charge (b.horizon c.key) now c.cost = some horizon) :
    b.charge now index c = .charged := by
  simp [charge, hclosed, h]

theorem charge_of_none (hclosed : b.closed = false)
    (h : b.quota.policy.charge (b.horizon c.key) now c.cost = none) :
    b.charge now index c = .wait (now + (b.horizon c.key - now + c.cost *
      b.quota.replenishInterval - b.quota.burst * b.quota.replenishInterval)) := by
  simp [charge, hclosed, h]

theorem commit_of_some (h : b.quota.policy.charge (b.horizon c.key) now c.cost = some horizon) :
    b.commit now c = b.visit now horizon c.key := by
  simp [commit, h]

end

def answers (now : Instant) : Nat → List Account → List Charge → Option Instant →
    Option (Nat × Nat) → Except AdmissionError (Option Instant × Option (Nat × Nat))
  | index, b :: bs, c :: cs, wait, exhausted =>
    match (b.charge now index c).outcome wait exhausted with
    | .error e => .error e
    | .ok (wait, exhausted) => answers now (index + 1) bs cs wait exhausted
  | _, _, _, wait, exhausted => .ok (wait, exhausted)

end Account

def admitLedger (now : Instant) (ledger : List Account) (charges : List Charge) :
    Except AdmissionError Admission × List Account :=
  match Account.answers now 0 (ledger.map (Account.expire now)) charges none none with
  | .error e => (.error e, ledger.map (Account.expire now))
  | .ok (_, some (clause, limit)) =>
    (.ok (.keyBudgetExhausted clause limit), ledger.map (Account.expire now))
  | .ok (some deadline, none) => (.ok (.waitUntil deadline), ledger.map (Account.expire now))
  | .ok (none, none) =>
    (.ok .admitted, (ledger.map (Account.expire now)).zipWith (Account.commit now) charges)

namespace Account

theorem clause_commit (now : Instant) (b : Account) (c : Charge) :
    (b.commit now c).clause = b.clause := by
  unfold commit
  split
  · unfold visit
    split <;> rfl
  · rfl

end Account

theorem map_clause_admitLedger (hlength : charges.length = ledger.length) :
    (admitLedger now ledger charges).2.map Account.clause = ledger.map Account.clause := by
  have hexpire : (ledger.map (Account.expire now)).map Account.clause = ledger.map Account.clause := by
    rw [List.map_map]
    exact List.map_congr_left fun b _ => b.clause_expire now
  have hcommit : ∀ {ledger : List Account} {charges : List Charge}, charges.length = ledger.length →
      (ledger.zipWith (Account.commit now) charges).map Account.clause =
        ledger.map Account.clause := by
    intro ledger
    induction ledger with
    | nil => exact fun _ => rfl
    | cons b ledger ih =>
      intro charges hlength
      cases charges with
      | nil => cases hlength
      | cons c charges =>
        exact congrArg₂ List.cons (b.clause_commit now c) (ih (Nat.succ.inj hlength))
  unfold admitLedger
  split
  · exact hexpire
  · exact hexpire
  · exact hexpire
  · exact (hcommit (by simpa using hlength)).trans hexpire

def statisticsOf : List Account → KeyStatistics → KeyStatistics
  | [], result => result
  | .direct .. :: ledger, result => statisticsOf ledger result
  | .keyed _ _ debts evictions :: ledger, result =>
    statisticsOf ledger ⟨result.active + debts.length, result.evicted + evictions⟩

def Entry.debt (epoch : Instant) (entry : Entry) : Debt :=
  ⟨epoch + entry.cell, epoch + entry.lastSeen⟩

namespace KeyedStore

def debts (epoch : Instant) (ttl now : Nat) (l : List (KeyFingerprint × Entry)) : Debts :=
  (live ttl now l).map (Prod.map id (Entry.debt epoch))

section
variable (epoch : Instant) {ttl now : Nat} {l : List (KeyFingerprint × Entry)}

theorem keys_debts : keys (debts epoch ttl now l) = keys (live ttl now l) := keys_map _

theorem length_debts : (debts epoch ttl now l).length = (live ttl now l).length := List.length_map _

end

end KeyedStore

namespace Allowance

variable {epoch now : Instant} {a a' : Allowance} {b : Account} {c : Charge}

inductive Shows (epoch now : Instant) : Allowance → Account → Prop
  | direct {quota : Quota} {cell : Nat} : cell ≤ now - epoch + quota.horizon →
      Shows epoch now (.direct quota cell) (.direct quota (epoch + cell))
  | keyed {quota : Quota} {store : KeyedStore} {l : List (KeyFingerprint × Entry)} :
      store.Ordered (now - epoch) l → (∀ e ∈ l, e.2.cell ≤ e.2.lastSeen + quota.horizon) →
      Shows epoch now (.keyed quota store) (.keyed quota store.options
        (KeyedStore.debts epoch store.options.ttl (now - epoch) l) store.evictions)

theorem Shows.clause (h : a.Shows epoch now b) : b.clause = a.clause := by
  cases h <;> rfl

end Allowance

theorem Debts.live_live {debts : Debts} (h : now ≤ now') :
    (debts.live ttl now).live ttl now' = debts.live ttl now' := by
  rw [live, live, live, List.filter_filter]
  refine List.filter_congr fun e _ => ?_
  have hle : now - e.2.lastSeen ≤ now' - e.2.lastSeen := Nat.sub_le_sub_right h _
  by_cases hlive : now' - e.2.lastSeen < ttl
  · simp [hlive, hle.trans_lt hlive]
  · simp [hlive]

theorem KeyedStore.debts_eq :
    debts epoch ttl (now - epoch) l =
      Debts.live ttl now (l.map (Prod.map id (Entry.debt epoch))) := by
  rw [debts, live, Debts.live, List.filter_map]
  refine congrArg _ (List.filter_congr fun e _ => ?_)
  have : now - (epoch + e.2.lastSeen) = now - epoch - e.2.lastSeen := (Nat.sub_sub ..).symm
  simp [Entry.debt, this]

theorem map_expire_expire (h : now ≤ now') (ledger : List Account) :
    (ledger.map (Account.expire now)).map (Account.expire now') =
      ledger.map (Account.expire now') := by
  rw [List.map_map]
  refine List.map_congr_left fun b _ => ?_
  cases b with
  | direct => rfl
  | keyed quota options debts evictions =>
    exact congrArg (Account.keyed quota options · evictions) (Debts.live_live h)

theorem Allowance.Shows.expire {a : Allowance}
    (h : a.Shows epoch now b) (hnow : now ≤ now') : a.Shows epoch now' (b.expire now') := by
  cases h with
  | direct hcell =>
    exact .direct (hcell.trans (Nat.add_le_add_right (Nat.sub_le_sub_right hnow _) _))
  | keyed hordered hhorizons =>
    rw [Account.expire, KeyedStore.debts_eq, Debts.live_live hnow, ← KeyedStore.debts_eq]
    exact .keyed (hordered.mono (Nat.sub_le_sub_right hnow _)) hhorizons

theorem Allowance.Shows.expire_self {a : Allowance}
    (h : a.Shows epoch now b) : b.expire now = b := by
  cases h with
  | direct => rfl
  | keyed => rw [Account.expire, KeyedStore.debts_eq, Debts.live_live le_rfl]

namespace Allowance

variable {epoch now : Instant} {index : Nat} {a a' : Allowance} {b : Account} {c : Charge}

def horizon : Allowance → Option KeyFingerprint → Option Nat
  | direct _ cell, none => some cell
  | keyed _ store, some key => (store.get key).map Entry.cell
  | _, _ => none

def removals : Allowance → Option KeyFingerprint → Nat
  | keyed _ store, some key => store.removed.count key
  | _, _ => 0

inductive Refunded (now : Nat) : Allowance → Allowance → Prop
  | direct {quota : Quota} {cell : Nat} : Refunded now (.direct quota cell) (.direct quota cell)
  | keyed {quota : Quota} {store store' : KeyedStore} : store.Expires now store' →
      Refunded now (.keyed quota store) (.keyed quota store')

theorem Refunded.refl : ∀ {a : Allowance}, a.Refunded now a
  | .direct .. => .direct
  | .keyed .. => .keyed .refl

theorem Refunded.clause (h : a.Refunded now a') : a'.clause = a.clause := by
  cases h with
  | direct => rfl
  | keyed hexpires => exact congrArg (Clause.keyed _) hexpires.options

theorem map_clause_of_refunded (h : List.Forall₂ (Refunded now) as bs) :
    bs.map clause = as.map clause :=
  (map_eq_map_of_forall₂ h fun _ _ hab => hab.clause.symm).symm

/-- A clause that is not charged. -/
structure Returned (now : Nat) (a a' : Allowance) : Prop where
  refunded : a.Refunded now a'
  kept : ∀ id, a'.removals id = a.removals id → a'.horizon id = a.horizon id

theorem Returned.refl : a.Returned now a := ⟨.refl, fun _ _ => rfl⟩

theorem Returned.keyed {quota : Quota} (h : store.Expires now store')
    (hkeeps : store.Keeps none store') :
    (keyed quota store).Returned now (.keyed quota store') := by
  refine ⟨.keyed h, fun id hcount => ?_⟩
  cases id with
  | none => rfl
  | some key => exact congrArg (Option.map _) (hkeeps.kept key (by simp) hcount)

theorem Returned.clause (h : a.Returned now a') : a'.clause = a.clause := h.refunded.clause

structure ChargedTo (offset : Nat) (c : Charge) (a a' : Allowance) : Prop where
  clause : a'.clause = a.clause
  others : ∀ id, id ≠ c.key → a'.removals id = a.removals id → a'.horizon id = a.horizon id
  own : a'.removals c.key = a.removals c.key → ∃ horizon, a'.horizon c.key = some horizon ∧
    a.quota.policy.charge ((a.horizon c.key).getD 0) offset c.cost = some horizon

theorem ChargedTo.keyed {quota : Quota} {cost : ℕ+} (hoptions : store'.options = store.options)
    (h : store.Keeps none store₁) (h' : store₁.Keeps (some key) store')
    (hcell : (store'.get key).map Entry.cell = some cell)
    (hcharge : quota.policy.charge (((store₁.get key).map Entry.cell).getD 0) offset cost =
      some cell) :
    (keyed quota store).ChargedTo offset (.keyed key cost) (.keyed quota store') := by
  refine ⟨congrArg (Clause.keyed quota) hoptions, fun id hne hcount => ?_, fun hcount => ?_⟩
  · cases id with
    | none => rfl
    | some k => exact congrArg (Option.map _) ((h.trans h').kept k hne hcount)
  · have hcount : store'.removed.count key = store.removed.count key := hcount
    have := h.removed key
    have := h'.removed key
    rw [h.kept key (by simp) (by omega)] at hcharge
    exact ⟨cell, hcell, hcharge⟩

def Exhausted : Allowance → Prop
  | direct .. => False
  | keyed _ store => store.options.maxKeys ≠ 0 ∧ u64Max < store.visits + 1

def visits : Allowance → Nat
  | direct .. => 0
  | keyed _ store => store.visits

def nextVisits : Allowance → Nat
  | direct .. => 0
  | keyed _ store => if store.options.maxKeys = 0 then store.visits else store.visits + 1

structure Charges (epoch now : Instant) (index : Nat) (a : Allowance) (b : Account) (c : Charge)
    (slot : Slot) (made : Charged) : Prop where
  returned : a.Returned (now - epoch) slot.rollback
  shows : slot.rollback.Shows epoch now b
  exhausted : a.Exhausted → made = .failed .visitRange
  answer : ¬ a.Exhausted → made = b.charge now index c
  visits : ¬ a.Exhausted → slot.rollback.visits = a.nextVisits
  commit : ¬ a.Exhausted → made = .charged → ∃ a', slot.commit = some a' ∧
    a'.Shows epoch now (b.commit now c) ∧ a'.visits = a.nextVisits ∧
    a.ChargedTo (now - epoch) c a'

section
variable {quota : Quota} {cost : ℕ+} {horizon : Instant} {before : Nat}

theorem check_eq (hdebt : horizon - now = before - (now - epoch)) :
    (quota.policy.check (before - (now - epoch)) cost).map (now + ·) =
      quota.policy.charge horizon now cost := by
  rw [Gcra.Policy.charge, hdebt]

section
variable (lease : Lease) (hquota : lease.quota = quota) (hcell : lease.cell = some before)
  (hdebt : horizon - now = before - (now - epoch))
include lease hquota hcell hdebt

theorem charge_eq_wait (h : quota.policy.charge horizon now cost = none) :
    lease.charge now (now - epoch) cost = some (.leased lease, .wait (now + (horizon - now +
      cost * quota.replenishInterval - quota.burst * quota.replenishInterval))) := by
  subst hquota
  rw [← check_eq hdebt, map_eq_none_iff] at h
  simp only [Lease.charge, Lease.checkN, hcell, bind_eq_bind, bind_some, h, hdebt]

theorem charge_eq_charged (hepoch : epoch ≤ now) (hfit : now - epoch + quota.horizon ≤ u64Max)
    (h : quota.policy.charge horizon now cost = some horizon') :
    lease.charge now (now - epoch) cost =
      some (.leased (lease.setCell (horizon' - epoch)), .charged) ∧ epoch ≤ horizon' ∧
      horizon' ≤ now + quota.horizon ∧
      quota.policy.charge before (now - epoch) cost = some (horizon' - epoch) := by
  subst hquota
  have hbound := (Gcra.Policy.charge_eq_some_iff.mp h).2
  have hburst : lease.quota.policy.burst * lease.quota.policy.interval = lease.quota.horizon :=
    lease.quota.horizon_eq.symm
  rw [hburst] at hbound
  rw [← check_eq hdebt] at h
  obtain ⟨next, hnext, rfl⟩ := map_eq_some_iff.mp h
  have hoffset : now - epoch + next = now + next - epoch := by
    unfold Instant at *
    omega
  refine ⟨?_, Nat.le_add_right_of_le hepoch, hbound, by
    rw [Gcra.Policy.charge, hnext, map_some, hoffset]⟩
  have hle : now - epoch + next ≤ u64Max := by
    unfold Instant at *
    omega
  simp only [Lease.charge, Lease.checkN, hcell, bind_eq_bind, bind_some, hnext, if_pos hle]
  rw [hoffset]

end

theorem sub_le_of_le_add (hepoch : epoch ≤ now)
    (h : horizon' ≤ now + quota.horizon) : horizon' - epoch ≤ now - epoch + quota.horizon := by
  unfold Instant at *
  omega

variable (hepoch : epoch ≤ now) (hfit : now - epoch + quota.horizon ≤ u64Max)
include hepoch hfit

theorem direct_charges (hcell : cell ≤ now - epoch + quota.horizon) :
    ∃ slot made, (direct quota cell).charge now (now - epoch) index (.direct cost) =
        some (slot, made) ∧
      Charges epoch now index (.direct quota cell) (.direct quota (epoch + cell)) (.direct cost)
        slot made := by
  have hdebt : epoch + cell - now = cell - (now - epoch) := by
    unfold Instant at *
    omega
  let b := Account.direct quota (epoch + cell)
  let c := Charge.direct cost
  cases hcharge : b.quota.policy.charge (b.horizon c.key) now c.cost with
  | none =>
    exact ⟨_, _, charge_eq_wait (.direct quota cell cell) rfl rfl hdebt hcharge, .refl,
      .direct hcell, False.elim, fun _ => (Account.charge_of_none rfl hcharge).symm, fun _ => rfl, by simp⟩
  | some horizon' =>
    obtain ⟨heq, hle, hbound, hown⟩ :=
      charge_eq_charged (.direct quota cell cell) rfl rfl hdebt hepoch hfit hcharge
    refine ⟨_, _, heq, .refl, .direct hcell, False.elim,
      fun _ => (Account.charge_of_some rfl hcharge).symm, fun _ => rfl,
      fun _ _ => ⟨_, rfl, ?_, rfl, rfl, ?_, fun _ => ⟨_, rfl, hown⟩⟩⟩
    on_goal 2 =>
      rintro (_ | key) hne _
      · exact absurd rfl hne
      · rfl
    have hcommit : b.commit now c = .direct quota (epoch + (horizon' - epoch)) := by
      rw [Nat.add_sub_cancel' hle]
      exact Account.commit_of_some hcharge
    rw [hcommit]
    exact .direct (sub_le_of_le_add hepoch hbound)

omit hepoch hfit in
theorem Shows.of_live {store store' : KeyedStore} (hordered : store'.Ordered (now - epoch) l')
    (hhorizons : ∀ e ∈ l', e.2.cell ≤ e.2.lastSeen + quota.horizon)
    (hoptions : store'.options = store.options) (hevictions : store'.evictions = store.evictions)
    (hlive : live store.options.ttl (now - epoch) l' =
      live store.options.ttl (now - epoch) l) :
    (Allowance.keyed quota store').Shows epoch now (.keyed quota store.options
      (KeyedStore.debts epoch store.options.ttl (now - epoch) l) store.evictions) := by
  have h := Shows.keyed hordered hhorizons
  rwa [hoptions, hevictions, KeyedStore.debts, hlive, ← KeyedStore.debts] at h

theorem visit_charges
    (hkeys : store.options.maxKeys ≠ 0) (hexpires : store.Expires (now - epoch) store₁)
    (hkeeps : store.Keeps none store₁)
    (hvisits : store₁.visits = store.visits) (h₁ : store₁.Ordered (now - epoch) l₁)
    (hhorizons₁ : ∀ e ∈ l₁, e.2.cell ≤ e.2.lastSeen + quota.horizon)
    (hlive : live store.options.ttl (now - epoch) l₁ =
      live store.options.ttl (now - epoch) l)
    (hfinds : store₁.Finds (now - epoch) l₁ key entry) (hroom : store₁.visits + 1 ≤ u64Max)
    (hbefore : before =
      horizonIn (live store₁.options.ttl (now - epoch) l₁) key) :
    ∃ slot made, (Lease.keyed quota { store₁ with visits := store₁.visits + 1 }
        ⟨key, now - epoch, store₁.visits, entry⟩ before).charge now (now - epoch) cost =
        some (slot, made) ∧
      Charges epoch now index (.keyed quota store) (.keyed quota store.options
        (KeyedStore.debts epoch store.options.ttl (now - epoch) l) store.evictions)
        (.keyed key cost) slot made := by
  have hopen : ¬ (keyed quota store).Exhausted := fun h => by
    have := h.2
    omega
  have hnext : (keyed quota store).nextVisits = store₁.visits + 1 := by
    rw [nextVisits, if_neg hkeys, hvisits]
  let store₂ : KeyedStore := { store₁ with visits := store₁.visits + 1 }
  let lease : KeyLease := ⟨key, now - epoch, store₁.visits, entry⟩
  have hcell : store₂.cell lease = some before := hbefore ▸ h₁.cell_eq hfinds _ _
  let b := Account.keyed quota store.options
    (KeyedStore.debts epoch store.options.ttl (now - epoch) l) store.evictions
  let c := Charge.keyed key cost
  have hdebt : b.horizon c.key - now = before - (now - epoch) := by
    rw [hbefore, hexpires.options, hlive]
    simp only [b, c, Charge.key, Account.horizon, KeyedStore.debts, find_map, horizonIn]
    cases find (live store.options.ttl (now - epoch) l) key with
    | none => simp
    | some entry =>
      simp only [map_some, getD_some, Entry.debt]
      unfold Instant at *
      omega
  have hclosed : b.closed = false := decide_eq_false hkeys
  have h₂ : store₂.Ordered (now - epoch) l₁ :=
    { h₁ with below := fun e he => (h₁.below e he).trans (Nat.lt_succ_self _), visits := hroom }
  have hshows : (keyed quota store₂).Shows epoch now b :=
    .of_live h₂ hhorizons₁ hexpires.options hexpires.evictions hlive
  have hrefunded : (keyed quota store).Returned (now - epoch) (.keyed quota store₂) :=
    .keyed { hexpires with visits := hexpires.visits.trans (Nat.le_succ _) }
      ⟨hkeeps.removed, hkeeps.kept⟩
  cases hcharge : b.quota.policy.charge (b.horizon c.key) now c.cost with
  | none =>
    have hrollback : (Slot.leased (.keyed quota store₂ lease before)).rollback =
        .keyed quota store₂ := congrArg (keyed quota) (setCell_self hcell)
    refine ⟨_, _, charge_eq_wait (.keyed quota store₂ lease before) rfl hcell hdebt hcharge, ?_⟩
    exact ⟨hrollback ▸ hrefunded, hrollback ▸ hshows, fun h => absurd h hopen,
      fun _ => (Account.charge_of_none hclosed hcharge).symm,
      fun _ => by rw [hrollback, hnext]; rfl, by simp⟩
  | some horizon' =>
    obtain ⟨heq, hle, hbound, hown⟩ :=
      charge_eq_charged (.keyed quota store₂ lease before) rfl hcell hdebt hepoch hfit hcharge
    have hrollback : (Slot.leased ((Lease.keyed quota store₂ lease before).setCell
        (horizon' - epoch))).rollback = .keyed quota store₂ :=
      congrArg (keyed quota)
        (setCell_setCell.trans (setCell_self hcell))
    refine ⟨_, _, heq, hrollback ▸ hrefunded, hrollback ▸ hshows, fun h => absurd h hopen,
      fun _ => (Account.charge_of_some hclosed hcharge).symm,
      fun _ => by rw [hrollback, hnext]; rfl, fun _ _ => ?_⟩
    obtain ⟨store', hcommit, hoptions, hvisited, hevictions, hkeeps', h'⟩ :=
      h₁.commit hfinds (hexpires.options ▸ hkeys) hroom (horizon' - epoch)
    have hget := congrArg (Option.map Entry.cell) (h'.get_eq_some_iff.mpr mem_use_self)
    refine ⟨.keyed quota store', congrArg (Option.map (keyed quota)) hcommit, ?_,
      hvisited.trans hnext.symm, .keyed (hoptions.trans hexpires.options) hkeeps hkeeps' hget ?_⟩
    on_goal 2 => rwa [h₁.horizonIn_eq hfinds, ← hbefore]
    have hnew : horizon' - epoch ≤ now - epoch + quota.horizon := sub_le_of_le_add hepoch hbound
    have hhorizons' : ∀ e ∈ use store₁.options.maxKeys l₁ key
        ⟨horizon' - epoch, now - epoch, store₁.visits⟩,
        e.2.cell ≤ e.2.lastSeen + quota.horizon := by
      intro e he
      rcases mem_use he with he | rfl
      · exact hhorizons₁ e he
      · exact hnew
    have hdebts : KeyedStore.debts epoch store.options.ttl (now - epoch) (use store.options.maxKeys
        l₁ key ⟨horizon' - epoch, now - epoch, store₁.visits⟩) = use store.options.maxKeys
        (KeyedStore.debts epoch store.options.ttl (now - epoch) l) key ⟨horizon', now⟩ := by
      have hlive' := hfinds.live_use (horizon' - epoch) store₁.visits
      rw [hexpires.options] at hlive'
      rw [KeyedStore.debts, hlive', use_map, hlive, ← KeyedStore.debts]
      simp only [Entry.debt, Nat.add_sub_cancel' hle, Nat.add_sub_cancel' hepoch]
    have hevicts := hfinds.evicts_iff
    rw [hexpires.options, hlive, ← KeyedStore.keys_debts epoch,
      ← KeyedStore.length_debts epoch] at hevicts
    have hfinal := Shows.keyed h' hhorizons'
    rw [hoptions, hexpires.options, hdebts, hevictions, hexpires.evictions, hexpires.options,
      if_congr hevicts rfl rfl] at hfinal
    rw [Account.commit_of_some hcharge]
    exact hfinal

theorem keyed_charges (hordered : store.Ordered (now - epoch) l)
    (hhorizons : ∀ e ∈ l, e.2.cell ≤ e.2.lastSeen + quota.horizon) :
    ∃ slot made, (keyed quota store).charge now (now - epoch) index (.keyed key cost) =
        some (slot, made) ∧
      Charges epoch now index (.keyed quota store) (.keyed quota store.options
        (KeyedStore.debts epoch store.options.ttl (now - epoch) l) store.evictions)
        (.keyed key cost) slot made := by
  by_cases hkeys : store.options.maxKeys = 0
  · have hopen : ¬ (keyed quota store).Exhausted := fun h => h.1 hkeys
    refine ⟨.free (.keyed quota store), .exhausted index 0, ?_, .refl,
      .keyed hordered hhorizons, fun h => absurd h hopen, fun _ => ?_, fun _ => ?_, by simp⟩
    · simp [charge, prepare_of_maxKeys_eq_zero hkeys, hkeys]
    · simp [Account.charge, Account.closed, hkeys]
    · simp [Slot.rollback, visits, nextVisits, hkeys]
  obtain ⟨store₁, l₁, entry, hprepare, hexpires, hkeeps, hvisits, h₁, hsublist, hlive, hfinds⟩ :=
    hordered.prepare key hkeys
  have hhorizons₁ : ∀ e ∈ l₁, e.2.cell ≤ e.2.lastSeen + quota.horizon :=
    fun e he => hhorizons e (hsublist.subset he)
  by_cases hexhausted : u64Max < store.visits + 1
  · have hlease : store₁.lease key (now - epoch) entry = (store₁, .error .visitRange) := by
      simp [lease, nextOrdinal, hvisits, Nat.not_le.mpr hexhausted]
    refine ⟨.free (.keyed quota store₁), .failed .visitRange, ?_, .keyed hexpires hkeeps,
      .of_live h₁ hhorizons₁ hexpires.options hexpires.evictions hlive, fun _ => rfl,
      fun h => absurd ⟨hkeys, hexhausted⟩ h, fun h => absurd ⟨hkeys, hexhausted⟩ h,
      fun h => absurd ⟨hkeys, hexhausted⟩ h⟩
    simp [charge, hprepare, hlease]
  · have hroom : store₁.visits + 1 ≤ u64Max := by omega
    have hlease : store₁.lease key (now - epoch) entry =
        ({ store₁ with visits := store₁.visits + 1 },
          .ok (some ⟨key, now - epoch, store₁.visits, entry⟩)) := by
      simp [lease, nextOrdinal, hroom]
    have hcell := h₁.cell_eq hfinds store₁.visits (store₁.visits + 1)
    simp only [charge, hprepare, hlease, hcell, bind_eq_bind, bind_some]
    exact visit_charges hepoch hfit hkeys hexpires hkeeps hvisits h₁ hhorizons₁ hlive hfinds hroom rfl

end

theorem Shows.charge (h : a.Shows epoch now b) (hepoch : epoch ≤ now)
    (hready : Limiter.Ready (now - epoch) a c) (index : Nat) :
    ∃ slot made, a.charge now (now - epoch) index c = some (slot, made) ∧
      Charges epoch now index a b c slot made := by
  obtain ⟨hkind, hfit⟩ := hready
  cases h with
  | direct hcell =>
    cases c with
    | direct cost => exact direct_charges hepoch hfit hcell
    | keyed => cases hkind
  | keyed hordered hhorizons =>
    cases c with
    | direct cost => cases hkind
    | keyed => exact keyed_charges hepoch hfit hordered hhorizons

end Allowance

namespace Limiter

variable {epoch now : Instant} {clockMax index : Nat} {charges : List Charge}
variable {allowances : List Allowance} {ledger : List Account} {limiter : Limiter}

structure ChargesAll (epoch now : Instant) (index : Nat) (allowances : List Allowance)
    (ledger : List Account) (charges : List Charge) (wait : Option Instant)
    (exhausted : Option (Nat × Nat)) (slots : List Slot)
    (result : Except AdmissionError (Option Instant × Option (Nat × Nat))) : Prop where
  returned : List.Forall₂ (Allowance.Returned (now - epoch)) allowances (slots.map Slot.rollback)
  shows : List.Forall₂ (Allowance.Shows epoch now) (slots.map Slot.rollback) ledger
  noVisit : (∃ a ∈ allowances, a.Exhausted) → result = .error .visitRange
  answer : (∀ a ∈ allowances, ¬ a.Exhausted) →
    result = Account.answers now index ledger charges wait exhausted
  visits : (∀ a ∈ allowances, ¬ a.Exhausted) →
    slots.map (fun slot => slot.rollback.visits) = allowances.map Allowance.nextVisits
  commit : (∀ a ∈ allowances, ¬ a.Exhausted) → result = .ok (none, none) →
    wait = none ∧ exhausted = none ∧ ∃ committed, slots.mapM Slot.commit = some committed ∧
      List.Forall₂ (Allowance.Shows epoch now) committed
        (ledger.zipWith (Account.commit now) charges) ∧
      committed.map Allowance.visits = allowances.map Allowance.nextVisits ∧
      List.Forall₂ (fun p a' => p.1.ChargedTo (now - epoch) p.2 a') (allowances.zip charges) committed

theorem chargeClauses_refines (hepoch : epoch ≤ now)
    (hready : List.Forall₂ (Ready (now - epoch)) allowances charges)
    (hshows : List.Forall₂ (Allowance.Shows epoch now) allowances ledger) (index : Nat)
    (wait : Option Instant) (exhausted : Option (Nat × Nat)) :
    ∃ slots result, chargeClauses now (now - epoch) index allowances charges wait exhausted =
        some (slots, result) ∧
      ChargesAll epoch now index allowances ledger charges wait exhausted slots result := by
  induction hready generalizing index ledger wait exhausted with
  | nil =>
    cases hshows
    refine ⟨[], _, rfl, .nil, .nil, by simp, fun _ => rfl, fun _ => rfl, fun _ h => ?_⟩
    obtain ⟨hwait, hexhausted⟩ := Prod.mk.inj (Except.ok.inj h)
    exact ⟨hwait, hexhausted, [], rfl, .nil, rfl, .nil⟩
  | @cons a c allowances charges hac hready ih =>
    obtain ⟨b, rest, hab, hrest, rfl⟩ := List.forall₂_cons_left_iff.mp hshows
    obtain ⟨slot, made, hcharge, H⟩ := hab.charge hepoch hac index
    simp only [chargeClauses, hcharge]
    by_cases hex : a.Exhausted
    · have hnone : ¬ ∀ a' ∈ a :: allowances, ¬ a'.Exhausted := fun h => h a List.mem_cons_self hex
      rw [H.exhausted hex]
      refine ⟨_, _, rfl, ⟨.cons H.returned ?_, .cons H.shows ?_, fun _ => rfl,
        fun h => absurd h hnone, fun h => absurd h hnone, fun h => absurd h hnone⟩⟩
      -- The clauses behind a failure were not reached.
      · rw [List.map_map]
        exact List.forall₂_map_right_iff.mpr (List.forall₂_same.mpr fun _ _ => .refl)
      · rw [List.map_map]
        exact (List.map_id allowances).symm ▸ hrest
    · obtain ⟨⟨wait', exhausted'⟩, houtcome⟩ :
          ∃ next, (b.charge now index c).outcome wait exhausted = .ok next := by
        unfold Account.charge
        split
        · exact ⟨_, rfl⟩
        · split <;> exact ⟨_, rfl⟩
      obtain ⟨slots, result, heq, hall⟩ := ih hrest (index + 1) wait' exhausted'
      rw [H.answer hex, houtcome]
      simp only [heq, map_some]
      refine ⟨_, _, rfl, ⟨.cons H.returned hall.returned, .cons H.shows hall.shows, ?_, ?_, ?_, ?_⟩⟩
      · rintro ⟨a', ha', hex'⟩
        rcases List.mem_cons.mp ha' with rfl | ha'
        · exact absurd hex' hex
        · exact hall.noVisit ⟨a', ha', hex'⟩
      · intro h
        rw [Account.answers, houtcome]
        exact hall.answer fun a' ha' => h a' (List.mem_cons_of_mem _ ha')
      · intro h
        rw [List.map_cons, List.map_cons, H.visits hex,
          hall.visits fun a' ha' => h a' (List.mem_cons_of_mem _ ha')]
      · intro h hresult
        obtain ⟨rfl, rfl, committed, hcommitted, hshown, hvisits, hcharged⟩ :=
          hall.commit (fun a' ha' => h a' (List.mem_cons_of_mem _ ha')) hresult
        obtain ⟨hmade, rfl, rfl⟩ := eq_charged_of_outcome houtcome
        obtain ⟨a', ha', hshows', hvisits', hto⟩ := H.commit hex ((H.answer hex).trans hmade)
        refine ⟨rfl, rfl, a' :: committed, ?_, .cons hshows' hshown, ?_, .cons hto hcharged⟩
        · simp [List.mapM_cons, ha', hcommitted]
        · rw [List.map_cons, List.map_cons, hvisits', hvisits]

structure Shows (limiter : Limiter) (ledger : List Account) : Prop where
  epoch : limiter.epoch ≤ limiter.latest
  clauses : List.Forall₂ (Allowance.Shows limiter.epoch limiter.latest) limiter.clauses ledger

theorem Shows.expire (h : limiter.Shows ledger) (hnow : limiter.latest ≤ now) :
    List.Forall₂ (Allowance.Shows limiter.epoch now) limiter.clauses
      (ledger.map (Account.expire now)) :=
  List.forall₂_map_right_iff.mpr (h.clauses.imp fun _ _ hab => hab.expire hnow)

theorem Shows.map_expire (h : limiter.Shows ledger) :
    ledger.map (Account.expire limiter.latest) = ledger := by
  obtain ⟨-, hclauses⟩ := h
  generalize limiter.clauses = allowances at hclauses
  induction hclauses with
  | nil => rfl
  | cons hab _ ih => exact congrArg₂ List.cons hab.expire_self ih

theorem Shows.map_clause (h : limiter.Shows ledger) :
    limiter.clauses.map Allowance.clause = ledger.map Account.clause := by
  exact map_eq_map_of_forall₂ h.clauses fun _ _ hab => hab.clause.symm

/-! Validation reads the declarations of the clauses only. -/

theorem sameKind_congr (h : a.clause = a'.clause) : sameKind a c = sameKind a' c := by
  cases a <;> cases a' <;> cases c <;> first | rfl | cases h

theorem quota_congr {a a' : Allowance} (h : a.clause = a'.clause) : a.quota = a'.quota :=
  congrArg Clause.quota h

theorem validateClauses_congr {offset : Nat} {allowances' : List Allowance}
    (h : allowances.map clause = allowances'.map clause) :
    validateClauses clockMax now offset index allowances charges =
      validateClauses clockMax now offset index allowances' charges := by
  rw [map_eq_map_iff_forall₂] at h
  induction h generalizing index charges with
  | nil => rfl
  | cons ha _ ih =>
    cases charges with
    | nil => rfl
    | cons c charges => simp only [validateClauses, sameKind_congr ha, quota_congr ha, ih]

theorem neverAdmissible_congr (index : Nat) (charges : List Charge)
    (h : allowances.map clause = allowances'.map clause) :
    neverAdmissible index allowances charges = neverAdmissible index allowances' charges := by
  rw [map_eq_map_iff_forall₂] at h
  induction h generalizing index charges with
  | nil => rfl
  | cons ha _ ih =>
    cases charges with
    | nil => rfl
    | cons c charges => simp only [neverAdmissible, quota_congr ha, ih]

inductive Answers (clockMax : Nat) (limiter : Limiter) (ledger : List Account)
    (charges : List Charge) (now : Instant) :
    Limiter → Except AdmissionError Admission → List Account → Prop
  | invalid {e : AdmissionError} : limiter.validate clockMax charges now = .error e →
      Answers clockMax limiter ledger charges now limiter (.error e) ledger
  | never {offset : Nat} {outcome : Admission} :
      limiter.validate clockMax charges now = .ok offset →
      neverAdmissible 0 limiter.clauses charges = some outcome →
      Answers clockMax limiter ledger charges now limiter (.ok outcome) ledger
  | noVisit {offset : Nat} {after : List Allowance} :
      limiter.validate clockMax charges now = .ok offset →
      neverAdmissible 0 limiter.clauses charges = none →
      (∃ a ∈ limiter.clauses, a.Exhausted) →
      List.Forall₂ (Returned (now - limiter.epoch)) limiter.clauses after →
      Answers clockMax limiter ledger charges now { limiter with clauses := after, latest := now }
        (.error .visitRange) (ledger.map (Account.expire now))
  | answered {offset : Nat} {after : List Allowance} :
      limiter.validate clockMax charges now = .ok offset →
      neverAdmissible 0 limiter.clauses charges = none →
      (∀ a ∈ limiter.clauses, ¬ a.Exhausted) →
      after.map visits = limiter.clauses.map nextVisits →
      ((admitLedger now ledger charges).1 ≠ .ok .admitted →
        List.Forall₂ (Returned (now - limiter.epoch)) limiter.clauses after ∧
        (admitLedger now ledger charges).2 = ledger.map (Account.expire now)) →
      ((admitLedger now ledger charges).1 = .ok .admitted →
        List.Forall₂ (fun p a' => p.1.ChargedTo (now - limiter.epoch) p.2 a')
          (limiter.clauses.zip charges) after) →
      Answers clockMax limiter ledger charges now { limiter with clauses := after, latest := now }
        (admitLedger now ledger charges).1 (admitLedger now ledger charges).2

section
variable {limiter' : Limiter} {outcome : Except AdmissionError Admission} {ledger' : List Account}

theorem Answers.of_invalid
    (h : Answers clockMax limiter ledger charges now limiter' outcome ledger')
    (hvalidate : limiter.validate clockMax charges now = .error e) :
    limiter' = limiter ∧ outcome = .error e ∧ ledger' = ledger := by
  cases h with
  | invalid hv =>
    rw [hvalidate] at hv
    cases hv
    exact ⟨rfl, rfl, rfl⟩
  | never hv | noVisit hv | answered hv =>
    rw [hvalidate] at hv
    cases hv

variable {offset : Nat} (h : Answers clockMax limiter ledger charges now limiter' outcome ledger')
  (hvalidate : limiter.validate clockMax charges now = .ok offset)
include h hvalidate

theorem Answers.of_never {never : Admission}
    (hnever : neverAdmissible 0 limiter.clauses charges = some never) :
    limiter' = limiter ∧ outcome = .ok never ∧ ledger' = ledger := by
  cases h with
  | invalid hv =>
    rw [hvalidate] at hv
    cases hv
  | never _ hn =>
    rw [hnever] at hn
    cases hn
    exact ⟨rfl, rfl, rfl⟩
  | noVisit _ hn | answered _ hn =>
    rw [hnever] at hn
    cases hn

theorem Answers.of_exhausted (hnever : neverAdmissible 0 limiter.clauses charges = none)
    (hexhausted : ∃ a ∈ limiter.clauses, a.Exhausted) : outcome = .error .visitRange := by
  cases h with
  | invalid hv =>
    rw [hvalidate] at hv
    cases hv
  | never _ hn =>
    rw [hnever] at hn
    cases hn
  | noVisit => rfl
  | answered _ _ hopen =>
    obtain ⟨a, ha, hex⟩ := hexhausted
    exact absurd hex (hopen a ha)

theorem Answers.of_open (hnever : neverAdmissible 0 limiter.clauses charges = none)
    (hopen : ∀ a ∈ limiter.clauses, ¬ a.Exhausted) :
    outcome = (admitLedger now ledger charges).1 ∧ ledger' = (admitLedger now ledger charges).2 ∧
      ∃ after, limiter' = { limiter with clauses := after, latest := now } ∧
        after.map visits = limiter.clauses.map nextVisits := by
  cases h with
  | invalid hv =>
    rw [hvalidate] at hv
    cases hv
  | never _ hn =>
    rw [hnever] at hn
    cases hn
  | noVisit _ _ hex =>
    obtain ⟨a, ha, hex⟩ := hex
    exact absurd hex (hopen a ha)
  | answered _ _ _ hvisits => exact ⟨rfl, rfl, _, rfl, hvisits⟩

end

theorem Shows.admitAt (h : limiter.Shows ledger) (clockMax : Nat) (charges : List Charge)
    (now : Instant) :
    ∃ limiter' outcome ledger', limiter.admitAt clockMax charges now = some (limiter', outcome) ∧
      Answers clockMax limiter ledger charges now limiter' outcome ledger' ∧
      limiter'.Shows ledger' := by
  simp only [Limiter.admitAt]
  cases hvalidate : limiter.validate clockMax charges now with
  | error e => exact ⟨_, _, _, rfl, .invalid hvalidate, h⟩
  | ok offset =>
    obtain ⟨hlength, hlatest, rfl, hready⟩ := validate_eq_ok hvalidate
    cases hnever : neverAdmissible 0 limiter.clauses charges with
    | some outcome => exact ⟨_, _, _, rfl, .never hvalidate hnever, h⟩
    | none =>
      have hepoch := h.epoch.trans hlatest
      obtain ⟨slots, result, hcharge, H⟩ :=
        chargeClauses_refines hepoch hready (h.expire hlatest) 0 none none
      have hrefunded : ({ limiter with clauses := slots.map Slot.rollback, latest := now } :
          Limiter).Shows (ledger.map (Account.expire now)) := ⟨hepoch, H.shows⟩
      simp only [hcharge, bind_eq_bind, bind_some, pure_def]
      by_cases hex : ∃ a ∈ limiter.clauses, a.Exhausted
      · rw [H.noVisit hex]
        exact ⟨_, _, _, rfl, .noVisit hvalidate hnever hex H.returned, hrefunded⟩
      · have hopen : ∀ a ∈ limiter.clauses, ¬ a.Exhausted := fun a ha hex' => hex ⟨a, ha, hex'⟩
        have hvisits : (slots.map Slot.rollback).map Allowance.visits =
            limiter.clauses.map Allowance.nextVisits := by
          rw [List.map_map]
          exact H.visits hopen
        have hanswer := H.answer hopen
        have hrefuse : ∀ outcome, outcome ≠ .ok .admitted → admitLedger now ledger charges =
            (outcome, ledger.map (Account.expire now)) →
            Answers clockMax limiter ledger charges now
              { limiter with clauses := slots.map Slot.rollback, latest := now } outcome
              (ledger.map (Account.expire now)) := by
          intro outcome hne hledger
          have hanswered := Answers.answered hvalidate hnever hopen hvisits
            (fun _ => ⟨H.returned, congrArg Prod.snd hledger⟩)
            fun h => absurd ((congrArg Prod.fst hledger).symm.trans h) hne
          rwa [hledger] at hanswered
        rcases result with e | ⟨_ | deadline, _ | ⟨clause, limit⟩⟩
        on_goal 2 =>
          obtain ⟨-, -, committed, hcommitted, hshown, hcommits, hcharged⟩ := H.commit hopen rfl
          have hledger : admitLedger now ledger charges = (.ok .admitted,
              (ledger.map (Account.expire now)).zipWith (Account.commit now) charges) := by
            rw [admitLedger, ← hanswer]
          have hanswered := Answers.answered hvalidate hnever hopen hcommits
            (fun hne => absurd (congrArg Prod.fst hledger) hne) fun _ => hcharged
          rw [hledger] at hanswered
          simp only [hcommitted, bind_some]
          exact ⟨_, _, _, rfl, hanswered, ⟨hepoch, hshown⟩⟩
        -- every other answer leaves the expired accounts as they are
        all_goals exact ⟨_, _, _, rfl, hrefuse _ (by simp) (by rw [admitLedger, ← hanswer]), hrefunded⟩

theorem neverAdmissible_ne_admitted :
    neverAdmissible index allowances charges ≠ some .admitted := by
  induction allowances generalizing index charges with
  | nil => simp [neverAdmissible]
  | cons a allowances ih =>
    cases charges with
    | nil => simp [neverAdmissible]
    | cons c charges =>
      rw [neverAdmissible]
      split
      · simp
      · exact ih

theorem offset_eq_ok {offset : Nat} (h : limiter.offset now = .ok offset) :
    limiter.latest ≤ now ∧ offset = now - limiter.epoch ∧ now - limiter.epoch ≤ u64Max := by
  simp only [Limiter.offset] at h
  split at h
  · cases h
  split at h
  · cases h
  cases h
  exact ⟨Nat.not_lt.mp ‹_›, rfl, Nat.not_lt.mp ‹_›⟩

theorem expireClauses_refines
    (hshows : List.Forall₂ (Allowance.Shows epoch now) allowances ledger) (result : KeyStatistics) :
    ∃ after, expireClauses (now - epoch) allowances result =
        some (after, statisticsOf ledger result) ∧
      List.Forall₂ (Allowance.Refunded (now - epoch)) allowances after ∧
      List.Forall₂ (Allowance.Shows epoch now) after ledger ∧
      after.map Allowance.visits = allowances.map Allowance.visits := by
  induction hshows generalizing result with
  | nil => exact ⟨[], rfl, .nil, .nil, rfl⟩
  | @cons a b allowances ledger hab _ ih =>
    cases hab with
    | direct hcell =>
      obtain ⟨after, heq, hrefunded, hshown, hvisits⟩ := ih result
      refine ⟨_, ?_, .cons .refl hrefunded, .cons (.direct hcell) hshown, congrArg (_ :: ·) hvisits⟩
      simp only [expireClauses, heq, bind_eq_bind, bind_some, pure_def, statisticsOf]
    | @keyed quota store l hordered hhorizons =>
      obtain ⟨store', hexpire, hexpires, -, hvisits', h'⟩ := hordered.expireAll
      obtain ⟨after, heq, hrefunded, hshown, hvisits⟩ := ih ⟨result.active + store'.active,
        result.evicted + store'.evictions⟩
      refine ⟨.keyed quota store' :: after, ?_, .cons (.keyed hexpires) hrefunded, .cons ?_ hshown,
        congrArg₂ (· :: ·) hvisits' hvisits⟩
      · simp only [expireClauses, statistics, hexpire, map_some, heq,
          bind_eq_bind, bind_some, pure_def, statisticsOf,
          KeyedStore.length_debts]
        rw [h'.active_eq, hexpires.evictions]
      · exact .of_live h' (fun e he => hhorizons e (List.mem_of_mem_filter he)) hexpires.options
          hexpires.evictions live_live

inductive Counts (limiter : Limiter) (ledger : List Account) (now : Instant) :
    Limiter → Except AdmissionError KeyStatistics → List Account → Prop
  | invalid {e : AdmissionError} : limiter.offset now = .error e →
      Counts limiter ledger now limiter (.error e) ledger
  | counted {offset : Nat} {after : List Allowance} : limiter.offset now = .ok offset →
      List.Forall₂ (Refunded (now - limiter.epoch)) limiter.clauses after →
      after.map visits = limiter.clauses.map visits →
      Counts limiter ledger now { limiter with clauses := after, latest := now }
        (.ok (statisticsOf (ledger.map (Account.expire now)) {})) (ledger.map (Account.expire now))

theorem Shows.keyStatistics (h : limiter.Shows ledger) (now : Instant) :
    ∃ limiter' result ledger', limiter.keyStatistics now = some (limiter', result) ∧
      Counts limiter ledger now limiter' result ledger' ∧ limiter'.Shows ledger' := by
  simp only [Limiter.keyStatistics]
  cases hoffset : limiter.offset now with
  | error e => exact ⟨_, _, _, rfl, .invalid hoffset, h⟩
  | ok offset =>
    obtain ⟨hlatest, rfl, -⟩ := offset_eq_ok hoffset
    obtain ⟨after, heq, hrefunded, hshown, hvisits⟩ := expireClauses_refines (h.expire hlatest) {}
    simp only [heq, bind_eq_bind, bind_some, pure_def]
    exact ⟨_, _, _, rfl, .counted hoffset hrefunded hvisits, h.epoch.trans hlatest, hshown⟩

end Limiter

end Nervix.RateLimit
