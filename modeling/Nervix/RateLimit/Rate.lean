import Nervix.RateLimit.Ledger

/-!
# Rate safety of the limiter

What the calls of a window spend from one cell is bounded by one burst and what the window refills,
as long as the cell is not thrown away in between. A clause has one cell, or one for each retained
key.
-/

namespace Nervix.RateLimit

open Gcra
open Option

theorem Quota.new_eq_ok {count period burst : Nat} {quota : Quota}
    (h : Quota.new count period burst = .ok quota) :
    0 < count ∧ quota.burst = burst ∧ quota.replenishInterval = period ⌈/⌉ count := by
  simp only [Quota.new] at h
  repeat' split at h
  all_goals cases h
  exact ⟨Nat.pos_of_ne_zero ‹_›, rfl, rfl⟩

namespace Limiter

variable {clockMax now offset index : Nat} {charges : List Charge} {allowances : List Allowance}
variable {limiter : Limiter} {ledger : List Account}

structure Visit where
  before : Limiter
  charges : List Charge
  now : Instant
  outcome : Except AdmissionError Admission
  after : Limiter

section
variable (i : Nat) (id : Option KeyFingerprint)

def run (clockMax : Nat) : Limiter → List (List Charge × Instant) → Option (List Visit)
  | _, [] => some []
  | limiter, (charges, now) :: calls => do
    let (after, outcome) ← limiter.admitAt clockMax charges now
    let visits ← run clockMax after calls
    return ⟨limiter, charges, now, outcome, after⟩ :: visits

def removals (limiter : Limiter) : Nat :=
  (limiter.clauses[i]?.map fun a => a.removals id).getD 0

def Visit.Retains (v : Visit) : Prop :=
  v.after.removals i id = v.before.removals i id

def Visit.spends (s t : Instant) (v : Visit) : Nat :=
  match v.outcome, v.charges[i]? with
  | .ok .admitted, some c => if s ≤ v.now ∧ v.now ≤ t ∧ c.key = id then c.cost else 0
  | _, _ => 0

def spent (s t : Instant) (visits : List Visit) : Nat :=
  (visits.map (Visit.spends i id s t)).sum

end

structure Backs (i : Nat) (id : Option KeyFingerprint) (s t : Instant) (quota : Quota)
    (limiter : Limiter) (spent : Nat) : Prop where
  clause : ∃ a, limiter.clauses[i]? = some a ∧ a.quota = quota
  bound : spent ≤ quota.burst + (t - s) / quota.replenishInterval
  began : spent ≠ 0 → s ≤ limiter.latest
  backed : spent ≠ 0 → limiter.latest ≤ t → ∃ a horizon, limiter.clauses[i]? = some a ∧
    a.horizon id = some horizon ∧ quota.policy.Backed (s - limiter.epoch) spent horizon

theorem getElem?_of_forall₂ {R : α → β → Prop} {as : List α} {bs : List β}
    (h : List.Forall₂ R as bs) {i : Nat} {a : α} (ha : as[i]? = some a) :
    ∃ b, bs[i]? = some b ∧ R a b := by
  induction h generalizing i with
  | nil => simp at ha
  | cons hab _ ih =>
    cases i with
    | zero => exact ⟨_, rfl, by cases ha; exact hab⟩
    | succ i => exact ih ha

section
variable {i : Nat} {id : Option KeyFingerprint} {s t : Instant} {quota : Quota} {spent : Nat}
variable {a a' : Allowance} {clauses : List Allowance}

section
variable (h : Backs i id s t quota limiter spent) (hlatest : limiter.latest ≤ now)
  (ha : limiter.clauses[i]? = some a) (ha' : clauses[i]? = some a') (hquota : a'.quota = a.quota)
include h hlatest ha ha' hquota

theorem Backs.keep (hkeep : s ≤ now → now ≤ t → a'.horizon id = a.horizon id) :
    Backs i id s t quota { limiter with clauses := clauses, latest := now } spent := by
  have hbegan : spent ≠ 0 → s ≤ now := fun h0 => (h.began h0).trans hlatest
  refine ⟨⟨a', ha', ?_⟩, h.bound, hbegan, fun h0 ht => ?_⟩
  · obtain ⟨b, hb, hbquota⟩ := h.clause
    rw [ha] at hb
    cases hb
    exact hquota.trans hbquota
  · obtain ⟨b, horizon, hb, hhorizon, hbacked⟩ := h.backed h0 (hlatest.trans ht)
    rw [ha] at hb
    cases hb
    exact ⟨a', horizon, ha', (hkeep (hbegan h0) ht).trans hhorizon, hbacked⟩

theorem Backs.charge (hs : s ≤ now) (ht : now ≤ t) (hhorizon : a'.horizon id = some horizon)
    (hcharge : a.quota.policy.charge ((a.horizon id).getD 0) (now - limiter.epoch) cost =
      some horizon) :
    Backs i id s t quota { limiter with clauses := clauses, latest := now } (spent + cost) := by
  obtain ⟨b, hb, rfl⟩ := h.clause
  rw [ha] at hb
  cases hb
  have hbacked : a.quota.policy.Backed (s - limiter.epoch) spent ((a.horizon id).getD 0) := by
    by_cases h0 : spent = 0
    · rw [h0]
      exact .zero
    obtain ⟨b, horizon, hb, hhorizon, hbacked⟩ := h.backed h0 (hlatest.trans ht)
    rw [ha] at hb
    cases hb
    rw [hhorizon]
    exact hbacked
  have hs' : s - limiter.epoch ≤ now - limiter.epoch := Nat.sub_le_sub_right hs _
  have hcharged := hbacked.charge hs' hcharge
  refine ⟨⟨a', ha', hquota⟩, ?_, fun _ => hs, fun _ _ => ⟨a', horizon, ha', hhorizon, hcharged⟩⟩
  have hwindow : now - limiter.epoch - (s - limiter.epoch) ≤ t - s := by
    have : now - limiter.epoch - (s - limiter.epoch) ≤ now - s := by
      omega
    omega
  exact (hcharged.le hs' (Policy.charge_eq_some_iff.mp hcharge).2).trans
    (Nat.add_le_add_left (Nat.div_le_div_right hwindow) _)

end

theorem Backs.step {outcome : Except AdmissionError Admission} {after : Limiter}
    (h : Backs i id s t quota limiter spent)
    (hanswers : Answers clockMax limiter ledger charges now after outcome ledger')
    (hretains : s ≤ now → now ≤ t → Visit.Retains i id ⟨limiter, charges, now, outcome, after⟩) :
    Backs i id s t quota after
      (spent + Visit.spends i id s t ⟨limiter, charges, now, outcome, after⟩) := by
  obtain ⟨a, ha, -⟩ := h.clause
  have hnone : outcome ≠ .ok .admitted →
      Visit.spends i id s t ⟨limiter, charges, now, outcome, after⟩ = 0 := by
    intro hne
    simp only [Visit.spends]
    split
    · exact absurd rfl hne
    · rfl
  have hreturned : ∀ {clauses offset}, after = { limiter with clauses := clauses, latest := now } →
      limiter.validate clockMax charges now = .ok offset → outcome ≠ .ok .admitted →
      List.Forall₂ (Allowance.Returned (now - limiter.epoch)) limiter.clauses clauses →
      Backs i id s t quota after
        (spent + Visit.spends i id s t ⟨limiter, charges, now, outcome, after⟩) := by
    rintro clauses offset rfl hvalidate hne hall
    rw [hnone hne]
    obtain ⟨a', ha', hkeep⟩ := getElem?_of_forall₂ hall ha
    refine h.keep (validate_eq_ok hvalidate).2.1 ha ha' (congrArg Clause.quota hkeep.clause)
      fun hs ht => ?_
    exact hkeep.kept id (by simpa [Visit.Retains, removals, ha, ha'] using hretains hs ht)
  cases hanswers with
  | invalid => rwa [hnone (by simp)]
  | never _ hnever =>
    rwa [hnone fun hadmitted => neverAdmissible_ne_admitted (Except.ok.inj hadmitted ▸ hnever)]
  | noVisit hvalidate _ _ hall => exact hreturned rfl hvalidate (by simp) hall
  | @answered _ clauses hvalidate _ _ _ hrefused hadmitted =>
    by_cases hne : (admitLedger now ledger charges).1 = .ok .admitted
    case neg => exact hreturned rfl hvalidate hne (hrefused hne).1
    obtain ⟨hlength, hlatest, -, -⟩ := validate_eq_ok hvalidate
    have hi : i < charges.length := by
      rw [hlength]
      exact (List.getElem?_eq_some_iff.mp ha).1
    obtain ⟨a', ha', hcharge⟩ := getElem?_of_forall₂ (hadmitted hne) (a := (a, charges[i]))
      (List.getElem?_zip_eq_some.mpr ⟨ha, List.getElem?_eq_getElem hi⟩)
    have hquota := congrArg Clause.quota hcharge.clause
    have hcount : s ≤ now → now ≤ t → a'.removals id = a.removals id := fun hs ht => by
      simpa [Visit.Retains, removals, ha, ha'] using hretains hs ht
    simp only [Visit.spends, hne, List.getElem?_eq_getElem hi]
    split
    · rename_i hwindow
      obtain ⟨hs, ht, rfl⟩ := hwindow
      obtain ⟨horizon, hhorizon, hcharge⟩ := hcharge.own (hcount hs ht)
      exact h.charge hlatest ha ha' hquota hs ht hhorizon hcharge
    · rename_i hwindow
      refine h.keep hlatest ha ha' hquota fun hs ht => hcharge.others id ?_ (hcount hs ht)
      exact fun hid => hwindow ⟨hs, ht, hid.symm⟩

theorem Backs.run (hshows : limiter.Shows ledger)
    (h : Backs i id s t quota limiter spent) (hrun : limiter.run clockMax calls = some visits)
    (hretains : ∀ v ∈ visits, s ≤ v.now → v.now ≤ t → v.Retains i id) :
    spent + Limiter.spent i id s t visits ≤ quota.burst + (t - s) / quota.replenishInterval := by
  induction calls generalizing limiter ledger spent visits with
  | nil =>
    cases hrun
    exact h.bound
  | cons call calls ih =>
    obtain ⟨charges, now⟩ := call
    obtain ⟨after, outcome, ledger', hadm, hanswers, hshows'⟩ := hshows.admitAt clockMax charges now
    obtain ⟨rest, hrest, rfl⟩ : ∃ rest, after.run clockMax calls = some rest ∧
        visits = ⟨limiter, charges, now, outcome, after⟩ :: rest := by
      simp only [Limiter.run, hadm, bind_eq_bind, bind_some] at hrun
      obtain ⟨rest, hrest, hvisits⟩ := bind_eq_some_iff.mp hrun
      exact ⟨rest, hrest, (Option.some.inj hvisits).symm⟩
    have hstep := h.step hanswers (hretains _ List.mem_cons_self)
    have := ih hshows' hstep hrest fun v hv => hretains v (List.mem_cons_of_mem _ hv)
    rwa [add_assoc] at this

end

theorem Shows.run (h : limiter.Shows ledger) (clockMax : Nat) (calls : List (List Charge × Instant)) :
    ∃ visits, limiter.run clockMax calls = some visits := by
  induction calls generalizing limiter ledger with
  | nil => exact ⟨[], rfl⟩
  | cons call calls ih =>
    obtain ⟨after, outcome, ledger', hadm, -, hshows'⟩ := h.admitAt clockMax call.1 call.2
    obtain ⟨rest, hrest⟩ := ih hshows'
    exact ⟨_, by simp [Limiter.run, hadm, hrest]; rfl⟩

theorem Shows.new (clauses : List Clause) (epoch : Instant) :
    (Limiter.new clauses epoch).Shows (clauses.map fun
      | .direct quota => .direct quota epoch
      | .keyed quota options => .keyed quota options [] 0) := by
  refine ⟨le_rfl, ?_⟩
  rw [Limiter.new, List.forall₂_map_left_iff, List.forall₂_map_right_iff, List.forall₂_same]
  intro clause _
  cases clause with
  | direct => exact .direct (Nat.zero_le _)
  | keyed => exact .keyed .new (by simp)

def Within (count period burst s t spent : Nat) : Prop :=
  spent ≤ burst + (t - s) / (period ⌈/⌉ count) ∧ spent * period ≤ burst * period + count * (t - s)

theorem Backs.new {clauses : List Clause} {epoch : Instant} {i : Nat} {clause : Clause}
    (h : clauses[i]? = some clause) {id : Option KeyFingerprint} {s t : Instant} :
    Backs i id s t clause.quota (Limiter.new clauses epoch) 0 := by
  refine ⟨⟨_, by simp [Limiter.new, h]; rfl, ?_⟩, Nat.zero_le _, absurd rfl, absurd rfl⟩
  cases clause <;> rfl

/-- **Rate safety.** A run of admissions never panics, and in every window of it each cell of a
clause is spent at no more than its quota allows, unless the cell was thrown away in the window. -/
theorem windows_within_quota (clockMax : Nat) (clauses : List Clause) (epoch : Instant)
    (calls : List (List Charge × Instant)) :
    ∃ visits, (Limiter.new clauses epoch).run clockMax calls = some visits ∧
      ∀ i s t count period burst quota, s ≤ t → Quota.new count period burst = .ok quota →
        (clauses[i]? = some (.direct quota) →
          Within count period burst s t (spent i none s t visits)) ∧
        ∀ keys key, clauses[i]? = some (.keyed quota keys) →
          (∀ v ∈ visits, s ≤ v.now → v.now ≤ t → v.Retains i (some key)) →
          Within count period burst s t (spent i (some key) s t visits) := by
  obtain ⟨visits, hrun⟩ := (Shows.new clauses epoch).run clockMax calls
  refine ⟨visits, hrun, fun i s t count period burst quota hst hquota => ?_⟩
  have hwithin : ∀ {clause id}, clauses[i]? = some clause → clause.quota = quota →
      (∀ v ∈ visits, s ≤ v.now → v.now ≤ t → v.Retains i id) →
      Within count period burst s t (spent i id s t visits) := by
    rintro clause id hclause rfl hretains
    obtain ⟨hcount, hburst, hinterval⟩ := Quota.new_eq_ok hquota
    have hbound := (Backs.new hclause).run (Shows.new clauses epoch) hrun hretains
    rw [zero_add, hburst, hinterval] at hbound
    exact ⟨hbound, mul_le_of_le_ceilDiv hcount hbound⟩
  refine ⟨fun hclause => hwithin hclause rfl fun v _ _ _ => ?_, fun keys key hclause hretains =>
    hwithin hclause rfl hretains⟩
  have hzero : ∀ limiter : Limiter, limiter.removals i none = 0 := by
    intro limiter
    rw [removals]
    cases limiter.clauses[i]? with
    | none => rfl
    | some a => cases a <;> rfl
  rw [Visit.Retains, hzero, hzero]

theorem windows_within_quota_rounded :
    ∃ quota, Quota.new 3 10 2 = .ok quota ∧ quota.replenishInterval = 4 ∧
      ∃ visits, (Limiter.new [.direct quota] 0).run 1000
          [([.direct 2], 0), ([.direct 2], 7), ([.direct 2], 8)] = some visits ∧
        Within 3 10 2 0 8 (spent 0 none 0 8 visits) := by
  obtain ⟨quota, hquota⟩ : ∃ quota, Quota.new 3 10 2 = .ok quota := ⟨_, rfl⟩
  obtain ⟨visits, hrun, H⟩ := windows_within_quota 1000 [.direct quota] 0
    [([.direct 2], 0), ([.direct 2], 7), ([.direct 2], 8)]
  refine ⟨quota, hquota, ?_, visits, hrun, (H 0 0 8 3 10 2 quota (by decide) hquota).1 rfl⟩
  rw [(Quota.new_eq_ok hquota).2.2]
  rfl

end Limiter

end Nervix.RateLimit
