import Nervix.RateLimit.Refusal

/-!
# Restored allowances

A saved generation drops the keys whose allowance is whole, so the restored limiter retains fewer
keys and evicts later. What the original limiter still knows of a debt, the restored one knows as
well, and never as a smaller debt: it does not admit what the original would refuse.
-/

namespace Nervix.RateLimit

open Recency
open List Account

inductive Account.Covered (saved : Instant) : Account → Account → Prop
  | direct {quota : Quota} {horizon horizon' : Instant} : horizon ≤ max horizon' saved →
      Covered saved (.direct quota horizon) (.direct quota horizon')
  | keyed {quota : Quota} {options : KeyedOptions} {debts debts' : Debts}
      {evictions evictions' : Nat} :
      Includes (fun d d' => d.lastSeen = d'.lastSeen ∧ d.horizon ≤ d'.horizon)
        (fun d => d.horizon ≤ saved) debts debts' →
      (keys debts).Nodup → (keys debts').Nodup → debts.length ≤ options.maxKeys →
      Covered saved (.keyed quota options debts evictions) (.keyed quota options debts' evictions')

namespace Account.Covered

variable {saved now : Instant} {index : Nat} {b b' : Account} {c : Charge}

section
variable (h : Covered saved b b')
include h

theorem clause : b.clause = b'.clause := by
  cases h <;> rfl

theorem expire (now : Instant) :
    Covered saved (b.expire now) (b'.expire now) := by
  cases h with
  | direct hle => exact .direct hle
  | keyed hincludes hnodup hnodup' hlength =>
    refine .keyed (hincludes.filter (p := fun d => now - d.lastSeen < _) fun d d' hd => ?_)
      (hnodup.sublist (filter_sublist.map _)) (hnodup'.sublist (filter_sublist.map _))
      ((length_filter_le ..).trans hlength)
    simp only [hd.1]

theorem debt_le (hsaved : saved ≤ now) (key : Option KeyFingerprint) :
    b.horizon key - now ≤ b'.horizon key - now := by
  cases h with
  | direct hle =>
    simp only [horizon]
    unfold Instant at *
    omega
  | @keyed quota options debts debts' _ _ hincludes hnodup hnodup' =>
    cases key with
    | none => exact le_rfl
    | some key =>
      simp only [horizon]
      cases hfind : find debts key with
      | none => simp
      | some d =>
        rcases hincludes.value ((find_eq_some_iff hnodup).mp hfind) with ⟨d', hd', hle⟩ | ⟨-, hfree⟩
        · rw [(find_eq_some_iff hnodup').mpr hd']
          exact Nat.sub_le_sub_right hle.2 _
        · have hzero : d.horizon - now = 0 := Nat.sub_eq_zero_of_le (hfree.trans hsaved)
          simp [hzero]

theorem charge (hsaved : saved ≤ now) (hcharge : b'.charge now index c = .charged) :
    b.charge now index c = .charged ∧ Covered saved (b.commit now c) (b'.commit now c) := by
  have hquota : b.quota = b'.quota := congrArg Clause.quota h.clause
  have hclosed : b.closed = b'.closed := by
    cases h <;> rfl
  obtain ⟨hopen, horizon', hhorizon'⟩ : b'.closed = false ∧ ∃ horizon',
      b'.quota.policy.charge (b'.horizon c.key) now c.cost = some horizon' := by
    unfold Account.charge at hcharge
    split at hcharge
    · cases hcharge
    · rename_i hopen
      split at hcharge
      · exact ⟨Bool.eq_false_iff.mpr hopen, _, ‹_›⟩
      · cases hcharge
  obtain ⟨horizon, hhorizon, hle⟩ := Gcra.Policy.charge_mono (h.debt_le hsaved c.key) hhorizon'
  rw [← hquota] at hhorizon
  refine ⟨Account.charge_of_some (hclosed.trans hopen) hhorizon, ?_⟩
  rw [Account.commit_of_some hhorizon, Account.commit_of_some hhorizon']
  cases h with
  | direct => exact .direct (le_max_of_le_left hle)
  | keyed hincludes hnodup hnodup' hlength =>
    cases hkey : c.key with
    | none => exact .keyed hincludes hnodup hnodup' hlength
    | some key =>
      refine .keyed (hincludes.use hnodup' hlength ⟨rfl, hle⟩) (nodup_use hnodup)
        (nodup_use hnodup') (length_use hlength (Nat.pos_of_ne_zero fun h0 => ?_))
      simp [Account.closed, h0] at hopen

end

end Account.Covered

section
variable {saved now : Instant} {charges : List Charge} {ledger ledger' : List Account}

theorem Account.eq_none_of_answers
    (h : answers now index ledger charges wait exhausted = .ok (none, none)) :
    wait = none ∧ exhausted = none := by
  induction ledger generalizing index charges wait exhausted with
  | nil => simpa [answers] using h
  | cons b ledger ih =>
    cases charges with
    | nil => simpa [answers] using h
    | cons c charges =>
      rw [answers] at h
      split at h
      · cases h
      · rename_i houtcome
        obtain ⟨rfl, rfl⟩ := ih h
        exact (Limiter.eq_charged_of_outcome houtcome).2

theorem answers_covered (h : List.Forall₂ (Covered saved) ledger ledger')
    (hsaved : saved ≤ now) (index : Nat)
    (hanswers : answers now index ledger' charges none none = .ok (none, none)) :
    answers now index ledger charges none none = .ok (none, none) ∧
      List.Forall₂ (Covered saved) (ledger.zipWith (commit now) charges)
        (ledger'.zipWith (commit now) charges) := by
  induction h generalizing index charges with
  | nil => exact ⟨hanswers, .nil⟩
  | @cons b b' ledger ledger' hb _ ih =>
    cases charges with
    | nil => exact ⟨hanswers, .nil⟩
    | cons c charges =>
      rw [answers] at hanswers
      split at hanswers
      · cases hanswers
      rename_i houtcome
      obtain ⟨rfl, rfl⟩ := eq_none_of_answers hanswers
      obtain ⟨hcharged, -, -⟩ := Limiter.eq_charged_of_outcome houtcome
      obtain ⟨hcharge, hcommit⟩ := hb.charge hsaved hcharged
      obtain ⟨hrest, hcommits⟩ := ih (index + 1) hanswers
      refine ⟨?_, .cons hcommit hcommits⟩
      rw [answers, hcharge]
      exact hrest

end

theorem KeyedStore.map_saved (hepoch : epoch ≤ now) (hseen : ∀ e ∈ l, e.2.lastSeen ≤ now - epoch) :
    (l.filterMap (saved ttl (now - epoch))).map (fun key =>
        (key.key, (⟨now + key.remaining, now - key.age⟩ : Debt))) =
      (debts epoch ttl (now - epoch) l).filter fun e => e.2.horizon > now := by
  induction l with
  | nil => rfl
  | cons e l ih =>
    obtain ⟨he, hl⟩ := forall_mem_cons.mp hseen
    have hrest := ih hl
    rw [debts, live] at hrest ⊢
    have hdebt : e.2.cell > now - epoch ↔ epoch + e.2.cell > now := by
      unfold Instant at *
      omega
    by_cases halive : now - epoch - e.2.lastSeen < ttl
    · rw [filter_cons_of_pos (by simpa using halive), map_cons]
      by_cases howes : e.2.cell > now - epoch
      · have hhorizon : now + (e.2.cell - (now - epoch)) = epoch + e.2.cell := by
          unfold Instant at *
          omega
        have hlast : now - (now - epoch - e.2.lastSeen) = epoch + e.2.lastSeen := by
          unfold Instant at *
          omega
        rw [filterMap_cons_some (saved_eq_some.mpr ⟨halive, howes, rfl⟩), map_cons, hrest,
          filter_cons_of_pos (by simpa [Entry.debt] using hdebt.mp howes)]
        simp only [hhorizon, hlast]
        rfl
      · have hnone : saved ttl (now - epoch) e = none := if_neg fun h => howes h.2
        rw [filterMap_cons_none hnone, hrest,
          filter_cons_of_neg (by simpa [Entry.debt] using mt hdebt.mpr howes)]
    · have hnone : saved ttl (now - epoch) e = none := if_neg fun h => halive h.1
      rw [filterMap_cons_none hnone, hrest, filter_cons_of_neg (by simpa using halive)]

theorem Allowance.Saves.covered {a : Allowance} (hepoch : epoch ≤ now) (hshows : a.Shows epoch now b)
    (h : a.Saves (now - epoch) state) : Covered now b (state.account now) := by
  have hsaved := h.saved
  cases hshows with
  | @direct quota cell hcell =>
    cases hsaved
    refine .direct ?_
    split
    · rename_i hdebt
      simp only [Option.getD_some]
      unfold Instant at *
      omega
    · rename_i hdebt
      unfold Instant at *
      omega
  | @keyed quota store l hordered hhorizons =>
    rw [generation, hordered.generation] at hsaved
    cases hsaved
    have hdebts : (l.filterMap (KeyedStore.saved store.options.ttl (now - epoch))).map (fun key =>
        (key.key, (⟨now + key.remaining, now - key.age⟩ : Debt))) =
        (KeyedStore.debts epoch store.options.ttl (now - epoch) l).filter
          fun e => e.2.horizon > now := KeyedStore.map_saved hepoch hordered.seen
    have hnodup : (keys (KeyedStore.debts epoch store.options.ttl (now - epoch) l)).Nodup := by
      rw [KeyedStore.keys_debts]
      exact KeyedStore.nodup_live hordered.nodup
    have hlength : (KeyedStore.debts epoch store.options.ttl (now - epoch) l).length ≤
        store.options.maxKeys := by
      rw [KeyedStore.length_debts]
      exact (length_filter_le ..).trans hordered.capacity
    simp only [ClauseGeneration.account, hdebts]
    refine .keyed (.of_filter hnodup (fun _ => ⟨rfl, le_rfl⟩) fun e _ hp => ?_) hnodup
      (hnodup.sublist (filter_sublist.map _)) hlength
    simpa using hp

namespace Limiter

variable {clockMax : Nat} {saved now : Instant} {limiter restored : Limiter}
variable {charges : List Charge}

structure Aligned (limiter restored : Limiter) : Prop where
  latest : limiter.latest ≤ restored.latest
  clauses : limiter.clauses.map Allowance.clause = restored.clauses.map Allowance.clause

variable {ledger : List Account}

theorem map_clause_of_covered (h : List.Forall₂ (Covered saved) ledger ledger') :
    ledger.map clause = ledger'.map clause :=
  map_eq_map_of_forall₂ h fun _ _ hb => hb.clause

def InRange (limiter : Limiter) (now : Instant) : Prop :=
  now - limiter.epoch ≤ u64Max ∧
    ∀ a ∈ limiter.clauses, now - limiter.epoch + a.quota.horizon ≤ u64Max

theorem validateClauses_of_valid {allowances allowances' : List Allowance} {offset offset' index : Nat}
    (hclauses : allowances.map Allowance.clause = allowances'.map Allowance.clause)
    (hlength : charges.length = allowances'.length)
    (hvalid : validateClauses clockMax now offset' index allowances' charges = .ok ()) :
    ((∀ a ∈ allowances, offset + a.quota.horizon ≤ u64Max) ∧
      validateClauses clockMax now offset index allowances charges = .ok ()) ∨
    ((∃ a ∈ allowances, u64Max < offset + a.quota.horizon) ∧
      validateClauses clockMax now offset index allowances charges = .error .clockRange) := by
  induction allowances generalizing allowances' index charges with
  | nil => exact .inl ⟨by simp, by cases charges <;> rfl⟩
  | cons a allowances ih =>
    obtain ⟨a', rest, rfl, ha, hrest⟩ := map_eq_cons_iff.mp hclauses.symm
    cases charges with
    | nil => cases hlength
    | cons c charges =>
      have hquota : a.quota = a'.quota := congrArg Clause.quota ha.symm
      simp only [validateClauses, sameKind_congr ha.symm, hquota] at hvalid ⊢
      split at hvalid
      · cases hvalid
      rename_i hkind
      split at hvalid
      · cases hvalid
      rename_i hfits
      rw [if_neg hkind]
      by_cases hrange : offset + a'.quota.horizon > u64Max
      · refine .inr ⟨⟨a, mem_cons_self, hquota ▸ hrange⟩, if_pos (.inl hrange)⟩
      · have hnot : ¬ (offset + a'.quota.horizon > u64Max ∨ now + a'.quota.horizon > clockMax) :=
          fun h => h.elim hrange fun h => hfits (.inr h)
        rw [if_neg hnot]
        rcases ih hrest.symm (Nat.succ.inj hlength) hvalid with ⟨hall, heq⟩ | ⟨⟨b, hb, hbad⟩, heq⟩
        · exact .inl ⟨forall_mem_cons.mpr ⟨hquota ▸ Nat.not_lt.mp hrange, hall⟩, heq⟩
        · exact .inr ⟨⟨b, mem_cons_of_mem _ hb, hbad⟩, heq⟩

theorem Aligned.validate {offset : Nat} (h : Aligned limiter restored)
    (hvalid : restored.validate clockMax charges now = .ok offset) :
    limiter.InRange now ∧ limiter.validate clockMax charges now = .ok (now - limiter.epoch) ∨
    ¬ limiter.InRange now ∧ limiter.validate clockMax charges now = .error .clockRange := by
  obtain ⟨hlength, hnow, -, -⟩ := validate_eq_ok hvalid
  have hlength' : charges.length = limiter.clauses.length := by
    have := congrArg List.length h.clauses
    simp only [length_map] at this
    omega
  have hclauses : validateClauses clockMax now offset 0 restored.clauses charges = .ok () := by
    rw [Limiter.validate, if_neg (not_not.mpr hlength)] at hvalid
    obtain ⟨offset', -, hrest⟩ := Except.bind_eq_ok.mp hvalid
    obtain ⟨⟨⟩, hclauses, heq⟩ := Except.bind_eq_ok.mp hrest
    cases heq
    exact hclauses
  have hlatest : ¬ now < limiter.latest := Nat.not_lt.mpr (h.latest.trans hnow)
  rw [Limiter.validate, if_neg (not_not.mpr hlength'), Limiter.offset, if_neg hlatest]
  by_cases hoffset : now - limiter.epoch > u64Max
  · refine .inr ⟨fun hrange => Nat.not_le.mpr hoffset hrange.1, ?_⟩
    rw [if_pos hoffset]
    rfl
  · rw [if_neg hoffset]
    rcases validateClauses_of_valid h.clauses hlength hclauses with ⟨hall, heq⟩ | ⟨⟨a, ha, hbad⟩, heq⟩
    · refine .inl ⟨⟨Nat.not_lt.mp hoffset, hall⟩, ?_⟩
      exact Except.bind_eq_ok.mpr ⟨_, rfl, Except.bind_eq_ok.mpr ⟨_, heq, rfl⟩⟩
    · refine .inr ⟨fun hrange => Nat.not_le.mpr hbad (hrange.2 a ha), ?_⟩
      change (validateClauses clockMax now (now - limiter.epoch) 0 limiter.clauses charges >>= _) = _
      rw [heq]
      rfl

def Spent (limiter : Limiter) (now : Instant) : Prop :=
  (∃ a ∈ limiter.clauses, a.Exhausted) ∨ ¬ limiter.InRange now

theorem Spent.mono (h : limiter.Spent now) (hle : now ≤ now') : limiter.Spent now' := by
  refine h.imp_right fun hout hrange => hout ⟨?_, fun a ha => ?_⟩
  · exact (Nat.sub_le_sub_right hle _).trans hrange.1
  · exact (Nat.add_le_add_right (Nat.sub_le_sub_right hle _) _).trans (hrange.2 a ha)

theorem Shows.of_admitted (h : limiter.Shows ledger)
    (hadm : limiter.admitAt clockMax charges now = some (limiter', .ok .admitted)) :
    (∃ offset, limiter.validate clockMax charges now = .ok offset) ∧ limiter.latest ≤ now ∧
      neverAdmissible 0 limiter.clauses charges = none ∧
      (admitLedger now ledger charges).1 = .ok .admitted ∧ limiter'.latest = now ∧
      limiter'.Shows (admitLedger now ledger charges).2 ∧
      limiter'.clauses.map Allowance.clause = limiter.clauses.map Allowance.clause := by
  obtain ⟨_, outcome, ledger', heq, hanswers, hshows⟩ := h.admitAt clockMax charges now
  rw [hadm] at heq
  obtain ⟨rfl, hout⟩ := Prod.mk.inj (Option.some.inj heq)
  cases hanswers with
  | invalid => cases hout
  | never _ hnever =>
    cases hout
    exact absurd hnever neverAdmissible_ne_admitted
  | noVisit => cases hout
  | answered hvalidate hnever =>
    obtain ⟨hlength, hlatest, -, -⟩ := validate_eq_ok hvalidate
    refine ⟨⟨_, hvalidate⟩, hlatest, hnever, hout.symm, rfl, hshows, ?_⟩
    rw [hshows.map_clause, h.map_clause, map_clause_admitLedger]
    rw [hlength, h.clauses.length_eq]

theorem exhausted_of_refunded {offset : Nat} {a a' : Allowance} (h : a.Refunded offset a')
    (hex : a.Exhausted) : a'.Exhausted := by
  cases h with
  | direct => exact hex
  | keyed hexpires =>
    exact ⟨hexpires.options ▸ hex.1, hex.2.trans_le (Nat.add_le_add_right hexpires.visits 1)⟩

structure Covered (saved : Instant) (limiter restored : Limiter) : Prop where
  aligned : Aligned limiter restored
  since : saved ≤ restored.latest
  ledgers : ∃ ledger ledger', limiter.Shows ledger ∧ restored.Shows ledger' ∧
    List.Forall₂ (Account.Covered saved) (ledger.map (Account.expire restored.latest)) ledger'

section
variable {ledger ledger' : List Account} {restored' : Limiter}

theorem Aligned.admitAt_of_spent (h : Aligned limiter restored) (hshows : limiter.Shows ledger)
    (hrestored : restored.Shows ledger') (hspent : limiter.Spent now)
    (hadm : restored.admitAt clockMax charges now = some (restored', .ok .admitted)) :
    ∃ limiter' outcome ledger'', limiter.admitAt clockMax charges now = some (limiter', outcome) ∧
      (outcome = .error .clockRange ∨ outcome = .error .visitRange) ∧ Aligned limiter' restored' ∧
      limiter'.Shows ledger'' ∧ limiter'.Spent now := by
  obtain ⟨⟨offset, hvalid⟩, hlatest, hnever, -, hlatest', -, hclauses⟩ :=
    hrestored.of_admitted hadm
  obtain ⟨limiter', outcome, ledger'', heq, hanswers, hshows'⟩ := hshows.admitAt clockMax charges now
  refine ⟨limiter', outcome, ledger'', heq, ?_⟩
  rw [← neverAdmissible_congr 0 charges h.clauses] at hnever
  rcases h.validate hvalid with ⟨hrange, hvalidate⟩ | ⟨hrange, hvalidate⟩
  · obtain ⟨a, ha, hex⟩ := hspent.resolve_right (not_not.mpr hrange)
    cases hanswers with
    | invalid hv =>
      rw [hvalidate] at hv
      cases hv
    | never _ hn =>
      rw [hnever] at hn
      cases hn
    | @noVisit _ after _ _ _ hreturned =>
      have hrefunded := hreturned.imp fun _ _ h => h.refunded
      have hkeep := Allowance.map_clause_of_refunded hrefunded
      obtain ⟨i, hi⟩ := mem_iff_getElem?.mp ha
      obtain ⟨a', ha', haa'⟩ := getElem?_of_forall₂ hrefunded hi
      exact ⟨.inr rfl, ⟨hlatest'.ge, (hkeep.trans h.clauses).trans hclauses.symm⟩, hshows',
        .inl ⟨a', mem_of_getElem? ha', exhausted_of_refunded haa' hex⟩⟩
    | answered _ _ hopen => exact absurd hex (hopen a ha)
  · obtain ⟨rfl, rfl, rfl⟩ := hanswers.of_invalid hvalidate
    exact ⟨.inl rfl, ⟨hlatest' ▸ h.latest.trans hlatest, h.clauses.trans hclauses.symm⟩, hshows,
      .inr hrange⟩

theorem Covered.admitAt (h : Covered saved limiter restored)
    (hadm : restored.admitAt clockMax charges now = some (restored', .ok .admitted))
    (hopen : ¬ limiter.Spent now) :
    ∃ limiter', limiter.admitAt clockMax charges now = some (limiter', .ok .admitted) ∧
      Covered saved limiter' restored' := by
  obtain ⟨ledger, ledger', hshows, hrestored, haccounts⟩ := h.ledgers
  obtain ⟨⟨offset, hvalid⟩, hlatest, hnever, hadmitted, hlatest', hrestored', -⟩ :=
    hrestored.of_admitted hadm
  obtain ⟨limiter', outcome, ledger'', heq, hanswers, hshows'⟩ := hshows.admitAt clockMax charges now
  rw [← neverAdmissible_congr 0 charges h.aligned.clauses] at hnever
  obtain ⟨-, hvalidate⟩ := (h.aligned.validate hvalid).resolve_right
    fun hout => hopen (.inr hout.1)
  obtain ⟨rfl, rfl, after, rfl, -⟩ := hanswers.of_open hvalidate hnever
    fun a ha hex => hopen (.inl ⟨a, ha, hex⟩)
  have haccounts' : List.Forall₂ (Account.Covered saved) (ledger.map (Account.expire now))
      (ledger'.map (Account.expire now)) := by
    rw [← map_expire_expire hlatest ledger, forall₂_map_left_iff, forall₂_map_right_iff]
    exact haccounts.imp fun _ _ hb => hb.expire now
  have hok : Account.answers now 0 (ledger'.map (Account.expire now)) charges none none =
      .ok (none, none) := by
    unfold admitLedger at hadmitted
    split at hadmitted
    · cases hadmitted
    · cases hadmitted
    · cases hadmitted
    · assumption
  obtain ⟨hok', hcommits⟩ := answers_covered haccounts' (h.since.trans hlatest) 0 hok
  obtain ⟨hsame, hcovered⟩ : (admitLedger now ledger charges).1 = .ok .admitted ∧
      List.Forall₂ (Account.Covered saved) (admitLedger now ledger charges).2
        (admitLedger now ledger' charges).2 := by
    simp only [admitLedger, hok, hok', hcommits, and_self]
  refine ⟨_, by rw [heq, hsame], ⟨hlatest'.ge, ?_⟩, hlatest' ▸ h.since.trans hlatest, _, _, hshows',
    hrestored', ?_⟩
  · rw [hshows'.map_clause, hrestored'.map_clause, map_clause_of_covered hcovered]
  · have hself := hshows'.map_expire
    rw [hlatest']
    exact hself.symm ▸ hcovered

end

def AdmittedUntilSpent (outcomes : List (Except AdmissionError Admission)) : Prop :=
  ∃ n rest, outcomes = List.replicate n (.ok .admitted) ++ rest ∧
    ∀ outcome ∈ rest, outcome = .error .clockRange ∨ outcome = .error .visitRange

variable {calls : List (List Charge × Instant)} {visits : List Visit}

section
variable (hadm : limiter.admitAt clockMax charges now = some (limiter', outcome))
include hadm

theorem run_cons_of (h : limiter'.run clockMax calls = some rest) :
    limiter.run clockMax ((charges, now) :: calls) =
      some (⟨limiter, charges, now, outcome, limiter'⟩ :: rest) := by
  simp only [Limiter.run, hadm, h, Option.bind_eq_bind, Option.bind_some, Option.pure_def]

end

theorem Shows.run_admitted (h : restored.Shows ledger)
    (hrun : restored.run clockMax ((charges, now) :: calls) = some visits)
    (hall : ∀ v ∈ visits, v.outcome = .ok .admitted) :
    ∃ restored' rest, restored.admitAt clockMax charges now = some (restored', .ok .admitted) ∧
      restored'.run clockMax calls = some rest ∧ ∀ v ∈ rest, v.outcome = .ok .admitted := by
  obtain ⟨restored', outcome, -, hadm, -, -⟩ := h.admitAt clockMax charges now
  simp only [Limiter.run, hadm, Option.bind_eq_bind, Option.bind_some] at hrun
  obtain ⟨rest, hrest, heq⟩ := Option.bind_eq_some_iff.mp hrun
  rw [← Option.some.inj heq, forall_mem_cons] at hall
  obtain ⟨rfl, hall⟩ := hall
  exact ⟨restored', rest, hadm, hrest, hall⟩

theorem Aligned.run_of_spent (h : Aligned limiter restored) (hshows : limiter.Shows ledger)
    (hrestored : restored.Shows ledger') (hspent : limiter.Spent restored.latest)
    (hrun : restored.run clockMax calls = some visits)
    (hall : ∀ v ∈ visits, v.outcome = .ok .admitted) :
    ∃ visits', limiter.run clockMax calls = some visits' ∧
      ∀ v ∈ visits', v.outcome = .error .clockRange ∨ v.outcome = .error .visitRange := by
  induction calls generalizing limiter restored ledger ledger' visits with
  | nil => exact ⟨[], rfl, by simp⟩
  | cons call calls ih =>
    obtain ⟨restored', rest, hadm, hrest, hall⟩ := hrestored.run_admitted hrun hall
    obtain ⟨-, hlatest, -, -, hlatest', hrestored', -⟩ := hrestored.of_admitted hadm
    obtain ⟨limiter', outcome, ledger'', heq, herror, haligned, hshows', hspent'⟩ :=
      h.admitAt_of_spent hshows hrestored (hspent.mono hlatest) hadm
    obtain ⟨visits', hvisits', herrors⟩ :=
      ih haligned hshows' hrestored' (hlatest'.symm ▸ hspent') hrest hall
    exact ⟨_, run_cons_of heq hvisits', forall_mem_cons.mpr ⟨herror, herrors⟩⟩

theorem Covered.run
    (h : Covered saved limiter restored) (hrun : restored.run clockMax calls = some visits)
    (hall : ∀ v ∈ visits, v.outcome = .ok .admitted) :
    ∃ visits', limiter.run clockMax calls = some visits' ∧
      AdmittedUntilSpent (visits'.map Visit.outcome) := by
  induction calls generalizing limiter restored visits with
  | nil => exact ⟨[], rfl, 0, [], rfl, by simp⟩
  | cons call calls ih =>
    obtain ⟨charges, now⟩ := call
    obtain ⟨ledger, ledger', hshows, hrestored, -⟩ := h.ledgers
    obtain ⟨restored', rest, hadm, hrest, hall⟩ := hrestored.run_admitted hrun hall
    by_cases hspent : limiter.Spent now
    · obtain ⟨-, hlatest, -, -, hlatest', hrestored', -⟩ := hrestored.of_admitted hadm
      obtain ⟨limiter', outcome, ledger'', heq, herror, haligned, hshows', hspent'⟩ :=
        h.aligned.admitAt_of_spent hshows hrestored hspent hadm
      obtain ⟨visits', hvisits', herrors⟩ :=
        haligned.run_of_spent hshows' hrestored' (hlatest'.symm ▸ hspent') hrest hall
      refine ⟨_, run_cons_of heq hvisits', 0, _, rfl, ?_⟩
      exact forall_mem_cons.mpr ⟨herror, forall_mem_map.mpr herrors⟩
    · obtain ⟨limiter', heq, hcovered⟩ := h.admitAt hadm hspent
      obtain ⟨visits', hvisits', n, outcomes, heqs, herrors⟩ := ih hcovered hrest hall
      refine ⟨_, run_cons_of heq hvisits', n + 1, outcomes, ?_, herrors⟩
      rw [map_cons, heqs, replicate_succ, cons_append]

theorem restorable_of_saves {allowances : List Allowance} {generation : Generation} {offset : Nat}
    (h : List.Forall₂ (Allowance.Saves offset) allowances generation.clauses)
    (hoffset : offset ≤ now) : generation.Fits ∧ Restorable generation now := by
  have hsaves : ∀ state ∈ generation.clauses, ∃ a : Allowance, a.Saves offset state := by
    generalize generation.clauses = states at h
    induction h with
    | nil => simp
    | cons ha _ ih => exact forall_mem_cons.mpr ⟨⟨_, ha⟩, ih⟩
  have hvalid : ∀ state ∈ generation.clauses, state.Valid :=
    fun state hstate => (hsaves state hstate).elim fun _ ha => ha.valid
  have hmax := maximumAge_le_u64Max hvalid
  refine ⟨fun quota options keys hmem => ?_, hvalid, ?_, fun state hstate => ?_⟩
  · exact (hsaves _ hmem).elim fun _ ha => ha.fits
  · refine maximumAge_le_iff.mpr ⟨Nat.zero_le _, fun key hkey => ?_⟩
    obtain ⟨state, hstate, hkey⟩ := mem_flatMap.mp hkey
    obtain ⟨a, ha⟩ := hsaves state hstate
    exact (ha.age key hkey).trans hoffset
  · cases state with
    | direct quota remaining =>
      cases remaining with
      | none => exact hmax.trans (Nat.div_le_self ..)
      | some r => exact Quota.le_horizon (hvalid _ hstate r rfl).2 hmax
    | keyed quota options keys =>
      intro key hkey
      have hhorizon := ((hvalid _ hstate).2.1 key hkey).horizon
      exact Quota.le_horizon (Nat.le_of_add_left_le hhorizon) hmax

theorem Shows.covered {generation : Generation} (h : limiter.Shows ledger)
    (hlatest : limiter.latest ≤ now)
    (hsaves : List.Forall₂ (Allowance.Saves (now - limiter.epoch)) limiter.clauses
      generation.clauses)
    (hrestored : restored.Shows (generation.clauses.map (ClauseGeneration.account now)))
    (hnow : restored.latest = now) : Covered now limiter restored := by
  have hcovered : List.Forall₂ (Account.Covered now) (ledger.map (Account.expire now))
      (generation.clauses.map (ClauseGeneration.account now)) := by
    have hclauses := h.expire hlatest
    have hepoch := h.epoch.trans hlatest
    generalize limiter.clauses = allowances, generation.clauses = states at hsaves hclauses ⊢
    generalize ledger.map (Account.expire now) = ledger' at hclauses ⊢
    induction hsaves generalizing ledger' with
    | nil =>
      cases hclauses
      exact .nil
    | cons ha _ ih =>
      cases hclauses with
      | cons hshows hrest => exact .cons (ha.covered hepoch hshows) (ih _ hrest)
  refine ⟨⟨hnow ▸ hlatest, ?_⟩, hnow.ge, ledger, _, h, hrestored, hnow.symm ▸ hcovered⟩
  rw [h.map_clause, hrestored.map_clause, ← map_clause_of_covered hcovered, map_map]
  exact map_congr_left fun b _ => (b.clause_expire _).symm

/-- **Restoration.** Unless the instant is beyond its clock, a reachable limiter saves a generation
that is accepted and restored, and the restored limiter saves the same generation. Of every run that
the restored limiter admits throughout, the original one admits every call until its own clock or
visits have run out. -/
theorem restored_no_more_permissive (h : limiter.Reachable clockMax)
    (hlatest : limiter.latest ≤ now) :
    (u64Max < now - limiter.epoch ∧ limiter.generation now = some (.error .clockRange)) ∨
    ∃ generation plan restored, limiter.generation now = some (.ok generation) ∧
      generation.prepare = .ok plan ∧ fromGeneration generation now = some (.ok restored) ∧
      restored.generation now = some (.ok generation) ∧
      ∀ calls visits, restored.run clockMax calls = some visits →
        (∀ v ∈ visits, v.outcome = .ok .admitted) →
        ∃ visits', limiter.run clockMax calls = some visits' ∧
          AdmittedUntilSpent (visits'.map Visit.outcome) := by
  obtain ⟨ledger, hshows⟩ := h.shows
  rcases hshows.generation now with ⟨e, hoffset, heq⟩ | ⟨hoffset, generation, heq, hsaves⟩
  · rw [Limiter.offset, if_neg (Nat.not_lt.mpr hlatest), ite_eq_iff] at hoffset
    rcases hoffset with ⟨hrange, he⟩ | ⟨-, hok⟩
    · cases he
      exact .inl ⟨hrange, heq⟩
    · cases hok
  obtain ⟨hfits, hrestorable⟩ := restorable_of_saves hsaves (Nat.sub_le ..)
  rcases fromGeneration_spec hfits now with ⟨e, -, hnot⟩ | ⟨restored, hrestore, hnow, hrestored, hagain⟩
  · exact (hnot hrestorable).elim
  refine .inr ⟨generation, _, restored, heq, prepareClauses_eq_ok.mpr ⟨hrestorable.valid, rfl⟩,
    hrestore, hagain, fun calls visits hrun hall => ?_⟩
  exact (hshows.covered hlatest hsaves hrestored hnow).run hrun hall

theorem admittedOnce_restored :
    ∃ generation restored, admittedOnce.generation 5 = some (.ok generation) ∧
      fromGeneration generation 5 = some (.ok restored) ∧
      ∃ visits, restored.run 10000 [([.keyed 7 1], 5), ([.keyed 8 2], 50)] = some visits ∧
        visits.map Visit.outcome = [.ok .admitted, .ok .admitted] ∧
        ∃ visits', admittedOnce.run 10000 [([.keyed 7 1], 5), ([.keyed 8 2], 50)] = some visits' ∧
          AdmittedUntilSpent (visits'.map Visit.outcome) := by
  rcases @restored_no_more_permissive 10000 5 _ reachable_admittedOnce (by decide) with
    ⟨hrange, -⟩ | ⟨generation, plan, restored, hsave, -, hrestore, -, hruns⟩
  · exact absurd hrange (by decide)
  refine ⟨generation, restored, hsave, hrestore, ?_⟩
  cases hsave
  cases hrestore
  have hall : ∀ outcome ∈ ([.ok .admitted, .ok .admitted] : List (Except AdmissionError Admission)),
      outcome = .ok .admitted := by simp
  refine ⟨_, rfl, rfl, hruns _ _ rfl fun v hv => hall v.outcome ?_⟩
  exact (mem_map_of_mem hv : v.outcome ∈ List.map Visit.outcome _)

/-- The debt of the only key is over at 200, so the restored limiter numbers its visits from the
start where the original one has a single visit left. A restored limiter also counts its clock from
the instant of the restoration. -/
theorem restored_outlives :
    restoredLast.Reachable 10000 ∧ (new [.direct tenCells] 0).Reachable (2 * u64Max) ∧
    (∃ generation restored, restoredLast.generation 200 = some (.ok generation) ∧
      fromGeneration generation 200 = some (.ok restored) ∧
      (restored.run 10000 [([.keyed 7 1], 200), ([.keyed 7 1], 200)]).map
        (List.map Visit.outcome) = some [.ok .admitted, .ok .admitted] ∧
      (restoredLast.run 10000 [([.keyed 7 1], 200), ([.keyed 7 1], 200)]).map
        (List.map Visit.outcome) = some [.ok .admitted, .error .visitRange]) ∧
    (∃ generation restored, (new [.direct tenCells] 0).generation u64Max = some (.ok generation) ∧
      fromGeneration generation u64Max = some (.ok restored) ∧
      (restored.run (2 * u64Max) [([.direct 1], u64Max)]).map (List.map Visit.outcome) =
        some [.ok .admitted] ∧
      ((new [.direct tenCells] 0).run (2 * u64Max) [([.direct 1], u64Max)]).map
        (List.map Visit.outcome) = some [.error .clockRange]) ∧
    (new [.direct tenCells] 0).generation (u64Max + 1) = some (.error .clockRange) := by
  refine ⟨reachable_restoredLast, .new _ _, ⟨_, _, rfl, rfl, ?_, ?_⟩, ⟨_, _, rfl, rfl, ?_, ?_⟩, ?_⟩
  all_goals decide

end Limiter

end Nervix.RateLimit
