import Nervix.RateLimit.Retention

/-!
# Refused calls

A call that is not admitted leaves every allowance as it was, apart from keys that have reached their
time to live and from the visits that it has numbered. What the limiter answers afterwards is what it
would have answered after a bare expiry, as long as it has visits left.
-/

namespace Nervix.RateLimit

open Recency
open List

inductive Call
  | admits (charges : List Charge) (now : Instant)
  | statistics (now : Instant)
  | generation (now : Instant)
  deriving DecidableEq

def Call.now : Call → Instant
  | admits _ now | statistics now | generation now => now

inductive Answer
  | admission (result : Except AdmissionError Admission)
  | statistics (result : Except AdmissionError KeyStatistics)
  | generation (result : Except AdmissionError Generation)
  deriving DecidableEq

namespace Limiter

def call (clockMax : Nat) (limiter : Limiter) : Call → Option (Limiter × Answer)
  | .admits charges now => (limiter.admitAt clockMax charges now).map (Prod.map id .admission)
  | .statistics now => (limiter.keyStatistics now).map (Prod.map id .statistics)
  | .generation now => (limiter.generation now).map fun result => (limiter, .generation result)

def serve (clockMax : Nat) : Limiter → List Call → Option (List Answer)
  | _, [] => some []
  | limiter, call :: calls => do
    let (limiter, answer) ← limiter.call clockMax call
    let answers ← serve clockMax limiter calls
    return answer :: answers

end Limiter

def KeyGeneration.unnumbered (key : KeyGeneration) : KeyGeneration := { key with ordinal := 0 }

def ClauseGeneration.unnumbered : ClauseGeneration → ClauseGeneration
  | direct quota remaining => direct quota remaining
  | keyed quota options keys => keyed quota options (keys.map KeyGeneration.unnumbered)

def Answer.unnumbered : Answer → Answer
  | admission result => admission result
  | statistics result => statistics result
  | generation result => generation (result.map fun generation =>
      ⟨generation.clauses.map ClauseGeneration.unnumbered⟩)

def Account.saved (now : Instant) : Account → ClauseGeneration
  | direct quota horizon =>
    .direct quota (if horizon > now then some (horizon - now) else none)
  | keyed quota options debts _ => .keyed quota options (debts.filterMap fun (key, debt) =>
      if debt.horizon > now then some ⟨key, debt.horizon - now, now - debt.lastSeen, 0⟩ else none)

theorem Allowance.Shows.unnumbered {a : Allowance} (h : a.Shows epoch now b) (hepoch : epoch ≤ now)
    (hstate : a.generation (now - epoch) = some state) : state.unnumbered = b.saved now := by
  cases h with
  | @direct quota cell hcell =>
    cases hstate
    have hgt : cell > now - epoch ↔ epoch + cell > now := by
      unfold Instant at *
      omega
    have hsub : cell - (now - epoch) = epoch + cell - now := by
      unfold Instant at *
      omega
    simp only [ClauseGeneration.unnumbered, Account.saved, hgt, hsub]
  | @keyed quota store l hordered hhorizons =>
    rw [generation, hordered.generation] at hstate
    cases hstate
    simp only [ClauseGeneration.unnumbered, Account.saved, KeyedStore.debts, KeyedStore.live,
      filterMap_map, filterMap_filter, map_filterMap]
    congr 1
    refine filterMap_congr fun e he => ?_
    have hgt : e.2.cell > now - epoch ↔ epoch + e.2.cell > now := by
      unfold Instant at *
      omega
    have hsub : e.2.cell - (now - epoch) = epoch + e.2.cell - now := by
      unfold Instant at *
      omega
    have hage : now - epoch - e.2.lastSeen = now - (epoch + e.2.lastSeen) := Nat.sub_sub ..
    by_cases halive : now - epoch - e.2.lastSeen < store.options.ttl
    · by_cases hdebt : e.2.cell > now - epoch
      · simp [KeyedStore.saved, hdebt, Entry.debt, hgt.mp hdebt, KeyGeneration.unnumbered,
          hsub, hage]
      · simp [KeyedStore.saved, hdebt, Entry.debt, mt hgt.mpr hdebt]
    · simp [KeyedStore.saved, halive]

namespace Limiter

variable {clockMax : Nat} {limiter expired : Limiter} {charges : List Charge} {now : Instant}

structure Follows (limiter expired : Limiter) : Prop where
  epoch : expired.epoch = limiter.epoch
  latest : limiter.latest ≤ expired.latest
  ledger : ∃ ledger, limiter.Shows ledger ∧
    expired.Shows (ledger.map (Account.expire expired.latest))
  visits : List.Forall₂ (· ≤ ·) (expired.clauses.map Allowance.visits)
    (limiter.clauses.map Allowance.visits)

def Level (limiter expired : Limiter) (now : Instant) : Prop :=
  limiter.latest = expired.latest ∨ expired.latest ≤ now

theorem Follows.clauses (h : Follows limiter expired) :
    limiter.clauses.map Allowance.clause = expired.clauses.map Allowance.clause := by
  obtain ⟨ledger, hshows, hexpired⟩ := h.ledger
  rw [hshows.map_clause, hexpired.map_clause, map_map]
  exact map_congr_left fun b _ => (b.clause_expire _).symm

theorem Follows.offset (h : Follows limiter expired) (hlevel : Level limiter expired now) :
    limiter.offset now = expired.offset now := by
  have hlatest : now < limiter.latest ↔ now < expired.latest := by
    have hle := h.latest
    rcases hlevel with heq | hnow
    · rw [heq]
    · unfold Instant at *
      omega
  simp only [Limiter.offset, hlatest, h.epoch]

theorem Follows.validate (h : Follows limiter expired) (clockMax : Nat) (charges : List Charge)
    (hlevel : Level limiter expired now) :
    limiter.validate clockMax charges now = expired.validate clockMax charges now := by
  have hlength : limiter.clauses.length = expired.clauses.length := by
    simpa using congrArg List.length h.clauses
  simp only [Limiter.validate, h.offset hlevel, hlength, validateClauses_congr h.clauses]

theorem spared_of_map (hclauses : as.map Allowance.clause = bs.map Allowance.clause)
    (hvisits : List.Forall₂ (· ≤ ·) (as.map Allowance.visits) (bs.map Allowance.visits)) :
    List.Forall₂ (fun a b => a.clause = b.clause ∧ a.visits ≤ b.visits) as bs := by
  induction as generalizing bs with
  | nil =>
    obtain rfl := map_eq_nil_iff.mp hclauses.symm
    exact .nil
  | cons a as ih =>
    obtain ⟨b, bs, rfl, hb, hbs⟩ := map_eq_cons_iff.mp hclauses.symm
    obtain ⟨hle, hrest⟩ := forall₂_cons.mp hvisits
    exact .cons ⟨hb.symm, hle⟩ (ih hbs.symm hrest)

theorem Follows.spared (h : Follows limiter expired) :
    List.Forall₂ (fun a b => a.clause = b.clause ∧ a.visits ≤ b.visits) expired.clauses
      limiter.clauses := spared_of_map h.clauses.symm h.visits

theorem nextVisits_le {a b : Allowance} (hclause : a.clause = b.clause) (hvisits : a.visits ≤ b.visits) :
    a.nextVisits ≤ b.nextVisits := by
  cases a with
  | direct => exact Nat.zero_le _
  | keyed quota store =>
    cases b with
    | direct => cases hclause
    | keyed quota' store' =>
      have hoptions : store.options = store'.options := (Clause.keyed.inj hclause).2
      have hle : store.visits ≤ store'.visits := hvisits
      simp only [Allowance.nextVisits, hoptions]
      split
      · exact hle
      · exact Nat.add_le_add_right hle 1

theorem exhausted_of_le {a b : Allowance} (hclause : a.clause = b.clause)
    (hvisits : a.visits ≤ b.visits) (h : a.Exhausted) : b.Exhausted := by
  cases a with
  | direct => exact h.elim
  | keyed quota store =>
    cases b with
    | direct => cases hclause
    | keyed quota' store' =>
      have hoptions : store.options = store'.options := (Clause.keyed.inj hclause).2
      exact ⟨hoptions ▸ h.1, h.2.trans_le (Nat.add_le_add_right hvisits 1)⟩

section
variable (h : Follows limiter expired)
include h

theorem Follows.not_exhausted
    (hopen : ∀ b ∈ limiter.clauses, ¬ b.Exhausted) : ∀ a ∈ expired.clauses, ¬ a.Exhausted := by
  intro a ha hex
  obtain ⟨i, hi⟩ := mem_iff_getElem?.mp ha
  obtain ⟨b, hb, hclause, hvisits⟩ := getElem?_of_forall₂ h.spared hi
  exact hopen b (mem_of_getElem? hb) (exhausted_of_le hclause hvisits hex)

theorem Follows.next {after after' : List Allowance} {ledger : List Account}
    (hshows : ({ limiter with clauses := after, latest := now } : Limiter).Shows ledger)
    (hshows' : ({ expired with clauses := after', latest := now } : Limiter).Shows ledger)
    (hvisits : List.Forall₂ (· ≤ ·) (after'.map Allowance.visits) (after.map Allowance.visits)) :
    Follows { limiter with clauses := after, latest := now }
      { expired with clauses := after', latest := now } :=
  ⟨h.epoch, le_rfl, ⟨ledger, hshows, hshows'.epoch, hshows'.expire le_rfl⟩, hvisits⟩

theorem Follows.admitAt (clockMax : Nat) (charges : List Charge)
    (hlevel : Level limiter expired now) :
    ∃ limiter' outcome expired' outcome',
      limiter.admitAt clockMax charges now = some (limiter', outcome) ∧
      expired.admitAt clockMax charges now = some (expired', outcome') ∧
      (outcome ≠ .error .visitRange → outcome = outcome' ∧ Follows limiter' expired' ∧
        (limiter'.latest = expired'.latest ∨
          limiter'.latest = limiter.latest ∧ expired'.latest = expired.latest)) := by
  obtain ⟨ledger, hshows, hexpired⟩ := h.ledger
  obtain ⟨limiter', outcome, ledger', heq, hanswers, hshows'⟩ := hshows.admitAt clockMax charges now
  obtain ⟨expired', outcome', ledger'', heq', hanswers', hexpired'⟩ :=
    hexpired.admitAt clockMax charges now
  refine ⟨_, _, _, _, heq, heq', fun hvisit => ?_⟩
  have hvalidate := h.validate clockMax charges hlevel
  have hnever := neverAdmissible_congr 0 charges h.clauses
  cases hv : limiter.validate clockMax charges now with
  | error e =>
    obtain ⟨rfl, rfl, rfl⟩ := hanswers.of_invalid hv
    obtain ⟨rfl, rfl, rfl⟩ := hanswers'.of_invalid (hvalidate ▸ hv)
    exact ⟨rfl, h, .inr ⟨rfl, rfl⟩⟩
  | ok offset =>
    have hv' := hvalidate ▸ hv
    cases hn : neverAdmissible 0 limiter.clauses charges with
    | some never =>
      obtain ⟨rfl, rfl, rfl⟩ := hanswers.of_never hv hn
      obtain ⟨rfl, rfl, rfl⟩ := hanswers'.of_never hv' (hnever ▸ hn)
      exact ⟨rfl, h, .inr ⟨rfl, rfl⟩⟩
    | none =>
      have hopen : ∀ a ∈ limiter.clauses, ¬ a.Exhausted := fun a ha hex =>
        hvisit (hanswers.of_exhausted hv hn ⟨a, ha, hex⟩)
      obtain ⟨rfl, rfl, after, rfl, hvisits⟩ := hanswers.of_open hv hn hopen
      obtain ⟨rfl, rfl, after', rfl, hvisits'⟩ :=
        hanswers'.of_open hv' (hnever ▸ hn) (h.not_exhausted hopen)
      -- Expiring once more at a later instant is expiring at that instant.
      have hledger : admitLedger now (ledger.map (Account.expire expired.latest)) charges =
          admitLedger now ledger charges := by
        rw [admitLedger, map_expire_expire (validate_eq_ok hv').2.1, admitLedger]
      rw [hledger] at hexpired' ⊢
      refine ⟨rfl, h.next hshows' hexpired' ?_, .inl rfl⟩
      rw [hvisits, hvisits', forall₂_map_left_iff, forall₂_map_right_iff]
      exact h.spared.imp fun _ _ hab => nextVisits_le hab.1 hab.2

theorem Follows.keyStatistics (hlevel : Level limiter expired now) :
    ∃ limiter' result expired', limiter.keyStatistics now = some (limiter', result) ∧
      expired.keyStatistics now = some (expired', result) ∧ Follows limiter' expired' ∧
      (limiter'.latest = expired'.latest ∨
        limiter'.latest = limiter.latest ∧ expired'.latest = expired.latest) := by
  obtain ⟨ledger, hshows, hexpired⟩ := h.ledger
  obtain ⟨limiter', result, ledger', heq, hcounts, hshows'⟩ := hshows.keyStatistics now
  obtain ⟨expired', result', ledger'', heq', hcounts', hexpired'⟩ := hexpired.keyStatistics now
  have hoffset := h.offset hlevel
  cases hcounts with
  | invalid ho =>
    cases hcounts' with
    | invalid ho' =>
      rw [hoffset, ho'] at ho
      cases ho
      exact ⟨_, _, _, heq, heq', h, .inr ⟨rfl, rfl⟩⟩
    | counted ho' =>
      rw [hoffset, ho'] at ho
      cases ho
  | counted ho _ hvisits =>
    cases hcounts' with
    | invalid ho' =>
      rw [hoffset, ho'] at ho
      cases ho
    | counted ho' _ hvisits' =>
      rw [map_expire_expire (offset_eq_ok ho').1] at heq' hexpired'
      refine ⟨_, _, _, heq, heq', h.next hshows' hexpired' ?_, .inl rfl⟩
      rw [hvisits, hvisits']
      exact h.visits

end

theorem Shows.generation_unnumbered {generation : Generation}
    (h : limiter.Shows ledger) (hlatest : limiter.latest ≤ now)
    (hsaves : List.Forall₂ (Allowance.Saves (now - limiter.epoch)) limiter.clauses
      generation.clauses) :
    generation.clauses.map ClauseGeneration.unnumbered =
      (ledger.map (Account.expire now)).map (Account.saved now) := by
  have hepoch := h.epoch.trans hlatest
  have hshows := h.expire hlatest
  generalize limiter.clauses = allowances, generation.clauses = states,
    ledger.map (Account.expire now) = accounts at hsaves hshows ⊢
  induction hsaves generalizing accounts with
  | nil =>
    cases hshows
    rfl
  | cons hstate _ ih =>
    obtain ⟨b, rest, hab, hrest, rfl⟩ := forall₂_cons_left_iff.mp hshows
    exact congrArg₂ List.cons (hab.unnumbered hepoch hstate.saved) (ih rest hrest)

theorem Follows.generation (h : Follows limiter expired) (hlevel : Level limiter expired now) :
    ∃ result result', limiter.generation now = some result ∧ expired.generation now = some result' ∧
      (Answer.generation result).unnumbered = (Answer.generation result').unnumbered := by
  obtain ⟨ledger, hshows, hexpired⟩ := h.ledger
  have hoffset := h.offset hlevel
  rcases hshows.generation now with ⟨e, ho, heq⟩ | ⟨ho, g, heq, hsaves⟩ <;>
    rcases hexpired.generation now with ⟨e', ho', heq'⟩ | ⟨ho', g', heq', hsaves'⟩ <;>
    rw [hoffset, ho'] at ho
  · cases ho
    exact ⟨_, _, heq, heq', rfl⟩
  · cases ho
  · cases ho
  · refine ⟨_, _, heq, heq', ?_⟩
    have hlatest' := (offset_eq_ok ho').1
    have h₁ := hshows.generation_unnumbered (h.latest.trans hlatest') hsaves
    have h₂ := hexpired.generation_unnumbered hlatest' hsaves'
    rw [map_expire_expire hlatest'] at h₂
    simp only [Answer.unnumbered, Except.map, h₁, h₂]

theorem Shows.serve (h : limiter.Shows ledger) (clockMax : Nat)
    (calls : List Call) : ∃ answers, limiter.serve clockMax calls = some answers := by
  induction calls generalizing limiter ledger with
  | nil => exact ⟨[], rfl⟩
  | cons call calls ih =>
    obtain ⟨limiter', answer, ledger', heq, h'⟩ : ∃ limiter' answer ledger',
        limiter.call clockMax call = some (limiter', answer) ∧ limiter'.Shows ledger' := by
      cases call with
      | admits charges now =>
        obtain ⟨limiter', outcome, ledger', heq, -, h'⟩ := h.admitAt clockMax charges now
        exact ⟨_, _, _, congrArg (Option.map (Prod.map id Answer.admission)) heq, h'⟩
      | statistics now =>
        obtain ⟨limiter', result, ledger', heq, -, h'⟩ := h.keyStatistics now
        exact ⟨_, _, _, congrArg (Option.map (Prod.map id Answer.statistics)) heq, h'⟩
      | generation now =>
        obtain ⟨result, heq⟩ : ∃ result, limiter.generation now = some result := by
          rcases h.generation now with ⟨e, -, heq⟩ | ⟨-, g, heq, -⟩
          · exact ⟨_, heq⟩
          · exact ⟨_, heq⟩
        exact ⟨_, _, _, congrArg (Option.map fun result => (limiter, Answer.generation result)) heq, h⟩
    obtain ⟨answers, hserve⟩ := ih h'
    exact ⟨answer :: answers, by
      simp only [Limiter.serve, heq, hserve, Option.bind_eq_bind, Option.bind_some, Option.pure_def]⟩

inductive Agree : List Answer → List Answer → Prop
  | nil : Agree [] []
  | exhausted {answers answers' : List Answer} :
      Agree (.admission (.error .visitRange) :: answers) answers'
  | cons {a a' : Answer} {answers answers' : List Answer} : a.unnumbered = a'.unnumbered →
      Agree answers answers' → Agree (a :: answers) (a' :: answers')

theorem Follows.call (h : Follows limiter expired) (clockMax : Nat) (call : Call)
    (hlevel : Level limiter expired call.now) :
    ∃ limiter' answer expired' answer', limiter.call clockMax call = some (limiter', answer) ∧
      expired.call clockMax call = some (expired', answer') ∧
      (answer ≠ .admission (.error .visitRange) → answer.unnumbered = answer'.unnumbered ∧
        Follows limiter' expired' ∧ (limiter'.latest = expired'.latest ∨
          limiter'.latest = limiter.latest ∧ expired'.latest = expired.latest)) := by
  cases call with
  | admits charges now =>
    obtain ⟨limiter', outcome, expired', outcome', heq, heq', hsame⟩ :=
      h.admitAt clockMax charges hlevel
    refine ⟨limiter', .admission outcome, expired', .admission outcome',
      congrArg (Option.map (Prod.map id Answer.admission)) heq,
      congrArg (Option.map (Prod.map id Answer.admission)) heq', fun hvisit => ?_⟩
    obtain ⟨rfl, hfollows, hlatest⟩ := hsame fun he => hvisit (congrArg _ he)
    exact ⟨rfl, hfollows, hlatest⟩
  | statistics now =>
    obtain ⟨limiter', result, expired', heq, heq', hfollows, hlatest⟩ := h.keyStatistics hlevel
    exact ⟨limiter', .statistics result, expired', .statistics result,
      congrArg (Option.map (Prod.map id Answer.statistics)) heq,
      congrArg (Option.map (Prod.map id Answer.statistics)) heq',
      fun _ => ⟨rfl, hfollows, hlatest⟩⟩
  | generation now =>
    obtain ⟨result, result', heq, heq', hsame⟩ := h.generation hlevel
    exact ⟨limiter, .generation result, expired, .generation result',
      congrArg (Option.map fun result => (limiter, Answer.generation result)) heq,
      congrArg (Option.map fun result => (expired, Answer.generation result)) heq',
      fun _ => ⟨hsame, h, .inr ⟨rfl, rfl⟩⟩⟩

theorem Follows.serve (h : Follows limiter expired) (clockMax : Nat) (calls : List Call)
    (hlevel : limiter.latest = expired.latest ∨ ∀ call ∈ calls, expired.latest ≤ call.now) :
    ∃ answers answers', limiter.serve clockMax calls = some answers ∧
      expired.serve clockMax calls = some answers' ∧ Agree answers answers' := by
  induction calls generalizing limiter expired with
  | nil => exact ⟨[], [], rfl, rfl, .nil⟩
  | cons call calls ih =>
    have hcall : Level limiter expired call.now := hlevel.imp_right fun h => h call mem_cons_self
    obtain ⟨limiter', answer, expired', answer', heq, heq', hsame⟩ := h.call clockMax call hcall
    by_cases hvisit : answer = .admission (.error .visitRange)
    · obtain ⟨ledger, hshows, hexpired⟩ := h.ledger
      obtain ⟨answers, hserve⟩ := hshows.serve clockMax (call :: calls)
      obtain ⟨answers', hserve'⟩ := hexpired.serve clockMax (call :: calls)
      refine ⟨answers, answers', hserve, hserve', ?_⟩
      simp only [Limiter.serve, heq, Option.bind_eq_bind, Option.bind_some, Option.pure_def]
        at hserve
      obtain ⟨rest, -, heq⟩ := Option.bind_eq_some_iff.mp hserve
      obtain rfl := Option.some.inj heq
      subst hvisit
      exact .exhausted
    · obtain ⟨hanswer, hfollows, hlatest⟩ := hsame hvisit
      have hlevel' : limiter'.latest = expired'.latest ∨
          ∀ call ∈ calls, expired'.latest ≤ call.now := by
        rcases hlatest with hequal | ⟨hsame, hsame'⟩
        · exact .inl hequal
        · rw [hsame, hsame']
          exact hlevel.imp_right fun h call hmem => h call (mem_cons_of_mem _ hmem)
      obtain ⟨answers, answers', hserve, hserve', hagree⟩ := ih hfollows hlevel'
      refine ⟨answer :: answers, answer' :: answers', ?_, ?_, .cons hanswer hagree⟩
      · simp only [Limiter.serve, heq, hserve, Option.bind_eq_bind, Option.bind_some, Option.pure_def]
      · simp only [Limiter.serve, heq', hserve', Option.bind_eq_bind, Option.bind_some,
          Option.pure_def]

theorem offset_of_validate {offset : Nat} (h : limiter.validate clockMax charges now = .ok offset) :
    limiter.offset now = .ok offset := by
  simp only [Limiter.validate] at h
  split at h
  · cases h
  · obtain ⟨offset', hoffset, hrest⟩ := Except.bind_eq_ok.mp h
    obtain ⟨_, -, heq⟩ := Except.bind_eq_ok.mp hrest
    cases heq
    exact hoffset

section
variable {ledger ledger' accounts : List Account}
variable {outcome : Except AdmissionError Admission} {result : Except AdmissionError KeyStatistics}

theorem Counts.follows (hshows : limiter.Shows ledger)
    (h : Counts limiter ledger now expired result accounts) (hexpired : expired.Shows accounts) :
    Follows limiter expired := by
  cases h with
  | invalid =>
    exact ⟨rfl, le_rfl, ⟨ledger, hshows, hshows.epoch, hshows.expire le_rfl⟩,
      forall₂_same.mpr fun _ _ => le_rfl⟩
  | counted hoffset _ hvisits =>
    refine ⟨rfl, (offset_eq_ok hoffset).1, ⟨ledger, hshows, hexpired⟩, ?_⟩
    rw [hvisits]
    exact forall₂_same.mpr fun _ _ => le_rfl

theorem Counts.follows_of_refunded {offset : Nat} {after : List Allowance}
    (hoffset : limiter.offset now = .ok offset)
    (hrefunded : List.Forall₂ (Allowance.Refunded (now - limiter.epoch)) limiter.clauses after)
    (hafter : ({ limiter with clauses := after, latest := now } : Limiter).Shows
      (ledger.map (Account.expire now)))
    (h : Counts limiter ledger now expired result accounts) (hexpired : expired.Shows accounts) :
    Follows { limiter with clauses := after, latest := now } expired := by
  cases h with
  | invalid ho =>
    rw [hoffset] at ho
    cases ho
  | counted _ _ hvisits =>
    refine ⟨rfl, le_rfl, ⟨_, hafter, ?_⟩, ?_⟩
    · rwa [map_expire_expire le_rfl]
    · rw [hvisits, forall₂_map_left_iff, forall₂_map_right_iff]
      refine hrefunded.imp fun a b hab => ?_
      cases hab with
      | direct => exact le_rfl
      | keyed hexpires => exact hexpires.visits

end

/-- **Refusals.** A call that is not admitted keeps every horizon, inserts, touches and evicts no
key, and leaves a limiter that answers every later call as after a bare expiry, except for the
numbers in what it saves and up to the first call that has no visit left. -/
theorem refused_leaves_expired (h : limiter.Reachable clockMax) (charges : List Charge)
    (now : Instant) :
    ∃ limiter' outcome, limiter.admitAt clockMax charges now = some (limiter', outcome) ∧
      (outcome ≠ .ok .admitted → limiter'.epoch = limiter.epoch ∧
        (limiter'.latest = limiter.latest ∨ limiter.latest ≤ now ∧ limiter'.latest = now) ∧
        List.Forall₂ (Allowance.Refunded (now - limiter.epoch)) limiter.clauses limiter'.clauses ∧
        ∃ expired result, limiter.keyStatistics now = some (expired, result) ∧
          ∀ calls, (limiter'.latest = expired.latest ∨ ∀ call ∈ calls, expired.latest ≤ call.now) →
            ∃ answers answers', limiter'.serve clockMax calls = some answers ∧
              expired.serve clockMax calls = some answers' ∧ Agree answers answers') := by
  obtain ⟨ledger, hshows⟩ := h.shows
  obtain ⟨limiter', outcome, ledger', hadm, hanswers, hshows'⟩ :=
    hshows.admitAt clockMax charges now
  obtain ⟨expired, result, accounts, hcount, hcounts, hexpired⟩ := hshows.keyStatistics now
  refine ⟨limiter', outcome, hadm, fun hrefused => ?_⟩
  have hunchanged : List.Forall₂ (Allowance.Refunded (now - limiter.epoch)) limiter.clauses
      limiter.clauses := forall₂_same.mpr fun _ _ => .refl
  cases hanswers with
  | invalid | never =>
    exact ⟨rfl, .inl rfl, hunchanged, expired, result, hcount,
      (hcounts.follows hshows hexpired).serve clockMax⟩
  | noVisit hvalidate _ _ hreturned =>
    have hrefunded := hreturned.imp fun _ _ h => h.refunded
    exact ⟨rfl, .inr ⟨(validate_eq_ok hvalidate).2.1, rfl⟩, hrefunded, expired, result, hcount,
      (hcounts.follows_of_refunded (offset_of_validate hvalidate) hrefunded hshows' hexpired).serve
        clockMax⟩
  | answered hvalidate _ _ _ hkeep =>
    obtain ⟨hreturned, hledger⟩ := hkeep hrefused
    have hrefunded := hreturned.imp fun _ _ h => h.refunded
    exact ⟨rfl, .inr ⟨(validate_eq_ok hvalidate).2.1, rfl⟩, hrefunded, expired, result, hcount,
      (hcounts.follows_of_refunded (offset_of_validate hvalidate) hrefunded (hledger ▸ hshows')
        hexpired).serve clockMax⟩

def lastVisits : Generation := ⟨[.keyed tenCells oneKey [⟨7, 50, 10, u64Max - 2⟩]]⟩

def restoredLast : Limiter :=
  match fromGeneration lastVisits 100 with
  | some (.ok limiter) => limiter
  | _ => new [] 0

theorem reachable_restoredLast : restoredLast.Reachable 10000 := by
  have hfits : lastVisits.Fits := by
    intro quota options keys hmem key hkey
    rw [lastVisits, mem_singleton] at hmem
    cases hmem
    rw [mem_singleton] at hkey
    subst hkey
    exact Nat.sub_le ..
  have hrestored : fromGeneration lastVisits 100 = some (.ok restoredLast) := rfl
  exact .restored hfits hrestored

theorem restoredLast_leaves_expired :
    ∃ limiter', restoredLast.admitAt 10000 [.keyed 7 10] 100 = some (limiter', .ok (.waitUntil 150)) ∧
      ∃ expired result, restoredLast.keyStatistics 100 = some (expired, result) ∧
        ∃ answers answers', limiter'.serve 10000 [.admits [.keyed 7 1] 120] = some answers ∧
          expired.serve 10000 [.admits [.keyed 7 1] 120] = some answers' ∧ Agree answers answers' := by
  obtain ⟨limiter', outcome, hadm, hrefused⟩ :=
    refused_leaves_expired reachable_restoredLast [.keyed 7 10] 100
  obtain rfl : .ok (.waitUntil 150) = outcome :=
    congrArg (fun r => (r.map Prod.snd).getD (.ok .admitted)) hadm
  obtain ⟨-, -, -, expired, result, hcount, hcalls⟩ := hrefused (by simp)
  refine ⟨limiter', hadm, expired, result, hcount, hcalls _ (.inr ?_)⟩
  have hlatest : 100 = expired.latest :=
    congrArg (fun r => (r.map fun r => r.1.latest).getD 0) hcount
  simp [Call.now, ← hlatest]

/-- A refused call spends the last visit, so that the next one fails, where it is admitted after a
bare expiry. A call that was refused before its instant was observed leaves earlier instants open. And
the keys of later admissions are saved with other numbers. -/
theorem refusal_is_seen : restoredLast.Reachable 10000 ∧ admittedOnce.Reachable 10000 ∧
    (restoredLast.serve 10000 [.admits [.keyed 7 10] 100, .admits [.keyed 7 1] 100] =
        some [.admission (.ok (.waitUntil 150)), .admission (.error .visitRange)] ∧
      restoredLast.serve 10000 [.statistics 100, .admits [.keyed 7 1] 100] =
        some [.statistics (.ok ⟨1, 0⟩), .admission (.ok .admitted)]) ∧
    (restoredLast.serve 10000 [.admits [.keyed 7 11] 200, .admits [.keyed 7 1] 150] =
        some [.admission (.ok (.neverAdmissible 0 11 10)), .admission (.ok .admitted)] ∧
      restoredLast.serve 10000 [.statistics 200, .admits [.keyed 7 1] 150] =
        some [.statistics (.ok ⟨1, 0⟩), .admission (.error .clockRegressed)]) ∧
    admittedOnce.serve 10000 [.admits [.keyed 7 8] 5, .admits [.keyed 7 1] 5, .generation 5] =
      some [.admission (.ok (.waitUntil 15)), .admission (.ok .admitted),
        .generation (.ok ⟨[.keyed tenCells oneKey [⟨7, 40, 0, 2⟩]]⟩)] ∧
    admittedOnce.serve 10000 [.statistics 5, .admits [.keyed 7 1] 5, .generation 5] =
      some [.statistics (.ok ⟨1, 0⟩), .admission (.ok .admitted),
        .generation (.ok ⟨[.keyed tenCells oneKey [⟨7, 40, 0, 1⟩]]⟩)] := by
  refine ⟨reachable_restoredLast, reachable_admittedOnce, ⟨?_, ?_⟩, ⟨?_, ?_⟩, ?_, ?_⟩
  all_goals decide

end Limiter

end Nervix.RateLimit
