import Nervix.Theory.OrderedMap
import Nervix.Theory.System

/-!
# Pacing of failed logins

Every presented name has a quota of failed logins, held as one mark: the instant from which the name
has no debt. A refused attempt pays one slot, before its verification if the name was in debt and
after it otherwise. Every section under the lock of the names is one step.
-/

namespace Nervix.Authentication

open Function

structure Quota where
  rate : Nat
  rate_pos : 0 < rate

def Quota.interval (quota : Quota) : Nat := 1000000000 / quota.rate

def Quota.tolerance (quota : Quota) : Nat := (quota.rate - 1) * quota.interval

/-- A bucket with the allocation of its shared key, which no later bucket has. -/
structure AuthenticationBucket where
  key : Nat
  theoreticalArrival : Nat

def AuthenticationBucket.takeSlot (bucket : AuthenticationBucket) (quota : Quota) (now : Nat) :
    AuthenticationBucket × Option Nat :=
  let mark := max bucket.theoreticalArrival now
  if mark ≤ now + quota.tolerance then
    ({ bucket with theoreticalArrival := mark + quota.interval }, none)
  else ({ bucket with theoreticalArrival := mark }, some (mark - (now + quota.tolerance)))

inductive CredentialPacing
  | unpaced
  | paced (charged : Nat)
  deriving DecidableEq

inductive Turn (α : Type)
  | wait (duration : Nat)
  | done (result : α)

structure AuthenticationPacing where
  names : OrderedMap String AuthenticationBucket := {}
  allocated : Nat := 0

namespace AuthenticationPacing

variable (quota : Quota) (p : AuthenticationPacing) (name : String) (now : Nat)

def retireRecovered : AuthenticationPacing :=
  match p.names.oldest with
  | some (_, bucket) =>
    if bucket.theoreticalArrival ≤ now then { p with names := p.names.drop 1 } else p
  | none => p

def renew (bucket : AuthenticationBucket) : AuthenticationPacing :=
  { p with names := (p.names.moveToEnd name).modify name fun _ => bucket }

def authenticated : AuthenticationPacing := { p with names := p.names.remove name }

def beforeVerification : AuthenticationPacing × Turn CredentialPacing :=
  let p := p.retireRecovered now
  match p.names.get name with
  | none => (p, .done .unpaced)
  | some bucket =>
    if bucket.theoreticalArrival ≤ now then
      ({ p with names := p.names.remove name }, .done .unpaced)
    else
      match bucket.takeSlot quota now with
      | (bucket, some wait) => (p.renew name bucket, .wait wait)
      | (bucket, none) => (p.renew name bucket, .done (.paced bucket.key))

-- The source asserts that the fresh quota grants its first slot and that the name is absent.
def establish : AuthenticationPacing :=
  let bucket : AuthenticationBucket := ⟨p.allocated, now⟩
  { names := (p.names.remove name).put name (bucket.takeSlot quota now).1
    allocated := p.allocated + 1 }

/-- The result says whether the call was granted a slot. -/
def refused (admission : CredentialPacing) : AuthenticationPacing × Turn Bool :=
  let p := p.retireRecovered now
  match p.names.get name with
  | none => (p.establish quota name now, .done true)
  | some bucket =>
    if bucket.theoreticalArrival ≤ now then (p.establish quota name now, .done true)
    else if admission = .paced bucket.key then (p, .done false)
    else
      match bucket.takeSlot quota now with
      | (bucket, some wait) => (p.renew name bucket, .wait wait)
      | (bucket, none) => (p.renew name bucket, .done true)

def debt : Nat := ((p.names.get name).elim 0 (·.theoreticalArrival)) - now

end AuthenticationPacing

/-! ### Attempts -/

inductive Phase
  | entering (wakeAt : Nat)
  | verifying (admission : CredentialPacing)
  | refusing (admission : CredentialPacing) (wakeAt : Nat)
  | accepted
  | refused
  | ended

inductive Verdict
  | accepted
  | rejected
  | unavailable

inductive Record (ι : Type)
  | slot (attempt : ι) (refusal : Bool) (time : Nat)
  | success (attempt : ι) (time : Nat)

structure Node (ι : Type) where
  pacing : AuthenticationPacing := {}
  now : Nat := 0
  phase : ι → Phase := fun _ => .entering 0
  log : List (Record ι) := []

/-- Time passes, or an attempt takes its next step or is dropped. -/
inductive Event (ι : Type)
  | pass (duration : Nat)
  | enter (attempt : ι)
  | judge (attempt : ι) (verdict : Verdict)
  | refuse (attempt : ι)
  | succeed (attempt : ι)
  | leave (attempt : ι)

def Event.attempt : Event ι → Option ι
  | pass _ => none
  | enter a | judge a _ | refuse a | succeed a | leave a => some a

def Node.debt (s : Node ι) (n : String) : Nat := s.pacing.debt n s.now

section
variable [DecidableEq ι] (quota : Quota) (name : ι → String) (s : Node ι)

def Node.move (a : ι) (phase : Phase) : Node ι := { s with phase := update s.phase a phase }

def Node.next : Event ι → Node ι
  | .pass duration => { s with now := s.now + duration }
  | .enter a =>
    match s.phase a with
    | .entering wakeAt =>
      if wakeAt ≤ s.now then
        match s.pacing.beforeVerification quota (name a) s.now with
        | (p, .wait duration) => { s.move a (.entering (s.now + duration)) with pacing := p }
        | (p, .done .unpaced) => { s.move a (.verifying .unpaced) with pacing := p }
        | (p, .done (.paced charged)) =>
          { s.move a (.verifying (.paced charged)) with
            pacing := p, log := s.log ++ [.slot a false s.now] }
      else s
    | _ => s
  | .judge a verdict =>
    match s.phase a, verdict with
    | .verifying _, .accepted => s.move a .accepted
    | .verifying admission, .rejected => s.move a (.refusing admission s.now)
    | .verifying _, .unavailable => s.move a .ended
    | _, _ => s
  | .refuse a =>
    match s.phase a with
    | .refusing admission wakeAt =>
      if wakeAt ≤ s.now then
        match s.pacing.refused quota (name a) s.now admission with
        | (p, .wait duration) => { s.move a (.refusing admission (s.now + duration)) with pacing := p }
        | (p, .done false) => { s.move a .refused with pacing := p }
        | (p, .done true) =>
          { s.move a .refused with pacing := p, log := s.log ++ [.slot a true s.now] }
      else s
    | _ => s
  | .succeed a =>
    match s.phase a with
    | .accepted =>
      { s.move a .ended with
        pacing := s.pacing.authenticated (name a), log := s.log ++ [.success a s.now] }
    | _ => s
  | .leave a => s.move a .ended

def attempts : System (Node ι) (Event ι) where
  guard _ _ := True
  next := Node.next quota name

end

/-! ### Debts -/

namespace AuthenticationPacing

variable {quota : Quota} {p p' : AuthenticationPacing} {name : String} {now : Nat}
variable {bucket : AuthenticationBucket}

def Granted (quota : Quota) (name : String) (before after : String → Nat) : Prop :=
  before name ≤ quota.tolerance ∧ after = update before name (before name + quota.interval)

theorem debt_retireRecovered : ((p.retireRecovered now).debt · now) = (p.debt · now) := by
  unfold retireRecovered
  split
  · rename_i k bucket hold
    have hkeys : p.names.oldestKeys 1 = [k] := by
      rw [OrderedMap.oldestKeys, List.take_one, show p.names.entries.head? = _ from hold]
      rfl
    split
    · funext n
      by_cases hn : n ∈ p.names.oldestKeys 1
      · obtain rfl : n = k := by simpa [hkeys] using hn
        have hget := OrderedMap.get_eq_some_iff.mpr (List.mem_of_mem_head? hold)
        have hgone : (p.names.drop 1).get n = none :=
          OrderedMap.get_eq_none_iff.mpr fun h => (OrderedMap.mem_map_fst_drop.mp h).2 hn
        simp only [debt, hget, hgone, Option.elim_none, Option.elim_some]
        omega
      · simp only [debt, OrderedMap.get_drop hn]
    · rfl
  · rfl

theorem debt_renew (hget : p.names.get name = some bucket) :
    ((p.renew name bucket').debt · now) =
      update (p.debt · now) name (bucket'.theoreticalArrival - now) := by
  funext n
  have hmoved : (p.names.moveToEnd name).get n = p.names.get n := Option.ext fun b => by
    rw [OrderedMap.get_eq_some_iff, OrderedMap.mem_entries_moveToEnd, OrderedMap.get_eq_some_iff]
  rw [debt, renew, OrderedMap.get_modify, hmoved, update_apply]
  split
  · subst n
    rw [hget]
    rfl
  · rfl

theorem debt_authenticated :
    ((p.authenticated name).debt · now) = update (p.debt · now) name 0 := by
  funext n
  rw [debt, authenticated, OrderedMap.get_remove, update_apply]
  split
  · exact Nat.zero_sub now
  · rfl

theorem granted_establish (h : p.debt name now = 0) :
    Granted quota name (p.debt · now) ((p.establish quota name now).debt · now) := by
  refine ⟨by simp only [h, Nat.zero_le], funext fun n => ?_⟩
  rw [debt, establish, OrderedMap.get_put, update_apply]
  split
  · simp [AuthenticationBucket.takeSlot, h]
  · rename_i hn
    rw [OrderedMap.get_remove, if_neg hn]
    rfl

theorem takeSlot_spec (hget : p.names.get name = some bucket)
    (hnow : ¬ bucket.theoreticalArrival ≤ now)
    (h : bucket.takeSlot quota now = result) :
    match result.2 with
    | none => Granted quota name (p.debt · now) ((p.renew name result.1).debt · now)
    | some _ => ((p.renew name result.1).debt · now) = (p.debt · now) := by
  have hdebt : p.debt name now = bucket.theoreticalArrival - now := by rw [debt, hget]; rfl
  subst h
  rw [debt_renew hget, AuthenticationBucket.takeSlot]
  by_cases hroom : max bucket.theoreticalArrival now ≤ now + quota.tolerance
  · simp only [if_pos hroom, Granted, hdebt]
    exact ⟨by omega, congrArg _ (by omega)⟩
  · simp only [if_neg hroom]
    exact update_eq_self_iff.mpr (by omega)

inductive Enters (quota : Quota) (name : String) (before after : String → Nat) :
    Turn CredentialPacing → Prop
  | unpaced : before name = 0 → after = before → Enters quota name before after (.done .unpaced)
  | waits {duration} : 0 < before name → after = before →
      Enters quota name before after (.wait duration)
  | paced {charged} : 0 < before name → Granted quota name before after →
      Enters quota name before after (.done (.paced charged))

theorem beforeVerification_enters (h : p.beforeVerification quota name now = (p', result)) :
    Enters quota name (p.debt · now) (p'.debt · now) result := by
  rw [← debt_retireRecovered]
  simp only [beforeVerification] at h
  generalize p.retireRecovered now = p at h
  split at h
  · rename_i hget
    cases h
    exact .unpaced (by simp [debt, hget]) rfl
  rename_i bucket hget
  have hdebt : p.debt name now = bucket.theoreticalArrival - now := by rw [debt, hget]; rfl
  split at h
  · cases h
    have hzero : p.debt name now = 0 := by omega
    exact .unpaced hzero (debt_authenticated.trans (update_eq_self_iff.mpr hzero.symm))
  · rename_i hnow
    have hpos : 0 < p.debt name now := by omega
    split at h
    all_goals
      rename_i heq
      have hslot := takeSlot_spec hget hnow heq
      cases h
    · exact .waits hpos hslot
    · exact .paced hpos hslot

inductive Refuses (quota : Quota) (name : String) (admission : CredentialPacing)
    (before after : String → Nat) : Turn Bool → Prop
  | receipt {charged} : admission = .paced charged → after = before →
      Refuses quota name admission before after (.done false)
  | waits {duration} : after = before → Refuses quota name admission before after (.wait duration)
  | slot : Granted quota name before after → Refuses quota name admission before after (.done true)

theorem refused_refuses (h : p.refused quota name now admission = (p', result)) :
    Refuses quota name admission (p.debt · now) (p'.debt · now) result := by
  rw [← debt_retireRecovered]
  simp only [refused] at h
  generalize p.retireRecovered now = p at h
  split at h
  · rename_i hget
    cases h
    exact .slot (granted_establish (by simp [debt, hget]))
  rename_i bucket hget
  have hdebt : p.debt name now = bucket.theoreticalArrival - now := by rw [debt, hget]; rfl
  split at h
  · cases h
    exact .slot (granted_establish (by omega))
  rename_i hnow
  split at h
  · cases h
    exact .receipt ‹_› rfl
  split at h
  all_goals
    rename_i heq
    have hslot := takeSlot_spec hget hnow heq
    cases h
  · exact .waits hslot
  · exact .slot hslot

end AuthenticationPacing

/-! ### Steps -/

open AuthenticationPacing

def Phase.paid : Phase → Bool
  | verifying (.paced _) | refusing (.paced _) _ | refused => true
  | _ => false

namespace Node

inductive Effect (quota : Quota) (name : ι → String) (s : Node ι) : Event ι → Node ι → Prop
  | passes {duration} : Effect quota name s (.pass duration) { s with now := s.now + duration }
  | quiet {e s'} : s'.now = s.now → s'.log = s.log → s'.debt = s.debt →
      (∀ b, (s'.phase b).paid = true → (s.phase b).paid = true) → Effect quota name s e s'
  | slot {e s' a refusal} : e.attempt = some a → s'.now = s.now →
      s'.log = s.log ++ [.slot a refusal s.now] → Granted quota (name a) s.debt s'.debt →
      (refusal = false → 0 < s.debt (name a)) →
      (∀ b, (s'.phase b).paid = true → b = a ∨ (s.phase b).paid = true) → Effect quota name s e s'
  | success {e s' a} : e.attempt = some a → s'.now = s.now →
      s'.log = s.log ++ [.success a s.now] → s'.debt = update s.debt (name a) 0 →
      (∀ b, (s'.phase b).paid = true → (s.phase b).paid = true) → Effect quota name s e s'

variable {quota : Quota} {name : ι → String} {s s' : Node ι} {a : ι} {e : Event ι} {n : String}

section
variable [DecidableEq ι]

theorem paid_move {phase : Phase} (b : ι) (h : ((s.move a phase).phase b).paid = true) :
    b = a ∧ phase.paid = true ∨ (s.phase b).paid = true := by
  simp only [move, update_apply] at h
  split at h
  · exact .inl ⟨‹_›, h⟩
  · exact .inr h

theorem paid_of_move {phase : Phase} (hphase : phase.paid = true → (s.phase a).paid = true) (b : ι)
    (h : ((s.move a phase).phase b).paid = true) : (s.phase b).paid = true := by
  rcases paid_move b h with ⟨rfl, hp⟩ | hp
  · exact hphase hp
  · exact hp

theorem effect_next (s : Node ι) (e : Event ι) : Effect quota name s e (s.next quota name e) := by
  have hstays : Effect quota name s e s := .quiet rfl rfl rfl fun _ h => h
  have hunpaid : ∀ {p : Prop}, false = true → p := fun h => absurd h Bool.false_ne_true
  have hslot : ∀ {phase a} b, ((s.move a phase).phase b).paid = true →
      b = a ∨ (s.phase b).paid = true := fun b h => (paid_move b h).imp_left And.left
  cases e with
  | pass duration => exact .passes
  | leave a => exact .quiet rfl rfl rfl (paid_of_move hunpaid)
  | judge a verdict =>
    simp only [next]
    split
    case h_2 admission hphase =>
      refine .quiet rfl rfl rfl (paid_of_move fun h => ?_)
      rw [hphase]
      cases admission <;> exact h
    case h_4 => exact hstays
    all_goals exact .quiet rfl rfl rfl (paid_of_move hunpaid)
  | succeed a =>
    simp only [next]
    split
    · exact .success rfl rfl rfl debt_authenticated (paid_of_move hunpaid)
    · exact hstays
  | enter a =>
    simp only [next]
    split
    case h_2 => exact hstays
    split
    case isFalse => exact hstays
    split
    all_goals
      rename_i heq
      cases beforeVerification_enters heq
    · exact .quiet rfl rfl ‹_› (paid_of_move hunpaid)
    · exact .quiet rfl rfl ‹_› (paid_of_move hunpaid)
    · exact .slot rfl rfl rfl ‹_› (fun _ => ‹_›) hslot
  | refuse a =>
    simp only [next]
    split
    case h_2 => exact hstays
    case h_1 admission wakeAt hphase =>
      split
      case isFalse => exact hstays
      split
      all_goals
        rename_i heq
        cases refused_refuses heq
      · refine .quiet rfl rfl ‹_› (paid_of_move fun h => ?_)
        rw [hphase]
        cases admission <;> exact h
      · refine .quiet rfl rfl ‹_› (paid_of_move fun _ => ?_)
        rw [hphase, ‹admission = _›]
        rfl
      · exact .slot rfl rfl rfl ‹_› (fun h => hunpaid h.symm) hslot

end

/-! ### What an attempt has paid -/

def Paid (s : Node ι) : Prop :=
  ∀ a, (s.phase a).paid = true → ∃ refusal time, .slot a refusal time ∈ s.log

theorem Paid.step (h : s.Paid) (he : Effect quota name s e s') : s'.Paid := by
  intro b hb
  cases he with
  | passes => exact h b hb
  | quiet _ hlog _ hpaid =>
    rw [hlog]
    exact h b (hpaid b hb)
  | slot _ _ hlog _ _ hpaid =>
    rw [hlog]
    rcases hpaid b hb with rfl | hb
    · exact ⟨_, _, List.mem_concat_self⟩
    · obtain ⟨refusal, time, hmem⟩ := h b hb
      exact ⟨refusal, time, List.mem_append_left _ hmem⟩
  | success _ _ hlog _ hpaid =>
    rw [hlog]
    obtain ⟨refusal, time, hmem⟩ := h b (hpaid b hb)
    exact ⟨refusal, time, List.mem_append_left _ hmem⟩

/-! ### The slots of a window -/

variable {since till : Nat}

def slots (name : ι → String) (n : String) (since till : Nat) (s : Node ι) : Nat :=
  s.log.countP fun
    | .slot a _ time => name a = n ∧ since ≤ time ∧ time ≤ till
    | .success .. => false

def Failing (name : ι → String) (n : String) (since till : Nat) (s : Node ι) : Prop :=
  ∀ a time, .success a time ∈ s.log → name a = n → ¬ (since ≤ time ∧ time ≤ till)

structure Backed (quota : Quota) (name : ι → String) (n : String) (since till : Nat) (s : Node ι) :
    Prop where
  bound : s.slots name n since till * quota.interval ≤ quota.rate * quota.interval + (till - since)
  began : s.slots name n since till ≠ 0 → since ≤ s.now
  backed : s.slots name n since till ≠ 0 → s.now ≤ till →
    since + s.slots name n since till * quota.interval ≤ s.now + s.debt n

theorem Backed.keep (h : Backed quota name n since till s)
    (hslots : s'.slots name n since till = s.slots name n since till) (hnow : s.now ≤ s'.now)
    (hdebt : since ≤ s.now → s'.now ≤ till → s.now + s.debt n ≤ s'.now + s'.debt n) :
    Backed quota name n since till s' := by
  refine ⟨hslots ▸ h.bound, fun h0 => ?_, fun h0 htill => ?_⟩ <;> rw [hslots] at h0
  · exact (h.began h0).trans hnow
  · rw [hslots]
    exact (h.backed h0 (hnow.trans htill)).trans (hdebt (h.began h0) htill)

theorem Backed.step (h : Backed quota name n since till s) (he : Effect quota name s e s')
    (hfailing : s'.Failing name n since till) : Backed quota name n since till s' := by
  cases he with
  | passes =>
    refine h.keep rfl (Nat.le_add_right ..) fun _ _ => ?_
    simp only [Node.debt, AuthenticationPacing.debt]
    omega
  | quiet hnow hlog hdebt =>
    refine h.keep (by rw [slots, hlog]; rfl) hnow.ge fun _ _ => ?_
    rw [hnow, hdebt]
  | @success _ _ a _ hnow hlog hdebt =>
    refine h.keep (by rw [slots, hlog, List.countP_append]; rfl) hnow.ge fun hsince htill => ?_
    have hn : n ≠ name a := fun hn =>
      hfailing a s.now (hlog ▸ List.mem_concat_self) hn.symm ⟨hsince, hnow ▸ htill⟩
    rw [hnow, hdebt, update_of_ne hn]
  | @slot _ _ a refusal _ hnow hlog hgranted =>
    obtain ⟨hroom, hdebt⟩ := hgranted
    by_cases hin : name a = n ∧ since ≤ s.now ∧ s.now ≤ till
    · have hslots : s'.slots name n since till = s.slots name n since till + 1 := by
        simp [slots, hlog, List.countP_append, hin]
      obtain ⟨rfl, hsince, htill⟩ := hin
      have hburst : quota.tolerance + quota.interval = quota.rate * quota.interval := by
        rw [Quota.tolerance, ← Nat.succ_mul, Nat.succ_eq_add_one, Nat.sub_add_cancel quota.rate_pos]
      have hbacked : since + s.slots name (name a) since till * quota.interval ≤
          s.now + s.debt (name a) := by
        by_cases h0 : s.slots name (name a) since till = 0
        · rw [h0]
          omega
        · exact h.backed h0 htill
      refine ⟨?_, fun _ => hnow ▸ hsince, fun _ _ => ?_⟩ <;> rw [hslots, Nat.succ_mul]
      · omega
      · rw [hnow, hdebt, update_self]
        omega
    · refine h.keep ?_ hnow.ge fun _ _ => ?_
      · simp [slots, hlog, List.countP_append, hin]
      · rw [hnow, hdebt, update_apply]
        split
        · subst n
          omega
        · exact le_rfl

theorem Failing.of_effect (h : s'.Failing name n since till) (he : Effect quota name s e s') :
    s.Failing name n since till := by
  intro a time hmem
  refine h a time ?_
  cases he with
  | passes => exact hmem
  | quiet _ hlog => exact hlog ▸ hmem
  | slot _ _ hlog => exact hlog ▸ List.mem_append_left _ hmem
  | success _ _ hlog => exact hlog ▸ List.mem_append_left _ hmem

/-! ### Where debt comes from -/

def Owes (name : ι → String) (s : Node ι) (n : String) : Prop :=
  ∃ front a time back, s.log = front ++ .slot a true time :: back ∧ name a = n ∧
    ∀ b time, .success b time ∈ back → name b ≠ n

theorem Owes.append (h : s.Owes name n) (hlog : s'.log = s.log ++ [r])
    (hr : ∀ b time, r = .success b time → name b ≠ n) : s'.Owes name n := by
  obtain ⟨front, a, time, back, heq, ha, hback⟩ := h
  refine ⟨front, a, time, back ++ [r], by simp [hlog, heq], ha, fun b time hmem => ?_⟩
  rcases List.mem_append.mp hmem with hmem | hmem
  · exact hback b time hmem
  · exact hr b time (List.mem_singleton.mp hmem).symm

theorem owes_step (h : ∀ n, 0 < s.debt n → s.Owes name n) (he : Effect quota name s e s')
    (n : String) (hpos : 0 < s'.debt n) : s'.Owes name n := by
  cases he with
  | passes =>
    refine h n (lt_of_lt_of_le hpos ?_)
    simp only [Node.debt, AuthenticationPacing.debt]
    omega
  | quiet hnow hlog hdebt =>
    rw [hdebt] at hpos
    rw [Owes, hlog]
    exact h n hpos
  | @success _ _ a _ hnow hlog hdebt =>
    rw [hdebt, update_apply] at hpos
    split at hpos
    · cases hpos
    · rename_i hn
      refine (h n hpos).append hlog ?_
      rintro _ _ ⟨⟩
      exact fun ha => hn ha.symm
  | @slot _ _ a refusal _ hnow hlog hgranted hrefusal =>
    by_cases hn : n = name a ∧ refusal = true
    · obtain ⟨rfl, rfl⟩ := hn
      exact ⟨s.log, a, s.now, [], hlog, rfl, by simp⟩
    · refine (h n ?_).append hlog (by simp)
      rw [hgranted.2, update_apply] at hpos
      split at hpos
      · subst n
        exact hrefusal (by simpa using hn)
      · exact hpos

variable [DecidableEq ι]

theorem effect_of_run {P : Node ι → Prop} (h : (attempts quota name).Run {} s) (h0 : P {})
    (hstep : ∀ {s e s'}, Effect quota name s e s' → P s → P s') : P s :=
  h.inv h0 fun {s e} hs _ => hstep (effect_next s e) hs

end Node

open Node

/-- **Failed logins of one name are paced.** Without a success, the slots of a name in a window are
bounded, and every refused attempt was granted a slot of its own. Debt is changed by the attempts of
its name alone, it alone delays an attempt, and after a success it comes from a later refusal. -/
theorem failures_paced [DecidableEq ι] {quota : Quota} {name : ι → String} {s : Node ι}
    (h : (attempts quota name).Run {} s) :
    (∀ n since till, since ≤ till → 0 < quota.interval → s.Failing name n since till →
      s.slots name n since till ≤ quota.rate + (till - since) / quota.interval) ∧
    (∀ a, s.phase a = .refused →
      ∃ (k : Nat) (refusal : Bool) (time : Nat), s.log[k]? = some (.slot a refusal time)) ∧
    (∀ e a n, e.attempt = some a → name a ≠ n ∨ (s.next quota name e).log = s.log →
      (s.next quota name e).debt n = s.debt n) ∧
    (∀ a wakeAt, s.phase a = .entering wakeAt → wakeAt ≤ s.now → s.debt (name a) = 0 →
      (s.next quota name (.enter a)).phase a = .verifying .unpaced) ∧
    ∀ n, 0 < s.debt n → s.Owes name n := by
  refine ⟨fun n since till _ hi hfailing => ?_, fun a ha => ?_, fun e a n he hor => ?_,
    fun a wakeAt ha hwake hdebt => ?_, ?_⟩
  · have hbacked := effect_of_run (P := fun s => s.Failing name n since till →
      Backed quota name n since till s) h (fun _ => ⟨by simp [slots], by simp [slots], by simp [slots]⟩)
      (fun he hs hf => (hs (hf.of_effect he)).step he hf) hfailing
    have := (Nat.le_div_iff_mul_le hi).mpr (hbacked.bound.trans (Nat.add_comm ..).le)
    rw [Nat.add_mul_div_right _ _ hi] at this
    omega
  · have hpaid : s.Paid := effect_of_run h (fun a ha => by cases ha) fun he hs => hs.step he
    obtain ⟨refusal, time, hmem⟩ := hpaid a (by rw [ha]; rfl)
    obtain ⟨k, hk⟩ := List.getElem?_of_mem hmem
    exact ⟨k, refusal, time, hk⟩
  · have heffect : Effect quota name s e (s.next quota name e) := effect_next s e
    cases heffect with
    | passes => cases he
    | quiet _ _ hdebt => rw [hdebt]
    | success he' _ hlog hdebt =>
      cases he.symm.trans he'
      rw [hdebt, update_of_ne (hor.resolve_right (by simp [hlog])).symm]
    | slot he' hnow hlog hgranted =>
      cases he.symm.trans he'
      rw [hgranted.2, update_of_ne (hor.resolve_right (by simp [hlog])).symm]
  · simp only [next, ha, if_pos hwake]
    split
    all_goals
      rename_i heq
      cases beforeVerification_enters heq
    · exact absurd hdebt ‹0 < _›.ne'
    · exact update_self ..
    · exact absurd hdebt ‹0 < _›.ne'
  · exact effect_of_run h (fun n hn => by cases hn) fun he hs => owes_step hs he

-- Both attempts find no debt, are verified together and pay after they are refused.
theorem failures_paced_together :
    ∃ s, (attempts ⟨2, two_pos⟩ fun _ : Bool => "operator").Run {} s ∧
      s.slots (fun _ => "operator") "operator" 0 500000000 = 2 ∧
      s.slots (fun _ => "operator") "operator" 0 500000000 ≤ 2 + 500000000 / 500000000 := by
  have hrun := System.Run.foldl (S := attempts ⟨2, two_pos⟩ fun _ : Bool => "operator")
    [.enter false, .enter true, .judge false .rejected, .judge true .rejected, .refuse false,
      .refuse true] (fun _ _ _ => trivial) {}
  refine ⟨_, hrun, rfl, (failures_paced hrun).1 _ _ _ (by decide) (by decide) ?_⟩
  intro a time hmem
  change Record.success a time ∈ [.slot false true 0, .slot true true 0] at hmem
  simp at hmem

end Nervix.Authentication
