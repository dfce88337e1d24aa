import Nervix.Runtime.DomainClock.Lifecycle

/-!
# Reads of one generation do not run backwards

Publications that follow each other with the same generation installed share a watermark, every
answer was raised to the watermark it was read through, and the reads return in the order of those
maxima.
-/

namespace Nervix.DomainClock

open Consensus (DomainName Timestamp DomainClockAuthority)
open List

variable {ρ : Type} {s t : Node ρ}

theorem lookup_append_singleton
    (h : (l ++ [a])[n]? = some b) : l[n]? = some b ∨ n = l.length ∧ b = a := by
  rcases lt_trichotomy n l.length with hn | hn | hn
  · exact .inl (by rwa [getElem?_append_left hn] at h)
  · subst hn
    rw [getElem?_concat_length] at h
    exact .inr ⟨rfl, (Option.some.inj h).symm⟩
  · have := (List.getElem?_eq_some_iff.mp h).1
    simp only [length_append, length_singleton] at this
    omega

structure Node.Extends (s t : Node ρ) : Prop where
  published : ∃ l, t.published = s.published ++ l
  finished : ∃ l, t.finished = s.finished ++ l
  watermarks : ∀ w, s.watermarks w ≤ t.watermarks w
  startVersion : s.startVersion ≤ t.startVersion

namespace Node.Extends

theorem published_lookup (h : s.Extends t) {k : Nat} {p : DomainClockPublication ρ}
    (hp : s.published[k]? = some p) : t.published[k]? = some p := by
  obtain ⟨l, hl⟩ := h.published
  rw [hl, List.getElem?_append_left (List.getElem?_eq_some_iff.mp hp).1, hp]

theorem finished_lookup (h : s.Extends t) (hm : m < s.finished.length) :
    t.finished[m]? = s.finished[m]? := by
  obtain ⟨l, hl⟩ := h.finished
  rw [hl, getElem?_append_left hm]

theorem published_length (h : s.Extends t) : s.published.length ≤ t.published.length := by
  obtain ⟨l, hl⟩ := h.published
  simp [hl]

theorem finished_length (h : s.Extends t) : s.finished.length ≤ t.finished.length := by
  obtain ⟨l, hl⟩ := h.finished
  simp [hl]

theorem setCall (s : Node ρ) (task : TaskId) (call : Option (Call ρ)) :
    s.Extends (s.setCall task call) :=
  ⟨⟨[], (append_nil _).symm⟩, ⟨[], (append_nil _).symm⟩, fun _ => le_rfl, le_rfl⟩

end Node.Extends

structure Node.Started (s : Node ρ) (r : Reading) : Prop where
  began : r.began ≤ s.finished.length
  since : r.since < s.published.length
  before : ∀ m f a, m < r.began → s.finished[m]? = some f → f.outcome = .answered a →
    a.loaded ≤ r.since

def Node.Holds (s : Node ρ) [DecidableEq ρ] : Call ρ → Prop
  | .keep state _ => state.startVersion ≤ s.startVersion
  | .replace i _ => ∀ g, i.generation = some g → g ≤ s.startVersion
  | .swap i taskState loaded successor =>
    (∀ g, i.generation = some g → g ≤ s.startVersion) ∧
      ∃ p, s.published[loaded]? = some p ∧ p.successor i taskState (loaded + 1) = some successor
  | .load r => s.Started r
  | .observe r loaded g source watermark =>
    s.Started r ∧ r.since ≤ loaded ∧ (∀ h, r.read.bound = some h → g = h) ∧
      ∃ p, s.published[loaded]? = some p ∧ p.installation = .installed g source ∧
        p.watermark = watermark

structure Node.Answers (s : Node ρ) (f : Finished) (a : Answer) : Prop where
  bound : ∀ g, f.reading.read.bound = some g → a.generation = g
  since : f.reading.since ≤ a.loaded
  till : a.loaded ≤ f.till
  installed : ∃ p, s.published[a.loaded]? = some p ∧
    p.installation.installedGeneration = some a.generation ∧ a.now ≤ s.watermarks p.watermark

structure Node.Returned (s : Node ρ) (n : Nat) (f : Finished) : Prop where
  started : s.Started f.reading
  began : f.reading.began ≤ n
  till : f.till < s.published.length
  answers : ∀ a, f.outcome = .answered a → s.Answers f a
  origin : f.outcome ≠ .precedesOrigin
  paused : f.outcome = .paused → f.reading.read.bound = none

structure Node.Sound (s : Node ρ) [DecidableEq ρ] : Prop where
  nonempty : 0 < s.published.length
  generations : ∀ p ∈ s.published, ∀ g, p.installation.generation = some g → g ≤ s.startVersion
  shared : ∀ k p q g, s.published[k]? = some p → s.published[k + 1]? = some q →
    p.installation.installedGeneration = some g → q.installation.installedGeneration = some g →
    q.watermark = p.watermark
  calls : ∀ task call, s.calls task = some call → s.Holds call
  returned : ∀ n f, s.finished[n]? = some f → s.Returned n f
  ordered : ∀ (m n : Nat) (f f' : Finished) (a b : Answer) (p q : DomainClockPublication ρ),
    m < n → s.finished[m]? = some f → s.finished[n]? = some f' → f.outcome = .answered a →
    f'.outcome = .answered b → s.published[a.loaded]? = some p →
    s.published[b.loaded]? = some q → p.watermark = q.watermark → a.now ≤ b.now

theorem Node.Started.extends (h : s.Started r) (he : s.Extends t) : t.Started r where
  began := h.began.trans he.finished_length
  since := h.since.trans_le he.published_length
  before m f a hm hf ha :=
    h.before m f a hm ((he.finished_lookup (hm.trans_le h.began)).symm.trans hf) ha

theorem Node.Answers.extends {f : Finished} {a : Answer} (h : s.Answers f a) (he : s.Extends t) :
    t.Answers f a where
  bound := h.bound
  since := h.since
  till := h.till
  installed := by
    obtain ⟨p, hp, hg, hnow⟩ := h.installed
    exact ⟨p, he.published_lookup hp, hg, hnow.trans (he.watermarks _)⟩

theorem Node.Returned.extends (h : s.Returned n f) (he : s.Extends t) :
    t.Returned n f where
  started := h.started.extends he
  began := h.began
  till := h.till.trans_le he.published_length
  answers a ha := (h.answers a ha).extends he
  origin := h.origin
  paused := h.paused

variable [DecidableEq ρ]

theorem Node.Holds.extends {call : Call ρ} (h : s.Holds call) (he : s.Extends t) :
    t.Holds call := by
  cases call with
  | keep state authority => exact le_trans h he.startVersion
  | replace i taskState => exact fun g hg => (h g hg).trans he.startVersion
  | swap i taskState loaded successor =>
    obtain ⟨hi, p, hp, hs⟩ := h
    exact ⟨fun g hg => (hi g hg).trans he.startVersion, p, he.published_lookup hp, hs⟩
  | load r => exact Started.extends h he
  | observe r loaded g source watermark =>
    obtain ⟨hr, hl, hb, p, hp, hi⟩ := h
    exact ⟨hr.extends he, hl, hb, p, he.published_lookup hp, hi⟩

namespace Node.Sound

theorem current_lookup (h : s.Sound) : ∃ p, s.published[s.current]? = some p :=
  ⟨_, getElem?_eq_getElem (Nat.sub_lt h.nonempty Nat.zero_lt_one)⟩

theorem current_lt (h : s.Sound) : s.current < s.published.length :=
  Nat.sub_lt h.nonempty Nat.zero_lt_one

theorem watermark_eq (h : s.Sound) {k d g : Nat} {p q : DomainClockPublication ρ}
    (hp : s.published[k]? = some p) (hq : s.published[k + d]? = some q)
    (hg : ∀ j r, k ≤ j → j ≤ k + d → s.published[j]? = some r →
      r.installation.installedGeneration = some g) : q.watermark = p.watermark := by
  induction d generalizing q with
  | zero =>
    rw [Nat.add_zero, hp] at hq
    rw [Option.some.inj hq]
  | succ d ih =>
    have hlt := (List.getElem?_eq_some_iff.mp hq).1
    have hr := getElem?_eq_getElem (l := s.published) (i := k + d) (by omega)
    have hkr := ih hr fun j r hj hj' => hg j r hj (by omega)
    rw [← hkr]
    exact h.shared (k + d) _ q g hr hq (hg _ _ (by omega) (by omega) hr)
      (hg _ _ (by omega) (by omega) hq)

theorem new (domain : DomainName) : (Node.new domain : Node ρ).Sound where
  nonempty := Nat.zero_lt_one
  generations p hp g hg := by
    obtain rfl := mem_singleton.mp hp
    exact nomatch hg
  shared k p q g hp hq := by simp [Node.new] at hq
  calls task call h := nomatch h
  returned n f h := by simp [Node.new] at h
  ordered m n f f' a b p q _ h := by simp [Node.new] at h

theorem setCall (h : s.Sound) (task : TaskId) (call : Option (Call ρ))
    (hc : ∀ c, call = some c → s.Holds c) : (s.setCall task call).Sound where
  nonempty := h.nonempty
  generations := h.generations
  shared := h.shared
  calls task' call' hcall := by
    refine Holds.extends ?_ (Extends.setCall s task call)
    by_cases ht : task' = task
    · subst ht
      exact hc call' (by simpa [Node.setCall] using hcall)
    · exact h.calls task' call' (by simpa [Node.setCall, ht] using hcall)
  returned n f hf := (h.returned n f hf).extends (Extends.setCall s task call)
  ordered := h.ordered

theorem startVersion (h : s.Sound) (hv : s.startVersion ≤ version) :
    ({ s with startVersion := version } : Node ρ).Sound := by
  have he : s.Extends { s with startVersion := version } :=
    ⟨⟨[], (append_nil _).symm⟩, ⟨[], (append_nil _).symm⟩, fun _ => le_rfl, hv⟩
  exact {
    nonempty := h.nonempty
    generations := fun p hp g hg => (h.generations p hp g hg).trans hv
    shared := h.shared
    calls := fun task call hcall => (h.calls task call hcall).extends he
    returned := fun n f hf => (h.returned n f hf).extends he
    ordered := h.ordered }

theorem publish (h : s.Sound) {p q : DomainClockPublication ρ} {i : DomainClockInstallation ρ}
    {taskState : Option DomainTaskState} (hp : s.published[s.current]? = some p)
    (hq : p.successor i taskState (s.current + 1) = some q)
    (hi : ∀ g, i.generation = some g → g ≤ s.startVersion) :
    ({ s with published := s.published ++ [q] } : Node ρ).Sound := by
  have he : s.Extends { s with published := s.published ++ [q] } :=
    ⟨⟨[q], rfl⟩, ⟨[], (append_nil _).symm⟩, fun _ => le_rfl, le_rfl⟩
  obtain ⟨hqi, hshare⟩ := DomainClockPublication.successor_eq_some hq
  exact {
    nonempty := h.nonempty.trans_le he.published_length
    generations := by
      intro r hr g hg
      rcases mem_append.mp hr with hr | hr
      · exact h.generations r hr g hg
      · obtain rfl := mem_singleton.mp hr
        exact hi g (hqi ▸ hg)
    shared := by
      intro k r r' g hr hr' hg hg'
      rcases lookup_append_singleton hr' with hr' | ⟨hk, rfl⟩
      · have hlt := (List.getElem?_eq_some_iff.mp hr').1
        rcases lookup_append_singleton hr with hr | ⟨hk, -⟩
        · exact h.shared k r r' g hr hr' hg hg'
        · omega
      · obtain rfl : k = s.current := Nat.eq_sub_of_add_eq hk
        obtain rfl : p = r := Option.some.inj ((he.published_lookup hp).symm.trans hr)
        exact hshare g hg (hqi ▸ hg')
    calls := fun task call hcall => (h.calls task call hcall).extends he
    returned := fun n f hf => (h.returned n f hf).extends he
    ordered := by
      intro m n f f' a b r r' hmn hf hf' ha hb hr hr' hw
      obtain ⟨u, hu, -⟩ := ((h.returned m f hf).answers a ha).installed
      obtain ⟨v, hv, -⟩ := ((h.returned n f' hf').answers b hb).installed
      obtain rfl : u = r := Option.some.inj ((he.published_lookup hu).symm.trans hr)
      obtain rfl : v = r' := Option.some.inj ((he.published_lookup hv).symm.trans hr')
      exact h.ordered m n f f' a b u v hmn hf hf' ha hb hu hv hw }

theorem finish (h : s.Sound) {r : Reading} (outcome : ReadOutcome)
    {watermarks : WatermarkId → Timestamp} (hr : s.Started r)
    (hw : ∀ w, s.watermarks w ≤ watermarks w)
    (hanswer : ∀ a, outcome = .answered a →
      Node.Answers { s with watermarks := watermarks } ⟨r, s.current, outcome⟩ a ∧
      ∀ p, s.published[a.loaded]? = some p → s.watermarks p.watermark ≤ a.now)
    (horigin : outcome ≠ .precedesOrigin) (hpaused : outcome = .paused → r.read.bound = none) :
    ({ s with watermarks := watermarks,
              finished := s.finished ++ [⟨r, s.current, outcome⟩] } : Node ρ).Sound := by
  have he : s.Extends { s with
      watermarks := watermarks, finished := s.finished ++ [⟨r, s.current, outcome⟩] } :=
    ⟨⟨[], (append_nil _).symm⟩, ⟨_, rfl⟩, hw, le_rfl⟩
  exact {
    nonempty := h.nonempty
    generations := h.generations
    shared := h.shared
    calls := fun task call hcall => (h.calls task call hcall).extends he
    returned := by
      intro n f hf
      rcases lookup_append_singleton hf with hf | ⟨rfl, rfl⟩
      · exact (h.returned n f hf).extends he
      · exact {
          started := hr.extends he
          began := hr.began
          till := h.current_lt
          answers := fun a ha => ⟨(hanswer a ha).1.bound, (hanswer a ha).1.since,
            (hanswer a ha).1.till, (hanswer a ha).1.installed⟩
          origin := horigin
          paused := hpaused }
    ordered := by
      intro m n f f' a b p q hmn hf hf' ha hb hp hq hpq
      rcases lookup_append_singleton hf' with hf' | ⟨rfl, rfl⟩
      · have hm : m < s.finished.length := hmn.trans (List.getElem?_eq_some_iff.mp hf').1
        have hf := (he.finished_lookup hm).symm.trans hf
        exact h.ordered m n f f' a b p q hmn hf hf' ha hb hp hq hpq
      · have hf := (he.finished_lookup hmn).symm.trans hf
        obtain ⟨u, hu, -, hle⟩ := ((h.returned m f hf).answers a ha).installed
        obtain rfl : u = p := Option.some.inj (hu.symm.trans hp)
        exact (hle.trans_eq (by rw [hpq])).trans ((hanswer b hb).2 q hq) }

end Node.Sound

namespace Node

omit [DecidableEq ρ] in
theorem generation_kept : (kept p state authority).generation = some state.startVersion := by
  unfold kept
  split
  · split
    case isTrue hg => rw [← hg]; rfl
    case isFalse => exact state.generation_installation authority
  · exact state.generation_installation authority

theorem Sound.synchronize (h : s.Sound) (task : TaskId)
    (authority : DomainClockAuthority) (hv : s.startVersion ≤ state.startVersion) :
    (s.synchronize task state authority).Sound := by
  refine (h.startVersion hv).setCall task _ ?_
  intro c hc
  obtain rfl := Option.some.inj hc
  split
  · exact le_rfl
  · intro g hg
    rw [state.generation_installation] at hg
    exact (Option.some.inj hg).ge

theorem Sound.markMissing (h : s.Sound) (task : TaskId) : (s.markMissing task).Sound := by
  refine h.setCall task _ ?_
  intro c hc
  obtain rfl := Option.some.inj hc
  exact fun g hg => nomatch hg

theorem Sound.startRead (h : s.Sound) (task : TaskId) (read : ClockRead) :
    (s.startRead task read).Sound := by
  refine h.setCall task _ ?_
  intro c hc
  obtain rfl := Option.some.inj hc
  refine ⟨le_rfl, h.current_lt, fun m f a _ hf ha => ?_⟩
  have hf := h.returned m f hf
  exact (hf.answers a ha).till.trans (Nat.le_sub_one_of_lt hf.till)

variable [TimeRate ρ]

theorem Sound.raise (h : s.Sound) (task : TaskId) {r : Reading} {loaded g : Nat}
    {source : DomainClockSource ρ} {watermark : WatermarkId} {wallNow projected : Timestamp}
    (hcall : s.Holds (.observe r loaded g source watermark))
    (hnow : source.now s.domain wallNow = .ok projected) :
    (s.raise task r loaded g source watermark projected).Sound := by
  obtain ⟨hr, hl, hb, p, hp, hi, rfl⟩ := hcall
  have hloaded : loaded ≤ s.current :=
    Nat.le_sub_one_of_lt (List.getElem?_eq_some_iff.mp hp).1
  have hraised : ∀ w, s.watermarks w ≤ Function.update s.watermarks p.watermark
      (max (s.watermarks p.watermark) projected) w := by
    intro w
    by_cases hw : w = p.watermark
    · subst hw
      rw [Function.update_self]
      exact le_max_left ..
    · rw [Function.update_of_ne hw]
  obtain ⟨window, hout⟩ : ∃ window, r.outcome loaded g source
      (max (s.watermarks p.watermark) projected) = .answered ⟨g, loaded, _, window⟩ := by
    obtain ⟨window, hw⟩ := DomainClockSource.exists_window hnow
      (le_max_right (s.watermarks p.watermark) projected)
    unfold Reading.outcome
    rw [hw]
    split
    · exact ⟨window, rfl⟩
    · exact ⟨none, rfl⟩
  unfold Node.raise
  dsimp only
  rw [hout]
  refine (h.finish (.answered ⟨g, loaded, _, window⟩) hr hraised ?_ (fun h => nomatch h)
    (fun h => nomatch h)).setCall task none fun _ hc => nomatch hc
  intro a ha
  obtain rfl := ReadOutcome.answered.inj ha
  refine ⟨⟨hb, hl, hloaded, p, hp, by rw [hi]; rfl, ?_⟩, fun q hq => ?_⟩
  · dsimp only
    rw [Function.update_self]
  · obtain rfl : p = q := Option.some.inj (hp.symm.trans hq)
    exact le_max_left ..

omit [TimeRate ρ] in
theorem Sound.refuse (h : s.Sound) (task : TaskId) {r : Reading} {outcome : ReadOutcome}
    (hr : s.Started r) (hanswer : ∀ a, outcome ≠ .answered a)
    (horigin : outcome ≠ .precedesOrigin) (hpaused : outcome = .paused → r.read.bound = none) :
    (s.finish task r outcome).Sound :=
  (h.finish outcome hr (fun _ => le_rfl) (fun a ha => absurd ha (hanswer a)) horigin
    hpaused).setCall task none fun _ hc => nomatch hc

theorem Sound.advance (h : s.Sound) (task : TaskId) (wallNow : Timestamp) :
    (s.advance task wallNow).Sound := by
  obtain ⟨p, hp⟩ := h.current_lookup
  cases hc : s.calls task with
  | none => simpa only [Node.advance, hc] using h
  | some call =>
    have hcall := h.calls task call hc
    cases call with
    | keep state authority =>
      simp only [Node.advance, hc, hp]
      refine h.setCall task _ ?_
      rintro _ ⟨rfl⟩ g hg
      rw [generation_kept] at hg
      exact (Option.some.inj hg).symm.trans_le hcall
    | replace i taskState =>
      simp only [Node.advance, hc, hp]
      split
      · exact h.setCall task none fun _ hc => nomatch hc
      case h_2 successor hs =>
        refine h.setCall task _ ?_
        rintro _ ⟨rfl⟩
        exact ⟨hcall, p, hp, hs⟩
    | swap i taskState loaded successor =>
      simp only [Node.advance, hc]
      obtain ⟨hi, q, hq, hs⟩ := hcall
      split
      case isTrue hl =>
        subst hl
        exact (h.publish hq hs hi).setCall task none fun _ hc => nomatch hc
      case isFalse =>
        refine h.setCall task _ ?_
        rintro _ ⟨rfl⟩
        exact hi
    | load r =>
      simp only [Node.advance, hc, hp]
      split
      case h_1 g source hload =>
        refine h.setCall task _ ?_
        rintro _ ⟨rfl⟩
        exact ⟨hcall, Nat.le_sub_one_of_lt hcall.since,
          fun _ hb => ClockRead.generation_of_load hload hb, p, hp,
          ClockRead.installation_of_load hload, rfl⟩
      case h_2 outcome hload =>
        rcases ClockRead.load_eq_error hload with ⟨error, rfl⟩ | ⟨rfl, hb⟩
        · exact h.refuse task hcall (fun _ h => nomatch h) (fun h => nomatch h)
            fun h => nomatch h
        · exact h.refuse task hcall (fun _ h => nomatch h) (fun h => nomatch h) fun _ => hb
    | observe r loaded g source watermark =>
      simp only [Node.advance, hc]
      split
      case h_1 projected hnow => exact h.raise task hcall hnow
      case h_2 =>
        exact h.refuse task hcall.1 (fun _ h => nomatch h) (fun h => nomatch h)
          fun h => nomatch h

theorem Sound.next (h : s.Sound) (hg : (clockNode ρ).guard s e) :
    ((clockNode ρ).next s e).Sound := by
  cases e with
  | synchronize task state authority => exact h.synchronize task authority hg.2
  | markMissing task => exact h.markMissing task
  | read task read => exact h.startRead task read
  | advance task wallNow => exact h.advance task wallNow

theorem sound_of_run {domain : DomainName} (h : (clockNode ρ).Run (.new domain) s) : s.Sound :=
  h.inv (P := fun s => s.Sound) (Sound.new domain) fun h hg => Sound.next h hg

end Node

def Call.generation : Call ρ → Option Nat
  | .keep state _ => some state.startVersion
  | .replace installation _ | .swap installation _ _ _ => installation.generation
  | .load _ | .observe _ _ _ _ _ => none

structure Node.LeftBehind (g k : Nat) (s : Node ρ) : Prop where
  startVersion : g < s.startVersion
  calls : ∀ task call, s.calls task = some call → call.generation ≠ some g
  published : ∀ j p, k ≤ j → s.published[j]? = some p → p.installation.generation ≠ some g

namespace Node.LeftBehind

variable {g k : Nat}

omit [DecidableEq ρ] in
theorem setCall (h : s.LeftBehind g k) (task : TaskId) (call : Option (Call ρ))
    (hc : ∀ c, call = some c → c.generation ≠ some g) : (s.setCall task call).LeftBehind g k where
  startVersion := h.startVersion
  calls task' call' hcall := by
    by_cases ht : task' = task
    · subst ht
      exact hc call' (by simpa [Node.setCall] using hcall)
    · exact h.calls task' call' (by simpa [Node.setCall, ht] using hcall)
  published := h.published

variable [TimeRate ρ]

theorem advance (hs : s.Sound) (h : s.LeftBehind g k) (task : TaskId) (wallNow : Timestamp) :
    (s.advance task wallNow).LeftBehind g k := by
  obtain ⟨p, hp⟩ := hs.current_lookup
  have hdone : ∀ f : List Finished, ∀ w : WatermarkId → Timestamp,
      Node.LeftBehind g k { s.setCall task none with finished := f, watermarks := w } :=
    fun _ _ => ⟨h.startVersion, (h.setCall task none fun _ hc => nomatch hc).calls, h.published⟩
  cases hc : s.calls task with
  | none => simpa only [Node.advance, hc] using h
  | some call =>
    have hcall := h.calls task call hc
    cases call with
    | keep state authority =>
      simp only [Node.advance, hc, hp]
      refine h.setCall task _ ?_
      rintro _ ⟨rfl⟩
      rwa [Call.generation, generation_kept]
    | replace i taskState =>
      simp only [Node.advance, hc, hp]
      split
      · exact h.setCall task none fun _ hc => nomatch hc
      · refine h.setCall task _ ?_
        rintro _ ⟨rfl⟩
        exact hcall
    | swap i taskState loaded successor =>
      simp only [Node.advance, hc]
      split
      case isTrue =>
        refine ⟨h.startVersion, (h.setCall task none fun _ hc => nomatch hc).calls, ?_⟩
        intro j q hj hq
        obtain ⟨-, r, -, hr⟩ := hs.calls task _ hc
        rcases lookup_append_singleton hq with hq | ⟨-, rfl⟩
        · exact h.published j q hj hq
        · rw [(DomainClockPublication.successor_eq_some hr).1]
          exact hcall
      case isFalse =>
        refine h.setCall task _ ?_
        rintro _ ⟨rfl⟩
        exact hcall
    | load r =>
      simp only [Node.advance, hc, hp]
      split
      · refine h.setCall task _ ?_
        rintro _ ⟨rfl⟩
        exact fun h => nomatch h
      · exact hdone _ _
    | observe r loaded g' source watermark =>
      simp only [Node.advance, hc]
      split
      · exact hdone _ _
      · exact hdone _ _

theorem next (hs : s.Sound) (h : s.LeftBehind g k)
    (hg : (clockNode ρ).guard s e) : ((clockNode ρ).next s e).LeftBehind g k := by
  cases e with
  | synchronize task state authority =>
    have hv := h.startVersion.trans_le hg.2
    refine ⟨hv, (h.setCall task _ ?_).calls, h.published⟩
    rintro _ ⟨rfl⟩
    split
    · exact fun h => hv.ne' (Option.some.inj h)
    · rw [Call.generation, state.generation_installation]
      exact fun h => hv.ne' (Option.some.inj h)
  | markMissing task =>
    refine h.setCall task _ ?_
    rintro _ ⟨rfl⟩
    exact fun h => nomatch h
  | read task read =>
    refine h.setCall task _ ?_
    rintro _ ⟨rfl⟩
    exact fun h => nomatch h
  | advance task wallNow => exact advance hs h task wallNow

theorem of_run (hs : s.Sound)
    (hp : s.published[s.current]? = some p) (hh : p.installation.generation = some h) (hlt : g < h)
    (hcalls : ∀ task call, s.calls task = some call → call.generation ≠ some g)
    (ht : (clockNode ρ).Run s t) : t.LeftBehind g s.current := by
  have hstart : s.LeftBehind g s.current := by
    refine ⟨hlt.trans_le (hs.generations p (mem_of_getElem? hp) h hh), hcalls, ?_⟩
    intro j q hj hq
    have hlt' := (List.getElem?_eq_some_iff.mp hq).1
    obtain rfl : j = s.current := le_antisymm (Nat.le_sub_one_of_lt hlt') hj
    obtain rfl : p = q := Option.some.inj (hp.symm.trans hq)
    exact fun hg => hlt.ne' (Option.some.inj (hh.symm.trans hg))
  exact ht.rel (P := fun s => s.Sound) (R := fun _ t => t.LeftBehind g s.current) hs
    (fun h hg => Node.Sound.next h hg) hstart fun hs h hg => next hs h hg

end Node.LeftBehind

structure Node.Lawful (s : Node ρ) : Prop where
  nondecreasing : ∀ (m n : Nat) (first second : Finished) (a b : Answer),
    s.finished[m]? = some first → s.finished[n]? = some second →
    first.outcome = .answered a → second.outcome = .answered b →
    m < second.reading.began →
    (∀ k p, a.loaded ≤ k → k ≤ b.loaded → s.published[k]? = some p →
      p.installation.installedGeneration = some a.generation) → a.now ≤ b.now
  installed : ∀ f ∈ s.finished, ∀ a, f.outcome = .answered a →
    (∀ g, f.reading.read.bound = some g → a.generation = g) ∧
    f.reading.since ≤ a.loaded ∧ a.loaded ≤ f.till ∧
    ∃ p, s.published[a.loaded]? = some p ∧ p.installation.installedGeneration = some a.generation
  window : ∀ f ∈ s.finished, f.outcome ≠ .precedesOrigin

theorem Node.Sound.lawful (h : s.Sound) : s.Lawful where
  nondecreasing m n first second a b hf hf' ha hb hm hg := by
    have hsecond := h.returned n second hf'
    have hmn : m < n := hm.trans_le hsecond.began
    obtain ⟨p, hp, -⟩ := ((h.returned m first hf).answers a ha).installed
    obtain ⟨q, hq, -⟩ := (hsecond.answers b hb).installed
    have hle : a.loaded ≤ b.loaded :=
      (hsecond.started.before m first a hm hf ha).trans (hsecond.answers b hb).since
    obtain ⟨d, hd⟩ := Nat.exists_eq_add_of_le hle
    have hw := h.watermark_eq hp (hd ▸ hq) fun j r hj hj' hr => hg j r hj (hd ▸ hj') hr
    exact h.ordered m n first second a b p q hmn hf hf' ha hb hp hq hw.symm
  installed f hf a ha := by
    obtain ⟨n, hn⟩ := mem_iff_getElem?.mp hf
    have hanswer := (h.returned n f hn).answers a ha
    obtain ⟨p, hp, hi, -⟩ := hanswer.installed
    exact ⟨hanswer.bound, hanswer.since, hanswer.till, p, hp, hi⟩
  window f hf := by
    obtain ⟨n, hn⟩ := mem_iff_getElem?.mp hf
    exact (h.returned n f hn).origin

variable [TimeRate ρ]

/-- **Domain time does not run backwards.** After any run the reads of a node are lawful, and once
a larger generation is published while no call of `g` is in progress, every read through a handle
bound to `g` that starts from then on is refused. -/
theorem Node.lawful_and_refused {domain : DomainName} (hs : (clockNode ρ).Run (.new domain) s)
    (ht : (clockNode ρ).Run s t) :
    t.Lawful ∧
    ∀ g h p, s.published[s.current]? = some p → p.installation.generation = some h → g < h →
      (∀ task call, s.calls task = some call → call.generation ≠ some g) →
      ∀ f ∈ t.finished, f.reading.read.bound = some g → s.current ≤ f.reading.since →
        ∃ error, f.outcome = .refused error := by
  have hsound := sound_of_run (hs.trans ht)
  refine ⟨hsound.lawful, ?_⟩
  intro g h p hp hh hlt hcalls f hf hbound hsince
  have hleft := LeftBehind.of_run (sound_of_run hs) hp hh hlt hcalls ht
  obtain ⟨n, hn⟩ := mem_iff_getElem?.mp hf
  have hreturned := hsound.returned n f hn
  cases ho : f.outcome with
  | refused error => exact ⟨error, rfl⟩
  | paused => exact absurd ((hreturned.paused ho).symm.trans hbound) (by simp)
  | precedesOrigin => exact absurd ho hreturned.origin
  | answered a =>
    have hanswer := hreturned.answers a ho
    obtain ⟨q, hq, hi, -⟩ := hanswer.installed
    refine absurd ?_ (hleft.published a.loaded q (hsince.trans hanswer.since) hq)
    rw [DomainClockInstallation.generation_of_installed hi, hanswer.bound g hbound]

instance : TimeRate Unit := ⟨(), fun _ nanos => some nanos⟩

theorem tick_pos : 0 < 10 := by decide

def runningAt (version : Nat) (origin : Timestamp) : DomainState Unit :=
  ⟨.paced ⟨10, tick_pos⟩ 0, .running, version, "", some ⟨0, origin, ()⟩⟩

def assigned : DomainClockAuthority := .assigned 1 ⟨"node", 1⟩

def synchronized (state : DomainState Unit) (authority : DomainClockAuthority) :
    List (NodeEvent Unit) :=
  [.synchronize 0 state authority, .advance 0 0, .advance 0 0]

@[inherit_doc synchronized]
def readAt (generation : Nat) (wallNow : Timestamp) : List (NodeEvent Unit) :=
  [.read 1 (.snapshot generation), .advance 1 wallNow, .advance 1 wallNow]

def replaced : Node Unit :=
  (synchronized (runningAt 1 0) assigned ++ readAt 1 100 ++
    synchronized (runningAt 1 (-40)) assigned ++ readAt 1 20 ++
    synchronized (runningAt 2 0) assigned).foldl (clockNode Unit).next (.new "domain")

def readAgain : Node Unit := (readAt 1 120).foldl (clockNode Unit).next replaced

theorem Node.replaced_lawful :
    readAgain.Lawful ∧ ∃ f, readAgain.finished[2]? = some f ∧
      ∃ error, f.outcome = .refused error := by
  have hs : (clockNode Unit).Run (.new "domain") replaced :=
    .of_allows ⟨⟨rfl, by decide⟩, trivial, trivial, rfl, trivial, trivial, ⟨rfl, by decide⟩,
      trivial, trivial, rfl, trivial, trivial, ⟨rfl, by decide⟩, trivial, trivial, trivial⟩
  have ht : (clockNode Unit).Run replaced readAgain :=
    .of_allows ⟨rfl, trivial, trivial, trivial⟩
  have hidle : ∀ task, replaced.calls task = none
    | 0 => rfl
    | 1 => rfl
    | _ + 2 => rfl
  have hf : readAgain.finished[2]? = some _ := rfl
  have h := lawful_and_refused hs ht
  exact ⟨h.1, _, hf, h.2 1 2 _ rfl rfl (by decide)
    (fun task _ hcall => nomatch (hidle task).symm.trans hcall) _ (mem_of_getElem? hf) rfl
    (by decide)⟩

def reinstalled : Node Unit :=
  (synchronized (runningAt 1 0) assigned ++ readAt 1 100 ++
    synchronized (runningAt 1 0) (.unassigned 2) ++
    synchronized (runningAt 1 0) assigned ++ readAt 1 50).foldl (clockNode Unit).next
    (.new "domain")

def overtaken : Node Unit :=
  [.synchronize 0 (runningAt 1 0) assigned, .advance 0 0, .synchronize 2 (runningAt 2 0) assigned,
    .advance 2 0, .advance 2 0].foldl (clockNode Unit).next (.new "domain")

def republished : Node Unit :=
  (List.replicate 3 (NodeEvent.advance 0 0) ++ readAt 1 7).foldl (clockNode Unit).next overtaken

/-- A generation that was uninstalled in between starts a new watermark, so a wall clock that
stepped back shows in its reads; and a delayed call may publish an older generation over a larger
one, after which its handles are answered again. -/
theorem Node.backwards_and_answered_again :
    ((clockNode Unit).Run (.new "domain") reinstalled ∧
      ∃ first second a b, reinstalled.finished = [first, second] ∧
        first.outcome = .answered a ∧ second.outcome = .answered b ∧
        a.generation = 1 ∧ b.generation = 1 ∧ 0 < second.reading.began ∧ b.now < a.now) ∧
    (clockNode Unit).Run (.new "domain") overtaken ∧ (clockNode Unit).Run overtaken republished ∧
      ∃ p f a, overtaken.published[overtaken.current]? = some p ∧
        p.installation.generation = some 2 ∧ republished.finished = [f] ∧
        f.reading.read.bound = some 1 ∧ overtaken.current ≤ f.reading.since ∧
        f.outcome = .answered a := by
  refine ⟨⟨.of_allows ⟨⟨rfl, by decide⟩, trivial, trivial, rfl, trivial, trivial,
      ⟨rfl, by decide⟩, trivial, trivial, ⟨rfl, by decide⟩, trivial, trivial, rfl, trivial, trivial,
      trivial⟩, _, _, _, _, rfl, rfl, rfl, rfl, rfl, by decide, by decide⟩,
    .of_allows ⟨⟨rfl, by decide⟩, trivial, ⟨rfl, by decide⟩, trivial, trivial, trivial⟩,
    .of_allows ⟨trivial, trivial, trivial, rfl, trivial, trivial, trivial⟩,
    _, _, _, rfl, rfl, rfl, rfl, by decide, rfl⟩

end Nervix.DomainClock
