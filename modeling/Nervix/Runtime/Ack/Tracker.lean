import Nervix.Runtime.Ack.Release

/-!
# Trackers shared by many roots

An `AckRootTracker` counts the roots that a drain waits for (`outstanding`) and those that an
ownership handoff waits for.
-/

namespace Nervix.Ack

open AckHandoffTracking Proc Pc
open List

abbrev Trackers := Counter → Int

def TrackerOp.apply (ts : Trackers) : TrackerOp → Trackers
  | inc k => Function.update ts k (ts k + 1)
  | dec k => Function.update ts k (ts k - 1)

inductive Root
  | registering (spec : Spec) (past rest : List Counter)
  | root (spec : Spec) (cell : Cell) (procs : Multiset Proc)

def Spec.counters (spec : Spec) : List Counter :=
  spec.trackers.flatMap fun t => [⟨.outstanding, t⟩, ⟨.handoff, t⟩]

open Root

inductive RootStep (may : Holder → Op → Prop) (ts : Trackers) : Root → Trackers → Root → Prop
  | register : RootStep may ts (registering spec past (k :: rest)) (TrackerOp.apply ts (.inc k))
      (registering spec (past ++ [k]) rest)
  | create : RootStep may ts (registering spec past []) ts
      (root spec (init spec).shared (init spec).calls)
  | act {spec s p s' next ps ops} : ProcStep spec may s p s' next → s'.ledger = s.ledger ++ ops →
      RootStep may ts (root spec s (p ::ₘ ps)) (ops.foldl TrackerOp.apply ts)
        (root spec s' (next + ps))

def system (may : Holder → Op → Prop) : Machine Trackers Root where
  start _ r := ∃ spec : Spec, spec.untracked = false ∧ r = registering spec [] spec.counters
  step ts r ts' next := ∃ r', RootStep may ts r ts' r' ∧ next = {r'}

def System.init : Config Trackers Root := ⟨fun _ => 0, 0⟩

def Root.counted (k : Counter) : Root → Nat
  | registering _ past _ => past.count k
  | root spec s ps => Ack.counted spec k ⟨s, ps⟩

def Root.unreleased (t : Nat) : Root → Nat
  | registering _ past _ => past.count ⟨.outstanding, t⟩
  | root spec s _ => spec.trackers.count t - s.ledger.count (.dec ⟨.outstanding, t⟩)

def Root.waitedFor (t : Nat) : Root → Nat
  | registering .. => 0
  | root spec s ps => if WaitedFor ⟨s, ps⟩ then spec.trackers.count t else 0

def Root.Resting : Root → Prop
  | registering .. => False
  | root _ _ ps => ∀ p ∈ ps, p.resting = true

def Root.Sound : Root → Prop
  | registering spec past rest => spec.untracked = false ∧ past ++ rest = spec.counters
  | root spec s ps => spec.untracked = false ∧
      (machine spec Discipline).Reachable (Ack.init spec) ⟨s, ps⟩

variable {c : Config Trackers Root} {r : Root}

theorem sound_of_reachable (h : (system Discipline).Reachable System.init c) :
    ∀ r ∈ c.calls, r.Sound := by
  refine h.inv (by simp [System.init]) (fun ih hs r hr => ?_) fun ih hs r hr => ?_
  · rcases Multiset.mem_cons.mp hr with rfl | hr
    · obtain ⟨spec, hu, rfl⟩ := hs
      exact ⟨hu, rfl⟩
    · exact ih r hr
  · obtain ⟨r', hs, rfl⟩ := hs
    have hold := ih _ (Multiset.mem_cons_self ..)
    rcases Multiset.mem_cons.mp hr with rfl | hr
    · cases hs with
      | register => exact ⟨hold.1, by simpa using hold.2⟩
      | create => exact ⟨hold.1, .refl⟩
      | act hs => exact ⟨hold.1, hold.2.step hs⟩
    · exact ih r (Multiset.mem_cons_of_mem hr)

theorem TrackerOp.foldl_apply (ops : List TrackerOp) (ts : Trackers) (k : Counter) :
    ops.foldl TrackerOp.apply ts k = ts k + ops.count (.inc k) - ops.count (.dec k) := by
  induction ops generalizing ts with
  | nil => simp
  | cons op ops ih =>
    rw [foldl_cons, ih, count_cons, count_cons]
    cases op with
    | inc k' =>
      by_cases hk : k' = k
      · subst hk; simp [TrackerOp.apply]; omega
      · simp [TrackerOp.apply, Function.update_of_ne (Ne.symm hk), hk]
    | dec k' =>
      by_cases hk : k' = k
      · subst hk; simp [TrackerOp.apply]; omega
      · simp [TrackerOp.apply, Function.update_of_ne (Ne.symm hk), hk]

theorem Spec.count_counters (spec : Spec) (k : Counter) :
    spec.counters.count k = spec.register.count (.inc k) := by
  unfold Spec.counters Spec.register
  induction spec.trackers with
  | nil => rfl
  | cons t ts ih => simp [count_cons, ih]

theorem counted_init (spec : Spec) (k : Counter) :
    Ack.counted spec k (init spec) = spec.register.count (.inc k) := by
  have hledger : (Cell.new spec).ledger.count (.dec k) + _ + _ = spec.register.count (.inc k) :=
    Cell.ledger_new k
  have hreg : spec.register.count (.inc k) = _ ∧ (Cell.new spec).ledger.count (.dec k) = 0 :=
    Spec.count_register k
  rw [hreg.2, Nat.zero_add] at hledger
  exact hledger

theorem trackers_eq (h : (system Discipline).Reachable System.init c) (k : Counter) :
    c.shared k = weigh (Root.counted k) c.calls := by
  suffices (system Discipline).Reachable System.init c ∧
    c.shared k = weigh (Root.counted k) c.calls from this.2
  refine h.inv ⟨.refl, rfl⟩ (fun ih hs => ⟨ih.1.start hs, ?_⟩) fun ih hs => ⟨ih.1.step hs, ?_⟩
  · obtain ⟨spec, -, rfl⟩ := hs
    simpa [Root.counted] using ih.2
  · obtain ⟨hr, ih⟩ := ih
    have hsound := sound_of_reachable (hr.step hs)
    obtain ⟨r', hs, rfl⟩ := hs
    have hold := sound_of_reachable hr _ (Multiset.mem_cons_self ..)
    have hnew := hsound r' (Multiset.mem_cons_self ..)
    simp only [weigh_cons, weigh_add, weigh_singleton] at ih ⊢
    cases hs with
    | register =>
      rename_i spec past k' rest
      have happly := TrackerOp.foldl_apply [.inc k'] ‹Trackers› k
      simp only [foldl_cons, foldl_nil] at happly
      rw [happly, ih]
      simp [Root.counted, count_append, count_cons]
      omega
    | create =>
      rename_i spec past
      have hpast : past = spec.counters := by simpa using hold.2
      have hinit : Root.counted k (root spec (init spec).shared (init spec).calls) =
          spec.register.count (.inc k) := counted_init spec k
      rw [ih, hinit, hpast]
      simp [Root.counted, Spec.count_counters]
    | act hs hops =>
      have h1 := ledger_eq hold.2 k
      have h2 := ledger_eq hnew.2 k
      simp only [hops, count_append] at h2
      rw [TrackerOp.foldl_apply, ih]
      simp only [Root.counted, Ack.counted]
      simp only at h1 h2
      omega

theorem Root.counted_outstanding (h : r.Sound) (t : Nat) :
    r.counted ⟨.outstanding, t⟩ = r.unreleased t := by
  cases r with
  | registering => rfl
  | root spec s ps =>
    have heq := outstanding_eq h.2 t
    simp only [Root.counted, Root.unreleased]
    simp only at heq
    omega

theorem Root.waitedFor_le_counted (h : r.Sound) (t : Nat) :
    r.waitedFor t ≤ r.counted ⟨.handoff, t⟩ := by
  cases r with
  | registering => exact Nat.zero_le _
  | root spec s ps =>
    by_cases hw : WaitedFor ⟨s, ps⟩
    · rw [Root.waitedFor, if_pos hw]
      exact le_counted_handoff h.2 h.1 hw t
    · simp only [Root.waitedFor, if_neg hw, Nat.zero_le]

structure TrackerCounts (c : Config Trackers Root) : Prop where
  outstanding : ∀ t, c.shared ⟨.outstanding, t⟩ = weigh (Root.unreleased t) c.calls
  released : ∀ spec s ps, root spec s ps ∈ c.calls → ∀ t,
    s.ledger.count (.dec ⟨.outstanding, t⟩) ≤ spec.trackers.count t ∧
      (s.ledger.count (.dec ⟨.outstanding, t⟩) ≠ 0 → s.Released spec) ∧
      ((root spec s ps).Resting → s.Released spec →
        s.ledger.count (.dec ⟨.outstanding, t⟩) = spec.trackers.count t)
  handoff : ∀ t, weigh (Root.waitedFor t) c.calls ≤ c.shared ⟨.handoff, t⟩
  handoffAtRest : (∀ r ∈ c.calls, r.Resting) →
    ∀ t, c.shared ⟨.handoff, t⟩ = weigh (Root.waitedFor t) c.calls
  nonneg : ∀ k, 0 ≤ c.shared k
  completesOnce : ∀ spec s ps, root spec s ps ∈ c.calls → ∀ h ks o, run h ks (.complete o) ∈ ps →
    decode s.handoff ≠ .complete
  activeShare : ∀ spec s ps, root spec s ps ∈ c.calls → ∀ h ks r word,
    run h ks (.removeCas r word) ∈ ps → decode word ≠ .tracking 0

theorem ProcStep.ledger_append {spec : Spec} {may : Holder → Op → Prop} {s s' : Cell} {p : Proc}
    {next : Multiset Proc} (hs : ProcStep spec may s p s' next) :
    ∃ ops, s'.ledger = s.ledger ++ ops := by
  cases hs with
  | discard | count | release | discardCompletion => exact ⟨_, rfl⟩
  | _ => exact ⟨[], (append_nil _).symm⟩

def Cell.trackers (s : Cell) : Trackers :=
  fun k => s.ledger.count (.inc k) - s.ledger.count (.dec k)

theorem Cell.trackers_append {s s' : Cell} (h : s'.ledger = s.ledger ++ ops) :
    ops.foldl TrackerOp.apply s.trackers = s'.trackers := by
  funext k
  rw [TrackerOp.foldl_apply]
  simp only [Cell.trackers, h, count_append]
  omega

theorem registering_reachable (spec : Spec) :
    ∀ (rest past : List Counter) (ts : Trackers),
      (system may).Reachable ⟨ts, {registering spec past rest}⟩
        ⟨(rest.map TrackerOp.inc).foldl TrackerOp.apply ts, {registering spec (past ++ rest) []}⟩
  | [], past, ts => by simpa using Machine.Reachable.refl
  | k :: rest, past, ts => by
    have h : (system may).Reachable ⟨ts, {registering spec past (k :: rest)}⟩
      ⟨ts, registering spec past (k :: rest) ::ₘ 0⟩ := .refl
    have h := h.step₁ ⟨_, .register, rfl⟩
    simpa using h.trans (registering_reachable spec rest (past ++ [k]) _)

theorem system_of_root {may : Holder → Op → Prop} {spec : Spec} {c : Config Cell Proc}
    (hu : spec.untracked = false) (h : (machine spec may).Reachable (init spec) c) :
    (system may).Reachable System.init ⟨c.shared.trackers, {root spec c.shared c.calls}⟩ := by
  refine h.inv ?_ (fun _ hs => hs.elim) fun ih hs => ?_
  · have h : (system may).Reachable System.init System.init := .refl
    have h := h.start (c := registering spec [] spec.counters) ⟨spec, hu, rfl⟩
    have h := h.trans (registering_reachable spec spec.counters [] _)
    have h := h.step₁ ⟨_, .create, rfl⟩
    have hts : (spec.counters.map TrackerOp.inc).foldl TrackerOp.apply (fun _ => 0) =
        (Cell.new spec).trackers := by
      have hreg : spec.counters.map TrackerOp.inc = spec.register := by
        simp [Spec.counters, Spec.register, map_flatMap]
      rw [hreg]
      funext k
      rw [TrackerOp.foldl_apply]
      simp [Cell.trackers, Cell.new]
    rw [hts] at h
    exact h
  · obtain ⟨ops, hops⟩ := hs.ledger_append
    have h : (system may).Reachable System.init ⟨_, root spec _ _ ::ₘ 0⟩ := ih
    have h := h.step₁ ⟨_, .act hs hops, rfl⟩
    rw [Cell.trackers_append hops] at h
    exact h

theorem two_shares_reachable (hmay : may ⟨.owned, 0⟩ (.attach 1)) :
    ∃ s, (machine ⟨[0], .atResolution⟩ may).Reachable (init ⟨[0], .atResolution⟩)
        ⟨s, holder ⟨.owned, 0⟩ ::ₘ holder ⟨.owned, 0⟩ ::ₘ {completion none}⟩ ∧
      s.pending = 2 ∧ decode s.handoff = .tracking 2 ∧ s.dropped = false ∧
      s.trackers ⟨.handoff, 0⟩ = 1 := by
  have h : (machine ⟨[0], .atResolution⟩ may).Reachable (init ⟨[0], .atResolution⟩)
    (init ⟨[0], .atResolution⟩) := .refl
  have h := h.step₁ (.call (.attach 1) Nat.one_pos hmay)
  have h := h.step₁ .count
  have h := h.step₁ .counted
  have h := h.step₁ .reserveLoad
  have h := h.step₁ (.reserve (by decide) (by decide) rfl)
  have h := h.step₁ .publishLoad
  have h := h.step₁ (.publishJoined (a := 1) rfl (by decide) rfl rfl)
  have h := h.step₁ .release
  have h := h.step .attached
  exact ⟨_, h, rfl, rfl, rfl, rfl⟩

theorem parked_success_reachable :
    ∃ c, (machine ⟨[0], .atResolution⟩ Anything).Reachable (init ⟨[0], .atResolution⟩) c ∧
      c.shared.trackers ⟨.handoff, 0⟩ = 0 ∧ WaitedFor c := by
  obtain ⟨s, h, hpending, hhandoff, hdropped, htrackers⟩ :
    ∃ s, (machine ⟨[0], .atResolution⟩ Anything).Reachable _ _ ∧ _ := two_shares_reachable trivial
  have h := h.step₁ (.call .park trivial trivial)
  have h := h.step₁ (.parkUnresolved (by simp [hpending]))
  have h := h.step₁ .removeLoad
  have h := h.step₁ (.remove hhandoff rfl)
  have h := h.step₁ .return
  have h := h.step₁ (.call .succeed trivial trivial)
  have h := h.step₁ .resolveLoad
  simp only [hpending] at h
  have h := h.step₁ (.resolvePending rfl)
  have h := h.step₁ .removeLoad
  have h := h.step₁ (.removeWentIdle rfl rfl)
  have h := h.step₁ .release
  refine ⟨_, h, ?_, .inl ⟨nofun, hdropped, Nat.one_pos⟩⟩
  simp only [Cell.trackers] at htrackers
  simp [Cell.trackers, count_append]
  omega

end Nervix.Ack
