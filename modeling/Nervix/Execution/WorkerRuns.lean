import Nervix.Execution.WorkerPool
import Nervix.Theory.Trace

/-!
# Runs of a worker class

Every submission stands in one place, so that jobs are neither lost nor run twice, and every place
and charge goes back once.
-/

namespace Nervix.Execution

open List

variable {a sub : Submission} {l : List Submission} {workers : Nat}

theorem count_cons_eq : (c :: l).count a = [c].count a + l.count a :=
  (count_append : ([c] ++ l).count a = _)

theorem count_erase_add (h : sub ∈ l) (a : Submission) :
    (l.erase sub).count a + [sub].count a = l.count a := by
  rw [(perm_cons_erase h).count_eq a, count_cons_eq (l := l.erase sub), Nat.add_comm]

theorem length_erase_add (h : sub ∈ l) : (l.erase sub).length + 1 = l.length :=
  (perm_cons_erase h).length_eq.symm

theorem count_concat_le (h : ∀ a, l.count a ≤ 1) (hnew : sub ∉ l) (a : Submission) :
    l.count a + [sub].count a ≤ 1 := by
  rw [count_singleton]
  split
  · rename_i heq
    obtain rfl := eq_of_beq heq
    have := count_eq_zero.mpr hnew
    omega
  · exact h a

namespace Board

variable {b : Board}

structure Numbered (ids : Submission → Option Nat) (nextId : Nat)
    (entries : List (Nat × Submission)) : Prop where
  queue : ∀ e ∈ entries, ids e.2 = some e.1
  lt : ∀ a id, ids a = some id → id < nextId
  inj : ∀ a c id, ids a = some id → ids c = some id → a = c

namespace Numbered

variable {ids : Submission → Option Nat} {nextId : Nat} {entries entries' : List (Nat × Submission)}

theorem mono (h : Numbered ids nextId entries) (hsub : entries' ⊆ entries) :
    Numbered ids nextId entries' :=
  { h with queue := fun e he => h.queue e (hsub he) }

theorem concat (h : Numbered ids nextId entries) (hnew : sub ∉ entries.map Prod.snd) :
    Numbered (Function.update ids sub (some nextId)) (nextId + 1) (entries ++ [(nextId, sub)]) where
  queue e he := by
    rcases mem_append.mp he with he | he
    · have hne : e.2 ≠ sub := fun heq => hnew (heq ▸ mem_map_of_mem he)
      rw [Function.update_of_ne hne]
      exact h.queue e he
    · obtain rfl := mem_singleton.mp he
      exact Function.update_self ..
  lt a id ha := by
    rw [Function.update_apply] at ha
    split at ha
    · cases ha
      exact Nat.lt_succ_self _
    · exact Nat.lt_succ_of_lt (h.lt a id ha)
  inj a c id ha hc := by
    have hlt := h.lt
    rw [Function.update_apply] at ha hc
    split at ha <;> split at hc
    · rw [‹a = sub›, ‹c = sub›]
    · cases ha
      exact absurd (hlt c _ hc) (Nat.lt_irrefl _)
    · cases hc
      exact absurd (hlt a _ ha) (Nat.lt_irrefl _)
    · exact h.inj a c id ha hc

end Numbered

structure Tally (b : Board) (a : Submission) : Prop where
  once : b.entered.count a ≤ 1
  entered : b.entered.count a = b.queue.count a + b.destroying.count a + b.destroyed.count a +
    b.taken.count a
  taken : b.taken.count a = b.starting.count a + b.selected.count a + b.begun.count a
  begun : b.begun.count a = b.executing.count a + (b.outcomes.map Prod.fst).count a
  outcomes : (b.outcomes.map Prod.fst).count a = b.executed.count a + b.finished.count a

structure Sound (workers : Nat) (b : Board) : Prop where
  tally : ∀ a, b.Tally a
  ordered : b.entered.filter (fun a => a ∉ b.withdrawn) = b.taken ++ b.queue
  held : b.places.length = b.running
  running_le : b.running ≤ workers
  busy : b.queue ≠ [] → b.running = workers
  numbered : Numbered b.ids b.nextId b.jobs.entries

section
variable (h : b.Sound workers)
include h

theorem Sound.stage (a : Submission) :
    b.queue.count a + b.destroying.count a + b.destroyed.count a + b.starting.count a +
      b.selected.count a + b.executing.count a + b.executed.count a + b.finished.count a =
        b.entered.count a ∧ b.entered.count a ≤ 1 := by
  obtain ⟨⟩ := h.tally a
  omega

theorem Sound.entries_insert (sub : Submission) :
    (b.jobs.insert b.nextId sub).entries = b.jobs.entries ++ [(b.nextId, sub)] :=
  SortedMap.entries_insert_of_lt fun e he => h.numbered.lt e.2 e.1 (h.numbered.queue e he)

theorem Sound.queue_insert (sub : Submission) :
    (b.jobs.insert b.nextId sub).entries.map Prod.snd = b.queue ++ [sub] := by
  rw [h.entries_insert, map_append]
  rfl

theorem Sound.enqueue (hnew : sub ∉ b.entered) : (b.enqueue workers sub).Sound workers := by
  have hzero := count_eq_zero.mpr hnew
  have hstage := h.stage sub
  have hqueue : sub ∉ b.queue := by
    rw [← count_eq_zero]
    omega
  have hordered : (b.entered ++ [sub]).filter (fun a => a ∉ b.withdrawn) =
      b.taken ++ b.queue ++ [sub] := by
    have hkept : sub ∉ b.withdrawn := by
      rw [withdrawn, ← count_eq_zero, count_append]
      omega
    rw [filter_append, h.ordered]
    simp only [filter_singleton, hkept, not_false_eq_true, decide_true, cond_true]
  have honce := count_concat_le (fun a => (h.tally a).once) hnew
  have hnumbered := h.numbered.concat hqueue
  have hheld := h.held
  unfold Board.enqueue
  dsimp only
  split
  case isTrue hidle =>
    have hempty : b.jobs.entries = [] := by
      by_contra hne
      exact absurd (h.busy (mt map_eq_nil_iff.mp hne)) (Nat.ne_of_lt hidle)
    have hnil : b.queue = [] := by rw [queue, hempty, map_nil]
    obtain ⟨hfirst, hrest⟩ := SortedMap.popFirst_of_cons
      ((h.entries_insert sub).trans (by rw [hempty]; rfl))
    rw [← Prod.eta (b.jobs.insert b.nextId sub).popFirst, hfirst]
    refine { h with tally := fun a => ?_, ordered := ?_, held := ?_, running_le := hidle,
                    busy := ?_, numbered := hnumbered.mono (by simp only [hrest, nil_subset]) }
    · have := honce a
      obtain ⟨⟩ := h.tally a
      constructor <;> simp only [queue, hempty, hrest, map_nil, count_nil,
        count_append] at * <;> omega
    · rw [hnil, append_nil] at hordered
      simp only [queue, hrest, map_nil, append_nil]
      exact hordered
    · simp only [places, length_append, length_singleton] at hheld ⊢
      omega
    · simp only [queue, hrest, map_nil, ne_eq, not_true_eq_false, false_implies]
  case isFalse hfull =>
    refine { h with tally := fun a => ?_, ordered := ?_, busy := fun _ => ?_, numbered := ?_ }
    · have := honce a
      obtain ⟨⟩ := h.tally a
      constructor <;> simp only [queue, h.queue_insert, count_append] at * <;> omega
    · rw [queue, h.queue_insert, ← append_assoc]
      exact hordered
    · exact Nat.le_antisymm h.running_le (Nat.le_of_not_lt hfull)
    · simp only [h.entries_insert]
      exact hnumbered

theorem Sound.withdraw_eq (hsub : sub ∈ b.queue) :
    ∃ id, (id, sub) ∈ b.jobs.entries ∧ b.withdraw sub =
      { b with jobs := b.jobs.remove id, destroying := b.destroying ++ [sub] } := by
  obtain ⟨⟨id, _⟩, hmem, rfl⟩ := mem_map.mp hsub
  refine ⟨id, hmem, ?_⟩
  rw [withdraw, h.numbered.queue _ hmem]
  simp only [SortedMap.get_eq_some_iff.mpr hmem]

theorem Sound.withdraw_of_not_mem (hsub : sub ∉ b.queue) : b.withdraw sub = b := by
  unfold withdraw
  split
  case h_1 => rfl
  case h_2 id hid =>
    cases hget : b.jobs.get id with
    | none => rfl
    | some cancelled =>
      have hmem := SortedMap.get_eq_some_iff.mp hget
      obtain rfl := h.numbered.inj _ _ id hid (h.numbered.queue _ hmem)
      exact absurd (mem_map_of_mem hmem) hsub

theorem Sound.queue_remove {id : Nat} (hmem : (id, sub) ∈ b.jobs.entries) :
    (b.jobs.remove id).entries.map Prod.snd = b.queue.filter (fun a => a ≠ sub) := by
  rw [queue, filter_map, SortedMap.remove]
  congr 1
  refine filter_congr fun e he => decide_eq_decide.mpr (not_congr ⟨?_, fun heq => ?_⟩)
  · rintro rfl
    exact SortedMap.eq_of_mem he hmem
  · have hid := h.numbered.queue _ hmem
    rw [← heq, h.numbered.queue e he] at hid
    exact Option.some.inj hid

theorem Sound.withdraw (sub : Submission) : (b.withdraw sub).Sound workers := by
  by_cases hsub : sub ∈ b.queue
  case neg => rwa [h.withdraw_of_not_mem hsub]
  obtain ⟨id, hmem, heq⟩ := h.withdraw_eq hsub
  have hperm : b.queue.Perm (sub :: (b.jobs.remove id).entries.map Prod.snd) :=
    (SortedMap.perm_remove hmem).map Prod.snd
  rw [heq]
  refine { h with tally := fun a => ?_, ordered := ?_, busy := fun _ => h.busy
                    (ne_nil_of_mem hsub), numbered := h.numbered.mono fun e he =>
                      (SortedMap.mem_remove.mp he).1 }
  · have := hperm.count_eq a
    rw [count_cons_eq] at this
    obtain ⟨⟩ := h.tally a
    constructor <;> simp only [queue, count_append] at * <;> omega
  · have hkeep : b.taken.filter (fun a => a ≠ sub) = b.taken := by
      refine filter_eq_self.mpr fun a ha => decide_eq_true ?_
      rintro rfl
      have := count_pos_iff.mpr hsub
      have := count_pos_iff.mpr ha
      obtain ⟨⟩ := h.tally a
      omega
    rw [queue, h.queue_remove hmem, ← hkeep, ← filter_append, ← h.ordered, filter_filter]
    refine filter_congr fun a _ => ?_
    simp only [withdrawn, mem_append, mem_singleton, ← Bool.decide_and]
    exact decide_eq_decide.mpr (by tauto)

end

theorem perm_withdrawn_destroy (hsub : sub ∈ b.destroying) :
    (b.destroy sub).withdrawn.Perm b.withdrawn := by
  refine perm_iff_count.mpr fun a => ?_
  have := count_erase_add hsub a
  simp only [destroy, withdrawn, count_append]
  omega

section
variable (h : b.Sound workers)
include h

theorem Sound.destroy (hsub : sub ∈ b.destroying) :
    (b.destroy sub).Sound workers := by
  refine { h with tally := fun a => ?_, ordered := ?_ }
  · have := count_erase_add hsub a
    obtain ⟨⟩ := h.tally a
    constructor <;> simp only [Board.destroy, queue, count_append] at * <;> omega
  · refine (filter_congr fun a _ => decide_eq_decide.mpr (not_congr ?_)).trans h.ordered
    exact (perm_withdrawn_destroy hsub).mem_iff

theorem Sound.start (hsub : sub ∈ b.starting) :
    (b.start sub).Sound workers := by
  refine { h with tally := fun a => ?_, held := ?_ }
  · have := count_erase_add hsub a
    obtain ⟨⟩ := h.tally a
    constructor <;> simp only [Board.start, queue, count_append] at * <;> omega
  · have := length_erase_add hsub
    have := h.held
    simp only [Board.start, places, length_append, length_singleton] at *
    omega

theorem Sound.runNext (hsub : sub ∈ b.selected) :
    (b.runNext sub).Sound workers := by
  refine { h with tally := fun a => ?_, held := ?_ }
  · have := count_erase_add hsub a
    obtain ⟨⟩ := h.tally a
    constructor <;> simp only [Board.runNext, queue, count_append] at * <;> omega
  · have := length_erase_add hsub
    have := h.held
    simp only [Board.runNext, places, length_append, length_singleton] at *
    omega

theorem Sound.complete (hsub : sub ∈ b.executing) (className : String)
    (panicked : Bool) : (b.complete className sub panicked).Sound workers := by
  refine { h with tally := fun a => ?_, held := ?_ }
  · have := count_erase_add hsub a
    obtain ⟨⟩ := h.tally a
    constructor <;> simp only [Board.complete, queue, map_append, map_cons, map_nil,
      count_append] at * <;> omega
  · have := length_erase_add hsub
    have := h.held
    simp only [Board.complete, places, length_append, length_singleton] at *
    omega

theorem Sound.advance (hsub : sub ∈ b.executed) :
    (b.advance sub).Sound workers := by
  have hlen := length_erase_add hsub
  have hheld := h.held
  have hle := h.running_le
  unfold Board.advance
  dsimp only
  cases hentries : b.jobs.entries with
  | nil =>
    rw [← Prod.eta b.jobs.popFirst, SortedMap.popFirst_of_nil hentries]
    have hnil : b.queue = [] := by rw [queue, hentries, map_nil]
    refine { h with tally := fun a => ?_, held := ?_, running_le := ?_,
                    busy := fun hne => absurd hnil hne }
    · have := count_erase_add hsub a
      obtain ⟨⟩ := h.tally a
      constructor <;> simp only [queue, count_append] at * <;> omega
    · simp only [places, length_append] at hheld ⊢
      omega
    · exact Nat.le_trans (Nat.sub_le _ _) hle
  | cons e rest =>
    obtain ⟨hfirst, hrest⟩ := SortedMap.popFirst_of_cons hentries
    rw [← Prod.eta b.jobs.popFirst, hfirst]
    have hqueue : b.queue = e.2 :: rest.map Prod.snd := by rw [queue, hentries, map_cons]
    refine { h with tally := fun a => ?_, ordered := ?_, held := ?_,
                    busy := fun _ => h.busy (hqueue ▸ cons_ne_nil _ _), numbered :=
                      h.numbered.mono (by rw [hrest, hentries]; exact subset_cons_self e rest) }
    · have := count_erase_add hsub a
      obtain ⟨_, hentered, _, _, _⟩ := h.tally a
      rw [hqueue, count_cons_eq] at hentered
      constructor <;> simp only [queue, hrest, count_append] <;> omega
    · refine h.ordered.trans ?_
      simp only [queue, hrest, hentries, map_cons, append_assoc, singleton_append]
    · simp only [places, length_append, length_singleton] at hheld ⊢
      omega

end

def waiting (b : Board) : Nat := b.queue.length + b.destroying.length + b.starting.length

structure Moves (b b' : Board) : Prop where
  destroyed : b'.destroyed = b.destroyed := by rfl
  selected : b'.selected = b.selected := by rfl
  begun : b'.begun = b.begun := by rfl
  outcomes : b'.outcomes = b.outcomes := by rfl

theorem Sound.moves_enqueue (h : b.Sound workers) (sub : Submission) :
    b.Moves (b.enqueue workers sub) ∧ (b.enqueue workers sub).entered = b.entered ++ [sub] ∧
      (b.enqueue workers sub).waiting = b.waiting + 1 := by
  have hqueue := h.queue_insert sub
  unfold Board.enqueue
  dsimp only
  split
  · cases hentries : (b.jobs.insert b.nextId sub).entries with
    | nil =>
      rw [hentries] at hqueue
      exact absurd hqueue.symm (append_ne_nil_of_right_ne_nil _ (cons_ne_nil _ _))
    | cons e rest =>
      obtain ⟨hfirst, hrest⟩ := SortedMap.popFirst_of_cons hentries
      rw [← Prod.eta (b.jobs.insert b.nextId sub).popFirst, hfirst]
      refine ⟨{}, rfl, ?_⟩
      have hlen := congrArg List.length hqueue
      simp only [waiting, queue, hentries, hrest, length_map, length_append,
        length_cons, length_nil] at hlen ⊢
      omega
  · refine ⟨{}, rfl, ?_⟩
    simp only [waiting, queue, h.entries_insert, length_map, length_append, length_singleton]
    omega

theorem Sound.moves_withdraw (h : b.Sound workers) (sub : Submission) :
    b.Moves (b.withdraw sub) ∧ (b.withdraw sub).entered = b.entered ∧
      (b.withdraw sub).waiting = b.waiting := by
  by_cases hsub : sub ∈ b.queue
  case neg =>
    rw [h.withdraw_of_not_mem hsub]
    exact ⟨{}, rfl, rfl⟩
  obtain ⟨id, hmem, heq⟩ := h.withdraw_eq hsub
  rw [heq]
  refine ⟨{}, rfl, ?_⟩
  have hlen := (SortedMap.perm_remove hmem).length_eq
  simp only [waiting, queue, length_map, length_append, length_cons, length_nil] at hlen ⊢
  omega

theorem moves_advance (b : Board) (sub : Submission) :
    b.Moves (b.advance sub) ∧ (b.advance sub).entered = b.entered ∧
      (b.advance sub).waiting = b.waiting := by
  unfold Board.advance
  dsimp only
  cases hentries : b.jobs.entries with
  | nil =>
    rw [← Prod.eta b.jobs.popFirst, SortedMap.popFirst_of_nil hentries]
    exact ⟨{}, rfl, rfl⟩
  | cons e rest =>
    obtain ⟨hfirst, hrest⟩ := SortedMap.popFirst_of_cons hentries
    rw [← Prod.eta b.jobs.popFirst, hfirst]
    refine ⟨{}, rfl, ?_⟩
    simp only [waiting, queue, hentries, hrest, length_map, length_append, length_cons, length_nil]
    omega

end Board

namespace WorkerPool

variable {s : WorkerPool} {k : Nat}

structure Tally (s : WorkerPool) (a : Submission) : Prop where
  once : s.submitted.count a ≤ 1
  submitted : s.submitted.count a = s.waiters.count a + s.granted.count a + s.arriving.count a +
    s.board.entered.count a + (s.refusals.map Prod.fst).count a + s.gaveUp.count a
  returnedPlaces : s.returnedPlaces.count a = s.board.destroyed.count a +
    s.board.selected.count a + s.board.begun.count a
  returnedCharges : s.returnedCharges.count a = (s.refusals.map Prod.fst).count a +
    s.gaveUp.count a + s.board.destroyed.count a + (s.board.outcomes.map Prod.fst).count a

structure Owes (k : Nat) (s : WorkerPool) : Prop where
  board : s.board.Sound s.limits.workers
  tally : ∀ a, s.Tally a
  permits : s.permits + k + s.granted.length + s.pending = s.limits.queueCapacity
  pending : s.pending = s.arriving.length + s.board.waiting
  waiting : s.waiters ≠ [] → s.permits = 0

abbrev Sound : WorkerPool → Prop := Owes 0

theorem Owes.releasePermit (h : s.Owes (k + 1)) : s.releasePermit.Owes k := by
  have hpermits := h.permits
  unfold WorkerPool.releasePermit
  split
  case h_1 hnil =>
    refine { h with tally := fun a => { h.tally a with }, permits := ?_,
                    waiting := fun hw => absurd hnil hw }
    simp only
    omega
  case h_2 w ws hcons =>
    have hzero : s.permits = 0 := h.waiting (hcons ▸ cons_ne_nil w ws)
    refine { h with tally := fun a => ?_, permits := ?_, waiting := fun _ => hzero }
    · obtain ⟨_, hsubmitted, _, _⟩ := h.tally a
      rw [hcons, count_cons_eq] at hsubmitted
      constructor <;> simp only [count_append] <;> omega
    · simp only [length_append, length_singleton]
      omega

section
variable (h : s.Sound)
include h

theorem Owes.enterQueue (hnew : sub ∉ s.submitted) (admission : QueueAdmission) :
    (s.enterQueue sub admission).Sound := by
  have honce := count_concat_le (fun a => (h.tally a).once) hnew
  unfold WorkerPool.enterQueue
  dsimp only
  split
  case isTrue hzero =>
    cases admission with
    | refuseWhenFull =>
      refine { h with tally := fun a => ?_ }
      have := honce a
      obtain ⟨⟩ := h.tally a
      constructor <;> simp only [count_append, map_append, map_cons, map_nil] <;> omega
    | waitForPlace =>
      refine { h with tally := fun a => ?_, waiting := fun _ => hzero }
      have := honce a
      obtain ⟨⟩ := h.tally a
      constructor <;> simp only [count_append] <;> omega
  case isFalse hpos =>
    have hwaiters : s.waiters = [] := by
      by_contra hne
      exact hpos (h.waiting hne)
    have hpermits := h.permits
    have hpending := h.pending
    refine { h with tally := fun a => ?_, permits := ?_, pending := ?_,
                    waiting := fun hne => absurd hwaiters hne }
    · have := honce a
      obtain ⟨⟩ := h.tally a
      constructor <;> simp only [count_append] <;> omega
    · simp only
      omega
    · simp only [length_append, length_singleton]
      omega

theorem Owes.poll (hsub : sub ∈ s.granted) : (s.poll sub).Sound := by
  have hlen := length_erase_add hsub
  have hpermits := h.permits
  have hpending := h.pending
  refine { h with tally := fun a => ?_, permits := ?_, pending := ?_ }
  · have := count_erase_add hsub a
    obtain ⟨⟩ := h.tally a
    constructor <;> simp only [WorkerPool.poll, count_append] <;> omega
  · simp only [WorkerPool.poll]
    omega
  · simp only [WorkerPool.poll, length_append, length_singleton]
    omega

theorem Owes.giveUp (hsub : sub ∈ s.waiters ∨ sub ∈ s.granted) : (s.giveUp sub).Sound := by
  unfold WorkerPool.giveUp
  dsimp only
  split
  case isTrue hwaits =>
    refine { h with tally := fun a => ?_, waiting := fun _ => h.waiting (ne_nil_of_mem hwaits) }
    have := count_erase_add hwaits a
    obtain ⟨⟩ := h.tally a
    constructor <;> simp only [count_append] <;> omega
  case isFalse hnot =>
    have hsub := hsub.resolve_left hnot
    refine Owes.releasePermit { h with tally := fun a => ?_, permits := ?_ }
    · have := count_erase_add hsub a
      obtain ⟨⟩ := h.tally a
      constructor <;> simp only [count_append] <;> omega
    · have := length_erase_add hsub
      have := h.permits
      simp only
      omega

theorem Owes.enqueue (hsub : sub ∈ s.arriving) : (s.enqueue sub).Sound := by
  have hnew : sub ∉ s.board.entered := by
    have := count_pos_iff.mpr hsub
    obtain ⟨⟩ := h.tally sub
    rw [← count_eq_zero]
    omega
  obtain ⟨hmoves, hentered, hwaiting⟩ := h.board.moves_enqueue sub
  refine { h with board := h.board.enqueue hnew, tally := fun a => ?_, pending := ?_ }
  · have := count_erase_add hsub a
    obtain ⟨⟩ := h.tally a
    constructor <;> simp only [WorkerPool.enqueue, hentered, hmoves.destroyed, hmoves.selected,
      hmoves.begun, hmoves.outcomes, count_append] <;> omega
  · have := length_erase_add hsub
    have := h.pending
    simp only [WorkerPool.enqueue, hwaiting]
    omega

theorem Owes.withdraw (sub : Submission) : Sound { s with board := s.board.withdraw sub } := by
  obtain ⟨hmoves, hentered, hwaiting⟩ := h.board.moves_withdraw sub
  refine { h with board := h.board.withdraw sub, tally := fun a => ?_, pending := ?_ }
  · obtain ⟨⟩ := h.tally a
    constructor <;> simp only [hentered, hmoves.destroyed, hmoves.selected, hmoves.begun,
      hmoves.outcomes] <;> omega
  · simp only [hwaiting]
    exact h.pending

theorem Owes.destroy (hsub : sub ∈ s.board.destroying) : (s.destroy sub).Sound := by
  have := length_erase_add hsub
  have hpermits := h.permits
  have hpending := h.pending
  refine Owes.releasePermit { h with
    board := h.board.destroy hsub, tally := fun a => ?_, permits := ?_, pending := ?_ }
  · obtain ⟨⟩ := h.tally a
    constructor <;> simp only [Board.destroy, count_append] <;> omega
  all_goals
    simp only [Board.waiting, Board.destroy, Board.queue] at *
    omega

theorem Owes.work (hsub : sub ∈ s.board.places) (panicked : Bool) :
    (s.work sub panicked).Sound := by
  have hpermits := h.permits
  have hpending := h.pending
  unfold WorkerPool.work
  split_ifs with hstarting hselected hexecuting
  · have := length_erase_add hstarting
    refine Owes.releasePermit { h with
      board := h.board.start hstarting, tally := fun a => ?_, permits := ?_, pending := ?_ }
    · obtain ⟨⟩ := h.tally a
      constructor <;> simp only [Board.start, count_append] <;> omega
    all_goals
      simp only [Board.waiting, Board.start, Board.queue] at *
      omega
  · refine { h with board := h.board.runNext hselected, tally := fun a => ?_ }
    have := count_erase_add hselected a
    obtain ⟨⟩ := h.tally a
    constructor <;> simp only [Board.runNext, count_append] <;> omega
  · refine { h with board := h.board.complete hexecuting _ panicked, tally := fun a => ?_ }
    obtain ⟨⟩ := h.tally a
    constructor <;> simp only [Board.complete, map_append, map_cons, map_nil,
      count_append] <;> omega
  · simp only [Board.places, mem_append, hstarting, hselected, hexecuting, false_or] at hsub
    obtain ⟨hmoves, hentered, hwaiting⟩ := s.board.moves_advance sub
    refine { h with board := h.board.advance hsub, tally := fun a => ?_, pending := ?_ }
    · obtain ⟨⟩ := h.tally a
      constructor <;> simp only [hentered, hmoves.destroyed, hmoves.selected, hmoves.begun,
        hmoves.outcomes] <;> omega
    · simp only [hwaiting]
      exact hpending

theorem Sound.next (hg : workerPool.guard s i) : (workerPool.next s i).Sound := by
  cases i with
  | submit sub admission => exact h.enterQueue hg admission
  | poll sub => exact h.poll hg
  | giveUp sub => exact h.giveUp hg
  | enqueue sub => exact h.enqueue hg
  | withdraw sub => exact h.withdraw sub
  | destroy sub => exact h.destroy hg
  | work sub panicked => exact h.work hg panicked

end

theorem sound_new (limits : WorkerLimits) : (new limits).Sound where
  board :=
    { tally := fun _ => ⟨Nat.zero_le 1, rfl, rfl, rfl, rfl⟩
      ordered := rfl
      held := rfl
      running_le := Nat.zero_le _
      busy := fun h => absurd rfl h
      numbered :=
        { queue := fun _ he => absurd he not_mem_nil
          lt := fun _ _ h => by cases h
          inj := fun _ _ _ h => by cases h } }
  tally _ := ⟨Nat.zero_le 1, rfl, rfl, rfl⟩
  permits := rfl
  pending := rfl
  waiting h := absurd rfl h

theorem Sound.of_run {limits : WorkerLimits} (h : workerPool.Run (new limits) s) : s.Sound :=
  h.inv (P := Sound) (sound_new limits) fun h hg => h.next hg

structure Lawful (s : WorkerPool) : Prop where
  executing_le : s.board.executing.length ≤ s.limits.workers
  waiting_le : s.board.queue.length ≤ s.limits.queueCapacity
  in_order : s.board.entered.filter (fun a => a ∉ s.board.withdrawn) =
    s.board.taken ++ s.board.queue
  once : s.board.begun.Nodup
  never : ∀ a ∈ s.board.withdrawn, a ∉ s.board.taken ∧ a ∉ s.board.begun
  running : s.board.running = s.board.places.length
  busy : s.board.queue ≠ [] → s.board.running = s.limits.workers
  -- A caller still waiting for a place is held up by the same workers, once nothing is under way.
  busy_of_waiting : s.granted = [] → s.arriving = [] → s.board.destroying = [] →
    s.board.starting = [] → s.waiters ≠ [] → s.board.running = s.limits.workers
  places_conserved : s.permits + s.granted.length + s.arriving.length + s.board.queue.length +
    s.board.destroying.length + s.board.starting.length = s.limits.queueCapacity
  returnedPlaces_nodup : s.returnedPlaces.Nodup
  returnedPlaces : s.returnedPlaces.Perm
    (s.board.destroyed ++ s.board.selected ++ s.board.begun)
  returnedCharges_nodup : s.returnedCharges.Nodup
  returnedCharges : s.returnedCharges.Perm (s.refusals.map Prod.fst ++ s.gaveUp ++
    s.board.destroyed ++ s.board.outcomes.map Prod.fst)

theorem Sound.places_conserved (h : s.Sound) : s.permits + s.granted.length + s.arriving.length +
    s.board.queue.length + s.board.destroying.length + s.board.starting.length =
      s.limits.queueCapacity := by
  have hpermits := h.permits
  rw [h.pending, Board.waiting] at hpermits
  omega

theorem Sound.lawful (h : s.Sound) : s.Lawful where
  executing_le := by
    have hheld := h.board.held
    have hle := h.board.running_le
    simp only [Board.places, length_append] at hheld
    omega
  waiting_le := by
    have := h.places_conserved
    omega
  in_order := h.board.ordered
  once := nodup_iff_count_le_one.mpr fun a => by
    obtain ⟨⟩ := h.board.tally a
    omega
  never a ha := by
    have hpos := count_pos_iff.mpr ha
    obtain ⟨⟩ := h.board.tally a
    rw [Board.withdrawn, count_append] at hpos
    rw [← count_eq_zero, ← count_eq_zero]
    omega
  running := h.board.held.symm
  busy := h.board.busy
  busy_of_waiting hgranted harriving hdestroying hstarting hwaiters := by
    have hplaces := h.places_conserved
    rw [h.waiting hwaiters, hgranted, harriving, hdestroying, hstarting] at hplaces
    refine h.board.busy (ne_nil_of_length_pos ?_)
    have hpos := s.limits.queueCapacity_pos
    simp only [length_nil] at hplaces
    omega
  places_conserved := h.places_conserved
  returnedPlaces_nodup := nodup_iff_count_le_one.mpr fun a => by
    have := (h.tally a).returnedPlaces
    obtain ⟨⟩ := h.board.tally a
    omega
  returnedPlaces := perm_iff_count.mpr fun a => by
    have := (h.tally a).returnedPlaces
    simp only [count_append]
    omega
  returnedCharges_nodup := nodup_iff_count_le_one.mpr fun a => by
    obtain ⟨⟩ := h.tally a
    obtain ⟨⟩ := h.board.tally a
    omega
  returnedCharges := perm_iff_count.mpr fun a => by
    have := (h.tally a).returnedCharges
    simp only [count_append]
    omega

end WorkerPool

end Nervix.Execution
