import Nervix.Execution.WorkerRuns

/-!
# Progress of a worker class

Along a trace whose workers keep working, a job that a worker holds is run, so that the queue moves
up, and a job that entered the queue is run once unless its caller took it back.
-/

namespace Nervix.Execution

open List

variable {a sub : Submission} {workers : Nat}

namespace Board

variable {b b' : Board}

structure Grows (b b' : Board) : Prop where
  begun : b.begun ⊆ b'.begun := by exact fun _ h => h
  withdrawn : b.withdrawn ⊆ b'.withdrawn := by exact fun _ h => h
  destroyed : b.destroyed ⊆ b'.destroyed := by exact fun _ h => h
  finished : b.finished ⊆ b'.finished := by exact fun _ h => h

theorem Grows.trans (h : Grows b b') (h' : Grows b' c) : Grows b c where
  begun := List.Subset.trans h.begun h'.begun
  withdrawn := List.Subset.trans h.withdrawn h'.withdrawn
  destroyed := List.Subset.trans h.destroyed h'.destroyed
  finished := List.Subset.trans h.finished h'.finished

structure Leaves (a : Submission) (b b' : Board) : Prop where
  grows : Grows b b' := by exact {}
  starting : a ∈ b.starting → a ∈ b'.starting := by exact fun h => h
  selected : a ∈ b.selected → a ∈ b'.selected := by exact fun h => h
  executing : a ∈ b.executing → a ∈ b'.executing := by exact fun h => h
  executed : a ∈ b.executed → a ∈ b'.executed := by exact fun h => h
  queued : a ∈ b.queue → a ∈ b'.starting ∨ a ∈ b'.queue ∧ b'.queue.idxOf a ≤ b.queue.idxOf a := by
    exact fun h => .inr ⟨h, Nat.le_refl _⟩
  withdrawn : a ∈ b'.withdrawn → a ∈ b.withdrawn := by exact fun h => h

theorem mem_erase (hne : sub ≠ a) {l : List Submission} (h : a ∈ l) : a ∈ l.erase sub :=
  (mem_erase_of_ne hne.symm).mpr h

theorem mem_concat : a ∈ l ++ [a] :=
  mem_append_right _ (mem_singleton_self a)

theorem Sound.leaves_enqueue (h : b.Sound workers) : Leaves a b (b.enqueue workers sub) := by
  have hqueued : a ∈ b.queue → ¬ b.running < workers := fun ha => by
    have := h.busy (ne_nil_of_mem ha)
    omega
  unfold Board.enqueue
  dsimp only
  split_ifs with hidle
  · split
    · exact { starting := mem_append_left _, queued := fun ha => absurd hidle (hqueued ha) }
    · exact { queued := fun ha => absurd hidle (hqueued ha) }
  · refine { queued := fun ha => ?_ }
    simp only [queue, h.queue_insert]
    exact .inr ⟨mem_append_left _ ha, Nat.le_of_eq (idxOf_append_of_mem ha)⟩

theorem idxOf_filter_le {l : List Submission} (hp : p a = true) :
    (l.filter p).idxOf a ≤ l.idxOf a := by
  induction l with
  | nil => exact Nat.le_refl _
  | cons c l ih =>
    by_cases hc : p c = true
    · rw [filter_cons_of_pos hc, idxOf_cons, idxOf_cons]
      cases c == a with
      | true => exact Nat.le_refl _
      | false => exact Nat.succ_le_succ ih
    · have hne : c ≠ a := fun heq => hc (heq ▸ hp)
      rw [filter_cons_of_neg hc, idxOf_cons_ne _ hne]
      exact Nat.le_succ_of_le ih

theorem Sound.leaves_withdraw (h : b.Sound workers) (hne : sub ≠ a) :
    Leaves a b (b.withdraw sub) := by
  by_cases hsub : sub ∈ b.queue
  case neg =>
    rw [h.withdraw_of_not_mem hsub]
    exact {}
  obtain ⟨id, hmem, heq⟩ := h.withdraw_eq hsub
  rw [heq]
  refine { grows := { withdrawn := fun c hc => ?_ }, queued := fun ha => ?_,
           withdrawn := fun ha => ?_ }
  · simp only [withdrawn, mem_append] at hc ⊢
    exact hc.imp_left .inl
  · have hkeep : decide (a ≠ sub) = true := decide_eq_true hne.symm
    simp only [queue, h.queue_remove hmem]
    exact .inr ⟨mem_filter.mpr ⟨ha, hkeep⟩, idxOf_filter_le hkeep⟩
  · simp only [withdrawn, mem_append, mem_singleton] at ha ⊢
    exact ha.imp_left fun ha => ha.resolve_right hne.symm

theorem leaves_destroy (hsub : sub ∈ b.destroying) : Leaves a b (b.destroy sub) where
  grows :=
    { withdrawn := (perm_withdrawn_destroy hsub).symm.subset
      destroyed := subset_append_left _ _ }
  withdrawn := (perm_withdrawn_destroy hsub).mem_iff.mp

theorem queued_advance (ha : a ∈ b.queue) (sub : Submission) : a ∈ (b.advance sub).starting ∨
    a ∈ (b.advance sub).queue ∧ (b.advance sub).queue.idxOf a < b.queue.idxOf a := by
  unfold advance
  dsimp only
  cases hentries : b.jobs.entries with
  | nil =>
    rw [queue, hentries] at ha
    exact absurd ha not_mem_nil
  | cons e rest =>
    obtain ⟨hfirst, hrest⟩ := SortedMap.popFirst_of_cons hentries
    rw [← Prod.eta b.jobs.popFirst, hfirst]
    simp only [queue, hrest, hentries, map_cons] at ha ⊢
    rcases eq_or_ne e.2 a with heq | hne
    · exact .inl (mem_append_right _ (mem_singleton.mpr heq.symm))
    · rw [idxOf_cons_ne _ hne]
      exact .inr ⟨(mem_cons.mp ha).resolve_left hne.symm, Nat.lt_succ_self _⟩

theorem grows_advance : Grows b (b.advance sub) ∧ sub ∈ (b.advance sub).finished := by
  unfold advance
  dsimp only
  split
  · exact ⟨{ finished := subset_append_left _ _ }, mem_concat⟩
  · exact ⟨{ finished := subset_append_left _ _ }, mem_concat⟩

theorem leaves_advance (hne : sub ≠ a) : Leaves a b (b.advance sub) := by
  have hqueued := fun ha => (queued_advance (a := a) (b := b) ha sub).imp_right
    fun hmove => And.intro hmove.1 (Nat.le_of_lt hmove.2)
  have hgrows : Grows b (b.advance sub) := grows_advance.1
  revert hqueued hgrows
  unfold advance
  dsimp only
  split
  · exact fun hqueued hgrows => { grows := hgrows, queued := hqueued, executed := mem_erase hne,
                                  starting := mem_append_left _ }
  · exact fun hqueued hgrows => { grows := hgrows, queued := hqueued, executed := mem_erase hne }

end Board

namespace WorkerPool

open Board

variable {s : WorkerPool} {i : PoolEvent} {panicked : Bool}

theorem board_releasePermit : s.releasePermit.board = s.board := by
  unfold releasePermit
  split
  · rfl
  · rfl

theorem board_enterQueue : (s.enterQueue sub admission).board = s.board := by
  unfold enterQueue
  dsimp only
  split_ifs
  · cases admission
    · rfl
    · rfl
  · rfl

theorem board_giveUp : (s.giveUp sub).board = s.board := by
  unfold giveUp
  dsimp only
  split_ifs
  · rfl
  · exact board_releasePermit

theorem board_destroy : (s.destroy sub).board = s.board.destroy sub := board_releasePermit

theorem Sound.board_work_of_executed (h : s.Sound) (hsub : sub ∈ s.board.executed) :
    (s.work sub panicked).board = s.board.advance sub := by
  have hpos := count_pos_iff.mpr hsub
  have hstage := h.board.stage sub
  rw [work, if_neg (count_eq_zero.mp (by omega)), if_neg (count_eq_zero.mp (by omega)),
    if_neg (count_eq_zero.mp (by omega))]

theorem leaves_work (hne : sub ≠ a) : Leaves a s.board (s.work sub panicked).board := by
  unfold work
  split_ifs
  · rw [dropSlot, board_releasePermit]
    exact { starting := mem_erase hne, selected := mem_append_left _ }
  · exact { grows := { begun := subset_append_left _ _ }, selected := mem_erase hne,
            executing := mem_append_left _ }
  · exact { executing := mem_erase hne, executed := mem_append_left _ }
  · exact leaves_advance hne

theorem withdrawn_work (panicked : Bool) :
    (s.work sub panicked).board.withdrawn = s.board.withdrawn := by
  unfold work
  split_ifs
  · rw [dropSlot, board_releasePermit]
    rfl
  · rfl
  · rfl
  · unfold advance
    dsimp only
    split
    · rfl
    · rfl

theorem Sound.leaves_next (h : s.Sound) (hg : workerPool.guard s i) (hw : i ≠ .withdraw a)
    (hi : ∀ panicked, i ≠ .work a panicked) : Leaves a s.board (workerPool.next s i).board := by
  cases i with
  | submit sub admission =>
    change Leaves a s.board (s.enterQueue sub admission).board
    rw [board_enterQueue]
    exact {}
  | poll sub => exact {}
  | giveUp sub =>
    change Leaves a s.board (s.giveUp sub).board
    rw [board_giveUp]
    exact {}
  | enqueue sub => exact h.board.leaves_enqueue
  | withdraw sub => exact h.board.leaves_withdraw fun heq => hw (heq ▸ rfl)
  | destroy sub =>
    change Leaves a s.board (s.destroy sub).board
    rw [board_destroy]
    exact leaves_destroy hg
  | work sub panicked => exact leaves_work fun heq => hi panicked (heq ▸ rfl)

theorem Sound.grows_next (h : s.Sound) (hg : workerPool.guard s i) :
    Grows s.board (workerPool.next s i).board := by
  -- A job the event is not about: none stands under the next number.
  obtain ⟨a, ha⟩ : ∃ a, i ≠ .withdraw a ∧ ∀ panicked, i ≠ .work a panicked := by
    cases i with
    | withdraw sub => exact ⟨sub + 1, by simp, nofun⟩
    | work sub _ => exact ⟨sub + 1, nofun, by simp⟩
    | _ => exact ⟨0, nofun, nofun⟩
  exact (h.leaves_next hg ha.1 ha.2).grows

structure Fair {s : WorkerPool} (t : workerPool.Trace s) : Prop where
  works : ∀ n, ∀ sub ∈ (t.state n).board.places,
    ∃ m, n ≤ m ∧ ∃ panicked, t.input m = .work sub panicked
  drops : ∀ n, ∀ sub ∈ (t.state n).board.destroying, ∃ m, n ≤ m ∧ t.input m = .destroy sub

section Trace

variable {limits : WorkerLimits} {t : workerPool.Trace (new limits)} {n m : Nat}

theorem sound_state (t : workerPool.Trace (new limits)) (n : Nat) : (t.state n).Sound :=
  .of_run (t.run n)

theorem grows_state (t : workerPool.Trace (new limits)) (h : n ≤ m) :
    Grows (t.state n).board (t.state m).board := by
  induction h with
  | refl => exact {}
  | step _ ih =>
    refine ih.trans ?_
    rw [t.step]
    exact (sound_state t _).grows_next (t.allowed _)

theorem leaves_state (ha : a ∉ (t.state n).board.queue)
    (hi : ¬ ∃ panicked, t.input n = .work a panicked) :
    Leaves a (t.state n).board (t.state (n + 1)).board := by
  have h := sound_state t n
  rw [t.step]
  by_cases hw : t.input n = .withdraw a
  · rw [hw]
    change Leaves a _ ((t.state n).board.withdraw a)
    rw [h.board.withdraw_of_not_mem ha]
    exact {}
  · exact h.leaves_next (t.allowed n) hw fun panicked heq => hi ⟨panicked, heq⟩

theorem Fair.meets_work (ht : Fair t) (stage : Board → List Submission)
    (hplaces : ∀ {b}, a ∈ stage b → a ∈ b.places)
    (hkeep : ∀ {b b'}, Leaves a b b' → a ∈ stage b → a ∈ stage b')
    (ha : a ∈ stage (t.state n).board) :
    ∃ m, n ≤ m ∧ a ∈ stage (t.state m).board ∧ ∃ panicked, t.input m = .work a panicked := by
  refine t.meets (P := fun s => a ∈ stage s.board) (fun i => ∃ panicked, i = .work a panicked)
    (fun m hm hi => hkeep (leaves_state ?_ hi) hm) ha (ht.works n a (hplaces ha))
  have hpos := count_pos_iff.mpr (hplaces hm)
  have hstage := (sound_state t m).board.stage a
  simp only [places, count_append] at hpos
  exact count_eq_zero.mp (by omega)

theorem mem_places {b : Board} (h : a ∈ b.starting ∨ a ∈ b.selected ∨ a ∈ b.executing ∨
    a ∈ b.executed) : a ∈ b.places := by
  simpa only [places, mem_append, or_assoc] using h

theorem Fair.advances_of_executed (ht : Fair t) (ha : a ∈ (t.state n).board.executed) :
    ∃ m, n ≤ m ∧ a ∈ (t.state m).board.executed ∧ ∃ panicked, t.input m = .work a panicked :=
  ht.meets_work executed (fun h => mem_places (.inr (.inr (.inr h)))) (fun hk => hk.executed) ha

theorem Fair.advances_of_executing (ht : Fair t) (ha : a ∈ (t.state n).board.executing) :
    ∃ m, n ≤ m ∧ a ∈ (t.state m).board.executed ∧ ∃ panicked, t.input m = .work a panicked := by
  obtain ⟨k, hk, hmem, panicked, hi⟩ := ht.meets_work executing
    (fun h => mem_places (.inr (.inr (.inl h)))) (fun hk => hk.executing) ha
  have hnext : a ∈ (t.state (k + 1)).board.executed := by
    rw [t.step, hi]
    change a ∈ ((t.state k).work a panicked).board.executed
    have hpos := count_pos_iff.mpr hmem
    have hstage := (sound_state t k).board.stage a
    rw [work, if_neg (count_eq_zero.mp (by omega)), if_neg (count_eq_zero.mp (by omega)),
      if_pos hmem]
    exact mem_concat
  obtain ⟨m, hm, hadvances⟩ := ht.advances_of_executed hnext
  exact ⟨m, by omega, hadvances⟩

theorem Fair.advances_of_selected (ht : Fair t) (ha : a ∈ (t.state n).board.selected) :
    ∃ m, n ≤ m ∧ a ∈ (t.state m).board.executed ∧ ∃ panicked, t.input m = .work a panicked := by
  obtain ⟨k, hk, hmem, panicked, hi⟩ := ht.meets_work selected
    (fun h => mem_places (.inr (.inl h))) (fun hk => hk.selected) ha
  have hnext : a ∈ (t.state (k + 1)).board.executing := by
    rw [t.step, hi]
    change a ∈ ((t.state k).work a panicked).board.executing
    have hpos := count_pos_iff.mpr hmem
    have hstage := (sound_state t k).board.stage a
    rw [work, if_neg (count_eq_zero.mp (by omega)), if_pos hmem]
    exact mem_concat
  obtain ⟨m, hm, hadvances⟩ := ht.advances_of_executing hnext
  exact ⟨m, by omega, hadvances⟩

theorem Fair.advances_of_places (ht : Fair t) (ha : a ∈ (t.state n).board.places) :
    ∃ m, n ≤ m ∧ a ∈ (t.state m).board.executed ∧ ∃ panicked, t.input m = .work a panicked := by
  simp only [places, mem_append, or_assoc] at ha
  rcases ha with ha | ha | ha | ha
  · obtain ⟨k, hk, hmem, panicked, hi⟩ := ht.meets_work starting
      (fun h => mem_places (.inl h)) (fun hk => hk.starting) ha
    have hnext : a ∈ (t.state (k + 1)).board.selected := by
      rw [t.step, hi]
      change a ∈ ((t.state k).work a panicked).board.selected
      rw [work, if_pos hmem]
      change a ∈ (releasePermit _).board.selected
      rw [board_releasePermit]
      exact mem_concat
    obtain ⟨m, hm, hadvances⟩ := ht.advances_of_selected hnext
    exact ⟨m, by omega, hadvances⟩
  · exact ht.advances_of_selected ha
  · exact ht.advances_of_executing ha
  · exact ht.advances_of_executed ha

theorem Fair.finished_of_places (ht : Fair t) (ha : a ∈ (t.state n).board.places) :
    ∃ m, n ≤ m ∧ a ∈ (t.state m).board.finished := by
  obtain ⟨m, hm, hmem, panicked, hi⟩ := ht.advances_of_places ha
  refine ⟨m + 1, Nat.le_succ_of_le hm, ?_⟩
  rw [t.step, hi]
  change a ∈ ((t.state m).work a panicked).board.finished
  rw [(sound_state t m).board_work_of_executed hmem]
  exact grows_advance.2

theorem mem_withdrawn_withdraw {b : Board} (h : b.Sound workers) (ha : a ∈ b.queue) :
    a ∈ (b.withdraw a).withdrawn := by
  obtain ⟨id, -, heq⟩ := h.withdraw_eq ha
  rw [heq]
  exact mem_append_left _ mem_concat

theorem Fair.leaves_queue (ht : Fair t) (ha : a ∈ (t.state n).board.queue) :
    ∃ m, n ≤ m ∧ (a ∈ (t.state m).board.starting ∨ a ∈ (t.state m).board.withdrawn) := by
  refine t.leadsTo (P := fun s => a ∈ s.board.queue)
    (Q := fun s => a ∈ s.board.starting ∨ a ∈ s.board.withdrawn) (fun s => s.board.queue.idxOf a)
    (fun s i => ∃ sub panicked, i = .work sub panicked ∧ sub ∈ s.board.executed)
    (fun n hn => ?_) (fun n hn => ?_) ha
  · have h := (sound_state t n).board
    have hbusy := h.busy (ne_nil_of_mem hn)
    have hpos := (t.state n).limits.workers_pos
    obtain ⟨sub, hsub⟩ := exists_mem_of_length_pos
      (show 0 < (t.state n).board.places.length by rw [h.held]; omega)
    obtain ⟨m, hm, hmem, panicked, hi⟩ := ht.advances_of_places hsub
    exact ⟨m, hm, sub, panicked, hi, hmem⟩
  · have h := sound_state t n
    rw [t.step]
    by_cases hhelp : ∃ sub panicked, t.input n = .work sub panicked ∧
        sub ∈ (t.state n).board.executed
    · obtain ⟨sub, panicked, hi, hmem⟩ := hhelp
      rw [hi]
      rw [show workerPool.next (t.state n) (.work sub panicked) = (t.state n).work sub panicked
        from rfl, h.board_work_of_executed hmem]
      rcases queued_advance hn sub with hout | ⟨hin, hlt⟩
      · exact .inl (.inl hout)
      · exact .inr ⟨hin, Nat.le_of_lt hlt, fun _ => hlt⟩
    · by_cases hw : t.input n = .withdraw a
      · rw [hw]
        exact .inl (.inr (mem_withdrawn_withdraw h.board hn))
      · have hi : ∀ panicked, t.input n ≠ .work a panicked := fun panicked heq => by
          have hg := t.allowed n
          rw [heq] at hg
          have hpos := count_pos_iff.mpr (show a ∈ (t.state n).board.places from hg)
          have hpos' := count_pos_iff.mpr hn
          have hstage := h.board.stage a
          simp only [places, count_append] at hpos
          omega
        rcases (h.leaves_next (t.allowed n) hw hi).queued hn with hout | ⟨hin, hle⟩
        · exact .inl (.inl hout)
        · exact .inr ⟨hin, hle, fun hyes => absurd hyes hhelp⟩

theorem Fair.settles (ht : Fair t) (ha : a ∈ (t.state n).board.entered) :
    ∃ m, n ≤ m ∧ (a ∈ (t.state m).board.finished ∨ a ∈ (t.state m).board.withdrawn) := by
  have hstages : a ∈ (t.state n).board.queue ∨ a ∈ (t.state n).board.withdrawn ∨
      a ∈ (t.state n).board.places ∨ a ∈ (t.state n).board.finished := by
    have hpos := count_pos_iff.mpr ha
    have hstage := (sound_state t n).board.stage a
    simp only [← count_pos_iff, withdrawn, places, count_append]
    omega
  rcases hstages with ha | ha | ha | ha
  · obtain ⟨k, hk, ha | ha⟩ := ht.leaves_queue ha
    · obtain ⟨m, hm, ha⟩ := ht.finished_of_places (mem_places (.inl ha))
      exact ⟨m, Nat.le_trans hk hm, .inl ha⟩
    · exact ⟨k, hk, .inr ha⟩
  · exact ⟨n, Nat.le_refl n, .inr ha⟩
  · obtain ⟨m, hm, ha⟩ := ht.finished_of_places ha
    exact ⟨m, hm, .inl ha⟩
  · exact ⟨n, Nat.le_refl n, .inl ha⟩

def TakenBack (t : workerPool.Trace (new limits)) (a : Submission) : Prop :=
  ∃ k, t.input k = .withdraw a ∧ a ∈ (t.state k).board.queue

theorem takenBack_of_withdrawn (ha : a ∈ (t.state n).board.withdrawn) : TakenBack t a := by
  induction n with
  | zero =>
    rw [t.start] at ha
    exact absurd ha not_mem_nil
  | succ n ih =>
    by_cases htaken : t.input n = .withdraw a ∧ a ∈ (t.state n).board.queue
    · exact ⟨n, htaken⟩
    · refine ih ?_
      have h := sound_state t n
      rw [t.step] at ha
      by_cases hw : t.input n = .withdraw a
      · rw [hw] at ha
        change a ∈ ((t.state n).board.withdraw a).withdrawn at ha
        rwa [h.board.withdraw_of_not_mem fun hq => htaken ⟨hw, hq⟩] at ha
      · by_cases hi : ∃ panicked, t.input n = .work a panicked
        · obtain ⟨panicked, hi⟩ := hi
          rw [hi] at ha
          rwa [show workerPool.next (t.state n) (.work a panicked) = (t.state n).work a panicked from rfl,
            withdrawn_work] at ha
        · exact (h.leaves_next (t.allowed n) hw fun panicked heq => hi ⟨panicked, heq⟩).withdrawn ha

theorem TakenBack.withdrawn (h : TakenBack t a) : ∃ n, a ∈ (t.state n).board.withdrawn := by
  obtain ⟨k, hi, ha⟩ := h
  refine ⟨k + 1, ?_⟩
  rw [t.step, hi]
  exact mem_withdrawn_withdraw (sound_state t k).board ha

theorem not_begun_of_withdrawn (ha : a ∈ (t.state n).board.withdrawn) (m : Nat) :
    a ∉ (t.state m).board.begun := by
  intro hm
  rcases Nat.le_total n m with hle | hle
  · exact ((sound_state t m).lawful.never a ((grows_state t hle).withdrawn ha)).2 hm
  · exact ((sound_state t n).lawful.never a ha).2 ((grows_state t hle).begun hm)

theorem Fair.destroyed_of_withdrawn (ht : Fair t) (ha : a ∈ (t.state n).board.withdrawn) :
    ∃ m, a ∈ (t.state m).board.destroyed := by
  rcases mem_append.mp ha with ha | ha
  · obtain ⟨m, -, hi⟩ := ht.drops n a ha
    refine ⟨m + 1, ?_⟩
    rw [t.step, hi]
    change a ∈ ((t.state m).destroy a).board.destroyed
    rw [board_destroy]
    exact mem_concat
  · exact ⟨n, ha⟩

theorem Sound.counts_of_finished (h : s.Sound) (ha : a ∈ s.board.finished) :
    (s.board.begun.count a = 1 ∧ (s.board.outcomes.map Prod.fst).count a = 1) ∧
      s.returnedPlaces.count a = 1 ∧ s.returnedCharges.count a = 1 := by
  have hpos := count_pos_iff.mpr ha
  obtain ⟨⟩ := h.tally a
  obtain ⟨⟩ := h.board.tally a
  omega

structure Settled (t : workerPool.Trace (new limits)) (a : Submission) : Prop where
  never : TakenBack t a → ∀ m, a ∉ (t.state m).board.begun
  once : ¬ TakenBack t a → ∃ k, ∀ m, k ≤ m → (t.state m).board.begun.count a = 1 ∧
    ((t.state m).board.outcomes.map Prod.fst).count a = 1
  returned : ∃ k, ∀ m, k ≤ m →
    (t.state m).returnedPlaces.count a = 1 ∧ (t.state m).returnedCharges.count a = 1

theorem Fair.settled (ht : Fair t) (ha : a ∈ (t.state n).board.entered) : Settled t a where
  never htaken := by
    obtain ⟨k, hk⟩ := htaken.withdrawn
    exact not_begun_of_withdrawn hk
  once hnot := by
    obtain ⟨k, -, hk | hk⟩ := ht.settles ha
    · refine ⟨k, fun m hm => ?_⟩
      exact ((sound_state t m).counts_of_finished ((grows_state t hm).finished hk)).1
    · exact absurd (takenBack_of_withdrawn hk) hnot
  returned := by
    obtain ⟨k, -, hk | hk⟩ := ht.settles ha
    · refine ⟨k, fun m hm => ?_⟩
      exact ((sound_state t m).counts_of_finished ((grows_state t hm).finished hk)).2
    · obtain ⟨k, hk⟩ := ht.destroyed_of_withdrawn hk
      refine ⟨k, fun m hm => ?_⟩
      have hpos := count_pos_iff.mpr ((grows_state t hm).destroyed hk)
      obtain ⟨⟩ := (sound_state t m).tally a
      obtain ⟨⟩ := (sound_state t m).board.tally a
      omega

end Trace

/-- **A worker class.** In every run it keeps its bounds, its order and its accounts, and along
every trace whose workers keep working each job that entered the queue is run once, unless its
caller took it back while it was queued. -/
theorem lawful_and_settled (limits : WorkerLimits) :
    (∀ s, workerPool.Run (new limits) s → s.Lawful) ∧
      ∀ t : workerPool.Trace (new limits), Fair t →
        ∀ n, ∀ a ∈ (t.state n).board.entered, Settled t a :=
  ⟨fun _ h => (Sound.of_run h).lawful, fun _ ht _ _ ha => ht.settled ha⟩

def single : WorkerLimits where
  className := "extension"
  workers := 1
  queueCapacity := 1
  workers_pos := Nat.one_pos
  queueCapacity_pos := Nat.one_pos

def contended : List PoolEvent :=
  [.submit 0 .refuseWhenFull, .enqueue 0, .work 0 false, .submit 1 .refuseWhenFull, .enqueue 1,
    .submit 2 .refuseWhenFull, .submit 3 .waitForPlace, .withdraw 1, .destroy 1, .poll 3,
    .enqueue 3, .work 0 false, .work 0 true, .work 0 false, .work 3 false, .work 3 false,
    .work 3 false, .work 3 false]

theorem contended_allowed : workerPool.Allows (new single) contended := by decide

theorem contended_idle : workerPool.next (contended.foldl workerPool.next (new single))
    (.withdraw 3) = contended.foldl workerPool.next (new single) := by
  have h := Sound.of_run (.of_allows contended_allowed)
  generalize hs : contended.foldl workerPool.next (new single) = s at h ⊢
  have hnot : 3 ∉ s.board.queue := by
    rw [← hs]
    decide
  change { s with board := s.board.withdraw 3 } = s
  rw [h.board.withdraw_of_not_mem hnot]

def contendedTrace : workerPool.Trace (new single) :=
  .idling contended (.withdraw 3) contended_allowed (by decide) contended_idle

theorem contendedTrace_fair : Fair contendedTrace := by
  have hrest : ∀ {n}, 18 ≤ n →
      contendedTrace.state n = contended.foldl workerPool.next (new single) := fun {n} h => by
    change (contended.take n).foldl workerPool.next (new single) = _
    rw [take_of_length_le h]
  have hworks : ∀ n < 18, ∀ sub ∈ (contendedTrace.state n).board.places, ∃ m, m < 18 ∧ n ≤ m ∧
      ∃ panicked, contendedTrace.input m = .work sub panicked := by decide
  have hdrops : ∀ n < 18, ∀ sub ∈ (contendedTrace.state n).board.destroying, ∃ m, m < 18 ∧ n ≤ m ∧
      contendedTrace.input m = .destroy sub := by decide
  constructor <;> intro n sub hsub <;> rcases Nat.lt_or_ge n 18 with hn | hn
  · exact (hworks n hn sub hsub).imp fun _ hm => hm.2
  · rw [hrest hn] at hsub
    exact absurd hsub not_mem_nil
  · exact (hdrops n hn sub hsub).imp fun _ hm => hm.2
  · rw [hrest hn] at hsub
    exact absurd hsub not_mem_nil

theorem contended_settled :
    (contended.foldl workerPool.next (new single)).Lawful ∧
      Settled contendedTrace 0 ∧ Settled contendedTrace 1 ∧ Settled contendedTrace 3 :=
  have h := lawful_and_settled single
  ⟨h.1 _ (.of_allows contended_allowed), h.2 _ contendedTrace_fair 18 0 (by decide),
    h.2 _ contendedTrace_fair 18 1 (by decide), h.2 _ contendedTrace_fair 18 3 (by decide)⟩

end WorkerPool

end Nervix.Execution
