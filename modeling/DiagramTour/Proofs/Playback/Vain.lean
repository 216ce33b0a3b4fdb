import DiagramTour.Proofs.Playback.Rehearsal
import DiagramTour.Proofs.Playback.Stint

/-!
# Moves that lead nowhere

A move leads nowhere if there is no such stop, and every move does when the player has ended.  Such a
move is no failure, and whatever can be seen of the player stays as it was: also what the current stop
has put up, which is taken down only when the move is known to lead somewhere.

## Architecture

- `Move.IsVain` says of each kind of move when it leads nowhere, and `World.target?_eq_none_iff` that
  these are all of them.
- `World.turns_of_vain` follows such a move from turn to turn while the way is free.
- `World.Ebb` tells where a move of a player that has ended is, whatever else happens, and
  `World.Ebb.step` is one turn of it.
-/

namespace DiagramTour

/-! ## Which moves lead nowhere -/

/-- Whether a move leads nowhere: to a place where no stop is, to an id that no stop has, or by so many
stops that it ends beside the tour.  A place that does not fit 64 bits is beside every tour that can be
counted. -/
def Move.IsVain (s : Stage) (w : World) : Move → Prop
  | .index place => place < 0 ∨ s.document.stops.length ≤ place
  | .id name => ∀ stop ∈ s.document.stops, stop.id ≠ name
  | .offset stops => w.position + stops < 0 ∨ s.document.stops.length ≤ w.position + stops ∨
      (Number.fits64 (w.position + stops) = false ∧ s.document.stops.length ≤ Number.twoTo 63)

namespace World

variable {s : Stage} {w w' : World} {m : Move} {id : Nat} {base : List Wait}

theorem place?_eq_none_iff {place : Int} :
    place? s place = none ↔ place < 0 ∨ s.document.stops.length ≤ place := by
  unfold place?
  split
  · rename_i h
    simp only [Bool.and_eq_true, decide_eq_true_eq] at h
    simp only [reduceCtorEq, false_iff]
    omega
  · rename_i h
    simp only [Bool.and_eq_true, decide_eq_true_eq] at h
    simp only [true_iff]
    omega

theorem target?_eq_none_iff : w.target? s m = none ↔ m.IsVain s w := by
  cases m with
  | index place => exact place?_eq_none_iff
  | id name => simp [target?, Document.stopIndex?, Move.IsVain]
  | offset stops =>
      simp only [target?, place?_eq_none_iff, Move.IsVain, Number.fits64]
      constructor
      · rintro (h | h)
        · exact .inl h
        · exact .inr (.inl h)
      · rintro (h | h | ⟨hfits, hcount⟩)
        · exact .inl h
        · exact .inr h
        · simp only [Bool.and_eq_false_iff, decide_eq_false_iff_not] at hfits
          omega

/-! ## Where the way is free -/

/-- The turns of a move that leads nowhere: it takes the way, stays where it is, and gives the way
back. -/
theorem turns_of_vain {rest ready : List Task} {ys : List Wait} (hqueue : w.queue = [])
    (hfree : w.traveller = none) (hway : ys.any Wait.isJourney = false)
    (hvain : w.destroyed = true ∨ m.IsVain s w) :
    takeTurn s { w with ready } ⟨id, .travel m, ys⟩ rest =
        { w with ready := ⟨id, .seek m, .journey :: ys⟩ :: rest } ∧
      takeTurn s { w with ready } ⟨id, .seek m, .journey :: ys⟩ rest =
        { w with traveller := some id, ready := ⟨id, .depart m, .journey :: ys⟩ :: rest } ∧
      takeTurn s { w with traveller := some id, ready } ⟨id, .depart m, .journey :: ys⟩ rest =
        { w with traveller := some id, ready := ⟨id, .ended .completed, .journey :: ys⟩ :: rest } ∧
      takeTurn s { w with traveller := some id, ready } ⟨id, .ended .completed, .journey :: ys⟩ rest =
        { w with ready := ⟨id, .ended .completed, ys⟩ :: rest } := by
  refine ⟨?_, ?_, ?_, ?_⟩
  · simp [takeTurn, Job.step, travel, hway, place]
  · simp [takeTurn, Job.step, seek, hfree, place]
  · simp only [takeTurn, Job.step, depart]
    rcases hvain with hend | hvain
    · simp [hend, Turn.ended, place]
    · have hnone : target? s { w with traveller := some id, ready := rest } m = none :=
        target?_eq_none_iff.mpr (by cases m <;> exact hvain)
      simp only [hnone]
      split <;> rfl
  · simp [takeTurn, Job.step, Wait.resume, handOver, hqueue, Turn.ended, place, hfree]

/-- The numbers of those who have ended are not given again. -/
theorem Reachable.ended_below (hw : Reachable s w) : ∀ x ∈ w.outcomes, x.1 < w.nextTask := by
  refine (hw.induction (P := fun w => Timed w [] ∧ ∀ x ∈ w.outcomes, x.1 < w.nextTask)
    ⟨Reachable.initial.timed (s := s), by simp⟩ fun w c hw => ⟨hw.1.choose c, fun x hx => ?_⟩).2
  refine Nat.lt_of_lt_of_le ?_ (nextTask_choose s w c)
  obtain ⟨t, others, hmover, -, heq⟩ | ⟨-, hshuffle⟩ | ⟨d, -, heq⟩ := choose_cases s w c
  · rw [heq, takeTurn_eq] at hx
    have hkept := (rest_effect (Job.step_effect s { w with ready := others } t.id t.waits t.job)).1
    rcases place_outcomes (w := (t.job.step s { w with ready := others } t.id t.waits).1)
        (t.job.step s { w with ready := others } t.id t.waits).2 t.id with hsame | ⟨o, -, hmore⟩
    · rw [hsame, hkept] at hx
      exact hw.2 x hx
    · rw [hmore, hkept] at hx
      rcases List.mem_append.mp hx with hx | hx
      · exact hw.2 x hx
      · rw [List.mem_singleton.mp hx]
        exact hw.1.below t (active_subset_tasks w (mem_active_of_mover? hmover))
  · obtain ⟨_, _, _, _, hsame⟩ := hshuffle.eq
    exact hw.2 x (by rwa [hsame] at hx)
  · rw [heq, (rest_ask w d).2] at hx
    exact hw.2 x hx

theorem finishWithin_of_outcome {fuel : Nat} (h : (w.outcome? id).isSome = true) :
    w.finishWithin s id fuel = w := by
  cases fuel <;> simp [finishWithin, h]

/-- Who is asked for a move that leads nowhere comes to an end, and has changed nothing. -/
theorem perform_of_vain (hw : Reachable s w) (hfree : w.traveller = none)
    (hvain : w.destroyed = true ∨ m.IsVain s w) :
    w.perform s (.travel m) = ({ w with
      nextTask := w.nextTask + 1
      outcomes := w.outcomes ++ [(w.nextTask, .completed)] }, some .completed) := by
  have hnone : w.outcomes.find? (·.1 == w.nextTask) = none := by
    rw [List.find?_eq_none]
    intro x hx
    simpa using Nat.ne_of_lt (hw.ended_below x hx)
  obtain ⟨fuel, hfuel⟩ : ∃ fuel, s.patience = fuel + 5 := ⟨s.patience - 5, by
    rw [Stage.patience]
    omega⟩
  have hturns : ∀ ready, _ := fun ready => @turns_of_vain s { w with nextTask := w.nextTask + 1 } m
    w.nextTask w.ready ready [] (hw.way.free hfree) hfree rfl (by cases m <;> exact hvain)
  have hrun : (w.enlist (.travel m)).finishWithin s w.nextTask s.patience = { w with
      nextTask := w.nextTask + 1
      outcomes := w.outcomes ++ [(w.nextTask, .completed)] } := by
    rw [hfuel, enlist, finishWithin_succ (by simp [outcome?, hnone]) rfl, (hturns _).1,
      finishWithin_succ (by simp [outcome?, hnone]) rfl, (hturns _).2.1,
      finishWithin_succ (by simp [outcome?, hnone]) rfl, (hturns _).2.2.1,
      finishWithin_succ (by simp [outcome?, hnone]) rfl, (hturns _).2.2.2,
      finishWithin_succ (by simp [outcome?, hnone]) rfl]
    exact finishWithin_of_outcome (by simp [takeTurn, Job.step, place, outcome?, hnone])
  rw [perform_eq, hrun]
  simp [outcome?, hnone]

/-! ## When the player has ended -/

/-- Between two worlds there is nothing to be seen, nobody is woken up, and nobody goes. -/
structure Unmoved (w w' : World) : Prop where
  aside : w.Aside w'
  asleep : w'.asleep = w.asleep
  tasks : w.tasks ⊆ w'.tasks

/-- Where a move of a player that has ended is after some turns. -/
inductive Ebb (m : Move) (turns : Nat) : Job → List Wait → Prop where
  | asks : turns ≤ 0 → Ebb m turns (.travel m) []
  | seeks : turns ≤ 1 → Ebb m turns (.seek m) [.journey]
  | leaves : turns ≤ 2 → Ebb m turns (.depart m) [.journey]
  | stays : turns ≤ 3 → Ebb m turns (.ended .completed) [.journey]
  | ends : turns ≤ 4 → Ebb m turns (.ended .completed) []

variable {turns : Nat} {job : Job} {above : List Wait}

/-- A turn of a move of a player that has ended changes nothing. -/
theorem Ebb.step (id : Nat) (base : List Wait) (h : Ebb m turns job above)
    (hend : w.destroyed = true) (hgo : job.isEnded = true → above ≠ []) :
    (∃ job' above', (job.step s w id (above ++ base)).2.task? id = some ⟨id, job', above' ++ base⟩ ∧
      Ebb m (turns + 1) job' above') ∧ Unmoved w (job.step s w id (above ++ base)).1 := by
  cases h with
  | asks hturns =>
      simp only [Job.step, travel, List.nil_append]
      split
      · refine ⟨⟨_, [], rfl, .ends (by omega)⟩, ?_⟩
        split
        · exact ⟨aside_start w _ _, rfl,
            fun t ht => (tasks_start w _ _).symm.subset (List.mem_cons_of_mem _ ht)⟩
        · exact ⟨.refl w, rfl, fun _ ht => ht⟩
      · exact ⟨⟨_, [.journey], rfl, .seeks (by omega)⟩, .refl w, rfl, fun _ ht => ht⟩
  | seeks hturns =>
      simp only [Job.step, seek]
      split
      · exact ⟨⟨_, [.journey], rfl, .leaves (by omega)⟩,
          ⟨w.now, w.nextTask, w.ready, w.paused, w.asleep, some id, w.queue, w.outcomes, rfl⟩, rfl,
          fun _ ht => ht⟩
      · exact ⟨⟨_, [.journey], rfl, .leaves (by omega)⟩, .refl w, rfl, fun _ ht => ht⟩
  | leaves hturns =>
      simp only [Job.step, depart, hend, if_true]
      exact ⟨⟨_, [.journey], rfl, .stays (by omega)⟩, .refl w, rfl, fun _ ht => ht⟩
  | stays hturns =>
      refine ⟨⟨_, [], rfl, .ends (by omega)⟩, aside_handOver w, ?_, (tasks_handOver w).symm.subset⟩
      simp only [Job.step, Wait.resume, List.singleton_append, handOver]
      split <;> rfl
  | ends => exact absurd rfl (hgo rfl)

/-- A move that leads nowhere changes nothing, and is no failure.

- Where the way is free and the player is asked for such a move, or for any move after it has ended, the
  world is afterwards the one it was, but that a task with the next number has ended.
- The same holds of a handler that asks for one: after four turns its task is where it was, with the
  answer that all went well.
- When the player has ended this is so whoever else has the way and takes turns in between: no turn of
  the move changes anything that can be seen, wakes anyone up or puts an end to a task, and after four
  turns at most the move is complete. -/
theorem vain_move_changes_nothing (hw : Reachable s w) (m : Move) :
    (w.traveller = none → (w.destroyed = true ∨ m.IsVain s w) →
      w.perform s (.travel m) = ({ w with
        nextTask := w.nextTask + 1
        outcomes := w.outcomes ++ [(w.nextTask, .completed)] }, some .completed) ∧
      ∀ i id ys, w.ready[i]? = some ⟨id, .travel m, ys⟩ → ys.any Wait.isJourney = false →
        w.follow s [.turn i, .turn 0, .turn 0, .turn 0] =
          { w with ready := ⟨id, .ended .completed, ys⟩ :: w.ready.eraseIdx i }) ∧
    (w.destroyed = true → ∀ id base w' ms,
      (⟨id, .travel m, base⟩ ∈ w.tasks ∨ ⟨id, .seek m, .journey :: base⟩ ∈ w.tasks) →
      Stint s id base w w' ms →
      (∀ n ∈ ms, Unmoved n.world (n.after s id base)) ∧ ms.length ≤ 4 ∧
        (∃ t ∈ w'.tasks, t.id = id) ∧
        ∀ o, ⟨id, .ended o, base⟩ ∈ w'.tasks → o = .completed) := by
  refine ⟨fun hfree hvain => ⟨perform_of_vain hw hfree hvain, fun i id ys ht hway => ?_⟩, ?_⟩
  · have hturns := fun ready => @turns_of_vain s w m id (w.ready.eraseIdx i) ready ys
      (hw.way.free hfree) hfree hway hvain
    have hfirst := (hturns w.ready).1
    simp only [follow_cons, follow_nil, choose, ht, hfirst, List.getElem?_cons_zero,
      List.eraseIdx_cons_zero, (hturns _).2.1, (hturns _).2.2.1, (hturns _).2.2.2]
  · intro hend id base w' ms hmem hstint
    have hrun : ∀ job above, ⟨id, job, above ++ base⟩ ∈ w.tasks → Ebb m 0 job above →
        job.isOfTimer = false → (∀ n ∈ ms, Unmoved n.world (n.after s id base)) ∧ ms.length ≤ 4 ∧
          (∃ t ∈ w'.tasks, t.id = id) ∧
          ∀ o, ⟨id, .ended o, base⟩ ∈ w'.tasks → o = .completed := by
      intro job above hmem hebb hno
      obtain ⟨htimed, -, job', above', hmem', hebb', hall⟩ := hstint.carry
        (I := fun v => v.destroyed = true)
        (P := fun ms job above => Ebb m ms.length job above ∧
          ∀ n ∈ ms, Unmoved n.world (n.after s id base))
        job above (fun v c hv => destroyed_choose hv)
        (fun ms v others job above hv hP hgo => by
          obtain ⟨⟨job', above', hturn, hebb'⟩, hunmoved⟩ :=
            hP.1.step (s := s) (w := { v with ready := others }) id base hv hgo
          refine ⟨job', above', hturn, by simpa using hebb', fun n hn => ?_⟩
          rcases List.mem_append.mp hn with hn | hn
          · exact hP.2 n hn
          · rw [List.mem_singleton.mp hn]
            exact hunmoved)
        hw.timed hend hmem hno ⟨hebb, by simp⟩
      refine ⟨hall, by cases hebb' <;> omega, ⟨_, hmem', rfl⟩, fun o ho => ?_⟩
      obtain ⟨rfl, -⟩ := htimed.ended_unique hmem' ho
      cases hebb' <;> rfl
    rcases hmem with hmem | hmem
    · exact hrun _ [] hmem (.asks (Nat.le_refl 0)) rfl
    · exact hrun _ [.journey] hmem (.seeks (Nat.zero_le 1)) rfl

end World

/-- A stage with one stop, where a listener is up and a timer waits. -/
def Stage.narrow : Stage where
  document := ⟨[⟨"a", none, [], [⟨.click, none, none, none, none, []⟩], none, []⟩],
    [⟨.timer, none, none, some 5, none, []⟩], none, []⟩
  config := { settleFrames := 0 }

namespace World

/-- On `Stage.narrow` the only stop is reached and the timer waits. -/
def narrowed : World :=
  ({} : World).follow .narrow (.ask (.begin none) :: List.replicate 21 (.turn 0))

/-- When the player on `Stage.narrow` has ended it is asked for two moves. -/
def narrowedTwice : World :=
  narrowed.follow .narrow [.ask .destroy, .ask (.move (.id "a")), .ask (.move (.offset (-1)))]

/-- On `Stage.narrow` there is no next stop, and the listener and the timer stay; after the end the move
to the stop waits for another one, is complete, and has changed nothing. -/
theorem narrow_moves_change_nothing :
    (narrowed.host.listeners.length = 1 ∧ narrowed.asleep.length = 1 ∧
      narrowed.perform .narrow (.travel (.offset 1)) = ({ narrowed with
        nextTask := narrowed.nextTask + 1
        outcomes := narrowed.outcomes ++ [(narrowed.nextTask, .completed)] }, some .completed)) ∧
    ∃ ms : List Moment, ms.length = 4 ∧ ∀ n ∈ ms, Unmoved n.world (n.after .narrow 2 []) := by
  have hw : Reachable .narrow narrowed := Reachable.initial.follow _
  refine ⟨⟨by decide, by decide, ?_⟩, ?_⟩
  · exact ((vain_move_changes_nothing hw (.offset 1)).1 rfl (.inr (.inr (.inl (by decide))))).1
  · have hstint : Stint .narrow 2 [] narrowedTwice _ _ :=
      .follow [.turn 1, .turn 0, .turn 1, .turn 0, .turn 0, .turn 0, .turn 1, .turn 0] (by decide)
    exact ⟨_, by decide, ((vain_move_changes_nothing (hw.follow _) (.id "a")).2 rfl 2 [] _ _
      (.inl List.mem_cons_self) hstint).1⟩

end World

end DiagramTour
