import DiagramTour.Proofs.Playback.View
import DiagramTour.Proofs.Playback.Way

/-!
# Moves one after another

A player may be asked for one move, and not for the next before the first has ended, while no other
task takes a turn.  This is the plainest way to use a player, and any other way is to be compared
with it.

## Architecture

- `World.Alone`: a schedule in which every choice concerns one task.
- `World.Performs`: a move is asked for, and its task alone takes turns until it has ended.
- `World.OneByOne`: moves are performed one after another.
- `World.Solo` is the middle of a performance: the task is ready, and holds the way.  Its lemmas
  begin a performance, take a step of it, and end it.
-/

namespace DiagramTour

/-- A step of a task on the way, unless the task seeks the way or has ended, leaves what is below it
alone. -/
theorem Job.step_above {job : Job} {above : List Wait} (s : Stage) (w : World) (id : Nat)
    (base : List Wait) (hgo : job.isEnded = true → above ≠ []) (hway : base.any Wait.isJourney = true)
    (hseek : ∀ m, job ≠ .seek m) :
    ∃ job' above', (job.step s w id (above ++ base)).2.left? = some (job', above' ++ base) ∧
      ∀ m, job' ≠ .seek m := by
  have hshift := Job.step_shift s w id (above ++ base) job
  have hany : (above ++ base).any Wait.isJourney = true := by simp [hway]
  generalize (job.step s w id (above ++ base)).2 = turn at hshift ⊢
  generalize hwaits : above ++ base = waits at hshift hany
  -- Where a wait goes on it is one of those above
  have hpop : ∀ {wait : Wait} {rest : List Wait}, above ++ base = wait :: rest → above ≠ [] →
      ∃ above', rest = above' ++ base := by
    intro wait rest heq hne
    cases above with
    | nil => exact absurd rfl hne
    | cons x xs =>
        cases heq
        exact ⟨xs, rfl⟩
  cases hshift with
  | @inner job job' top waits turn _ hleft hjob' _ =>
      subst hwaits
      refine ⟨job', top ++ above, by rw [hleft, List.append_assoc], ?_⟩
      rcases hjob' with h | h | ⟨m, rfl⟩
      · exact Job.ne_seek_of_isInner h
      · exact Job.ne_seek_of_isEnded h
      · simp
  | @resume o wait rest job' _ hjob' =>
      obtain ⟨above', rfl⟩ := hpop hwaits (hgo rfl)
      refine ⟨job', above', rfl, ?_⟩
      rcases hjob' with h | h
      · exact Job.ne_seek_of_isInner h
      · exact Job.ne_seek_of_isEnded h
  | opened hjob' =>
      obtain ⟨above', rfl⟩ := hpop hwaits (hgo rfl)
      refine ⟨_, above', rfl, ?_⟩
      rcases hjob' with rfl | rfl <;> simp
  | travel hno => simp [hno] at hany
  | take => exact absurd rfl (hseek _)
  | queue => exact absurd rfl (hseek _)
  | @cleared o j rest job' hjob' =>
      obtain ⟨above', rfl⟩ := hpop hwaits (hgo rfl)
      refine ⟨job', above', rfl, ?_⟩
      rcases hjob' with h | ⟨n, rfl⟩
      · exact Job.ne_seek_of_isEnded h
      · simp
  | settle hleft => exact ⟨_, above, by rw [hleft, ← hwaits], by simp⟩
  | @entered o j wait ds rest _ =>
      obtain ⟨above', rfl⟩ := hpop hwaits (hgo rfl)
      exact ⟨_, wait :: above', rfl, by simp⟩
  | broken =>
      obtain ⟨above', rfl⟩ := hpop hwaits (hgo rfl)
      exact ⟨_, above', rfl, by simp⟩
  | @arrive o j es ds rest =>
      obtain ⟨above', rfl⟩ := hpop hwaits (hgo rfl)
      exact ⟨_, .concluded .completed :: above', rfl, by simp⟩
  | concluded =>
      obtain ⟨above', rfl⟩ := hpop hwaits (hgo rfl)
      exact ⟨_, above', rfl, by simp⟩
  | handOver =>
      obtain ⟨above', rfl⟩ := hpop hwaits (hgo rfl)
      exact ⟨_, above', rfl, by simp⟩
  | finish =>
      have := hgo rfl
      simp_all
  | @«begin» render ds _ => exact ⟨_, .opened :: above, by rw [← hwaits]; rfl, by simp⟩
  | @leave m _ setting j _ => exact ⟨_, .cleared j :: above, by rw [← hwaits]; rfl, by simp⟩
  | @enter j _ setting actions => exact ⟨_, .entered j :: above, by rw [← hwaits]; rfl, by simp⟩
  | _ => exact ⟨_, above, by rw [← hwaits]; rfl, by simp⟩

namespace World

/-! ## Schedules of one task -/

/-- The task that a choice concerns, if it concerns one. -/
def subject? (w : World) : Choice → Option Nat
  | .turn i | .yield i => (w.ready[i]?).map Task.id
  | .resume i => (w.paused[i]?).map Task.id
  | .wake i _ => (w.asleep[i]?).map (·.2.id)
  | .ask _ => none

/-- Every choice that leads from one world to another concerns the task with a number. -/
inductive Alone (s : Stage) (id : Nat) (u : World) : World → Prop where
  | refl : Alone s id u u
  | step {v : World} (c : Choice) : Alone s id u v → v.subject? c = some id →
      Alone s id u (v.choose s c)

/-- A move is asked for, and its task alone takes turns until it has ended with an outcome. -/
structure Performs (s : Stage) (w : World) (m : Move) (o : Outcome) (v : World) : Prop where
  alone : Alone s w.nextTask (w.ask (.move m)) v
  ended : (w.nextTask, o) ∈ v.outcomes

/-- Moves are performed one after another, with their outcomes. -/
inductive OneByOne (s : Stage) (w : World) : List (Move × Outcome) → World → Prop where
  | none : OneByOne s w [] w
  | more {ms : List (Move × Outcome)} {v u : World} {m : Move} {o : Outcome} :
      OneByOne s w ms v → Performs s v m o u → OneByOne s w (ms ++ [(m, o)]) u

variable {s : Stage} {u v w : World} {id : Nat} {job : Job} {waits : List Wait} {m : Move}

theorem Alone.trans (h : Alone s id u v) (h' : Alone s id v w) : Alone s id u w := by
  induction h' with
  | refl => exact h
  | step c _ hc ih => exact ih.step c hc

theorem Alone.reachable (h : Alone s id u v) (hu : Reachable s u) : Reachable s v := by
  induction h with
  | refl => exact hu
  | step c _ _ ih => exact ih.choose c

theorem OneByOne.reachable {ms : List (Move × Outcome)} (h : OneByOne s w ms v)
    (hw : Reachable s w) : Reachable s v := by
  induction h with
  | none => exact hw
  | more _ hm ih => exact hm.alone.reachable (ih.choose (.ask (.move _)))

/-- A task that is ready takes a step. -/
private theorem alone_turn (ht : ⟨id, job, waits⟩ ∈ v.ready) :
    ∃ others, v.ready.Perm (⟨id, job, waits⟩ :: others) ∧
      Alone s id v ((job.step s { v with ready := others } id waits).1.place id
        (job.step s { v with ready := others } id waits).2) := by
  obtain ⟨i, hi⟩ := List.mem_iff_getElem?.mp ht
  obtain ⟨t, others, hmover, hperm, heq⟩ | ⟨hnone, -⟩ | ⟨d, hd, -⟩ := choose_cases s v (.turn i)
  · cases hmover.symm.trans hi
    refine ⟨others, hperm, ?_⟩
    have hstep : Alone s id v (v.choose s (.turn i)) := .step _ .refl (by simp [subject?, hi])
    rwa [heq, takeTurn_eq] at hstep
  · cases hnone.symm.trans hi
  · cases hd

/-- A task that was put where it goes on can be made ready at once. -/
private theorem alone_ready {turn : Turn} (hturn : turn.left? = some (job, waits)) :
    ∃ v, Alone s id (w.place id turn) v ∧ ⟨id, job, waits⟩ ∈ v.ready ∧ v.view = w.view ∧
      v.traveller = w.traveller ∧ v.queue = w.queue ∧ v.outcomes = w.outcomes := by
  cases turn with
  | go job' waits' =>
      cases hturn
      exact ⟨_, .refl, List.mem_cons_self, rfl, rfl, rfl, rfl⟩
  | pause job' waits' =>
      cases hturn
      have hi : (w.place id (.pause job waits)).paused[w.paused.length]? = some ⟨id, job, waits⟩ := by
        simp [place]
      refine ⟨_, .step (.resume w.paused.length) .refl (by simp only [subject?, hi, Option.map_some]),
        ?_⟩
      simp only [choose, hi]
      exact ⟨by simp, rfl, rfl, rfl, rfl⟩
  | sleep ms job' waits' =>
      cases hturn
      cases ms with
      | zero => exact ⟨_, .refl, List.mem_cons_self, rfl, rfl, rfl, rfl⟩
      | succ n =>
          have hi : (w.place id (.sleep (n + 1) job waits)).asleep[w.asleep.length]? =
              some (w.now + (n + 1), ⟨id, job, waits⟩) := by
            simp [place]
          refine ⟨_, .step (.wake w.asleep.length (w.now + (n + 1))) .refl
            (by simp only [subject?, hi, Option.map_some]), ?_⟩
          have htime : w.now + (n + 1) ≤ w.now + (n + 1) ∧
              (w.place id (.sleep (n + 1) job waits)).now ≤ w.now + (n + 1) :=
            ⟨Nat.le_refl _, Nat.le_add_right _ _⟩
          simp only [choose, hi, htime, and_self, if_true]
          exact ⟨by simp, rfl, rfl, rfl, rfl⟩
  | queue job' waits' => cases hturn
  | finish o => cases hturn

/-! ## In the middle of a performance -/

/-- A task that was asked for a move when the world was `u` is ready and holds the way, and no other
task has taken a turn since. -/
structure Solo (s : Stage) (u : World) (m : Move) (v : World) (job : Job) (waits : List Wait) :
    Prop where
  reachable : Reachable s u
  alone : Alone s u.nextTask (u.ask (.move m)) v
  ready : ⟨u.nextTask, job, waits⟩ ∈ v.ready
  traveller : v.traveller = some u.nextTask
  queue : v.queue = []

/-- Where the way is free a performance begins with taking it. -/
theorem Solo.start (hu : Reachable s u) (hfree : u.traveller = none) (m : Move) :
    ∃ v, Solo s u m v (.depart m) [.journey] ∧ v.view = u.view := by
  have hqueue : u.queue = [] := hu.way.free hfree
  -- The task is asked for the move, seeks the way and takes it
  have hasked : ⟨u.nextTask, .travel m, []⟩ ∈ (u.ask (.move m)).ready := by
    simp [ask, World.start]
  obtain ⟨others, -, hseek⟩ := alone_turn (s := s) hasked
  have hseeks : ⟨u.nextTask, .seek m, [.journey]⟩ ∈
      (((Job.travel m).step s { u.ask (.move m) with ready := others } u.nextTask []).1.place
        u.nextTask ((Job.travel m).step s { u.ask (.move m) with ready := others } u.nextTask []).2).ready :=
    List.mem_cons_self
  obtain ⟨others', -, htake⟩ := alone_turn (s := s) hseeks
  refine ⟨_, ⟨hu, hseek.trans htake, ?_, ?_, ?_⟩, ?_⟩
  all_goals simp only [Job.step, travel, seek, ask, World.start, place, List.any_nil,
    Bool.false_eq_true, if_false, hfree]
  · exact List.mem_cons_self
  · exact hqueue
  · rfl

/-- A step of a performance that has not ended. -/
theorem Solo.step {above base : List Wait} (h : Solo s u m v job (above ++ base))
    (hgo : job.isEnded = true → above ≠ []) (hway : base.any Wait.isJourney = true)
    (hseek : ∀ m, job ≠ .seek m) {job' : Job} {waits' : List Wait}
    (hturn : (job.step s v u.nextTask (above ++ base)).2.left? = some (job', waits')) :
    ∃ v', Solo s u m v' job' waits' ∧
      v'.view = (job.step s v u.nextTask (above ++ base)).1.view := by
  obtain ⟨others, hperm, hstep⟩ := alone_turn (s := s) h.ready
  have hreach : Reachable s v := h.alone.reachable (h.reachable.choose (.ask (.move m)))
  have hhand := hreach.way.take hperm
  -- Who is still on the way does not give it on
  have hend : ∀ o ys, job = .ended o → above ++ base ≠ .journey :: ys := by
    rintro o ys rfl
    exact (hhand.stacked _ List.mem_cons_self).ne_journey hway (hgo rfl) ys
  have hkeep := hhand.toTimed.undisturbed hseek hend
    (Job.step_effect s { v with ready := others } u.nextTask (above ++ base) job)
  obtain ⟨hview, hsame⟩ :
      SameStep (job.step s { v with ready := others } u.nextTask (above ++ base))
        (job.step s v u.nextTask (above ++ base)) := Job.step_congr rfl hseek
  obtain ⟨v', hready, hmem, hview', htraveller, hqueue, -⟩ := @alone_ready s
    (job.step s { v with ready := others } u.nextTask (above ++ base)).1 u.nextTask _ _ _
    (hsame ▸ hturn)
  refine ⟨v', ⟨h.reachable, h.alone.trans (hstep.trans hready), hmem, ?_, ?_⟩, ?_⟩
  · exact htraveller.trans (hkeep.traveller.trans h.traveller)
  · exact hqueue.trans (hkeep.queue.trans h.queue)
  · exact hview'.trans hview

/-- The last steps of a performance. -/
theorem Solo.finish {o : Outcome} (h : Solo s u m v (.ended o) [.journey]) :
    ∃ v', Performs s u m o v' ∧ v'.view = v.view ∧ v'.traveller = none ∧ v'.queue = [] := by
  -- The way is given on to nobody, and the task ends
  obtain ⟨others, -, hgive⟩ := alone_turn (s := s) h.ready
  have hgives : ⟨u.nextTask, .ended o, []⟩ ∈
      (((Job.ended o).step s { v with ready := others } u.nextTask [.journey]).1.place u.nextTask
        ((Job.ended o).step s { v with ready := others } u.nextTask [.journey]).2).ready :=
    List.mem_cons_self
  obtain ⟨others', -, hend⟩ := alone_turn (s := s) hgives
  refine ⟨_, ⟨h.alone.trans (hgive.trans hend), ?_⟩, ?_, ?_, ?_⟩
  all_goals simp only [Job.step, Wait.resume, handOver, h.queue, Turn.ended, place]
  · simp
  · rfl

end World

end DiagramTour
