import DiagramTour.Playback.Run

/-!
# Schedules

Whoever plays a tour asks a player for one thing after the other, without waiting for what was asked
for before, and nobody says whose turn comes next.  A schedule is one way in which all of this can
happen; what holds along every schedule holds whatever the order is.

## Architecture

- A `Demand` is what a player can be asked for from outside.
- A `Choice` is one thing that happens next: some task that is ready takes a step or lets others go
  first, some task that paused or slept is ready again, or something is asked for.
- `World.choose` carries out a choice, `World.follow` one after the other.
- The scheduler of a player makes some of these choices: `World.step_eq_follow`.
-/

namespace DiagramTour

/-! ## Tasks of a world -/

namespace World

/-- The tasks that are under way, but for those that queue for the way. -/
def active (w : World) : List Task :=
  w.ready ++ w.paused ++ w.asleep.map Prod.snd

/-- All tasks that have not ended. -/
def tasks (w : World) : List Task :=
  w.active ++ w.queue

end World

/-! ## What can be asked for -/

mutual

/-- Whether a response can come from a subscriber of a player: it has the player, but not the bus
on which the player announces. -/
def Response.isOutside : Response → Bool
  | .subscribe _ _ responses => Response.areOutside responses
  -- What follows from all that was written down may be anything
  | .clear | .announce _ | .review _ => false
  | .unsubscribe _ | .destroy => true

/-- Whether all responses can come from a subscriber of a player. -/
def Response.areOutside : List Response → Bool
  | [] => true
  | r :: rs => r.isOutside && Response.areOutside rs

end

/-- What a player is asked for from outside. -/
inductive Demand where
  /-- Begin to play; a payload is announced first. -/
  | begin (render : Option Json)
  | move (move : Move)
  | dispatch (event : HostEvent)
  | sleep (ms : Nat)
  | subscribe (label : String) (topic : Topic) (responses : List Response)
  | unsubscribe (label : String)
  /-- End the player. -/
  | destroy

/-- What happens next. -/
inductive Choice where
  /-- The ready task at a place takes a step. -/
  | turn (i : Nat)
  /-- The ready task at a place lets the others go first. -/
  | yield (i : Nat)
  /-- The paused task at a place is ready again. -/
  | resume (i : Nat)
  /-- At a time the sleeping task at a place is ready again. -/
  | wake (i now : Nat)
  | ask (demand : Demand)

namespace World

/-- Asks a player for something. -/
def ask (w : World) : Demand → World
  | .begin render => w.start (.begin render) []
  | .move m => w.start (.travel m) []
  | .dispatch event =>
    let listeners := w.host.matching event
    w.start (.fire event listeners listeners.length) []
  | .sleep ms => w.start (.sleep ms) []
  | .subscribe label topic responses =>
    if Response.areOutside responses then
      { w with bus := w.bus.subscribe label topic responses }
    else w
  | .unsubscribe label => { w with bus := w.bus.release label }
  | .destroy => w.destroy

/-- Takes one step of a task; the others are those that are ready besides. -/
def takeTurn (s : Stage) (w : World) (t : Task) (others : List Task) : World :=
  let (w, turn) := t.job.step s { w with ready := others } t.id t.waits
  w.place t.id turn

/-- Carries out a choice.  A choice that is not there changes nothing. -/
def choose (s : Stage) (w : World) : Choice → World
  | .turn i =>
    match w.ready[i]? with
    | some t => w.takeTurn s t (w.ready.eraseIdx i)
    | none => w
  | .yield i =>
    match w.ready[i]? with
    | some t => { w with ready := w.ready.eraseIdx i ++ [t] }
    | none => w
  | .resume i =>
    match w.paused[i]? with
    | some t => { w with paused := w.paused.eraseIdx i, ready := w.ready ++ [t] }
    | none => w
  | .wake i now =>
    match w.asleep[i]? with
    | some (due, t) =>
      -- Nobody wakes up early, and the clock never goes back
      if due ≤ now ∧ w.now ≤ now then
        { w with now, asleep := w.asleep.eraseIdx i, ready := w.ready ++ [t] }
      else w
    | none => w
  | .ask d => w.ask d

/-- Carries out one choice after the other. -/
def follow (s : Stage) (w : World) (cs : List Choice) : World :=
  cs.foldl (choose s) w

/-- The task that takes a step in a choice, if one does. -/
def mover? (w : World) : Choice → Option Task
  | .turn i => w.ready[i]?
  | _ => none

/-- A world that a player can be in. -/
def Reachable (s : Stage) (w : World) : Prop :=
  ∃ cs, w = follow s {} cs

variable {s : Stage} {w : World}

@[simp] theorem follow_nil : w.follow s [] = w := rfl

@[simp] theorem follow_cons (c : Choice) (cs : List Choice) :
    w.follow s (c :: cs) = (w.choose s c).follow s cs := rfl

/-- A turn is a step, and then the task is put where it goes on. -/
theorem takeTurn_eq (t : Task) (others : List Task) :
    w.takeTurn s t others = (t.job.step s { w with ready := others } t.id t.waits).1.place t.id
      (t.job.step s { w with ready := others } t.id t.waits).2 := rfl

theorem follow_append (cs ds : List Choice) :
    w.follow s (cs ++ ds) = (w.follow s cs).follow s ds :=
  List.foldl_append

theorem Reachable.initial : Reachable s {} :=
  ⟨[], rfl⟩

theorem Reachable.follow (h : Reachable s w) (cs : List Choice) : Reachable s (w.follow s cs) := by
  obtain ⟨ds, rfl⟩ := h
  exact ⟨ds ++ cs, (follow_append ds cs).symm⟩

theorem Reachable.choose (h : Reachable s w) (c : Choice) : Reachable s (w.choose s c) :=
  h.follow [c]

/-- What is kept by every choice of a schedule is kept by the schedule. -/
theorem follow_induction_of_mem {P : World → Prop} : ∀ (cs : List Choice) (w : World),
    (∀ c ∈ cs, ∀ w, P w → P (w.choose s c)) → P w → P (w.follow s cs)
  | [], _, _, h => h
  | c :: cs, w, hstep, h =>
      follow_induction_of_mem cs (w.choose s c) (fun d hd => hstep d (List.mem_cons_of_mem _ hd))
        (hstep c List.mem_cons_self w h)

/-- What holds of every choice holds of every schedule. -/
theorem follow_induction {P : World → Prop} (hstep : ∀ w c, P w → P (w.choose s c))
    (cs : List Choice) (w : World) (h : P w) : P (w.follow s cs) :=
  follow_induction_of_mem cs w (fun c _ w => hstep w c) h

/-- What holds at first, and is kept by every choice, holds of every world that can be reached. -/
theorem Reachable.induction {P : World → Prop} (hfirst : P {})
    (hstep : ∀ w c, P w → P (w.choose s c)) (h : Reachable s w) : P w := by
  obtain ⟨cs, rfl⟩ := h
  exact follow_induction hstep cs {} hfirst

/-! ## The scheduler of a player follows a schedule -/

private theorem follow_resume :
    ∀ (ts : List Task) (w : World), w.paused = ts →
      w.follow s (List.replicate ts.length (.resume 0)) =
        { w with ready := w.ready ++ ts, paused := [] }
  | [], w, h => by
      cases w
      simp_all
  | t :: ts, w, h => by
      have hfirst : w.choose s (.resume 0) = { w with paused := ts, ready := w.ready ++ [t] } := by
        simp [choose, h]
      rw [List.length_cons, List.replicate_succ, follow_cons, hfirst, follow_resume ts _ rfl]
      simp

/-- A step of the scheduler is a turn of the first task that is ready; where there is none, all who
paused are ready again. -/
theorem step_eq_follow (s : Stage) (w : World) : ∃ cs, w.step s = w.follow s cs := by
  cases hready : w.ready with
  | cons t rest =>
      refine ⟨[.turn 0], ?_⟩
      simp [step, choose, takeTurn, hready]
  | nil =>
      refine ⟨List.replicate w.paused.length (.resume 0), ?_⟩
      rw [follow_resume w.paused w rfl]
      simp [step, hready]

end World

end DiagramTour
