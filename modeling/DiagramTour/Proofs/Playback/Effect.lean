import DiagramTour.Proofs.Playback.Schedule

/-!
# What a step does

Most steps of a task leave alone everything that tasks share.  The others are few: a step may end
the player, start a task, take the way or give it on, and put up or take down reactions, and only at
a few points may it change where the player stands.

## Architecture

- Loops over reactions get closed forms (`Host.attach_eq`, `World.startTimers_eq`).
- `Job.Effect` lists all that a step can do to a world, and `Job.step_effect` says that this is all.
- `World.Calm` holds of the steps that touch nothing but the journal, the subscriptions and counters.
- `Job.Shift` lists all that a step can do to the task that takes it, and `Job.step_shift` says that
  this is all.  Where handlers, listeners and subscribers are at work one rule stands for many cases.
-/

namespace DiagramTour

/-! ## Closed forms -/

/-- Listeners are attached behind those that are there, with the next numbers. -/
theorem Host.attach_eq (ls : List (Nat → Listener)) :
    ∀ h : Host, h.attach ls =
      (⟨h.next + ls.length, h.listeners ++ (ls.zipIdx h.next).map fun l => l.1 l.2⟩,
        List.range' h.next ls.length) := by
  induction ls with
  | nil => intro h; simp [Host.attach]
  | cons l ls ih =>
      intro h
      simp only [Host.attach, ih, List.zipIdx_cons, List.map_cons, List.length_cons,
        List.range'_succ, List.append_assoc, List.singleton_append]
      rw [Nat.add_assoc, Nat.add_comm 1]

/-- The tasks that wait for the timers of some rules, numbered from `next`. -/
def timerTasks (setting : Setting) (next : Nat) (rs : List Reaction) : List Task :=
  (rs.zipIdx next).map fun r => ⟨r.2, .await setting r.1.delay r.1.actions, []⟩

namespace World

variable {s : Stage} {w : World}

/-- Timers are started behind all that is ready, with the next numbers. -/
theorem startTimers_eq (setting : Setting) (rs : List Reaction) :
    ∀ w : World, startTimers setting rs w =
      ({ w with
          nextTask := w.nextTask + rs.length
          ready := w.ready ++ timerTasks setting w.nextTask rs },
        List.range' w.nextTask rs.length) := by
  induction rs with
  | nil => intro w; simp [startTimers, timerTasks]
  | cons r rs ih =>
      intro w
      simp only [startTimers, ih, start, timerTasks, List.zipIdx_cons, List.map_cons,
        List.length_cons, List.range'_succ, List.append_assoc, List.singleton_append]
      rw [Nat.add_assoc, Nat.add_comm 1]

/-- The listeners that some rules become. -/
def listenersOf (s : Stage) (setting : Setting) (rs : List Reaction) : List (Nat → Listener) :=
  rs.filterMap (·.listener? s.elements setting)

/-- The rules that become timers. -/
def timersOf (s : Stage) (rs : List Reaction) : List Reaction :=
  if s.concurrent then rs.filter Reaction.isTimer else []

/-- The reactions of a part after some more were put up. -/
def grownRig (s : Stage) (w : World) (p : Part) (rs : List Reaction) (setting : Setting) : Rig :=
  ⟨(w.rig p).listeners ++ List.range' w.host.next (listenersOf s setting rs).length,
    (w.rig p).timers ++ List.range' w.nextTask (timersOf s rs).length⟩

/-- What it is to put up the listeners and timers of some rules. -/
theorem bind_eq (p : Part) (rs : List Reaction) (setting : Setting) :
    w.bind s p rs setting = { w with
      host := ⟨w.host.next + (listenersOf s setting rs).length,
        w.host.listeners ++ ((listenersOf s setting rs).zipIdx w.host.next).map fun l => l.1 l.2⟩
      nextTask := w.nextTask + (timersOf s rs).length
      ready := w.ready ++ timerTasks setting w.nextTask (timersOf s rs)
      tourRig := if p = .tour then w.grownRig s p rs setting else w.tourRig
      stopRig := if p = .stop then w.grownRig s p rs setting else w.stopRig } := by
  cases p <;>
    simp [bind, Host.attach_eq, startTimers_eq, setRig, rig, grownRig, listenersOf, timersOf]

/-- What it is to take down the reactions of a part. -/
theorem release_eq (p : Part) :
    w.release p = { w with
      host := w.host.detach (w.rig p).listeners
      ready := w.ready.filter fun t => !(w.rig p).timers.contains t.id
      asleep := w.asleep.filter fun t => !(w.rig p).timers.contains t.2.id
      tourRig := if p = .tour then {} else w.tourRig
      stopRig := if p = .stop then {} else w.stopRig } := by
  cases p <;> simp [release, cancel, setRig, rig]

/-- Taking marks off only counts. -/
theorem tidy_eq (stop : Stop) :
    ∃ resets clears, w.tidy s stop = { w with resets, clears } := by
  simp only [tidy]
  split <;> split <;> split <;> exact ⟨_, _, rfl⟩

/-! ## Effects -/

/-- Two worlds that differ in nothing but what was written down, who is subscribed, and counters. -/
structure Calm (w w' : World) : Prop where
  intro ::
  eq : ∃ journal bus resets clears frames,
    w' = { w with journal, bus, resets, clears, frames }

theorem Calm.refl (w : World) : w.Calm w :=
  ⟨w.journal, w.bus, w.resets, w.clears, w.frames, rfl⟩

end World

/-- What a step of a task can do to a world. -/
inductive Job.Effect (s : Stage) (w : World) (id : Nat) : Job → List Wait → World → Prop where
  /-- Nothing that counts for other tasks. -/
  | calm {job : Job} {waits : List Wait} {w' : World} : w.Calm w' → Job.Effect s w id job waits w'
  /-- End the player. -/
  | destroy {job : Job} {waits : List Wait} : Job.Effect s w id job waits w.destroy
  /-- Start a task for a move that is part of another one. -/
  | spawn {m : Move} {waits : List Wait} : waits.any Wait.isJourney = true →
      Job.Effect s w id (.travel m) waits (w.start (.seek m) [.journey])
  /-- Start a task for the actions of a timer that has elapsed. -/
  | ring {setting : Setting} {delay : Nat} {actions : List Action} {waits : List Wait}
      (event : FiredEvent) :
      Job.Effect s w id (.ring setting delay actions) waits
        (w.start (.run setting (some event) actions []) [.report setting.outlet])
  /-- Take the way. -/
  | take {m : Move} {waits : List Wait} : w.traveller = none →
      Job.Effect s w id (.seek m) waits { w with traveller := some id }
  /-- Leave the current stop. -/
  | leave {m : Move} {waits : List Wait} {j : Nat} : w.destroyed = false →
      w.target? s m = some j →
      Job.Effect s w id (.depart m) waits ((w.release .stop).tidy s (World.stopAt s j))
  /-- Reach a stop. -/
  | arrive {o : Outcome} {j : Nat} {es : List ActionError} {waits : List Wait} :
      Job.Effect s w id (.ended o) (.arrived j es :: waits)
        (World.bind s { w with position := j, error := es.getLast? } .stop
          (World.stopAt s j).reactions (World.settingOf s j (World.stopAt s j)))
  /-- Put up the reactions that hold throughout. -/
  | open {o : Outcome} {waits : List Wait} :
      Job.Effect s w id (.ended o) (.opened :: waits)
        (w.bind s .tour s.document.reactions
          ⟨-1, none, s.config.defaultErrorPolicy, .announce⟩)
  /-- Give up a stop that an action failed at. -/
  | abort {e : ActionError} {j : Nat} {waits : List Wait} :
      Job.Effect s w id (.ended (.failed e)) (.entered j :: waits) { w with error := some e }
  /-- Give the way on. -/
  | handOver {o : Outcome} {waits : List Wait} :
      Job.Effect s w id (.ended o) (.journey :: waits) w.handOver

namespace World

variable {s : Stage} {w : World} {id : Nat}

theorem Calm.of_eq {w' : World} {journal : List Record} {bus : Bus} {resets clears frames : Nat}
    (h : w' = { w with journal, bus, resets, clears, frames }) : w.Calm w' :=
  ⟨journal, bus, resets, clears, frames, h⟩

private theorem deliver_effect (waits : List Wait) (ds : List Delivery) :
    Job.Effect s w id (.deliver ds) waits (w.deliver waits ds).1 := by
  match ds with
  | [] => exact .calm (.refl w)
  | .announce _ :: _ => exact .calm (.of_eq rfl)
  | .hear _ _ :: _ => exact .calm (.of_eq rfl)
  | .respond response :: _ =>
      cases response with
      | destroy => exact .destroy
      | _ => exact .calm (.of_eq rfl)

end World

private theorem Command.step_effect {s : Stage} {w : World} {id : Nat} (waits : List Wait)
    (kind : String) (c : Command) (next : c.Reply → Behaviour) :
    Job.Effect s w id (.act kind (.perform c next)) waits (c.step s w waits kind next).1 := by
  cases c with
  | destroy => exact .destroy
  | resetCamera =>
      simp only [Command.step]
      split <;> exact .calm (.of_eq rfl)
  | clearOverlay =>
      simp only [Command.step]
      split <;> exact .calm (.of_eq rfl)
  | _ => exact .calm (.of_eq rfl)

private theorem Wait.resume_effect {s : Stage} {w : World} {id : Nat} (waits : List Wait)
    (o : Outcome) (wait : Wait) :
    Job.Effect s w id (.ended o) (wait :: waits) (wait.resume s w waits o).1 := by
  cases wait with
  | handled kind setting event actions errors =>
      cases o <;> simp only [Wait.resume] <;> try split
      all_goals exact .calm (.refl w)
  | report outlet =>
      cases o <;> cases outlet <;> exact .calm (.of_eq rfl)
  | opened =>
      simp only [Wait.resume, World.opened]
      split <;> exact .open
  | entered index =>
      cases o with
      | failed e => exact .abort
      | _ => exact .calm (.refl w)
  | arrived index errors => exact .arrive
  | journey => exact .handOver
  | concluded outcome => exact .calm (.refl w)
  | moved kind next => cases o <;> exact .calm (.refl w)
  | dispatched kind next => cases o <;> exact .calm (.refl w)
  | fired event listeners total => cases o <;> exact .calm (.refl w)
  | cleared index => cases o <;> exact .calm (.refl w)

/-- Whatever a step does to a world is one of the effects. -/
theorem Job.step_effect (s : Stage) (w : World) (id : Nat) (waits : List Wait) (job : Job) :
    Job.Effect s w id job waits (job.step s w id waits).1 := by
  cases job with
  | run setting event actions errors =>
      cases actions with
      | nil => exact .calm (.refl w)
      | cons a rest =>
          simp only [Job.step, World.runActions]
          split <;> exact .calm (.of_eq rfl)
  | act kind behaviour =>
      cases behaviour with
      | perform c next => exact Command.step_effect waits kind c next
      | _ => exact .calm (.refl w)
  | fire event listeners total =>
      cases listeners with
      | nil => exact .calm (.refl w)
      | cons l rest =>
          simp only [Job.step, World.fire]
          split <;> exact .calm (.refl w)
  | deliver deliveries => exact World.deliver_effect waits deliveries
  | «begin» render => exact .calm (.refl w)
  | travel m =>
      simp only [Job.step, World.travel]
      split
      · rename_i h
        split
        · exact .spawn h
        · exact .calm (.refl w)
      · exact .calm (.refl w)
  | seek m =>
      simp only [Job.step, World.seek]
      split
      · rename_i h
        exact .take h
      · exact .calm (.refl w)
  | depart m =>
      simp only [Job.step, World.depart]
      split
      · exact .calm (.refl w)
      · rename_i h
        split
        · exact .calm (.refl w)
        · rename_i j hj
          exact .leave (by simpa using h) hj
  | settle index frames =>
      cases frames with
      | zero => exact .calm (.refl w)
      | succ n =>
          simp only [Job.step, World.settle]
          split <;> exact .calm (.of_eq rfl)
  | await setting delay actions => exact .calm (.refl w)
  | ring setting delay actions => exact .ring _
  | sleep ms => exact .calm (.refl w)
  | ended outcome =>
      cases waits with
      | nil => exact .calm (.refl w)
      | cons wait waits => exact Wait.resume_effect waits outcome wait

/-! ## Shifts -/

/-- Whether a job is the work of handlers, listeners or subscribers. -/
def Job.isInner : Job → Bool
  | .run _ _ _ _ | .act _ _ | .fire _ _ _ | .deliver _ => true
  | _ => false

/-- Whether a job has ended. -/
def Job.isEnded : Job → Bool
  | .ended _ => true
  | _ => false

/-- Whether handlers, listeners or subscribers go on after a wait. -/
def Wait.isInner : Wait → Bool
  | .handled _ _ _ _ _ | .moved _ _ | .dispatched _ _ | .fired _ _ _ | .report _ => true
  | _ => false

/-- The job and the waits at which a turn leaves a task that need not queue. -/
def Turn.left? : Turn → Option (Job × List Wait)
  | .go job waits | .pause job waits | .sleep _ job waits => some (job, waits)
  | .queue _ _ | .finish _ => none

/-- What a step can do to the task that takes it. -/
inductive Job.Shift (s : Stage) (w : World) : Job → List Wait → Turn → Prop where
  /-- Inner work goes on, perhaps for more inner work or a move to be waited for. -/
  | inner {job job' : Job} (top : List Wait) {waits : List Wait} {turn : Turn} : job.isInner = true →
      turn.left? = some (job', top ++ waits) →
      (job'.isInner = true ∨ job'.isEnded = true ∨ ∃ m, job' = .travel m) →
      (∀ x ∈ top, x.isInner = true) → Job.Shift s w job waits turn
  /-- Inner work goes on after what it waited for. -/
  | resume {o : Outcome} {wait : Wait} {waits : List Wait} {job' : Job} : wait.isInner = true →
      (job'.isInner = true ∨ job'.isEnded = true) →
      Job.Shift s w (.ended o) (wait :: waits) (.go job' waits)
  | «begin» {render : Option Json} {ds : List Delivery} {waits : List Wait} :
      Job.Shift s w (.begin render) waits (.go (.deliver ds) (.opened :: waits))
  | opened {o : Outcome} {waits : List Wait} {job' : Job} :
      (job' = .ended .completed ∨ job' = .travel (.index 0)) →
      Job.Shift s w (.ended o) (.opened :: waits) (.go job' waits)
  /-- A move that is part of another one is left to a task of its own. -/
  | nested {m : Move} {waits : List Wait} : waits.any Wait.isJourney = true →
      Job.Shift s w (.travel m) waits (.ended .completed waits)
  | travel {m : Move} {waits : List Wait} : waits.any Wait.isJourney = false →
      Job.Shift s w (.travel m) waits (.go (.seek m) (.journey :: waits))
  | take {m : Move} {waits : List Wait} : w.traveller = none →
      Job.Shift s w (.seek m) waits (.go (.depart m) waits)
  | queue {m : Move} {waits : List Wait} {id : Nat} : w.traveller = some id →
      Job.Shift s w (.seek m) waits (.queue (.depart m) waits)
  | stay {m : Move} {waits : List Wait} : Job.Shift s w (.depart m) waits (.ended .completed waits)
  | leave {m : Move} {waits : List Wait} {setting : Setting} {j : Nat} : w.destroyed = false →
      w.target? s m = some j → Job.Shift s w (.depart m) waits
        (.go (.run setting none [World.clearAction] []) (.cleared j :: waits))
  | cleared {o : Outcome} {j : Nat} {waits : List Wait} {job' : Job} :
      (job'.isEnded = true ∨ ∃ n, job' = .settle j n) →
      Job.Shift s w (.ended o) (.cleared j :: waits) (.go job' waits)
  | settle {j n : Nat} {waits : List Wait} {turn : Turn} :
      turn.left? = some (.settle j n, waits) → Job.Shift s w (.settle j (n + 1)) waits turn
  | enter {j : Nat} {waits : List Wait} {setting : Setting} {actions : List Action} :
      Job.Shift s w (.settle j 0) waits (.go (.run setting none actions []) (.entered j :: waits))
  /-- All actions of a stop were run, or none of them could. -/
  | entered {o : Outcome} {j : Nat} {wait : Wait} {ds : List Delivery} {waits : List Wait} :
      ((∃ es, o = .collected es ∧ wait = .arrived j es) ∨
        ∃ e, o = .failed e ∧ wait = .concluded o) →
      Job.Shift s w (.ended o) (.entered j :: waits) (.go (.deliver ds) (wait :: waits))
  | broken {o : Outcome} {j : Nat} {waits : List Wait} :
      Job.Shift s w (.ended o) (.entered j :: waits) (.ended o waits)
  | arrive {o : Outcome} {j : Nat} {es : List ActionError} {ds : List Delivery}
      {waits : List Wait} :
      Job.Shift s w (.ended o) (.arrived j es :: waits)
        (.go (.deliver ds) (.concluded .completed :: waits))
  | concluded {o o' : Outcome} {waits : List Wait} :
      Job.Shift s w (.ended o) (.concluded o' :: waits) (.ended o' waits)
  | handOver {o : Outcome} {waits : List Wait} :
      Job.Shift s w (.ended o) (.journey :: waits) (.ended o waits)
  | await {setting : Setting} {delay : Nat} {actions : List Action} {waits : List Wait} :
      Job.Shift s w (.await setting delay actions) waits
        (.sleep delay (.ring setting delay actions) waits)
  | ring {setting : Setting} {delay : Nat} {actions : List Action} {waits : List Wait} :
      Job.Shift s w (.ring setting delay actions) waits (.ended .completed waits)
  | sleep {ms : Nat} {waits : List Wait} :
      Job.Shift s w (.sleep ms) waits (.sleep ms (.ended .completed) waits)
  | finish {o : Outcome} : Job.Shift s w (.ended o) [] (.finish o)

namespace Job.Shift

variable {s : Stage} {w : World} {job : Job} {waits : List Wait}

/-- Inner work that needs nothing but itself. -/
private theorem alone {job' : Job} {turn : Turn} (h : job.isInner = true)
    (hturn : turn.left? = some (job', waits)) (h' : job'.isInner = true ∨ job'.isEnded = true) :
    Shift s w job waits turn := by
  refine .inner [] h hturn ?_ (by simp)
  rcases h' with h' | h'
  · exact .inl h'
  · exact .inr (.inl h')

private theorem command (kind : String) (c : Command) (next : c.Reply → Behaviour) :
    Shift s w (.act kind (.perform c next)) waits (c.step s w waits kind next).2 := by
  cases c with
  | move m => exact .inner [.moved kind next] rfl rfl (.inr (.inr ⟨m, rfl⟩)) (by simp [Wait.isInner])
  | dispatch event =>
      exact .inner [.dispatched kind next] rfl rfl (.inl rfl) (by simp [Wait.isInner])
  | _ => exact alone rfl rfl (.inl rfl)

private theorem wait (o : Outcome) (wait : Wait) :
    Shift s w (.ended o) (wait :: waits) (wait.resume s w waits o).2 := by
  cases wait with
  | handled kind setting event actions errors =>
      cases o <;> simp only [Wait.resume] <;> try split
      all_goals exact .resume rfl (by simp [isInner, isEnded])
  | moved kind next => cases o <;> exact .resume rfl (by simp [isInner, isEnded])
  | dispatched kind next => cases o <;> exact .resume rfl (by simp [isInner, isEnded])
  | fired event listeners total => cases o <;> exact .resume rfl (by simp [isInner, isEnded])
  | report outlet =>
      cases o <;> cases outlet <;> exact .resume rfl (by simp [isInner, isEnded])
  | opened =>
      simp only [Wait.resume, World.opened]
      split
      · exact .opened (.inl rfl)
      · exact .opened (.inr rfl)
  | cleared j =>
      cases o with
      | crashed c => exact .cleared (.inl rfl)
      | _ => exact .cleared (.inr ⟨_, rfl⟩)
  | entered j =>
      cases o with
      | collected es => exact .entered (.inl ⟨es, rfl, rfl⟩)
      | failed e => exact .entered (.inr ⟨e, rfl, rfl⟩)
      | _ => exact .broken
  | arrived j es => exact .arrive
  | concluded o' => exact .concluded
  | journey => exact .handOver

end Job.Shift

/-- Whatever a step does to the task that takes it is one of the shifts. -/
theorem Job.step_shift (s : Stage) (w : World) (id : Nat) (waits : List Wait) (job : Job) :
    Job.Shift s w job waits (job.step s w id waits).2 := by
  cases job with
  | run setting event actions errors =>
      cases actions with
      | nil => exact .alone rfl rfl (.inr rfl)
      | cons a rest =>
          simp only [Job.step, World.runActions]
          split
          · exact .inner [.handled _ _ _ _ _] rfl rfl (.inr (.inl rfl)) (by simp [Wait.isInner])
          · exact .inner [.handled _ _ _ _ _] rfl rfl (.inl rfl) (by simp [Wait.isInner])
  | act kind behaviour =>
      cases behaviour with
      | perform c next => exact .command kind c next
      | _ => exact .alone rfl rfl (.inr rfl)
  | fire event listeners total =>
      cases listeners with
      | nil => exact .alone rfl rfl (.inr rfl)
      | cons l rest =>
          simp only [Job.step, World.fire]
          split
          · exact .inner [.report _, .fired _ _ _] rfl rfl (.inl rfl) (by simp [Wait.isInner])
          · exact .alone rfl rfl (.inl rfl)
  | deliver ds =>
      match ds with
      | [] => exact .alone rfl rfl (.inr rfl)
      | .announce _ :: _ => exact .alone rfl rfl (.inl rfl)
      | .hear _ _ :: _ => exact .alone rfl rfl (.inl rfl)
      | .respond response :: _ => cases response <;> exact .alone rfl rfl (.inl rfl)
  | «begin» render => exact .begin
  | travel m =>
      simp only [Job.step, World.travel]
      split
      · rename_i h
        exact .nested h
      · rename_i h
        exact .travel (by simpa using h)
  | seek m =>
      simp only [Job.step, World.seek]
      split
      · rename_i h
        exact .take h
      · rename_i h
        exact .queue h
  | depart m =>
      simp only [Job.step, World.depart]
      split
      · exact .stay
      · rename_i h
        split
        · exact .stay
        · rename_i hj
          exact .leave (by simpa using h) hj
  | settle j n =>
      cases n with
      | zero => exact .enter
      | succ n =>
          simp only [Job.step, World.settle]
          split <;> exact .settle rfl
  | await setting delay actions => exact .await
  | ring setting delay actions => exact .ring
  | sleep ms => exact .sleep
  | ended o =>
      cases waits with
      | nil => exact .finish
      | cons wait waits => exact .wait o wait

end DiagramTour
