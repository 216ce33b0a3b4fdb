import DiagramTour.Playback.World

/-!
# The steps of a task

What a task does next depends on the job it is at, or, when that has ended, on the wait below it.
A step never runs anything else to its end: it leaves the task at another job, or with another wait.

## Architecture

- `Job.step` begins a job, `Wait.resume` goes on after one.
- A `Turn` is where a step leaves the task.
- `World.step` takes one step of the task whose turn it is.
-/

namespace DiagramTour

/-- Where a step leaves a task. -/
inductive Turn where
  /-- At a job, without giving up its turn. -/
  | go (job : Job) (waits : List Wait)
  /-- At a job, when all others had their turn. -/
  | pause (job : Job) (waits : List Wait)
  /-- At a job, when some time has passed. -/
  | sleep (ms : Nat) (job : Job) (waits : List Wait)
  /-- At a job, when it is given the way. -/
  | queue (job : Job) (waits : List Wait)
  /-- At its end. -/
  | finish (outcome : Outcome)

/-- Ends a job. -/
def Turn.ended (outcome : Outcome) (waits : List Wait) : Turn :=
  .go (.ended outcome) waits

/-! ## Handlers -/

/-- Performs a command of a handler. -/
def Command.step (s : Stage) (w : World) (waits : List Wait) (kind : String) :
    (c : Command) → (c.Reply → Behaviour) → World × Turn
  | .move m, next => (w, .go (.travel m) (.moved kind next :: waits))
  | .destroy, next => (w.destroy, .go (.act kind (next ())) waits)
  | .state, next => (w, .go (.act kind (next (w.state s))) waits)
  | .unsubscribe label, next =>
    ({ w with bus := w.bus.release label }, .go (.act kind (next ())) waits)
  | .pause, next => (w, .pause (.act kind (next ())) waits)
  | .sleep ms, next => (w, .sleep ms (.act kind (next ())) waits)
  | .dispatch event, next =>
    let listeners := w.host.matching event
    (w, .go (.fire event listeners listeners.length) (.dispatched kind next :: waits))
  | .resetCamera, next =>
    let w := if s.hasCamera then { w with resets := w.resets + 1 } else w
    (w, .go (.act kind (next s.hasCamera)) waits)
  | .clearOverlay, next =>
    let w := if s.hasOverlay then { w with clears := w.clears + 1 } else w
    (w, .go (.act kind (next s.hasOverlay)) waits)
  | .resolve anchor, next => (w, .go (.act kind (next (s.elements.resolve? anchor))) waits)
  | .note j, next => (w.write (.noted j), .go (.act kind (next ())) waits)
  | .review, next => (w, .go (.act kind (next w.journal)) waits)

/-- What a handler does next. -/
def Behaviour.step (s : Stage) (w : World) (waits : List Wait) (kind : String) :
    Behaviour → World × Turn
  | .succeed => (w, .ended .completed waits)
  | .fail message contexts =>
    (w, .ended (.failed (.failed kind (Behaviour.explain message contexts))) waits)
  | .crash c => (w, .ended (.crashed c) waits)
  | .perform command next => command.step s w waits kind next

namespace World

/-- Runs actions in order.  A failure ends the batch or is kept, as the policy says. -/
def runActions (s : Stage) (w : World) (waits : List Wait) (setting : Setting)
    (event : Option FiredEvent) (actions : List Action) (errors : List ActionError) : World × Turn :=
  match actions with
  | [] => (w, .ended (.collected errors) waits)
  | a :: rest =>
    let others := .handled a.kind setting event rest errors :: waits
    match s.handlers.find? a.kind with
    | none => (w, .ended (.failed (.unknown a.kind)) others)
    | some handler =>
      let cue : Cue := ⟨a, setting.stop, setting.stopId, event⟩
      (w.write (.called cue), .go (.act a.kind (handler cue)) others)

/-! ## Subscribers -/

/-- Goes on with what is left to tell. -/
def deliver (w : World) (waits : List Wait) : List Delivery → World × Turn
  | [] => (w, .ended .completed waits)
  | .announce notice :: rest =>
    let hearings := (w.bus.audience notice.topic).map (Delivery.hear · notice)
    (w.write (.announced notice), .go (.deliver (hearings ++ rest)) waits)
  | .hear subscriber notice :: rest =>
    (w.write (.heard subscriber.label notice),
      .go (.deliver (subscriber.responses.map .respond ++ rest)) waits)
  | .respond response :: rest =>
    match response with
    | .subscribe label topic responses =>
      ({ w with bus := w.bus.subscribe label topic responses }, .go (.deliver rest) waits)
    | .unsubscribe label => ({ w with bus := w.bus.release label }, .go (.deliver rest) waits)
    | .clear => ({ w with bus := w.bus.clear }, .go (.deliver rest) waits)
    | .announce notice => (w, .go (.deliver (.announce notice :: rest)) waits)
    | .destroy => (w.destroy, .go (.deliver rest) waits)
    | .review next => (w, .go (.deliver ((next w.journal).map .respond ++ rest)) waits)

/-- Tells of the failures of a reaction. -/
def report (w : World) (waits : List Wait) (outlet : Outlet) (errors : List ActionError) :
    World × Turn :=
  match outlet with
  | .announce => (w, .go (.deliver (Delivery.ofFailures errors)) waits)
  | .record =>
    ({ w with journal := w.journal ++ errors.map .unheeded }, .ended .completed waits)

/-! ## Reactions -/

/-- Delivers an event to one listener after the other. -/
def fire (w : World) (waits : List Wait) (event : HostEvent) (listeners : List Listener)
    (total : Nat) : World × Turn :=
  match listeners with
  | [] => (w, .ended (.counted total) waits)
  | l :: rest =>
    if l.accepts event then
      (w, .go (.run l.setting (some (.ofHost event l.place)) l.actions [])
        (.report l.setting.outlet :: .fired event rest total :: waits))
    else (w, .go (.fire event rest total) waits)

/-- Runs the actions of a timer that has elapsed, as a task of their own. -/
def ring (w : World) (waits : List Wait) (setting : Setting) (delay : Nat) (actions : List Action) :
    World × Turn :=
  let event := FiredEvent.ofTimer (.element Elements.root) delay
  (w.start (.run setting (some event) actions []) [.report setting.outlet],
    .ended .completed waits)

/-! ## Moves -/

/-- The action that is run before every stop. -/
def clearAction : Action :=
  ⟨"style.clear", none⟩

/-- Goes somewhere.  A move that is part of another one becomes a task of its own and is waited for
by nobody, as nobody else can have the way before the other one ends. -/
def travel (s : Stage) (w : World) (waits : List Wait) (m : Move) : World × Turn :=
  if waits.any Wait.isJourney then
    let w := if s.concurrent then w.start (.seek m) [.journey] else w
    (w, .ended .completed waits)
  else (w, .go (.seek m) (.journey :: waits))

/-- Takes the way, or queues for it. -/
def seek (w : World) (id : Nat) (waits : List Wait) (m : Move) : World × Turn :=
  match w.traveller with
  | none => ({ w with traveller := some id }, .go (.depart m) waits)
  | some _ => (w, .queue (.depart m) waits)

/-- The circumstances of a stop. -/
def settingOf (s : Stage) (index : Nat) (stop : Stop) : Setting :=
  ⟨index, some stop.id, stop.errorPolicy.getD s.config.defaultErrorPolicy, .announce⟩

/-- The stop at a place. -/
def stopAt (s : Stage) (index : Nat) : Stop :=
  s.document.stops.getD index default

/-- Leaves the current stop for another one, unless the move leads nowhere. -/
def depart (s : Stage) (w : World) (waits : List Wait) (m : Move) : World × Turn :=
  -- The player may have ended while this move queued
  if w.destroyed then (w, .ended .completed waits)
  else
    match w.target? s m with
    | none => (w, .ended .completed waits)
    | some index =>
      let stop := stopAt s index
      let w := (w.release .stop).tidy s stop
      -- Whatever goes wrong while the marks are cleared is passed over
      let setting := { settingOf s index stop with policy := .continueOnError }
      (w, .go (.run setting none [clearAction] []) (.cleared index :: waits))

/-- Lets frames pass, and then runs the actions of the stop. -/
def settle (s : Stage) (w : World) (waits : List Wait) (index : Nat) : Nat → World × Turn
  | 0 =>
    let stop := stopAt s index
    (w, .go (.run (settingOf s index stop) none stop.actions []) (.entered index :: waits))
  | n + 1 =>
    if s.paced then (w, .sleep s.config.frameIntervalMs (.settle index n) waits)
    else ({ w with frames := w.frames + 1 }, .pause (.settle index n) waits)

/-- Reaches a stop: it is the current one, its reactions hold, and everyone is told. -/
def arrive (s : Stage) (w : World) (waits : List Wait) (index : Nat) (errors : List ActionError) :
    World × Turn :=
  let stop := stopAt s index
  -- The new place counts before its reactions hold and before anyone is told
  let w := { w with position := index, error := errors.getLast? }
  let w := w.bind s .stop stop.reactions (settingOf s index stop)
  (w, .go (.deliver [.announce (.stepChange (w.state s))]) (.concluded .completed :: waits))

/-- Begins to play. -/
def begin (w : World) (waits : List Wait) (render : Option Json) : World × Turn :=
  (w, .go (.deliver (render.toList.map fun payload => .announce (.render payload)))
    (.opened :: waits))

/-- Puts up the reactions that hold throughout, and goes to the first stop if there is one. -/
def opened (s : Stage) (w : World) (waits : List Wait) : World × Turn :=
  let w := w.bind s .tour s.document.reactions ⟨-1, none, s.config.defaultErrorPolicy, .announce⟩
  if s.document.stops.isEmpty then (w, .ended .completed waits)
  else (w, .go (.travel (.index 0)) waits)

end World

/-! ## Steps -/

/-- Goes on after what was above has ended. -/
def Wait.resume (s : Stage) (w : World) (waits : List Wait) (o : Outcome) : Wait → World × Turn
  | .handled kind setting event actions errors =>
    match o with
    | .failed e => match setting.policy with
      | .haltOnError => (w, .ended (.failed e) waits)
      | .continueOnError => (w, .go (.run setting event actions (errors ++ [e])) waits)
    | .crashed c => match setting.policy with
      | .haltOnError => (w, .ended (.crashed c) waits)
      | .continueOnError =>
        (w, .go (.run setting event actions (errors ++ [.crashed kind c.message])) waits)
    | _ => (w, .go (.run setting event actions errors) waits)
  | .moved kind next =>
    match o with
    | .failed e => (w, .go (.act kind (next (some e))) waits)
    | .crashed c => (w, .ended (.crashed c) waits)
    | _ => (w, .go (.act kind (next none)) waits)
  | .dispatched kind next =>
    match o with
    | .counted n => (w, .go (.act kind (next n)) waits)
    | _ => (w, .ended o waits)
  | .fired event listeners total =>
    match o with
    | .crashed c => (w, .ended (.crashed c) waits)
    | _ => (w, .go (.fire event listeners total) waits)
  | .report outlet =>
    match o with
    | .collected errors => w.report waits outlet errors
    | .failed e => w.report waits outlet [e]
    | _ => (w, .ended o waits)
  | .opened => w.opened s waits
  | .cleared index =>
    match o with
    | .crashed c => (w, .ended (.crashed c) waits)
    | _ => (w, .go (.settle index s.config.settleFrames) waits)
  | .entered index =>
    match o with
    | .collected errors =>
      (w, .go (.deliver (Delivery.ofFailures errors)) (.arrived index errors :: waits))
    | .failed e =>
      ({ w with error := some e },
        .go (.deliver (Delivery.ofFailures [e])) (.concluded (.failed e) :: waits))
    | _ => (w, .ended o waits)
  | .arrived index errors => w.arrive s waits index errors
  | .concluded outcome => (w, .ended outcome waits)
  -- However the move has ended, the next one may go
  | .journey => (w.handOver, .ended o waits)

/-- Begins a job, or ends a task. -/
def Job.step (s : Stage) (w : World) (id : Nat) (waits : List Wait) : Job → World × Turn
  | .run setting event actions errors => w.runActions s waits setting event actions errors
  | .act kind behaviour => behaviour.step s w waits kind
  | .fire event listeners total => w.fire waits event listeners total
  | .deliver deliveries => w.deliver waits deliveries
  | .begin render => w.begin waits render
  | .travel m => w.travel s waits m
  | .seek m => w.seek id waits m
  | .depart m => w.depart s waits m
  | .settle index frames => w.settle s waits index frames
  | .await setting delay actions => (w, .sleep delay (.ring setting delay actions) waits)
  | .ring setting delay actions => w.ring waits setting delay actions
  | .sleep ms => (w, .sleep ms (.ended .completed) waits)
  | .ended outcome =>
    match waits with
    | [] => (w, .finish outcome)
    | wait :: waits => wait.resume s w waits outcome

namespace World

/-- Puts a task where a step has left it.  Sleeping for no time is not sleeping. -/
def place (w : World) (id : Nat) : Turn → World
  -- Who goes on stays first in line
  | .go job waits => { w with ready := ⟨id, job, waits⟩ :: w.ready }
  | .pause job waits => { w with paused := w.paused ++ [⟨id, job, waits⟩] }
  | .sleep 0 job waits => { w with ready := ⟨id, job, waits⟩ :: w.ready }
  | .sleep ms job waits => { w with asleep := w.asleep ++ [(w.now + ms, ⟨id, job, waits⟩)] }
  | .queue job waits => { w with queue := w.queue ++ [⟨id, job, waits⟩] }
  | .finish outcome => { w with outcomes := w.outcomes ++ [(id, outcome)] }

/-- Takes one step of the task whose turn it is, or gives those who paused their turn. -/
def step (s : Stage) (w : World) : World :=
  match w.ready with
  | t :: rest =>
    let (w, turn) := t.job.step s { w with ready := rest } t.id t.waits
    w.place t.id turn
  -- Nobody is ready, so those who paused are next
  | [] => { w with ready := w.paused, paused := [] }

/-- Whether no task can go on before some time has passed. -/
def isQuiet (w : World) : Bool :=
  w.ready.isEmpty && w.paused.isEmpty

/-- The task that wakes up first, and when. -/
def earliest? (w : World) : Option (Nat × Task) :=
  w.asleep.foldl (fun first t => match first with
    | some f => if t.1 < f.1 then some t else some f
    | none => some t) none

/-- Lets the time pass until the first task wakes up. -/
def wake (w : World) : World :=
  match w.earliest? with
  | none => w
  | some (due, t) =>
    { w with
      now := due
      asleep := w.asleep.filter fun u => u.2.id != t.id
      ready := w.ready ++ [t] }

end World

end DiagramTour
