import DiagramTour.Proofs.Playback.Batch
import DiagramTour.Proofs.Playback.Stint
import Mathlib.Data.List.Induction

/-!
# Actions one after another

A batch calls the handler of one action after the other.  What a handler does, and what happens around
it in the meantime, is not up to the batch: a handler may go somewhere, deliver events or end the player,
and other tasks take their turns.  Whatever they do, the batch goes on with the next action when the one
before has ended, and with none after a failure that is to end all.

## Architecture

- `Behaviour.LeadsTo` and `Behaviour.EndsAs` say what a handler may come to, and `Stage.Ends` how an
  action may end.
- `Behaviour.Acting` tells where a handler is at work; `Behaviour.Acting.step` is one step of it.
- `Moment.batchNotes` is what the turns of a batch itself tell of it: what they write down, and how the
  actions have ended that were waited for.  `Stage.course` is what they are to tell.
- `Course` relates the turns of a batch so far to where it is; `Course.step` is one step of it.
-/

namespace DiagramTour

/-! ## What handlers come to -/

/-- A failure is told by its contexts, from the last to the first, and its message. -/
theorem Behaviour.explain_eq (message : String) (contexts : List String) :
    explain message contexts = ": ".intercalate (contexts.reverse ++ [message]) := by
  induction contexts using List.reverseRecOn with
  | nil => rfl
  | append_singleton cs c ih =>
      have hrest : cs.reverse ++ [message] ≠ [] := by simp
      rw [List.reverse_append, List.reverse_singleton, List.append_assoc,
        String.intercalate_append_of_ne_nil (List.cons_ne_nil c []) hrest, ← ih]
      simp [explain]

namespace Behaviour

/-- What a handler may come to, whatever the replies are to what it asks for. -/
inductive LeadsTo (b : Behaviour) : Behaviour → Prop where
  | refl : LeadsTo b b
  | reply {command : Command} {next : command.Reply → Behaviour} :
      LeadsTo b (.perform command next) → (r : command.Reply) → LeadsTo b (next r)

/-- How an action of a kind may end by what its handler does. -/
inductive EndsAs (b : Behaviour) (kind : String) : Outcome → Prop where
  | succeed : b.LeadsTo .succeed → EndsAs b kind .completed
  | fail {message : String} {contexts : List String} : b.LeadsTo (.fail message contexts) →
      EndsAs b kind (.failed (.failed kind (": ".intercalate (contexts.reverse ++ [message]))))
  | crash {c : Crash} : b.LeadsTo (.crash c) → EndsAs b kind (.crashed c)
  /-- A move that the handler waits for breaks off, and the handler with it. -/
  | move {m : Move} {next : (Command.move m).Reply → Behaviour} {c : Crash} :
      b.LeadsTo (.perform (.move m) next) → EndsAs b kind (.crashed c)
  /-- A reaction that the handler waits for breaks off, and the handler with it. -/
  | dispatch {event : HostEvent} {next : (Command.dispatch event).Reply → Behaviour} {c : Crash} :
      b.LeadsTo (.perform (.dispatch event) next) → EndsAs b kind (.crashed c)

/-- Where the handler for an action of a kind is at work: the job, and the waits that belong to it. -/
inductive Acting (b : Behaviour) (kind : String) : Job → List Wait → Prop where
  | act {b' : Behaviour} : b.LeadsTo b' → Acting b kind (.act kind b') []
  | ended {o : Outcome} : b.EndsAs kind o → Acting b kind (.ended o) []
  /-- A move is waited for. -/
  | moving {m : Move} {next : (Command.move m).Reply → Behaviour} {job : Job} (above : List Wait) :
      b.LeadsTo (.perform (.move m) next) → Acting b kind job (above ++ [.moved kind next])
  /-- Listeners are left to react. -/
  | firing {event : HostEvent} {next : (Command.dispatch event).Reply → Behaviour}
      {listeners : List Listener} {total : Nat} : b.LeadsTo (.perform (.dispatch event) next) →
      Acting b kind (.fire event listeners total) [.dispatched kind next]
  /-- No listener is left to react. -/
  | fired {event : HostEvent} {next : (Command.dispatch event).Reply → Behaviour} {o : Outcome} :
      b.LeadsTo (.perform (.dispatch event) next) →
      ((∃ n, o = .counted n) ∨ ∃ c, o = .crashed c) →
      Acting b kind (.ended o) [.dispatched kind next]
  /-- A listener reacts. -/
  | reacting {event : HostEvent} {next : (Command.dispatch event).Reply → Behaviour}
      {listeners : List Listener} {total : Nat} {job : Job} (above : List Wait) :
      b.LeadsTo (.perform (.dispatch event) next) →
      Acting b kind job (above ++ [.fired event listeners total, .dispatched kind next])

variable {b : Behaviour} {kind : String} {job : Job} {top : List Wait}

/-- A step of a handler itself. -/
private theorem Acting.step_act {b' : Behaviour} (s : Stage) (w : World) (id : Nat)
    (below : List Wait) (h : b.LeadsTo b') :
    ∃ job' top', b.Acting kind job' top' ∧
      (Job.step s w id below (.act kind b')).2.task? id = some ⟨id, job', top' ++ below⟩ := by
  cases b' with
  | succeed => exact ⟨_, [], .ended (.succeed h), rfl⟩
  | fail message contexts =>
      refine ⟨_, [], .ended (.fail h), ?_⟩
      rw [← explain_eq]
      rfl
  | crash c => exact ⟨_, [], .ended (.crash h), rfl⟩
  | perform command next =>
      cases command with
      | move m => exact ⟨.travel m, [.moved kind next], .moving [] h, rfl⟩
      | dispatch event => exact ⟨_, [.dispatched kind next], .firing h, rfl⟩
      | _ => exact ⟨_, [], .act (h.reply _), rfl⟩

/-- A handler that has not ended is at work after a step, and leaves what is below it alone. -/
theorem Acting.step (s : Stage) (w : World) (id : Nat) (below : List Wait)
    (h : b.Acting kind job top) (hgo : job.isEnded = true → top ≠ []) :
    ∃ job' top', b.Acting kind job' top' ∧
      (job.step s w id (top ++ below)).2.task? id = some ⟨id, job', top' ++ below⟩ := by
  cases h with
  | act h => exact Acting.step_act s w id below h
  | ended => exact absurd rfl (hgo rfl)
  | @moving m next job above h =>
      rw [List.append_assoc]
      rcases job.ended_or_goes above with ⟨o, rfl, rfl⟩ | hgo'
      · -- The move has ended, and the handler gets the reply
        cases o with
        | crashed c => exact ⟨_, [], .ended (.move h), rfl⟩
        | failed e => exact ⟨_, [], .act (h.reply (some e)), rfl⟩
        | _ => exact ⟨_, [], .act (h.reply none), rfl⟩
      · obtain ⟨job', above', hturn⟩ := Job.step_over s w id ([.moved kind next] ++ below) hgo'
        exact ⟨job', _, .moving above' h, by rw [hturn, List.append_assoc]⟩
  | @firing event next listeners total h =>
      cases listeners with
      | nil => exact ⟨_, [.dispatched kind next], .fired h (.inl ⟨total, rfl⟩), rfl⟩
      | cons l rest =>
          simp only [Job.step, World.fire]
          split
          · exact ⟨_, [.report _, .fired event rest total, .dispatched kind next],
              .reacting [.report _] h, rfl⟩
          · exact ⟨_, [.dispatched kind next], .firing h, rfl⟩
  | @fired event next o h ho =>
      rcases ho with ⟨n, rfl⟩ | ⟨c, rfl⟩
      · exact ⟨_, [], .act (h.reply n), rfl⟩
      · exact ⟨_, [], .ended (.dispatch h), rfl⟩
  | @reacting event next listeners total job above h =>
      rw [List.append_assoc]
      rcases job.ended_or_goes above with ⟨o, rfl, rfl⟩ | hgo'
      · -- The listener has reacted, and the others follow
        cases o with
        | crashed c => exact ⟨_, [.dispatched kind next], .fired h (.inr ⟨c, rfl⟩), rfl⟩
        | _ => exact ⟨_, [.dispatched kind next], .firing h, rfl⟩
      · obtain ⟨job', above', hturn⟩ := Job.step_over s w id
          ([.fired event listeners total, .dispatched kind next] ++ below) hgo'
        exact ⟨job', _, .reacting above' h, by rw [hturn, List.append_assoc]⟩

end Behaviour

/-! ## How actions end -/

/-- What the handler of an action of a batch is called with. -/
def Setting.cue (setting : Setting) (event : Option FiredEvent) (a : Action) : Cue :=
  ⟨a, setting.stop, setting.stopId, event⟩

/-- How an action may end: it fails where nobody knows its kind, and ends as its handler does where
somebody knows it. -/
inductive Stage.Ends (s : Stage) (cue : Cue) : Outcome → Prop where
  | unknown : s.handlers.find? cue.action.kind = none →
      Ends s cue (.failed (.unknown cue.action.kind))
  | known {handler : Handler} {o : Outcome} : s.handlers.find? cue.action.kind = some handler →
      (handler cue).EndsAs cue.action.kind o → Ends s cue o

/-- The failure of an action is known by the kind of the action. -/
theorem Stage.Ends.kind_failure {s : Stage} {cue : Cue} {o : Outcome} {e : ActionError}
    (h : s.Ends cue o) (he : cue.action.failure? o = some e) : e.kind = cue.action.kind := by
  cases h with
  | unknown =>
      obtain rfl := Option.some.inj he
      rfl
  | known _ hends =>
      cases hends with
      | succeed => cases he
      | _ =>
          obtain rfl := Option.some.inj he
          rfl

/-- Where an action is carried out: its handler is at work, or there is none. -/
inductive Stage.Carries (s : Stage) (cue : Cue) : Job → List Wait → Prop where
  | unknown : s.handlers.find? cue.action.kind = none →
      Carries s cue (.ended (.failed (.unknown cue.action.kind))) []
  | known {handler : Handler} {job : Job} {top : List Wait} :
      s.handlers.find? cue.action.kind = some handler →
      (handler cue).Acting cue.action.kind job top → Carries s cue job top

theorem Stage.Carries.ends {s : Stage} {cue : Cue} {o : Outcome} (h : s.Carries cue (.ended o) []) :
    s.Ends cue o := by
  generalize htop : ([] : List Wait) = top at h
  generalize hjob : Job.ended o = job at h
  cases h with
  | unknown hnone =>
      cases hjob
      exact .unknown hnone
  | known hfind hacting =>
      subst hjob htop
      generalize htop : ([] : List Wait) = top at hacting
      cases hacting with
      | ended hends => exact .known hfind hends
      | _ => simp at htop

/-- An action that has not ended is carried out further, and what is below it is left alone. -/
theorem Stage.Carries.step {s : Stage} {cue : Cue} {job : Job} {top : List Wait} (w : World)
    (id : Nat) (below : List Wait) (h : s.Carries cue job top) (hgo : job.isEnded = true → top ≠ []) :
    ∃ job' top', s.Carries cue job' top' ∧
      (job.step s w id (top ++ below)).2.task? id = some ⟨id, job', top' ++ below⟩ := by
  cases h with
  | unknown => exact absurd rfl (hgo rfl)
  | known hfind hacting =>
      obtain ⟨job', top', hacting', hturn⟩ := hacting.step s w id below hgo
      exact ⟨job', top', .known hfind hacting', hturn⟩

/-! ## What a batch tells -/

/-- What the turns of a batch itself tell of it. -/
inductive BatchNote where
  /-- It wrote something down. -/
  | wrote (record : Record)
  /-- The action that it waited for has ended. -/
  | ended (outcome : Outcome)

/-- What a turn tells of a batch, if it is one of the batch itself. -/
def Moment.batchNotes (s : Stage) (id : Nat) (base : List Wait) (m : Moment) : List BatchNote :=
  match m.above, m.job with
  | [], _ => (m.writes s id base).map .wrote
  | [_], .ended o => [.ended o]
  | _, _ => []

/-- What the turns of a batch tell of it. -/
def batchNotes (s : Stage) (id : Nat) (base : List Wait) (ms : List Moment) : List BatchNote :=
  ms.flatMap (Moment.batchNotes s id base)

/-- The call of an action, if its kind is known. -/
def Stage.calls (s : Stage) (cue : Cue) : List BatchNote :=
  if s.handlers.knows cue.action.kind then [.wrote (.called cue)] else []

/-- What is to be told of actions that have ended in some ways: of one after the other, that it was
called if its kind is known, and then how it has ended. -/
def Stage.course (s : Stage) (setting : Setting) (event : Option FiredEvent) (done : List Action)
    (os : List Outcome) : List BatchNote :=
  (done.zip os).flatMap fun p => s.calls (setting.cue event p.1) ++ [.ended p.2]

variable {s : Stage} {id : Nat} {base : List Wait} {setting : Setting} {event : Option FiredEvent}
  {actions done rest : List Action} {os : List Outcome} {ms : List Moment} {job : Job}
  {above : List Wait}

theorem Moment.batchNotes_of_not_own {m : Moment} (h : m.isOwn = false) :
    m.batchNotes s id base = [] := by
  unfold batchNotes
  split <;> simp_all [isOwn, Job.isEnded]

theorem batchNotes_concat (m : Moment) :
    batchNotes s id base (ms ++ [m]) = batchNotes s id base ms ++ m.batchNotes s id base := by
  simp [batchNotes]

theorem course_concat (h : os.length = done.length) (a : Action) (o : Outcome) :
    s.course setting event (done ++ [a]) (os ++ [o]) =
      s.course setting event done os ++ (s.calls (setting.cue event a) ++ [.ended o]) := by
  simp [Stage.course, List.zip_append h.symm]

/-! ## Where a batch is -/

/-- Some actions of a batch have ended in some ways, and the others are left. -/
structure Tally (s : Stage) (setting : Setting) (event : Option FiredEvent)
    (actions done rest : List Action) (os : List Outcome) : Prop where
  split : actions = done ++ rest
  length : os.length = done.length
  ends : ∀ p ∈ done.zip os, s.Ends (setting.cue event p.1) p.2

theorem Tally.next {a : Action} {o : Outcome} (h : Tally s setting event actions done (a :: rest) os)
    (ho : s.Ends (setting.cue event a) o) :
    Tally s setting event actions (done ++ [a]) rest (os ++ [o]) where
  split := by simp [h.split]
  length := by simp [h.length]
  ends p hp := by
    rw [List.zip_append h.length.symm] at hp
    rcases List.mem_append.mp hp with hp | hp
    · exact h.ends p hp
    · obtain rfl := List.mem_singleton.mp hp
      exact ho

/-- Where a batch is after some turns of its task. -/
inductive Course (s : Stage) (id : Nat) (base : List Wait) (setting : Setting)
    (event : Option FiredEvent) (actions : List Action) (ms : List Moment) :
    Job → List Wait → Prop where
  /-- The next action is to come. -/
  | next {done rest : List Action} {os : List Outcome} : Tally s setting event actions done rest os →
      (setting.policy = .haltOnError → failures done os = []) →
      batchNotes s id base ms = s.course setting event done os → ownTurns ms = 2 * done.length →
      Course s id base setting event actions ms (.run setting event rest (failures done os)) []
  /-- An action is carried out. -/
  | within {done rest : List Action} {a : Action} {os : List Outcome} {job : Job} (top : List Wait) :
      Tally s setting event actions done (a :: rest) os →
      (setting.policy = .haltOnError → failures done os = []) →
      batchNotes s id base ms =
        s.course setting event done os ++ s.calls (setting.cue event a) →
      ownTurns ms = 2 * done.length + 1 → s.Carries (setting.cue event a) job top →
      Course s id base setting event actions ms job
        (top ++ [.handled a.kind setting event rest (failures done os)])
  /-- All were carried out. -/
  | whole {os : List Outcome} : Tally s setting event actions actions [] os →
      (setting.policy = .haltOnError → failures actions os = []) →
      batchNotes s id base ms = s.course setting event actions os →
      ownTurns ms = 2 * actions.length + 1 →
      Course s id base setting event actions ms (.ended (.collected (failures actions os))) []
  /-- An action has failed or broken off, and none is to follow it. -/
  | cut {done rest : List Action} {a : Action} {os : List Outcome} {o : Outcome} :
      setting.policy = .haltOnError →
      Tally s setting event actions (done ++ [a]) rest (os ++ [o]) → os.length = done.length →
      failures done os = [] → ((∃ e, o = .failed e) ∨ ∃ c, o = .crashed c) →
      batchNotes s id base ms = s.course setting event (done ++ [a]) (os ++ [o]) →
      ownTurns ms = 2 * done.length + 2 → Course s id base setting event actions ms (.ended o) []

namespace Course

/-- The batch goes on with the next action. -/
private theorem step_next (v : World) (hpast : Tally s setting event actions done rest os)
    (hhalt : setting.policy = .haltOnError → failures done os = [])
    (hnotes : batchNotes s id base ms = s.course setting event done os)
    (hown : ownTurns ms = 2 * done.length) :
    ∃ job' above',
      (Job.step s v id base (.run setting event rest (failures done os))).2.task? id =
        some ⟨id, job', above' ++ base⟩ ∧
      Course s id base setting event actions
        (ms ++ [⟨v, .run setting event rest (failures done os), []⟩]) job' above' := by
  have hown' : ∀ job, ownTurns (ms ++ [⟨v, job, []⟩]) = 2 * done.length + 1 := by
    intro job
    rw [ownTurns_concat, hown]
    rfl
  cases rest with
  | nil =>
      obtain rfl : actions = done := by simpa using hpast.split
      refine ⟨_, [], rfl, .whole hpast hhalt ?_ (hown' _)⟩
      rw [batchNotes_concat, hnotes]
      simp [Moment.batchNotes, Moment.writes, Moment.after, Job.step, World.runActions]
  | cons a rest =>
      cases hfind : s.handlers.find? a.kind with
      | none =>
          refine ⟨.ended (.failed (.unknown a.kind)),
            [.handled a.kind setting event rest (failures done os)], ?_, ?_⟩
          · simp only [Job.step, World.runActions, hfind]
            rfl
          · refine .within [] hpast hhalt ?_ (hown' _) (.unknown hfind)
            rw [batchNotes_concat, hnotes]
            simp [Moment.batchNotes, Moment.writes, Moment.after, Job.step, World.runActions, hfind,
              Stage.calls, Setting.cue, Handlers.knows]
      | some handler =>
          refine ⟨.act a.kind (handler (setting.cue event a)),
            [.handled a.kind setting event rest (failures done os)], ?_, ?_⟩
          · simp only [Job.step, World.runActions, hfind]
            rfl
          · refine .within [] hpast hhalt ?_ (hown' _) (.known hfind (.act .refl))
            rw [batchNotes_concat, hnotes]
            simp [Moment.batchNotes, Moment.writes, Moment.after, Job.step, World.runActions, hfind,
              Stage.calls, Setting.cue, Handlers.knows, World.write]

/-- An action has ended, and the batch learns how. -/
private theorem step_learn {a : Action} {o : Outcome} (v : World)
    (hpast : Tally s setting event actions done (a :: rest) os)
    (hhalt : setting.policy = .haltOnError → failures done os = [])
    (hnotes : batchNotes s id base ms =
      s.course setting event done os ++ s.calls (setting.cue event a))
    (hown : ownTurns ms = 2 * done.length + 1) (ho : s.Ends (setting.cue event a) o) :
    ∃ job' above',
      (Job.step s v id (.handled a.kind setting event rest (failures done os) :: base)
        (.ended o)).2.task? id = some ⟨id, job', above' ++ base⟩ ∧
      Course s id base setting event actions
        (ms ++ [⟨v, .ended o, [.handled a.kind setting event rest (failures done os)]⟩]) job' above' := by
  have hpast' := hpast.next ho
  have hnotes' : batchNotes s id base
      (ms ++ [⟨v, .ended o, [.handled a.kind setting event rest (failures done os)]⟩]) =
        s.course setting event (done ++ [a]) (os ++ [o]) := by
    rw [batchNotes_concat, hnotes, course_concat hpast.length, List.append_assoc]
    rfl
  have hown' : ownTurns
      (ms ++ [⟨v, .ended o, [.handled a.kind setting event rest (failures done os)]⟩]) =
        2 * done.length + 2 := by
    rw [ownTurns_concat, hown]
    rfl
  have hlength : 2 * (done ++ [a]).length = 2 * done.length + 2 := by simp; omega
  have hconcat := failures_concat hpast.length a o
  -- The batch goes on with what is left, unless a failure is to end it
  have hgo : (setting.policy = .haltOnError → a.failure? o = none) → ∀ errors,
      errors = failures done os ++ (a.failure? o).toList →
      Course s id base setting event actions
        (ms ++ [⟨v, .ended o, [.handled a.kind setting event rest (failures done os)]⟩])
        (.run setting event rest errors) [] := by
    intro hnone errors herrors
    rw [herrors, ← hconcat]
    refine .next hpast' (fun hpolicy => ?_) hnotes' (hown'.trans hlength.symm)
    rw [hconcat, hhalt hpolicy, hnone hpolicy]
    rfl
  have hcut : setting.policy = .haltOnError → ((∃ e, o = .failed e) ∨ ∃ c, o = .crashed c) →
      Course s id base setting event actions
        (ms ++ [⟨v, .ended o, [.handled a.kind setting event rest (failures done os)]⟩])
        (.ended o) [] := fun hpolicy ho =>
    .cut hpolicy hpast' hpast.length (hhalt hpolicy) ho hnotes' hown'
  cases o with
  | failed e =>
      cases hpolicy : setting.policy with
      | haltOnError =>
          refine ⟨_, [], ?_, hcut hpolicy (.inl ⟨e, rfl⟩)⟩
          simp [Job.step, Wait.resume, hpolicy]
      | continueOnError =>
          refine ⟨_, [], ?_, hgo (fun h => by simp [hpolicy] at h) _ rfl⟩
          simp [Job.step, Wait.resume, hpolicy, Turn.task?, Action.failure?]
  | crashed c =>
      cases hpolicy : setting.policy with
      | haltOnError =>
          refine ⟨_, [], ?_, hcut hpolicy (.inr ⟨c, rfl⟩)⟩
          simp [Job.step, Wait.resume, hpolicy]
      | continueOnError =>
          refine ⟨_, [], ?_, hgo (fun h => by simp [hpolicy] at h) _ rfl⟩
          simp [Job.step, Wait.resume, hpolicy, Turn.task?, Action.failure?]
  | _ => exact ⟨_, [], rfl, hgo (fun _ => rfl) _ (by simp [Action.failure?])⟩

/-- A step of a batch that has not ended, in whatever world. -/
theorem step (v : World) (h : Course s id base setting event actions ms job above)
    (hgo : job.isEnded = true → above ≠ []) :
    ∃ job' above',
      (job.step s v id (above ++ base)).2.task? id = some ⟨id, job', above' ++ base⟩ ∧
      Course s id base setting event actions (ms ++ [⟨v, job, above⟩]) job' above' := by
  cases h with
  | next hpast hhalt hnotes hown => exact step_next v hpast hhalt hnotes hown
  | @within done rest a os job top hpast hhalt hnotes hown hcarries =>
      rcases job.ended_or_goes top with ⟨o, rfl, rfl⟩ | hgo'
      · exact step_learn v hpast hhalt hnotes hown hcarries.ends
      · -- The action goes on, and the batch waits
        obtain ⟨job', top', hcarries', hturn⟩ := hcarries.step v id
          (.handled a.kind setting event rest (failures done os) :: base) hgo'
        refine ⟨job', top' ++ [.handled a.kind setting event rest (failures done os)], ?_, ?_⟩
        · simpa using hturn
        · have hnot : Moment.isOwn
              ⟨v, job, top ++ [.handled a.kind setting event rest (failures done os)]⟩ = false :=
            Moment.isOwn_concat hgo'
          refine .within top' hpast hhalt ?_ ?_ hcarries'
          · rw [batchNotes_concat, Moment.batchNotes_of_not_own hnot, List.append_nil, hnotes]
          · rw [ownTurns_concat, hnot, hown]
            rfl
  | whole => exact absurd rfl (hgo rfl)
  | cut => exact absurd rfl (hgo rfl)

end Course

namespace World

variable {w w' : World}

/-- Whatever handlers do and whatever else happens, a batch calls the handlers of its actions in order,
each once and only after the action before has ended.

- It takes no more than two turns of its own for an action and one at the end, and is there all the time.
  Before it has ended the next turn is its own, or the handler of one action is at work, to which all
  before have ended.
- When it has ended it has told of some first actions that those of a known kind were called, and how
  each has ended: as its handler does, or with a failure where nobody knows the kind.  Every failure has
  the kind of its action.
- If failures are to be kept, these are all actions, and the batch ends with their failures in order.
- If the first failure is to end all, these are all actions and none has failed, or they are those up to
  the first that has failed or broken off, and the batch ends as that one does. -/
theorem batch_runs_in_order (hw : Timed w [])
    (ht : ⟨id, .run setting event actions [], base⟩ ∈ w.tasks) (h : Stint s id base w w' ms) :
    (ownTurns ms ≤ 2 * actions.length + 1 ∧
      ∃ job above, ⟨id, job, above ++ base⟩ ∈ w'.tasks ∧
        (Moment.isOwn ⟨w', job, above⟩ = true ∨
          ∃ done a rest os handler top wait, actions = done ++ a :: rest ∧ os.length = done.length ∧
            batchNotes s id base ms = s.course setting event done os ++
              [.wrote (.called (setting.cue event a))] ∧
            s.handlers.find? a.kind = some handler ∧ above = top ++ [wait] ∧
            (handler (setting.cue event a)).Acting a.kind job top)) ∧
    ∀ o, ⟨id, .ended o, base⟩ ∈ w'.tasks → ∃ done rest os, actions = done ++ rest ∧
      os.length = done.length ∧ batchNotes s id base ms = s.course setting event done os ∧
      (∀ p ∈ done.zip os, s.Ends (setting.cue event p.1) p.2 ∧
        ∀ e, p.1.failure? p.2 = some e → e.kind = p.1.kind) ∧
      match setting.policy with
      | .continueOnError => rest = [] ∧ o = .collected (failures done os)
      | .haltOnError =>
        (rest = [] ∧ failures done os = [] ∧ o = .collected []) ∨
          ∃ before a os', done = before ++ [a] ∧ os = os' ++ [o] ∧ os'.length = before.length ∧
            failures before os' = [] ∧ ((∃ e, o = .failed e) ∨ ∃ c, o = .crashed c) := by
  have hfirst : Course s id base setting event actions [] (.run setting event actions []) [] :=
    .next (⟨rfl, rfl, by simp⟩ : Tally s setting event actions [] actions []) (fun _ => rfl) rfl rfl
  obtain ⟨hw', -, job, above, hmem, hcourse⟩ := h.carry (I := fun _ => True)
    (P := Course s id base setting event actions) _ [] (fun _ _ _ => trivial)
    (fun ms v others job above _ hcourse hgo => hcourse.step { v with ready := others } hgo)
    hw trivial ht rfl hfirst
  have hends : ∀ {done rest : List Action} {os : List Outcome}, Tally s setting event actions done rest os →
      ∀ p ∈ done.zip os, s.Ends (setting.cue event p.1) p.2 ∧
        ∀ e, p.1.failure? p.2 = some e → e.kind = p.1.kind := fun hpast p hp =>
    ⟨hpast.ends p hp, fun e he => (hpast.ends p hp).kind_failure he⟩
  refine ⟨⟨?_, job, above, hmem, ?_⟩, fun o ho => ?_⟩
  · cases hcourse with
    | @next done rest os hpast _ _ hown =>
        have hlength : actions.length = done.length + rest.length := by simp [hpast.split]
        omega
    | @within done rest a os _ _ hpast _ _ hown =>
        have hlength : actions.length = done.length + (rest.length + 1) := by simp [hpast.split]
        omega
    | whole _ _ _ hown => exact Nat.le_of_eq hown
    | @cut done rest a os _ _ hpast _ _ _ _ hown =>
        have hlength : actions.length = done.length + (rest.length + 1) := by simp [hpast.split]
        omega
  · cases hcourse with
    | @within done rest a os _ top hpast _ hnotes _ hcarries =>
        cases hcarries with
        | unknown => exact .inl rfl
        | @known handler _ _ hfind hacting =>
            refine .inr ⟨done, a, rest, os, handler, top, _, hpast.split, hpast.length, ?_, hfind, rfl,
              hacting⟩
            have hknows : s.handlers.knows a.kind = true := by
              rw [Handlers.knows, show s.handlers.find? a.kind = some handler from hfind]
              rfl
            rw [hnotes, Stage.calls, Setting.cue, if_pos hknows]
    | _ => exact .inl rfl
  · obtain ⟨rfl, rfl⟩ := hw'.ended_unique hmem ho
    generalize hjob : Job.ended o = job at hcourse
    generalize htop : ([] : List Wait) = top at hcourse
    cases hcourse with
    | next => cases hjob
    | within => simp at htop
    | @whole os hpast hhalt hnotes _ =>
        cases hjob
        refine ⟨actions, [], os, hpast.split, hpast.length, hnotes, hends hpast, ?_⟩
        cases hpolicy : setting.policy with
        | continueOnError => exact ⟨rfl, rfl⟩
        | haltOnError => exact .inl ⟨rfl, hhalt hpolicy, by rw [hhalt hpolicy]⟩
    | @cut done rest a os o hpolicy hpast hlength hnone ho hnotes _ =>
        cases hjob
        refine ⟨_, rest, _, hpast.split, hpast.length, hnotes, hends hpast, ?_⟩
        rw [hpolicy]
        exact .inr ⟨done, a, os, rfl, rfl, hlength, hnone, ho⟩

end World

/-- A stage on which one kind of action succeeds, one fails and one breaks off. -/
def Stage.assorted : Stage where
  document := ⟨[], [], none, []⟩
  handlers := ⟨[("ok", fun _ => .succeed), ("sad", fun _ => .fail "no" ["again", "still"]),
    ("mad", fun _ => .crash (.text "boom"))]⟩

namespace World

/-- Of these one succeeds, one fails, one is not known, one breaks off and one succeeds. -/
def assortedActions : List Action :=
  [⟨"ok", none⟩, ⟨"sad", none⟩, ⟨"lost", none⟩, ⟨"mad", none⟩, ⟨"ok", none⟩]

/-- A batch of these actions is to be run. -/
def assortedBatch (policy : ErrorPolicy) : World :=
  ({} : World).start (.run ⟨-1, none, policy, .record⟩ none assortedActions []) []

/-- If failures are kept all five are carried out and three have failed; otherwise the batch ends with
the second. -/
theorem assorted_batch_ends :
    (∃ ms os, os.length = 5 ∧ batchNotes .assorted 0 [] ms = Stage.assorted.course
        ⟨-1, none, .continueOnError, .record⟩ none assortedActions os ∧
      failures assortedActions os =
        [.failed "sad" "still: again: no", .unknown "lost", .crashed "mad" "boom"]) ∧
    ∃ ms before a rest os, assortedActions = before ++ a :: rest ∧
      batchNotes .assorted 0 [] ms = Stage.assorted.course ⟨-1, none, .haltOnError, .record⟩ none
        (before ++ [a]) (os ++ [.failed (.failed "sad" "still: again: no")]) ∧
      failures before os = [] := by
  have hw : ∀ policy, Timed (assortedBatch policy) [] := fun policy =>
    (Reachable.initial.timed (s := .assorted)).start _ _
  constructor
  · have hstint : Stint .assorted 0 [] (assortedBatch .continueOnError) _ _ :=
      .follow (List.replicate 15 (.turn 0)) (by decide)
    have hover : ⟨0, .ended (.collected [.failed "sad" "still: again: no", .unknown "lost",
        .crashed "mad" "boom"]), []⟩ ∈ ((assortedBatch .continueOnError).follow .assorted
          (List.replicate 15 (.turn 0))).tasks := List.mem_cons_self
    obtain ⟨done, rest, os, hsplit, hlength, hnotes, -, rfl, ho⟩ :=
      (batch_runs_in_order (hw _) List.mem_cons_self hstint).2 _ hover
    rw [List.append_nil] at hsplit
    subst hsplit
    exact ⟨_, os, hlength, hnotes, (Outcome.collected.inj ho).symm⟩
  · have hstint : Stint .assorted 0 [] (assortedBatch .haltOnError) _ _ :=
      .follow (List.replicate 6 (.turn 0)) (by decide)
    have hover : ⟨0, .ended (.failed (.failed "sad" "still: again: no")), []⟩ ∈
        ((assortedBatch .haltOnError).follow .assorted (List.replicate 6 (.turn 0))).tasks :=
      List.mem_cons_self
    obtain ⟨done, rest, os, hsplit, hlength, hnotes, -, hends⟩ :=
      (batch_runs_in_order (hw _) List.mem_cons_self hstint).2 _ hover
    rcases hends with ⟨-, -, ho⟩ | ⟨before, a, os', rfl, rfl, -, hnone, -⟩
    · cases ho
    · exact ⟨_, before, a, rest, os', by simpa using hsplit, hnotes, hnone⟩

end World

end DiagramTour
