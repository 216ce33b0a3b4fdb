import DiagramTour.Proofs.Playback.Tasks

/-!
# What can be seen

Of a world only a part can be seen from outside: what was written down, who listens and who is
subscribed, and where the player stands.  What a task does next depends on nothing else, so that a
task takes the same steps wherever the view is the same, whatever other tasks there are.

## Architecture

- `World.view` is what can be seen of a world.
- `Job.step_congr`: where the views are the same a job takes the same step, and the views are the
  same again.  Taking the way is the one step that depends on other tasks.
-/

namespace DiagramTour

/-- What can be seen of a world. -/
structure View where
  journal : List Record
  host : Host
  bus : Bus
  /-- The listeners that were put up for either part. -/
  tour : List Nat
  stop : List Nat
  position : Int
  error : Option ActionError
  destroyed : Bool
  resets : Nat
  clears : Nat
  frames : Nat

namespace World

/-- What can be seen of a world. -/
def view (w : World) : View where
  journal := w.journal
  host := w.host
  bus := w.bus
  tour := w.tourRig.listeners
  stop := w.stopRig.listeners
  position := w.position
  error := w.error
  destroyed := w.destroyed
  resets := w.resets
  clears := w.clears
  frames := w.frames

variable {s : Stage} {v w : World}

theorem view_eq_iff : v.view = w.view ↔
    v.journal = w.journal ∧ v.host = w.host ∧ v.bus = w.bus ∧
      v.tourRig.listeners = w.tourRig.listeners ∧ v.stopRig.listeners = w.stopRig.listeners ∧
      v.position = w.position ∧ v.error = w.error ∧ v.destroyed = w.destroyed ∧
      v.resets = w.resets ∧ v.clears = w.clears ∧ v.frames = w.frames := by
  simp only [view, View.mk.injEq]

/-! ## Where nothing can be seen -/

/-- Two worlds that differ in nothing but where tasks are, who has the way, and who has ended. -/
structure Aside (w w' : World) : Prop where
  intro ::
  eq : ∃ now nextTask ready paused asleep traveller queue outcomes,
    w' = { w with now, nextTask, ready, paused, asleep, traveller, queue, outcomes }

theorem Aside.refl (w : World) : w.Aside w :=
  ⟨w.now, w.nextTask, w.ready, w.paused, w.asleep, w.traveller, w.queue, w.outcomes, rfl⟩

theorem Aside.trans {u : World} (h : u.Aside v) (h' : v.Aside w) : u.Aside w := by
  obtain ⟨_, _, _, _, _, _, _, _, rfl⟩ := h.eq
  obtain ⟨_, _, _, _, _, _, _, _, rfl⟩ := h'.eq
  exact ⟨_, _, _, _, _, _, _, _, rfl⟩

theorem Aside.view (h : w.Aside v) : v.view = w.view := by
  obtain ⟨_, _, _, _, _, _, _, _, rfl⟩ := h.eq
  rfl

theorem aside_ready (w : World) (ready : List Task) : w.Aside { w with ready } :=
  ⟨w.now, w.nextTask, ready, w.paused, w.asleep, w.traveller, w.queue, w.outcomes, rfl⟩

theorem aside_start (w : World) (job : Job) (waits : List Wait) : w.Aside (w.start job waits) :=
  ⟨w.now, _, _, w.paused, w.asleep, w.traveller, w.queue, w.outcomes, rfl⟩

theorem aside_handOver (w : World) : w.Aside w.handOver := by
  unfold handOver
  split
  · exact ⟨w.now, w.nextTask, w.ready, w.paused, w.asleep, none, w.queue, w.outcomes, rfl⟩
  · exact ⟨w.now, w.nextTask, _, w.paused, w.asleep, _, _, w.outcomes, rfl⟩

theorem aside_place (w : World) (id : Nat) (turn : Turn) : w.Aside (w.place id turn) := by
  unfold place
  split
  · exact ⟨w.now, w.nextTask, _, w.paused, w.asleep, w.traveller, w.queue, w.outcomes, rfl⟩
  · exact ⟨w.now, w.nextTask, w.ready, _, w.asleep, w.traveller, w.queue, w.outcomes, rfl⟩
  · exact ⟨w.now, w.nextTask, _, w.paused, w.asleep, w.traveller, w.queue, w.outcomes, rfl⟩
  · exact ⟨w.now, w.nextTask, w.ready, w.paused, _, w.traveller, w.queue, w.outcomes, rfl⟩
  · exact ⟨w.now, w.nextTask, w.ready, w.paused, w.asleep, w.traveller, _, w.outcomes, rfl⟩
  · exact ⟨w.now, w.nextTask, w.ready, w.paused, w.asleep, w.traveller, w.queue, _, rfl⟩

theorem Shuffled.aside (h : w.Shuffled v) : w.Aside v := by
  obtain ⟨_, _, _, _, rfl⟩ := h.eq
  exact ⟨_, w.nextTask, _, _, _, w.traveller, w.queue, w.outcomes, rfl⟩

/-! ## Operations on what can be seen -/

theorem state_congr (h : v.view = w.view) : v.state s = w.state s := by
  obtain ⟨-, -, -, -, -, hp, he, -⟩ := view_eq_iff.mp h
  simp only [state, hp, he]

theorem target?_congr (h : v.view = w.view) (m : Move) : v.target? s m = w.target? s m := by
  obtain ⟨-, -, -, -, -, hp, -⟩ := view_eq_iff.mp h
  cases m <;> simp only [target?, hp]

theorem release_congr (h : v.view = w.view) (p : Part) :
    (v.release p).view = (w.release p).view := by
  obtain ⟨hj, hh, hb, ht, hs, hp, he, hd, hr, hc, hf⟩ := view_eq_iff.mp h
  rw [release_eq, release_eq]
  cases p <;> simp [view, rig, hj, hh, hb, ht, hs, hp, he, hd, hr, hc, hf]

theorem destroy_congr (h : v.view = w.view) : v.destroy.view = w.destroy.view := by
  have hd := (view_eq_iff.mp h).2.2.2.2.2.2.2.1
  unfold destroy
  rw [hd]
  split
  · exact h
  · have h' : ({ v with destroyed := true } : World).view =
        ({ w with destroyed := true } : World).view := by
      obtain ⟨hj, hh, hb, ht, hs, hp, he, -, hr, hc, hf⟩ := view_eq_iff.mp h
      exact view_eq_iff.mpr ⟨hj, hh, hb, ht, hs, hp, he, rfl, hr, hc, hf⟩
    obtain ⟨hj, hh, hb, ht, hs, hp, he, hd, hr, hc, hf⟩ :=
      view_eq_iff.mp (release_congr (release_congr h' .tour) .stop)
    exact view_eq_iff.mpr ⟨hj, hh, congrArg Bus.clear hb, ht, hs, hp, he, hd, hr, hc, hf⟩

theorem tidy_congr (h : v.view = w.view) (stop : Stop) :
    (v.tidy s stop).view = (w.tidy s stop).view := by
  obtain ⟨hj, hh, hb, ht, hs, hp, he, hd, hr, hc, hf⟩ := view_eq_iff.mp h
  simp only [tidy]
  split <;> split <;> split <;> simp [view, hj, hh, hb, ht, hs, hp, he, hd, hr, hc, hf]

theorem bind_congr (h : v.view = w.view) (p : Part) (rs : List Reaction) (setting : Setting) :
    (v.bind s p rs setting).view = (w.bind s p rs setting).view := by
  obtain ⟨hj, hh, hb, ht, hs, hp, he, hd, hr, hc, hf⟩ := view_eq_iff.mp h
  rw [bind_eq, bind_eq]
  cases p <;> simp [view, grownRig, rig, hj, hh, hb, ht, hs, hp, he, hd, hr, hc, hf]

end World

/-! ## Steps -/

/-- Two steps with the same turn, after which the views are the same. -/
def SameStep (a b : World × Turn) : Prop :=
  a.1.view = b.1.view ∧ a.2 = b.2

private theorem Command.step_congr {s : Stage} {v w : World} (h : v.view = w.view)
    (waits : List Wait) (kind : String) (c : Command) (next : c.Reply → Behaviour) :
    SameStep (c.step s v waits kind next) (c.step s w waits kind next) := by
  obtain ⟨hj, hh, hb, ht, hs, hp, he, hd, hr, hc, hf⟩ := World.view_eq_iff.mp h
  cases c with
  | destroy => exact ⟨World.destroy_congr h, rfl⟩
  | state => exact ⟨h, by simp only [Command.step, World.state_congr h]⟩
  | unsubscribe label =>
      exact ⟨World.view_eq_iff.mpr ⟨hj, hh, by simp only [Command.step, hb], ht, hs, hp, he, hd, hr,
        hc, hf⟩, rfl⟩
  | dispatch event => exact ⟨h, by simp only [Command.step, hh]⟩
  | resetCamera =>
      refine ⟨?_, rfl⟩
      simp only [Command.step]
      split
      · exact World.view_eq_iff.mpr ⟨hj, hh, hb, ht, hs, hp, he, hd, by simp only [hr], hc, hf⟩
      · exact h
  | clearOverlay =>
      refine ⟨?_, rfl⟩
      simp only [Command.step]
      split
      · exact World.view_eq_iff.mpr ⟨hj, hh, hb, ht, hs, hp, he, hd, hr, by simp only [hc], hf⟩
      · exact h
  | note j =>
      exact ⟨World.view_eq_iff.mpr ⟨by simp only [Command.step, World.write, hj], hh, hb, ht, hs, hp,
        he, hd, hr, hc, hf⟩, rfl⟩
  | review => exact ⟨h, by simp only [Command.step, hj]⟩
  | _ => exact ⟨h, rfl⟩

private theorem World.deliver_congr {v w : World} (h : v.view = w.view) (waits : List Wait)
    (ds : List Delivery) : SameStep (v.deliver waits ds) (w.deliver waits ds) := by
  obtain ⟨hj, hh, hb, ht, hs, hp, he, hd, hr, hc, hf⟩ := World.view_eq_iff.mp h
  match ds with
  | [] => exact ⟨h, rfl⟩
  | .announce n :: rest =>
      exact ⟨World.view_eq_iff.mpr ⟨by simp only [World.deliver, World.write, hj], hh, hb, ht, hs,
        hp, he, hd, hr, hc, hf⟩, by simp only [World.deliver, hb]⟩
  | .hear sub n :: rest =>
      exact ⟨World.view_eq_iff.mpr ⟨by simp only [World.deliver, World.write, hj], hh, hb, ht, hs,
        hp, he, hd, hr, hc, hf⟩, rfl⟩
  | .respond response :: rest =>
      cases response with
      | announce n => exact ⟨h, rfl⟩
      | review next => exact ⟨h, by simp only [World.deliver, hj]⟩
      | destroy => exact ⟨World.destroy_congr h, rfl⟩
      | _ =>
          exact ⟨World.view_eq_iff.mpr ⟨hj, hh, by simp only [World.deliver, hb], ht, hs, hp, he, hd,
            hr, hc, hf⟩, rfl⟩

private theorem Wait.resume_congr {s : Stage} {v w : World} (h : v.view = w.view)
    (waits : List Wait) (o : Outcome) (wait : Wait) :
    SameStep (wait.resume s v waits o) (wait.resume s w waits o) := by
  obtain ⟨hj, hh, hb, ht, hs, hp, he, hd, hr, hc, hf⟩ := World.view_eq_iff.mp h
  cases wait with
  | handled kind setting event actions errors =>
      cases o <;> simp only [Wait.resume] <;> try split
      all_goals exact ⟨h, rfl⟩
  | report outlet =>
      have hunheeded : ∀ es : List ActionError,
          SameStep (v.report waits .record es) (w.report waits .record es) := fun es =>
        ⟨World.view_eq_iff.mpr ⟨by simp only [World.report, hj], hh, hb, ht, hs, hp, he, hd, hr, hc,
          hf⟩, rfl⟩
      cases o with
      | collected es =>
          cases outlet with
          | announce => exact ⟨h, rfl⟩
          | record => exact hunheeded es
      | failed e =>
          cases outlet with
          | announce => exact ⟨h, rfl⟩
          | record => exact hunheeded [e]
      | _ => exact ⟨h, rfl⟩
  | opened =>
      simp only [Wait.resume, World.opened]
      split <;> exact ⟨World.bind_congr h _ _ _, rfl⟩
  | entered j =>
      cases o with
      | failed e =>
          exact ⟨World.view_eq_iff.mpr ⟨hj, hh, hb, ht, hs, hp, rfl, hd, hr, hc, hf⟩, rfl⟩
      | _ => exact ⟨h, rfl⟩
  | arrived j es =>
      have h' : ({ v with position := j, error := es.getLast? } : World).view =
          ({ w with position := j, error := es.getLast? } : World).view :=
        World.view_eq_iff.mpr ⟨hj, hh, hb, ht, hs, rfl, rfl, hd, hr, hc, hf⟩
      have hbind := World.bind_congr (s := s) h' .stop (World.stopAt s j).reactions
        (World.settingOf s j (World.stopAt s j))
      refine ⟨hbind, ?_⟩
      simp only [Wait.resume, World.arrive]
      rw [World.state_congr hbind]
  | concluded o' => exact ⟨h, rfl⟩
  | journey =>
      refine ⟨?_, rfl⟩
      show v.handOver.view = w.handOver.view
      rw [(World.aside_handOver v).view, (World.aside_handOver w).view]
      exact h
  | _ => cases o <;> exact ⟨h, rfl⟩

/-- Where the views are the same a job takes the same step, unless it seeks the way, and the views
are the same again. -/
theorem Job.step_congr {s : Stage} {v w : World} {i j : Nat} {job : Job} {waits : List Wait}
    (h : v.view = w.view) (hseek : ∀ m, job ≠ .seek m) :
    SameStep (job.step s v i waits) (job.step s w j waits) := by
  obtain ⟨hj, hh, hb, ht, hs, hp, he, hd, hr, hc, hf⟩ := World.view_eq_iff.mp h
  cases job with
  | run setting event actions errors =>
      cases actions with
      | nil => exact ⟨h, rfl⟩
      | cons a rest =>
          simp only [Job.step, World.runActions]
          split
          · exact ⟨h, rfl⟩
          · exact ⟨World.view_eq_iff.mpr ⟨by simp only [World.write, hj], hh, hb, ht, hs, hp, he, hd,
              hr, hc, hf⟩, rfl⟩
  | act kind behaviour =>
      cases behaviour with
      | perform c next => exact Command.step_congr h waits kind c next
      | _ => exact ⟨h, rfl⟩
  | fire event listeners total =>
      cases listeners with
      | nil => exact ⟨h, rfl⟩
      | cons l rest =>
          simp only [Job.step, World.fire]
          split <;> exact ⟨h, rfl⟩
  | deliver ds => exact World.deliver_congr h waits ds
  | travel m =>
      simp only [Job.step, World.travel]
      split
      · split <;> exact ⟨h, rfl⟩
      · exact ⟨h, rfl⟩
  | seek m => exact absurd rfl (hseek m)
  | depart m =>
      simp only [Job.step, World.depart, hd, World.target?_congr h]
      split
      · exact ⟨h, rfl⟩
      · split
        · exact ⟨h, rfl⟩
        · exact ⟨World.tidy_congr (World.release_congr h .stop) _, rfl⟩
  | settle j n =>
      cases n with
      | zero => exact ⟨h, rfl⟩
      | succ n =>
          simp only [Job.step, World.settle]
          split
          · exact ⟨h, rfl⟩
          · exact ⟨World.view_eq_iff.mpr ⟨hj, hh, hb, ht, hs, hp, he, hd, hr, hc,
              by simp only [hf]⟩, rfl⟩
  | ended o =>
      cases waits with
      | nil => exact ⟨h, rfl⟩
      | cons wait waits => exact Wait.resume_congr h waits o wait
  | _ => exact ⟨h, rfl⟩

end DiagramTour
