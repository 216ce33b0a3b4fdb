import DiagramTour.Proofs.Playback.Effect
import Mathlib.Data.List.Perm.Basic

/-!
# Tasks and their numbers

A step takes a task out of the ready ones, changes the world, and puts the task where it goes on.
In between the task is in hand: it belongs to no list.  So what is to hold of all tasks is stated of
a world together with the tasks in hand, and is kept by each of the three parts of a step.

## Architecture

- `World.choose_cases` says what a choice is: a step of a task that is taken in hand, a shuffle of
  the tasks, or a demand.
- `World.Numbered`: no two tasks have the same number, and numbers ascend.
- `World.Timed`: who has the number of a timer is a timer, and does not do anything else.
-/

namespace DiagramTour

/-! ## Tasks in hand -/

/-- The task that a turn leaves behind, unless it has ended. -/
def Turn.task? (id : Nat) : Turn → Option Task
  | .go job waits | .pause job waits | .sleep _ job waits | .queue job waits => some ⟨id, job, waits⟩
  | .finish _ => none

/-- Whether a turn makes a task queue for the way. -/
def Turn.isQueue : Turn → Bool
  | .queue _ _ => true
  | _ => false

@[simp] theorem Turn.task?_ended (id : Nat) (o : Outcome) (waits : List Wait) :
    (Turn.ended o waits).task? id = some ⟨id, .ended o, waits⟩ := rfl

@[simp] theorem Turn.isQueue_ended (o : Outcome) (waits : List Wait) :
    (Turn.ended o waits).isQueue = false := rfl

theorem Turn.task?_of_left? {turn : Turn} {job : Job} {waits : List Wait}
    (h : turn.left? = some (job, waits)) (id : Nat) : turn.task? id = some ⟨id, job, waits⟩ := by
  cases turn <;> simp_all [Turn.task?, Turn.left?]

theorem Turn.isQueue_of_left? {turn : Turn} {job : Job} {waits : List Wait}
    (h : turn.left? = some (job, waits)) : turn.isQueue = false := by
  cases turn <;> simp_all [Turn.isQueue, Turn.left?]

theorem Turn.id_of_task? {turn : Turn} {id : Nat} {t : Task} (h : turn.task? id = some t) :
    t.id = id := by
  cases turn <;> simp_all [Turn.task?] <;> rw [← h]

namespace World

variable {s : Stage} {w w' : World} {t : Task}

/-- A world whose tasks were moved between those who are ready, pause and sleep. -/
structure Shuffled (w w' : World) : Prop where
  eq : ∃ ready paused asleep now, w' = { w with ready, paused, asleep, now }
  active : w'.active.Perm w.active
  /-- Nobody pauses by being moved. -/
  paused : ∀ t ∈ w'.paused, t ∈ w.paused

theorem Shuffled.refl (w : World) : w.Shuffled w :=
  ⟨⟨w.ready, w.paused, w.asleep, w.now, rfl⟩, .refl _, fun _ h => h⟩

theorem Shuffled.queue (h : w.Shuffled w') : w'.queue = w.queue := by
  obtain ⟨ready, paused, asleep, now, rfl⟩ := h.eq
  rfl

theorem Shuffled.tasks (h : w.Shuffled w') : w'.tasks.Perm w.tasks := by
  rw [World.tasks, World.tasks, h.queue]
  exact h.active.append_right _

private theorem perm_of_getElem? {α : Type} {as : List α} {i : Nat} {a : α} (h : as[i]? = some a) :
    as.Perm (a :: as.eraseIdx i) := by
  obtain ⟨hi, rfl⟩ := List.getElem?_eq_some_iff.mp h
  exact (List.getElem_cons_eraseIdx_perm hi).symm

/-- A choice is a step of a task that is taken in hand, or it only moves tasks, or it is a
demand. -/
theorem choose_cases (s : Stage) (w : World) (c : Choice) :
    (∃ t others, w.mover? c = some t ∧ w.ready.Perm (t :: others) ∧
      w.choose s c = w.takeTurn s t others) ∨
    (w.mover? c = none ∧ w.Shuffled (w.choose s c)) ∨
    (∃ d, c = .ask d ∧ w.choose s c = w.ask d) := by
  cases c with
  | turn i =>
      simp only [choose, mover?]
      cases hi : w.ready[i]? with
      | some t => exact .inl ⟨t, w.ready.eraseIdx i, rfl, perm_of_getElem? hi, rfl⟩
      | none => exact .inr (.inl ⟨rfl, .refl w⟩)
  | yield i =>
      refine .inr (.inl ⟨rfl, ?_⟩)
      simp only [choose]
      cases hi : w.ready[i]? with
      | some t =>
          refine ⟨⟨_, _, _, _, rfl⟩, ?_, fun _ h => h⟩
          have hready : (w.ready.eraseIdx i ++ [t]).Perm w.ready :=
            List.perm_append_comm.trans (perm_of_getElem? hi).symm
          exact (hready.append_right _).append_right _
      | none => exact .refl w
  | resume i =>
      refine .inr (.inl ⟨rfl, ?_⟩)
      simp only [choose]
      cases hi : w.paused[i]? with
      | some t =>
          refine ⟨⟨_, _, _, _, rfl⟩, ?_, fun _ h => List.mem_of_mem_eraseIdx h⟩
          simp only [World.active, List.append_assoc, List.singleton_append]
          exact ((perm_of_getElem? hi).symm.append_right _).append_left _
      | none => exact .refl w
  | wake i now =>
      refine .inr (.inl ⟨rfl, ?_⟩)
      simp only [choose]
      cases hi : w.asleep[i]? with
      | none => exact .refl w
      | some dt =>
          obtain ⟨due, t⟩ := dt
          simp only
          split
          · refine ⟨⟨_, _, _, _, rfl⟩, ?_, fun _ h => h⟩
            simp only [World.active, List.append_assoc, List.singleton_append]
            refine List.Perm.append_left _ ?_
            refine (@List.perm_middle Task t w.paused _).symm.trans ?_
            exact ((perm_of_getElem? hi).symm.map Prod.snd).append_left _
          · exact .refl w
  | ask d => exact .inr (.inr ⟨d, rfl, rfl⟩)

/-- What is kept when a task is taken in hand, takes its step and is put where it goes on, and what
every shuffle and every demand keeps, is kept by every choice. -/
theorem choose_induction {P : World → List Task → Prop}
    (htake : ∀ {w t others}, P w [] → w.ready.Perm (t :: others) →
      P { w with ready := others } [t])
    (hstep : ∀ {w t}, P w [t] →
      P ((t.job.step s w t.id t.waits).1.place t.id (t.job.step s w t.id t.waits).2) [])
    (hshuffle : ∀ {w w'}, P w [] → w.Shuffled w' → P w' [])
    (hask : ∀ {w} d, P w [] → P (w.ask d) []) (c : Choice) (h : P w []) : P (w.choose s c) [] := by
  obtain ⟨t, others, -, hperm, heq⟩ | ⟨-, hw⟩ | ⟨d, -, heq⟩ := choose_cases s w c
  · rw [heq]
    exact hstep (htake h hperm)
  · exact hshuffle h hw
  · rw [heq]
    exact hask d h

/-! ## Where tasks are after a step -/

theorem tasks_take {others : List Task} (h : w.ready.Perm (t :: others)) :
    w.tasks.Perm (t :: ({ w with ready := others } : World).tasks) := by
  simp only [tasks, active, List.append_assoc]
  exact h.append_right _

theorem tasks_place (w : World) (id : Nat) (turn : Turn) :
    (w.place id turn).tasks.Perm ((turn.task? id).toList ++ w.tasks) := by
  cases turn with
  | go job waits => exact .refl _
  | pause job waits =>
      simpa [place, tasks, active, Turn.task?] using
        @List.perm_middle Task ⟨id, job, waits⟩ (w.ready ++ w.paused)
          (w.asleep.map Prod.snd ++ w.queue)
  | sleep ms job waits =>
      cases ms with
      | zero => exact .refl _
      | succ n =>
          simpa [place, tasks, active, Turn.task?] using
            @List.perm_middle Task ⟨id, job, waits⟩ (w.ready ++ w.paused ++ w.asleep.map Prod.snd)
              w.queue
  | queue job waits =>
      simpa [place, tasks, active, Turn.task?] using
        @List.perm_middle Task ⟨id, job, waits⟩ w.tasks []
  | finish o => exact .refl _

theorem tasks_start (w : World) (job : Job) (waits : List Wait) :
    (w.start job waits).tasks.Perm (⟨w.nextTask, job, waits⟩ :: w.tasks) := by
  simp [start, tasks, active]

theorem tasks_bind (s : Stage) (w : World) (p : Part) (rs : List Reaction) (setting : Setting) :
    (w.bind s p rs setting).tasks.Perm
      (timerTasks setting w.nextTask (timersOf s rs) ++ w.tasks) := by
  rw [bind_eq]
  simp only [tasks, active, ← List.append_assoc]
  refine ((List.Perm.append_right _ ?_).append_right _).append_right _
  exact List.perm_append_comm

theorem tasks_handOver (w : World) : w.handOver.tasks.Perm w.tasks := by
  unfold handOver
  split
  · exact .refl _
  · rename_i t ts hq
    simp only [tasks, active, hq, List.append_assoc, List.singleton_append]
    refine List.Perm.append_left _ ?_
    simpa using (@List.perm_middle Task t (w.paused ++ w.asleep.map Prod.snd) ts).symm

theorem tasks_release (w : World) (p : Part) : (w.release p).tasks.Sublist w.tasks := by
  rw [release_eq]
  refine List.Sublist.append (List.Sublist.append ?_ ?_) (.refl _)
  · exact List.filter_sublist.append_right _
  · exact List.filter_sublist.map _

theorem tasks_destroy (w : World) : w.destroy.tasks.Sublist w.tasks := by
  unfold destroy
  split
  · exact .refl _
  · exact (tasks_release _ .stop).trans (tasks_release _ .tour)

theorem tasks_tidy (s : Stage) (w : World) (stop : Stop) : (w.tidy s stop).tasks = w.tasks := by
  obtain ⟨_, _, h⟩ := w.tidy_eq stop
  rw [h]
  rfl

theorem rig_bind (s : Stage) (w : World) (p q : Part) (rs : List Reaction) (setting : Setting) :
    (w.bind s p rs setting).rig q = if p = q then w.grownRig s p rs setting else w.rig q := by
  rw [bind_eq]
  cases p <;> cases q <;> rfl

theorem rig_release (w : World) (p q : Part) :
    (w.release p).rig q = if p = q then {} else w.rig q := by
  rw [release_eq]
  cases p <;> cases q <;> rfl

theorem rig_tidy (s : Stage) (w : World) (stop : Stop) (p : Part) :
    (w.tidy s stop).rig p = w.rig p := by
  obtain ⟨_, _, h⟩ := w.tidy_eq stop
  rw [h]
  cases p <;> rfl

theorem rig_destroy (w : World) (p : Part) : w.destroy.rig p = if w.destroyed then w.rig p else {} := by
  unfold destroy
  split
  · rfl
  · show ((({ w with destroyed := true } : World).release .tour).release .stop).rig p = {}
    cases p <;> simp [rig_release]

/-- A step keeps a player going, or does nothing but end it. -/
theorem destroyed_effect {id : Nat} {job : Job} {waits : List Wait}
    (he : Job.Effect s w id job waits w') : w'.destroyed = w.destroyed ∨ w' = w.destroy := by
  cases he with
  | calm hcalm =>
      obtain ⟨_, _, _, _, _, rfl⟩ := hcalm.eq
      exact .inl rfl
  | destroy => exact .inr rfl
  | leave =>
      obtain ⟨_, _, heq⟩ := (w.release .stop).tidy_eq (s := s) (stopAt s _)
      rw [heq, release_eq]
      exact .inl rfl
  | arrive =>
      rw [bind_eq]
      exact .inl rfl
  | «open» =>
      rw [bind_eq]
      exact .inl rfl
  | handOver =>
      unfold handOver
      split <;> exact .inl rfl
  | _ => exact .inl rfl

theorem destroyed_destroy (w : World) : w.destroy.destroyed = true := by
  unfold destroy
  split
  · assumption
  · simp [release_eq]

theorem destroyed_place (w : World) (id : Nat) (turn : Turn) :
    (w.place id turn).destroyed = w.destroyed := by
  unfold place
  split <;> rfl

/-- Whoever has ended does not begin again. -/
theorem destroyed_choose {c : Choice} (h : w.destroyed = true) : (w.choose s c).destroyed = true := by
  obtain ⟨t, others, -, -, heq⟩ | ⟨-, hw⟩ | ⟨d, -, heq⟩ := choose_cases s w c
  · rw [heq, takeTurn_eq, destroyed_place]
    rcases destroyed_effect (Job.step_effect s { w with ready := others } t.id t.waits t.job)
      with hkept | hdestroy
    · exact hkept.trans h
    · rw [hdestroy]
      exact destroyed_destroy _
  · obtain ⟨_, _, _, _, hw⟩ := hw.eq
    rw [hw]
    exact h
  · rw [heq]
    cases d with
    | destroy => exact destroyed_destroy w
    | subscribe label topic responses =>
        simp only [ask]
        split <;> exact h
    | _ => exact h

end World

/-- A task as a step of a job starts it. -/
inductive Task.IsFresh : Job → Task → Prop where
  | move {id : Nat} {m : Move} : Task.IsFresh (.travel m) ⟨id, .seek m, [.journey]⟩
  | reaction {id : Nat} {setting : Setting} {delay : Nat} {event : FiredEvent}
      {actions : List Action} :
      Task.IsFresh (.ring setting delay actions)
        ⟨id, .run setting (some event) actions [], [.report setting.outlet]⟩
  | timer {job : Job} {id : Nat} {setting : Setting} {delay : Nat} {actions : List Action} :
      Task.IsFresh job ⟨id, .await setting delay actions, []⟩

theorem timerTasks_ids (setting : Setting) (next : Nat) (rs : List Reaction) :
    (timerTasks setting next rs).map Task.id = List.range' next rs.length := by
  simp [timerTasks, Function.comp_def, List.zipIdx_map_snd]

/-- Whoever is there after an effect was there before, or was just started with a new number. -/
theorem Job.Effect.mem_tasks {s : Stage} {w w' : World} {id : Nat} {job : Job} {waits : List Wait}
    (he : Job.Effect s w id job waits w') :
    ∀ t ∈ w'.tasks, t ∈ w.tasks ∨ t.IsFresh job ∧ w.nextTask ≤ t.id := by
  have hbind : ∀ (v : World) (p : Part) (rs : List Reaction) (setting : Setting),
      ∀ t ∈ (v.bind s p rs setting).tasks,
        t ∈ v.tasks ∨ t.IsFresh job ∧ v.nextTask ≤ t.id := by
    intro v p rs setting t ht
    rcases List.mem_append.mp ((World.tasks_bind s v p rs setting).subset ht) with hnew | hold
    · have hid := List.mem_map_of_mem (f := Task.id) hnew
      rw [timerTasks_ids] at hid
      obtain ⟨r, -, rfl⟩ := List.mem_map.mp hnew
      exact .inr ⟨.timer, (List.mem_range'_1.mp hid).1⟩
    · exact .inl hold
  intro t ht
  cases he with
  | calm hcalm =>
      obtain ⟨_, _, _, _, _, rfl⟩ := hcalm.eq
      exact .inl ht
  | destroy => exact .inl ((World.tasks_destroy w).subset ht)
  | spawn =>
      rcases List.mem_cons.mp ((World.tasks_start w _ _).subset ht) with rfl | hold
      · exact .inr ⟨.move, Nat.le_refl _⟩
      · exact .inl hold
  | ring =>
      rcases List.mem_cons.mp ((World.tasks_start w _ _).subset ht) with rfl | hold
      · exact .inr ⟨.reaction, Nat.le_refl _⟩
      · exact .inl hold
  | take => exact .inl ht
  | leave =>
      rw [World.tasks_tidy] at ht
      exact .inl ((World.tasks_release w .stop).subset ht)
  | @arrive o j es => exact hbind { w with position := j, error := es.getLast? } _ _ _ t ht
  | «open» => exact hbind w _ _ _ t ht
  | abort => exact .inl ht
  | handOver => exact .inl ((World.tasks_handOver w).subset ht)

/-! ## Numbers -/

namespace World

/-- No two tasks have the same number, and the next one is greater than all. -/
structure Numbered (w : World) (hand : List Task) : Prop where
  distinct : ((hand ++ w.tasks).map Task.id).Nodup
  below : ∀ t ∈ hand ++ w.tasks, t.id < w.nextTask
  rigs : ∀ p, ∀ i ∈ (w.rig p).timers, i < w.nextTask

namespace Numbered

variable {s : Stage} {w w' : World} {hand hand' : List Task} {t : Task}

/-- Tasks may go, and so may timers. -/
theorem shrink (h : Numbered w hand) (htasks : (hand' ++ w'.tasks).Subperm (hand ++ w.tasks))
    (hnext : w'.nextTask = w.nextTask)
    (hrigs : ∀ p, ∀ i ∈ (w'.rig p).timers, i ∈ (w.rig p).timers) : Numbered w' hand' where
  distinct := by
    obtain ⟨ts, hperm, hsub⟩ := htasks
    exact ((hperm.map Task.id).nodup_iff).mp (h.distinct.sublist (hsub.map Task.id))
  below t ht := by
    rw [hnext]
    exact h.below t (htasks.subset ht)
  rigs p i hi := by
    rw [hnext]
    exact h.rigs p i (hrigs p i hi)

/-- New tasks get the next numbers. -/
theorem grow (h : Numbered w hand) (new : List Task) (htasks : w'.tasks.Perm (new ++ w.tasks))
    (hids : new.map Task.id = List.range' w.nextTask new.length)
    (hnext : w'.nextTask = w.nextTask + new.length)
    (hrigs : ∀ p, ∀ i ∈ (w'.rig p).timers, i ∈ (w.rig p).timers ∨ i ∈ new.map Task.id) :
    Numbered w' hand where
  distinct := by
    have hperm : (hand ++ w'.tasks).Perm (new ++ (hand ++ w.tasks)) := by
      refine (htasks.append_left hand).trans ?_
      rw [← List.append_assoc, ← List.append_assoc]
      exact List.perm_append_comm.append_right _
    rw [(hperm.map Task.id).nodup_iff, List.map_append, hids]
    refine List.nodup_append.mpr ⟨List.nodup_range', h.distinct, ?_⟩
    intro i hnew j hold
    obtain ⟨t, ht, rfl⟩ := List.mem_map.mp hold
    have hlt := h.below t ht
    have hge := (List.mem_range'_1.mp hnew).1
    omega
  below t ht := by
    rw [hnext]
    rcases List.mem_append.mp ht with hhand | hw
    · exact Nat.lt_add_right _ (h.below t (List.mem_append_left _ hhand))
    · rcases List.mem_append.mp (htasks.subset hw) with hnew | hold
      · have hi : t.id ∈ new.map Task.id := List.mem_map_of_mem hnew
        rw [hids] at hi
        exact (List.mem_range'_1.mp hi).2
      · exact Nat.lt_add_right _ (h.below t (List.mem_append_right _ hold))
  rigs p i hi := by
    rw [hnext]
    rcases hrigs p i hi with hold | hnew
    · exact Nat.lt_add_right _ (h.rigs p i hold)
    · rw [hids] at hnew
      exact (List.mem_range'_1.mp hnew).2

theorem start (h : Numbered w hand) (job : Job) (waits : List Wait) :
    Numbered (w.start job waits) hand :=
  h.grow [⟨w.nextTask, job, waits⟩] (tasks_start w job waits) rfl rfl
    fun _ _ hi => .inl hi

theorem bind (h : Numbered w hand) (p : Part) (rs : List Reaction) (setting : Setting) :
    Numbered (w.bind s p rs setting) hand := by
  refine h.grow _ (tasks_bind s w p rs setting) ?_ ?_ ?_
  · rw [timerTasks_ids]
    simp [timerTasks]
  · rw [bind_eq]
    simp [timerTasks]
  · intro q i hi
    rw [timerTasks_ids]
    rw [rig_bind] at hi
    split at hi
    · rename_i hpq
      subst hpq
      exact List.mem_append.mp hi
    · exact .inl hi

theorem release (h : Numbered w hand) (p : Part) : Numbered (w.release p) hand := by
  refine h.shrink ((tasks_release w p).append_left hand).subperm ?_ ?_
  · rw [release_eq]
  · intro q i hi
    rw [rig_release] at hi
    split at hi
    · simp at hi
    · exact hi

theorem tidy (h : Numbered w hand) (stop : Stop) : Numbered (w.tidy s stop) hand := by
  obtain ⟨_, _, heq⟩ := w.tidy_eq stop
  rw [heq]
  exact ⟨h.distinct, h.below, h.rigs⟩

theorem destroy (h : Numbered w hand) : Numbered w.destroy hand := by
  unfold World.destroy
  split
  · exact h
  · have h' : Numbered { w with destroyed := true } hand := ⟨h.distinct, h.below, h.rigs⟩
    exact ⟨((h'.release .tour).release .stop).distinct, ((h'.release .tour).release .stop).below,
      ((h'.release .tour).release .stop).rigs⟩

theorem handOver (h : Numbered w hand) : Numbered w.handOver hand := by
  refine h.shrink ((tasks_handOver w).append_left hand).subperm ?_ ?_ <;>
    unfold World.handOver <;> split
  · rfl
  · rfl
  · exact fun _ _ hi => hi
  · exact fun _ _ hi => hi

/-- Every effect of a step keeps the numbers. -/
theorem effect {id : Nat} {job : Job} {waits : List Wait} (h : Numbered w hand)
    (he : Job.Effect s w id job waits w') : Numbered w' hand := by
  cases he with
  | calm hcalm =>
      obtain ⟨_, _, _, _, _, rfl⟩ := hcalm.eq
      exact ⟨h.distinct, h.below, h.rigs⟩
  | destroy => exact h.destroy
  | spawn => exact h.start _ _
  | ring => exact h.start _ _
  | take => exact ⟨h.distinct, h.below, h.rigs⟩
  | leave => exact (h.release .stop).tidy _
  | arrive =>
      refine Numbered.bind ?_ _ _ _
      exact ⟨h.distinct, h.below, h.rigs⟩
  | «open» => exact h.bind _ _ _
  | abort => exact ⟨h.distinct, h.below, h.rigs⟩
  | handOver => exact h.handOver

/-- A task in hand may change everything but its number, and it may end. -/
theorem change {turn : Turn} (h : Numbered w [t]) : Numbered w (turn.task? t.id).toList := by
  cases hturn : turn.task? t.id with
  | none => exact h.shrink (List.sublist_append_right _ _).subperm rfl fun _ _ hi => hi
  | some t' =>
      have hid := Turn.id_of_task? hturn
      refine ⟨?_, ?_, h.rigs⟩
      · have := h.distinct
        simpa [hid] using this
      · have := h.below
        simpa [hid] using this

theorem place {turn : Turn} {id : Nat} (h : Numbered w (turn.task? id).toList) :
    Numbered (w.place id turn) [] := by
  refine h.shrink (tasks_place w id turn).subperm ?_ ?_
  · unfold World.place
    split <;> rfl
  · intro p i hi
    unfold World.place at hi
    split at hi <;> exact hi

theorem ask (h : Numbered w []) (d : Demand) : Numbered (w.ask d) [] := by
  cases d with
  | «begin» render => exact h.start _ _
  | move m => exact h.start _ _
  | dispatch event => exact h.start _ _
  | sleep ms => exact h.start _ _
  | subscribe label topic responses =>
      simp only [World.ask]
      split
      · exact ⟨h.distinct, h.below, h.rigs⟩
      · exact h
  | unsubscribe label => exact ⟨h.distinct, h.below, h.rigs⟩
  | destroy => exact h.destroy

theorem take {others : List Task} (h : Numbered w []) (hperm : w.ready.Perm (t :: others)) :
    Numbered { w with ready := others } [t] :=
  h.shrink (tasks_take hperm).symm.subperm rfl fun _ _ hi => hi

theorem shuffle (h : Numbered w []) (hw : w.Shuffled w') : Numbered w' [] := by
  refine h.shrink hw.tasks.subperm ?_ ?_ <;> obtain ⟨_, _, _, _, rfl⟩ := hw.eq
  · rfl
  · exact fun _ _ hi => hi

theorem initial : Numbered {} [] :=
  ⟨by simp [tasks, active], by simp [tasks, active], by rintro (_ | _) <;> simp [rig]⟩

end Numbered

end World

/-! ## Timers -/

/-- Whether a job is one that timers are at. -/
def Job.isOfTimer : Job → Bool
  | .await _ _ _ | .ring _ _ _ | .ended .completed => true
  | _ => false

/-- Whether a task does what timers do, and nothing else. -/
structure Task.IsTimer (t : Task) : Prop where
  job : t.job.isOfTimer = true
  waits : t.waits = []

/-- A timer stays one until it ends. -/
theorem Task.IsTimer.step {s : Stage} {w : World} {t t' : Task} (h : t.IsTimer)
    (ht : (t.job.step s w t.id t.waits).2.task? t.id = some t') : t'.IsTimer := by
  obtain ⟨id, job, waits⟩ := t
  obtain ⟨hjob, rfl⟩ := h
  cases job with
  | await setting delay actions =>
      cases ht
      exact ⟨rfl, rfl⟩
  | ring setting delay actions =>
      cases ht
      exact ⟨rfl, rfl⟩
  | ended o => cases ht
  | _ => cases hjob

namespace World

/-- Who has the number of a timer is a timer. -/
structure Timed (w : World) (hand : List Task) : Prop extends Numbered w hand where
  timers : ∀ t ∈ hand ++ w.tasks, ∀ p, t.id ∈ (w.rig p).timers → t.IsTimer

namespace Timed

variable {s : Stage} {w w' : World} {hand hand' : List Task} {t : Task}

theorem shrink (h : Timed w hand) (hn : Numbered w' hand')
    (htasks : hand' ++ w'.tasks ⊆ hand ++ w.tasks)
    (hrigs : ∀ p, ∀ i ∈ (w'.rig p).timers, i ∈ (w.rig p).timers) : Timed w' hand' where
  toNumbered := hn
  timers t ht p hi := h.timers t (htasks ht) p (hrigs p _ hi)

private theorem subset_append {hand ts ts' : List Task} (h : ts' ⊆ ts) : hand ++ ts' ⊆ hand ++ ts := by
  intro t ht
  rcases List.mem_append.mp ht with hhand | hts
  · exact List.mem_append_left _ hhand
  · exact List.mem_append_right _ (h hts)

theorem start (h : Timed w hand) (job : Job) (waits : List Wait) :
    Timed (w.start job waits) hand where
  toNumbered := h.toNumbered.start job waits
  timers t ht p hi := by
    have hrig : t.id ∈ (w.rig p).timers := hi
    rcases List.mem_append.mp ht with hhand | hw
    · exact h.timers t (List.mem_append_left _ hhand) p hrig
    · rcases List.mem_cons.mp ((tasks_start w job waits).subset hw) with rfl | hold
      · exact absurd (h.rigs p _ hrig) (Nat.lt_irrefl _)
      · exact h.timers t (List.mem_append_right _ hold) p hrig

theorem bind (h : Timed w hand) (p : Part) (rs : List Reaction) (setting : Setting) :
    Timed (w.bind s p rs setting) hand where
  toNumbered := h.toNumbered.bind p rs setting
  timers t ht q hi := by
    have hold : t.id < w.nextTask → t.id ∈ (w.rig q).timers := by
      intro hlt
      rw [rig_bind] at hi
      split at hi
      · rename_i hpq
        subst hpq
        rcases List.mem_append.mp hi with hrig | hnew
        · exact hrig
        · exact absurd (List.mem_range'_1.mp hnew).1 (Nat.not_le.mpr hlt)
      · exact hi
    rcases List.mem_append.mp ht with hhand | hw
    · have hmem := List.mem_append_left w.tasks hhand
      exact h.timers t hmem q (hold (h.below t hmem))
    · rcases List.mem_append.mp ((tasks_bind s w p rs setting).subset hw) with hnew | hw
      · obtain ⟨r, -, rfl⟩ := List.mem_map.mp hnew
        exact ⟨rfl, rfl⟩
      · have hmem := List.mem_append_right hand hw
        exact h.timers t hmem q (hold (h.below t hmem))

theorem release (h : Timed w hand) (p : Part) : Timed (w.release p) hand := by
  refine h.shrink (h.toNumbered.release p) (subset_append (tasks_release w p).subset) ?_
  intro q i hi
  rw [rig_release] at hi
  split at hi
  · simp at hi
  · exact hi

theorem destroy (h : Timed w hand) : Timed w.destroy hand := by
  refine h.shrink h.toNumbered.destroy (subset_append (tasks_destroy w).subset) ?_
  intro p i hi
  rw [rig_destroy] at hi
  split at hi
  · exact hi
  · simp at hi

theorem handOver (h : Timed w hand) : Timed w.handOver hand := by
  refine h.shrink h.toNumbered.handOver (subset_append (tasks_handOver w).subset) ?_
  intro p i hi
  unfold World.handOver at hi
  split at hi <;> exact hi

/-- Every effect of a step keeps the timers apart. -/
theorem effect {id : Nat} {job : Job} {waits : List Wait} (h : Timed w hand)
    (he : Job.Effect s w id job waits w') : Timed w' hand := by
  have hn := h.toNumbered.effect he
  cases he with
  | calm hcalm =>
      obtain ⟨_, _, _, _, _, rfl⟩ := hcalm.eq
      exact ⟨hn, h.timers⟩
  | destroy => exact h.destroy
  | spawn => exact h.start _ _
  | ring => exact h.start _ _
  | take => exact ⟨hn, h.timers⟩
  | leave =>
      refine (h.release .stop).shrink hn ?_ ?_
      · rw [tasks_tidy]
        exact fun _ ht => ht
      · intro p i hi
        rwa [rig_tidy] at hi
  | @arrive o j es waits =>
      have h' : Timed { w with position := j, error := es.getLast? } hand :=
        ⟨⟨h.distinct, h.below, h.rigs⟩, h.timers⟩
      exact h'.bind _ _ _
  | «open» => exact h.bind _ _ _
  | abort => exact ⟨hn, h.timers⟩
  | handOver => exact h.handOver

theorem ask (h : Timed w []) (d : Demand) : Timed (w.ask d) [] := by
  have hn := h.toNumbered.ask d
  cases d with
  | «begin» render => exact h.start _ _
  | move m => exact h.start _ _
  | dispatch event => exact h.start _ _
  | sleep ms => exact h.start _ _
  | subscribe label topic responses =>
      simp only [World.ask]
      split
      · exact ⟨⟨h.distinct, h.below, h.rigs⟩, h.timers⟩
      · exact h
  | unsubscribe label => exact ⟨hn, h.timers⟩
  | destroy => exact h.destroy

/-- Every step of a task in hand keeps the timers apart. -/
theorem step (h : Timed w [t]) :
    Timed (t.job.step s w t.id t.waits).1
      ((t.job.step s w t.id t.waits).2.task? t.id).toList := by
  have h' := h.effect (Job.step_effect s w t.id t.waits t.job)
  refine ⟨h'.toNumbered.change, ?_⟩
  intro u hu p hi
  rcases List.mem_append.mp hu with hhand | hw
  · have hstep : (t.job.step s w t.id t.waits).2.task? t.id = some u := by simpa using hhand
    rw [Turn.id_of_task? hstep] at hi
    exact (h'.timers t (by simp) p hi).step hstep
  · exact h'.timers u (by simp [hw]) p hi

theorem place {turn : Turn} {id : Nat} (h : Timed w (turn.task? id).toList) :
    Timed (w.place id turn) [] := by
  refine h.shrink h.toNumbered.place (tasks_place w id turn).subset ?_
  intro p i hi
  unfold World.place at hi
  split at hi <;> exact hi

/-- Every choice keeps the timers apart. -/
theorem choose (h : Timed w []) (c : Choice) : Timed (w.choose s c) [] := by
  refine choose_induction (P := Timed) ?_ ?_ ?_ ?_ c h
  · intro w t others h hperm
    exact h.shrink (h.take hperm) (tasks_take hperm).symm.subset fun _ _ hi => hi
  · exact fun h => h.step.place
  · intro w w' h hw
    have hsub : [] ++ w'.tasks ⊆ [] ++ w.tasks := hw.tasks.subset
    refine h.shrink (h.shuffle hw) hsub ?_
    obtain ⟨_, _, _, _, rfl⟩ := hw.eq
    exact fun _ _ hi => hi
  · exact fun d h => h.ask d

end Timed

/-- In every world that can be reached the timers are told apart from all other tasks. -/
theorem Reachable.timed {s : Stage} {w : World} (h : Reachable s w) : Timed w [] := by
  refine h.induction (P := fun w => Timed w []) ?_ fun _ c hw => hw.choose c
  exact ⟨.initial, by simp [tasks, active]⟩

end World

end DiagramTour
