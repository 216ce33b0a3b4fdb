import DiagramTour.Proofs.Playback.Tasks

/-!
# The end of a player

Ending a player takes down all that it had put up.  What was under way is not stopped, and whoever
was on the way to a stop still reaches it; so what has ended may put up listeners again.

## Architecture

- `World.Rigged`: whoever listens and every timer that is pending can be taken down.
- `World.Bare`: nobody listens, and no timer is pending.
- `Task.Lands` tells the steps that bring an ended player back; `World.final_iff_nobody_lands` says
  that an end is final just when none of them is taken.
- `World.Spent` holds of an ended player that nobody can bring back any more.
-/

namespace DiagramTour

/-! ## Pending timers -/

/-- Whether a job is that of a timer that has not gone off. -/
def Job.isPending : Job → Bool
  | .await _ _ _ | .ring _ _ _ => true
  | _ => false

theorem Job.isPending_of_isInner {job : Job} (h : job.isInner = true) : job.isPending = false := by
  cases job <;> simp_all [isInner, isPending]

theorem Job.isPending_of_isEnded {job : Job} (h : job.isEnded = true) : job.isPending = false := by
  cases job <;> simp_all [isEnded, isPending]

/-- Only who waited for a timer waits for one after a step, and the step did nothing else. -/
theorem Job.step_pending {s : Stage} {w : World} {t t' : Task}
    (ht : (t.job.step s w t.id t.waits).2.task? t.id = some t') (hp : t'.job.isPending = true) :
    t.job.isPending = true ∧ (t.job.step s w t.id t.waits).1 = w ∧
      ∃ ms, (t.job.step s w t.id t.waits).2 = .sleep ms t'.job t'.waits := by
  have hshift := Job.step_shift s w t.id t.waits t.job
  obtain ⟨id, job, waits⟩ := t
  simp only at hshift ht ⊢
  generalize hturn : (job.step s w id waits).2 = turn at hshift ht ⊢
  cases hshift with
  | await =>
      cases ht
      exact ⟨rfl, rfl, _, rfl⟩
  | inner _ _ hleft hjob' _ =>
      cases (Turn.task?_of_left? hleft id).symm.trans ht
      rcases hjob' with h | h | ⟨m, rfl⟩
      · simp [isPending_of_isInner h] at hp
      · simp [isPending_of_isEnded h] at hp
      · cases hp
  | resume _ hjob' =>
      cases ht
      rcases hjob' with h | h
      · simp [isPending_of_isInner h] at hp
      · simp [isPending_of_isEnded h] at hp
  | opened hjob' =>
      cases ht
      rcases hjob' with rfl | rfl <;> cases hp
  | cleared hjob' =>
      cases ht
      rcases hjob' with h | ⟨n, rfl⟩
      · simp [isPending_of_isEnded h] at hp
      · cases hp
  | settle hleft =>
      cases (Turn.task?_of_left? hleft id).symm.trans ht
      cases hp
  | finish => cases ht
  | _ =>
      cases ht
      cases hp

namespace World

/-! ## What can be taken down -/

/-- Whoever listens and whoever waits for a timer belongs to a part, and none of the latter pauses or
queues; so to take down both parts is to take down all. -/
structure Rigged (w : World) : Prop where
  listeners : ∀ l ∈ w.host.listeners, ∃ p, l.id ∈ (w.rig p).listeners
  timers : ∀ t ∈ w.tasks, t.job.isPending = true → ∃ p, t.id ∈ (w.rig p).timers
  restless : ∀ t ∈ w.paused ++ w.queue, t.job.isPending = false

/-- Nobody listens, and no timer is pending. -/
structure Bare (w : World) : Prop where
  listeners : w.host.listeners = []
  timers : ∀ t ∈ w.tasks, t.job.isPending = false

variable {s : Stage} {w w' : World} {t : Task}

theorem Rigged.bare (h : Rigged w) (hrigs : ∀ p, w.rig p = {}) : Bare w where
  listeners := by
    refine List.eq_nil_iff_forall_not_mem.mpr fun l hl => ?_
    obtain ⟨p, hp⟩ := h.listeners l hl
    rw [hrigs] at hp
    cases hp
  timers t ht := by
    cases hp : t.job.isPending with
    | false => rfl
    | true =>
        obtain ⟨p, hrig⟩ := h.timers t ht hp
        rw [hrigs] at hrig
        cases hrig

theorem mem_tasks : t ∈ w.tasks ↔
    t ∈ w.ready ∨ t ∈ w.asleep.map Prod.snd ∨ t ∈ w.paused ++ w.queue := by
  simp only [tasks, active, List.mem_append]
  tauto

/-- What is left after a part was taken down is not of that part. -/
private theorem Rigged.not_mem_release (h : Rigged w) {p : Part}
    (ht : t ∈ (w.release p).tasks) (hp : t.job.isPending = true) : t.id ∉ (w.rig p).timers := by
  rw [mem_tasks, release_eq] at ht
  rcases ht with ht | ht | ht
  · simpa using (List.mem_filter.mp ht).2
  · obtain ⟨u, hu, rfl⟩ := List.mem_map.mp ht
    simpa using (List.mem_filter.mp hu).2
  · have := h.restless t ht
    simp [this] at hp

theorem Rigged.release (h : Rigged w) (p : Part) : Rigged (w.release p) where
  listeners l hl := by
    rw [release_eq] at hl
    obtain ⟨hl, hkept⟩ := List.mem_filter.mp hl
    obtain ⟨q, hq⟩ := h.listeners l hl
    refine ⟨q, ?_⟩
    rw [rig_release]
    split
    · rename_i hpq
      subst hpq
      simp_all
    · exact hq
  timers t ht hp := by
    obtain ⟨q, hq⟩ := h.timers t ((tasks_release w p).subset ht) hp
    refine ⟨q, ?_⟩
    rw [rig_release]
    split
    · rename_i hpq
      subst hpq
      exact absurd hq (h.not_mem_release ht hp)
    · exact hq
  restless t ht := by
    rw [release_eq] at ht
    exact h.restless t ht

private theorem rig_subset_bind (p q : Part) (rs : List Reaction) (setting : Setting) :
    (∀ i ∈ (w.rig q).listeners, i ∈ ((w.bind s p rs setting).rig q).listeners) ∧
      ∀ i ∈ (w.rig q).timers, i ∈ ((w.bind s p rs setting).rig q).timers := by
  rw [rig_bind]
  split
  · rename_i hpq
    subst hpq
    exact ⟨fun _ hi => List.mem_append_left _ hi, fun _ hi => List.mem_append_left _ hi⟩
  · exact ⟨fun _ hi => hi, fun _ hi => hi⟩

theorem id_of_listenersOf {setting : Setting} {rs : List Reaction} {f : Nat → Listener}
    (hf : f ∈ listenersOf s setting rs) (n : Nat) : (f n).id = n := by
  obtain ⟨r, -, hr⟩ := List.mem_filterMap.mp hf
  obtain ⟨name, -, rfl⟩ := Option.map_eq_some_iff.mp hr
  rfl

theorem Rigged.bind (h : Rigged w) (p : Part) (rs : List Reaction) (setting : Setting) :
    Rigged (w.bind s p rs setting) where
  listeners l hl := by
    rw [bind_eq] at hl
    rcases List.mem_append.mp hl with hold | hnew
    · obtain ⟨q, hq⟩ := h.listeners l hold
      exact ⟨q, (rig_subset_bind p q rs setting).1 _ hq⟩
    · obtain ⟨⟨f, i⟩, hf, rfl⟩ := List.mem_map.mp hnew
      refine ⟨p, ?_⟩
      have hi := List.mem_zipIdx hf
      rw [rig_bind, if_pos rfl, id_of_listenersOf (List.fst_mem_of_mem_zipIdx hf)]
      refine List.mem_append_right _ (List.mem_range'_1.mpr ?_)
      omega
  timers t ht hp := by
    rcases List.mem_append.mp ((tasks_bind s w p rs setting).subset ht) with hnew | hold
    · refine ⟨p, ?_⟩
      rw [rig_bind, if_pos rfl]
      refine List.mem_append_right _ ?_
      rw [← timerTasks_ids setting]
      exact List.mem_map_of_mem hnew
    · obtain ⟨q, hq⟩ := h.timers t hold hp
      exact ⟨q, (rig_subset_bind p q rs setting).2 _ hq⟩
  restless t ht := by
    rw [bind_eq] at ht
    exact h.restless t ht

theorem Rigged.start (h : Rigged w) {job : Job} (hjob : job.isPending = false)
    (waits : List Wait) : Rigged (w.start job waits) where
  listeners := h.listeners
  timers t ht hp := by
    rcases List.mem_cons.mp ((tasks_start w job waits).subset ht) with rfl | hold
    · simp [hjob] at hp
    · exact h.timers t hold hp
  restless := h.restless

theorem Rigged.destroy (h : Rigged w) : Rigged w.destroy := by
  unfold World.destroy
  split
  · exact h
  · have h' : Rigged { w with destroyed := true } := ⟨h.listeners, h.timers, h.restless⟩
    have h'' := (h'.release .tour).release .stop
    exact ⟨h''.listeners, h''.timers, h''.restless⟩

theorem Rigged.handOver (h : Rigged w) : Rigged w.handOver where
  listeners l hl := by
    obtain ⟨p, hp⟩ := h.listeners l (by unfold World.handOver at hl; split at hl <;> exact hl)
    refine ⟨p, ?_⟩
    unfold World.handOver
    split <;> exact hp
  timers t ht hp := by
    obtain ⟨p, hrig⟩ := h.timers t ((tasks_handOver w).subset ht) hp
    refine ⟨p, ?_⟩
    unfold World.handOver
    split <;> exact hrig
  restless t ht := by
    refine h.restless t ?_
    unfold World.handOver at ht
    split at ht
    · exact ht
    · rename_i u us hq
      rcases List.mem_append.mp ht with hpaused | hqueue
      · exact List.mem_append_left _ hpaused
      · rw [hq]
        exact List.mem_append_right _ (List.mem_cons_of_mem _ hqueue)

/-- Every effect of a step leaves all that was put up to be taken down. -/
theorem Rigged.effect {id : Nat} {job : Job} {waits : List Wait} (h : Rigged w)
    (he : Job.Effect s w id job waits w') : Rigged w' := by
  cases he with
  | calm hcalm =>
      obtain ⟨_, _, _, _, _, rfl⟩ := hcalm.eq
      exact ⟨h.listeners, h.timers, h.restless⟩
  | destroy => exact h.destroy
  | spawn => exact h.start rfl _
  | ring => exact h.start rfl _
  | take => exact ⟨h.listeners, h.timers, h.restless⟩
  | leave =>
      obtain ⟨_, _, heq⟩ := (w.release .stop).tidy_eq (s := s) (stopAt s _)
      rw [heq]
      exact ⟨(h.release .stop).listeners, (h.release .stop).timers, (h.release .stop).restless⟩
  | arrive =>
      refine Rigged.bind ?_ _ _ _
      exact ⟨h.listeners, h.timers, h.restless⟩
  | «open» => exact h.bind _ _ _
  | abort => exact ⟨h.listeners, h.timers, h.restless⟩
  | handOver => exact h.handOver

theorem Rigged.ask (h : Rigged w) (d : Demand) : Rigged (w.ask d) := by
  cases d with
  | «begin» render => exact h.start rfl _
  | move m => exact h.start rfl _
  | dispatch event => exact h.start rfl _
  | sleep ms => exact h.start rfl _
  | subscribe label topic responses =>
      simp only [World.ask]
      split
      · exact ⟨h.listeners, h.timers, h.restless⟩
      · exact h
  | unsubscribe label => exact ⟨h.listeners, h.timers, h.restless⟩
  | destroy => exact h.destroy

/-- Who pauses or queues after a turn did so before, or was made to by the turn. -/
private theorem restless_place {id : Nat} {turn : Turn} {u : Task}
    (hu : u ∈ (w.place id turn).paused ++ (w.place id turn).queue) : u ∈ w.paused ++ w.queue ∨
      turn.task? id = some u ∧ ∀ ms, turn ≠ .sleep ms u.job u.waits := by
  cases turn with
  | pause job waits =>
      simp only [place, List.append_assoc, List.mem_append, List.mem_singleton] at hu
      rcases hu with hu | rfl | hu
      · exact .inl (List.mem_append_left _ hu)
      · exact .inr ⟨rfl, by simp⟩
      · exact .inl (List.mem_append_right _ hu)
  | queue job waits =>
      simp only [place, List.mem_append, List.mem_singleton] at hu
      rcases hu with hu | hu | rfl
      · exact .inl (List.mem_append_left _ hu)
      · exact .inl (List.mem_append_right _ hu)
      · exact .inr ⟨rfl, by simp⟩
  | sleep ms job waits => cases ms <;> exact .inl hu
  | _ => exact .inl hu

theorem host_place (w : World) (id : Nat) (turn : Turn) :
    (w.place id turn).host = w.host ∧ (w.place id turn).destroyed = w.destroyed ∧
      (w.place id turn).position = w.position ∧ (w.place id turn).error = w.error ∧
      ∀ p, (w.place id turn).rig p = w.rig p := by
  unfold place
  split <;> exact ⟨rfl, rfl, rfl, rfl, fun _ => rfl⟩

/-- A step leaves all that was put up to be taken down, if the task in hand could be. -/
theorem Rigged.step (h : Rigged w)
    (ht : t.job.isPending = true → ∃ p, t.id ∈ (w.rig p).timers) :
    Rigged ((t.job.step s w t.id t.waits).1.place t.id (t.job.step s w t.id t.waits).2) := by
  have h' := h.effect (Job.step_effect s w t.id t.waits t.job)
  obtain ⟨hhost, -, -, -, hrig⟩ :=
    host_place (t.job.step s w t.id t.waits).1 t.id (t.job.step s w t.id t.waits).2
  refine ⟨?_, ?_, ?_⟩
  · intro l hl
    rw [hhost] at hl
    obtain ⟨p, hp⟩ := h'.listeners l hl
    exact ⟨p, by rwa [hrig]⟩
  · intro u hu hp
    rcases List.mem_append.mp ((tasks_place _ _ _).subset hu) with hhand | hold
    · have hu : (t.job.step s w t.id t.waits).2.task? t.id = some u := by simpa using hhand
      obtain ⟨hpending, hworld, -⟩ := Job.step_pending hu hp
      obtain ⟨p, hi⟩ := ht hpending
      refine ⟨p, ?_⟩
      rwa [hrig, hworld, Turn.id_of_task? hu]
    · obtain ⟨p, hi⟩ := h'.timers u hold hp
      exact ⟨p, by rwa [hrig]⟩
  · intro u hu
    rcases restless_place hu with hold | ⟨hturn, hawake⟩
    · exact h'.restless u hold
    · by_contra hp
      obtain ⟨-, -, ms, hsleep⟩ := Job.step_pending hturn (by simpa using hp)
      exact hawake ms hsleep

theorem Rigged.shuffle (h : Rigged w) (hw : w.Shuffled w') : Rigged w' := by
  have htasks := hw.tasks
  have hpaused := hw.paused
  have hqueue := hw.queue
  obtain ⟨_, _, _, _, rfl⟩ := hw.eq
  refine ⟨h.listeners, fun t ht => h.timers t (htasks.subset ht), ?_⟩
  intro t ht
  refine h.restless t ?_
  rcases List.mem_append.mp ht with ht | ht
  · exact List.mem_append_left _ (hpaused t ht)
  · exact List.mem_append_right _ (hqueue ▸ ht)

/-- Every choice leaves all that was put up to be taken down. -/
theorem Rigged.choose (h : Rigged w) (c : Choice) : Rigged (w.choose s c) := by
  refine (choose_induction (s := s) (P := fun w hand => Rigged w ∧ ∀ t ∈ hand,
    t.job.isPending = true → ∃ p, t.id ∈ (w.rig p).timers) ?_ ?_ ?_ ?_ c ⟨h, by simp⟩).1
  · rintro w t others ⟨h, -⟩ hperm
    have hsub := (tasks_take hperm).symm.subset
    refine ⟨⟨h.listeners, fun u hu => h.timers u (hsub (List.mem_cons_of_mem _ hu)), h.restless⟩, ?_⟩
    intro u hu
    rw [List.mem_singleton.mp hu]
    exact h.timers t (hsub List.mem_cons_self)
  · rintro w t ⟨h, ht⟩
    exact ⟨h.step (ht t List.mem_cons_self), by simp⟩
  · rintro w w' ⟨h, -⟩ hw
    exact ⟨h.shuffle hw, by simp⟩
  · rintro w d ⟨h, -⟩
    exact ⟨h.ask d, by simp⟩

theorem Reachable.rigged (h : Reachable s w) : Rigged w := by
  refine h.induction ⟨?_, ?_, ?_⟩ fun _ c hw => hw.choose c
  · simp
  · simp [tasks, active]
  · simp

end World

/-! ## Landings -/

/-- Whether some rules would put up a listener or a timer. -/
def Stage.answers (s : Stage) (rs : List Reaction) : Bool :=
  rs.any fun r => r.native?.isSome || (s.concurrent && r.isTimer)

/-- A task that is about to change where a player stands, or to put something up. -/
inductive Task.Lands (s : Stage) (w : World) : Task → Prop where
  /-- It reaches a stop at another place. -/
  | elsewhere {id j : Nat} {o : Outcome} {es : List ActionError} {waits : List Wait} :
      (j : Int) ≠ w.position → Task.Lands s w ⟨id, .ended o, .arrived j es :: waits⟩
  /-- It reaches a stop with another failure. -/
  | otherwise {id j : Nat} {o : Outcome} {es : List ActionError} {waits : List Wait} :
      es.getLast? ≠ w.error → Task.Lands s w ⟨id, .ended o, .arrived j es :: waits⟩
  /-- It reaches a stop with rules that hold there. -/
  | answering {id j : Nat} {o : Outcome} {es : List ActionError} {waits : List Wait} :
      s.answers (World.stopAt s j).reactions = true →
      Task.Lands s w ⟨id, .ended o, .arrived j es :: waits⟩
  /-- It gives up a stop because of a failure that is new. -/
  | abort {id j : Nat} {e : ActionError} {waits : List Wait} :
      w.error ≠ some e → Task.Lands s w ⟨id, .ended (.failed e), .entered j :: waits⟩
  /-- It begins to play a document with rules that hold throughout. -/
  | «open» {id : Nat} {o : Outcome} {waits : List Wait} :
      s.answers s.document.reactions = true → Task.Lands s w ⟨id, .ended o, .opened :: waits⟩

namespace World

variable {s : Stage} {w w' : World} {t : Task}

theorem not_answers_iff (setting : Setting) (rs : List Reaction) :
    s.answers rs = false ↔ listenersOf s setting rs = [] ∧ timersOf s rs = [] := by
  simp only [Stage.answers, listenersOf, timersOf, List.any_eq_false, List.filterMap_eq_nil_iff,
    Reaction.listener?, Option.map_eq_none_iff]
  cases s.concurrent
  · simp
  · simp [List.filter_eq_nil_iff, forall_and]

/-- Rules that put up nothing leave a world as it is. -/
theorem bind_of_not_answers {rs : List Reaction} (h : s.answers rs = false) (p : Part)
    (setting : Setting) : w.bind s p rs setting = w := by
  obtain ⟨hl, ht⟩ := (not_answers_iff setting rs).mp h
  rw [bind_eq]
  cases p <;> simp [hl, ht, grownRig, timerTasks, rig]

/-- Rules that put up something are seen. -/
theorem not_bare_bind {rs : List Reaction} (h : s.answers rs = true) (p : Part)
    (setting : Setting) : ¬ Bare (w.bind s p rs setting) := by
  intro hbare
  have hnone : listenersOf s setting rs = [] ∧ timersOf s rs = [] := by
    constructor
    · have := hbare.listeners
      rw [bind_eq] at this
      simpa using (List.append_eq_nil_iff.mp this).2
    · cases htimers : timersOf s rs with
      | nil => rfl
      | cons r rest =>
          have hmem : (⟨w.nextTask, .await setting r.delay r.actions, []⟩ : Task) ∈
              (w.bind s p rs setting).tasks :=
            (tasks_bind s w p rs setting).symm.subset (by simp [htimers, timerTasks])
          cases hbare.timers _ hmem
  rw [(not_answers_iff setting rs).mpr hnone] at h
  cases h

/-! ## After the end -/

/-- Where a player stands, and whether it has ended. -/
structure Same (w w' : World) : Prop where
  position : w'.position = w.position
  error : w'.error = w.error
  destroyed : w'.destroyed = w.destroyed

theorem Same.refl (w : World) : w.Same w :=
  ⟨rfl, rfl, rfl⟩

theorem Same.trans {w'' : World} (h : w.Same w') (h' : w'.Same w'') : w.Same w'' :=
  ⟨h'.position.trans h.position, h'.error.trans h.error, h'.destroyed.trans h.destroyed⟩

private theorem lands_of_same (h : t.Lands s w) (hw : w.Same w') : t.Lands s w' := by
  obtain ⟨hposition, herror, -⟩ := hw
  cases h with
  | elsewhere hne => exact .elsewhere (hposition ▸ hne)
  | otherwise hne => exact .otherwise (herror ▸ hne)
  | answering ha => exact .answering ha
  | abort hne => exact .abort (herror ▸ hne)
  | «open» ha => exact .open ha

private theorem Bare.start (h : Bare w) {job : Job} (hjob : job.isPending = false)
    (waits : List Wait) : Bare (w.start job waits) where
  listeners := h.listeners
  timers t ht := by
    rcases List.mem_cons.mp ((tasks_start w job waits).subset ht) with rfl | hold
    · exact hjob
    · exact h.timers t hold

theorem destroy_eq_self (hd : w.destroyed = true) : w.destroy = w := by
  simp [destroy, hd]

/-- An effect on an ended player puts up nothing, and does not change where the player stands, if
the step is no landing. -/
private theorem Bare.effect (h : Bare w) (hd : w.destroyed = true) (ht : ¬ t.Lands s w)
    (he : Job.Effect s w t.id t.job t.waits w') : Bare w' ∧ w.Same w' := by
  obtain ⟨id, job, waits⟩ := t
  cases he with
  | calm hcalm =>
      obtain ⟨_, _, _, _, _, rfl⟩ := hcalm.eq
      exact ⟨⟨h.listeners, h.timers⟩, rfl, rfl, rfl⟩
  | destroy =>
      rw [destroy_eq_self hd]
      exact ⟨h, .refl w⟩
  | spawn => exact ⟨h.start rfl _, rfl, rfl, rfl⟩
  | ring => exact ⟨h.start rfl _, rfl, rfl, rfl⟩
  | take => exact ⟨⟨h.listeners, h.timers⟩, rfl, rfl, rfl⟩
  | leave hlive => simp [hd] at hlive
  | @arrive o j es waits =>
      have hplace : (j : Int) = w.position := by
        by_contra hne
        exact ht (.elsewhere hne)
      have herror : es.getLast? = w.error := by
        by_contra hne
        exact ht (.otherwise hne)
      have hsame : ({ w with position := j, error := es.getLast? } : World) = w := by
        rw [hplace, herror]
      rw [hsame, bind_of_not_answers (Bool.eq_false_iff.mpr fun h => ht (.answering h))]
      exact ⟨h, .refl w⟩
  | «open» =>
      rw [bind_of_not_answers (Bool.eq_false_iff.mpr fun h => ht (.open h))]
      exact ⟨h, .refl w⟩
  | @abort e j waits =>
      have herror : w.error = some e := by
        by_contra hne
        exact ht (.abort hne)
      exact ⟨⟨h.listeners, h.timers⟩, rfl, herror.symm, rfl⟩
  | handOver =>
      refine ⟨⟨?_, fun t ht => h.timers t ((tasks_handOver w).subset ht)⟩, ?_⟩
      · unfold handOver
        split <;> exact h.listeners
      · unfold handOver
        split <;> exact ⟨rfl, rfl, rfl⟩

/-- A landing changes where the player stands, or puts something up. -/
private theorem not_bare_of_lands (ht : t.Lands s w) :
    ¬ (Bare (t.job.step s w t.id t.waits).1 ∧
      (t.job.step s w t.id t.waits).1.position = w.position ∧
      (t.job.step s w t.id t.waits).1.error = w.error) := by
  rintro ⟨hbare, hposition, herror⟩
  cases ht with
  | elsewhere hne =>
      simp only [Job.step, Wait.resume, arrive, bind_eq] at hposition
      exact hne hposition
  | otherwise hne =>
      simp only [Job.step, Wait.resume, arrive, bind_eq] at herror
      exact hne herror
  | answering h =>
      simp only [Job.step, Wait.resume, arrive] at hbare
      exact not_bare_bind h .stop _ hbare
  | abort hne => exact hne herror.symm
  | «open» h =>
      simp only [Job.step, Wait.resume, opened] at hbare
      split at hbare <;> simp only at hbare <;> exact not_bare_bind h .tour _ hbare

private theorem same_place (w : World) (id : Nat) (turn : Turn) : w.Same (w.place id turn) := by
  obtain ⟨-, hd, hp, he, -⟩ := host_place w id turn
  exact ⟨hp, he, hd⟩

/-- A choice leaves an ended player at rest if no landing is made in it. -/
theorem Bare.choose (h : Bare w) (hd : w.destroyed = true) {c : Choice}
    (hc : ∀ t, w.mover? c = some t → ¬ t.Lands s w) :
    Bare (w.choose s c) ∧ w.Same (w.choose s c) := by
  obtain ⟨t, others, hmover, hperm, heq⟩ | ⟨-, hw⟩ | ⟨d, -, heq⟩ := choose_cases s w c
  · have hsub := (tasks_take hperm).symm.subset
    have htake : Bare { w with ready := others } :=
      ⟨h.listeners, fun u hu => h.timers u (hsub (List.mem_cons_of_mem _ hu))⟩
    have hland : ¬ t.Lands s { w with ready := others } :=
      fun hlands => hc t hmover (lands_of_same hlands ⟨rfl, rfl, rfl⟩)
    obtain ⟨hbare, hsame⟩ := htake.effect (w := { w with ready := others }) hd hland
      (Job.step_effect s _ t.id t.waits t.job)
    rw [heq]
    refine ⟨⟨?_, ?_⟩, Same.trans ⟨hsame.1, hsame.2, hsame.3⟩ (same_place _ _ _)⟩
    · rw [takeTurn_eq, (host_place _ _ _).1]
      exact hbare.listeners
    · intro u hu
      rcases List.mem_append.mp ((tasks_place _ _ _).subset hu) with hhand | hold
      · by_contra hp
        obtain ⟨hpending, -⟩ := Job.step_pending (Option.mem_toList.mp hhand) (by simpa using hp)
        simp [h.timers t (hsub List.mem_cons_self)] at hpending
      · exact hbare.timers u hold
  · have htasks := hw.tasks
    obtain ⟨_, _, _, _, hw'⟩ := hw.eq
    rw [hw'] at htasks ⊢
    exact ⟨⟨h.listeners, fun t ht => h.timers t (htasks.subset ht)⟩, rfl, rfl, rfl⟩
  · rw [heq]
    cases d with
    | «begin» render => exact ⟨h.start rfl _, rfl, rfl, rfl⟩
    | move m => exact ⟨h.start rfl _, rfl, rfl, rfl⟩
    | dispatch event => exact ⟨h.start rfl _, rfl, rfl, rfl⟩
    | sleep ms => exact ⟨h.start rfl _, rfl, rfl, rfl⟩
    | subscribe label topic responses =>
        simp only [ask]
        split <;> exact ⟨⟨h.listeners, h.timers⟩, rfl, rfl, rfl⟩
    | unsubscribe label => exact ⟨⟨h.listeners, h.timers⟩, rfl, rfl, rfl⟩
    | destroy =>
        rw [ask, destroy_eq_self hd]
        exact ⟨h, .refl w⟩

/-- A landing in a choice does not leave a player at rest. -/
theorem not_bare_choose {c : Choice} (hmover : w.mover? c = some t) (ht : t.Lands s w) :
    ¬ (Bare (w.choose s c) ∧ (w.choose s c).position = w.position ∧
      (w.choose s c).error = w.error) := by
  rintro ⟨hbare, hposition, herror⟩
  obtain ⟨u, others, hu, -, heq⟩ | ⟨hnone, -⟩ | ⟨d, rfl, -⟩ := choose_cases s w c
  · cases hmover.symm.trans hu
    rw [heq, takeTurn_eq] at hbare hposition herror
    have hsame := same_place (t.job.step s { w with ready := others } t.id t.waits).1 t.id
      (t.job.step s { w with ready := others } t.id t.waits).2
    have hland : t.Lands s { w with ready := others } := lands_of_same ht ⟨rfl, rfl, rfl⟩
    refine not_bare_of_lands hland
      ⟨⟨?_, ?_⟩, hsame.position.symm.trans hposition, hsame.error.symm.trans herror⟩
    · rw [← (host_place _ t.id _).1]
      exact hbare.listeners
    · exact fun v hv => hbare.timers v
        ((tasks_place _ _ _).symm.subset (List.mem_append_right _ hv))
  · simp [hnone] at hmover
  · cases hmover

/-! ## When an end is final -/

private theorem rig_of_destroy (hlive : w.destroyed = false) (p : Part) : w.destroy.rig p = {} := by
  simp [rig_destroy, hlive]

/-- The choice in which a player ends takes down both parts. -/
theorem rig_of_end {c : Choice} (hlive : w.destroyed = false)
    (hend : (w.choose s c).destroyed = true) (p : Part) : (w.choose s c).rig p = {} := by
  obtain ⟨t, others, -, -, heq⟩ | ⟨-, hw⟩ | ⟨d, -, heq⟩ := choose_cases s w c
  · rw [heq, takeTurn_eq] at hend ⊢
    obtain ⟨-, hd, -, -, hrig⟩ := host_place (t.job.step s { w with ready := others } t.id t.waits).1
      t.id (t.job.step s { w with ready := others } t.id t.waits).2
    rw [hrig]
    rcases destroyed_effect (Job.step_effect s { w with ready := others } t.id t.waits t.job)
      with hkept | hdestroy
    · have hdead := hkept.symm.trans (hd.symm.trans hend)
      simp [hlive] at hdead
    · rw [hdestroy]
      exact rig_of_destroy (w := { w with ready := others }) hlive p
  · obtain ⟨_, _, _, _, hw⟩ := hw.eq
    rw [hw] at hend
    simp [hlive] at hend
  · rw [heq] at hend ⊢
    cases d with
    | destroy => exact rig_of_destroy hlive p
    | subscribe label topic responses =>
        simp only [ask] at hend
        split at hend <;> simp [hlive] at hend
    | _ => simp [ask, start, hlive] at hend

/-- At every point of a schedule nobody listens, no timer is pending, and the player stands where it
stood at first. -/
def StaysFinal (s : Stage) (w : World) (cs : List Choice) : Prop :=
  ∀ n, let w' := w.follow s (cs.take n)
    Bare w' ∧ w'.position = w.position ∧ w'.error = w.error

/-- At no point of a schedule a landing is made. -/
def NobodyLands (s : Stage) (w : World) (cs : List Choice) : Prop :=
  ∀ n c t, cs[n]? = some c → (w.follow s (cs.take n)).mover? c = some t →
    ¬ t.Lands s (w.follow s (cs.take n))

theorem follow_take_succ {cs : List Choice} {n : Nat} {c : Choice} (h : cs[n]? = some c) :
    w.follow s (cs.take (n + 1)) = (w.follow s (cs.take n)).choose s c := by
  rw [List.take_add_one, h, follow_append]
  rfl

/-- The end of a player is final along a schedule just when nobody lands. -/
theorem final_iff_nobody_lands {c : Choice} (hw : Reachable s w) (hlive : w.destroyed = false)
    (hend : (w.choose s c).destroyed = true) (cs : List Choice) :
    StaysFinal s (w.choose s c) cs ↔ NobodyLands s (w.choose s c) cs := by
  have hbare : Bare (w.choose s c) := (hw.choose c).rigged.bare (rig_of_end hlive hend)
  revert hend hbare
  generalize w.choose s c = w₁
  intro hend hbare
  constructor
  · intro hfinal n c t hc ht hlands
    refine not_bare_choose ht hlands ?_
    obtain ⟨-, hposition, herror⟩ := hfinal n
    obtain ⟨hbare', hposition', herror'⟩ := hfinal (n + 1)
    rw [follow_take_succ hc] at hbare' hposition' herror'
    exact ⟨hbare', hposition'.trans hposition.symm, herror'.trans herror.symm⟩
  · intro hnone
    have hrest : ∀ n, Bare (w₁.follow s (cs.take n)) ∧ w₁.Same (w₁.follow s (cs.take n)) := by
      intro n
      induction n with
      | zero => exact ⟨hbare, .refl w₁⟩
      | succ n ih =>
          obtain ⟨hbare', hsame⟩ := ih
          cases hc : cs[n]? with
          | none =>
              rw [List.take_add_one, hc]
              simpa using ⟨hbare', hsame⟩
          | some c =>
              rw [follow_take_succ hc]
              obtain ⟨hnext, hkept⟩ :=
                hbare'.choose (hsame.destroyed.trans hend) fun t ht => hnone n c t hc ht
              exact ⟨hnext, hsame.trans hkept⟩
    exact fun n => ⟨(hrest n).1, (hrest n).2.position, (hrest n).2.error⟩

end World

/-- A tour of one stop, which answers clicks, and whose only action ends the player. -/
def Stage.farewell : Stage where
  document := ⟨[⟨"a", none, [⟨"x", none⟩], [⟨.click, none, none, none, none, []⟩], none, []⟩], [],
    none, []⟩
  handlers := ⟨[("x", fun _ => .perform .destroy fun _ => .succeed)]⟩

namespace World

/-- The schedule of a move to the first stop of `Stage.farewell` up to the step in which the player
ends. -/
def untilFarewell : List Choice :=
  .ask (.move (.index 0)) :: List.replicate 8 (.turn 0) ++ [.resume 0, .turn 0, .resume 0] ++
    List.replicate 2 (.turn 0)

/-- The end of a player is not always final: a move whose action ends the player goes on to its stop,
which is the current one then, and listens. -/
theorem not_always_final :
    ¬ ∀ (s : Stage) (w : World) (c : Choice) (cs : List Choice), Reachable s w →
      w.destroyed = false → (w.choose s c).destroyed = true → StaysFinal s (w.choose s c) cs := by
  intro h
  obtain ⟨-, hposition, -⟩ := h .farewell (follow .farewell {} untilFarewell) (.turn 0)
    (List.replicate 6 (.turn 0)) ⟨untilFarewell, rfl⟩ (by decide) (by decide) 6
  exact absurd hposition (by decide)

/-- On `Stage.farewell` somebody lands after the end. -/
theorem farewell_somebody_lands :
    ¬ NobodyLands .farewell ((follow .farewell {} untilFarewell).choose .farewell (.turn 0))
      (List.replicate 6 (.turn 0)) := by
  rw [← final_iff_nobody_lands ⟨untilFarewell, rfl⟩ (by decide) (by decide)]
  intro hfinal
  exact absurd (hfinal 6).2.1 (by decide)

end World

/-! ## Players that cannot come back -/

/-- Whether a wait is one for the player to begin or to reach a stop. -/
def Wait.leadsOn : Wait → Bool
  | .opened | .cleared _ | .entered _ | .arrived _ _ => true
  | _ => false

/-- Whether a job makes the player begin or reach a stop. -/
def Job.leadsOn : Job → Bool
  | .begin _ | .settle _ _ => true
  | _ => false

/-- Whether a task makes the player begin or reach a stop, if the player goes on. -/
structure Task.IsIdle (t : Task) : Prop where
  job : t.job.leadsOn = false
  waits : ∀ x ∈ t.waits, x.leadsOn = false

namespace Task.IsIdle

theorem leadsOn_of_isInner {job : Job} (h : job.isInner = true) : job.leadsOn = false := by
  cases job <;> simp_all [Job.isInner, Job.leadsOn]

theorem leadsOn_of_isEnded {job : Job} (h : job.isEnded = true) : job.leadsOn = false := by
  cases job <;> simp_all [Job.isEnded, Job.leadsOn]

/-- When the player has ended, an idle task stays idle. -/
theorem step {s : Stage} {w : World} {t t' : Task} (hd : w.destroyed = true) (h : t.IsIdle)
    (ht : (t.job.step s w t.id t.waits).2.task? t.id = some t') : t'.IsIdle := by
  have hshift := Job.step_shift s w t.id t.waits t.job
  obtain ⟨id, job, waits⟩ := t
  obtain ⟨hjob, hwaits⟩ := h
  simp only at hshift ht hjob hwaits
  generalize hturn : (job.step s w id waits).2 = turn at hshift ht
  cases hshift with
  | inner _ _ hleft hjob' htop =>
      cases (Turn.task?_of_left? hleft id).symm.trans ht
      refine ⟨?_, ?_⟩
      · rcases hjob' with h | h | ⟨m, rfl⟩
        · exact leadsOn_of_isInner h
        · exact leadsOn_of_isEnded h
        · rfl
      · intro x hx
        rcases List.mem_append.mp hx with hx | hx
        · have := htop x hx
          cases x <;> simp_all [Wait.isInner, Wait.leadsOn]
        · exact hwaits x hx
  | resume _ hjob' =>
      cases ht
      refine ⟨?_, fun x hx => hwaits x (List.mem_cons_of_mem _ hx)⟩
      rcases hjob' with h | h
      · exact leadsOn_of_isInner h
      · exact leadsOn_of_isEnded h
  | leave hlive => simp [hd] at hlive
  | travel =>
      cases ht
      exact ⟨rfl, by simpa [Wait.leadsOn] using hwaits⟩
  | opened => simp [Wait.leadsOn] at hwaits
  | cleared => simp [Wait.leadsOn] at hwaits
  | entered => simp [Wait.leadsOn] at hwaits
  | broken => simp [Wait.leadsOn] at hwaits
  | arrive => simp [Wait.leadsOn] at hwaits
  | concluded =>
      cases ht
      exact ⟨rfl, fun x hx => hwaits x (List.mem_cons_of_mem _ hx)⟩
  | handOver =>
      cases ht
      exact ⟨rfl, fun x hx => hwaits x (List.mem_cons_of_mem _ hx)⟩
  | «begin» => cases hjob
  | settle => cases hjob
  | enter => cases hjob
  | finish => cases ht
  | _ =>
      cases ht
      exact ⟨rfl, hwaits⟩

end Task.IsIdle

namespace World

/-- An ended player whose tasks are all idle. -/
structure Spent (w : World) : Prop where
  destroyed : w.destroyed = true
  idle : ∀ t ∈ w.tasks, t.IsIdle

variable {s : Stage} {w w' : World} {t : Task}

theorem Spent.not_lands (h : Spent w) (ht : t ∈ w.tasks) : ¬ t.Lands s w := by
  intro hlands
  have hwaits := (h.idle t ht).waits
  cases hlands <;> simp [Wait.leadsOn] at hwaits

private theorem Spent.start (h : Spent w) {job : Job} {waits : List Wait} (hjob : job.leadsOn = false)
    (hwaits : ∀ x ∈ waits, x.leadsOn = false) : Spent (w.start job waits) where
  destroyed := h.destroyed
  idle t ht := by
    rcases List.mem_cons.mp ((tasks_start w job waits).subset ht) with rfl | hold
    · exact ⟨hjob, hwaits⟩
    · exact h.idle t hold

private theorem Spent.bind (h : Spent w) (p : Part) (rs : List Reaction) (setting : Setting) :
    Spent (w.bind s p rs setting) where
  destroyed := by
    rw [bind_eq]
    exact h.destroyed
  idle t ht := by
    rcases List.mem_append.mp ((tasks_bind s w p rs setting).subset ht) with hnew | hold
    · obtain ⟨r, -, rfl⟩ := List.mem_map.mp hnew
      exact ⟨rfl, by simp⟩
    · exact h.idle t hold

private theorem Spent.effect {id : Nat} {job : Job} {waits : List Wait} (h : Spent w)
    (he : Job.Effect s w id job waits w') : Spent w' := by
  cases he with
  | calm hcalm =>
      obtain ⟨_, _, _, _, _, rfl⟩ := hcalm.eq
      exact ⟨h.destroyed, h.idle⟩
  | destroy =>
      rw [destroy_eq_self h.destroyed]
      exact h
  | spawn => exact h.start rfl (by simp [Wait.leadsOn])
  | ring => exact h.start rfl (by simp [Wait.leadsOn])
  | take => exact ⟨h.destroyed, h.idle⟩
  | leave hlive => simp [h.destroyed] at hlive
  | arrive =>
      refine Spent.bind ?_ _ _ _
      exact ⟨h.destroyed, h.idle⟩
  | «open» => exact h.bind _ _ _
  | abort => exact ⟨h.destroyed, h.idle⟩
  | handOver =>
      refine ⟨?_, fun t ht => h.idle t ((tasks_handOver w).subset ht)⟩
      unfold handOver
      split <;> exact h.destroyed

/-- Nothing makes an ended player with idle tasks only reach a stop, unless it is asked to begin
again. -/
theorem Spent.choose (h : Spent w) {c : Choice} (hc : ∀ render, c ≠ .ask (.begin render)) :
    Spent (w.choose s c) := by
  obtain ⟨t, others, -, hperm, heq⟩ | ⟨-, hw⟩ | ⟨d, rfl, heq⟩ := choose_cases s w c
  · have hsub := (tasks_take hperm).symm.subset
    have htake : Spent { w with ready := others } :=
      ⟨h.destroyed, fun u hu => h.idle u (hsub (List.mem_cons_of_mem _ hu))⟩
    have hstep := htake.effect (Job.step_effect s _ t.id t.waits t.job)
    rw [heq, takeTurn_eq]
    refine ⟨?_, ?_⟩
    · rw [(host_place _ _ _).2.1]
      exact hstep.destroyed
    · intro u hu
      rcases List.mem_append.mp ((tasks_place _ _ _).subset hu) with hhand | hold
      · exact (h.idle t (hsub List.mem_cons_self)).step htake.destroyed (Option.mem_toList.mp hhand)
      · exact hstep.idle u hold
  · have htasks := hw.tasks
    obtain ⟨_, _, _, _, hw'⟩ := hw.eq
    rw [hw'] at htasks ⊢
    exact ⟨h.destroyed, fun t ht => h.idle t (htasks.subset ht)⟩
  · rw [heq]
    cases d with
    | «begin» render => exact absurd rfl (hc render)
    | move m => exact h.start rfl (by simp)
    | dispatch event => exact h.start rfl (by simp)
    | sleep ms => exact h.start rfl (by simp)
    | subscribe label topic responses =>
        simp only [ask]
        split <;> exact ⟨h.destroyed, h.idle⟩
    | unsubscribe label => exact ⟨h.destroyed, h.idle⟩
    | destroy =>
        rw [ask, destroy_eq_self h.destroyed]
        exact h

/-- Nobody lands where the tasks of an ended player are idle and it is not asked to begin again. -/
theorem Spent.nobody_lands (h : Spent w) {cs : List Choice}
    (hcs : ∀ render, .ask (.begin render) ∉ cs) : NobodyLands s w cs := by
  intro n c t hc ht
  have hspent : ∀ n, Spent (w.follow s (cs.take n)) := by
    intro n
    induction n with
    | zero => exact h
    | succ n ih =>
        cases hc : cs[n]? with
        | none =>
            rw [List.take_add_one, hc]
            simpa using ih
        | some c =>
            rw [follow_take_succ hc]
            exact ih.choose fun render heq => hcs render (heq ▸ List.mem_of_getElem? hc)
  have hmem : t ∈ (w.follow s (cs.take n)).tasks := by
    cases c with
    | turn i =>
        refine List.mem_append_left _ (List.mem_append_left _ (List.mem_append_left _ ?_))
        exact List.mem_of_getElem? ht
    | _ => cases ht
  exact (hspent n).not_lands hmem

end World

end DiagramTour
