import DiagramTour.Proofs.Playback.Nested

/-!
# What a task does above some waits

While one task is at work other tasks take their turns too, and a player is asked for further things.
A stint is the work of one task on top of some waits, with all that happens in between: it ends when
what is below is to go on.  What is true of every such piece of work, whatever the others do, is proved
here once.

## Architecture

- A `Moment` is a turn that the task took: the world besides, its job, and the waits above the others.
- `World.Stint` relates a world to one in which the stint goes on or has just ended, with the moments
  in between.
- `Job.step_over`: no step touches what is below the work.
- `World.Stint.carry`: what every turn of the task keeps, in whatever world, is kept by the stint.
- `World.Stint.follow` makes a stint of a schedule.
-/

namespace DiagramTour

/-! ## What is below -/

/-- A step of a task puts waits on the stack, or takes the one at the top when its job has ended, or
ends the task. -/
theorem Job.Shift.task?_cases {s : Stage} {w : World} {job : Job} {waits : List Wait} {turn : Turn}
    (h : Job.Shift s w job waits turn) (id : Nat) :
    (∃ job' top, turn.task? id = some ⟨id, job', top ++ waits⟩) ∨
      (job.isEnded = true ∧ ∃ x rest job' top, waits = x :: rest ∧
        turn.task? id = some ⟨id, job', top ++ rest⟩) ∨
      (job.isEnded = true ∧ waits = []) := by
  cases h with
  | inner top _ hleft _ _ => exact .inl ⟨_, top, Turn.task?_of_left? hleft id⟩
  | resume => exact .inr (.inl ⟨rfl, _, _, _, [], rfl, rfl⟩)
  | «begin» => exact .inl ⟨_, [_], rfl⟩
  | opened => exact .inr (.inl ⟨rfl, _, _, _, [], rfl, rfl⟩)
  | travel => exact .inl ⟨_, [_], rfl⟩
  | leave => exact .inl ⟨_, [_], rfl⟩
  | cleared => exact .inr (.inl ⟨rfl, _, _, _, [], rfl, rfl⟩)
  | settle hleft => exact .inl ⟨_, [], Turn.task?_of_left? hleft id⟩
  | enter => exact .inl ⟨_, [_], rfl⟩
  | entered => exact .inr (.inl ⟨rfl, _, _, _, [_], rfl, rfl⟩)
  | broken => exact .inr (.inl ⟨rfl, _, _, _, [], rfl, rfl⟩)
  | arrive => exact .inr (.inl ⟨rfl, _, _, _, [_], rfl, rfl⟩)
  | concluded => exact .inr (.inl ⟨rfl, _, _, _, [], rfl, rfl⟩)
  | handOver => exact .inr (.inl ⟨rfl, _, _, _, [], rfl, rfl⟩)
  | finish => exact .inr (.inr ⟨rfl, rfl⟩)
  | _ => exact .inl ⟨_, [], rfl⟩

/-- A step of work that has not ended leaves what is below it alone. -/
theorem Job.step_over {job : Job} {above : List Wait} (s : Stage) (w : World) (id : Nat)
    (base : List Wait) (hgo : job.isEnded = true → above ≠ []) :
    ∃ job' above', (job.step s w id (above ++ base)).2.task? id = some ⟨id, job', above' ++ base⟩ := by
  rcases (Job.step_shift s w id (above ++ base) job).task?_cases id with
    ⟨job', top, hturn⟩ | ⟨hended, x, rest, job', top, hwaits, hturn⟩ | ⟨hended, hwaits⟩
  · exact ⟨job', top ++ above, by rw [hturn, List.append_assoc]⟩
  · cases above with
    | nil => exact absurd rfl (hgo hended)
    | cons y above =>
        rw [List.cons_append] at hwaits
        obtain ⟨rfl, rfl⟩ := List.cons.inj hwaits
        exact ⟨job', top ++ above, by rw [hturn, List.append_assoc]⟩
  · exact absurd (List.append_eq_nil_iff.mp hwaits).1 (hgo hended)

/-- Work above some waits has ended, or it goes on. -/
theorem Job.ended_or_goes (job : Job) (above : List Wait) :
    (∃ o, job = .ended o ∧ above = []) ∨ (job.isEnded = true → above ≠ []) := by
  by_cases hover : job.isEnded = true ∧ above = []
  · obtain ⟨o, ho⟩ := Job.eq_ended hover.1
    exact .inl ⟨o, ho, hover.2⟩
  · exact .inr fun hended habove => hover ⟨hended, habove⟩

/-! ## Turns of a task -/

/-- A turn that a task took: the world besides, the job it was at, and the waits above some others. -/
structure Moment where
  world : World
  job : Job
  above : List Wait

namespace Moment

/-- What a turn leaves behind, with the waits that are below. -/
def after (s : Stage) (id : Nat) (base : List Wait) (m : Moment) : World :=
  (m.job.step s m.world id (m.above ++ base)).1

/-- What a turn writes down. -/
def writes (s : Stage) (id : Nat) (base : List Wait) (m : Moment) : List Record :=
  (m.after s id base).journal.drop m.world.journal.length

/-- Whether a turn is that of the work itself, and not of anything that it waits for: nothing is above,
or what was above has just ended. -/
def isOwn (m : Moment) : Bool :=
  match m.above with
  | [] => true
  | [_] => m.job.isEnded
  | _ => false

/-- While something is at work above a wait the turns are not those of the work itself. -/
theorem isOwn_concat {w : World} {job : Job} {top : List Wait} {x : Wait}
    (h : job.isEnded = true → top ≠ []) : isOwn ⟨w, job, top ++ [x]⟩ = false := by
  cases top with
  | nil => simpa [isOwn] using h
  | cons y ys => cases ys <;> rfl

end Moment

/-- The number of turns that were those of the work itself. -/
def ownTurns (ms : List Moment) : Nat :=
  ms.countP Moment.isOwn

theorem ownTurns_concat (ms : List Moment) (m : Moment) :
    ownTurns (ms ++ [m]) = ownTurns ms + if m.isOwn then 1 else 0 := by
  simp [ownTurns, List.countP_cons]

namespace World

/-- The turn that a choice gives to the task with a number, if it gives it one. -/
def momentsOf (w : World) (id : Nat) (base : List Wait) : Choice → List Moment
  | .turn i =>
    match w.ready[i]? with
    | some t =>
      if t.id = id then
        [⟨{ w with ready := w.ready.eraseIdx i }, t.job, t.waits.take (t.waits.length - base.length)⟩]
      else []
    | none => []
  | _ => []

/-- Along a schedule that leads from `w` to another world the task with a number is at work above some
waits, and has not ended that work before; its turns are listed. -/
inductive Stint (s : Stage) (id : Nat) (base : List Wait) (w : World) : World → List Moment → Prop where
  | start : Stint s id base w w []
  | go {v : World} {ms : List Moment} (c : Choice) : Stint s id base w v ms →
      (∀ o, ⟨id, .ended o, base⟩ ∉ v.tasks) →
      Stint s id base w (v.choose s c) (ms ++ v.momentsOf id base c)

variable {s : Stage} {w w' : World} {t : Task} {c : Choice} {id : Nat} {base : List Wait}

/-! ## Who is no timer stays -/

/-- What a step puts up is numbered from the next number on. -/
theorem rigs_effect {i : Nat} {job : Job} {waits : List Wait} {p : Part}
    (he : Job.Effect s w id job waits w') (hi : i ∈ (w'.rig p).timers) :
    i ∈ (w.rig p).timers ∨ w.nextTask ≤ i := by
  have hbind : ∀ (v : World) (q : Part) (rs : List Reaction) (setting : Setting),
      i ∈ ((v.bind s q rs setting).rig p).timers → i ∈ (v.rig p).timers ∨ v.nextTask ≤ i := by
    intro v q rs setting hbound
    rw [rig_bind] at hbound
    split at hbound
    · rename_i hqp
      subst hqp
      exact (List.mem_append.mp hbound).imp_right fun hnew => (List.mem_range'_1.mp hnew).1
    · exact .inl hbound
  cases he with
  | calm hcalm =>
      obtain ⟨_, _, _, _, _, rfl⟩ := hcalm.eq
      exact .inl hi
  | destroy =>
      rw [rig_destroy] at hi
      split at hi
      · exact .inl hi
      · simp at hi
  | leave =>
      rw [rig_tidy, rig_release] at hi
      split at hi
      · simp at hi
      · exact .inl hi
  | @arrive o j es =>
      have hi' := hbind { w with position := j, error := es.getLast? } _ _ _ hi
      cases p <;> exact hi'
  | «open» => exact hbind w _ _ _ hi
  | handOver =>
      unfold World.handOver at hi
      split at hi <;> exact .inl hi
  | take => cases p <;> exact .inl hi
  | abort => cases p <;> exact .inl hi
  | _ => exact .inl hi

theorem rigs_choose {i : Nat} {p : Part} (hi : i ∈ ((w.choose s c).rig p).timers) :
    i ∈ (w.rig p).timers ∨ w.nextTask ≤ i := by
  obtain ⟨t, others, -, -, heq⟩ | ⟨-, hw⟩ | ⟨d, -, heq⟩ := choose_cases s w c
  · rw [heq, takeTurn_eq, (host_place _ _ _).2.2.2.2] at hi
    have hi' := rigs_effect (Job.step_effect s { w with ready := others } t.id t.waits t.job) hi
    cases p <;> exact hi'
  · obtain ⟨_, _, _, _, hw⟩ := hw.eq
    rw [hw] at hi
    cases p <;> exact .inl hi
  · rw [heq] at hi
    cases d with
    | subscribe label topic responses =>
        simp only [ask] at hi
        split at hi
        · cases p <;> exact .inl hi
        · exact .inl hi
    | unsubscribe label => cases p <;> exact .inl hi
    | destroy =>
        have he : Job.Effect s w 0 (.sleep 0) [] w.destroy := .destroy
        exact rigs_effect he hi
    | _ => exact .inl hi

theorem mem_tasks_release {p : Part} (ht : t ∈ w.tasks) (hno : t.id ∉ (w.rig p).timers) :
    t ∈ (w.release p).tasks := by
  rw [release_eq]
  rcases mem_tasks.mp ht with ht | ht | ht
  · exact mem_tasks.mpr (.inl (List.mem_filter.mpr ⟨ht, by simpa using hno⟩))
  · obtain ⟨x, hx, rfl⟩ := List.mem_map.mp ht
    exact mem_tasks.mpr (.inr (.inl
      (List.mem_map.mpr ⟨x, List.mem_filter.mpr ⟨hx, by simpa using hno⟩, rfl⟩)))
  · exact mem_tasks.mpr (.inr (.inr ht))

theorem mem_tasks_destroy (ht : t ∈ w.tasks) (hno : ∀ p, t.id ∉ (w.rig p).timers) :
    t ∈ w.destroy.tasks := by
  unfold World.destroy
  split
  · exact ht
  · have htour : t ∈ ({ w with destroyed := true } : World).tasks := ht
    exact mem_tasks_release (p := .stop) (mem_tasks_release (p := .tour) htour (hno .tour))
      (by rw [rig_release]; exact hno .stop)

/-- No effect of a step puts an end to another task, unless it is a timer. -/
theorem mem_tasks_effect {job : Job} {waits : List Wait} (he : Job.Effect s w id job waits w')
    (ht : t ∈ w.tasks) (hno : ∀ p, t.id ∉ (w.rig p).timers) : t ∈ w'.tasks := by
  cases he with
  | calm hcalm =>
      obtain ⟨_, _, _, _, _, rfl⟩ := hcalm.eq
      exact ht
  | destroy => exact mem_tasks_destroy ht hno
  | spawn => exact (tasks_start w _ _).symm.subset (List.mem_cons_of_mem _ ht)
  | ring => exact (tasks_start w _ _).symm.subset (List.mem_cons_of_mem _ ht)
  | leave =>
      rw [tasks_tidy]
      exact mem_tasks_release ht (hno .stop)
  | arrive => exact (tasks_bind s _ _ _ _).symm.subset (List.mem_append_right _ ht)
  | «open» => exact (tasks_bind s _ _ _ _).symm.subset (List.mem_append_right _ ht)
  | handOver => exact (tasks_handOver w).symm.subset ht
  | take => exact ht
  | abort => exact ht

/-- Who takes no step in a choice is there after it, unless it is a timer. -/
theorem mem_tasks_choose (ht : t ∈ w.tasks) (hno : ∀ p, t.id ∉ (w.rig p).timers)
    (hother : ∀ u, w.mover? c = some u → u.id ≠ t.id) : t ∈ (w.choose s c).tasks := by
  obtain ⟨u, others, hmover, hperm, heq⟩ | ⟨-, hw⟩ | ⟨d, -, heq⟩ := choose_cases s w c
  · rw [heq, takeTurn_eq]
    refine (tasks_place _ _ _).symm.subset (List.mem_append_right _ ?_)
    refine mem_tasks_effect (Job.step_effect s { w with ready := others } u.id u.waits u.job) ?_
      (fun p => by cases p; exacts [hno .tour, hno .stop])
    rcases List.mem_cons.mp ((tasks_take hperm).subset ht) with rfl | ht
    · exact absurd rfl (hother _ hmover)
    · exact ht
  · exact hw.tasks.symm.subset ht
  · rw [heq]
    cases d with
    | subscribe label topic responses =>
        simp only [ask]
        split <;> exact ht
    | unsubscribe label => exact ht
    | destroy => exact mem_tasks_destroy ht hno
    | _ => exact (tasks_start w _ _).symm.subset (List.mem_cons_of_mem _ ht)

theorem Timed.not_mem_timers {hand : List Task} (h : Timed w hand) (ht : t ∈ w.tasks)
    (hno : t.job.isOfTimer = false) (p : Part) : t.id ∉ (w.rig p).timers := fun hi =>
  Bool.false_ne_true (hno.symm.trans (h.timers t (List.mem_append_right _ ht) p hi).job)

/-- Who has ended some work is the one who was at it. -/
theorem Timed.ended_unique {job : Job} {above : List Wait} {o : Outcome} (h : Timed w [])
    (ht : ⟨id, job, above ++ base⟩ ∈ w.tasks) (ho : ⟨id, .ended o, base⟩ ∈ w.tasks) :
    job = .ended o ∧ above = [] := by
  obtain ⟨-, hjob, habove⟩ := (Task.mk.injEq ..).mp (h.eq_of_id ht ho rfl)
  exact ⟨hjob, by simpa using habove⟩

/-! ## Along a stint -/

/-- A choice gives the task its turn, or leaves it as it is. -/
private theorem momentsOf_cases {job : Job} {above : List Wait} (hn : Numbered w [])
    (ht : ⟨id, job, above ++ base⟩ ∈ w.tasks) (c : Choice) :
    (∃ others, w.ready.Perm (⟨id, job, above ++ base⟩ :: others) ∧
        w.choose s c = w.takeTurn s ⟨id, job, above ++ base⟩ others ∧
        w.momentsOf id base c = [⟨{ w with ready := others }, job, above⟩]) ∨
      (∀ u, w.mover? c = some u → u.id ≠ id) ∧ w.momentsOf id base c = [] := by
  cases c with
  | turn i =>
      cases hi : w.ready[i]? with
      | none => exact .inr ⟨by simp [mover?, hi], by simp [momentsOf, hi]⟩
      | some u =>
          by_cases hid : u.id = id
          · have hu : u ∈ w.tasks := mem_tasks.mpr (.inl (List.mem_of_getElem? hi))
            obtain rfl : u = ⟨id, job, above ++ base⟩ := hn.eq_of_id hu ht hid
            obtain ⟨hlt, hget⟩ := List.getElem?_eq_some_iff.mp hi
            refine .inl ⟨w.ready.eraseIdx i, ?_, by simp [choose, hi], by simp [momentsOf, hi]⟩
            exact hget ▸ (List.getElem_cons_eraseIdx_perm hlt).symm
          · refine .inr ⟨fun v hv => ?_, by simp [momentsOf, hi, hid]⟩
            cases hi.symm.trans hv
            exact hid
  | _ => exact .inr ⟨fun u hu => (by cases hu), rfl⟩

/-- What is true at first, and is kept by every turn of the task in whatever world the others have
left, is true along a stint; and the task is there. -/
theorem Stint.carry {I : World → Prop} {P : List Moment → Job → List Wait → Prop} {ms : List Moment}
    (job : Job) (above : List Wait) (hI : ∀ v c, I v → I (v.choose s c))
    (hstep : ∀ ms v others job above, I v → P ms job above → (job.isEnded = true → above ≠ []) →
      ∃ job' above',
        (job.step s { v with ready := others } id (above ++ base)).2.task? id =
          some ⟨id, job', above' ++ base⟩ ∧
        P (ms ++ [⟨{ v with ready := others }, job, above⟩]) job' above')
    (hw : Timed w []) (hworld : I w) (ht : ⟨id, job, above ++ base⟩ ∈ w.tasks)
    (hno : job.isOfTimer = false) (hfirst : P [] job above) (h : Stint s id base w w' ms) :
    Timed w' [] ∧ I w' ∧
      ∃ job' above', ⟨id, job', above' ++ base⟩ ∈ w'.tasks ∧ P ms job' above' := by
  suffices hall : Timed w' [] ∧ I w' ∧ (∀ p, id ∉ (w'.rig p).timers) ∧
      ∃ job' above', ⟨id, job', above' ++ base⟩ ∈ w'.tasks ∧ P ms job' above' from
    ⟨hall.1, hall.2.1, hall.2.2.2⟩
  induction h with
  | start => exact ⟨hw, hworld, hw.not_mem_timers ht hno, job, above, ht, hfirst⟩
  | @go v ms c _ hgoes ih =>
      obtain ⟨hv, hIv, hnov, job, above, htv, hP⟩ := ih
      have hbelow : id < v.nextTask := hv.below _ htv
      refine ⟨hv.choose c, hI v c hIv, fun p hi => ?_, ?_⟩
      · rcases rigs_choose hi with hi | hi
        · exact hnov p hi
        · omega
      · rcases momentsOf_cases (s := s) hv.toNumbered htv c with
          ⟨others, hperm, heq, hmoment⟩ | ⟨hother, hmoment⟩
        · have hgo : job.isEnded = true → above ≠ [] := by
            rintro hended rfl
            obtain ⟨o, rfl⟩ := Job.eq_ended hended
            exact hgoes o htv
          obtain ⟨job', above', hturn, hP'⟩ := hstep ms v others job above hIv hP hgo
          rw [heq, takeTurn_eq, hmoment]
          refine ⟨job', above', ?_, hP'⟩
          exact (tasks_place _ _ _).symm.subset (List.mem_append_left _ (by simp [hturn]))
        · rw [hmoment, List.append_nil]
          exact ⟨job, above, mem_tasks_choose htv hnov hother, hP⟩

/-! ## Stints of a schedule -/

/-- Whether work above some waits is over. -/
def isOver (w : World) (id : Nat) (base : List Wait) : Bool :=
  w.tasks.any fun t => t.id == id && t.job.isEnded && t.waits.length == base.length

/-- Whether work is not over before the end of a schedule. -/
def lasts (s : Stage) (id : Nat) (base : List Wait) (w : World) : List Choice → Bool
  | [] => true
  | c :: cs => !w.isOver id base && lasts s id base (w.choose s c) cs

/-- The turns of a task along a schedule. -/
def momentsAlong (s : Stage) (id : Nat) (base : List Wait) (w : World) : List Choice → List Moment
  | [] => []
  | c :: cs => w.momentsOf id base c ++ momentsAlong s id base (w.choose s c) cs

private theorem Stint.follow_of {v : World} {ms : List Moment} (h : Stint s id base w v ms) :
    ∀ cs, lasts s id base v cs = true →
      Stint s id base w (v.follow s cs) (ms ++ momentsAlong s id base v cs) := by
  intro cs
  induction cs generalizing v ms with
  | nil =>
      intro _
      simpa [momentsAlong] using h
  | cons c cs ih =>
      intro hlasts
      simp only [lasts, Bool.and_eq_true, Bool.not_eq_true'] at hlasts
      have hgo := h.go c fun o ho => by
        have hover : v.isOver id base = true :=
          List.any_eq_true.mpr ⟨_, ho, by simp [Job.isEnded]⟩
        simp [hover] at hlasts
      simpa [momentsAlong] using ih hgo hlasts.2

/-- A schedule makes a stint where the work is not over before its end. -/
theorem Stint.follow (cs : List Choice) (h : lasts s id base w cs = true) :
    Stint s id base w (w.follow s cs) (momentsAlong s id base w cs) := by
  simpa using Stint.start.follow_of cs h

end World

end DiagramTour
