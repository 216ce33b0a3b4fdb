import DiagramTour.Proofs.Playback.Turnover

/-!
# Listeners that were taken down

A listener that was taken down hears of no event any more.  But an event that was being delivered by
then goes on to all whom it was to reach, whether or not they still listen.

## Architecture

- `Task.rounds`: the events that a task delivers, each with the listeners that are still to come.
  `Task.rounds_step` says that a step takes a round further, or begins one among those who listen.
- `World.starting?` is the listener that starts in a choice.
- `World.Gone`: a number that was given and nobody has; it is not given again (`World.Gone.choose`).
- `World.released_starts_iff_round_comes` says when a listener starts that was taken down.
-/

namespace DiagramTour

/-! ## Rounds -/

/-- The event that a job delivers, and the listeners that are still to come. -/
def Job.round? : Job → Option (HostEvent × List Listener)
  | .fire event listeners _ => some (event, listeners)
  | _ => none

/-- The event that is delivered further after a wait, and the listeners that are still to come. -/
def Wait.round? : Wait → Option (HostEvent × List Listener)
  | .fired event listeners _ => some (event, listeners)
  | _ => none

/-- The events that a task delivers, each with the listeners that are still to come. -/
def Task.rounds (t : Task) : List (HostEvent × List Listener) :=
  t.job.round?.toList ++ t.waits.filterMap Wait.round?

/-- Whether a round is one of a task, or what is left of one when more listeners have heard of the event. -/
def Task.Carries (t : Task) (r : HostEvent × List Listener) : Prop :=
  ∃ ls, (r.1, ls) ∈ t.rounds ∧ r.2 <:+ ls

namespace Task

variable {s : Stage} {w : World} {t t' : Task} {id : Nat} {job job' : Job}
  {waits waits' : List Wait} {r : HostEvent × List Listener}

theorem mem_rounds : r ∈ t.rounds ↔ t.job.round? = some r ∨ ∃ x ∈ t.waits, x.round? = some r := by
  simp [rounds]

theorem Carries.of_mem (h : r ∈ t.rounds) : t.Carries r :=
  ⟨r.2, h, List.suffix_rfl⟩

theorem rounds_of_isFresh (h : t.IsFresh job) : t.rounds = [] := by
  cases h <;> rfl

/-- Where the new job delivers nothing, and neither do new waits, the rounds are those from before. -/
private theorem Carries.below (heq : some (Task.mk id job' waits') = some t') (hr : r ∈ t'.rounds)
    (hjob : job'.round? = none) (hwaits : ∀ x ∈ waits', x ∈ waits ∨ x.round? = none) :
    Carries ⟨id, job, waits⟩ r := by
  cases heq
  rcases mem_rounds.mp hr with hround | ⟨x, hx, hround⟩
  · simp [hjob] at hround
  · rcases hwaits x hx with hx | hnone
    · exact .of_mem (mem_rounds.mpr (.inr ⟨x, hx, hround⟩))
    · simp [hnone] at hround

private theorem same_rounds : ∀ x ∈ waits, x ∈ waits ∨ x.round? = none :=
  fun _ hx => .inl hx

private theorem push_rounds {y : Wait} (hy : y.round? = none) :
    ∀ x ∈ y :: waits, x ∈ waits ∨ x.round? = none := by
  intro x hx
  rcases List.mem_cons.mp hx with rfl | hx
  · exact .inr hy
  · exact .inl hx

/-- What goes on after a wait delivers what the wait does. -/
private theorem rounds_resume {o : Outcome} {wait : Wait}
    (ht : (wait.resume s w waits o).2.task? id = some t') (hr : r ∈ t'.rounds) :
    Carries ⟨id, .ended o, wait :: waits⟩ r := by
  -- The wait goes and others may come, as long as they deliver nothing
  have hpass : ∀ {job' : Job} {waits' : List Wait}, some (Task.mk id job' waits') = some t' →
      job'.round? = none → (∀ x ∈ waits', x ∈ waits ∨ x.round? = none) →
      Carries ⟨id, .ended o, wait :: waits⟩ r :=
    fun heq hjob hwaits => .below heq hr hjob fun x hx =>
      (hwaits x hx).imp_left (List.mem_cons_of_mem _)
  cases wait with
  | handled kind setting event actions errors =>
      simp only [Wait.resume] at ht
      split at ht
      all_goals try split at ht
      all_goals exact hpass ht rfl same_rounds
  | moved kind next => cases o <;> exact hpass ht rfl same_rounds
  | dispatched kind next => cases o <;> exact hpass ht rfl same_rounds
  | fired event listeners total =>
      cases o with
      | crashed c => exact hpass ht rfl same_rounds
      | _ =>
          cases ht
          rcases mem_rounds.mp hr with hround | ⟨x, hx, hround⟩
          · exact .of_mem (mem_rounds.mpr (.inr ⟨_, List.mem_cons_self, hround⟩))
          · exact .of_mem (mem_rounds.mpr (.inr ⟨x, List.mem_cons_of_mem _ hx, hround⟩))
  | report outlet => cases o <;> cases outlet <;> exact hpass ht rfl same_rounds
  | opened =>
      simp only [Wait.resume, World.opened] at ht
      split at ht <;> exact hpass ht rfl same_rounds
  | cleared index => cases o <;> exact hpass ht rfl same_rounds
  | entered index =>
      cases o with
      | collected errors => exact hpass ht rfl (push_rounds rfl)
      | failed e => exact hpass ht rfl (push_rounds rfl)
      | _ => exact hpass ht rfl same_rounds
  | arrived index errors => exact hpass ht rfl (push_rounds rfl)
  | concluded outcome => exact hpass ht rfl same_rounds
  | journey => exact hpass ht rfl same_rounds

/-- A step takes the rounds of a task further, or begins one among those who listen. -/
theorem rounds_step (ht : (t.job.step s w t.id t.waits).2.task? t.id = some t')
    (hr : r ∈ t'.rounds) : t.Carries r ∨ r.2 = w.host.matching r.1 := by
  obtain ⟨id, job, waits⟩ := t
  have hpass : ∀ {job' : Job} {waits' : List Wait}, some (Task.mk id job' waits') = some t' →
      job'.round? = none → (∀ x ∈ waits', x ∈ waits ∨ x.round? = none) →
      Carries ⟨id, job, waits⟩ r ∨ r.2 = w.host.matching r.1 :=
    fun heq hjob hwaits => .inl (.below heq hr hjob hwaits)
  cases job with
  | run setting event actions errors =>
      cases actions with
      | nil => exact hpass ht rfl same_rounds
      | cons a rest =>
          simp only [Job.step, World.runActions] at ht
          split at ht <;> exact hpass ht rfl (push_rounds rfl)
  | act kind behaviour =>
      cases behaviour with
      | perform c next =>
          cases c with
          | dispatch event =>
              cases ht
              rcases mem_rounds.mp hr with hround | ⟨x, hx, hround⟩
              · cases hround
                exact .inr rfl
              · rcases List.mem_cons.mp hx with rfl | hx
                · cases hround
                · exact .inl (.of_mem (mem_rounds.mpr (.inr ⟨x, hx, hround⟩)))
          | move m => exact hpass ht rfl (push_rounds rfl)
          | _ => exact hpass ht rfl same_rounds
      | _ => exact hpass ht rfl same_rounds
  | fire event listeners total =>
      cases listeners with
      | nil => exact hpass ht rfl same_rounds
      | cons l rest =>
          have hmine : Carries ⟨id, .fire event (l :: rest) total, waits⟩ (event, rest) :=
            ⟨l :: rest, mem_rounds.mpr (.inl rfl), List.suffix_cons l rest⟩
          simp only [Job.step, World.fire] at ht
          split at ht
          · cases ht
            rcases mem_rounds.mp hr with hround | ⟨x, hx, hround⟩
            · cases hround
            · simp only [List.mem_cons] at hx
              rcases hx with rfl | rfl | hx
              · cases hround
              · cases hround
                exact .inl hmine
              · exact .inl (.of_mem (mem_rounds.mpr (.inr ⟨x, hx, hround⟩)))
          · cases ht
            rcases mem_rounds.mp hr with hround | ⟨x, hx, hround⟩
            · cases hround
              exact .inl hmine
            · exact .inl (.of_mem (mem_rounds.mpr (.inr ⟨x, hx, hround⟩)))
  | deliver deliveries =>
      simp only [Job.step] at ht
      unfold World.deliver at ht
      split at ht
      all_goals try split at ht
      all_goals exact hpass ht rfl same_rounds
  | «begin» render => exact hpass ht rfl (push_rounds rfl)
  | travel m =>
      simp only [Job.step, World.travel] at ht
      split at ht
      · exact hpass ht rfl same_rounds
      · exact hpass ht rfl (push_rounds rfl)
  | seek m =>
      simp only [Job.step, World.seek] at ht
      split at ht <;> exact hpass ht rfl same_rounds
  | depart m =>
      simp only [Job.step, World.depart] at ht
      split at ht
      · exact hpass ht rfl same_rounds
      · split at ht
        · exact hpass ht rfl same_rounds
        · exact hpass ht rfl (push_rounds rfl)
  | settle index frames =>
      cases frames with
      | zero => exact hpass ht rfl (push_rounds rfl)
      | succ n =>
          simp only [Job.step, World.settle] at ht
          split at ht <;> exact hpass ht rfl same_rounds
  | await setting delay actions => exact hpass ht rfl same_rounds
  | ring setting delay actions => exact hpass ht rfl same_rounds
  | sleep ms => exact hpass ht rfl same_rounds
  | ended o =>
      cases waits with
      | nil => cases ht
      | cons wait waits => exact .inl (rounds_resume ht hr)

end Task

namespace World

variable {s : Stage} {w w' v : World} {t t' : Task} {c : Choice} {i : Nat} {p : Part}

/-! ## Listeners that start -/

/-- The listener that begins to run its actions in a choice, if one does. -/
def starting? (w : World) (c : Choice) : Option Listener :=
  match w.mover? c with
  | some ⟨_, .fire event (l :: _) _, _⟩ => if l.accepts event then some l else none
  | _ => none

theorem starting?_eq_some {l : Listener} : w.starting? c = some l ↔ ∃ t event rest total,
    w.mover? c = some t ∧ t.job = .fire event (l :: rest) total ∧ l.accepts event = true := by
  unfold starting?
  split
  · rename_i id event k rest total waits hmover
    rw [hmover]
    constructor
    · intro h
      split at h
      · cases h
        exact ⟨_, event, rest, total, rfl, rfl, ‹_›⟩
      · cases h
    · rintro ⟨t, event', rest', total', hmover', hjob, haccepts⟩
      cases hmover'
      cases hjob
      rw [if_pos haccepts]
  · rename_i hno
    refine iff_of_false (by simp) ?_
    rintro ⟨⟨id, job, waits⟩, event, rest, total, hmover, rfl, -⟩
    exact hno id event l rest total waits hmover

/-- Who starts a listener is at its actions then, in the circumstances under which it was put up. -/
theorem runs_of_starting {l : Listener} (h : w.starting? c = some l) : ∃ t' ∈ (w.choose s c).tasks,
    ∃ event, t'.job = .run l.setting (some (.ofHost event l.place)) l.actions [] := by
  obtain ⟨⟨id, job, waits⟩, event, rest, total, hmover, rfl, haccepts⟩ := starting?_eq_some.mp h
  obtain ⟨u, others, hu, -, heq⟩ | ⟨hnone, -⟩ | ⟨d, rfl, -⟩ := choose_cases s w c
  · cases hmover.symm.trans hu
    refine ⟨⟨id, .run l.setting (some (.ofHost event l.place)) l.actions [],
      .report l.setting.outlet :: .fired event rest total :: waits⟩, ?_, event, rfl⟩
    rw [heq, takeTurn_eq]
    refine (tasks_place _ _ _).symm.subset (List.mem_append_left _ ?_)
    simp [Job.step, fire, haccepts, Turn.task?]
  · simp [hnone] at hmover
  · cases hmover

/-! ## Numbers are not given again -/

/-- A number that was given to a listener, and that nobody has. -/
structure Gone (i : Nat) (w : World) : Prop where
  given : i < w.host.next
  rigs : ∀ p, i ∉ (w.rig p).listeners

private theorem next_destroy (w : World) : w.destroy.host.next = w.host.next := by
  unfold World.destroy
  split <;> simp [release_eq, Host.detach]

/-- What a step puts up is put up behind what is there. -/
private theorem next_effect {id : Nat} {job : Job} {waits : List Wait}
    (he : Job.Effect s w id job waits w') : w.host.next ≤ w'.host.next := by
  cases he with
  | calm hcalm =>
      obtain ⟨_, _, _, _, _, rfl⟩ := hcalm.eq
      exact Nat.le_refl _
  | destroy => exact Nat.le_of_eq (next_destroy w).symm
  | leave =>
      obtain ⟨_, _, heq⟩ := (w.release .stop).tidy_eq (s := s) (stopAt s _)
      rw [heq, release_eq]
      exact Nat.le_refl _
  | arrive =>
      rw [bind_eq]
      exact Nat.le_add_right _ _
  | «open» =>
      rw [bind_eq]
      exact Nat.le_add_right _ _
  | handOver =>
      unfold World.handOver
      split <;> exact Nat.le_refl _
  | _ => exact Nat.le_refl _

/-- The numbers that a choice gives to listeners are new ones. -/
theorem Reachable.handles_choose (hw : Reachable s w) (c : Choice) :
    w.host.next ≤ (w.choose s c).host.next ∧
      ∀ p, ∀ i ∈ ((w.choose s c).rig p).listeners, i ∈ (w.rig p).listeners ∨ w.host.next ≤ i := by
  obtain ⟨t, others, -, hperm, heq⟩ | ⟨-, hshuffle⟩ | ⟨d, -, heq⟩ := choose_cases s w c
  · have hl : Listed { w with ready := others } := hw.listed.of_eq rfl fun _ => rfl
    obtain ⟨hhost, -, -, -, hrig⟩ := host_place (t.job.step s { w with ready := others } t.id t.waits).1
      t.id (t.job.step s { w with ready := others } t.id t.waits).2
    rw [heq, takeTurn_eq, hhost]
    have he := Job.step_effect s { w with ready := others } t.id t.waits t.job
    refine ⟨next_effect (w := { w with ready := others }) he, ?_⟩
    intro p i hi
    rw [hrig] at hi
    exact ((hw.way.take hperm).rig_step hl t.id t.job t.waits p).1 i hi
  · obtain ⟨_, _, _, _, heq⟩ := hshuffle.eq
    rw [heq]
    exact ⟨Nat.le_refl _, fun p i hi => .inl (by cases p <;> exact hi)⟩
  · rw [heq]
    constructor
    · cases d with
      | subscribe label topic responses =>
          simp only [ask]
          split <;> exact Nat.le_refl _
      | destroy => exact Nat.le_of_eq (next_destroy w).symm
      | _ => exact Nat.le_refl _
    · intro p i hi
      rcases rigging_ask hw.way.toNumbered d p with ⟨hsame, -⟩ | ⟨hlive, hend⟩
      · have hrig : (w.ask d).rig p = w.rig p := congrArg Rigging.rig hsame
        exact .inl (hrig ▸ hi)
      · simp [hend, rig_destroy, hlive] at hi

namespace Gone

/-- What a choice takes down is gone. -/
theorem of_release (hw : Reachable s w) (hi : i ∈ (w.rig p).listeners)
    (hgone : i ∉ ((w.choose s c).rig p).listeners) : Gone i (w.choose s c) := by
  obtain ⟨hnext, hnew⟩ := hw.handles_choose (s := s) c
  have hgiven := hw.listed.handles p i hi
  refine ⟨Nat.lt_of_lt_of_le hgiven hnext, fun q hq => ?_⟩
  by_cases hqp : q = p
  · exact hgone (hqp ▸ hq)
  · rcases hnew q i hq with hold | hnever
    · exact (hw.listed.apart p q (Ne.symm hqp)).listeners hi hold
    · omega

/-- What is gone stays so. -/
theorem choose (h : Gone i w) (hw : Reachable s w) (c : Choice) : Gone i (w.choose s c) := by
  obtain ⟨hnext, hnew⟩ := hw.handles_choose (s := s) c
  refine ⟨Nat.lt_of_lt_of_le h.given hnext, fun p hi => ?_⟩
  rcases hnew p i hi with hold | hnever
  · exact h.rigs p hold
  · exact absurd h.given (Nat.not_lt.mpr hnever)

/-- Nobody listens with a number that is gone. -/
theorem ne_of_mem (h : Gone i w) (hw : Reachable s w) : ∀ l ∈ w.host.listeners, l.id ≠ i := by
  rintro l hl rfl
  obtain ⟨p, hp⟩ := hw.rigged.listeners l hl
  exact h.rigs p hp

end Gone

/-! ## Whom a round still reaches -/

/-- Whoever delivers an event to a listener with some number was doing so in an earlier world. -/
def Trails (i : Nat) (v w : World) : Prop :=
  ∀ t' ∈ w.tasks, ∀ r ∈ t'.rounds, (∃ l ∈ r.2, l.id = i) → ∃ t ∈ v.tasks, t.id = t'.id ∧ t.Carries r

theorem Trails.refl (i : Nat) (w : World) : Trails i w w :=
  fun t ht _ hr _ => ⟨t, ht, rfl, .of_mem hr⟩

/-- Nobody begins to deliver an event to a listener that is gone. -/
theorem Trails.choose (h : Trails i v w) (hw : Reachable s w) (hgone : Gone i w) (c : Choice) :
    Trails i v (w.choose s c) := by
  have hfresh : ∀ e, ¬ ∃ l ∈ w.host.matching e, l.id = i := by
    rintro e ⟨l, hl, hid⟩
    exact hgone.ne_of_mem hw l (List.mem_of_mem_filter hl) hid
  intro t' ht' r hr hmem
  cases hw.way.toNumbered.comes ht' with
  | stays hold => exact h t' hold r hr hmem
  | @steps t others hmover _ hstep =>
      rcases Task.rounds_step hstep hr with ⟨ls, hls, hsuffix⟩ | hmatching
      · obtain ⟨l, hl, hid⟩ := hmem
        obtain ⟨u, hu, huid, ks, hks, hsuffix'⟩ :=
          h t (active_subset_tasks w (mem_active_of_mover? hmover)) (r.1, ls) hls
            ⟨l, hsuffix.subset hl, hid⟩
        exact ⟨u, hu, huid.trans (Turn.id_of_task? hstep).symm, ks, hks, hsuffix.trans hsuffix'⟩
      · exact absurd (hmatching ▸ hmem) (hfresh r.1)
  | starts _ hnew => simp [Task.rounds_of_isFresh hnew] at hr
  | @asked d job _ hjob hnew =>
      subst hnew
      cases d with
      | dispatch event =>
          cases hjob
          rcases Task.mem_rounds.mp hr with hround | ⟨x, hx, -⟩
          · cases hround
            exact absurd hmem (hfresh event)
          · cases hx
      | _ => cases hjob <;> simp [Task.rounds, Job.round?] at hr

/-- Once a listener was taken down it hears of no event any more.  It starts to run its actions just
when a task gets to it with an event that the task was delivering, with the listener still to come, when
it was taken down. -/
theorem released_starts_iff_round_comes (hw : Reachable s w) (hi : i ∈ (w.rig p).listeners)
    (hgone : i ∉ ((w.choose s c).rig p).listeners) (cs : List Choice) :
    let v := w.choose s c
    let w' := v.follow s cs
    (∀ q, i ∉ (w'.rig q).listeners) ∧ (∀ l ∈ w'.host.listeners, l.id ≠ i) ∧
      ∀ (d : Choice) (l : Listener), l.id = i → (w'.starting? d = some l ↔
        ∃ t ∈ v.tasks, ∃ event rest, t.Carries (event, l :: rest) ∧ l.accepts event = true ∧
          ∃ u total, w'.mover? d = some u ∧ u.id = t.id ∧ u.job = .fire event (l :: rest) total) := by
  intro v w'
  -- The listener stays gone, and whoever delivers to it did so when it was taken down
  obtain ⟨hw', hgone', htrails⟩ := follow_induction (s := s)
    (P := fun w => Reachable s w ∧ Gone i w ∧ Trails i v w)
    (fun w d h => ⟨h.1.choose d, h.2.1.choose h.1 d, h.2.2.choose h.1 h.2.1 d⟩) cs v
    ⟨hw.choose c, .of_release hw hi hgone, .refl i v⟩
  refine ⟨hgone'.rigs, hgone'.ne_of_mem hw', fun d l hl => ?_⟩
  rw [starting?_eq_some]
  constructor
  · rintro ⟨u, event, rest, total, hmover, hjob, haccepts⟩
    have hround : (event, l :: rest) ∈ u.rounds := Task.mem_rounds.mpr (.inl (by rw [hjob]; rfl))
    obtain ⟨t, ht, hid, hrounds⟩ := htrails u (active_subset_tasks w' (mem_active_of_mover? hmover))
      _ hround ⟨l, List.mem_cons_self, hl⟩
    exact ⟨t, ht, event, rest, hrounds, haccepts, u, total, hmover, hid.symm, hjob⟩
  · rintro ⟨t, -, event, rest, -, haccepts, u, total, hmover, -, hjob⟩
    exact ⟨u, event, rest, total, hmover, hjob, haccepts⟩

end World

/-- A tour of two stops.  A click at the first one leads to the second, and then is to be marked. -/
def Stage.restive : Stage where
  document := ⟨[⟨"a", none, [], [⟨.click, none, none, none, none, [⟨"go", none⟩]⟩,
    ⟨.click, none, none, none, none, [⟨"mark", none⟩]⟩], none, []⟩, ⟨"b", none, [], [], none, []⟩], [],
    none, []⟩
  config := { settleFrames := 0 }
  handlers := ⟨[("go", fun _ => .perform (.move (.offset 1)) fun _ => .succeed),
    ("mark", fun _ => .succeed)]⟩

namespace World

/-- The schedule of a click at the first stop of `Stage.restive`, up to the step in which the stop is
left. -/
def untilRestive : List Choice :=
  .ask (.move (.index 0)) :: List.replicate 17 (.turn 0) ++
    .ask (.dispatch ⟨"click", .element Elements.root, 0, none, none, none⟩) :: List.replicate 5 (.turn 0)

/-- The second listener of `Stage.restive` starts when its stop was left by the first one. -/
private theorem restive_starts : ∃ l, l.id = 1 ∧
    (((follow .restive {} untilRestive).choose .restive (.turn 0)).follow .restive
      (List.replicate 20 (.turn 0))).starting? (.turn 0) = some l :=
  ⟨_, rfl, rfl⟩

/-- What was taken down is not always silent: the second listener of a click starts though the first
one has led to another stop. -/
theorem not_always_silent :
    ¬ ∀ (s : Stage) (w : World) (c : Choice) (cs : List Choice) (i : Nat), Reachable s w →
      i ∈ (w.rig .stop).listeners → i ∉ ((w.choose s c).rig .stop).listeners →
      ∀ d l, ((w.choose s c).follow s cs).starting? d = some l → l.id ≠ i := by
  intro h
  obtain ⟨l, hl, hstarts⟩ := restive_starts
  exact h .restive (follow .restive {} untilRestive) (.turn 0) (List.replicate 20 (.turn 0)) 1
    ⟨untilRestive, rfl⟩ (by decide) (by decide) (.turn 0) l hstarts hl

/-- On `Stage.restive` a click was being delivered, with the second listener still to come, when both
were taken down. -/
theorem restive_round_comes : ∃ t ∈ ((follow .restive {} untilRestive).choose .restive (.turn 0)).tasks,
    ∃ event l rest, t.Carries (event, l :: rest) ∧ l.id = 1 := by
  obtain ⟨-, -, hstart⟩ := released_starts_iff_round_comes (s := .restive) (i := 1)
    (p := .stop) (c := .turn 0)
    ⟨untilRestive, rfl⟩ (by decide) (by decide) (List.replicate 20 (.turn 0))
  obtain ⟨l, hl, hstarts⟩ := restive_starts
  obtain ⟨t, ht, event, rest, hround, -, -⟩ := (hstart (.turn 0) l hl).mp hstarts
  exact ⟨t, ht, event, l, rest, hround, hl⟩

end World

end DiagramTour
