import DiagramTour.CommandLine.Answer
import DiagramTour.Proofs.Playback.Smooth
import DiagramTour.Proofs.Playback.Way

/-!
# Rehearsals

A rehearsal moves to the next stop until a move leads nowhere; nothing counts the stops.  On a stage where
nothing fails every move comes to an end, whatever timers elapse meanwhile, and leads on by one stop, so
that the tour is shown as a whole and in order.

## Architecture

- `World.wake_shuffled`: the scheduler moves a task when the time passes, and loses none.
- `World.Smooth` is kept by every step of the scheduler while `World.toil` gets less, so that the patience
  of a player is never exhausted.
- `World.Idle` holds of a player between two moves, and `World.Idle.perform` is a whole move.
- `World.Rehearsed` is a rehearsal without a bound for its moves; `Stage.rehearsal_visits_all` is the
  result, and `Answer.play_visits_all` what it means on a command line.
-/

namespace DiagramTour

namespace World

variable {s : Stage} {w w' : World} {t : Task} {m : Move} {origin : Int} {me : Nat}

/-! ## Waking up -/

/-- Whoever takes one of two at every turn ends with one of all. -/
private theorem exists_mem_foldl {α : Type} {better : Option α → α → Option α}
    (hbetter : ∀ f t, better (some f) t = some t ∨ better (some f) t = some f) :
    ∀ (ts : List α) (x : α), ∃ y ∈ x :: ts, ts.foldl better (some x) = some y
  | [], x => ⟨x, List.mem_cons_self, rfl⟩
  | t :: ts, x => by
      rw [List.foldl_cons]
      rcases hbetter x t with hnew | hold
      · obtain ⟨y, hy, heq⟩ := exists_mem_foldl hbetter ts t
        exact ⟨y, List.mem_cons_of_mem _ hy, by rw [hnew, heq]⟩
      · obtain ⟨y, hy, heq⟩ := exists_mem_foldl hbetter ts x
        refine ⟨y, ?_, by rw [hold, heq]⟩
        rcases List.mem_cons.mp hy with rfl | hy
        · exact List.mem_cons_self
        · exact List.mem_cons_of_mem _ (List.mem_cons_of_mem _ hy)

/-- Of some tasks that sleep one wakes up first. -/
theorem exists_earliest (h : w.asleep ≠ []) : ∃ x ∈ w.asleep, w.earliest? = some x := by
  unfold earliest?
  cases hasleep : w.asleep with
  | nil => exact absurd hasleep h
  | cons x xs =>
      apply exists_mem_foldl
      intro f t
      by_cases hlt : t.1 < f.1
      · exact .inl (if_pos hlt)
      · exact .inr (if_neg hlt)

/-- Where no two entries have the same key, the one with a key can be taken out by it. -/
private theorem perm_cons_filter {α : Type} (key : α → Nat) {x : α} : ∀ {l : List α},
    (l.map key).Nodup → x ∈ l → l.Perm (x :: l.filter fun y => key y != key x)
  | y :: l, hnodup, hx => by
      obtain ⟨hnew, hrest⟩ := List.nodup_cons.mp hnodup
      rcases List.mem_cons.mp hx with rfl | hx
      · rw [List.filter_cons_of_neg (by simp), List.filter_eq_self.mpr]
        intro z hz
        have hne : key z ≠ key x := fun h => hnew (h ▸ List.mem_map_of_mem hz)
        simpa using hne
      · have hne : key y ≠ key x := fun h => hnew (h ▸ List.mem_map_of_mem hx)
        rw [List.filter_cons_of_pos (by simpa using hne)]
        exact ((perm_cons_filter key hrest hx).cons y).trans (.swap x y _)

/-- No two tasks that sleep have the same number. -/
theorem Numbered.nodup_asleep {hand : List Task} (hw : Numbered w hand) :
    (w.asleep.map fun x => x.2.id).Nodup := by
  have hall := hw.distinct
  simp only [tasks, active, List.map_append, List.map_map] at hall
  exact (List.nodup_append.mp (List.nodup_append.mp (List.nodup_append.mp hall).2.1).1).2.1

/-- When the time passes a task that sleeps is ready, and the others stay where they are. -/
theorem wake_shuffled (hw : Numbered w []) (h : w.asleep ≠ []) :
    w.Shuffled w.wake ∧ w.asleep.length = w.wake.asleep.length + 1 := by
  obtain ⟨⟨due, t⟩, hmem, hearliest⟩ := exists_earliest h
  have hwake : w.wake = { w with
      now := due
      asleep := w.asleep.filter fun u => u.2.id != t.id
      ready := w.ready ++ [t] } := by
    rw [wake, hearliest]
  have hperm := perm_cons_filter (fun x : Nat × Task => x.2.id) hw.nodup_asleep hmem
  rw [hwake]
  refine ⟨⟨⟨_, _, _, _, rfl⟩, ?_, fun _ h => h⟩, hperm.length_eq⟩
  simp only [active, List.append_assoc, List.singleton_append]
  refine List.Perm.append_left _ ?_
  exact (@List.perm_middle Task t w.paused _).symm.trans ((hperm.map Prod.snd).symm.append_left _)

/-! ## Steps -/

/-- A player that nothing has failed for; all tasks but for one are those of timers and of their
reactions. -/
structure Smooth (s : Stage) (me : Nat) (w : World) : Prop extends IsSerene w, Numbered w [] where
  /-- Who has ended was started. -/
  settled : ∀ x ∈ w.outcomes, x.1 < w.nextTask
  bystanders : ∀ t ∈ w.tasks, t.id ≠ me → Bystander s t.job t.waits

/-- How many steps all tasks take at most, and those that are still to be started. -/
def load (s : Stage) (w : World) : Nat :=
  Task.costs s w.tasks + s.fund w.position

/-- How many steps all tasks but for one take at most. -/
def loadBesides (s : Stage) (me : Nat) (w : World) : Nat :=
  Task.costs s (w.tasks.filter (·.id != me)) + s.fund w.position

/-- What gets less with every step of the scheduler: a task that falls asleep has taken a step. -/
def toil (s : Stage) (w : World) : Nat :=
  2 * w.load s + w.asleep.length

/-- A task is on its way to the next stop after `origin`. -/
structure Travels (s : Stage) (m : Move) (origin : Int) (me : Nat) (w : World) : Prop where
  task : ∃ t ∈ w.tasks, t.id = me ∧ Errand s m origin w.position w.traveller t.job t.waits
  fresh : ∀ x ∈ w.outcomes, x.1 ≠ me

/-- A task has come to the next stop after `origin`, if there is one. -/
structure HasArrived (s : Stage) (origin : Int) (me : Nat) (w : World) : Prop where
  outcome : w.outcome? me = some .completed
  position : w.position = s.placeAfter origin
  free : w.traveller = none
  gone : ∀ t ∈ w.tasks, t.id ≠ me

/-- What a step of the scheduler keeps while a task is on its way. -/
structure Onward (s : Stage) (m : Move) (origin : Int) (me : Nat) (w w' : World) : Prop where
  smooth : Smooth s me w'
  toil : w'.toil s < w.toil s
  besides : w'.loadBesides s me ≤ w.loadBesides s me
  stage : Travels s m origin me w' ∨ HasArrived s origin me w'

/-- What there is after a task was put where its step has left it. -/
private theorem place_serene {turn : Turn} (hw : w.IsSerene)
    (hmoves : turn = .finish .completed ∨ (∃ job waits, turn = .go job waits) ∨
      ∃ ms job waits, turn = .sleep ms job waits) (id : Nat) :
    (w.place id turn).IsSerene ∧ (w.place id turn).position = w.position ∧
      (w.place id turn).traveller = w.traveller ∧ (w.place id turn).nextTask = w.nextTask ∧
      (w.place id turn).asleep.length ≤ w.asleep.length + 1 := by
  rcases hmoves with rfl | ⟨job, waits, rfl⟩ | ⟨ms, job, waits, rfl⟩
  · exact ⟨⟨hw.live, hw.error, hw.deaf, hw.queue, hw.paused⟩, rfl, rfl, rfl, Nat.le_succ _⟩
  · exact ⟨⟨hw.live, hw.error, hw.deaf, hw.queue, hw.paused⟩, rfl, rfl, rfl, Nat.le_succ _⟩
  · cases ms with
    | zero => exact ⟨⟨hw.live, hw.error, hw.deaf, hw.queue, hw.paused⟩, rfl, rfl, rfl, Nat.le_succ _⟩
    | succ n =>
        refine ⟨⟨hw.live, hw.error, hw.deaf, hw.queue, hw.paused⟩, rfl, rfl, rfl, ?_⟩
        simp [place]

/-- A turn that ends a task adds its outcome, and any other turn leaves the outcomes as they were. -/
theorem place_outcomes (turn : Turn) (id : Nat) :
    (w.place id turn).outcomes = w.outcomes ∨
      ∃ o, turn = .finish o ∧ (w.place id turn).outcomes = w.outcomes ++ [(id, o)] := by
  cases turn with
  | finish o => exact .inr ⟨o, rfl, rfl⟩
  | sleep ms job waits => cases ms <;> exact .inl rfl
  | _ => exact .inl rfl

/-- A step of the task that is first in line keeps the player going smoothly, and costs something. -/
private theorem Smooth.stride {rest started : List Task} {v : World} {turn : Turn} (hw : Smooth s me w)
    (hready : w.ready = t :: rest)
    (hstride : Stride s { w with ready := rest } t started v turn)
    (hpaid : t.id = me → Task.costs s started + s.fund v.position ≤ s.fund w.position)
    (hbystanders : t.id ≠ me → ∀ t', turn.task? t.id = some t' → Bystander s t'.job t'.waits) :
    w.step s = v.place t.id turn ∧ Smooth s me (w.step s) ∧ (w.step s).toil s < w.toil s ∧
      (w.step s).loadBesides s me ≤ w.loadBesides s me := by
  have hstep : w.step s = v.place t.id turn := by
    simp [step, hready, hstride.step]
  have hperm : w.ready.Perm (t :: rest) := .of_eq hready
  have htasks : w.tasks.Perm (t :: ({ w with ready := rest } : World).tasks) := tasks_take hperm
  have hsub : (v.place t.id turn).tasks.Subperm
      ((turn.task? t.id).toList ++ (started ++ ({ w with ready := rest } : World).tasks)) :=
    (tasks_place v t.id turn).subperm.trans ((List.subperm_append_left _).mpr hstride.tasks)
  obtain ⟨hserene, hposition, -, hnext, hasleep⟩ := place_serene hstride.serene hstride.moves t.id
  have hcost : Task.costs s (turn.task? t.id).toList + Task.costs s started + s.fund v.position <
      t.cost s + s.fund w.position := hstride.cost
  have hself : ∀ t' ∈ (turn.task? t.id).toList, t'.id = t.id := fun t' ht' =>
    Turn.id_of_task? (Option.mem_toList.mp ht')
  refine ⟨hstep, ?_⟩
  rw [hstep]
  refine ⟨⟨hserene, ?_, ?_, ?_⟩, ?_, ?_⟩
  · have hhand := (hw.toNumbered.take hperm).effect (Job.step_effect s _ t.id t.waits t.job)
    rw [hstride.step] at hhand
    exact hhand.change.place
  · intro x hx
    have hbelow : t.id < w.nextTask := hw.below t (by simp [tasks, active, hready])
    have hle : w.nextTask ≤ v.nextTask := hstride.nextTask
    rw [hnext]
    rcases place_outcomes (w := v) turn t.id with hsame | ⟨o, -, hmore⟩
    · rw [hsame, hstride.outcomes] at hx
      exact Nat.lt_of_lt_of_le (hw.settled x hx) hle
    · rw [hmore, hstride.outcomes, List.mem_append, List.mem_singleton] at hx
      rcases hx with hx | rfl
      · exact Nat.lt_of_lt_of_le (hw.settled x hx) hle
      · exact Nat.lt_of_lt_of_le hbelow hle
  · intro u hu hid
    rcases List.mem_append.mp (hsub.subset hu) with hu | hu
    · exact hbystanders (hself u hu ▸ hid) u (Option.mem_toList.mp hu)
    · rcases List.mem_append.mp hu with hu | hu
      · exact (hstride.bystanders u hu).2
      · exact hw.bystanders u (htasks.symm.subset (List.mem_cons_of_mem _ hu)) hid
  · have hload := Task.costs_subperm (s := s) hsub
    have hwas := Task.costs_perm (s := s) htasks
    have hslept : v.asleep.length ≤ w.asleep.length := hstride.asleep
    simp only [Task.costs_append, Task.costs_cons] at hload hwas
    rw [toil, toil, load, load, hposition, hwas]
    omega
  · have hload := Task.costs_subperm (s := s) (hsub.filter (·.id != me))
    have hwas := Task.costs_perm (s := s) (htasks.filter (·.id != me))
    have hfewer : Task.costs s (started.filter (·.id != me)) ≤ Task.costs s started :=
      Task.costs_subperm List.filter_sublist.subperm
    have hfewer' : Task.costs s ((turn.task? t.id).toList.filter (·.id != me)) ≤
        Task.costs s (turn.task? t.id).toList := Task.costs_subperm List.filter_sublist.subperm
    simp only [List.filter_append, Task.costs_append] at hload
    rw [loadBesides, loadBesides, hposition, hwas]
    by_cases hid : t.id = me
    · -- The task itself does not count
      have hnone : (turn.task? t.id).toList.filter (·.id != me) = [] := by
        rw [List.filter_eq_nil_iff]
        intro t' ht'
        simp [hself t' ht', hid]
      have hpaid' := hpaid hid
      rw [hnone, Task.costs_nil] at hload
      rw [List.filter_cons_of_neg (by simpa using hid)]
      omega
    · rw [List.filter_cons_of_pos (by simpa using hid), Task.costs_cons]
      omega

/-- While a task is on its way a step of the scheduler leads on. -/
theorem Smooth.onward_step (hs : s.IsObliging)
    (hm : ∀ v : World, v.position = origin → v.target? s m = place? s (origin + 1))
    (hw : Smooth s me w) (htravels : Travels s m origin me w) (hbusy : w.ready ≠ []) :
    Onward s m origin me w (w.step s) := by
  obtain ⟨u, hu, hid, herrand⟩ := htravels.task
  obtain ⟨t, rest, hready⟩ := List.exists_cons_of_ne_nil hbusy
  have htasks : w.tasks.Perm (t :: ({ w with ready := rest } : World).tasks) :=
    tasks_take (.of_eq hready)
  have hserene : ({ w with ready := rest } : World).IsSerene :=
    ⟨hw.live, hw.error, hw.deaf, hw.queue, hw.paused⟩
  by_cases hself : t.id = me
  · -- The task itself takes the step
    have hsame : t = u := hw.toNumbered.eq_of_id (by simp [tasks, active, hready]) hu
      (hself.trans hid.symm)
    subst hsame
    obtain ⟨started, v, turn, hstride, hpaid, hnext⟩ :=
      Errand.stride (w := { w with ready := rest }) hs hserene hm herrand
    obtain ⟨hstep, hsmooth, htoil, hbesides⟩ :=
      hw.stride hready hstride (fun _ => hpaid) fun h => absurd hself h
    obtain ⟨-, hposition, htraveller, -, -⟩ := place_serene hstride.serene hstride.moves t.id
    refine ⟨hsmooth, htoil, hbesides, ?_⟩
    rw [hstep]
    rcases hnext with ⟨hturn, hplace, hfree⟩ | ⟨t', ht', herrand'⟩
    · right
      refine ⟨?_, hposition.trans hplace, htraveller.trans hfree, ?_⟩
      · have hnone : w.outcomes.find? (·.1 == me) = none := by
          rw [List.find?_eq_none]
          exact fun x hx => by simpa using htravels.fresh x hx
        have houtcomes : v.outcomes = w.outcomes := hstride.outcomes
        simp [outcome?, hturn, place, houtcomes, hnone, hself]
      · intro x hx
        have hx' := (tasks_place v t.id turn).subset hx
        rw [hturn] at hx'
        rcases List.mem_append.mp (hstride.tasks.subset hx') with hnew | hold
        · -- Who was just started has a new number
          have hge : w.nextTask ≤ x.id := (hstride.bystanders x hnew).1
          have hlt : t.id < w.nextTask := hw.below t hu
          omega
        · have hnodup := (htasks.map Task.id).nodup_iff.mp hw.distinct
          rw [List.map_cons, List.nodup_cons] at hnodup
          exact fun h => hnodup.1 (hself.trans h.symm ▸ List.mem_map_of_mem hold)
    · left
      refine ⟨⟨t', ?_, (Turn.id_of_task? ht').trans hself, ?_⟩, ?_⟩
      · exact (tasks_place v t.id turn).symm.subset (by simp [ht'])
      · rw [hposition, htraveller]
        exact herrand'
      · rcases place_outcomes (w := v) turn t.id with hsame | ⟨o, hturn, -⟩
        · rw [hsame, hstride.outcomes]
          exact htravels.fresh
        · rw [hturn] at ht'
          cases ht'
  · -- A timer, or the task of its reaction, does
    have hbystander : Bystander s t.job t.waits := hw.bystanders t (by simp [tasks, active, hready]) hself
    obtain ⟨started, v, turn, hstride, hposition, htraveller, hkept, hbystanders⟩ := hbystander.stride hserene
    obtain ⟨hstep, hsmooth, htoil, hbesides⟩ :=
      hw.stride hready hstride (fun h => absurd h hself) fun _ => hbystanders
    obtain ⟨-, hposition', htraveller', -, -⟩ := place_serene hstride.serene hstride.moves t.id
    refine ⟨hsmooth, htoil, hbesides, .inl ?_⟩
    rw [hstep]
    refine ⟨⟨u, ?_, hid, ?_⟩, ?_⟩
    · refine (tasks_place v t.id turn).symm.subset (List.mem_append_right _ (hkept ?_))
      rcases List.mem_cons.mp (htasks.subset hu) with rfl | hu
      · exact absurd hid hself
      · exact hu
    · rw [hposition', hposition, htraveller', htraveller]
      exact herrand
    · rcases place_outcomes (w := v) turn t.id with hsame | ⟨o, -, hmore⟩
      · rw [hsame, hstride.outcomes]
        exact htravels.fresh
      · rw [hmore, hstride.outcomes]
        intro x hx
        rcases List.mem_append.mp hx with hx | hx
        · exact htravels.fresh x hx
        · cases List.mem_singleton.mp hx
          exact hself

/-- While a task is on its way and nobody is ready, somebody wakes up. -/
theorem Smooth.onward_wake (hw : Smooth s me w) (htravels : Travels s m origin me w)
    (hasleep : w.asleep ≠ []) : Onward s m origin me w w.wake := by
  obtain ⟨hshuffled, hlength⟩ := wake_shuffled hw.toNumbered hasleep
  have hnumbered := hw.toNumbered.shuffle hshuffled
  have htasks := hshuffled.tasks
  have hpaused : w.wake.paused = [] := List.eq_nil_iff_forall_not_mem.mpr fun t ht => by
    simpa [hw.paused] using hshuffled.paused t ht
  have hcosts : Task.costs s w.wake.tasks = Task.costs s w.tasks := Task.costs_perm htasks
  have hbesides : Task.costs s (w.wake.tasks.filter (·.id != me)) =
      Task.costs s (w.tasks.filter (·.id != me)) := Task.costs_perm (htasks.filter _)
  obtain ⟨ready, paused, asleep, now, heq⟩ := hshuffled.eq
  have hposition : w.wake.position = w.position := by rw [heq]
  refine ⟨⟨⟨?_, ?_, ?_, ?_, hpaused⟩, hnumbered, ?_, ?_⟩, ?_, ?_, .inl ⟨?_, ?_⟩⟩
  · rw [heq]
    exact hw.live
  · rw [heq]
    exact hw.error
  · rw [heq]
    exact hw.deaf
  · rw [heq]
    exact hw.queue
  · rw [heq]
    exact hw.settled
  · exact fun t ht => hw.bystanders t (htasks.subset ht)
  · rw [toil, toil, load, load, hcosts, hposition]
    omega
  · rw [loadBesides, loadBesides, hbesides, hposition]
  · obtain ⟨t, ht, hid, herrand⟩ := htravels.task
    refine ⟨t, htasks.symm.subset ht, hid, ?_⟩
    rw [hposition, show w.wake.traveller = w.traveller by rw [heq]]
    exact herrand
  · rw [heq]
    exact htravels.fresh

/-! ## Moves -/

/-- A task that is on its way to the next stop comes there, if it has patience enough. -/
theorem Smooth.finishWithin (hs : s.IsObliging)
    (hm : ∀ v : World, v.position = origin → v.target? s m = place? s (origin + 1)) :
    ∀ {fuel : Nat} {w : World}, Smooth s me w →
      Travels s m origin me w ∨ HasArrived s origin me w → w.toil s ≤ fuel →
      Smooth s me (w.finishWithin s me fuel) ∧ HasArrived s origin me (w.finishWithin s me fuel) ∧
        (w.finishWithin s me fuel).loadBesides s me ≤ w.loadBesides s me := by
  intro fuel
  -- The induction is on the patience; every step costs less than there was to be paid
  induction fuel with
  | zero =>
      rintro w hw (htravels | harrived) hfuel
      · obtain ⟨t, ht, -⟩ := htravels.task
        have hlength := Task.length_le_costs s w.tasks
        have hpos := List.length_pos_of_mem ht
        rw [toil, load] at hfuel
        omega
      · exact ⟨hw, harrived, Nat.le_refl _⟩
  | succ fuel ih =>
      rintro w hw (htravels | harrived) hfuel
      · have hnone : w.outcome? me = none := by
          rw [outcome?, Option.map_eq_none_iff, List.find?_eq_none]
          exact fun x hx => by simpa using htravels.fresh x hx
        have hnext : ∀ {w' : World}, w.finishWithin s me (fuel + 1) = w'.finishWithin s me fuel →
            Onward s m origin me w w' →
            Smooth s me (w.finishWithin s me (fuel + 1)) ∧
              HasArrived s origin me (w.finishWithin s me (fuel + 1)) ∧
              (w.finishWithin s me (fuel + 1)).loadBesides s me ≤ w.loadBesides s me := by
          intro w' heq honward
          have htoil := honward.toil
          obtain ⟨hsmooth, harrived, hbesides⟩ := ih honward.smooth honward.stage (by omega)
          rw [heq]
          exact ⟨hsmooth, harrived, Nat.le_trans hbesides honward.besides⟩
        by_cases hbusy : w.ready = []
        · have hasleep : w.asleep ≠ [] := by
            intro hnobody
            obtain ⟨t, ht, -⟩ := htravels.task
            simp [tasks, active, hbusy, hw.paused, hw.queue, hnobody] at ht
          refine hnext ?_ (hw.onward_wake htravels hasleep)
          simp [World.finishWithin, hnone, isQuiet, hbusy, hw.paused, hasleep]
        · refine hnext ?_ (hw.onward_step hs hm htravels hbusy)
          simp [World.finishWithin, hnone, isQuiet, hbusy]
      · have heq : w.finishWithin s me (fuel + 1) = w := by
          simp [World.finishWithin, harrived.outcome]
        rw [heq]
        exact ⟨hw, harrived, Nat.le_refl _⟩

/-- A player between two moves: all tasks are those of timers and of their reactions, and the way is
free. -/
structure Idle (s : Stage) (w : World) : Prop extends Smooth s w.nextTask w where
  free : w.traveller = none

theorem Idle.bystander (h : Idle s w) (ht : t ∈ w.tasks) : Bystander s t.job t.waits :=
  h.bystanders t ht (Nat.ne_of_lt (h.below t ht))

/-- When a task has come to the next stop the player is idle again. -/
theorem Smooth.idle (hw : Smooth s me w) (h : HasArrived s origin me w) :
    Idle s w ∧ w.load s = w.loadBesides s me := by
  refine ⟨⟨⟨hw.toIsSerene, hw.toNumbered, hw.settled, fun t ht _ => hw.bystanders t ht (h.gone t ht)⟩,
    h.free⟩, ?_⟩
  have hall : w.tasks.filter (·.id != me) = w.tasks :=
    List.filter_eq_self.mpr fun t ht => by simpa using h.gone t ht
  rw [load, loadBesides, hall]

/-- Starts one task, whose turn comes before that of all others. -/
def enlist (w : World) (job : Job) : World :=
  { w with
    nextTask := w.nextTask + 1
    ready := ⟨w.nextTask, job, []⟩ :: w.ready }

theorem tasks_enlist (w : World) (job : Job) :
    (w.enlist job).tasks = ⟨w.nextTask, job, []⟩ :: w.tasks := rfl

theorem Numbered.enlist (h : Numbered w []) (job : Job) : Numbered (w.enlist job) [] := by
  refine (h.start job []).shuffle
    ⟨⟨(w.enlist job).ready, w.paused, w.asleep, w.now, rfl⟩, ?_, fun _ h => h⟩
  have hready : (w.enlist job).ready.Perm (w.start job []).ready :=
    (List.perm_append_singleton _ w.ready).symm
  exact (hready.append_right _).append_right _

/-- What is done for one thing that is asked for. -/
theorem perform_eq (s : Stage) (w : World) (job : Job) :
    w.perform s job = ((w.enlist job).finishWithin s w.nextTask s.patience,
      ((w.enlist job).finishWithin s w.nextTask s.patience).outcome? w.nextTask) := by
  simp [perform, performAll, startFirst, finish, enlist]

/-- A move to the next stop comes to an end, and leads there. -/
theorem Idle.perform (hs : s.IsObliging) (h : Idle s w)
    (hpatience : 3 * (w.load s + s.config.settleFrames + s.entryCost + 10) ≤ s.patience) :
    ∃ w', w.perform s (.travel (.offset 1)) = (w', some .completed) ∧ Idle s w' ∧
      w'.position = s.placeAfter w.position ∧ w'.load s ≤ w.load s := by
  have hsmooth : Smooth s w.nextTask (w.enlist (.travel (.offset 1))) := by
    refine ⟨⟨h.live, h.error, h.deaf, h.queue, h.paused⟩, h.toNumbered.enlist _,
      fun x hx => Nat.lt_succ_of_lt (h.settled x hx), fun t ht hid => ?_⟩
    rcases List.mem_cons.mp (tasks_enlist w _ ▸ ht) with rfl | ht
    · exact absurd rfl hid
    · exact h.bystander ht
  have htravels : Travels s (.offset 1) w.position w.nextTask (w.enlist (.travel (.offset 1))) := by
    refine ⟨⟨_, List.mem_cons_self, rfl, ?_⟩, fun x hx => Nat.ne_of_lt (h.settled x hx)⟩
    simp only [enlist, h.free]
    exact .travel
  have hbesides : (w.enlist (.travel (.offset 1))).loadBesides s w.nextTask = w.load s := by
    have hold : w.tasks.filter (·.id != w.nextTask) = w.tasks :=
      List.filter_eq_self.mpr fun t ht => by simpa using Nat.ne_of_lt (h.below t ht)
    rw [loadBesides, tasks_enlist, List.filter_cons_of_neg (by simp), hold, load, enlist]
  have htoil : (w.enlist (.travel (.offset 1))).toil s ≤ s.patience := by
    have hlength := Task.length_le_costs s w.tasks
    have hasleep : w.asleep.length ≤ w.tasks.length := by
      simp only [tasks, active, List.length_append, List.length_map]
      omega
    rw [toil, load, tasks_enlist, Task.costs_cons, enlist]
    rw [load] at hpatience
    simp only [Task.cost, Job.cost, List.map_nil, List.sum_nil]
    omega
  obtain ⟨hsmooth', harrived, hle⟩ := hsmooth.finishWithin hs
    (fun u hu => by rw [target?, hu]) (.inl htravels) htoil
  obtain ⟨hidle, hload⟩ := hsmooth'.idle harrived
  refine ⟨_, ?_, hidle, harrived.position, ?_⟩
  · rw [perform_eq, harrived.outcome]
  · rw [hload, ← hbesides]
    exact hle

/-! ## The opening -/

/-- A task that is first in line takes a step before it has ended. -/
theorem finishWithin_succ {id fuel : Nat} {rest : List Task} (hnone : w.outcome? id = none)
    (hready : w.ready = t :: rest) :
    w.finishWithin s id (fuel + 1) = (w.takeTurn s t rest).finishWithin s id fuel := by
  simp [finishWithin, hnone, isQuiet, step, takeTurn, hready]

/-- The player that begins, when the reactions that hold throughout were put up. -/
def atOpening (s : Stage) (journal : List Record) : World :=
  ({ journal, nextTask := 1 } : World).bind s .tour s.document.reactions
    ⟨-1, none, s.config.defaultErrorPolicy, .announce⟩

/-- What the task that begins is at then. -/
def openingJob (s : Stage) : Job :=
  if s.document.stops.isEmpty then .ended .completed else .travel (.index 0)

/-- After a few steps the tour is open. -/
theorem begin_opens (s : Stage) (render : Option Json) : ∃ journal fuel, s.patience ≤ fuel + 4 ∧
    (({} : World).enlist (.begin render)).finishWithin s 0 s.patience =
      ((atOpening s journal).place 0 (.go (openingJob s) [])).finishWithin s 0 fuel := by
  obtain ⟨fuel, hfuel⟩ : ∃ fuel, s.patience = fuel + 4 := ⟨s.patience - 4, by
    rw [Stage.patience]
    omega⟩
  have hopened : ∀ (journal : List Record) (fuel : Nat),
      ({ journal, nextTask := 1, ready := [⟨0, .ended .completed, [.opened]⟩] } : World).finishWithin s 0
          (fuel + 1) =
        ((atOpening s journal).place 0 (.go (openingJob s) [])).finishWithin s 0 fuel := by
    intro journal fuel
    rw [finishWithin_succ rfl rfl]
    congr 1
    simp only [takeTurn, Job.step, Wait.resume, opened, openingJob, atOpening]
    split <;> rfl
  rw [hfuel]
  cases render with
  | none =>
      refine ⟨[], fuel + 1, by omega, ?_⟩
      rw [finishWithin_succ rfl rfl, finishWithin_succ rfl rfl]
      exact hopened [] (fuel + 1)
  | some payload =>
      refine ⟨[.announced (.render payload)], fuel, Nat.le_refl _, ?_⟩
      rw [finishWithin_succ rfl rfl, finishWithin_succ rfl rfl, finishWithin_succ rfl rfl]
      exact hopened _ fuel

end World

/-- How many steps the timers of a tour take at most. -/
def Stage.budget (s : Stage) : Nat :=
  Reaction.costs s.document.reactions + s.fund (-1)

/-- A player has patience enough for all timers of a tour, and for a move beside them. -/
theorem Stage.budget_lt_patience (s : Stage) :
    3 * (s.budget + s.config.settleFrames + s.entryCost + 10) + 4 ≤ s.patience := by
  have hcosts : ∀ rs : List Reaction,
      Reaction.costs rs = 3 * (rs.flatMap Reaction.actions).length + 7 * rs.length := by
    intro rs
    induction rs with
    | nil => rfl
    | cons r rs ih =>
        rw [Reaction.costs, List.map_cons, List.sum_cons, ← Reaction.costs, ih, Reaction.cost]
        simp only [List.flatMap_cons, List.length_append, List.length_cons]
        omega
  have hbudget : s.budget =
      Reaction.costs (s.document.reactions ++ s.document.stops.flatMap Stop.reactions) := by
    rw [Reaction.costs_append]
    rfl
  have hactions : ((s.document.reactions ++ s.document.stops.flatMap Stop.reactions).flatMap
      Reaction.actions).length ≤ s.document.actions.length := by
    rw [Document.actions, List.length_append]
    exact Nat.le_add_left _ _
  have hproduct : s.config.settleFrames + s.document.size + 1 ≤
      (s.config.settleFrames + 1) * (s.document.size + 1) := by
    rw [Nat.add_mul, Nat.mul_add]
    omega
  rw [hbudget, hcosts, patience, entryCost, Nat.mul_assoc]
  rw [List.length_append]
  unfold Document.size at hproduct ⊢
  omega

namespace World

variable {s : Stage} {w w' : World}

/-- When the tour is open, nothing but timers has been started besides the task that begins. -/
private theorem smooth_opening (hs : s.IsObliging) (journal : List Record) :
    let v := (atOpening s journal).place 0 (.go (openingJob s) [])
    Smooth s 0 v ∧ Travels s (.index 0) (-1) 0 v ∧ v.loadBesides s 0 ≤ s.budget ∧
      v.toil s + 4 ≤ s.patience := by
  intro v
  have htasks : v.tasks.Perm (⟨0, openingJob s, []⟩ :: timerTasks
      ⟨-1, none, s.config.defaultErrorPolicy, .announce⟩ 1 (timersOf s s.document.reactions)) := by
    have hbind := tasks_bind s { journal, nextTask := 1 } .tour s.document.reactions
      ⟨-1, none, s.config.defaultErrorPolicy, .announce⟩
    rw [show ({ journal, nextTask := 1 } : World).tasks = [] from rfl, List.append_nil] at hbind
    exact hbind.cons _
  have htimers : Task.costs s (timerTasks ⟨-1, none, s.config.defaultErrorPolicy, .announce⟩ 1
      (timersOf s s.document.reactions)) ≤ Reaction.costs s.document.reactions :=
    costs_timerTasks s _ _ _
  have hv : v.IsSerene ∧ v.outcomes = [] ∧ v.position = -1 ∧ v.traveller = none ∧ v.asleep = [] := by
    simp only [v, place, atOpening, bind_eq, and_true]
    exact ⟨rfl, rfl, rfl, rfl, rfl⟩
  obtain ⟨hserene, houtcomes, hposition, htraveller, hasleep⟩ := hv
  have hnumbered : Numbered v [] := by
    have hfirst : Numbered { journal, nextTask := 1 } [⟨0, openingJob s, []⟩] :=
      ⟨by simp [tasks, active], by simp [tasks, active], by rintro (_ | _) <;> simp [rig]⟩
    have hhand : Numbered (atOpening s journal) ((Turn.go (openingJob s) []).task? 0).toList :=
      hfirst.bind .tour _ _
    exact hhand.place
  refine ⟨⟨hserene, hnumbered, by simp [houtcomes], ?_⟩, ⟨⟨_, htasks.symm.subset List.mem_cons_self,
    rfl, ?_⟩, by simp [houtcomes]⟩, ?_, ?_⟩
  · intro t ht hid
    rcases List.mem_cons.mp (htasks.subset ht) with rfl | ht
    · exact absurd rfl hid
    · obtain ⟨-, r, hr, hjob, hwaits⟩ := mem_timerTasks ht
      rw [hjob, hwaits]
      exact .await (hs.eases_tour r ((timersOf_sublist s _).subset hr))
  · rw [hposition, htraveller]
    unfold openingJob
    split
    · rename_i hnone
      have hgoal : place? s (-1 + 1) = none := by
        simp [place?, List.isEmpty_iff.mp hnone]
      have hover : Errand s (.index 0) (-1) (s.placeAfter (-1)) none _ _ := .ended
      rwa [Stage.placeAfter_of_none hgoal] at hover
    · exact .travel
  · rw [loadBesides, Task.costs_perm (htasks.filter _), List.filter_cons_of_neg (by simp), hposition,
      Stage.budget]
    have hle : Task.costs s ((timerTasks ⟨-1, none, s.config.defaultErrorPolicy, .announce⟩ 1
        (timersOf s s.document.reactions)).filter (·.id != 0)) ≤ Task.costs s (timerTasks
          ⟨-1, none, s.config.defaultErrorPolicy, .announce⟩ 1 (timersOf s s.document.reactions)) :=
      Task.costs_subperm List.filter_sublist.subperm
    omega
  · have hpatience := s.budget_lt_patience
    have hjob : (openingJob s).cost s ≤ s.config.settleFrames + s.entryCost + 9 := by
      unfold openingJob
      split <;> simp [Job.cost]
    rw [toil, load, Task.costs_perm htasks, Task.costs_cons, hposition, hasleep, Task.cost]
    rw [Stage.budget] at hpatience
    simp only [List.map_nil, List.sum_nil, List.length_nil]
    omega

/-- The player begins, and comes to the first stop if there is one. -/
theorem begin_idle (hs : s.IsObliging) (render : Option Json) :
    ∃ w, ({} : World).perform s (.begin render) = (w, some .completed) ∧ Idle s w ∧
      w.position = s.placeAfter (-1) ∧ w.load s ≤ s.budget := by
  obtain ⟨journal, fuel, hfuel, hopens⟩ := begin_opens s render
  obtain ⟨hsmooth, htravels, hbesides, htoil⟩ := smooth_opening hs journal
  have hfuel' : ((atOpening s journal).place 0 (.go (openingJob s) [])).toil s ≤ fuel := by omega
  obtain ⟨hsmooth', harrived, hle⟩ := hsmooth.finishWithin hs (fun _ _ => rfl) (.inl htravels) hfuel'
  obtain ⟨hidle, hload⟩ := hsmooth'.idle harrived
  refine ⟨_, ?_, hidle, harrived.position, ?_⟩
  · rw [perform_eq, show ({} : World).nextTask = 0 from rfl, hopens, harrived.outcome]
  · rw [hload]
    exact Nat.le_trans hle hbesides

/-! ## The rehearsal -/

/-- A rehearsal from a world on, which nothing bounds: the states after each move to the next stop, until
a move leaves the player where it was. -/
inductive Rehearsed (s : Stage) : World → List PlayerState → Prop where
  | last {w w' : World} : w.perform s (.travel (.offset 1)) = (w', some .completed) →
      w'.position = w.position → Rehearsed s w []
  | next {w w' : World} {states : List PlayerState} :
      w.perform s (.travel (.offset 1)) = (w', some .completed) → w'.position ≠ w.position →
      Rehearsed s w' states → Rehearsed s w (w'.state s :: states)

/-- A walk that may take a move more than there are states is such a rehearsal. -/
theorem Rehearsed.walk {states : List PlayerState} (h : Rehearsed s w states) :
    ∀ {fuel : Nat}, states.length < fuel → walk s fuel w = (states, none) := by
  induction h with
  | last hperform hsame =>
      intro fuel hfuel
      obtain ⟨fuel, rfl⟩ := Nat.exists_eq_succ_of_ne_zero (Nat.ne_of_gt hfuel)
      simp [World.walk, hperform, hsame]
  | next hperform hmoved _ ih =>
      intro fuel hfuel
      rw [List.length_cons] at hfuel
      obtain ⟨fuel, rfl⟩ := Nat.exists_eq_succ_of_ne_zero (Nat.ne_of_gt (Nat.zero_lt_of_lt hfuel))
      have hrest := @ih fuel (by omega)
      simp [World.walk, hperform, hmoved, hrest]

end World

/-- The states of a player at the stops of a tour, one after the other, without any failure. -/
def Document.showings (d : Document) : List PlayerState :=
  d.stops.mapIdx fun i stop => ⟨i, some stop.id, d.stops.length, none⟩

/-- What is seen of a tour as a whole: its stops, or that there are none. -/
def Document.itinerary (d : Document) : List PlayerState :=
  if d.stops.isEmpty then [⟨-1, none, 0, none⟩] else d.showings

theorem Document.length_itinerary (d : Document) : d.itinerary.length = max 1 d.stops.length := by
  unfold itinerary showings
  split
  · rename_i h
    simp [List.isEmpty_iff.mp h]
  · rename_i h
    rw [List.length_mapIdx]
    have hpos : 0 < d.stops.length := List.length_pos_iff.mpr fun hnil => h (by simp [hnil])
    omega

namespace World

variable {s : Stage} {w w' : World}

/-- What is seen of an idle player at a stop. -/
theorem Idle.state (h : Idle s w) {j : Nat} (hj : j < s.document.showings.length)
    (hposition : w.position = j) : w.state s = s.document.showings[j] := by
  have hstop : j < s.document.stops.length := by simpa [Document.showings] using hj
  simp [World.state, hposition, h.error, Document.showings, hstop]

/-- From an idle player on a rehearsal shows the stops that are ahead. -/
theorem Idle.rehearsed (hs : s.IsObliging) : ∀ (ahead : Nat) {w : World}, Idle s w →
    w.load s ≤ s.budget → ∀ reached : Nat, w.position + 1 = reached →
    reached + ahead = s.document.stops.length → Rehearsed s w (s.document.showings.drop reached) := by
  intro ahead
  have hpatience := s.budget_lt_patience
  -- The induction is on the number of stops that are ahead
  induction ahead with
  | zero =>
      intro w h hload reached hposition hall
      obtain ⟨w', hperform, -, hplace, -⟩ := h.perform hs (by omega)
      have hgoal : place? s (w.position + 1) = none := by
        rw [place?, hposition]
        simp
        omega
      have hnone : s.document.showings.drop reached = [] := by
        simp [Document.showings]
        omega
      rw [hnone]
      exact .last hperform (hplace.trans (Stage.placeAfter_of_none hgoal))
  | succ ahead ih =>
      intro w h hload reached hposition hall
      obtain ⟨w', hperform, hidle, hplace, hload'⟩ := h.perform hs (by omega)
      have hlt : reached < s.document.stops.length := by omega
      have hgoal : place? s (w.position + 1) = some reached := by
        rw [place?, hposition]
        simp [hlt]
      rw [Stage.placeAfter_of_place? hgoal] at hplace
      have hshown : reached < s.document.showings.length := by simpa [Document.showings] using hlt
      rw [List.drop_eq_getElem_cons hshown, ← hidle.state hshown hplace]
      refine .next hperform (by omega) (ih hidle (Nat.le_trans hload' hload) _ ?_ (by omega))
      rw [hplace]
      rfl

end World

namespace Stage

variable {s : Stage}

/-- On a stage where nothing fails a rehearsal begins, moves on and comes to an end by itself; it shows
all stops in order. -/
theorem rehearsal_visits_all (hs : s.IsObliging) (render : Option Json) :
    ∃ w states, ({} : World).perform s (.begin render) = (w, some .completed) ∧
      World.Rehearsed s w states ∧ w.state s :: states = s.document.itinerary := by
  obtain ⟨w, hperform, hidle, hplace, hload⟩ := World.begin_idle hs render
  by_cases hnone : s.document.stops = []
  · have hgoal : World.place? s (-1 + 1) = none := by simp [World.place?, hnone]
    rw [placeAfter_of_none hgoal] at hplace
    refine ⟨w, [], hperform, ?_, ?_⟩
    · have hrest := hidle.rehearsed hs 0 hload 0 (by rw [hplace]; rfl) (by simp [hnone])
      simpa [Document.showings, hnone] using hrest
    · simp [World.state, hplace, hidle.error, Document.itinerary, hnone]
  · have hpos : 0 < s.document.stops.length := List.length_pos_iff.mpr hnone
    have hgoal : World.place? s (-1 + 1) = some 0 := by simp [World.place?, hpos]
    rw [placeAfter_of_place? hgoal] at hplace
    have hshown : 0 < s.document.showings.length := by simpa [Document.showings] using hpos
    refine ⟨w, s.document.showings.drop 1, hperform,
      hidle.rehearsed hs (s.document.stops.length - 1) hload 1 (by rw [hplace]; rfl) (by omega), ?_⟩
    rw [hidle.state hshown hplace, ← List.drop_eq_getElem_cons hshown, Document.itinerary]
    simp [hnone]

/-- On the stage of a rehearsal nothing fails. -/
theorem rehearsing_isObliging (d : Document) (config : PlaybackConfig) :
    (rehearsing d config).IsObliging where
  paced := rfl
  eases a ha := by
    have hfind : ((Handlers.succeeding d).entries.find? (·.1 == a.kind)).isSome = true := by
      rw [List.find?_isSome]
      exact ⟨_, List.mem_map_of_mem ha, by simp⟩
    obtain ⟨entry, hentry⟩ := Option.isSome_iff_exists.mp hfind
    obtain ⟨b, -, rfl⟩ := List.mem_map.mp (List.mem_of_find?_eq_some hentry)
    refine ⟨fun _ => .succeed, ?_, fun _ => rfl⟩
    exact congrArg (Option.map Prod.snd) hentry

/-- A rehearsal of a tour shows all of its stops in order, and meets no failure. -/
theorem rehearse_rehearsing (d : Document) (config : PlaybackConfig) :
    (rehearsing d config).rehearse = (d.itinerary, none) := by
  obtain ⟨w, states, hperform, hrehearsed, hall⟩ :=
    rehearsal_visits_all (rehearsing_isObliging d config) d.renderPayload?
  have hlength : states.length < d.stops.length + 1 := by
    have hcount := congrArg List.length hall
    rw [List.length_cons, show (rehearsing d config).document = d from rfl, d.length_itinerary] at hcount
    omega
  have hwalk := hrehearsed.walk hlength
  unfold rehearse
  rw [show (rehearsing d config).document = d from rfl, hperform]
  simp only [hwalk]
  rw [hall]
  rfl

end Stage

/-! ## On a command line -/

namespace Answer

/-- The document that a file describes, if it can be loaded or is compiled without an error. -/
def loaded? (file source : String) : Option Document :=
  if isDocument file then (Document.ofText source).toOption else sound? (DiagramTour.compile source)

/-- Whoever plays a file that can be loaded sees the states of a player at all stops, in order and each
once, or that there is no stop.  The rehearsal comes to an end by itself, and nothing fails. -/
theorem play_visits_all (file source : String) {d : Document} (config : PlaybackConfig)
    (h : loaded? file source = some d) :
    let a := play file source config
    let s := Stage.rehearsing d config
    a.code = 0 ∧ a.output = stateLines d.itinerary ∧
      d.itinerary.length = max 1 d.stops.length ∧ s.rehearse = (d.itinerary, none) ∧
      ∃ w states, ({} : World).perform s (.begin d.renderPayload?) = (w, some .completed) ∧
        World.Rehearsed s w states ∧ w.state s :: states = d.itinerary := by
  intro a s
  have hrehearse := Stage.rehearse_rehearsing d config
  have hplay : a.code = 0 ∧ a.output = stateLines d.itinerary := by
    unfold loaded? at h
    simp only [a, play]
    split at h
    · rename_i hdocument
      cases hload : Document.ofText source with
      | error e => simp [hload, Except.toOption] at h
      | ok d' =>
          cases (show some d' = some d by simpa [hload, Except.toOption] using h)
          simp [hdocument, walk, hrehearse]
    · rename_i hsource
      simp [hsource, h, walk, hrehearse]
  exact ⟨hplay.1, hplay.2, d.length_itinerary, hrehearse,
    Stage.rehearsal_visits_all (Stage.rehearsing_isObliging d config) d.renderPayload?⟩

/-- A tour of two stops, of which the second has a timer that asks for the next one. -/
def twoStops : String :=
  "mpd 1\ndeck \x7b scene \x7b step a \x7b focus node A \x7d step b \x7b " ++
    "binding \x7b on timer 5ms \x7b do next(by: 1) \x7d \x7d \x7d \x7d \x7d"

theorem twoStops_are_visited :
    (play "tour.mpd" twoStops {}).code = 0 ∧
      (play "tour.mpd" twoStops {}).output =
        stateLines [⟨0, some "a", 2, none⟩, ⟨1, some "b", 2, none⟩] := by
  have hsource : isDocument "tour.mpd" = false := by
    simp +decide [isDocument, baseName, String.splitOn, String.splitOnAux]
  have hids : ((sound? (DiagramTour.compile twoStops)).map fun d => d.stops.map Stop.id) =
      some ["a", "b"] := by
    decide +kernel
  obtain ⟨d, hd, hstops⟩ := Option.map_eq_some_iff.mp hids
  have hloaded : loaded? "tour.mpd" twoStops = some d := by simp [loaded?, hsource, hd]
  obtain ⟨hcode, houtput, -⟩ := play_visits_all "tour.mpd" twoStops {} hloaded
  refine ⟨hcode, houtput.trans (congrArg stateLines ?_)⟩
  obtain ⟨a, rest, hall, ha, hrest⟩ := List.map_eq_cons_iff.mp hstops
  obtain ⟨b, last, rfl, hb, hlast⟩ := List.map_eq_cons_iff.mp hrest
  simp [Document.itinerary, Document.showings, hall, ha, hb, List.map_eq_nil_iff.mp hlast]

end Answer

end DiagramTour
